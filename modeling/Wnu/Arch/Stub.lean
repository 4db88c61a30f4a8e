import Wnu.Memory.Rounding
import Wnu.Memory.Stack

/-! # The interrupt of the keyboard

The processor puts what it needs to resume on the stack and enters the stub, which saves
the registers, calls the handler and restores them. Whatever the handler does that a
function may do, the program that was interrupted goes on as if nothing had happened.
-/

namespace Wnu.Arch

open Memory

inductive Register
  | rax | rcx | rdx | rbx | rsp | rbp | rsi | rdi
  | r8 | r9 | r10 | r11 | r12 | r13 | r14 | r15
  deriving DecidableEq

/-- The part of the processor that an interrupt has to do with, and the memory. -/
structure Cpu where
  regs : Register → UInt64
  rip : UInt64
  rflags : UInt64
  cs : UInt16
  ss : UInt16
  memory : Mem UInt8

namespace Cpu

variable (c : Cpu)

def rsp : UInt64 := c.regs .rsp

def setReg (r : Register) (v : UInt64) : Cpu := { c with regs := Function.update c.regs r v }

def push (v : UInt64) : Cpu :=
  { c.setReg .rsp (c.rsp - 8) with memory := storeLE c.memory (c.rsp - 8).toNat 8 v.toNat }

def word (i : ℕ) : UInt64 := UInt64.ofNat (loadLE c.memory (c.rsp.toNat + 8 * i) 8)

end Cpu

inductive Instruction
  | cld
  | push (r : Register)
  | pop (r : Register)
  | sub (r : Register) (n : UInt64)
  | add (r : Register) (n : UInt64)
  | call
  | iretq
  deriving DecidableEq

abbrev directionFlag : UInt64 := 0x400

abbrev statusFlags : UInt64 := 0x8d5

/-- The flags that an interrupt gate clears: the trap flag, the interrupt flag, the nested task flag
and the resume flag. -/
abbrev gateFlags : UInt64 := 0x14300

/-- What is called, where it returns to, and how the status flags are set. -/
structure Surroundings where
  callee : Cpu → Cpu
  returnTo : UInt64
  status : Cpu → Instruction → UInt64

variable (env : Surroundings)

def Surroundings.flags (c : Cpu) (i : Instruction) : UInt64 :=
  (c.rflags &&& ~~~statusFlags) ||| (env.status c i &&& statusFlags)

def exec (c : Cpu) : Instruction → Cpu
  | .cld => { c with rflags := c.rflags &&& ~~~directionFlag }
  | .push r => c.push (c.regs r)
  | .pop r => (c.setReg .rsp (c.rsp + 8)).setReg r (c.word 0)
  | .sub r n => { c.setReg r (c.regs r - n) with rflags := env.flags c (.sub r n) }
  | .add r n => { c.setReg r (c.regs r + n) with rflags := env.flags c (.add r n) }
  | .call => env.callee (c.push env.returnTo)
  | .iretq =>
    { c.setReg .rsp (c.word 3) with
      rip := c.word 0, cs := (c.word 1).toUInt16, rflags := c.word 2, ss := (c.word 4).toUInt16 }

def execAll (c : Cpu) (is : List Instruction) : Cpu := is.foldl (exec env) c

/-- `PUSH_REGS` -/
def pushRegs : List Instruction :=
  [.push .rax, .push .rcx, .push .rdx, .push .rbx, .push .rbp, .push .rsi, .push .rdi, .push .r8,
    .push .r9, .push .r10, .push .r11, .push .r12, .push .r13, .push .r14, .push .r15]

/-- `POP_REGS` -/
def popRegs : List Instruction :=
  [.pop .r15, .pop .r14, .pop .r13, .pop .r12, .pop .r11, .pop .r10, .pop .r9, .pop .r8, .pop .rdi,
    .pop .rsi, .pop .rbp, .pop .rbx, .pop .rdx, .pop .rcx, .pop .rax]

/-- `irq1_stub`, up to the call. -/
def beforeCall : List Instruction := [.cld] ++ pushRegs ++ [.sub .rsp 8]

/-- `irq1_stub`, after the call. -/
def afterCall : List Instruction := [.add .rsp 8] ++ popRegs ++ [.iretq]

/-- `irq1_stub` -/
def irq1Stub : List Instruction := beforeCall ++ [.call] ++ afterCall

/-- What the processor does for an interrupt, before the first instruction of the handler. -/
def interrupt (handler : UInt64) (selector : UInt16) (c : Cpu) : Cpu :=
  let aligned := c.setReg .rsp (c.rsp &&& ~~~15)
  let c' := (((aligned.push c.ss.toUInt64).push c.rsp).push c.rflags).push c.cs.toUInt64
  let c' := c'.push c.rip
  { c' with rip := handler, cs := selector, rflags := c.rflags &&& ~~~gateFlags }

/-- A function that keeps to the calling convention, but for the alignment of the stack at its
entry, which it does not rely on. It is entered with the direction flag clear, returns to its
caller, and leaves alone the part of the stack above its own. -/
structure Convention (callee : Cpu → Cpu) (stackEnd : ℕ) : Prop where
  rsp : ∀ c, c.rflags &&& directionFlag = 0 → (callee c).rsp = c.rsp + 8
  stack : ∀ c, c.rflags &&& directionFlag = 0 →
    ∀ a, c.rsp.toNat + 8 ≤ a → a < stackEnd → (callee c).memory a = c.memory a

variable {env} {c c' : Cpu} {sp bound : ℕ} {ws : List UInt64}

/-! ## The stack -/

structure Cpu.Stacked (c : Cpu) (sp : ℕ) (ws : List UInt64) : Prop where
  rsp : c.rsp.toNat = sp
  words : OnStack c.memory sp ws

namespace Cpu

@[simp] theorem regs_push_of_ne (v : UInt64) {r : Register} (h : r ≠ .rsp) :
    (c.push v).regs r = c.regs r := Function.update_of_ne h _ _

@[simp] theorem rflags_push (v : UInt64) : (c.push v).rflags = c.rflags := rfl

theorem rsp_push (v : UInt64) : (c.push v).rsp = c.rsp - 8 := by
  simp only [rsp, push, setReg, Function.update_self]

theorem toNat_rsp_sub (h : c.rsp.toNat = sp + 8) : (c.rsp - 8).toNat = sp := by
  have hle : (8 : UInt64) ≤ c.rsp := by
    rw [UInt64.le_iff_toNat_le, h]
    exact Nat.le_add_left 8 sp
  rw [UInt64.toNat_sub_of_le _ _ hle, h]
  exact Nat.add_sub_cancel sp 8

theorem toNat_rsp_push (h : c.rsp.toNat = sp + 8) (v : UInt64) : (c.push v).rsp.toNat = sp := by
  rw [rsp_push, toNat_rsp_sub h]

theorem memory_push (h : c.rsp.toNat = sp + 8) (v : UInt64) :
    (c.push v).memory = storeLE c.memory sp 8 v.toNat := by
  rw [push, toNat_rsp_sub h]

theorem memory_push_of_le (h : c.rsp.toNat = sp + 8) (v : UInt64) {a : ℕ} (ha : sp + 8 ≤ a) :
    (c.push v).memory a = c.memory a := by
  rw [memory_push h, storeLE_apply, if_neg (by omega)]

theorem Stacked.push (h : c.Stacked (sp + 8) ws) (v : UInt64) :
    (c.push v).Stacked sp (v :: ws) where
  rsp := toNat_rsp_push h.rsp v
  words := by
    rw [memory_push h.rsp]
    exact h.words.push v

theorem Stacked.word {vs : List UInt64} {v : UInt64} (h : c.Stacked sp (vs ++ v :: ws)) :
    c.word vs.length = v := by
  rw [Cpu.word, h.rsp]
  exact h.words.drop.top

theorem toNat_rsp_add (h : c.rsp.toNat = sp) (hroom : sp + 8 < 2 ^ 64) :
    (c.rsp + 8).toNat = sp + 8 := by
  rw [UInt64.toNat_add, h]
  exact Nat.mod_eq_of_lt hroom

end Cpu

/-! ## Saving and restoring -/

theorem execAll_cons (i : Instruction) (is : List Instruction) :
    execAll env c (i :: is) = execAll env (exec env c i) is := rfl

theorem execAll_singleton (i : Instruction) : execAll env c [i] = exec env c i := rfl

theorem execAll_append (is js : List Instruction) :
    execAll env c (is ++ js) = execAll env (execAll env c is) js := List.foldl_append

structure Pushed (vs ws : List UInt64) (c : Cpu) (sp : ℕ) (c' : Cpu) : Prop where
  stacked : c'.Stacked sp (vs.reverse ++ ws)
  regs : ∀ r, r ≠ .rsp → c'.regs r = c.regs r
  rflags : c'.rflags = c.rflags
  memory : ∀ a, sp + 8 * vs.length ≤ a → c'.memory a = c.memory a

theorem pushed_foldl {vs : List UInt64} (h : c.Stacked (sp + 8 * vs.length) ws) :
    Pushed vs ws c sp (vs.foldl Cpu.push c) := by
  induction vs generalizing c ws with
  | nil => exact ⟨h, fun _ _ => rfl, rfl, fun _ _ => rfl⟩
  | cons v vs ih =>
    rw [List.length_cons, Nat.mul_add_one, ← Nat.add_assoc] at h
    obtain ⟨hstacked, hregs, hrflags, hmemory⟩ := ih (h.push v)
    rw [List.foldl_cons]
    constructor
    · rwa [List.reverse_cons, List.append_assoc, List.singleton_append]
    · rintro r hr
      rw [hregs r hr, Cpu.regs_push_of_ne v hr]
    · exact hrflags
    · intro a ha
      rw [List.length_cons, Nat.mul_add_one, ← Nat.add_assoc] at ha
      exact (hmemory a (by omega)).trans (Cpu.memory_push_of_le h.rsp v ha)

theorem execAll_pushes {rs : List Register} (hrs : .rsp ∉ rs) :
    execAll env c (rs.map .push) = (rs.map c.regs).foldl Cpu.push c := by
  induction rs generalizing c with
  | nil => rfl
  | cons r rs ih =>
    have hrest : .rsp ∉ rs := fun hmem => hrs (List.mem_cons_of_mem r hmem)
    have hregs : rs.map (c.push (c.regs r)).regs = rs.map c.regs := by
      apply List.map_congr_left
      rintro r' hr'
      exact Cpu.regs_push_of_ne _ fun heq => hrest (heq ▸ hr')
    rw [List.map_cons, execAll_cons, ih hrest, List.map_cons, List.foldl_cons, exec, hregs]

structure Restored (rs : List Register) (value : Register → UInt64) (ws : List UInt64) (c : Cpu)
    (sp : ℕ) (c' : Cpu) : Prop where
  stacked : c'.Stacked (sp + 8 * rs.length) ws
  regs : ∀ r ∈ rs, c'.regs r = value r
  others : ∀ r ∉ rs, r ≠ .rsp → c'.regs r = c.regs r
  memory : c'.memory = c.memory

theorem restored_pop {r : Register} {v : UInt64} (hr : r ≠ .rsp) (h : c.Stacked sp (v :: ws))
    (hroom : sp + 8 < 2 ^ 64) : Restored [r] (fun _ => v) ws c sp (exec env c (.pop r)) := by
  have hstacked : c.Stacked sp ([] ++ v :: ws) := h
  have hword : c.word 0 = v := hstacked.word
  constructor
  · constructor
    · have hrsp : (exec env c (.pop r)).rsp = c.rsp + 8 := by
        simp only [exec, Cpu.rsp, Cpu.setReg, Function.update_of_ne hr.symm, Function.update_self]
      rw [hrsp]
      exact Cpu.toNat_rsp_add h.rsp hroom
    · exact h.words.pop
  · rintro r' hr'
    obtain rfl := List.mem_singleton.mp hr'
    simp only [exec, Cpu.setReg, Function.update_self, hword]
  · rintro r' hr' hne
    rw [List.mem_singleton] at hr'
    simp only [exec, Cpu.setReg, Function.update_of_ne hr', Function.update_of_ne hne]
  · rfl

theorem restored_pops {rs : List Register} {value : Register → UInt64} (hrs : .rsp ∉ rs)
    (hnodup : rs.Nodup) (h : c.Stacked sp (rs.map value ++ ws))
    (hroom : sp + 8 * rs.length < 2 ^ 64) :
    Restored rs value ws c sp (execAll env c (rs.map .pop)) := by
  induction rs generalizing c sp with
  | nil => exact ⟨h, fun _ hr => absurd hr List.not_mem_nil, fun _ _ _ => rfl, rfl⟩
  | cons r rs ih =>
    rw [List.length_cons, Nat.mul_add_one] at hroom
    obtain ⟨hr, hnodup'⟩ := List.nodup_cons.mp hnodup
    have hne : r ≠ .rsp := fun heq => hrs (heq ▸ List.mem_cons_self)
    obtain ⟨hstacked, hself, hothers, hmemory⟩ :=
      restored_pop hne h (by omega)
    obtain ⟨hstacked', hregs', hothers', hmemory'⟩ :=
      ih (fun hmem => hrs (List.mem_cons_of_mem r hmem)) hnodup' hstacked (by simp; omega)
    rw [List.map_cons, execAll_cons]
    constructor
    · rwa [List.length_cons, Nat.mul_add_one, Nat.add_comm (8 * _), ← Nat.add_assoc]
    · rintro r' hr'
      rcases List.mem_cons.mp hr' with rfl | hr'
      · rw [hothers' r' hr hne]
        exact hself r' List.mem_cons_self
      · exact hregs' r' hr'
    · rintro r' hr' hrsp
      rw [List.mem_cons, not_or] at hr'
      rw [hothers' r' hr'.2 hrsp]
      exact hothers r' (List.mem_singleton.not.mpr hr'.1) hrsp
    · exact hmemory'.trans hmemory

/-! ## The stub -/

def savedRegs : List Register :=
  [.rax, .rcx, .rdx, .rbx, .rbp, .rsi, .rdi, .r8, .r9, .r10, .r11, .r12, .r13, .r14, .r15]

theorem mem_savedRegs {r : Register} (h : r ≠ .rsp) : r ∈ savedRegs := by
  cases r <;> first | exact absurd rfl h | decide

def frame (c : Cpu) : List UInt64 := [c.rip, c.cs.toUInt64, c.rflags, c.rsp, c.ss.toUInt64]

theorem toNat_aligned (x : UInt64) : (x &&& ~~~15).toNat = x.toNat / 16 * 16 := by
  have hmask : UInt64.size - 1 - (15 : UInt64).toNat = 2 ^ 64 - 2 ^ 4 := rfl
  rw [UInt64.toNat_and, UInt64.toNat_not, hmask]
  exact and_two_pow_sub_two_pow (by decide) x.toNat_lt

theorem pushed_interrupt (handler : UInt64) (selector : UInt16)
    (hroom : 40 ≤ c.rsp.toNat / 16 * 16) :
    let c' := interrupt handler selector c
    c'.Stacked (c.rsp.toNat / 16 * 16 - 40) (frame c) ∧
      (∀ r, r ≠ .rsp → c'.regs r = c.regs r) ∧
      ∀ a, c.rsp.toNat ≤ a → c'.memory a = c.memory a := by
  have haligned : (c.setReg .rsp (c.rsp &&& ~~~15)).Stacked
      (c.rsp.toNat / 16 * 16 - 40 + 8 * (frame c).reverse.length) [] := by
    have hrsp : (c.setReg .rsp (c.rsp &&& ~~~15)).rsp = c.rsp &&& ~~~15 := by
      simp only [Cpu.rsp, Cpu.setReg, Function.update_self]
    refine ⟨?_, trivial⟩
    rw [hrsp, toNat_aligned, frame]
    simp only [List.length_reverse, List.length_cons, List.length_nil]
    omega
  obtain ⟨⟨hrsp, hwords⟩, hregs, -, hmemory⟩ := pushed_foldl haligned
  rw [List.reverse_reverse, List.append_nil] at hwords
  refine ⟨⟨hrsp, hwords⟩, ?_, ?_⟩
  · rintro r hr
    exact (hregs r hr).trans (Function.update_of_ne hr _ _)
  · intro a ha
    apply hmemory
    simp only [List.length_reverse, frame, List.length_cons, List.length_nil]
    omega

theorem directionFlag_clear (x y : UInt64) :
    ((x &&& ~~~directionFlag) &&& ~~~statusFlags ||| (y &&& statusFlags)) &&& directionFlag =
      0 := by
  have hdistrib (x y z : UInt64) : (x ||| y) &&& z = x &&& z ||| y &&& z :=
    UInt64.toBitVec_inj.mp BitVec.and_or_distrib_right
  have hmasks : ~~~directionFlag &&& (~~~statusFlags &&& directionFlag) = 0 := by decide
  have hstatus : statusFlags &&& directionFlag = 0 := by decide
  rw [hdistrib, UInt64.and_assoc, UInt64.and_assoc, hmasks, UInt64.and_assoc, hstatus,
    UInt64.and_zero, UInt64.and_zero, UInt64.or_zero]

/-- At the call, the registers are on the stack, and below them is room for eight bytes. -/
structure AtCall (c : Cpu) (sp : ℕ) (c' : Cpu) : Prop where
  rsp : c'.rsp.toNat = sp
  rflags : c'.rflags &&& directionFlag = 0
  words : OnStack c'.memory (sp + 8) ((savedRegs.map c.regs).reverse ++ frame c)
  memory : ∀ a, c.rsp.toNat ≤ a → c'.memory a = c.memory a

theorem atCall_beforeCall (env : Surroundings) (handler : UInt64) (selector : UInt16)
    (hroom : 168 ≤ c.rsp.toNat / 16 * 16) :
    AtCall c (c.rsp.toNat / 16 * 16 - 168)
      (execAll env (interrupt handler selector c) beforeCall) := by
  obtain ⟨hstacked, hregs, hmemory⟩ := pushed_interrupt handler selector (c := c) (by omega)
  generalize interrupt handler selector c = d at hstacked hregs hmemory
  have hbefore : beforeCall = .cld :: (savedRegs.map .push ++ [.sub .rsp 8]) := rfl
  have hcleared : (exec env d .cld).Stacked
      (c.rsp.toNat / 16 * 16 - 160 + 8 * (savedRegs.map d.regs).length) (frame c) := by
    have hlength : (savedRegs.map d.regs).length = 15 := rfl
    have hsp : c.rsp.toNat / 16 * 16 - 160 + 8 * 15 = c.rsp.toNat / 16 * 16 - 40 := by omega
    rw [hlength, hsp]
    exact ⟨hstacked.rsp, hstacked.words⟩
  have hsaved : savedRegs.map d.regs = savedRegs.map c.regs := by
    apply List.map_congr_left
    rintro r hr
    exact hregs r fun heq => absurd (heq ▸ hr) (by decide)
  have hcld : (exec env d .cld).regs = d.regs := rfl
  obtain ⟨hstacked', -, hrflags, hmemory'⟩ := pushed_foldl hcleared
  rw [hbefore, execAll_cons, execAll_append, execAll_pushes (by decide), hcld,
    execAll_singleton]
  generalize (savedRegs.map d.regs).foldl Cpu.push (exec env d .cld) = d' at *
  have hrsp : (exec env d' (.sub .rsp 8)).rsp = d'.rsp - 8 := by
    simp only [exec, Cpu.rsp, Cpu.setReg, Function.update_self]
  constructor
  · rw [hrsp]
    exact Cpu.toNat_rsp_sub (hstacked'.rsp.trans (by omega))
  · have hflags : (exec env d' (.sub .rsp 8)).rflags = env.flags d' (.sub .rsp 8) := rfl
    rw [hflags, Surroundings.flags, hrflags]
    exact directionFlag_clear _ _
  · have hsp : c.rsp.toNat / 16 * 16 - 168 + 8 = c.rsp.toNat / 16 * 16 - 160 := by omega
    rw [hsp, ← hsaved]
    exact hstacked'.words
  · intro a ha
    have hlength : (savedRegs.map d.regs).length = 15 := rfl
    rw [hlength] at hmemory'
    exact (hmemory' a (by omega)).trans (hmemory a ha)

theorem resumes_afterCall {c d : Cpu} (hsp : d.rsp.toNat = sp) (hroom : sp + 168 < 2 ^ 64)
    (h : OnStack d.memory (sp + 8) ((savedRegs.map c.regs).reverse ++ frame c)) :
    let c' := execAll env d afterCall
    c'.regs = c.regs ∧ c'.rip = c.rip ∧ c'.cs = c.cs ∧ c'.rflags = c.rflags ∧ c'.ss = c.ss ∧
      c'.memory = d.memory := by
  have hafter : afterCall = .add .rsp 8 :: (savedRegs.reverse.map .pop ++ [.iretq]) := rfl
  have hadd : (exec env d (.add .rsp 8)).Stacked (sp + 8)
      (savedRegs.reverse.map c.regs ++ frame c) := by
    have hrsp : (exec env d (.add .rsp 8)).rsp = d.rsp + 8 := by
      simp only [exec, Cpu.rsp, Cpu.setReg, Function.update_self]
    rw [List.map_reverse]
    refine ⟨?_, h⟩
    rw [hrsp]
    exact Cpu.toNat_rsp_add hsp (by omega)
  have hlength : savedRegs.reverse.length = 15 := rfl
  obtain ⟨hstacked, hregs, -, hmemory⟩ :=
    restored_pops (by decide) (by decide) hadd (by rw [hlength]; omega)
  rw [hafter, execAll_cons, execAll_append, execAll_singleton]
  generalize execAll env (exec env d (.add .rsp 8)) (savedRegs.reverse.map .pop) = d' at *
  have hword (i : ℕ) (vs : List UInt64) {v : UInt64} (hi : vs.length = i)
      (hframe : frame c = vs ++ v :: (frame c).drop (i + 1)) : d'.word i = v := by
    rw [hframe] at hstacked
    rw [← hi]
    exact hstacked.word
  have hrip : d'.word 0 = c.rip := hword 0 [] rfl rfl
  have hcs : d'.word 1 = c.cs.toUInt64 := hword 1 [c.rip] rfl rfl
  have hrflags : d'.word 2 = c.rflags := hword 2 [c.rip, c.cs.toUInt64] rfl rfl
  have hrsp : d'.word 3 = c.rsp := hword 3 [c.rip, c.cs.toUInt64, c.rflags] rfl rfl
  have hss : d'.word 4 = c.ss.toUInt64 :=
    hword 4 [c.rip, c.cs.toUInt64, c.rflags, c.rsp] rfl rfl
  simp only [exec, hrip, hcs, hrflags, hrsp, hss, UInt16.toUInt16_toUInt64, true_and]
  refine ⟨?_, hmemory⟩
  funext r
  by_cases hr : r = .rsp
  · rw [hr]
    exact Function.update_self Register.rsp c.rsp d'.regs
  · have hmem : r ∈ savedRegs.reverse := List.mem_reverse.mpr (mem_savedRegs hr)
    exact (Function.update_of_ne hr _ _).trans (hregs r hmem)

theorem resumes_of_atCall {d : Cpu} {stackEnd : ℕ} (hf : Convention env.callee stackEnd)
    (hroom : 176 ≤ c.rsp.toNat / 16 * 16) (hend : c.rsp.toNat ≤ stackEnd)
    (h : AtCall c (c.rsp.toNat / 16 * 16 - 168) d) :
    let c' := execAll env (exec env d .call) afterCall
    (c'.regs = c.regs ∧ c'.rip = c.rip ∧ c'.cs = c.cs ∧ c'.rflags = c.rflags ∧ c'.ss = c.ss) ∧
      ∀ a, c.rsp.toNat ≤ a → a < stackEnd → c'.memory a = c.memory a := by
  have hsp : d.rsp.toNat = c.rsp.toNat / 16 * 16 - 176 + 8 := h.rsp.trans (by omega)
  have hentered : (d.push env.returnTo).rsp.toNat = c.rsp.toNat / 16 * 16 - 176 :=
    Cpu.toNat_rsp_push hsp _
  have hflags : (d.push env.returnTo).rflags &&& directionFlag = 0 := by
    rw [Cpu.rflags_push]
    exact h.rflags
  have hlt : c.rsp.toNat < 2 ^ 64 := c.rsp.toNat_lt
  have hreturned : (exec env d .call).rsp.toNat = c.rsp.toNat / 16 * 16 - 168 := by
    rw [exec, hf.rsp _ hflags]
    exact (Cpu.toNat_rsp_add hentered (by omega)).trans (by omega)
  have hkept (a : ℕ) (ha : c.rsp.toNat / 16 * 16 - 168 ≤ a) (ha' : a < stackEnd) :
      (exec env d .call).memory a = d.memory a := by
    rw [exec, hf.stack _ hflags a (by omega) ha', Cpu.memory_push_of_le hsp _ (by omega)]
  have hlength : ((savedRegs.map c.regs).reverse ++ frame c).length = 20 := rfl
  have hwords : OnStack (exec env d .call).memory (c.rsp.toNat / 16 * 16 - 168 + 8)
      ((savedRegs.map c.regs).reverse ++ frame c) := by
    apply h.words.congr
    intro a ha ha'
    rw [hlength] at ha'
    exact hkept a (by omega) (by omega)
  obtain ⟨hregs, hrip, hcs, hrflags, hss, hmemory⟩ :=
    resumes_afterCall hreturned (by omega) hwords
  refine ⟨⟨hregs, hrip, hcs, hrflags, hss⟩, ?_⟩
  intro a ha ha'
  rw [hmemory, hkept a (by omega) ha']
  exact h.memory a ha

/-- Whatever is interrupted, and whatever the handler does that a function may do that does not rely
on its alignment: the handler is entered with its stack pointer on a multiple of sixteen, behind
the return address, so it is eight bytes off the convention. After the stub the registers, the
flags and the segments are those of the interrupted program, which goes on where it was. Its stack
has not changed. -/
theorem irq1Stub_resumes (env : Surroundings) {stackEnd : ℕ} (hf : Convention env.callee stackEnd)
    (handler : UInt64) (selector : UInt16) (c : Cpu) (hroom : 192 ≤ c.rsp.toNat)
    (hend : c.rsp.toNat ≤ stackEnd) :
    let d := interrupt handler selector c
    let entered := (execAll env d beforeCall).push env.returnTo
    let c' := execAll env d irq1Stub
    (entered.rsp.toNat % 16 = 0 ∧ entered.rflags &&& directionFlag = 0) ∧
      (c'.regs = c.regs ∧ c'.rip = c.rip ∧ c'.cs = c.cs ∧ c'.rflags = c.rflags ∧ c'.ss = c.ss) ∧
      ∀ a, c.rsp.toNat ≤ a → a < stackEnd → c'.memory a = c.memory a := by
  have hbefore := atCall_beforeCall env handler selector (c := c) (by omega)
  dsimp only
  rw [irq1Stub, execAll_append, execAll_append, execAll_singleton]
  generalize execAll env (interrupt handler selector c) beforeCall = d at hbefore ⊢
  rw [Cpu.rflags_push]
  refine ⟨⟨?_, hbefore.rflags⟩, resumes_of_atCall hf (by omega) hend hbefore⟩
  have hsp : d.rsp.toNat = c.rsp.toNat / 16 * 16 - 176 + 8 := hbefore.rsp.trans (by omega)
  rw [Cpu.toNat_rsp_push hsp]
  omega

def clobber (c : Cpu) : Cpu :=
  { (c.setReg .rax 0).setReg .rsp (c.rsp + 8) with rflags := directionFlag }

theorem convention_clobber (stackEnd : ℕ) : Convention clobber stackEnd where
  rsp c _ := by simp only [clobber, Cpu.rsp, Cpu.setReg, Function.update_self]
  stack _ _ _ _ _ := rfl

def interrupted : Cpu where
  regs r := if r = .rsp then 0x1008 else 7
  rip := 0x400000
  rflags := 0x202
  cs := 0x28
  ss := 0x30
  memory := fun _ => 0

theorem irq1Stub_resumes_clobber :
    let c' := execAll ⟨clobber, 0x500000, fun _ _ => 0⟩ (interrupt 0x600000 0x28 interrupted)
      irq1Stub
    c'.regs .rax = 7 ∧ c'.rip = 0x400000 ∧ c'.rflags = 0x202 := by
  intro c'
  obtain ⟨-, ⟨hregs, hrip, -, hrflags, -⟩, -⟩ :=
    irq1Stub_resumes ⟨clobber, 0x500000, fun _ _ => 0⟩ (convention_clobber 0x2000) 0x600000 0x28
      interrupted (by decide) (by decide)
  exact ⟨congrFun hregs .rax, hrip, hrflags⟩

end Wnu.Arch
