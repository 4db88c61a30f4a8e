import Mathlib.Tactic.SplitIfs
import Wnu.Sata.Command
import Wnu.Sata.Scan

/-! # Reading blocks from a SATA controller

A read finds the controller and its first port, describes the command in memory, issues
it and polls the controller until the command is no longer outstanding. The controller is
a parameter: it answers each read of a register, which may depend on how many reads came
before it. The accesses to the registers and what is printed are recorded, the newest
first.
-/

namespace Wnu.Sata

open Memory

/-- A pointer to an element of `sata_ctrls`, or none, or one to something else. -/
inductive Pointer
  | null
  | ctrl (i : ℕ)
  | other
  deriving DecidableEq

structure Platform extends Pci.Bases where
  cmdList : UInt64
  fisRecv : UInt64
  cmdTable : UInt64

inductive Event
  | read (address : UInt64) (value : UInt32)
  | write (address : UInt64) (value : UInt32)
  | printf (format : String) (args : List ℤ)
  deriving DecidableEq

/-- The state of a call: `sata_cmd_list`, `sata_cmd_table`, the number of registers read and what
has happened. -/
structure Call where
  cmdList : ℕ → Mem UInt8
  cmdTable : ℕ → Mem UInt8
  reads : ℕ
  events : List Event

/-- The answers of a controller to the reads of its registers. -/
abbrev Answers := ℕ → UInt64 → UInt32

/-! ## Registers -/

/-- `AHCI_REG_CAP` -/
abbrev regCap : UInt64 := 0x00

abbrev regPi : UInt64 := 0x0c

abbrev portClb : UInt64 := 0x00

abbrev portClbu : UInt64 := 0x04

abbrev portFb : UInt64 := 0x08

abbrev portFbu : UInt64 := 0x0c

abbrev portIs : UInt64 := 0x10

abbrev portCmd : UInt64 := 0x18

abbrev portTfd : UInt64 := 0x20

abbrev portCi : UInt64 := 0x38

abbrev cmdSt : UInt32 := (1 : UInt32) <<< 0

abbrev cmdFre : UInt32 := (1 : UInt32) <<< 4

variable (pf : Platform) (dev : Answers)

/-- `phys_to_virt` -/
def physToVirt (phys : UInt64) : UInt64 := phys - pf.kernelPhysBase + pf.kernelVirtBase

/-- `mmio_read32` -/
def mmioRead32 (base offset : UInt64) (c : Call) : UInt32 × Call :=
  let value := dev c.reads (base + offset)
  (value, { c with reads := c.reads + 1, events := .read (base + offset) value :: c.events })

/-- `*((volatile uint32_t *)(base + offset)) = value;` -/
def mmioWrite32 (base offset : UInt64) (value : UInt32) (c : Call) : Call :=
  { c with events := .write (base + offset) value :: c.events }

def Call.printf (format : String) (args : List ℤ) (c : Call) : Call :=
  { c with events := .printf format args :: c.events }

/-! ## The call -/

def findController (s : Controllers) (driverData : Pointer) (buf count : UInt64) :
    Option (ℕ × UInt32) :=
  if driverData = .null ∨ buf = 0 ∨ count = 0 then none
  else
    match (List.range s.count).find? fun i => .ctrl i = driverData with
    | none => none
    | some i =>
      let bar5 := (s.ctrls i).bar[5]
      if bar5 = 0 ∨ bar5 &&& 1 ≠ 0 then none else some (i, bar5)

/-- `abar_virt` -/
def abarVirt (bar5 : UInt32) : UInt64 := physToVirt pf (bar5 &&& 0xfffffff0).toUInt64

def firstPort (pi : UInt32) : Option ℕ :=
  (List.range 32).find? fun p => pi &&& ((1 : UInt32) <<< UInt32.ofNat p) ≠ 0

/-- `port_base` -/
def portBase (bar5 : UInt32) (port : ℕ) : UInt64 :=
  abarVirt pf bar5 + 0x100 + UInt64.ofNat port * 0x80

def startPort (ctrlIdx : ℕ) (base : UInt64) (c : Call) : Call :=
  let clbPhys := pf.virtToPhys (pf.cmdList + UInt64.ofNat ctrlIdx * 1024)
  let fbPhys := pf.virtToPhys (pf.fisRecv + UInt64.ofNat ctrlIdx * 256)
  let ctbaPhys := pf.virtToPhys (pf.cmdTable + UInt64.ofNat ctrlIdx * 256)
  let c := mmioWrite32 base portClb (lowHalf clbPhys) c
  let c := mmioWrite32 base portClbu (highHalf clbPhys) c
  let c := mmioWrite32 base portFb (lowHalf fbPhys) c
  let c := mmioWrite32 base portFbu (highHalf fbPhys) c
  let c := mmioWrite32 base portIs 0xffffffff c
  let c := c.printf "sata_block_read: wrote CLB/FB, clb_phys=0x%x fb_phys=0x%x ctba=0x%x\n"
    [clbPhys.toUInt32.toNat, fbPhys.toUInt32.toNat, ctbaPhys.toUInt32.toNat]
  let (cmd, c) := mmioRead32 dev base portCmd c
  let cmd := cmd ||| cmdFre
  let (_, c) := mmioRead32 dev base portCmd c
  let (_, c) := mmioRead32 dev base portCmd c
  mmioWrite32 base portCmd (cmd ||| cmdSt) c

def buildCommand (ctrlIdx : ℕ) (lba buf count : UInt64) (c : Call) : Call :=
  let ctba := pf.virtToPhys (pf.cmdTable + UInt64.ofNat ctrlIdx * 256)
  let bufPhys := pf.virtToPhys buf
  { c with
    cmdList := Function.update c.cmdList ctrlIdx (commandHeader (c.cmdList ctrlIdx) ctba)
    cmdTable := Function.update c.cmdTable ctrlIdx
      (commandTable (c.cmdTable ctrlIdx) lba count bufPhys) }

def issueCommand (base : UInt64) (c : Call) : Call :=
  let (ci, c) := mmioRead32 dev base portCi c
  let ci := ci ||| 1
  let (_, c) := mmioRead32 dev base portCi c
  let c := mmioWrite32 base portCi ci c
  c.printf "sata_block_read: issued CI, waiting for completion\n" []

/-- `for (t = 0; t < n; ++t) { cur = mmio_read32(port_base, AHCI_PORT_CI); if ((cur & 1) == 0)
break; }` -/
def pollCompletion (base : UInt64) : ℕ → Call → Call
  | 0, c => c
  | n + 1, c =>
    let (cur, c) := mmioRead32 dev base portCi c
    if cur &&& 1 = 0 then c else pollCompletion base n c

def maxPolls : ℕ := 1000000

def finish (base count : UInt64) (c : Call) : Int32 × Call :=
  let c := pollCompletion dev base maxPolls c
  let (tfd, c) := mmioRead32 dev base portTfd c
  let c := c.printf "sata_block_read: done, tfd=0x%x\n" [tfd.toNat]
  if tfd &&& 1 ≠ 0 then (0, c.printf "sata: tfd error 0x%x\n" [tfd.toNat])
  else (count.toUInt32.toInt32, c)

/-- `sata_block_read` -/
def sataBlockRead (s : Controllers) (driverData : Pointer) (lba buf count : UInt64) (c : Call) :
    Int32 × Call :=
  match findController s driverData buf count with
  | none => (0, c)
  | some (ctrlIdx, bar5) =>
    let abarPhys := (bar5 &&& 0xfffffff0).toUInt64
    let abar := abarVirt pf bar5
    let (pi, c) := mmioRead32 dev abar regPi c
    let (cap, c) := mmioRead32 dev abar regCap c
    let c := c.printf ("sata_block_read: ctrl_idx=%d bar5=0x%x abar_phys=0x%lx abar_virt=0x%lx " ++
      "cap=0x%x pi=0x%x lba=%lu count=%u\n")
      [ctrlIdx, bar5.toNat, abarPhys.toNat, abar.toNat, cap.toNat, pi.toNat, lba.toNat,
        count.toUInt32.toNat]
    match firstPort pi with
    | none => (0, c.printf "sata_block_read: selected port=%d\n" [-1])
    | some port =>
      let c := c.printf "sata_block_read: selected port=%d\n" [port]
      let base := portBase pf bar5 port
      let c := startPort pf dev ctrlIdx base c
      let c := buildCommand pf ctrlIdx lba buf count c
      let c := issueCommand dev base c
      finish dev base count c

/-! ## What is read and written -/

/-- The controller index and the base of the port that a call uses, by the answer to the read of
PI, if it comes to issuing a command. -/
def target (s : Controllers) (driverData : Pointer) (buf count : UInt64) (n : ℕ) :
    Option (ℕ × UInt64) :=
  (findController s driverData buf count).bind fun (ctrlIdx, bar5) =>
    (firstPort (dev n (abarVirt pf bar5 + regPi))).map fun port =>
      (ctrlIdx, portBase pf bar5 port)

structure Issued (ctrlIdx : ℕ) (base lba buf count : UInt64) (c c' : Call) : Prop where
  reads : c'.reads = c.reads + 7
  cmdList : c'.cmdList ctrlIdx = commandHeader (c.cmdList ctrlIdx)
    (pf.virtToPhys (pf.cmdTable + UInt64.ofNat ctrlIdx * 256))
  cmdTable : c'.cmdTable ctrlIdx =
    commandTable (c.cmdTable ctrlIdx) lba count (pf.virtToPhys buf)
  events : ∃ ci before, c'.events =
    .printf "sata_block_read: issued CI, waiting for completion\n" [] ::
      .write (base + portCi) ci :: before

variable {pf dev} {s : Controllers} {driverData : Pointer} {lba buf count : UInt64} {c : Call}

/-- A call fails before a command is issued, or issues a command and waits for it. -/
theorem sataBlockRead_cases (pf : Platform) (dev : Answers) (s : Controllers)
    (driverData : Pointer) (lba buf count : UInt64) (c : Call) :
    (target pf dev s driverData buf count c.reads = none ∧
      (sataBlockRead pf dev s driverData lba buf count c).1 = 0) ∨
    ∃ ctrlIdx base c', target pf dev s driverData buf count c.reads = some (ctrlIdx, base) ∧
      Issued pf ctrlIdx base lba buf count c c' ∧
      sataBlockRead pf dev s driverData lba buf count c = finish dev base count c' := by
  unfold sataBlockRead target
  cases hfind : findController s driverData buf count with
  | none => exact .inl ⟨rfl, rfl⟩
  | some found =>
    obtain ⟨ctrlIdx, bar5⟩ := found
    simp only [mmioRead32, Option.bind_some]
    cases hport : firstPort (dev c.reads (abarVirt pf bar5 + regPi)) with
    | none => exact .inl ⟨rfl, rfl⟩
    | some port =>
      refine .inr ⟨ctrlIdx, portBase pf bar5 port, _, rfl, ⟨rfl, ?_, ?_, _, _, rfl⟩, rfl⟩
      · exact Function.update_self ..
      · exact Function.update_self ..

def Completes (dev : Answers) (base : UInt64) (n : ℕ) (c : Call) : Prop :=
  ∃ t < n, dev (c.reads + t) (base + portCi) &&& 1 = 0

/-- What polling does: it only reads CI, it sees the bit clear if one of the polls does, and it
makes all polls if none does. -/
structure Polled (dev : Answers) (base : UInt64) (n : ℕ) (c c' : Call) : Prop where
  cmdList : c'.cmdList = c.cmdList
  cmdTable : c'.cmdTable = c.cmdTable
  events : ∃ polls, c'.events = polls ++ c.events ∧
    (∀ e ∈ polls, ∃ v, e = .read (base + portCi) v) ∧
    (Completes dev base n c ↔ ∃ v, .read (base + portCi) v ∈ polls ∧ v &&& 1 = 0)
  reads : ¬ Completes dev base n c → c'.reads = c.reads + n

theorem completes_succ (dev : Answers) (base : UInt64) (n : ℕ) (c : Call) {c' : Call}
    (hc : c'.reads = c.reads + 1) : Completes dev base (n + 1) c ↔
      dev c.reads (base + portCi) &&& 1 = 0 ∨ Completes dev base n c' := by
  constructor
  · rintro ⟨t, ht, hclear⟩
    cases t with
    | zero => exact .inl hclear
    | succ t =>
      refine .inr ⟨t, by omega, ?_⟩
      rwa [hc, Nat.add_assoc, Nat.add_comm 1 t]
  · rintro (hclear | ⟨t, ht, hclear⟩)
    · exact ⟨0, Nat.succ_pos n, hclear⟩
    · refine ⟨t + 1, by omega, ?_⟩
      rwa [hc, Nat.add_assoc, Nat.add_comm 1 t] at hclear

theorem pollCompletion_spec (dev : Answers) (base : UInt64) (n : ℕ) (c : Call) :
    Polled dev base n c (pollCompletion dev base n c) := by
  induction n generalizing c with
  | zero =>
    refine ⟨rfl, rfl, ⟨[], rfl, by simp, ?_⟩, fun _ => rfl⟩
    simp [Completes]
  | succ n ih =>
    obtain ⟨c', hc'⟩ : ∃ c' : Call, c' = { c with
      reads := c.reads + 1
      events := .read (base + portCi) (dev c.reads (base + portCi)) :: c.events } := ⟨_, rfl⟩
    have hstep : pollCompletion dev base (n + 1) c =
        if dev c.reads (base + portCi) &&& 1 = 0 then c' else pollCompletion dev base n c' := by
      rw [hc']
      rfl
    have hreads : c'.reads = c.reads + 1 := by rw [hc']
    have hevents : c'.events =
        [.read (base + portCi) (dev c.reads (base + portCi))] ++ c.events := by
      rw [hc']
      rfl
    rw [hstep]
    have hsucc := completes_succ dev base n c hreads
    by_cases h : dev c.reads (base + portCi) &&& 1 = 0
    · rw [if_pos h]
      refine ⟨by rw [hc'], by rw [hc'], ⟨_, hevents, by simp, ?_⟩, fun hn => ?_⟩
      · exact iff_of_true (hsucc.mpr (.inl h)) ⟨_, List.mem_singleton_self _, h⟩
      · exact absurd (hsucc.mpr (.inl h)) hn
    · rw [if_neg h]
      obtain ⟨hlist, htable, ⟨polls, hpolls, honly, hiff⟩, hr⟩ := ih c'
      refine ⟨by rw [hlist, hc'], by rw [htable, hc'],
        ⟨polls ++ [.read (base + portCi) (dev c.reads (base + portCi))], ?_, ?_, ?_⟩,
        fun hn => ?_⟩
      · rw [hpolls, hevents, List.append_assoc]
      · intro e he
        rcases List.mem_append.mp he with he | he
        · exact honly e he
        · exact ⟨_, List.mem_singleton.mp he⟩
      · rw [hsucc, hiff]
        constructor
        · rintro (hclear | ⟨v, hv, hclear⟩)
          · exact absurd hclear h
          · exact ⟨v, List.mem_append_left _ hv, hclear⟩
        · rintro ⟨v, hv, hclear⟩
          rcases List.mem_append.mp hv with hv | hv
          · exact .inr ⟨v, hv, hclear⟩
          · cases List.mem_singleton.mp hv
            exact absurd hclear h
      · rw [hr fun hc => hn (hsucc.mpr (.inr hc)), hreads, Nat.add_assoc, Nat.add_comm 1 n]

theorem finish_spec (dev : Answers) (base count : UInt64) (c : Call) :
    let c' := pollCompletion dev base maxPolls c
    let tfd := dev c'.reads (base + portTfd)
    (finish dev base count c).1 = (if tfd &&& 1 = 0 then count.toUInt32.toInt32 else 0) ∧
      ∃ prints, (∀ e ∈ prints, ∃ format args, e = .printf format args) ∧
        (finish dev base count c).2 = { c' with
          reads := c'.reads + 1
          events := prints ++ .read (base + portTfd) tfd :: c'.events } := by
  intro c' tfd
  have hfinish : finish dev base count c =
      if tfd &&& 1 ≠ 0 then
        (0, { c' with
          reads := c'.reads + 1
          events := [.printf "sata: tfd error 0x%x\n" [tfd.toNat],
            .printf "sata_block_read: done, tfd=0x%x\n" [tfd.toNat]] ++
              .read (base + portTfd) tfd :: c'.events })
      else
        (count.toUInt32.toInt32, { c' with
          reads := c'.reads + 1
          events := [.printf "sata_block_read: done, tfd=0x%x\n" [tfd.toNat]] ++
              .read (base + portTfd) tfd :: c'.events }) := rfl
  rw [hfinish]
  by_cases h : tfd &&& 1 = 0
  · rw [if_neg (not_not.mpr h), if_pos h]
    exact ⟨rfl, _, by simp, rfl⟩
  · rw [if_pos h, if_neg h]
    exact ⟨rfl, _, by simp, rfl⟩

theorem finish_cmdList (dev : Answers) (base count : UInt64) (c : Call) :
    (finish dev base count c).2.cmdList = c.cmdList ∧
      (finish dev base count c).2.cmdTable = c.cmdTable := by
  have hpoll := pollCompletion_spec dev base maxPolls c
  obtain ⟨-, prints, -, he⟩ := finish_spec dev base count c
  rw [he]
  exact ⟨hpoll.cmdList, hpoll.cmdTable⟩

/-- A call that issues a command leaves the command in memory as it was built. -/
theorem sataBlockRead_described (lba : UInt64) {ctrlIdx : ℕ} {base : UInt64}
    (h : target pf dev s driverData buf count c.reads = some (ctrlIdx, base)) :
    let c' := (sataBlockRead pf dev s driverData lba buf count c).2
    c'.cmdList ctrlIdx = commandHeader (c.cmdList ctrlIdx)
        (pf.virtToPhys (pf.cmdTable + UInt64.ofNat ctrlIdx * 256)) ∧
      c'.cmdTable ctrlIdx =
        commandTable (c.cmdTable ctrlIdx) lba count (pf.virtToPhys buf) := by
  rcases sataBlockRead_cases pf dev s driverData lba buf count c with
    ⟨hnone, -⟩ | ⟨i, b, c₁, hsome, hissued, he⟩
  · rw [h] at hnone
    cases hnone
  · rw [h] at hsome
    cases hsome
    obtain ⟨hlist, htable⟩ := finish_cmdList dev base count c₁
    constructor
    · rw [he, hlist, hissued.cmdList]
    · rw [he, htable, hissued.cmdTable]

/-- For every sector, count, buffer and address of the tables, a call that issues a command has
not described the read to the controller: the header says that the table has no entries. -/
theorem sataBlockRead_misencodes (pf : Platform) (dev : Answers) (s : Controllers)
    (driverData : Pointer) (lba buf count : UInt64) (c : Call) {ctrlIdx : ℕ} {base : UInt64}
    (h : target pf dev s driverData buf count c.reads = some (ctrlIdx, base)) :
    let c' := (sataBlockRead pf dev s driverData lba buf count c).2
    decode (c'.cmdList ctrlIdx) (c'.cmdTable ctrlIdx) ≠
      readDmaExt lba.toNat count.toNat (pf.virtToPhys buf)
        (pf.virtToPhys (pf.cmdTable + UInt64.ofNat ctrlIdx * 256)) := by
  intro c' hdecode
  obtain ⟨hlist, -⟩ := sataBlockRead_described lba h
  have hentries := congrArg Command.entries hdecode
  simp only [decode, readDmaExt, c', hlist, loadLE_commandHeader_entries] at hentries
  cases hentries

def oneController : Controllers where
  ctrls := fun _ =>
    { bus := 0, slot := 3, func := 0, vendorId := 0x8086, deviceId := 0x2922, classCode := 1
      subclass := 6, progIf := 1, bar := #v[0, 0, 0, 0, 0, 0x10] }
  count := 1

def identityMapped : Platform where
  kernelVirtBase := 0
  kernelPhysBase := 0
  cmdList := 0x1000
  fisRecv := 0x2000
  cmdTable := 0x3000

def freshCall : Call where
  cmdList := fun _ _ => 0
  cmdTable := fun _ _ => 0
  reads := 0
  events := []

theorem sataBlockRead_misencodes_oneSector :
    target identityMapped (fun _ _ => 1) oneController (.ctrl 0) 0x4000 1 0 = some (0, 0x110) ∧
      let c' := (sataBlockRead identityMapped (fun _ _ => 1) oneController (.ctrl 0) 5 0x4000 1
        freshCall).2
      decode (c'.cmdList 0) (c'.cmdTable 0) ≠ readDmaExt 5 1 0x4000 0x3000 := by
  have htarget : target identityMapped (fun _ _ => 1) oneController (.ctrl 0) 0x4000 1
      freshCall.reads = some (0, 0x110) := by decide
  constructor
  · exact htarget
  · exact sataBlockRead_misencodes identityMapped (fun _ _ => 1) oneController (.ctrl 0) 5
      0x4000 1 freshCall htarget

theorem not_encodes_oneSector :
    ¬ ∀ (pf : Platform) (dev : Answers) (s : Controllers) (driverData : Pointer)
      (lba buf count : UInt64) (c : Call) (ctrlIdx : ℕ) (base : UInt64),
      lba.toNat < 2 ^ 32 → 1 ≤ count.toNat → count.toNat ≤ 255 →
      target pf dev s driverData buf count c.reads = some (ctrlIdx, base) →
      let c' := (sataBlockRead pf dev s driverData lba buf count c).2
      decode (c'.cmdList ctrlIdx) (c'.cmdTable ctrlIdx) =
        readDmaExt lba.toNat count.toNat (pf.virtToPhys buf)
          (pf.virtToPhys (pf.cmdTable + UInt64.ofNat ctrlIdx * 256)) := by
  intro hall
  have htarget : target identityMapped (fun _ _ => 1) oneController (.ctrl 0) 0x4000 1
      freshCall.reads = some (0, 0x110) := by decide
  have hdecode := hall identityMapped (fun _ _ => 1) oneController (.ctrl 0) 5 0x4000 1 freshCall
    0 0x110 (by decide) (by decide) (by decide) htarget
  obtain ⟨hlist, -⟩ := sataBlockRead_described 5 htarget
  have htable := congrArg Command.table hdecode
  simp only [decode, readDmaExt, hlist, loadLE_commandHeader_table] at htable
  revert htable
  decide

end Wnu.Sata
