import Wnu.Arch.Descriptors
import Wnu.Devices.InterruptController
import Wnu.Kernel.Boot

/-! # Keys come in by interrupts

The keyboard hands its scancodes to its controller, one at a time, and each of them asks for
an interrupt. The interrupt controllers are programmed to pass on nothing else. The handler
takes the scancode from the port, puts the character into the line and announces the end.
In between the main loop goes on.
-/

namespace Wnu.Kernel

open Devices Runs

/-! ## What the kernel writes to the controllers -/

/-- `pic_send_eoi` -/
def picSendEoi (irq : ℕ) : List (UInt16 × UInt8) :=
  (if irq ≥ 8 then [(0xa0, 0x20)] else []) ++ [(0x20, 0x20)]

/-- `wnu_io_wait` -/
def ioWait : UInt16 × UInt8 := (0x80, 0)

/-- `pic_remap_keyboard_only` -/
def picRemapKeyboardOnly : List (UInt16 × UInt8) :=
  let masterMask : UInt8 := (0xff : UInt8) &&& ~~~((1 : UInt8) <<< 1)
  let slaveMask : UInt8 := 0xff
  [(0x21, 0xff), (0xa1, 0xff),
    (0x20, 0x11), ioWait, (0xa0, 0x11), ioWait,
    (0x21, 0x20), ioWait, (0xa1, 0x28), ioWait,
    (0x21, 0x04), ioWait, (0xa1, 0x02), ioWait,
    (0x21, 0x01), ioWait, (0xa1, 0x01), ioWait,
    (0x21, masterMask), (0xa1, slaveMask)]

/-! ## The machine -/

/-- The keyboard and its controller: the byte at port 0x60, whether it has not been read yet, and
the scancodes that the keyboard still has. -/
structure Keyboard where
  data : UInt8
  full : Bool
  queue : List UInt8

def Keyboard.held (k : Keyboard) : List UInt8 := (if k.full then [k.data] else []) ++ k.queue

/-- What the processor does next: a write of `pic_remap_keyboard_only`, with interrupts disabled, a
step of the main loop, a statement of `wnu_irq1_c_handler` or the return from the interrupt. It
stops at an interrupt that is not for the stub. -/
inductive Phase
  | setup (writes : List (UInt16 × UInt8))
  | main
  | entered
  | scanned (scancode : UInt8)
  | handled
  | ended
  | stopped

def Phase.held : Phase → List UInt8
  | .scanned sc => [sc]
  | _ => []

def Phase.Unready : Phase → Prop
  | .setup writes => (0x20, 0x11) ∈ writes
  | _ => False

structure Wired where
  kernel : State
  pics : Pics
  keyboard : Keyboard
  phase : Phase

/-- The keyboard sends a scancode, its controller takes one from it, another device asks on its
line, the processor takes an interrupt, or it goes on. -/
inductive Signal
  | scancode (sc : UInt8)
  | refill
  | device (line : Fin 16) (h : line ≠ Pics.keyboard)
  | interrupt
  | run (env : Shell.Surroundings)

def Signal.sent : Signal → List UInt8
  | .scancode sc => [sc]
  | _ => []

def Input.scancodes : Input → List UInt8
  | .key sc => [sc]
  | .step _ => []

def enter (gate : ℕ → Option Arch.Gate) (stub : UInt64) (v : UInt8) : Phase :=
  match gate v.toNat with
  | none => .stopped
  | some g => if g.handler = stub.toNat then .entered else .stopped

variable (m : Machine) (gate : ℕ → Option Arch.Gate) (stub : UInt64)

def proceed (env : Shell.Surroundings) (s : Wired) : Option Input × Wired :=
  match s.phase with
  | .setup [] => (none, { s with phase := .main })
  | .setup (w :: writes) =>
    (none, { s with pics := s.pics.outb w.1 w.2, phase := .setup writes })
  | .main => (some (.step env), { s with kernel := (exec m s.kernel (.step env)).2 })
  | .entered =>
    (none, { s with keyboard.full := false, phase := .scanned s.keyboard.data })
  | .scanned sc =>
    (some (.key sc), { s with kernel := (exec m s.kernel (.key sc)).2, phase := .handled })
  | .handled => (none, { s with pics := s.pics.outs (picSendEoi 1), phase := .ended })
  | .ended => (none, { s with phase := .main })
  | .stopped => (none, s)

def signal (s : Wired) : Signal → Option Input × Wired
  | .scancode sc => (none, { s with keyboard.queue := s.keyboard.queue ++ [sc] })
  | .refill =>
    match s.keyboard with
    | ⟨_, false, sc :: queue⟩ =>
      (none, { s with keyboard := ⟨sc, true, queue⟩, pics := s.pics.raise Pics.keyboard })
    | _ => (none, s)
  | .device line _ => (none, { s with pics := s.pics.raise line })
  | .interrupt =>
    match s.phase, s.pics.interrupt with
    | .main, some (v, pics) => (none, { s with pics := pics, phase := enter gate stub v })
    | _, _ => (none, s)
  | .run env => proceed m env s

/-- The kernel when `wnu_arch_init` programs the controllers. -/
def wired (l : Loaded) (pics : Pics) (keyboard : Keyboard) : Wired :=
  ⟨boot m l, pics, keyboard, .setup picRemapKeyboardOnly⟩

def inputsOf (s : Wired) (signals : List Signal) : List Input :=
  given (signal m gate stub) (fun s i => (signal m gate stub s i).1.toList) s signals

variable {m gate stub} {s : Wired}

/-! ## The controllers -/

/-- Whatever the controllers held: afterwards the line of the keyboard is the only one that is
passed on, as interrupt 0x21. -/
theorem only_picRemap (p : Pics) : Only Pics.keyboardLine 0x20 (p.outs picRemapKeyboardOnly) := by
  have hmaster : (p.outs picRemapKeyboardOnly).master = ⟨.ready, true, false, false, 0x20, 0xfd,
      fun _ => false, fun _ => false⟩ := rfl
  have hslave : (p.outs picRemapKeyboardOnly).slave.mask = 0xff := rfl
  constructor
  · rw [hmaster]
  · rw [hmaster]
  · intro k
    rw [hmaster]
    revert k
    decide
  · intro k
    rw [Chip.masked, hslave]
    revert k
    decide
  · intro k _
    rw [hmaster]

theorem requested_outb {port : UInt16} (h : port ≠ 0x20) (v : UInt8) (p : Pics) :
    (p.outb port v).master.requested = p.master.requested := by
  have hdata : (p.master.data v).requested = p.master.requested := by
    rw [Chip.data]
    split <;> rfl
  rw [Pics.outb, if_neg h]
  split
  · exact hdata
  split
  · rfl
  split <;> rfl

theorem port_of_mem_picRemap {w : UInt16 × UInt8} (h : w ∈ picRemapKeyboardOnly)
    (hne : w ≠ (0x20, 0x11)) : w.1 ≠ 0x20 := by
  have hall : picRemapKeyboardOnly.all (fun w => w = (0x20, 0x11) ∨ w.1 ≠ 0x20) = true := by
    decide
  have hw := List.all_eq_true.mp hall w h
  rw [decide_eq_true_iff] at hw
  exact hw.resolve_left hne

theorem raise_device {line : Fin 16} (h : line ≠ Pics.keyboard) (p : Pics) :
    (p.raise line).master.requested Pics.keyboardLine = p.master.requested Pics.keyboardLine := by
  rw [Pics.raise]
  split
  · rename_i hlt
    apply Function.update_of_ne
    rintro heq
    exact h (Fin.ext (congrArg Fin.val heq).symm)
  · rfl

/-! ## What holds in every run -/

/-- How far the controllers have been programmed, and what the line of the keyboard is doing. -/
def Programmed (p₀ : Pics) (s : Wired) : Prop :=
  match s.phase with
  | .setup writes =>
    ∃ done, done ++ writes = picRemapKeyboardOnly ∧ s.pics.settings = (p₀.outs done).settings
  | .main | .ended =>
    Only Pics.keyboardLine 0x20 s.pics ∧ s.pics.master.served Pics.keyboardLine = false
  | .entered | .scanned _ | .handled =>
    Only Pics.keyboardLine 0x20 s.pics ∧ s.pics.master.served Pics.keyboardLine = true
  | .stopped => False

/-- A request on the line of the keyboard is for a scancode at the port. -/
structure Fresh (s : Wired) : Prop where
  requested : ¬ s.phase.Unready → s.pics.master.requested Pics.keyboardLine = true →
    s.keyboard.full = true
  entered : s.phase = .entered →
    s.keyboard.full = true ∧ s.pics.master.requested Pics.keyboardLine = false

variable {p₀ : Pics}

theorem Programmed.raise (h : Programmed p₀ s) (line : Fin 16) :
    Programmed p₀ { s with pics := s.pics.raise line } := by
  have hserved : (s.pics.raise line).master.served = s.pics.master.served := by
    rw [Pics.raise]
    split <;> rfl
  obtain ⟨kernel, pics, keyboard, phase⟩ := s
  cases phase with
  | setup writes =>
    obtain ⟨done, hdone, hsettings⟩ := h
    exact ⟨done, hdone, (Pics.settings_raise line pics).trans hsettings⟩
  | main | ended | entered | scanned | handled =>
    exact ⟨h.1.raise line, (congrFun hserved Pics.keyboardLine).trans h.2⟩
  | stopped => exact h

def Gated (gate : ℕ → Option Arch.Gate) (stub : UInt64) : Prop :=
  ∃ g, gate 0x21 = some g ∧ g.handler = stub.toNat

theorem enter_keyboard (h : Gated gate stub) : enter gate stub 0x21 = .entered := by
  obtain ⟨g, hgate, hhandler⟩ := h
  have hvector : (0x21 : UInt8).toNat = 0x21 := rfl
  rw [enter, hvector, hgate]
  exact if_pos hhandler

theorem interrupt_of_only {p : Pics} (h : Only Pics.keyboardLine 0x20 p)
    (hfree : p.master.served Pics.keyboardLine = false) :
    p.interrupt = if p.master.requested Pics.keyboardLine then
      some (0x21, { p with master := p.master.acknowledge Pics.keyboardLine }) else none := by
  have hbase : (0x20 : UInt8) ||| Pics.keyboardLine.val.toUInt8 = 0x21 := rfl
  rw [h.interrupt (by decide), hfree, hbase, Bool.not_false, Bool.and_true]

theorem Programmed.proceed (h : Programmed p₀ s) (env : Shell.Surroundings) :
    Programmed p₀ (proceed m env s).2 := by
  obtain ⟨kernel, pics, keyboard, phase⟩ := s
  cases phase with
  | setup writes =>
    obtain ⟨done, hdone, hsettings⟩ := h
    cases writes with
    | nil =>
      rw [List.append_nil] at hdone
      subst hdone
      have hserved : pics.master.settings.served = (p₀.outs picRemapKeyboardOnly).master.served :=
        congrArg (fun p => p.master.served) hsettings
      exact ⟨(only_picRemap p₀).congr hsettings, congrFun hserved Pics.keyboardLine⟩
    | cons w writes =>
      refine ⟨done ++ [w], by rw [List.append_assoc]; exact hdone, ?_⟩
      have houtb : (pics.outb w.1 w.2).settings = ((p₀.outs done).outb w.1 w.2).settings := by
        rw [Pics.settings_outb, hsettings, Pics.settings_outb]
      rw [Pics.outs_append]
      exact houtb
  | main => exact h
  | entered => exact h
  | scanned sc => exact h
  | handled =>
    obtain ⟨honly, hfree, -⟩ := h.1.endFirst
    exact ⟨honly, hfree⟩
  | ended => exact h
  | stopped => exact h

theorem signal_interrupt_of_main {kernel : State} {pics : Pics} {keyboard : Keyboard}
    (hg : Gated gate stub) (honly : Only Pics.keyboardLine 0x20 pics)
    (hfree : pics.master.served Pics.keyboardLine = false) :
    signal m gate stub ⟨kernel, pics, keyboard, .main⟩ .interrupt =
      if pics.master.requested Pics.keyboardLine then
        (none, ⟨kernel, { pics with master := pics.master.acknowledge Pics.keyboardLine },
          keyboard, .entered⟩)
      else (none, ⟨kernel, pics, keyboard, .main⟩) := by
  simp only [signal, interrupt_of_only honly hfree]
  cases pics.master.requested Pics.keyboardLine
  · rfl
  · simp only [if_true, enter_keyboard hg]

theorem Programmed.signal (hg : Gated gate stub) (h : Programmed p₀ s) (i : Signal) :
    Programmed p₀ (signal m gate stub s i).2 := by
  cases i with
  | scancode sc => exact h
  | refill =>
    obtain ⟨kernel, pics, keyboard, phase⟩ := s
    simp only [Kernel.signal]
    split
    · exact h.raise Pics.keyboard
    · exact h
  | device line hline => exact h.raise line
  | run env => exact h.proceed env
  | interrupt =>
    obtain ⟨kernel, pics, keyboard, phase⟩ := s
    cases phase with
    | main =>
      rw [signal_interrupt_of_main hg h.1 h.2]
      split
      · exact ⟨h.1.acknowledge, h.1.served_acknowledge⟩
      · exact h
    | _ => exact h

/-! ## Requests -/

theorem write_cases {kernel : State} {pics : Pics} {keyboard : Keyboard} {w : UInt16 × UInt8}
    {writes : List (UInt16 × UInt8)}
    (hp : Programmed p₀ ⟨kernel, pics, keyboard, .setup (w :: writes)⟩) : w = (0x20, 0x11) ∨
      ((Phase.setup (w :: writes)).Unready → (Phase.setup writes).Unready) ∧
        (pics.outb w.1 w.2).master.requested Pics.keyboardLine =
          pics.master.requested Pics.keyboardLine := by
  by_cases hw : w = (0x20, 0x11)
  · exact .inl hw
  · obtain ⟨done, hdone, -⟩ := hp
    have hmem : w ∈ picRemapKeyboardOnly := hdone ▸ List.mem_append_right _ List.mem_cons_self
    refine .inr ⟨fun hunready => ?_, ?_⟩
    · rcases List.mem_cons.mp hunready with heq | htail
      · exact absurd heq.symm hw
      · exact htail
    · exact congrFun (requested_outb (port_of_mem_picRemap hmem hw) w.2 pics) Pics.keyboardLine

theorem Fresh.proceed (hp : Programmed p₀ s) (h : Fresh s) (env : Shell.Surroundings) :
    Fresh (proceed m env s).2 := by
  obtain ⟨kernel, pics, keyboard, phase⟩ := s
  cases phase with
  | setup writes =>
    cases writes with
    | nil => exact ⟨fun _ => h.requested (fun hmem => absurd hmem List.not_mem_nil), by rintro ⟨⟩⟩
    | cons w writes =>
      refine ⟨fun hready => ?_, by rintro ⟨⟩⟩
      rcases write_cases hp with rfl | ⟨hunready, hsame⟩
      · rintro ⟨⟩
      · exact fun hreq => h.requested (hready ∘ hunready) (hsame.symm.trans hreq)
  | main => exact ⟨fun _ => h.requested id, by rintro ⟨⟩⟩
  | entered =>
    refine ⟨fun _ hreq => ?_, by rintro ⟨⟩⟩
    exact absurd ((h.entered rfl).2.symm.trans hreq) Bool.false_ne_true
  | scanned sc => exact ⟨fun _ => h.requested id, by rintro ⟨⟩⟩
  | handled =>
    obtain ⟨-, -, hsame⟩ := hp.1.endFirst
    refine ⟨fun _ hreq => h.requested id ?_, by rintro ⟨⟩⟩
    exact (congrFun hsame Pics.keyboardLine).symm.trans hreq
  | ended => exact ⟨fun _ => h.requested id, by rintro ⟨⟩⟩
  | stopped => exact h

theorem Fresh.signal (hg : Gated gate stub) (hp : Programmed p₀ s) (h : Fresh s) (i : Signal) :
    Fresh (signal m gate stub s i).2 := by
  cases i with
  | scancode sc => exact ⟨h.requested, h.entered⟩
  | refill =>
    obtain ⟨kernel, pics, ⟨data, full, queue⟩, phase⟩ := s
    cases full with
    | true => exact h
    | false =>
      cases queue with
      | nil => exact h
      | cons sc queue =>
        refine ⟨fun _ _ => rfl, fun hphase => ?_⟩
        cases (h.entered hphase).1
  | device line hline =>
    have hsame := raise_device hline s.pics
    refine ⟨fun hready hreq => h.requested hready (hsame.symm.trans hreq), fun hphase => ?_⟩
    exact ⟨(h.entered hphase).1, hsame.trans (h.entered hphase).2⟩
  | run env => exact h.proceed hp env
  | interrupt =>
    obtain ⟨kernel, pics, keyboard, phase⟩ := s
    cases phase with
    | main =>
      rw [signal_interrupt_of_main hg hp.1 hp.2]
      split
      · rename_i hreq
        have hgone :
            (pics.master.acknowledge Pics.keyboardLine).requested Pics.keyboardLine = false :=
          Chip.requested_acknowledge Pics.keyboardLine pics.master
        refine ⟨fun _ hagain => ?_, fun _ => ⟨h.requested id hreq, hgone⟩⟩
        rw [hgone] at hagain
        cases hagain
      · exact h
    | _ => exact h

/-- The scancode at the port has asked for an interrupt, or is about to be read. -/
def Answered (s : Wired) : Prop :=
  ¬ s.phase.Unready → s.keyboard.full = true →
    s.pics.master.requested Pics.keyboardLine = true ∨ s.phase = .entered

theorem Answered.proceed (hp : Programmed p₀ s) (h : Answered s)
    (hquiet : s.phase.Unready → s.keyboard.full = false) (env : Shell.Surroundings) :
    Answered (proceed m env s).2 := by
  obtain ⟨kernel, pics, keyboard, phase⟩ := s
  cases phase with
  | setup writes =>
    cases writes with
    | nil =>
      intro _ hfull
      rcases h (fun hmem => absurd hmem List.not_mem_nil) hfull with hreq | ⟨⟨⟩⟩
      exact .inl hreq
    | cons w writes =>
      intro hready hfull
      rcases write_cases hp with rfl | ⟨hunready, hsame⟩
      · have hempty : keyboard.full = false := hquiet List.mem_cons_self
        exact absurd (hempty.symm.trans hfull) Bool.false_ne_true
      · rcases h (hready ∘ hunready) hfull with hreq | ⟨⟨⟩⟩
        exact .inl (hsame.trans hreq)
  | main => exact fun hready hfull => h hready hfull
  | entered =>
    rintro - ⟨⟩
  | scanned sc =>
    intro _ hfull
    rcases h id hfull with hreq | ⟨⟨⟩⟩
    exact .inl hreq
  | handled =>
    obtain ⟨-, -, hsame⟩ := hp.1.endFirst
    intro _ hfull
    rcases h id hfull with hreq | ⟨⟨⟩⟩
    exact .inl ((congrFun hsame Pics.keyboardLine).trans hreq)
  | ended =>
    intro _ hfull
    rcases h id hfull with hreq | ⟨⟨⟩⟩
    exact .inl hreq
  | stopped => exact h

theorem Answered.signal (hg : Gated gate stub) (hp : Programmed p₀ s) (h : Answered s)
    (hquiet : s.phase.Unready → s.keyboard.full = false) (i : Signal) :
    Answered (signal m gate stub s i).2 := by
  cases i with
  | scancode sc => exact h
  | refill =>
    obtain ⟨kernel, pics, ⟨data, full, queue⟩, phase⟩ := s
    cases full with
    | true => exact h
    | false =>
      cases queue with
      | nil => exact h
      | cons sc queue => exact fun _ _ => .inl rfl
  | device line hline =>
    intro hready hfull
    rcases h hready hfull with hreq | hphase
    · exact .inl ((raise_device hline s.pics).trans hreq)
    · exact .inr hphase
  | run env => exact h.proceed hp hquiet env
  | interrupt =>
    obtain ⟨kernel, pics, keyboard, phase⟩ := s
    cases phase with
    | main =>
      rw [signal_interrupt_of_main hg hp.1 hp.2]
      split
      · exact fun _ _ => .inr rfl
      · exact h
    | _ => exact h

/-! ## Scancodes -/

theorem held_enter (gate : ℕ → Option Arch.Gate) (stub : UInt64) (v : UInt8) :
    (enter gate stub v).held = [] := by
  rw [enter]
  split
  · rfl
  · split <;> rfl

theorem held_signal (h : Fresh s) (i : Signal) :
    (signal m gate stub s i).1.toList.flatMap Input.scancodes ++
        ((signal m gate stub s i).2.phase.held ++ (signal m gate stub s i).2.keyboard.held) =
      s.phase.held ++ s.keyboard.held ++ i.sent := by
  obtain ⟨kernel, pics, ⟨data, full, queue⟩, phase⟩ := s
  cases i with
  | scancode sc => cases full <;> simp [signal, Keyboard.held, Signal.sent]
  | refill =>
    cases full with
    | true => simp [signal, Signal.sent]
    | false => cases queue <;> simp [signal, Keyboard.held, Signal.sent]
  | device line hline => simp [signal, Signal.sent]
  | interrupt =>
    cases phase with
    | main =>
      cases hint : pics.interrupt with
      | none => simp [signal, hint, Signal.sent]
      | some taken =>
        have hmain : Phase.main.held = [] := rfl
        simp [signal, hint, held_enter, hmain, Signal.sent]
    | _ => simp [signal, Signal.sent]
  | run env =>
    cases phase with
    | setup writes => cases writes <;> simp [signal, proceed, Phase.held, Signal.sent]
    | main => simp [signal, proceed, Input.scancodes, Signal.sent]
    | entered =>
      obtain rfl : full = true := (h.entered rfl).1
      simp [signal, proceed, Phase.held, Keyboard.held, Signal.sent]
    | scanned sc => simp [signal, proceed, Phase.held, Input.scancodes, Signal.sent]
    | handled | ended | stopped => simp [signal, proceed, Phase.held, Signal.sent]

theorem kernel_signal (s : Wired) (i : Signal) :
    (signal m gate stub s i).2.kernel =
      run (exec m) s.kernel (signal m gate stub s i).1.toList := by
  obtain ⟨kernel, pics, keyboard, phase⟩ := s
  cases i with
  | scancode sc => rfl
  | refill =>
    simp only [signal]
    split <;> rfl
  | device line hline => rfl
  | interrupt =>
    simp only [signal]
    split <;> rfl
  | run env =>
    cases phase with
    | setup writes => cases writes <;> rfl
    | _ => rfl

/-! ## Runs -/

theorem inputsOf_cons (s : Wired) (i : Signal) (signals : List Signal) :
    inputsOf m gate stub s (i :: signals) = (signal m gate stub s i).1.toList ++
      inputsOf m gate stub (signal m gate stub s i).2 signals := by
  rw [inputsOf, given_cons, inputsOf]

/-- A run with the devices is a run of the kernel. -/
theorem kernel_run (s : Wired) (signals : List Signal) :
    (run (signal m gate stub) s signals).kernel =
      run (exec m) s.kernel (inputsOf m gate stub s signals) :=
  view_run (Q := fun _ => True) (fun _ _ _ => trivial) (fun s i _ => kernel_signal s i) trivial
    signals

structure Sound (p₀ : Pics) (s : Wired) : Prop where
  programmed : Programmed p₀ s
  fresh : Fresh s

theorem Sound.signal (hg : Gated gate stub) (h : Sound p₀ s) (i : Signal) :
    Sound p₀ (signal m gate stub s i).2 :=
  ⟨h.programmed.signal hg i, h.fresh.signal hg h.programmed i⟩

theorem sound_wired (m : Machine) (l : Loaded) (pics : Pics) (keyboard : Keyboard) :
    Sound pics (wired m l pics keyboard) where
  programmed := ⟨[], rfl, rfl⟩
  fresh := by
    refine ⟨fun hready => absurd ?_ hready, by rintro ⟨⟩⟩
    have hmem : (0x20, 0x11) ∈ picRemapKeyboardOnly := by decide
    exact hmem

theorem scancodes_run (hg : Gated gate stub) (hs : Sound p₀ s) (signals : List Signal) :
    (inputsOf m gate stub s signals).flatMap Input.scancodes ++
        ((run (signal m gate stub) s signals).phase.held ++
          (run (signal m gate stub) s signals).keyboard.held) =
      s.phase.held ++ s.keyboard.held ++ signals.flatMap Signal.sent := by
  induction signals generalizing s with
  | nil => simp [inputsOf]
  | cons i signals ih =>
    rw [inputsOf_cons, List.flatMap_append, List.append_assoc, run_cons, ih (hs.signal hg i),
      ← List.append_assoc, held_signal hs.fresh i, List.flatMap_cons, List.append_assoc,
      List.append_assoc]

/-- The keyboard has been quiet until the first controller was initialized. -/
def Quiet (t : List (Wired × Signal × Option Input)) : Prop :=
  ∀ e ∈ t, e.1.phase.Unready → e.1.keyboard.full = false

theorem answered_run (hg : Gated gate stub) (hs : Sound p₀ s) (ha : Answered s)
    {signals : List Signal} (hq : Quiet (trace (signal m gate stub) s signals)) :
    Answered (run (signal m gate stub) s signals) := by
  induction signals generalizing s with
  | nil => exact ha
  | cons i signals ih =>
    rw [trace_cons] at hq
    obtain ⟨hfirst, hrest⟩ := List.forall_mem_cons.mp hq
    exact ih (hs.signal hg i) (ha.signal hg hs.programmed hfirst i) hrest

/-- With the table and the controllers as `wnu_arch_init` leaves them, whatever they held before and
in whatever order the keyboard, the other devices and the processor act: a run is one of the
kernel, in which the keys are the scancodes that the keyboard has sent, each once and in their
order, but for those that are still on their way. No interrupt but that of the keyboard is ever
taken. If the keyboard has been quiet until the first controller was initialized, then no scancode
is left behind: while one is at the port in the main loop, its interrupt is there to be taken. -/
theorem interrupts_run (m : Machine) (l : Loaded) (stub base : UInt64) (idt : Memory.Mem UInt8)
    (pics : Pics) (keyboard : Keyboard) (signals : List Signal) :
    let gate := Arch.gateOf (Arch.archInit stub idt) (Arch.loadIdt base).limit.toNat
    let s := run (signal m gate stub) (wired m l pics keyboard) signals
    let inputs := inputsOf m gate stub (wired m l pics keyboard) signals
    let steps := trace (signal m gate stub) (wired m l pics keyboard) signals
    s.kernel = run (exec m) (boot m l) inputs ∧
      inputs.flatMap Input.scancodes ++ (s.phase.held ++ s.keyboard.held) =
        keyboard.held ++ signals.flatMap Signal.sent ∧
      s.phase ≠ .stopped ∧
      (Quiet steps → s.phase = .main → s.keyboard.full = true →
        ∃ pics', s.pics.interrupt = some (0x21, pics')) := by
  intro gate s inputs steps
  have hg : Gated gate stub := ⟨_, Arch.gateOf_keyboard stub base idt, rfl⟩
  have hstart := sound_wired m l pics keyboard
  have hsound : Sound pics s :=
    run_invariant (P := Sound pics) (fun _ i h => h.signal hg i) hstart signals
  refine ⟨kernel_run _ _, scancodes_run hg hstart signals, ?_, ?_⟩
  · intro hstopped
    have hprogrammed := hsound.programmed
    rw [Programmed, hstopped] at hprogrammed
    exact hprogrammed
  · intro hquiet hmain hfull
    have hanswered : Answered (wired m l pics keyboard) := fun hready => by
      have hmem : (0x20, 0x11) ∈ picRemapKeyboardOnly := by decide
      exact absurd hmem hready
    have hnow : Answered s := answered_run hg hstart hanswered hquiet
    have hready : ¬ s.phase.Unready := by
      rw [hmain]
      exact id
    have hprogrammed := hsound.programmed
    rw [Programmed, hmain] at hprogrammed
    rcases hnow hready hfull with hreq | hentered
    · exact ⟨_, (interrupt_of_only hprogrammed.1 hprogrammed.2).trans (if_pos hreq)⟩
    · rw [hmain] at hentered
      cases hentered

end Wnu.Kernel
