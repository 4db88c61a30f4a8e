import Mathlib.Algebra.Ring.Nat
import Wnu.Rtl8139.Ring

/-! # Where the frames stand in the ring

The lengths of the frames that have been accepted determine the position. A packet is read
where its frame stands, which need not be inside the buffer, and a header that is rejected
stays where it is.
-/

namespace Wnu.Rtl8139

open Memory Net Runs

variable {pf : Platform} {card : Card}

def frame (card : Card) (s : State) (i : Input) : Option ℕ :=
  (headerSeen card s i).bind fun h => if h.Accepted then some h.len.toNat else none

def frames (card : Card) (steps : List (State × Input × List Event)) : List ℕ :=
  steps.filterMap fun step => frame card step.1 step.2.1

/-- What a frame and its header take of the ring. -/
def slotSize (len : ℕ) : ℕ := (len + 4 + 3) / 4 * 4

def consumed (lens : List ℕ) : ℕ := (lens.map slotSize).sum

@[simp] theorem consumed_nil : consumed [] = 0 := rfl

@[simp] theorem consumed_cons (len : ℕ) (lens : List ℕ) :
    consumed (len :: lens) = slotSize len + consumed lens := rfl

theorem dvd_slotSize (len : ℕ) : 4 ∣ slotSize len := Nat.dvd_mul_left 4 _

theorem dvd_consumed (lens : List ℕ) : 4 ∣ consumed lens := by
  induction lens with
  | nil => exact Nat.dvd_zero 4
  | cons len lens ih => exact Nat.dvd_add (dvd_slotSize len) ih

theorem frame_eq_some_iff {s : State} {i : Input} {len : ℕ} :
    frame card s i = some len ↔
      ∃ h, headerSeen card s i = some h ∧ h.Accepted ∧ len = h.len.toNat := by
  rw [frame, Option.bind_eq_some_iff]
  constructor
  · rintro ⟨h, hh, hlen⟩
    split at hlen
    · rename_i ha
      exact ⟨h, hh, ha, (Option.some.inj hlen).symm⟩
    · cases hlen
  · rintro ⟨h, hh, ha, rfl⟩
    exact ⟨h, hh, if_pos ha⟩

theorem frame_eq_none_iff {s : State} {i : Input} :
    frame card s i = none ↔ ∀ h, headerSeen card s i = some h → ¬ h.Accepted := by
  constructor
  · intro hnone h hh ha
    have hsome : frame card s i = some h.len.toNat := frame_eq_some_iff.mpr ⟨h, hh, ha, rfl⟩
    rw [hnone] at hsome
    cases hsome
  · intro hrejected
    cases hframe : frame card s i with
    | none => rfl
    | some len =>
      obtain ⟨h, hh, ha, -⟩ := frame_eq_some_iff.mp hframe
      exact absurd ha (hrejected h hh)

theorem frame_eq_none_of_rejected {s : State} {i : Input} {h : Header}
    (hh : headerSeen card s i = some h) (hrejected : ¬ h.Accepted) : frame card s i = none := by
  rw [frame_eq_none_iff]
  intro h' hh'
  cases hh.symm.trans hh'
  exact hrejected

theorem frames_cons (s : State) (i : Input) (events : List Event)
    (steps : List (State × Input × List Event)) :
    frames card ((s, i, events) :: steps) = (frame card s i).toList ++ frames card steps := by
  rw [frames, List.filterMap_cons]
  cases frame card s i <;> rfl

/-! ## The position -/

/-- The position is where the last frame ends, around the ring. -/
structure At (n : ℕ) (s : State) : Prop where
  dvd : 4 ∣ n
  rxOffset : s.driver.rxOffset.toNat = n % 8192

theorem At.lt {n : ℕ} {s : State} (h : At n s) : s.driver.rxOffset.toNat < 8192 := by
  rw [h.rxOffset]
  exact Nat.mod_lt n (by decide)

theorem rxOffset_exec_of_frame_none {s : State} {i : Input} (h : frame card s i = none) :
    (exec pf card s i).2.driver.rxOffset = s.driver.rxOffset := by
  obtain ⟨c, hidle, -, hdriver, -⟩ := exec_idle pf (frame_eq_none_iff.mp h)
  rw [hdriver]
  exact hidle.rxOffset

theorem rxOffset_exec_of_accepted {s : State} {i : Input} {h : Header}
    (hh : headerSeen card s i = some h) (ha : h.Accepted) :
    (exec pf card s i).2.driver.rxOffset = nextOffset s.driver.rxOffset h.len := by
  obtain ⟨-, c, -, hoff, -, he⟩ := exec_accepted pf hh ha
  rw [he, ← hoff]
  rfl

theorem at_exec (pf : Platform) (card : Card) {n : ℕ} {s : State} (h : At n s) (i : Input) :
    At (n + consumed (frame card s i).toList) (exec pf card s i).2 := by
  cases hframe : frame card s i with
  | none =>
    refine ⟨h.dvd, ?_⟩
    rw [rxOffset_exec_of_frame_none hframe]
    exact h.rxOffset
  | some len =>
    obtain ⟨hd, hh, ha, rfl⟩ := frame_eq_some_iff.mp hframe
    have hdvd : 4 ∣ n + slotSize hd.len.toNat := Nat.dvd_add h.dvd (dvd_slotSize _)
    refine ⟨hdvd, ?_⟩
    rw [rxOffset_exec_of_accepted hh ha, toNat_nextOffset h.lt ha.bounds.2, h.rxOffset]
    simp only [Option.toList_some, consumed_cons, consumed_nil, slotSize]
    obtain ⟨k, rfl⟩ := h.dvd
    omega

theorem at_run {n : ℕ} {s : State} (h : At n s) (inputs : List Input) :
    At (n + consumed (frames card (trace (exec pf card) s inputs)))
      (run (exec pf card) s inputs) := by
  induction inputs generalizing n s with
  | nil => exact h
  | cons i inputs ih =>
    have hrest := ih (at_exec pf card h i)
    rw [trace_cons, frames_cons, consumed, List.map_append, List.sum_append, ← Nat.add_assoc]
    exact hrest

theorem waitReset_rxOffset (timeout : ℕ) (c : Call) :
    (waitReset card timeout c).2.rxOffset = c.rxOffset := by
  induction timeout generalizing c with
  | zero => rfl
  | succ timeout ih =>
    simp only [waitReset]
    split
    · exact ih _
    · rfl

theorem at_start (cfg : Pci.ConfigSpace) (d : Driver) (hd : d.rxOffset = 0) :
    At 0 (start pf card cfg d) := by
  have hinit : (init pf card cfg d.enter).rxOffset = 0 := by
    rw [init]
    split
    · exact hd
    · simp only
      split
      · exact hd
      · split
        · exact (waitReset_rxOffset _ _).trans hd
        · exact setup_rxOffset _
  refine ⟨Nat.dvd_zero 4, ?_⟩
  exact congrArg UInt16.toNat hinit

theorem toUInt32_toUInt16_and_add {rxOffset len : UInt16} (h : rxOffset.toNat < 8192)
    (hlen : len.toNat ≤ 1600) :
    ((rxOffset.toUInt32 + len.toUInt32 + 4 + 3) &&& ~~~3).toUInt16.toUInt32 =
      (rxOffset.toUInt32 + len.toUInt32 + 4 + 3) &&& ~~~3 := by
  apply UInt32.toNat_inj.mp
  rw [UInt16.toNat_toUInt32, UInt32.toNat_toUInt16, toNat_and_add h hlen]
  omega

/-- In every run the position is a multiple of four in the ring, and the sum of what the frames
accepted so far take, modulo the size of the ring. A rejected header leaves it as it is, and
storing it in 16 bits loses nothing. -/
theorem rxOffset_eq_consumed (pf : Platform) (card : Card) (cfg : Pci.ConfigSpace) (d : Driver)
    (inputs : List Input) (hd : d.rxOffset = 0) :
    let steps := trace (exec pf card) (start pf card cfg d) inputs
    let s := run (exec pf card) (start pf card cfg d) inputs
    4 ∣ s.driver.rxOffset.toNat ∧ s.driver.rxOffset.toNat < 8192 ∧
      s.driver.rxOffset.toNat = ((frames card steps).map slotSize).sum % 8192 ∧
      ∀ i h, headerSeen card s i = some h →
        (¬ h.Accepted → (exec pf card s i).2.driver.rxOffset = s.driver.rxOffset) ∧
        (h.Accepted →
          (exec pf card s i).2.driver.rxOffset = nextOffset s.driver.rxOffset h.len ∧
          let sum := (s.driver.rxOffset.toUInt32 + h.len.toUInt32 + 4 + 3) &&& ~~~3
          sum.toUInt16.toUInt32 = sum ∧
            sum.toNat = s.driver.rxOffset.toNat + slotSize h.len.toNat) := by
  intro steps s
  have hat : At (0 + consumed (frames card steps)) s := at_run (at_start cfg d hd) inputs
  rw [Nat.zero_add] at hat
  have hdvd : 4 ∣ s.driver.rxOffset.toNat := by
    rw [hat.rxOffset]
    exact (Nat.dvd_mod_iff (by decide)).mpr hat.dvd
  refine ⟨hdvd, hat.lt, hat.rxOffset, fun i h hh => ⟨fun hrejected => ?_, fun ha => ?_⟩⟩
  · apply rxOffset_exec_of_frame_none
    exact frame_eq_none_of_rejected hh hrejected
  · refine ⟨rxOffset_exec_of_accepted hh ha, ?_, ?_⟩
    · exact toUInt32_toUInt16_and_add hat.lt ha.bounds.2
    · rw [toNat_and_add hat.lt ha.bounds.2, slotSize]
      omega

theorem rxOffset_eq_consumed_firstFrame :
    boot.rxOffset = 0 ∧
      (run (exec identityMapped (steadyCard 1021))
        (start identityMapped (steadyCard 1021) cardEverywhere boot)
        [.poll, .round]).driver.rxOffset.toNat =
      ((frames (steadyCard 1021) (trace (exec identityMapped (steadyCard 1021))
        (start identityMapped (steadyCard 1021) cardEverywhere boot)
        [.poll, .round])).map slotSize).sum % 8192 :=
  ⟨rfl, (rxOffset_eq_consumed identityMapped (steadyCard 1021) cardEverywhere boot
    [.poll, .round] rfl).2.2.1⟩

/-! ## Slices -/

theorem handlePacket_mem_exec {s : State} {i : Input} {start n : ℕ} :
    .handlePacket start n ∈ (exec pf card s i).1 ↔
      ∃ len, frame card s i = some len ∧ start = s.driver.rxOffset.toNat + 4 ∧ n = len - 4 := by
  cases hframe : frame card s i with
  | none =>
    obtain ⟨c, hidle, hevents, -, -⟩ := exec_idle pf (frame_eq_none_iff.mp hframe)
    rw [hevents]
    constructor
    · intro hmem
      rcases hidle.of_mem_events hmem with hmem | hpacket
      · exact absurd hmem List.not_mem_nil
      · exact hpacket.elim
    · rintro ⟨len, hlen, -⟩
      cases hlen
  | some len =>
    obtain ⟨h, hh, ha, rfl⟩ := frame_eq_some_iff.mp hframe
    obtain ⟨-, c, -, -, hmem, he⟩ := exec_accepted pf hh ha
    rw [he, handlePacket_mem_advance, hmem]
    constructor
    · rintro ⟨hstart, hn⟩
      exact ⟨_, rfl, hstart, hn⟩
    · rintro ⟨len, hlen, hstart, hn⟩
      cases hlen
      exact ⟨hstart, hn⟩

/-- The slices of a step end in the buffer if the frame that it accepts does. -/
theorem slices_exec_iff (pf : Platform) (card : Card) (s : State) (i : Input) :
    (∀ start n, .handlePacket start n ∈ (exec pf card s i).1 → start + n ≤ rxBufferSize) ↔
      ∀ len ∈ frame card s i, s.driver.rxOffset.toNat + len ≤ rxBufferSize := by
  constructor
  · intro hall len hlen
    obtain ⟨h, -, ha, rfl⟩ := frame_eq_some_iff.mp hlen
    have hslice := hall _ _ (handlePacket_mem_exec.mpr ⟨_, hlen, rfl, rfl⟩)
    have hmin := ha.bounds.1
    omega
  · rintro hall start n hmem
    obtain ⟨len, hlen, rfl, rfl⟩ := handlePacket_mem_exec.mp hmem
    obtain ⟨h, -, ha, rfl⟩ := frame_eq_some_iff.mp hlen
    have hend := hall _ hlen
    have hmin := ha.bounds.1
    omega

theorem forall_append_singleton_prefix_cons {α : Type*} {P : List α → α → Prop} {a : α}
    {l : List α} : (∀ earlier x, earlier ++ [x] <+: a :: l → P earlier x) ↔
      P [] a ∧ ∀ earlier x, earlier ++ [x] <+: l → P (a :: earlier) x := by
  constructor
  · intro hall
    refine ⟨hall [] a ⟨l, rfl⟩, fun earlier x hprefix => hall (a :: earlier) x ?_⟩
    exact List.cons_prefix_cons.mpr ⟨rfl, hprefix⟩
  · rintro ⟨hfirst, hrest⟩ earlier x hprefix
    cases earlier with
    | nil =>
      obtain ⟨rfl, -⟩ := List.cons_prefix_cons.mp hprefix
      exact hfirst
    | cons b earlier =>
      obtain ⟨rfl, htail⟩ := List.cons_prefix_cons.mp hprefix
      exact hrest earlier x htail

theorem slices_run_iff (pf : Platform) (card : Card) {n : ℕ} {s : State} (h : At n s)
    (inputs : List Input) :
    (∀ step ∈ trace (exec pf card) s inputs, ∀ start len,
      .handlePacket start len ∈ step.2.2 → start + len ≤ rxBufferSize) ↔
    ∀ earlier len, earlier ++ [len] <+: frames card (trace (exec pf card) s inputs) →
      (n + consumed earlier) % 8192 + len ≤ rxBufferSize := by
  induction inputs generalizing n s with
  | nil =>
    apply iff_of_true
    · simp
    · intro earlier len hprefix
      simp [frames] at hprefix
  | cons i inputs ih =>
    have hrest := ih (at_exec pf card h i)
    have hfirst := slices_exec_iff pf card s i
    rw [trace_cons, List.forall_mem_cons, hfirst, hrest, frames_cons, h.rxOffset]
    cases hframe : frame card s i with
    | none =>
      rw [Option.toList_none, consumed_nil, Nat.add_zero, List.nil_append]
      exact and_iff_right fun len hlen => absurd hlen (by simp)
    | some len =>
      rw [Option.toList_some, List.singleton_append, forall_append_singleton_prefix_cons]
      simp only [Option.mem_some_iff, forall_eq', consumed_cons, consumed_nil, Nat.add_zero,
        Nat.add_assoc]

/-- In every run, the packets that are handed on lie in `rx_buffer` exactly if every frame of more
than 1520 bytes ends in it, where the frames before it leave it in the ring. -/
theorem slices_in_rxBuffer_iff (pf : Platform) (card : Card) (cfg : Pci.ConfigSpace) (d : Driver)
    (inputs : List Input) (hd : d.rxOffset = 0) :
    let steps := trace (exec pf card) (start pf card cfg d) inputs
    (∀ step ∈ steps, ∀ start len,
      .handlePacket start len ∈ step.2.2 → start + len ≤ rxBufferSize) ↔
    ∀ earlier len, earlier ++ [len] <+: frames card steps → 1520 < len →
      (earlier.map slotSize).sum % 8192 + len ≤ rxBufferSize := by
  intro steps
  have hstart : At 0 (start pf card cfg d) := at_start cfg d hd
  have hrun := slices_run_iff pf card hstart inputs
  simp only [Nat.zero_add] at hrun
  refine hrun.trans ⟨fun hall earlier len hprefix _ => hall earlier len hprefix, ?_⟩
  intro hall earlier len hprefix
  by_cases hlong : 1520 < len
  · exact hall earlier len hprefix hlong
  · have hsize : rxBufferSize = 9708 := rfl
    obtain ⟨k, hk⟩ := dvd_consumed earlier
    rw [hk]
    omega

theorem slices_in_rxBuffer_iff_firstFrame :
    boot.rxOffset = 0 ∧
      ∀ step ∈ trace (exec identityMapped (steadyCard 1514))
        (start identityMapped (steadyCard 1514) cardEverywhere boot) [.poll, .round],
        ∀ start len, .handlePacket start len ∈ step.2.2 → start + len ≤ rxBufferSize := by
  refine ⟨rfl, ?_⟩
  refine (slices_in_rxBuffer_iff identityMapped (steadyCard 1514) cardEverywhere boot
    [.poll, .round] rfl).mpr ?_
  have hframes : frames (steadyCard 1514) (trace (exec identityMapped (steadyCard 1514))
      (start identityMapped (steadyCard 1514) cardEverywhere boot) [.poll, .round]) = [1514] := by
    decide +kernel
  rintro earlier len hprefix hlong
  rw [hframes, ← List.nil_append [1514], List.prefix_concat_iff] at hprefix
  rcases hprefix with heq | hnil
  · obtain ⟨-, hlen⟩ := List.append_inj' heq rfl
    cases hlen
    exact absurd hlong (by decide)
  · exact absurd (List.prefix_nil.mp hnil) (by simp)

/-- The frames of 1556 bytes before the twenty-second leave 8 bytes of the ring. -/
theorem not_slices_in_rxBuffer :
    ¬ ∀ (pf : Platform) (card : Card) (cfg : Pci.ConfigSpace) (d : Driver) (inputs : List Input),
      d.rxOffset = 0 →
      ∀ step ∈ trace (exec pf card) (start pf card cfg d) inputs, ∀ start len,
        .handlePacket start len ∈ step.2.2 → start + len ≤ rxBufferSize := by
  intro hall
  have hlast : ∃ step ∈ trace (exec identityMapped (steadyCard 1556))
      (start identityMapped (steadyCard 1556) cardEverywhere boot)
      (.poll :: List.replicate 22 .round), .handlePacket 8188 1552 ∈ step.2.2 := by
    decide +kernel
  obtain ⟨step, hstep, hmem⟩ := hlast
  have hend := hall identityMapped (steadyCard 1556) cardEverywhere boot
    (.poll :: List.replicate 22 .round) rfl step hstep 8188 1552 hmem
  exact absurd hend (by decide)

/-! ## Rejected headers -/

/-- The position changes and CAPR is written, or the receiver is reset. -/
def MovesOn (s s' : State) (events : List Event) : Prop :=
  (s'.driver.rxOffset ≠ s.driver.rxOffset ∧
    ∃ value, .outb (s.driver.ioBase + regCapr) value ∈ events) ∨
  ∃ value, .outb (s.driver.ioBase + regCmd) value ∈ events ∧ value &&& cmdReset ≠ 0

theorem not_movesOn_of_frame_none {s : State} {i : Input} (h : frame card s i = none) :
    ¬ MovesOn s (exec pf card s i).2 (exec pf card s i).1 := by
  rintro (⟨hoff, -⟩ | ⟨value, hmem, -⟩)
  · exact hoff (rxOffset_exec_of_frame_none h)
  · obtain ⟨c, hidle, hevents, -, -⟩ := exec_idle pf (frame_eq_none_iff.mp h)
    rw [hevents] at hmem
    rcases hidle.of_mem_events hmem with hmem | hport | hport
    · exact absurd hmem List.not_mem_nil
    · rw [show s.driver.enter.ioBase = s.driver.ioBase from rfl, UInt16.add_right_inj] at hport
      exact absurd hport (by decide)
    · rw [show s.driver.enter.ioBase = s.driver.ioBase from rfl, UInt16.add_assoc,
        UInt16.add_right_inj] at hport
      exact absurd hport (by decide)

/-- The ring holds the same header at the position whenever it is read from now on. -/
structure Stuck (card : Card) (h : Header) (s : State) : Prop where
  rejected : ¬ h.Accepted
  header : ∀ n, s.driver.reads ≤ n → headerAt (card.rxBuffer n) s.driver.rxOffset = h

namespace Stuck

variable {h : Header} {s : State}

theorem headerSeen_eq (hs : Stuck card h s) {i : Input} {h' : Header}
    (hh : headerSeen card s i = some h') : h' = h := by
  obtain ⟨-, -, rfl⟩ := headerSeen_eq_some_iff.mp hh
  exact hs.header _ (Nat.le_succ _)

theorem frame_eq_none (hs : Stuck card h s) (i : Input) : frame card s i = none := by
  rw [frame_eq_none_iff]
  intro h' hh
  rw [hs.headerSeen_eq hh]
  exact hs.rejected

theorem exec (pf : Platform) (hs : Stuck card h s) (i : Input) :
    Stuck card h (exec pf card s i).2 := by
  obtain ⟨c, hidle, -, hdriver, -⟩ :=
    exec_idle (i := i) pf (frame_eq_none_iff.mp (hs.frame_eq_none i))
  refine ⟨hs.rejected, fun n hn => ?_⟩
  rw [rxOffset_exec_of_frame_none (hs.frame_eq_none i)]
  rw [hdriver] at hn
  exact hs.header n (hidle.reads.trans hn)

theorem run (pf : Platform) (hs : Stuck card h s) (inputs : List Input) :
    (run (Rtl8139.exec pf card) s inputs).driver.rxOffset = s.driver.rxOffset ∧
      ∀ step ∈ trace (Rtl8139.exec pf card) s inputs,
        (∀ h', headerSeen card step.1 step.2.1 = some h' → h' = h) ∧
        ∀ start len, .handlePacket start len ∉ step.2.2 := by
  induction inputs generalizing s with
  | nil => exact ⟨rfl, by simp⟩
  | cons i inputs ih =>
    obtain ⟨hoff, hsteps⟩ := ih (hs.exec pf i)
    refine ⟨hoff.trans (rxOffset_exec_of_frame_none (hs.frame_eq_none i)), ?_⟩
    rw [trace_cons, List.forall_mem_cons]
    refine ⟨⟨fun h' hh => hs.headerSeen_eq hh, fun start len hmem => ?_⟩, hsteps⟩
    obtain ⟨l, hframe, -⟩ := handlePacket_mem_exec.mp hmem
    rw [hs.frame_eq_none i] at hframe
    cases hframe

end Stuck

/-- No round that rejects a header moves on, in any run. While the ring holds that header, no later
step hands a packet on or changes the position. -/
theorem rejected_header_stays (pf : Platform) (card : Card) (cfg : Pci.ConfigSpace) (d : Driver)
    (inputs : List Input) (i : Input) (h : Header) :
    let s := run (exec pf card) (start pf card cfg d) inputs
    let s' := (exec pf card s i).2
    headerSeen card s i = some h → ¬ h.Accepted →
      ¬ MovesOn s s' (exec pf card s i).1 ∧
      s'.driver.rxOffset = s.driver.rxOffset ∧
      ((∀ n, s.driver.reads ≤ n → headerAt (card.rxBuffer n) s.driver.rxOffset = h) →
        ∀ later, (run (exec pf card) s' later).driver.rxOffset = s.driver.rxOffset ∧
          ∀ step ∈ trace (exec pf card) s' later,
            (∀ h', headerSeen card step.1 step.2.1 = some h' → h' = h) ∧
            ∀ start len, .handlePacket start len ∉ step.2.2) := by
  intro s s' hh hrejected
  have hframe : frame card s i = none := frame_eq_none_of_rejected hh hrejected
  have hoff : s'.driver.rxOffset = s.driver.rxOffset := rxOffset_exec_of_frame_none hframe
  refine ⟨not_movesOn_of_frame_none hframe, hoff, fun hsame later => ?_⟩
  have hstuck : Stuck card h s := ⟨hrejected, hsame⟩
  obtain ⟨hlater, hsteps⟩ := (hstuck.exec pf i).run pf later
  exact ⟨hlater.trans hoff, hsteps⟩

/-- The state in a call of `rtl8139_poll` that has found a header with the length 1601. -/
def beforeLongFrame : State :=
  run (exec identityMapped (steadyCard 1601))
    (start identityMapped (steadyCard 1601) cardEverywhere boot) [.poll]

theorem headerSeen_beforeLongFrame :
    headerSeen (steadyCard 1601) beforeLongFrame .round = some ⟨1, 1601⟩ := by
  decide +kernel

theorem not_accepted_longFrame : ¬ (⟨1, 1601⟩ : Header).Accepted := by
  decide

theorem rejected_header_stays_longFrame :
    headerSeen (steadyCard 1601) beforeLongFrame .round = some ⟨1, 1601⟩ ∧
      ¬ (⟨1, 1601⟩ : Header).Accepted ∧
      ¬ MovesOn beforeLongFrame
        (exec identityMapped (steadyCard 1601) beforeLongFrame .round).2
        (exec identityMapped (steadyCard 1601) beforeLongFrame .round).1 ∧
      ∀ step ∈ trace (exec identityMapped (steadyCard 1601))
          (exec identityMapped (steadyCard 1601) beforeLongFrame .round).2 [.poll, .round],
        ∀ start len, .handlePacket start len ∉ step.2.2 := by
  obtain ⟨hmoves, -, hlater⟩ := rejected_header_stays identityMapped (steadyCard 1601)
    cardEverywhere boot [.poll] .round ⟨1, 1601⟩ headerSeen_beforeLongFrame not_accepted_longFrame
  have hoff : beforeLongFrame.driver.rxOffset = 0 := by decide +kernel
  refine ⟨headerSeen_beforeLongFrame, not_accepted_longFrame, hmoves, fun step hstep => ?_⟩
  have hheader : headerAt ((steadyCard 1601).rxBuffer 0) 0 = ⟨1, 1601⟩ := by decide
  refine ((hlater (fun n _ => ?_) [.poll, .round]).2 step hstep).2
  rw [← beforeLongFrame, hoff]
  exact hheader

/-- A header with the length 1601 is rejected, and nothing moves on. -/
theorem not_movesOn_of_rejected :
    ¬ ∀ (pf : Platform) (card : Card) (cfg : Pci.ConfigSpace) (d : Driver) (inputs : List Input)
      (i : Input) (h : Header),
      let s := run (exec pf card) (start pf card cfg d) inputs
      headerSeen card s i = some h → ¬ h.Accepted →
        MovesOn s (exec pf card s i).2 (exec pf card s i).1 := by
  intro hall
  refine absurd (hall identityMapped (steadyCard 1601) cardEverywhere boot [.poll] .round
    ⟨1, 1601⟩ headerSeen_beforeLongFrame not_accepted_longFrame) ?_
  apply not_movesOn_of_frame_none
  exact frame_eq_none_of_rejected headerSeen_beforeLongFrame not_accepted_longFrame

end Wnu.Rtl8139
