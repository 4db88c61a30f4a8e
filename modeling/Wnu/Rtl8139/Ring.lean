import Wnu.Memory.Rounding
import Wnu.Rtl8139.Steps

/-! # The position in the ring

Only an accepted frame moves the position in the ring. The card is then told how far it
has been read, as the position less 16, which the driver does not let go below zero.
-/

namespace Wnu.Rtl8139

open Memory Net Runs

variable {pf : Platform} {card : Card}

/-! ## The position -/

theorem toNat_and_add {rxOffset len : UInt16} (h : rxOffset.toNat < 8192)
    (hlen : len.toNat ≤ 1600) :
    ((rxOffset.toUInt32 + len.toUInt32 + 4 + 3) &&& ~~~3).toNat =
      (rxOffset.toNat + len.toNat + 7) / 4 * 4 := by
  have hsum : (rxOffset.toUInt32 + len.toUInt32 + 4 + 3).toNat =
      rxOffset.toNat + len.toNat + 7 := by
    simp only [UInt32.toNat_add, UInt16.toNat_toUInt32, UInt32.reduceToNat]
    omega
  have hmask : (~~~3 : UInt32).toNat = 2 ^ 32 - 2 ^ 2 := rfl
  have hround : (rxOffset.toNat + len.toNat + 7) &&& (2 ^ 32 - 2 ^ 2) =
      (rxOffset.toNat + len.toNat + 7) / 4 * 4 :=
    and_two_pow_sub_two_pow (by decide) (by omega)
  rw [UInt32.toNat_and, hsum, hmask, hround]

/-- The position moves by the length of the frame and its header, up to a multiple of four,
around the ring. -/
theorem toNat_nextOffset {rxOffset len : UInt16} (h : rxOffset.toNat < 8192)
    (hlen : len.toNat ≤ 1600) : (nextOffset rxOffset len).toNat =
      (rxOffset.toNat + len.toNat + 7) / 4 * 4 % 8192 := by
  have hrounded : ((rxOffset.toUInt32 + len.toUInt32 + 4 + 3) &&& ~~~3).toUInt16.toNat =
      (rxOffset.toNat + len.toNat + 7) / 4 * 4 := by
    rw [UInt32.toNat_toUInt16, toNat_and_add h hlen]
    omega
  have hring : (8192 : UInt16).toNat = 8192 := rfl
  simp only [nextOffset, ge_iff_le, UInt16.le_iff_toNat_le, hrounded, hring]
  split
  · rename_i hge
    have hle : (8192 : UInt16) ≤
        ((rxOffset.toUInt32 + len.toUInt32 + 4 + 3) &&& ~~~3).toUInt16 := by
      rw [UInt16.le_iff_toNat_le, hrounded, hring]
      exact hge
    rw [UInt16.toNat_sub_of_le _ _ hle, hrounded, hring]
    omega
  · rw [hrounded]
    omega

theorem toNat_caprOf (rxOffset : UInt16) : (caprOf rxOffset).toNat = rxOffset.toNat - 16 := by
  have hgap : (16 : UInt16).toNat = 16 := rfl
  rw [caprOf]
  split
  · rename_i hge
    rw [UInt16.toNat_sub_of_le _ _ hge, hgap]
  · rename_i hlt
    rw [ge_iff_le, UInt16.le_iff_toNat_le, hgap] at hlt
    rw [UInt16.toNat_zero]
    omega

/-! ## Accepted frames -/

def lastByte (port : UInt16) (events : List Event) : Option UInt8 :=
  events.findSome? fun
    | .outb p value => if p = port then some value else none
    | _ => none

theorem lastByte_outb (port p : UInt16) (value : UInt8) (events : List Event) :
    lastByte port (.outb p value :: events) =
      if p = port then some value else lastByte port events := by
  rw [lastByte, List.findSome?_cons]
  split <;> simp_all [lastByte]

/-- The last value that was written to CAPR, byte by byte. -/
def caprWritten (ioBase : UInt16) (events : List Event) : Option UInt16 :=
  (lastByte (ioBase + regCapr + 1) events).bind fun hi =>
    (lastByte (ioBase + regCapr) events).map fun lo => lo.toUInt16 ||| (hi.toUInt16 <<< 8)

theorem bytes_word (x : UInt16) :
    ((x &&& 0xff).toUInt8).toUInt16 ||| ((((x >>> 8) &&& 0xff).toUInt8).toUInt16 <<< 8) = x := by
  have hx := x.toNat_lt
  have hmask : (0xff : UInt16).toNat = 2 ^ 8 - 1 := rfl
  have hlo : (x &&& 0xff).toUInt8.toUInt16.toNat = x.toNat % 2 ^ 8 := by
    rw [UInt8.toNat_toUInt16, UInt16.toNat_toUInt8, toNat_low16 x hmask]
    omega
  have hshift : (x >>> 8).toNat = x.toNat / 2 ^ 8 := toNat_high16 x rfl
  have hhi : (((x >>> 8) &&& 0xff).toUInt8.toUInt16 <<< 8).toNat = x.toNat / 2 ^ 8 * 2 ^ 8 := by
    have height : (8 : UInt16).toNat % 16 = 8 := rfl
    rw [UInt16.toNat_shiftLeft, UInt8.toNat_toUInt16, UInt16.toNat_toUInt8,
      toNat_low16 _ hmask, hshift, height, Nat.shiftLeft_eq]
    omega
  apply UInt16.toNat_inj.mp
  rw [UInt16.toNat_or, hlo, hhi, Nat.or_comm, Nat.mul_comm,
    ← Nat.two_pow_add_eq_or_of_lt (by omega)]
  omega

theorem caprWritten_advance (len : UInt16) (c : Call) :
    caprWritten (advance len c).ioBase (advance len c).events =
      some (caprOf (advance len c).rxOffset) := by
  have hports {p q : UInt16} (h : p ≠ q) : c.ioBase + p ≠ c.ioBase + q :=
    fun heq => h (UInt16.add_right_inj c.ioBase |>.mp heq)
  simp only [caprWritten, advance, Call.write16, Call.emit, lastByte_outb, UInt16.add_assoc]
  rw [if_neg (hports (by decide)), if_neg (hports (by decide)), if_pos trivial, Option.bind_some,
    if_neg (hports (by decide)), if_neg (hports (by decide)), if_neg (hports (by decide)),
    if_pos trivial, Option.map_some, bytes_word]

/-- A step that receives a frame ends a round that has accepted it; every other step leaves the
position alone. -/
theorem exec_cases (pf : Platform) (card : Card) (s : State) (i : Input) :
    ((∀ start len, .handlePacket start len ∉ (exec pf card s i).1) ∧
      (exec pf card s i).2.driver.ioBase = s.driver.ioBase ∧
      (exec pf card s i).2.driver.rxOffset = s.driver.rxOffset ∧
      ((exec pf card s i).2.polling ≠ none → s.polling ≠ none ∨ s.driver.ioBase ≠ 0)) ∨
    s.polling ≠ none ∧ ∃ c len, c.ioBase = s.driver.ioBase ∧ c.rxOffset = s.driver.rxOffset ∧
      len.toNat ≤ 1600 ∧
      exec pf card s i = ((advance len c).events, ⟨(advance len c).toDriver, s.polling⟩) := by
  by_cases hseen : ∃ h, headerSeen card s i = some h ∧ h.Accepted
  · obtain ⟨h, hh, ha⟩ := hseen
    obtain ⟨hpolling, c, hio, hoff, -, he⟩ := exec_accepted pf hh ha
    exact .inr ⟨hpolling, c, h.len, hio, hoff, ha.bounds.2, he⟩
  · obtain ⟨c, hidle, hevents, hdriver, hpolling⟩ :=
      exec_idle pf fun h hh ha => hseen ⟨h, hh, ha⟩
    rw [hevents, hdriver]
    refine .inl ⟨fun start len hmem => ?_, hidle.ioBase, hidle.rxOffset, hpolling⟩
    rcases hidle.of_mem_events hmem with hmem | hpacket
    · exact absurd hmem List.not_mem_nil
    · exact hpacket.elim

/-! ## Runs -/

/-- A card that is in use has a position in the ring, and only such a card is polled. -/
structure InRing (s : State) : Prop where
  polling : s.polling ≠ none → s.driver.ioBase ≠ 0
  lt : s.driver.ioBase ≠ 0 → s.driver.rxOffset.toNat < 8192
  dvd : s.driver.ioBase ≠ 0 → 4 ∣ s.driver.rxOffset.toNat

theorem setup_rxOffset (c : Call) : (setup pf card c).rxOffset = 0 := by
  simp only [setup]
  split <;> rfl

theorem init_cases (pf : Platform) (card : Card) (cfg : Pci.ConfigSpace) (c : Call) :
    (init pf card cfg c).ioBase = 0 ∨ ∃ c', init pf card cfg c = setup pf card c' := by
  rw [init]
  split
  · exact .inl rfl
  · simp only
    split
    · exact .inl rfl
    · split
      · exact .inl rfl
      · exact .inr ⟨_, rfl⟩

theorem inRing_start (cfg : Pci.ConfigSpace) (d : Driver) : InRing (start pf card cfg d) := by
  have hoff (hne : (start pf card cfg d).driver.ioBase ≠ 0) :
      (start pf card cfg d).driver.rxOffset = 0 := by
    obtain ⟨c, hc⟩ := (init_cases pf card cfg d.enter).resolve_left hne
    rw [start, hc, setup_rxOffset]
  refine ⟨fun h => absurd rfl h, fun hne => ?_, fun hne => ?_⟩
  · rw [hoff hne]
    decide
  · rw [hoff hne]
    decide

theorem inRing_exec (s : State) (i : Input) (h : InRing s) : InRing (exec pf card s i).2 := by
  rcases exec_cases pf card s i with
    ⟨-, hio, hoff, hpolling⟩ | ⟨hpolling, c, len, hio, hoff, hlen, he⟩
  · refine ⟨fun hsome => ?_, fun hne => ?_, fun hne => ?_⟩
    · rw [hio]
      exact (hpolling hsome).elim h.polling id
    · rw [hoff]
      exact h.lt (hio ▸ hne)
    · rw [hoff]
      exact h.dvd (hio ▸ hne)
  · have hne := h.polling hpolling
    have hlt := h.lt hne
    have hnext : (advance len c).rxOffset.toNat =
        (s.driver.rxOffset.toNat + len.toNat + 7) / 4 * 4 % 8192 := by
      rw [← hoff]
      exact toNat_nextOffset (hoff ▸ hlt) hlen
    rw [he]
    refine ⟨fun _ => ?_, fun _ => ?_, fun _ => ?_⟩
    · rw [← hio] at hne
      exact hne
    · rw [hnext]
      omega
    · rw [hnext]
      omega

/-- After each frame of each run, CAPR has been set to the new position less 16 if the position
is at least 16, and to zero if the position is zero. -/
theorem capr_of_handlePacket (pf : Platform) (card : Card) (cfg : Pci.ConfigSpace) (d : Driver)
    (inputs : List Input) (i : Input) :
    let s := run (exec pf card) (start pf card cfg d) inputs
    let s' := (exec pf card s i).2
    (∃ start len, .handlePacket start len ∈ (exec pf card s i).1) →
      s'.driver.rxOffset.toNat < 8192 ∧
        ∃ capr, caprWritten s'.driver.ioBase (exec pf card s i).1 = some capr ∧
          (16 ≤ s'.driver.rxOffset.toNat →
            (capr.toNat + 16) % 8192 = s'.driver.rxOffset.toNat) ∧
          (s'.driver.rxOffset = 0 → capr = 0) := by
  rintro s s' ⟨from', len', hmem⟩
  have hring : InRing s := run_invariant inRing_exec (inRing_start cfg d) inputs
  have hring' : InRing s' := inRing_exec s i hring
  rcases exec_cases pf card s i with
    ⟨hnone, -⟩ | ⟨hpolling, c, len, hio, hoff, hlen, he⟩
  · exact absurd hmem (hnone from' len')
  · have hne : s'.driver.ioBase ≠ 0 := by
      refine hring'.polling ?_
      simp only [s', he]
      exact hpolling
    refine ⟨hring'.lt hne, caprOf s'.driver.rxOffset, ?_, fun hge => ?_, fun hzero => ?_⟩
    · simp only [s', he]
      exact caprWritten_advance len c
    · have hlt := hring'.lt hne
      rw [toNat_caprOf]
      omega
    · rw [hzero]
      rfl

def steadyCard (len : UInt16) : Card where
  inb := fun _ _ => 0
  inl := fun _ _ => 0
  rxBuffer := fun _ i => match i % 4 with
    | 0 => 1
    | 1 => 0
    | 2 => (len &&& 0xff).toUInt8
    | _ => (len >>> 8).toUInt8

def identityMapped : Platform where
  kernelVirtBase := 0
  kernelPhysBase := 0
  rxBuffer := 0x10000
  txBuffers := 0x20000

def cardEverywhere : Pci.ConfigSpace := fun address =>
  if address &&& 0xfc = 0 then 0x813910ec else 0xc001

/-- The driver before `rtl8139_init`. -/
def boot : Driver where
  ioBase := 0
  txBuffers := fun _ _ => 0
  mac := Vector.replicate 6 0
  txIndex := 0
  rxOffset := 0
  net := ⟨Vector.replicate 6 0, false, false, false⟩
  reads := 0

/-- The state in a call of `rtl8139_poll` that has accepted some frames of one length. -/
def afterFrames (len : UInt16) (n : ℕ) : State :=
  run (exec identityMapped (steadyCard len))
    (start identityMapped (steadyCard len) cardEverywhere boot) (.poll :: List.replicate n .round)

theorem capr_of_handlePacket_secondFrame :
    (∃ start len, .handlePacket start len ∈
      (exec identityMapped (steadyCard 1020) (afterFrames 1020 1) .round).1) ∧
    ∃ capr, caprWritten
        (exec identityMapped (steadyCard 1020) (afterFrames 1020 1) .round).2.driver.ioBase
        (exec identityMapped (steadyCard 1020) (afterFrames 1020 1) .round).1 = some capr ∧
      (capr.toNat + 16) % 8192 = 2048 := by
  have hframe : .handlePacket 1028 1016 ∈
      (exec identityMapped (steadyCard 1020) (afterFrames 1020 1) .round).1 := by decide +kernel
  have hoff : (exec identityMapped (steadyCard 1020) (afterFrames 1020 1)
      .round).2.driver.rxOffset = 2048 := by decide +kernel
  obtain ⟨-, capr, hcapr, hsome, -⟩ := capr_of_handlePacket identityMapped (steadyCard 1020)
    cardEverywhere boot (.poll :: List.replicate 1 .round) .round ⟨1028, 1016, hframe⟩
  refine ⟨⟨1028, 1016, hframe⟩, capr, hcapr, ?_⟩
  rw [hsome (by rw [← afterFrames, hoff]; decide), ← afterFrames, hoff]
  rfl

/-- The eighth frame of 1024 bytes ends at the position 0 and the tenth of 820 bytes at 8. Both
times CAPR is set to 0. -/
theorem not_capr_congr :
    (¬ ∀ (pf : Platform) (card : Card) (cfg : Pci.ConfigSpace) (d : Driver) (inputs : List Input)
      (i : Input),
      let s := run (exec pf card) (start pf card cfg d) inputs
      let s' := (exec pf card s i).2
      (∃ start len, .handlePacket start len ∈ (exec pf card s i).1) →
        ∃ capr, caprWritten s'.driver.ioBase (exec pf card s i).1 = some capr ∧
          (capr.toNat + 16) % 8192 = s'.driver.rxOffset.toNat % 8192) ∧
    (exec identityMapped (steadyCard 816) (afterFrames 816 9) .round).2.driver.rxOffset = 8 ∧
    caprWritten (exec identityMapped (steadyCard 816) (afterFrames 816 9) .round).2.driver.ioBase
      (exec identityMapped (steadyCard 816) (afterFrames 816 9) .round).1 = some 0 := by
  refine ⟨fun hall => ?_, by decide +kernel, by decide +kernel⟩
  have hframe : .handlePacket 7172 1016 ∈
      (exec identityMapped (steadyCard 1020) (afterFrames 1020 7) .round).1 := by decide +kernel
  have hzero : caprWritten
      (exec identityMapped (steadyCard 1020) (afterFrames 1020 7) .round).2.driver.ioBase
      (exec identityMapped (steadyCard 1020) (afterFrames 1020 7) .round).1 = some 0 := by
    decide +kernel
  have hoff : (exec identityMapped (steadyCard 1020) (afterFrames 1020 7)
      .round).2.driver.rxOffset = 0 := by decide +kernel
  obtain ⟨capr, hcapr, hcongr⟩ := hall identityMapped (steadyCard 1020) cardEverywhere boot
    (.poll :: List.replicate 7 .round) .round ⟨7172, 1016, hframe⟩
  rw [← afterFrames, hzero] at hcapr
  rw [← afterFrames, hoff] at hcongr
  cases hcapr
  revert hcongr
  decide

end Wnu.Rtl8139
