import Wnu.Rtl8139.Ring

/-! # The transmit buffers

The driver sends from its four buffers in turn. A buffer is cleared as far as the card will
read it before the frame is put in, so the card never reads what an earlier frame has left
there.
-/

namespace Wnu.Rtl8139

open Memory Net Runs

variable {pf : Platform} {card : Card}

/-! ## Filling a buffer -/

theorem fillBuffer_of_le (buf data : Mem UInt8) {txLen len j : ℕ} (hlen : len ≤ txLen)
    (hj : txLen ≤ j) : fillBuffer buf data txLen len j = buf j := by
  rw [fillBuffer, copyLoop_apply, copyLoop_apply, if_neg (by omega), if_neg (by omega)]

theorem window_fillBuffer (buf data : Mem UInt8) {txLen len : ℕ} (hlen : len ≤ txLen) :
    window (fillBuffer buf data txLen len) txLen =
      window data len ++ List.replicate (txLen - len) 0 := by
  obtain ⟨k, rfl⟩ := Nat.exists_eq_add_of_le hlen
  have hzeros : window (fun i => fillBuffer buf data (len + k) len (len + i)) k =
      List.replicate k 0 := by
    apply List.eq_replicate_iff.mpr
    refine ⟨length_window _ _, fun b hb => ?_⟩
    obtain ⟨i, hi, rfl⟩ := List.mem_map.mp hb
    have hlt := List.mem_range.mp hi
    rw [fillBuffer, copyLoop_apply, copyLoop_apply, if_neg (by omega), if_pos (by omega)]
  rw [window_add, hzeros, Nat.add_sub_cancel_left, fillBuffer, window_copyLoop_zero]

structure Filled (bufs bufs' : ℕ → Mem UInt8) (slot : ℕ) (data : Mem UInt8) (len : ℕ) : Prop where
  frame : window (bufs' slot) (max len 60) =
    window data len ++ List.replicate (max len 60 - len) 0
  rest : ∀ j, max len 60 ≤ j → bufs' slot j = bufs slot j
  others : ∀ k, k ≠ slot → bufs' k = bufs k

theorem filled_fillBuffer (bufs : ℕ → Mem UInt8) (slot : ℕ) (data : Mem UInt8) (len : ℕ) :
    Filled bufs (Function.update bufs slot (fillBuffer (bufs slot) data (max len 60) len)) slot
      data len := by
  have hlen : len ≤ max len 60 := Nat.le_max_left len 60
  constructor
  case frame =>
    rw [Function.update_self]
    exact window_fillBuffer (bufs slot) data hlen
  case rest =>
    intro j hj
    rw [Function.update_self]
    exact fillBuffer_of_le (bufs slot) data hlen hj
  case others =>
    intro k hk
    exact Function.update_of_ne hk _ bufs

/-! ## The registers -/

def bufferPhys (pf : Platform) (slot : ℕ) : UInt64 :=
  pf.virtToPhys (pf.txBuffers + UInt64.ofNat (slot * txBufferSize))

/-- The first registers that are written are the address and the status of a slot, and no other
register is written. -/
def Programs (ioBase : UInt16) (slot : ℕ) (phys : UInt64) (txLen : ℕ) (events : List Event) :
    Prop :=
  ∃ rest, events.reverse = .outl (ioBase + UInt16.ofNat (0x20 + 4 * slot)) phys.toUInt32 ::
      .outl (ioBase + UInt16.ofNat (0x10 + 4 * slot)) (UInt32.ofNat txLen) :: rest ∧
    ∀ port, (∀ value, .outl port value ∉ rest) ∧ ∀ value, .outb port value ∉ rest

theorem register_slot (reg : UInt16) (slot : UInt32) :
    reg + (slot * 4).toUInt16 = UInt16.ofNat (reg.toNat + 4 * slot.toNat) := by
  have hfour : (4 : UInt32).toNat = 4 := rfl
  apply UInt16.toNat_inj.mp
  rw [UInt16.toNat_add, UInt32.toNat_toUInt16, UInt32.toNat_mul, hfour, UInt16.toNat_ofNat']
  omega

theorem programs_transmit (slot : UInt32) (phys : UInt64) (txLen : ℕ) {c : Call}
    (hc : c.events = []) : Programs c.ioBase slot.toNat phys txLen
      (transmit card slot phys.toUInt32 txLen c).events := by
  have haddr : regTxAddr0 + (slot * 4).toUInt16 = UInt16.ofNat (0x20 + 4 * slot.toNat) :=
    register_slot regTxAddr0 slot
  have hstatus : regTxStatus0 + (slot * 4).toUInt16 = UInt16.ofNat (0x10 + 4 * slot.toNat) :=
    register_slot regTxStatus0 slot
  simp only [transmit, Call.read32, Call.inl, Call.write32, Call.emit, haddr, hstatus, hc]
  refine ⟨_, rfl, fun port => ⟨fun value => ?_, fun value => ?_⟩⟩
  · simp
  · simp

theorem toNat_nextSlot (slot : UInt32) : ((slot + 1) &&& 3).toNat = (slot.toNat + 1) % 4 := by
  have hlow : ((slot + 1) &&& 3).toNat = (slot + 1).toNat % 2 ^ 2 := toNat_low32 _ rfl
  rw [hlow, UInt32.toNat_add, UInt32.toNat_one]
  omega

/-! ## A call -/

structure Frame where
  data : Mem UInt8
  len : ℕ

/-- `rtl8139_send(data, len)` -/
def Frame.input (f : Frame) : Input := .send (some f.data) f.len

def Call.fill (f : Frame) (c : Call) : Call :=
  { c with
    txBuffers := Function.update c.txBuffers c.txIndex.toNat
      (fillBuffer (c.txBuffers c.txIndex.toNat) f.data (max f.len 60) f.len) }

/-- What a call does with its frame when the card is there and the buffer is within its reach. -/
theorem send_eq {f : Frame} {c : Call} (hio : c.ioBase ≠ 0) (hlen : f.len ≤ 2048)
    (hlow : bufferPhys pf c.txIndex.toNat ≤ 0xffffffff) :
    send pf card (some f.data) f.len c =
      transmit card c.txIndex (bufferPhys pf c.txIndex.toNat).toUInt32 (max f.len 60)
        (c.fill f) := by
  have hmax : (if f.len < 60 then 60 else f.len) = max f.len 60 := by
    split <;> omega
  have hreach : ¬ bufferPhys pf c.txIndex.toNat > 0xffffffff := UInt64.not_lt.mpr hlow
  rw [bufferPhys] at hreach
  rw [send, if_neg hio]
  simp only [if_neg (Nat.not_lt.mpr hlen), hmax]
  rw [if_neg hreach, bufferPhys, Call.fill]

/-! ## Runs -/

structure SentFrames (ioBase : UInt16) (n : ℕ) (s : State) : Prop where
  ioBase : s.driver.ioBase = ioBase
  polling : s.polling = none
  txIndex : s.driver.txIndex.toNat = n % 4

theorem setup_txIndex (c : Call) : (setup pf card c).txIndex = 0 := by
  simp only [setup]
  split <;> rfl

theorem sentFrames_start {cfg : Pci.ConfigSpace} {d : Driver}
    (h : (start pf card cfg d).driver.ioBase ≠ 0) :
    SentFrames (start pf card cfg d).driver.ioBase 0 (start pf card cfg d) := by
  have hzero : (start pf card cfg d).driver.txIndex = 0 := by
    obtain ⟨c, hc⟩ := (init_cases pf card cfg d.enter).resolve_left h
    rw [start, hc, setup_txIndex]
  refine ⟨rfl, rfl, ?_⟩
  rw [hzero]
  rfl

/-- A frame is sent from a slot. When its buffer has been filled, the registers of the slot are
written, and the buffers stay as they are. -/
def SendsFrom (pf : Platform) (card : Card) (ioBase : UInt16) (slot : ℕ) (f : Frame) (s : State) :
    Prop :=
  ∃ c : Call, Filled s.driver.txBuffers c.txBuffers slot f.data f.len ∧ c.events = [] ∧
    let c' := transmit card (UInt32.ofNat slot) (bufferPhys pf slot).toUInt32 (max f.len 60) c
    Programs ioBase slot (bufferPhys pf slot) (max f.len 60) c'.events ∧
    c'.txBuffers = c.txBuffers ∧ exec pf card s f.input = (c'.events, ⟨c'.toDriver, none⟩)

/-- A frame is sent from the slot whose turn it is, and then it is the turn of the next one. -/
theorem SentFrames.exec (card : Card) {ioBase : UInt16} {n : ℕ} {s : State}
    (h : SentFrames ioBase n s) (hio : ioBase ≠ 0)
    (hlow : ∀ slot < 4, bufferPhys pf slot ≤ 0xffffffff) {f : Frame} (hf : f.len ≤ 2048) :
    SendsFrom pf card ioBase (n % 4) f s ∧
      SentFrames ioBase (n + 1) (exec pf card s f.input).2 := by
  obtain ⟨d, polling⟩ := s
  obtain rfl : polling = none := h.polling
  obtain rfl : d.ioBase = ioBase := h.ioBase
  have hindex : d.txIndex.toNat = n % 4 := h.txIndex
  have hslot : UInt32.ofNat (n % 4) = d.txIndex := by rw [← hindex, UInt32.ofNat_toNat]
  have hsend : send pf card (some f.data) f.len d.enter =
      transmit card (UInt32.ofNat (n % 4)) (bufferPhys pf (n % 4)).toUInt32 (max f.len 60)
        (d.enter.fill f) := by
    rw [hslot, ← hindex]
    exact send_eq hio hf (hlow d.txIndex.toNat (by omega))
  have hexec : Rtl8139.exec pf card ⟨d, none⟩ f.input =
      ((send pf card (some f.data) f.len d.enter).events,
        ⟨(send pf card (some f.data) f.len d.enter).toDriver, none⟩) := rfl
  rw [hsend] at hexec
  constructor
  · refine ⟨d.enter.fill f, ?_, rfl, ?_, rfl, hexec⟩
    · rw [← hindex]
      exact filled_fillBuffer d.txBuffers d.txIndex.toNat f.data f.len
    · rw [hslot, ← hindex]
      exact programs_transmit d.txIndex (bufferPhys pf d.txIndex.toNat) (max f.len 60) rfl
  · rw [hexec]
    refine ⟨rfl, rfl, ?_⟩
    have hnext : ((d.txIndex + 1) &&& 3).toNat = (d.txIndex.toNat + 1) % 4 :=
      toNat_nextSlot d.txIndex
    calc ((d.txIndex + 1) &&& 3).toNat = (n % 4 + 1) % 4 := by rw [hnext, hindex]
      _ = (n + 1) % 4 := Nat.mod_add_mod n 4 1

theorem SentFrames.run (card : Card) {ioBase : UInt16} {n : ℕ} {s : State}
    (h : SentFrames ioBase n s) (hio : ioBase ≠ 0)
    (hlow : ∀ slot < 4, bufferPhys pf slot ≤ 0xffffffff) {frames : List Frame}
    (hframes : ∀ f ∈ frames, f.len ≤ 2048) :
    SentFrames ioBase (n + frames.length)
      (Runs.run (Rtl8139.exec pf card) s (frames.map Frame.input)) := by
  induction frames generalizing n s with
  | nil => exact h
  | cons f frames ih =>
    have hstep := (h.exec card hio hlow (hframes f List.mem_cons_self)).2
    have hrest := ih hstep fun g hg => hframes g (List.mem_cons_of_mem f hg)
    rw [List.length_cons, List.map_cons, Runs.run_cons, Nat.add_comm frames.length 1,
      ← Nat.add_assoc]
    exact hrest

/-- Whatever has been sent before, the next frame is sent from the slot after the last one, with
nothing but zeros behind it. It has at most 2048 bytes, and so has what is written to the
buffer. -/
theorem sendsFrom_run (pf : Platform) (card : Card) (cfg : Pci.ConfigSpace) (d : Driver)
    (hpresent : (start pf card cfg d).driver.ioBase ≠ 0)
    (hlow : ∀ slot < 4, bufferPhys pf slot ≤ 0xffffffff) (frames : List Frame) (f : Frame)
    (hframes : ∀ g ∈ frames, g.len ≤ 2048) (hf : f.len ≤ 2048) :
    SendsFrom pf card (start pf card cfg d).driver.ioBase (frames.length % 4) f
      (run (exec pf card) (start pf card cfg d) (frames.map Frame.input)) := by
  have hrun := (sentFrames_start hpresent).run card hpresent hlow hframes
  rw [Nat.zero_add] at hrun
  exact (hrun.exec card hpresent hlow hf).1

/-- Five long frames have been sent and a short one is sent. -/
theorem sendsFrom_run_shortFrame :
    SendsFrom identityMapped (steadyCard 60)
      (start identityMapped (steadyCard 60) cardEverywhere boot).driver.ioBase 1
      ⟨fun _ => 7, 20⟩
      (run (exec identityMapped (steadyCard 60))
        (start identityMapped (steadyCard 60) cardEverywhere boot)
        ((List.replicate 5 (⟨fun _ => 255, 2048⟩ : Frame)).map Frame.input)) := by
  apply sendsFrom_run identityMapped (steadyCard 60) cardEverywhere boot
  · decide +kernel
  · decide +kernel
  · intro g hg
    rw [List.eq_of_mem_replicate hg]
  · decide

end Wnu.Rtl8139
