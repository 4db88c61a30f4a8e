import Wnu.Net.ArpGate
import Wnu.Rtl8139.Transmit
import Wnu.Runs.Projection

/-! # The network code behind the driver

A run of the driver is a run of the network code, on the requests that are made outside a
call of `rtl8139_poll` and on the frames that its rounds accept. What the network code
sends, and what is sent directly, goes to the transmitter in one sequence, and takes the
four slots in turn.
-/

namespace Wnu.Rtl8139

open Memory Net Runs

/-! ## What a step gives to the network code -/

def handed (card : Card) (s : State) (h : Header) : Net.Op :=
  .packet (fun i => card.rxBuffer (s.driver.reads + 1) (s.driver.rxOffset.toNat + (4 + i)))
    (h.len.toNat - 4)

def netOps (card : Card) (s : State) : Input → List Net.Op
  | .ping => if s.polling = none then [.ping] else []
  | .udp => if s.polling = none then [.udp] else []
  | .round => ((headerSeen card s .round).filter (·.Accepted)).toList.map (handed card s)
  | _ => []

/-- The frames that are given to `rtl8139_send` in a step. -/
def framesOf (card : Card) (s : State) (i : Input) : List (List UInt8) :=
  match i with
  | .send (some data) len =>
    if s.polling = none then [window data (min len txBufferSize)] else []
  | i => (trace (Net.exec s.driver.mac) s.driver.net (netOps card s i)).flatMap fun e => sent e.2.2

/-! ## The transmitter -/

def longWrites (events : List Event) : List (UInt16 × UInt32) :=
  events.reverse.filterMap fun
    | .outl port value => some (port, value)
    | _ => none

def programming (pf : Platform) (ioBase : UInt16) (slot : ℕ) (frame : List UInt8) :
    List (UInt16 × UInt32) :=
  [(ioBase + UInt16.ofNat (0x20 + 4 * slot), (bufferPhys pf slot).toUInt32),
    (ioBase + UInt16.ofNat (0x10 + 4 * slot), UInt32.ofNat (max frame.length 60))]

def programmings (pf : Platform) (ioBase : UInt16) : ℕ → List (List UInt8) → List (UInt16 × UInt32)
  | _, [] => []
  | slot, frame :: frames =>
    programming pf ioBase slot frame ++ programmings pf ioBase ((slot + 1) % 4) frames

/-- The frames that leave: none without a card. -/
def leaving (ioBase : UInt16) (frames : List (List UInt8)) : List (List UInt8) :=
  if ioBase = 0 then [] else frames

variable {pf : Platform} {card : Card} {c c' c'' : Call}

theorem longWrites_append (es es' : List Event) :
    longWrites (es ++ es') = longWrites es' ++ longWrites es := by
  rw [longWrites, List.reverse_append, List.filterMap_append, longWrites, longWrites]

theorem programmings_append (ioBase : UInt16) {slot : ℕ} (hslot : slot < 4)
    (frames frames' : List (List UInt8)) :
    programmings pf ioBase slot (frames ++ frames') = programmings pf ioBase slot frames ++
      programmings pf ioBase ((slot + frames.length) % 4) frames' := by
  induction frames generalizing slot with
  | nil => rw [List.nil_append, programmings, List.nil_append, List.length_nil, Nat.add_zero,
      Nat.mod_eq_of_lt hslot]
  | cons frame frames ih =>
    have hnext : ((slot + 1) % 4 + frames.length) % 4 = (slot + (frames.length + 1)) % 4 := by omega
    rw [List.cons_append, programmings, ih (Nat.mod_lt _ (by decide)), programmings,
      List.append_assoc, List.length_cons, hnext]

/-- A part of a step that makes some calls of the network code and gives some frames to the
transmitter. -/
structure Moves (pf : Platform) (ops : List Net.Op) (frames : List (List UInt8)) (c c' : Call) :
    Prop where
  net : c'.net = run (Net.exec c.mac) c.net ops
  mac : c'.mac = c.mac
  ioBase : c'.ioBase = c.ioBase
  txIndex : c'.txIndex.toNat = (c.txIndex.toNat + (leaving c.ioBase frames).length) % 4
  writes : longWrites c'.events = longWrites c.events ++
    programmings pf c.ioBase c.txIndex.toNat (leaving c.ioBase frames)

namespace Moves

variable {ops ops' : List Net.Op} {frames frames' : List (List UInt8)}

theorem txIndex_lt (h : Moves pf ops frames c c') : c'.txIndex.toNat < 4 := by
  rw [h.txIndex]
  exact Nat.mod_lt _ (by decide)

theorem trans (h : Moves pf ops frames c c') (h' : Moves pf ops' frames' c' c'')
    (hslot : c.txIndex.toNat < 4) : Moves pf (ops ++ ops') (frames ++ frames') c c'' := by
  have hleaving : leaving c.ioBase (frames ++ frames') =
      leaving c.ioBase frames ++ leaving c.ioBase frames' := by
    rw [leaving, leaving, leaving]
    split <;> rfl
  constructor
  · rw [h'.net, h.net, h.mac, run_append]
  · exact h'.mac.trans h.mac
  · exact h'.ioBase.trans h.ioBase
  · rw [h'.txIndex, h.txIndex, h.ioBase, hleaving, List.length_append, Nat.mod_add_mod,
      Nat.add_assoc]
  · rw [h'.writes, h.writes, h.txIndex, h.ioBase, hleaving, programmings_append _ hslot,
      List.append_assoc]

end Moves

def Silent (pf : Platform) (c c' : Call) : Prop := c.txIndex.toNat < 4 → Moves pf [] [] c c'

namespace Silent

theorem of_events (hnet : c'.net = c.net) (hmac : c'.mac = c.mac) (hio : c'.ioBase = c.ioBase)
    (hindex : c'.txIndex = c.txIndex)
    (hevents : ∃ es, c'.events = es ++ c.events ∧ longWrites es = []) : Silent pf c c' := by
  intro hslot
  obtain ⟨es, hes, hnone⟩ := hevents
  have hleaving : leaving c.ioBase [] = [] := by
    rw [leaving]
    split <;> rfl
  refine ⟨hnet, hmac, hio, ?_, ?_⟩
  · rw [hindex, hleaving, List.length_nil, Nat.add_zero, Nat.mod_eq_of_lt hslot]
  · rw [hes, longWrites_append, hnone, hleaving, programmings]

theorem refl (c : Call) : Silent pf c c := of_events rfl rfl rfl rfl ⟨[], rfl, rfl⟩

theorem trans (h : Silent pf c c') (h' : Silent pf c' c'') : Silent pf c c'' := fun hslot =>
  (h hslot).trans (h' (h hslot).txIndex_lt) hslot

theorem printf (format : String) (args : List ℤ) (c : Call) :
    Silent pf c (c.emit (.printf format args)) := of_events rfl rfl rfl rfl ⟨[_], rfl, rfl⟩

theorem serial (s : String) (c : Call) : Silent pf c (c.emit (.serial s)) :=
  of_events rfl rfl rfl rfl ⟨[_], rfl, rfl⟩

theorem handlePacket (start len : ℕ) (c : Call) : Silent pf c (c.emit (.handlePacket start len)) :=
  of_events rfl rfl rfl rfl ⟨[_], rfl, rfl⟩

theorem read8 (card : Card) (reg : UInt16) (c : Call) : Silent pf c (c.read8 card reg).2 :=
  of_events rfl rfl rfl rfl ⟨[_], rfl, rfl⟩

theorem read16 (card : Card) (reg : UInt16) (c : Call) : Silent pf c (c.read16 card reg).2 :=
  of_events rfl rfl rfl rfl ⟨[_, _], rfl, rfl⟩

theorem write16 (reg value : UInt16) (c : Call) : Silent pf c (c.write16 reg value) :=
  of_events rfl rfl rfl rfl ⟨[_, _], rfl, rfl⟩

theorem setRxOffset (n : UInt16) (c : Call) : Silent pf c { c with rxOffset := n } :=
  of_events rfl rfl rfl rfl ⟨[], rfl, rfl⟩

end Silent

/-! ## Sending -/

theorem leaving_zero (frames : List (List UInt8)) : leaving 0 frames = [] := if_pos rfl

theorem leaving_of_ne {ioBase : UInt16} (h : ioBase ≠ 0) (frames : List (List UInt8)) :
    leaving ioBase frames = frames := if_neg h

theorem transmit_net (slot phys : UInt32) (txLen : ℕ) (c : Call) :
    (transmit card slot phys txLen c).net = c.net ∧
      (transmit card slot phys txLen c).mac = c.mac ∧
      (transmit card slot phys txLen c).ioBase = c.ioBase := ⟨rfl, rfl, rfl⟩

theorem longWrites_transmit (slot phys : UInt32) (txLen : ℕ) (c : Call) :
    longWrites (transmit card slot phys txLen c).events = longWrites c.events ++
      [(c.ioBase + UInt16.ofNat (0x20 + 4 * slot.toNat), phys),
        (c.ioBase + UInt16.ofNat (0x10 + 4 * slot.toNat), UInt32.ofNat txLen)] := by
  have haddr : regTxAddr0 + (slot * 4).toUInt16 = UInt16.ofNat (0x20 + 4 * slot.toNat) :=
    register_slot regTxAddr0 slot
  have hstatus : regTxStatus0 + (slot * 4).toUInt16 = UInt16.ofNat (0x10 + 4 * slot.toNat) :=
    register_slot regTxStatus0 slot
  simp only [transmit, Call.read32, Call.inl, Call.write32, Call.emit, haddr, hstatus, longWrites,
    List.reverse_cons, List.append_assoc, List.filterMap_append, List.filterMap_cons,
    List.filterMap_nil, List.nil_append, List.cons_append]

theorem moves_send (card : Card) (hlow : ∀ slot < 4, bufferPhys pf slot ≤ 0xffffffff)
    (hslot : c.txIndex.toNat < 4) (data : Mem UInt8) (len : ℕ) :
    Moves pf [] [window data (min len txBufferSize)] c (send pf card (some data) len c) := by
  rw [send]
  dsimp only
  split
  · rename_i hio
    refine ⟨rfl, rfl, rfl, ?_, ?_⟩
    · rw [hio, leaving_zero, List.length_nil, Nat.add_zero, Nat.mod_eq_of_lt hslot]
    · rw [hio, leaving_zero, programmings, List.append_nil]
  · rename_i hio
    have hlen : (if len > txBufferSize then txBufferSize else len) = min len txBufferSize := by
      split <;> omega
    have hmax (n : ℕ) : (if n < 60 then 60 else n) = max n 60 := by
      split <;> omega
    have hreach : ¬ pf.virtToPhys (pf.txBuffers +
        UInt64.ofNat (c.txIndex.toNat * txBufferSize)) > 0xffffffff :=
      UInt64.not_lt.mpr (hlow c.txIndex.toNat hslot)
    rw [if_neg hreach, hlen, hmax]
    generalize fillBuffer _ data _ _ = buf
    constructor
    · exact (transmit_net _ _ _ _).1
    · exact (transmit_net _ _ _ _).2.1
    · exact (transmit_net _ _ _ _).2.2
    · rw [leaving_of_ne hio, List.length_singleton]
      exact toNat_nextSlot c.txIndex
    · rw [longWrites_transmit, leaving_of_ne hio, programmings, programmings, List.append_nil,
        programming, length_window]
      rfl

/-! ## The frames of the network code -/

theorem length_released_le (localMac : Mac) (g : Gateway) {frame : List UInt8}
    (h : frame ∈ g.released localMac) : frame.length ≤ txBufferSize := by
  have hicmp : (icmpEchoFrame g.gatewayMac localMac).length = 74 := by
    simp [icmpEchoFrame, ethernetHeader, ipHeader, ipHeaderWith, bytesOf, localIp, gatewayIp,
      icmpEchoWith]
  have hudp : (udpFrame g.gatewayMac localMac).length = 57 := by
    simp [udpFrame, ethernetHeader, ipHeader, ipHeaderWith, bytesOf, localIp, gatewayIp, message,
      Text.ascii]
  rw [Gateway.released, List.mem_append] at h
  rcases h with h | h
  · split at h
    · rw [List.mem_singleton.mp h, hicmp]
      decide
    · cases h
  · split at h
    · rw [List.mem_singleton.mp h, hudp]
      decide
    · cases h

theorem length_sent_le (localMac : Mac) (g : Gateway) (op : Net.Op) {frame : List UInt8}
    (h : frame ∈ sent (Net.exec localMac g op).1) : frame.length ≤ txBufferSize := by
  have harp : (arpRequestFrame localMac).length ≤ txBufferSize := by
    simp [arpRequestFrame, localIp, gatewayIp, txBufferSize]
  have hrequest (icmp udp : Bool)
      (h : frame ∈ sent (requestGatewayMac localMac icmp udp g.enter).effects) :
      frame.length ≤ txBufferSize := by
    have hspec := requestGatewayMac_spec localMac g icmp udp
    dsimp only at hspec
    split at hspec
    · rw [hspec.2] at h
      exact length_released_le localMac _ h
    · rw [hspec.2 frame h]
      exact harp
  cases op with
  | ping => exact hrequest true false h
  | udp => exact hrequest false true h
  | packet bytes len =>
    rw [Net.exec, Op.call] at h
    rcases handlePacket_cases localMac bytes len g.enter with ⟨-, hquiet⟩ | ⟨-, c', -, hsent, he⟩
    · rw [hquiet.sent] at h
      cases h
    · rw [he, (flush_spec localMac c').2, hsent] at h
      exact length_released_le localMac _ h

theorem moves_perform (card : Card) (hlow : ∀ slot < 4, bufferPhys pf slot ≤ 0xffffffff)
    {effects : List Effect}
    (hlen : ∀ frame ∈ sent effects, frame.length ≤ txBufferSize) (hslot : c.txIndex.toNat < 4) :
    Moves pf [] (sent effects) c (perform pf card effects c) := by
  induction effects generalizing c with
  | nil => exact Silent.refl c hslot
  | cons e effects ih =>
    cases e with
    | send frame =>
      rw [sent_send] at hlen ⊢
      have hfits := hlen frame List.mem_cons_self
      have hone := moves_send card hlow hslot (ofList frame 0) frame.length
      rw [Nat.min_eq_left hfits, window_ofList] at hone
      exact hone.trans (ih (fun f hf => hlen f (List.mem_cons_of_mem frame hf)) hone.txIndex_lt)
        hslot
    | printf format args =>
      have hone := (Silent.printf format (args.map fun b => (b.toNat : ℤ)) c : Silent pf c _) hslot
      exact hone.trans (ih hlen hone.txIndex_lt) hslot
    | serial s =>
      have hone := (Silent.serial s c : Silent pf c _) hslot
      exact hone.trans (ih hlen hone.txIndex_lt) hslot

/-- One call of the network code. -/
theorem moves_callNet (card : Card) (hlow : ∀ slot < 4, bufferPhys pf slot ≤ 0xffffffff)
    (hslot : c.txIndex.toNat < 4) (op : Net.Op) :
    Moves pf [op] (sent (Net.exec c.mac c.net op).1) c (callNet pf card op c) := by
  have hperform := moves_perform card hlow
    (c := { c with net := (Net.exec c.mac c.net op).2 })
    (fun _ => length_sent_le c.mac c.net op) hslot
  exact ⟨hperform.net, hperform.mac, hperform.ioBase, hperform.txIndex, hperform.writes⟩

/-! ## Steps -/

theorem Moves.silent {ops : List Net.Op} {frames : List (List UInt8)}
    (h : Moves pf ops frames c c') (h' : Silent pf c' c'') (hslot : c.txIndex.toNat < 4) :
    Moves pf ops frames c c'' := by
  have hboth := h.trans (h' h.txIndex_lt) hslot
  rwa [List.append_nil, List.append_nil] at hboth

theorem Silent.callNet (card : Card) (hlow : ∀ slot < 4, bufferPhys pf slot ≤ 0xffffffff)
    (h : Silent pf c c') (hslot : c.txIndex.toNat < 4) (op : Net.Op) :
    Moves pf [op] (sent (Net.exec c.mac c.net op).1) c (callNet pf card op c') := by
  have hstart := h hslot
  have hcall := moves_callNet card hlow hstart.txIndex_lt op
  rw [hstart.mac, hstart.net, run_nil] at hcall
  exact hstart.trans hcall hslot

theorem silent_pollStart (c : Call) : Silent pf c (pollStart card c).2 := by
  rw [pollStart]
  split
  · exact .refl c
  · have hread : Silent pf c _ := (Silent.read8 card regCmd c).trans (.read16 card regIsr _)
    dsimp only
    split
    · exact hread
    · refine hread.trans ((Silent.read16 card regCbr _).trans ?_)
      exact (Silent.read16 card regCapr _).trans (.printf _ _ _)

theorem silent_pollEnd (isr : UInt16) (c : Call) : Silent pf c (pollEnd isr c) := by
  rw [pollEnd]
  split
  · exact .write16 _ _ _
  · exact .refl c

theorem silent_advance (len : UInt16) (c : Call) : Silent pf c (advance len c) :=
  (Silent.setRxOffset _ c).trans ((Silent.write16 _ _ _).trans (.write16 _ _ _))

theorem silent_receive {rxBuffer : Mem UInt8}
    (h : ¬ (headerAt rxBuffer c.rxOffset).Accepted) :
    Silent pf c (receive pf card rxBuffer c).2 := by
  simp only [receive]
  split
  · exact (Silent.printf _ _ c).trans ((Silent.printf _ _ _).trans (.write16 _ _ _))
  split
  · exact (Silent.printf _ _ c).trans ((Silent.printf _ _ _).trans (.write16 _ _ _))
  · rename_i hstatus hlen
    exact absurd ⟨hstatus, hlen⟩ h

theorem moves_receive (card : Card) (hlow : ∀ slot < 4, bufferPhys pf slot ≤ 0xffffffff)
    (hslot : c.txIndex.toNat < 4) {rxBuffer : Mem UInt8} {h : Header}
    (hh : headerAt rxBuffer c.rxOffset = h) (ha : h.Accepted) {op : Net.Op}
    (hop : op = .packet (fun i => rxBuffer (c.rxOffset.toNat + (4 + i))) (h.len.toNat - 4)) :
    Moves pf [op] (sent (Net.exec c.mac c.net op).1) c (receive pf card rxBuffer c).2 := by
  subst hh hop
  simp only [receive]
  split
  · rename_i hstatus
    exact absurd hstatus ha.1
  split
  · rename_i hlen
    exact absurd hlen ha.2
  · refine Moves.silent ?_ (silent_advance _ _) hslot
    exact Silent.callNet card hlow (Silent.trans (.printf _ _ c) (.handlePacket _ _ _)) hslot _

theorem silent_pollRound (h : card.inb c.reads (c.ioBase + regCmd) &&& cmdRxEmpty = 0 →
      ¬ (headerAt (card.rxBuffer (c.reads + 1)) c.rxOffset).Accepted) :
    Silent pf c (pollRound pf card c).2 := by
  have hread : Silent pf c _ := Silent.read8 card regCmd c
  simp only [pollRound]
  split
  · rename_i hcmd
    have hrejected : ¬ (headerAt (card.rxBuffer (c.read8 card regCmd).2.reads)
        (c.read8 card regCmd).2.rxOffset).Accepted := h hcmd
    exact hread.trans (silent_receive hrejected)
  · exact hread

theorem moves_pollRound (card : Card) (hlow : ∀ slot < 4, bufferPhys pf slot ≤ 0xffffffff)
    (hslot : c.txIndex.toNat < 4) {h : Header}
    (hcmd : card.inb c.reads (c.ioBase + regCmd) &&& cmdRxEmpty = 0)
    (hh : headerAt (card.rxBuffer (c.reads + 1)) c.rxOffset = h) (ha : h.Accepted) {op : Net.Op}
    (hop : op = .packet (fun i => card.rxBuffer (c.reads + 1) (c.rxOffset.toNat + (4 + i)))
      (h.len.toNat - 4)) :
    Moves pf [op] (sent (Net.exec c.mac c.net op).1) c (pollRound pf card c).2 := by
  have hread := (Silent.read8 card regCmd c : Silent pf c _) hslot
  have hreceive := moves_receive card (c := (c.read8 card regCmd).2) hlow hslot hh ha hop
  have hround : pollRound pf card c =
      receive pf card (card.rxBuffer (c.reads + 1)) (c.read8 card regCmd).2 := if_pos hcmd
  rw [hround]
  exact hread.trans hreceive hslot

theorem framesOf_of_netOps {s : State} {i : Input} {op : Net.Op}
    (hsend : ∀ data len, i ≠ .send data len) (h : netOps card s i = [op]) :
    framesOf card s i = sent (Net.exec s.driver.mac s.driver.net op).1 := by
  cases i with
  | send data len => exact absurd rfl (hsend data len)
  | _ => simp only [framesOf, h, trace_cons, trace_nil, List.flatMap_cons, List.flatMap_nil,
      List.append_nil]

theorem framesOf_of_netOps_nil {s : State} {i : Input}
    (hsend : ∀ data len, i ≠ .send data len) (h : netOps card s i = []) :
    framesOf card s i = [] := by
  cases i with
  | send data len => exact absurd rfl (hsend data len)
  | _ => simp only [framesOf, h, trace_nil, List.flatMap_nil]

theorem moves_round (card : Card) (hlow : ∀ slot < 4, bufferPhys pf slot ≤ 0xffffffff) {d : Driver}
    (hslot : d.txIndex.toNat < 4) (isr : UInt16) :
    Moves pf (netOps card ⟨d, some isr⟩ .round) (framesOf card ⟨d, some isr⟩ .round) d.enter
      (pollRound pf card d.enter).2 := by
  have hpolling : some isr ≠ none := Option.some_ne_none isr
  by_cases hcmd : card.inb d.reads (d.ioBase + regCmd) &&& cmdRxEmpty = 0
  · obtain ⟨h, hh⟩ : ∃ h, headerAt (card.rxBuffer (d.reads + 1)) d.rxOffset = h := ⟨_, rfl⟩
    have hseen : headerSeen card ⟨d, some isr⟩ .round = some h :=
      headerSeen_eq_some_iff.mpr ⟨rfl, ⟨hpolling, hcmd⟩, hh⟩
    by_cases ha : h.Accepted
    · have hops : netOps card ⟨d, some isr⟩ .round = [handed card ⟨d, some isr⟩ h] := by
        simp only [netOps, hseen, Option.filter_some, decide_eq_true ha, if_true,
          Option.toList_some, List.map_cons, List.map_nil]
      rw [framesOf_of_netOps (by simp) hops, hops]
      exact moves_pollRound card (c := d.enter) hlow hslot hcmd hh ha rfl
    · have hops : netOps card ⟨d, some isr⟩ .round = [] := by
        simp only [netOps, hseen, Option.filter_some, decide_eq_false ha, Bool.false_eq_true,
          if_false, Option.toList_none, List.map_nil]
      rw [framesOf_of_netOps_nil (by simp) hops, hops]
      exact silent_pollRound (c := d.enter) (fun _ => by rw [← hh] at ha; exact ha) hslot
  · have hops : netOps card ⟨d, some isr⟩ .round = [] := by
      have hseen : headerSeen card ⟨d, some isr⟩ .round = none := if_neg fun h => hcmd h.2
      simp only [netOps, hseen, Option.filter_none, Option.toList_none, List.map_nil]
    rw [framesOf_of_netOps_nil (by simp) hops, hops]
    exact silent_pollRound (c := d.enter) (fun h => absurd h hcmd) hslot

theorem exec_moves (pf : Platform) (card : Card)
    (hlow : ∀ slot < 4, bufferPhys pf slot ≤ 0xffffffff) {s : State}
    (hslot : s.driver.txIndex.toNat < 4) (i : Input) :
    ∃ c, (exec pf card s i).1 = c.events ∧ (exec pf card s i).2.driver = c.toDriver ∧
      Moves pf (netOps card s i) (framesOf card s i) s.driver.enter c := by
  obtain ⟨d, polling⟩ := s
  cases polling with
  | none =>
    cases i with
    | poll => exact ⟨_, rfl, rfl, silent_pollStart d.enter hslot⟩
    | round => exact ⟨_, rfl, rfl, Silent.refl d.enter hslot⟩
    | send data len =>
      cases data with
      | none => exact ⟨_, rfl, rfl, Silent.refl d.enter hslot⟩
      | some data => exact ⟨_, rfl, rfl, moves_send card hlow hslot data len⟩
    | ping =>
      have hops : netOps card ⟨d, none⟩ .ping = [.ping] := rfl
      rw [framesOf_of_netOps (by simp) hops, hops]
      exact ⟨_, rfl, rfl, moves_callNet card (c := d.enter) hlow hslot .ping⟩
    | udp =>
      have hops : netOps card ⟨d, none⟩ .udp = [.udp] := rfl
      rw [framesOf_of_netOps (by simp) hops, hops]
      exact ⟨_, rfl, rfl, moves_callNet card (c := d.enter) hlow hslot .udp⟩
  | some isr =>
    cases i with
    | round =>
      have hround := moves_round card hlow hslot isr
      simp only [exec]
      split
      · exact ⟨_, rfl, rfl, hround⟩
      · exact ⟨_, rfl, rfl, hround.silent (silent_pollEnd isr _) hslot⟩
    | send data len => cases data <;> exact ⟨_, rfl, rfl, Silent.refl d.enter hslot⟩
    | poll => exact ⟨_, rfl, rfl, Silent.refl d.enter hslot⟩
    | ping => exact ⟨_, rfl, rfl, Silent.refl d.enter hslot⟩
    | udp => exact ⟨_, rfl, rfl, Silent.refl d.enter hslot⟩

/-! ## The start -/

theorem waitReset_txIndex (timeout : ℕ) (c : Call) :
    (waitReset card timeout c).2.txIndex = c.txIndex := by
  induction timeout generalizing c with
  | zero => rfl
  | succ timeout ih =>
    simp only [waitReset]
    split
    · exact ih _
    · rfl

theorem txIndex_init (pf : Platform) (card : Card) (cfg : Pci.ConfigSpace) {c : Call}
    (h : c.txIndex = 0) : (init pf card cfg c).txIndex = 0 := by
  rw [init]
  split
  · exact h
  · simp only
    split
    · exact h
    · split
      · exact (waitReset_txIndex _ _).trans h
      · exact setup_txIndex _

/-! ## Runs -/

def runEvents (pf : Platform) (card : Card) (s : State) (is : List Input) : List Event :=
  ((trace (exec pf card) s is).reverse.map fun e => e.2.2).flatten

theorem runEvents_cons (s : State) (i : Input) (is : List Input) :
    runEvents pf card s (i :: is) =
      runEvents pf card (exec pf card s i).2 is ++ (exec pf card s i).1 := by
  rw [runEvents, trace_cons, List.reverse_cons, List.map_append, List.flatten_append, runEvents]
  simp

theorem Moves.after {ops : List Net.Op} {frames : List (List UInt8)} {d : Driver}
    (h : Moves pf ops frames d.enter c) (es : List Event) :
    Moves pf ops frames { d with events := es } { c with events := c.events ++ es } where
  net := h.net
  mac := h.mac
  ioBase := h.ioBase
  txIndex := h.txIndex
  writes := by
    have hwrites : longWrites c.events = programmings pf d.ioBase d.txIndex.toNat
      (leaving d.ioBase frames) := h.writes
    rw [longWrites_append, hwrites]

/-- A run is like one step that makes all the calls and sends all the frames. -/
theorem moves_run (pf : Platform) (card : Card)
    (hlow : ∀ slot < 4, bufferPhys pf slot ≤ 0xffffffff) {s : State}
    (hslot : s.driver.txIndex.toNat < 4) (is : List Input) :
    ∃ c, runEvents pf card s is = c.events ∧ (run (exec pf card) s is).driver = c.toDriver ∧
      Moves pf (given (exec pf card) (netOps card) s is) (given (exec pf card) (framesOf card) s is)
        s.driver.enter c := by
  induction is generalizing s with
  | nil => exact ⟨s.driver.enter, rfl, rfl, Silent.refl s.driver.enter hslot⟩
  | cons i is ih =>
    obtain ⟨c, hevents, hdriver, hmoves⟩ := exec_moves pf card hlow hslot i
    have hnext : (exec pf card s i).2.driver.txIndex.toNat < 4 := by
      rw [hdriver]
      exact hmoves.txIndex_lt
    obtain ⟨c', hevents', hdriver', hmoves'⟩ := ih hnext
    rw [hdriver] at hmoves'
    refine ⟨{ c' with events := c'.events ++ c.events }, ?_, hdriver', ?_⟩
    · rw [runEvents_cons, hevents, hevents']
    · rw [given_cons, given_cons]
      exact hmoves.trans (hmoves'.after c.events) hslot

theorem framesOf_run (pf : Platform) (card : Card)
    (hlow : ∀ slot < 4, bufferPhys pf slot ≤ 0xffffffff) {s : State}
    (hslot : s.driver.txIndex.toNat < 4) {is : List Input}
    (hsend : ∀ i ∈ is, ∀ data len, i ≠ .send data len) :
    given (exec pf card) (framesOf card) s is =
      (trace (Net.exec s.driver.mac) s.driver.net (given (exec pf card) (netOps card) s is)).flatMap
        fun e => sent e.2.2 := by
  induction is generalizing s with
  | nil => rfl
  | cons i is ih =>
    obtain ⟨c, -, hdriver, hmoves⟩ := exec_moves pf card hlow hslot i
    have hnext : (exec pf card s i).2.driver.txIndex.toNat < 4 := by
      rw [hdriver]
      exact hmoves.txIndex_lt
    have hmac : (exec pf card s i).2.driver.mac = s.driver.mac := by
      rw [hdriver]
      exact hmoves.mac
    have hnet : (exec pf card s i).2.driver.net =
        run (Net.exec s.driver.mac) s.driver.net (netOps card s i) := by
      rw [hdriver]
      exact hmoves.net
    have hframes : framesOf card s i = (trace (Net.exec s.driver.mac) s.driver.net
        (netOps card s i)).flatMap fun e => sent e.2.2 := by
      cases i with
      | send data len => exact absurd rfl (hsend _ List.mem_cons_self data len)
      | _ => rfl
    rw [given_cons, given_cons, ih hnext fun i hi => hsend i (List.mem_cons_of_mem _ hi),
      trace_append, List.flatMap_append, hframes, hmac, hnet]

/-- In any order of calls and rounds, whatever the card does, if the transmit buffers lie below
4 GiB: the network code has gone through the requests and the accepted frames, and the transmitter
has been given every frame of the network code and every one that was sent directly, each once, in
the order in which they were sent, in one slot after the other. Without a card, no long word is
written. -/
theorem network_run (pf : Platform) (card : Card)
    (hlow : ∀ slot < 4, bufferPhys pf slot ≤ 0xffffffff) {s : State}
    (hslot : s.driver.txIndex.toNat < 4) (is : List Input) :
    (run (exec pf card) s is).driver.net =
        run (Net.exec s.driver.mac) s.driver.net (given (exec pf card) (netOps card) s is) ∧
      longWrites (runEvents pf card s is) = programmings pf s.driver.ioBase s.driver.txIndex.toNat
        (leaving s.driver.ioBase (given (exec pf card) (framesOf card) s is)) ∧
      (run (exec pf card) s is).driver.mac = s.driver.mac := by
  obtain ⟨c, hevents, hdriver, hmoves⟩ := moves_run pf card hlow hslot is
  rw [hdriver, hevents]
  exact ⟨hmoves.net, hmoves.writes, hmoves.mac⟩

/-- A request, a frame that is sent directly, and a call of `rtl8139_poll` with two rounds. -/
def mixedInputs : List Input := [.ping, .send (some fun _ => 7) 100, .poll, .round, .round]

theorem network_run_mixedInputs :
    let s := start identityMapped (steadyCard 60) cardEverywhere boot
    longWrites (runEvents identityMapped (steadyCard 60) s mixedInputs) =
        programmings identityMapped s.driver.ioBase 0
          [arpRequestFrame s.driver.mac, List.replicate 100 7] ∧
      (run (exec identityMapped (steadyCard 60)) s mixedInputs).driver.net.pendingIcmp = true := by
  intro s
  have hlow : ∀ slot < 4, bufferPhys identityMapped slot ≤ 0xffffffff := by decide +kernel
  have hslot : s.driver.txIndex = 0 := by decide +kernel
  have hindex : s.driver.txIndex.toNat < 4 := by
    rw [hslot]
    decide
  have hframes : leaving s.driver.ioBase (given (exec identityMapped (steadyCard 60))
      (framesOf (steadyCard 60)) s mixedInputs) =
        [arpRequestFrame s.driver.mac, List.replicate 100 7] := by
    decide +kernel
  have hzero : s.driver.txIndex.toNat = 0 := by
    rw [hslot]
    rfl
  obtain ⟨hnet, hwrites, -⟩ := network_run identityMapped (steadyCard 60) hlow hindex mixedInputs
  constructor
  · rw [hwrites, hframes, hzero]
  · rw [hnet]
    decide +kernel

end Wnu.Rtl8139
