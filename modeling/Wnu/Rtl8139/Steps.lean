import Wnu.Rtl8139.Driver

/-! # The steps of the driver

Only a round that accepts a frame hands a packet on, moves the position in the ring and
writes to CAPR. Everything else reads ports, prints, writes to the registers of the
transmitter or acknowledges an interrupt.
-/

namespace Wnu.Rtl8139

open Memory Net

variable {pf : Platform} {card : Card} {c c' c'' : Call}

def Event.Idle (ioBase : UInt16) : Event → Prop
  | .handlePacket _ _ => False
  | .outb port _ => port = ioBase + regIsr ∨ port = ioBase + regIsr + 1
  | _ => True

structure Idle (c c' : Call) : Prop where
  ioBase : c'.ioBase = c.ioBase
  rxOffset : c'.rxOffset = c.rxOffset
  reads : c.reads ≤ c'.reads
  events : ∃ es, c'.events = es ++ c.events ∧ ∀ e ∈ es, e.Idle c.ioBase

namespace Idle

theorem refl (c : Call) : Idle c c :=
  ⟨rfl, rfl, Nat.le_refl _, [], rfl, fun _ h => absurd h List.not_mem_nil⟩

theorem trans (h : Idle c c') (h' : Idle c' c'') : Idle c c'' := by
  obtain ⟨es, hes, hidle⟩ := h.events
  obtain ⟨es', hes', hidle'⟩ := h'.events
  refine ⟨h'.ioBase.trans h.ioBase, h'.rxOffset.trans h.rxOffset, h.reads.trans h'.reads,
    es' ++ es, ?_, fun e he => ?_⟩
  · rw [hes', hes, List.append_assoc]
  · rcases List.mem_append.mp he with he | he
    · exact h.ioBase ▸ hidle' e he
    · exact hidle e he

theorem emit (e : Event) (c : Call) (he : e.Idle c.ioBase) : Idle c (c.emit e) := by
  refine ⟨rfl, rfl, Nat.le_refl _, [e], rfl, fun e' he' => ?_⟩
  rwa [List.mem_singleton.mp he']

theorem printf (format : String) (args : List ℤ) (c : Call) :
    Idle c (c.emit (.printf format args)) :=
  emit (.printf format args) c trivial

theorem serial (s : String) (c : Call) : Idle c (c.emit (.serial s)) :=
  emit (.serial s) c trivial

theorem inb (card : Card) (port : UInt16) (c : Call) : Idle c (c.inb card port).2 := by
  refine ⟨rfl, rfl, Nat.le_succ _, [.inb port (card.inb c.reads port)], rfl, fun e he => ?_⟩
  cases List.mem_singleton.mp he
  exact trivial

theorem inl (card : Card) (port : UInt16) (c : Call) : Idle c (c.inl card port).2 := by
  refine ⟨rfl, rfl, Nat.le_succ _, [.inl port (card.inl c.reads port)], rfl, fun e he => ?_⟩
  cases List.mem_singleton.mp he
  exact trivial

theorem read8 (card : Card) (reg : UInt16) (c : Call) : Idle c (c.read8 card reg).2 :=
  inb card _ c

theorem read16 (card : Card) (reg : UInt16) (c : Call) : Idle c (c.read16 card reg).2 :=
  (inb card _ c).trans (inb card _ _)

theorem read32 (card : Card) (reg : UInt16) (c : Call) : Idle c (c.read32 card reg).2 :=
  inl card _ c

theorem write32 (reg : UInt16) (value : UInt32) (c : Call) : Idle c (c.write32 reg value) :=
  emit (.outl (c.ioBase + reg) value) c trivial

theorem write16_regIsr (value : UInt16) (c : Call) : Idle c (c.write16 regIsr value) :=
  (emit (.outb (c.ioBase + regIsr) (value &&& 0xff).toUInt8) c (.inl rfl)).trans
    (emit (.outb (c.ioBase + regIsr + 1) ((value >>> 8) &&& 0xff).toUInt8) _ (.inr rfl))

theorem mem_events (h : Idle c c') {e : Event} (he : e ∈ c.events) : e ∈ c'.events := by
  obtain ⟨es, hes, -⟩ := h.events
  rw [hes]
  exact List.mem_append_right es he

theorem of_mem_events (h : Idle c c') {e : Event} (he : e ∈ c'.events) :
    e ∈ c.events ∨ e.Idle c.ioBase := by
  obtain ⟨es, hes, hidle⟩ := h.events
  rw [hes] at he
  exact (List.mem_append.mp he).symm.imp_right (hidle e)

end Idle

/-! ## Sending -/

theorem idle_transmit (slot phys : UInt32) (txLen : ℕ) (c : Call) :
    Idle c (transmit card slot phys txLen c) := by
  have hindex {c : Call} (n : UInt32) : Idle c { c with txIndex := n } :=
    ⟨rfl, rfl, Nat.le_refl _, [], rfl, fun _ h => absurd h List.not_mem_nil⟩
  have hwrite := (Idle.write32 (regTxAddr0 + (slot * 4).toUInt16) phys c).trans
    (.write32 (regTxStatus0 + (slot * 4).toUInt16) (UInt32.ofNat txLen) _)
  exact (hwrite.trans (.read32 card _ _)).trans
    ((Idle.printf _ _ _).trans ((Idle.serial _ _).trans (hindex _)))

theorem idle_send (data : Option (Mem UInt8)) (len : ℕ) (c : Call) :
    Idle c (send pf card data len c) := by
  cases data with
  | none => exact .refl c
  | some data =>
    simp only [send]
    generalize fillBuffer _ _ _ _ = buf
    have hbuf : Idle c { c with txBuffers := Function.update c.txBuffers c.txIndex.toNat buf } :=
      ⟨rfl, rfl, Nat.le_refl _, [], rfl, fun _ h => absurd h List.not_mem_nil⟩
    split
    · exact .refl c
    · split
      · exact hbuf.trans (.printf _ _ _)
      · exact hbuf.trans (idle_transmit _ _ _ _)

theorem idle_perform (effects : List Effect) (c : Call) :
    Idle c (perform pf card effects c) := by
  induction effects generalizing c with
  | nil => exact .refl c
  | cons e effects ih =>
    cases e with
    | send frame => exact (idle_send _ _ c).trans (ih _)
    | printf format args => exact (Idle.printf _ _ c).trans (ih _)
    | serial s => exact (Idle.serial s c).trans (ih _)

theorem idle_callNet (op : Net.Op) (c : Call) : Idle c (callNet pf card op c) := by
  have hnet : Idle c { c with net := (Net.exec c.mac c.net op).2 } :=
    ⟨rfl, rfl, Nat.le_refl _, [], rfl, fun _ h => absurd h List.not_mem_nil⟩
  exact hnet.trans (idle_perform _ _)

/-! ## The ends of a call of `rtl8139_poll` -/

theorem idle_pollStart (c : Call) : Idle c (pollStart card c).2 := by
  rw [pollStart]
  split
  · exact .refl c
  · have hread := (Idle.read8 card regCmd c).trans (.read16 card regIsr _)
    simp only
    split
    · exact hread
    · refine hread.trans ((Idle.read16 card regCbr _).trans ?_)
      exact (Idle.read16 card regCapr _).trans (.printf _ _ _)

theorem idle_pollEnd (isr : UInt16) (c : Call) : Idle c (pollEnd isr c) := by
  rw [pollEnd]
  split
  · exact .write16_regIsr _ _
  · exact .refl c

/-! ## Headers -/

/-- The status and the length in front of a packet. -/
structure Header where
  status : UInt16
  len : UInt16
  deriving DecidableEq

def headerAt (rxBuffer : Mem UInt8) (rxOffset : UInt16) : Header where
  status := wordAt (fun i => rxBuffer (rxOffset.toNat + i)) 0
  len := wordAt (fun i => rxBuffer (rxOffset.toNat + i)) 2

/-- The header passes both checks of `rtl8139_poll`. -/
def Header.Accepted (h : Header) : Prop :=
  h.status &&& 0x0001 ≠ 0 ∧ ¬ (h.len < 4 ∨ h.len > 1600)

instance (h : Header) : Decidable h.Accepted := inferInstanceAs (Decidable (_ ∧ _))

/-- The header that a step looks at, if it is a round that finds the ring non-empty. -/
def headerSeen (card : Card) (s : State) : Input → Option Header
  | .round =>
    if s.polling ≠ none ∧
        card.inb s.driver.reads (s.driver.ioBase + regCmd) &&& cmdRxEmpty = 0 then
      some (headerAt (card.rxBuffer (s.driver.reads + 1)) s.driver.rxOffset)
    else none
  | _ => none

theorem headerSeen_eq_some_iff {card : Card} {s : State} {i : Input} {h : Header} :
    headerSeen card s i = some h ↔ i = .round ∧
      (s.polling ≠ none ∧
        card.inb s.driver.reads (s.driver.ioBase + regCmd) &&& cmdRxEmpty = 0) ∧
      headerAt (card.rxBuffer (s.driver.reads + 1)) s.driver.rxOffset = h := by
  cases i <;> simp [headerSeen]

theorem Header.Accepted.bounds {h : Header} (ha : h.Accepted) :
    4 ≤ h.len.toNat ∧ h.len.toNat ≤ 1600 := by
  have hmin : (4 : UInt16).toNat = 4 := rfl
  have hmax : (1600 : UInt16).toNat = 1600 := rfl
  have hlen := ha.2
  rw [not_or, UInt16.not_lt, UInt16.not_lt, UInt16.le_iff_toNat_le, UInt16.le_iff_toNat_le,
    hmin, hmax] at hlen
  exact hlen

def advance (len : UInt16) (c : Call) : Call :=
  let c := { c with rxOffset := nextOffset c.rxOffset len }
  let c := c.write16 regCapr (caprOf c.rxOffset)
  c.write16 regIsr (isrRxOk ||| isrRxErr)

theorem handlePacket_mem_advance (len : UInt16) (c : Call) (start n : ℕ) :
    .handlePacket start n ∈ (advance len c).events ↔ .handlePacket start n ∈ c.events := by
  simp [advance, Call.write16, Call.emit]

theorem receive_rejected (pf : Platform) (card : Card) {rxBuffer : Mem UInt8}
    (h : ¬ (headerAt rxBuffer c.rxOffset).Accepted) :
    (receive pf card rxBuffer c).1 = false ∧ Idle c (receive pf card rxBuffer c).2 := by
  simp only [receive]
  split
  · exact ⟨rfl, (Idle.printf _ _ c).trans ((Idle.printf _ _ _).trans (.write16_regIsr _ _))⟩
  split
  · exact ⟨rfl, (Idle.printf _ _ c).trans ((Idle.printf _ _ _).trans (.write16_regIsr _ _))⟩
  · rename_i hstatus hlen
    exact absurd ⟨hstatus, hlen⟩ h

theorem receive_accepted (pf : Platform) (card : Card) {rxBuffer : Mem UInt8} {h : Header}
    (hh : headerAt rxBuffer c.rxOffset = h) (ha : h.Accepted) :
    ∃ c₁ c₂, Idle c c₁ ∧
      Idle (c₁.emit (.handlePacket (c.rxOffset.toNat + 4) (h.len.toNat - 4))) c₂ ∧
      receive pf card rxBuffer c = (true, advance h.len c₂) := by
  subst hh
  simp only [receive]
  split
  · rename_i hstatus
    exact absurd hstatus ha.1
  split
  · rename_i hlen
    exact absurd hlen ha.2
  · exact ⟨_, _, .printf _ _ c, idle_callNet _ _, rfl⟩

theorem pollRound_idle (pf : Platform) (card : Card)
    (h : card.inb c.reads (c.ioBase + regCmd) &&& cmdRxEmpty = 0 →
      ¬ (headerAt (card.rxBuffer (c.reads + 1)) c.rxOffset).Accepted) :
    (pollRound pf card c).1 = false ∧ Idle c (pollRound pf card c).2 := by
  have hread := Idle.read8 card regCmd c
  simp only [pollRound]
  split
  · rename_i hcmd
    have hrejected : ¬ (headerAt (card.rxBuffer (c.read8 card regCmd).2.reads)
        (c.read8 card regCmd).2.rxOffset).Accepted := h hcmd
    obtain ⟨hstop, hidle⟩ := receive_rejected pf card hrejected
    exact ⟨hstop, hread.trans hidle⟩
  · exact ⟨rfl, hread⟩

theorem pollRound_accepted (pf : Platform) (card : Card) {h : Header}
    (hcmd : card.inb c.reads (c.ioBase + regCmd) &&& cmdRxEmpty = 0)
    (hh : headerAt (card.rxBuffer (c.reads + 1)) c.rxOffset = h) (ha : h.Accepted) :
    ∃ c₁ c₂, Idle c c₁ ∧
      Idle (c₁.emit (.handlePacket (c.rxOffset.toNat + 4) (h.len.toNat - 4))) c₂ ∧
      pollRound pf card c = (true, advance h.len c₂) := by
  have hread := Idle.read8 card regCmd c
  obtain ⟨c₁, c₂, hidle, hnet, he⟩ := receive_accepted pf card
    (c := (c.read8 card regCmd).2) hh ha
  refine ⟨c₁, c₂, hread.trans hidle, hnet, ?_⟩
  exact (if_pos hcmd).trans he

/-! ## Steps -/

theorem exec_idle (pf : Platform) {s : State} {i : Input}
    (h : ∀ hd, headerSeen card s i = some hd → ¬ hd.Accepted) :
    ∃ c, Idle s.driver.enter c ∧ (exec pf card s i).1 = c.events ∧
      (exec pf card s i).2.driver = c.toDriver ∧
      ((exec pf card s i).2.polling ≠ none → s.polling ≠ none ∨ s.driver.ioBase ≠ 0) := by
  obtain ⟨driver, polling⟩ := s
  cases polling with
  | none =>
    have hno {P : Prop} : (none : Option UInt16) ≠ none → P := fun h => absurd rfl h
    cases i with
    | poll =>
      refine ⟨_, idle_pollStart driver.enter, rfl, rfl, fun hsome => .inr fun hzero => hsome ?_⟩
      have hio : driver.enter.ioBase = 0 := hzero
      simp only [exec, pollStart, if_pos hio]
    | round => exact ⟨_, .refl _, rfl, rfl, hno⟩
    | send data len => exact ⟨_, idle_send data len _, rfl, rfl, hno⟩
    | ping => exact ⟨_, idle_callNet .ping _, rfl, rfl, hno⟩
    | udp => exact ⟨_, idle_callNet .udp _, rfl, rfl, hno⟩
  | some isr =>
    have hpolling : some isr ≠ none := Option.some_ne_none isr
    cases i with
    | round =>
      obtain ⟨hstop, hidle⟩ := pollRound_idle pf card (c := driver.enter)
        fun hcmd => h _ (if_pos ⟨hpolling, hcmd⟩)
      simp only [exec, hstop, Bool.false_eq_true, if_false]
      exact ⟨_, hidle.trans (idle_pollEnd isr _), rfl, rfl, fun _ => .inl hpolling⟩
    | poll => exact ⟨_, .refl _, rfl, rfl, fun _ => .inl hpolling⟩
    | send => exact ⟨_, .refl _, rfl, rfl, fun _ => .inl hpolling⟩
    | ping => exact ⟨_, .refl _, rfl, rfl, fun _ => .inl hpolling⟩
    | udp => exact ⟨_, .refl _, rfl, rfl, fun _ => .inl hpolling⟩

theorem exec_accepted (pf : Platform) {s : State} {i : Input} {h : Header}
    (hh : headerSeen card s i = some h) (ha : h.Accepted) :
    s.polling ≠ none ∧ ∃ c, c.ioBase = s.driver.ioBase ∧ c.rxOffset = s.driver.rxOffset ∧
      (∀ start n, .handlePacket start n ∈ c.events ↔
        start = s.driver.rxOffset.toNat + 4 ∧ n = h.len.toNat - 4) ∧
      exec pf card s i = ((advance h.len c).events, ⟨(advance h.len c).toDriver, s.polling⟩) := by
  obtain ⟨rfl, ⟨hpolling, hcmd⟩, hheader⟩ := headerSeen_eq_some_iff.mp hh
  obtain ⟨driver, polling⟩ := s
  obtain ⟨isr, rfl⟩ := Option.ne_none_iff_exists'.mp hpolling
  obtain ⟨c₁, c₂, hbefore, hnet, he⟩ := pollRound_accepted pf card
    (c := driver.enter) hcmd hheader ha
  refine ⟨hpolling, c₂, hnet.ioBase.trans hbefore.ioBase,
    hnet.rxOffset.trans hbefore.rxOffset, fun start n => ?_, ?_⟩
  · constructor
    · intro hmem
      rcases hnet.of_mem_events hmem with hmem | hidle'
      · rcases List.mem_cons.mp hmem with heq | hmem
        · cases heq
          exact ⟨rfl, rfl⟩
        · rcases hbefore.of_mem_events hmem with hmem | hidle'
          · exact absurd hmem List.not_mem_nil
          · exact hidle'.elim
      · exact hidle'.elim
    · rintro ⟨rfl, rfl⟩
      exact hnet.mem_events List.mem_cons_self
  · simp only [exec, he, if_true]

end Wnu.Rtl8139
