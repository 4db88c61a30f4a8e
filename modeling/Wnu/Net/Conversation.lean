import Wnu.Net.Host
import Wnu.Runs.Links
import Wnu.Runs.Projection

/-! # Conversations with the gateway

The kernel and the gateway exchange frames over links that reorder and lose. Requests can
be made at any moment, and packets of others come in. Every echo request that the kernel
has sent is on its way, lost or reported exactly once.
-/

namespace Wnu.Net

open Memory Runs

instance (packet : Mem UInt8) (len : ℕ) : Decidable (PassesAsReply packet len) :=
  decidable_of_iff (14 + 20 ≤ len ∧ 14 + 4 * headerWords packet + 8 ≤ len ∧
      wordAt packet 12 = ethTypeIpv4 ∧ window (fun j => packet (30 + j)) 4 = localIp ∧
      packet 23 = ipProtoIcmp ∧ packet (14 + 4 * headerWords packet) = 0)
    ⟨fun ⟨h, h', h'', h₃, h₄, h₅⟩ => ⟨h, h', h'', h₃, h₄, h₅⟩,
      fun h => ⟨h.fixed, h.length, h.etherType, h.destination, h.protocol, h.type⟩⟩

def Teaches (frame : List UInt8) : Prop := AcceptedReply (ofList frame 0) frame.length

def Passes (frame : List UInt8) : Prop := PassesAsReply (ofList frame 0) frame.length

instance : DecidablePred Teaches := fun _ => inferInstanceAs (Decidable (AcceptedReply _ _))

instance : DecidablePred Passes := fun _ => inferInstanceAs (Decidable (PassesAsReply _ _))

/-- What is behind the frame in a packet makes no difference, and it teaches no other address. -/
structure Understood (mac : Mac) (frame : List UInt8) (packet : Mem UInt8) (len : ℕ) : Prop where
  accepted : AcceptedReply packet len ↔ Teaches frame
  passes : PassesAsReply packet len ↔ Passes frame
  mac : Teaches frame → macAt packet 22 = mac

/-- The kernel, and the links to the gateway and back. -/
structure Conversation where
  gateway : Gateway
  toHost : Link (List UInt8)
  toKernel : Link (List UInt8)

/-- A request, the arrival of a frame at the gateway, with padding, or at the kernel, in a packet,
the loss of a frame, or a packet of somebody else. -/
inductive Happening
  | ping
  | udp
  | atHost (frame padded : List UInt8)
  | atKernel (frame : List UInt8) (packet : Mem UInt8) (len : ℕ)
  | lostToHost (frame : List UInt8)
  | lostToKernel (frame : List UInt8)
  | other (packet : Mem UInt8) (len : ℕ) (h : Foreign packet len)

def Kind.asks : Kind → Happening → Bool
  | .icmp, .ping => true
  | .udp, .udp => true
  | _, _ => false

def Conversation.start (g : Gateway) : Conversation := ⟨netInit g, .idle, .idle⟩

variable (host : Host) (localMac : Mac)

def Conversation.call (s : Conversation) (op : Op) : List Effect × Conversation :=
  let (effects, gateway) := exec localMac s.gateway op
  (effects, { s with gateway := gateway, toHost := s.toHost.put (sent effects) })

/-- What happens next. A frame that is not in flight does not arrive. -/
def happen (s : Conversation) : Happening → List Effect × Conversation
  | .ping => s.call localMac .ping
  | .udp => s.call localMac .udp
  | .atHost frame padded =>
    if h : frame ∈ s.toHost.inFlight ∧ frame <+: padded then
      ([], { s with toHost := s.toHost.arrive frame h.1,
                    toKernel := s.toKernel.put (host.answer padded).toList })
    else ([], s)
  | .atKernel frame packet len =>
    if h : frame ∈ s.toKernel.inFlight ∧ frame <+: window packet len then
      { s with toKernel := s.toKernel.arrive frame h.1 }.call localMac (.packet packet len)
    else ([], s)
  | .lostToHost frame =>
    if h : frame ∈ s.toHost.inFlight then ([], { s with toHost := s.toHost.drop frame h })
    else ([], s)
  | .lostToKernel frame =>
    if h : frame ∈ s.toKernel.inFlight then ([], { s with toKernel := s.toKernel.drop frame h })
    else ([], s)
  | .other packet len _ => s.call localMac (.packet packet len)

def reportsIn (s : Conversation) (hs : List Happening) : ℕ :=
  ((trace (happen host localMac) s hs).flatMap fun e => e.2.2).count pingReport

def askedIn (kind : Kind) (hs : List Happening) : ℕ := hs.countP kind.asks

/-! ## The frames between the two -/

variable {host localMac} {frame padded : List UInt8} {packet : Mem UInt8} {len : ℕ} {g : Gateway}

theorem isPrefix_window_ofList (frame : List UInt8) :
    frame <+: window (ofList frame 0) frame.length :=
  ⟨[], by rw [List.append_nil, window_ofList]⟩

theorem not_passes_of_accepted (h : AcceptedReply packet len) : ¬ PassesAsReply packet len := by
  intro hpasses
  exact absurd (h.2.1.symm.trans hpasses.etherType) (by decide)

theorem Understood.reply {mac : Mac} (h : Understood mac frame packet len) :
    ∀ mac' ∈ (Op.packet packet len).reply, mac' = mac := by
  intro mac' hmac
  by_cases haccepted : AcceptedReply packet len
  · have hlearned : macAt packet 22 = mac' := by simpa [Op.reply, haccepted] using hmac
    rw [← hlearned]
    exact h.mac (h.accepted.mp haccepted)
  · simp [Op.reply, haccepted] at hmac

theorem answer_arpRequest (host : Host) (h : arpRequestFrame localMac <+: padded) :
    ∃ reply, host.answer padded = some reply ∧ Teaches reply ∧ ¬ Passes reply ∧
      ∀ packet len, reply <+: window packet len → Understood host.mac reply packet len := by
  obtain ⟨hask, hasker⟩ := isArpRequest_of_isPrefix localMac h
  obtain ⟨reply, hanswer, hreply⟩ := host.arp padded hask
  have hteaches : Teaches reply := (hreply.accepted hasker (isPrefix_window_ofList reply)).1
  have hno : ¬ Passes reply := not_passes_of_accepted hteaches
  refine ⟨reply, hanswer, hteaches, hno, fun packet len hp => ?_⟩
  obtain ⟨haccepted, hmac⟩ := hreply.accepted hasker hp
  exact ⟨iff_of_true haccepted hteaches, iff_of_false (not_passes_of_accepted haccepted) hno,
    fun _ => hmac⟩

theorem answer_icmpEcho (host : Host) (h : icmpEchoFrame host.mac localMac <+: padded) :
    ∃ reply, host.answer padded = some reply ∧ ¬ Teaches reply ∧ Passes reply ∧
      ∀ packet len, reply <+: window packet len → Understood host.mac reply packet len := by
  obtain ⟨hrequest, hsource⟩ := isEchoRequest_of_isPrefix host.mac localMac h
  obtain ⟨reply, hanswer, hreply⟩ := host.echo padded _ hrequest
  have hpasses : Passes reply := hreply.passes hsource (isPrefix_window_ofList reply)
  have hno : ¬ Teaches reply := fun ht => not_passes_of_accepted ht hpasses
  refine ⟨reply, hanswer, hno, hpasses, fun packet len hp => ?_⟩
  have hpass := hreply.passes hsource hp
  exact ⟨iff_of_false (fun ht => not_passes_of_accepted ht hpass) hno, iff_of_true hpass hpasses,
    fun ht => absurd ht hno⟩

theorem answer_udpMessage (host : Host) (h : udpFrame host.mac localMac <+: padded) :
    ∀ reply ∈ host.answer padded, ¬ Teaches reply ∧ ¬ Passes reply ∧
      ∀ packet len, reply <+: window packet len → Understood host.mac reply packet len := by
  intro reply hreply
  have hforeign := host.udp padded _ _ (isDatagram_of_isPrefix host.mac localMac h) reply hreply
  obtain ⟨hno, hno'⟩ := hforeign _ _ (isPrefix_window_ofList reply)
  refine ⟨hno, hno', fun packet len hp => ?_⟩
  obtain ⟨hf, hf'⟩ := hforeign packet len hp
  exact ⟨iff_of_false hf hno, iff_of_false hf' hno', fun ht => absurd ht hno⟩

theorem frame_ne_arpRequestFrame (kind : Kind) (mac : Mac) :
    kind.frame mac localMac ≠ arpRequestFrame localMac := by
  intro heq
  cases kind with
  | icmp =>
    have hicmp := (carriesProtocol_icmpEchoFrame mac localMac ipProtoIcmp).mpr rfl
    rw [← Kind.frame, heq] at hicmp
    exact not_carriesProtocol_arpRequestFrame localMac _ hicmp
  | udp =>
    have hudp := (carriesProtocol_udpFrame mac localMac ipProtoUdp).mpr rfl
    rw [← Kind.frame, heq] at hudp
    exact not_carriesProtocol_arpRequestFrame localMac _ hudp

theorem icmpEchoFrame_ne_udpFrame (mac localMac : Mac) :
    icmpEchoFrame mac localMac ≠ udpFrame mac localMac := by
  intro heq
  have hicmp := (carriesProtocol_icmpEchoFrame mac localMac ipProtoIcmp).mpr rfl
  rw [heq, carriesProtocol_udpFrame] at hicmp
  exact absurd hicmp (by decide)

/-! ## A call -/

def Kind.held (kind : Kind) (g : Gateway) : ℕ := if kind.pending g then 1 else 0

structure Calls (host : Host) (localMac : Mac) (op : Op) (g g' : Gateway)
    (frames : List (List UInt8)) : Prop where
  settled : Settled g'
  known : g'.gatewayMacReady = true → g'.gatewayMac = host.mac
  ready : g'.gatewayMacReady = (g.gatewayMacReady || op.reply.isSome)
  kinds : ∀ frame ∈ frames,
    frame = arpRequestFrame localMac ∨ ∃ kind : Kind, frame = kind.frame host.mac localMac
  counts : ∀ kind : Kind,
    (frames : Multiset (List UInt8)).count (kind.frame host.mac localMac) + kind.held g' =
      if kind.pending g || kind.requests op then 1 else 0
  asks : ∀ kind : Kind, kind.requests op = true → g'.gatewayMacReady = false →
    arpRequestFrame localMac ∈ frames
  size : (∀ kind : Kind, kind.requests op = false) →
    frames.length + (Kind.icmp.held g' + Kind.udp.held g') = Kind.icmp.held g + Kind.udp.held g

theorem count_released (kind : Kind) (g : Gateway) :
    (g.released localMac : Multiset (List UInt8)).count (kind.frame g.gatewayMac localMac) =
      kind.held g := by
  have hne : icmpEchoFrame g.gatewayMac localMac ≠ udpFrame g.gatewayMac localMac :=
    icmpEchoFrame_ne_udpFrame g.gatewayMac localMac
  obtain ⟨mac, ready, icmp, udp⟩ := g
  cases kind <;> cases icmp <;> cases udp <;>
    simp [Gateway.released, Kind.frame, Kind.held, Kind.pending, hne, hne.symm]

theorem length_released (g : Gateway) :
    (g.released localMac).length = Kind.icmp.held g + Kind.udp.held g := by
  obtain ⟨mac, ready, icmp, udp⟩ := g
  cases icmp <;> cases udp <;> rfl

theorem mem_released (h : frame ∈ g.released localMac) :
    ∃ kind : Kind, frame = kind.frame g.gatewayMac localMac := by
  rw [Gateway.released, List.mem_append] at h
  rcases h with h | h
  · split at h
    · exact ⟨.icmp, List.mem_singleton.mp h⟩
    · cases h
  · split at h
    · exact ⟨.udp, List.mem_singleton.mp h⟩
    · cases h

theorem sent_of_requests {kind : Kind} {op : Op} (h : kind.requests op = true)
    (hr : g.gatewayMacReady = false) :
    sent (exec localMac g op).1 = [arpRequestFrame localMac] := by
  cases op with
  | packet bytes len => cases kind <;> cases h
  | _ => simp [exec, Op.call, pingQemuGateway, udpTest, requestGatewayMac, Gateway.enter, hr,
      sendArpRequest, Call.emit]

theorem exec_of_not_accepted (localMac : Mac) (g : Gateway) (h : ¬ AcceptedReply packet len) :
    (exec localMac g (.packet packet len)).2 = g ∧
      sent (exec localMac g (.packet packet len)).1 = [] := by
  rcases handlePacket_cases localMac packet len g.enter with ⟨-, hquiet⟩ | ⟨hyes, -⟩
  · exact ⟨hquiet.gateway, hquiet.sent⟩
  · exact absurd hyes h

theorem pending_noted (kind : Kind) (g : Gateway) (op : Op) :
    kind.pending (g.noted op) = (kind.pending g || kind.requests op) := by
  cases kind <;> rfl

theorem held_noted {kind : Kind} {op : Op} (h : kind.requests op = false) (g : Gateway) :
    kind.held (g.noted op) = kind.held g := by
  rw [Kind.held, pending_noted, h, Bool.or_false, Kind.held]

theorem gatewayMac_noted {op : Op} (hknown : g.gatewayMacReady = true → g.gatewayMac = host.mac)
    (hreply : ∀ mac ∈ op.reply, mac = host.mac) (hready : (g.noted op).gatewayMacReady = true) :
    (g.noted op).gatewayMac = host.mac := by
  cases hop : op.reply with
  | some mac => simpa [Gateway.noted, hop] using hreply mac hop
  | none =>
    have hbefore : g.gatewayMacReady = true := by simpa [Gateway.noted, hop] using hready
    simpa [Gateway.noted, hop] using hknown hbefore

theorem calls_exec (localMac : Mac) {op : Op} (hs : Settled g)
    (hknown : g.gatewayMacReady = true → g.gatewayMac = host.mac)
    (hreply : ∀ mac ∈ op.reply, mac = host.mac) :
    Calls host localMac op g (exec localMac g op).2 (sent (exec localMac g op).1) := by
  have hstep := exec_spec localMac hs op
  have hsettled := settled_exec localMac hs op
  have hmac := gatewayMac_noted hknown hreply
  split at hstep
  · rename_i hready
    obtain ⟨hg, hframes⟩ := hstep
    rw [hg] at hsettled ⊢
    rw [hframes]
    have hnone (kind : Kind) : kind.held (g.noted op).flushed = 0 := by cases kind <;> rfl
    refine ⟨hsettled, hmac, rfl, ?_, ?_, ?_, ?_⟩
    · intro frame hframe
      obtain ⟨kind, rfl⟩ := mem_released hframe
      exact .inr ⟨kind, by rw [hmac hready]⟩
    · intro kind
      rw [hnone, ← hmac hready, count_released, Kind.held, pending_noted, Nat.add_zero]
    · intro kind _ hno
      exact absurd (hready.symm.trans hno) (by decide)
    · intro hno
      rw [hnone, hnone, length_released, held_noted (hno .icmp), held_noted (hno .udp)]
      exact Nat.add_zero _
  · rename_i hready
    obtain ⟨hg, hframes⟩ := hstep
    have hunready : g.gatewayMacReady = false ∧ op.reply = none := by
      simpa [Gateway.noted] using hready
    refine ⟨hsettled, hg ▸ hmac, hg ▸ rfl, fun frame hf => .inl (hframes frame hf), ?_, ?_, ?_⟩
    · intro kind
      have hcount : (sent (exec localMac g op).1 : Multiset (List UInt8)).count
          (kind.frame host.mac localMac) = 0 := by
        rw [Multiset.count_eq_zero]
        intro hmem
        exact frame_ne_arpRequestFrame kind host.mac (hframes _ hmem)
      rw [hcount, hg, Kind.held, pending_noted, Nat.zero_add]
    · intro kind hk _
      rw [sent_of_requests hk hunready.1]
      exact List.mem_singleton_self _
    · intro hno
      cases op with
      | packet bytes len =>
        have hnot : ¬ AcceptedReply bytes len := by simpa [Op.reply] using hunready.2
        obtain ⟨hsame, hnothing⟩ := exec_of_not_accepted localMac g hnot
        rw [hsame, hnothing, List.length_nil, Nat.zero_add]
      | ping => exact absurd (hno .icmp) (by decide)
      | udp => exact absurd (hno .udp) (by decide)

/-! ## Reports -/

theorem length_effects_handleIpv4 (packet : Mem UInt8) (len : ℕ) (c : Call) :
    (handleIpv4 packet len c).effects.length ≤ c.effects.length + 1 := by
  have heffects := congrArg List.length (effects_ipEqual packet (14 + 16) localIp c)
  unfold handleIpv4
  dsimp only
  split_ifs <;> simp [Call.emit, Call.touch, heffects]

/-- A packet is reported at most once, and only if it passes as an echo reply. -/
theorem count_pingReport_packet (g : Gateway) (packet : Mem UInt8) (len : ℕ) :
    (exec localMac g (.packet packet len)).1.count pingReport =
      if PassesAsReply packet len then 1 else 0 := by
  have hmem : pingReport ∈ (exec localMac g (.packet packet len)).1 ↔ PassesAsReply packet len :=
    reports_iff localMac g packet len
  split
  · rename_i hpasses
    have hpos := List.count_pos_iff.mpr (hmem.mpr hpasses)
    have hfixed := hpasses.fixed
    have harp : ¬ (wordAt packet 12 = ethTypeArp ∧ len ≥ 42) := by
      rw [hpasses.etherType]
      exact fun h => absurd h.1 (by decide)
    have hexec : (exec localMac g (.packet packet len)).1 =
        (handleIpv4 packet len (g.enter.touch [12, 13])).effects := by
      rw [exec, Op.call, handlePacket, if_neg (by omega), if_neg harp,
        if_neg (not_not.mpr hpasses.etherType)]
    have hlength := length_effects_handleIpv4 packet len (g.enter.touch [12, 13])
    rw [← hexec] at hlength
    exact le_antisymm (List.count_le_length.trans hlength) hpos
  · rename_i hno
    exact List.count_eq_zero.mpr fun h => hno (hmem.mp h)

theorem count_pingReport_of_requests (kind : Kind) {op : Op} (h : kind.requests op = true)
    (g : Gateway) : (exec localMac g op).1.count pingReport = 0 := by
  rw [List.count_eq_zero]
  intro hmem
  cases op with
  | packet bytes len => cases kind <;> cases h
  | _ =>
    simp only [exec, Op.call, pingQemuGateway, udpTest, requestGatewayMac] at hmem
    split at hmem
    · rw [pingReport_mem_flush] at hmem
      cases hmem
    · simp [sendArpRequest, Call.emit, Gateway.enter, pingReport] at hmem

/-! ## The balance -/

/-- What holds in every conversation, after so many requests and reports. -/
structure Balanced (host : Host) (localMac : Mac) (s : Conversation) (asked : Kind → ℕ)
    (reports : ℕ) : Prop where
  settled : Settled s.gateway
  known : s.gateway.gatewayMacReady = true → s.gateway.gatewayMac = host.mac
  kinds : ∀ frame ∈ s.toHost.entered,
    frame = arpRequestFrame localMac ∨ ∃ kind : Kind, frame = kind.frame host.mac localMac
  understood : ∀ frame ∈ s.toKernel.entered, ∀ packet len, frame <+: window packet len →
    Understood host.mac frame packet len
  learned : s.toHost.arrived.count (arpRequestFrame localMac) = s.toKernel.entered.countP Teaches
  echoed : s.toHost.arrived.count (icmpEchoFrame host.mac localMac) =
    s.toKernel.entered.countP Passes
  reports : reports = s.toKernel.arrived.countP Passes
  ready : s.gateway.gatewayMacReady = true ↔ 0 < s.toKernel.arrived.countP Teaches
  requested : ∀ kind : Kind,
    s.toHost.entered.count (kind.frame host.mac localMac) + kind.held s.gateway ≤ asked kind
  begun : ∀ kind : Kind, 0 < asked kind →
    0 < s.toHost.entered.count (kind.frame host.mac localMac) + kind.held s.gateway
  asking : ∀ kind : Kind, 0 < kind.held s.gateway →
    0 < s.toHost.entered.count (arpRequestFrame localMac)

variable {s : Conversation} {asked asked' : Kind → ℕ} {reports reports' : ℕ}

theorem held_eq_zero (hs : Settled g) (hr : g.gatewayMacReady = true) (kind : Kind) :
    kind.held g = 0 := by
  have hpending : kind.pending g = false := by
    cases kind
    · exact (hs hr).1
    · exact (hs hr).2
  rw [Kind.held, hpending]
  rfl

theorem or_le_held (kind : Kind) (g : Gateway) (b : Bool) :
    (if kind.pending g || b then 1 else 0) ≤ kind.held g + if b then 1 else 0 := by
  rw [Kind.held]
  cases kind.pending g <;> simp

theorem held_le_or (kind : Kind) (g : Gateway) (b : Bool) :
    kind.held g ≤ if kind.pending g || b then 1 else 0 := by
  rw [Kind.held]
  cases kind.pending g <;> simp

theorem Calls.asks_of_held {op : Op} {g g' : Gateway} {frames : List (List UInt8)}
    (h : Calls host localMac op g g' frames) {kind : Kind} (hbefore : kind.held g = 0)
    (hpos : 0 < kind.held g') : arpRequestFrame localMac ∈ frames := by
  have hunready : g'.gatewayMacReady = false := by
    by_contra hr
    rw [Bool.not_eq_false] at hr
    exact hpos.ne' (held_eq_zero h.settled hr kind)
  have hrequests : kind.requests op = true := by
    have hcount := h.counts kind
    have hle := or_le_held kind g (kind.requests op)
    by_contra hno
    rw [if_neg hno] at hle
    omega
  exact h.asks kind hrequests hunready

/-- A call keeps the balance if the link to the kernel is in order. -/
theorem Balanced.call (h : Balanced host localMac s asked reports) (op : Op)
    (l : Link (List UInt8)) (hreply : ∀ mac ∈ op.reply, mac = host.mac)
    (hentered : l.entered = s.toKernel.entered)
    (hready : 0 < l.arrived.countP Teaches ↔
      0 < s.toKernel.arrived.countP Teaches ∨ op.reply.isSome = true)
    (hreports : reports' = l.arrived.countP Passes)
    (hasked : ∀ kind : Kind, asked' kind = asked kind + if kind.requests op then 1 else 0) :
    Balanced host localMac (Conversation.call localMac { s with toKernel := l } op).2 asked'
      reports' := by
  have hcalls := calls_exec localMac h.settled h.known hreply
  unfold Conversation.call
  generalize exec localMac s.gateway op = r at hcalls
  obtain ⟨effects, g'⟩ := r
  simp only at hcalls ⊢
  have hcounts (kind : Kind) : (s.toHost.put (sent effects)).entered.count
      (kind.frame host.mac localMac) + kind.held g' =
      s.toHost.entered.count (kind.frame host.mac localMac) +
        if kind.pending s.gateway || kind.requests op then 1 else 0 := by
    rw [Link.count_entered_put, Nat.add_assoc, hcalls.counts kind]
  refine ⟨hcalls.settled, hcalls.known, ?_, ?_, ?_, ?_, hreports, ?_, ?_, ?_, ?_⟩
  · intro frame hframe
    rcases Link.mem_entered_put.mp hframe with hold | hnew
    · exact h.kinds frame hold
    · exact hcalls.kinds frame hnew
  · rw [hentered]
    exact h.understood
  · rw [hentered]
    exact h.learned
  · rw [hentered]
    exact h.echoed
  · rw [hready, ← h.ready, hcalls.ready, Bool.or_eq_true]
  · intro kind
    have hbefore := h.requested kind
    have hle := or_le_held kind s.gateway (kind.requests op)
    rw [hcounts, hasked]
    omega
  · intro kind hpos
    have hbefore := h.begun kind
    have hle := held_le_or kind s.gateway (kind.requests op)
    rw [hcounts]
    rw [hasked] at hpos
    split at hpos
    · rename_i hrequests
      rw [hrequests, Bool.or_true]
      exact Nat.lt_of_lt_of_le Nat.one_pos (Nat.le_add_left ..)
    · have hsent := hbefore hpos
      omega
  · intro kind (hpos : 0 < kind.held g')
    rw [Link.count_entered_put]
    by_cases hk : 0 < kind.held s.gateway
    · exact Nat.add_pos_left (h.asking kind hk) _
    · have hmem := hcalls.asks_of_held (Nat.eq_zero_of_not_pos hk) hpos
      exact Nat.add_pos_right _ (Multiset.count_pos.mpr (Multiset.mem_coe.mpr hmem))

theorem Balanced.atHost (h : Balanced host localMac s asked reports)
    (hframe : frame ∈ s.toHost.inFlight) (hp : frame <+: padded) :
    Balanced host localMac { s with
      toHost := s.toHost.arrive frame hframe
      toKernel := s.toKernel.put (host.answer padded).toList } asked reports := by
  have harpEcho : arpRequestFrame localMac ≠ icmpEchoFrame host.mac localMac :=
    (frame_ne_arpRequestFrame .icmp host.mac).symm
  have harpUdp : arpRequestFrame localMac ≠ udpFrame host.mac localMac :=
    (frame_ne_arpRequestFrame .udp host.mac).symm
  have hechoUdp := icmpEchoFrame_ne_udpFrame host.mac localMac
  -- what the answer is depends on which of the three frames it is
  have hanswer : (∀ reply ∈ host.answer padded, ∀ packet len, reply <+: window packet len →
        Understood host.mac reply packet len) ∧
      (host.answer padded).toList.countP Teaches =
        (if arpRequestFrame localMac = frame then 1 else 0) ∧
      (host.answer padded).toList.countP Passes =
        (if icmpEchoFrame host.mac localMac = frame then 1 else 0) := by
    rcases h.kinds frame (Link.mem_entered_of_inFlight hframe) with rfl | ⟨kind, rfl⟩
    · obtain ⟨reply, heq, hteaches, hno, hunderstood⟩ := answer_arpRequest host hp
      rw [heq]
      simpa [hteaches, hno, harpEcho.symm] using hunderstood
    · cases kind with
      | icmp =>
        obtain ⟨reply, heq, hno, hpasses, hunderstood⟩ := answer_icmpEcho host hp
        rw [heq]
        simpa [Kind.frame, hpasses, hno, harpEcho] using hunderstood
      | udp =>
        have hforeign := answer_udpMessage host hp
        cases heq : host.answer padded with
        | none => simp [Kind.frame, harpUdp, hechoUdp]
        | some reply =>
          obtain ⟨hno, hno', hunderstood⟩ := hforeign reply heq
          simpa [Kind.frame, hno, hno', harpUdp, hechoUdp] using hunderstood
  obtain ⟨hunderstood, hteaches, hpasses⟩ := hanswer
  refine ⟨h.settled, h.known, h.kinds, ?_, ?_, ?_, h.reports, h.ready, h.requested, h.begun,
    h.asking⟩
  · intro reply hreply
    rcases Link.mem_entered_put.mp hreply with hold | hnew
    · exact h.understood reply hold
    · exact hunderstood reply (Option.mem_toList.mp hnew)
  · rw [Link.count_arrived_arrive, Link.countP_entered_put, h.learned, hteaches]
  · rw [Link.count_arrived_arrive, Link.countP_entered_put, h.echoed, hpasses]

theorem Balanced.atKernel (h : Balanced host localMac s asked reports)
    (hframe : frame ∈ s.toKernel.inFlight) (hp : frame <+: window packet len) :
    Balanced host localMac (Conversation.call localMac
      { s with toKernel := s.toKernel.arrive frame hframe } (.packet packet len)).2 asked
      (reports + (exec localMac s.gateway (.packet packet len)).1.count pingReport) := by
  have hunderstood := h.understood frame (Link.mem_entered_of_inFlight hframe) packet len hp
  apply h.call
  · exact hunderstood.reply
  · rfl
  · have hreply : (Op.packet packet len).reply.isSome = true ↔ Teaches frame := by
      rw [← hunderstood.accepted]
      by_cases haccepted : AcceptedReply packet len <;> simp [Op.reply, haccepted]
    rw [Link.countP_arrived_arrive, hreply]
    by_cases hteaches : Teaches frame <;> simp [hteaches]
  · rw [Link.countP_arrived_arrive, count_pingReport_packet, h.reports]
    simp only [hunderstood.passes]
  · intro kind
    cases kind <;> rfl

/-- Nothing that happens upsets the balance. -/
theorem balanced_happen (h : Balanced host localMac s asked reports) (i : Happening) :
    Balanced host localMac (happen host localMac s i).2
      (fun kind => asked kind + if kind.asks i then 1 else 0)
      (reports + (happen host localMac s i).1.count pingReport) := by
  have hsame (hno : ∀ kind : Kind, kind.asks i = false) :
      (fun kind : Kind => asked kind + if kind.asks i then 1 else 0) = asked := by
    funext kind
    rw [hno kind]
    rfl
  have hquiet (kind : Kind) {op : Op} (hop : kind.requests op = true) :
      reports + (exec localMac s.gateway op).1.count pingReport =
        s.toKernel.arrived.countP Passes := by
    rw [count_pingReport_of_requests kind hop, h.reports, Nat.add_zero]
  cases i with
  | ping =>
    refine h.call .ping s.toKernel ?_ rfl ?_ (hquiet .icmp rfl) ?_
    · intro mac hmac
      cases hmac
    · simp [Op.reply]
    · intro kind
      cases kind <;> rfl
  | udp =>
    refine h.call .udp s.toKernel ?_ rfl ?_ (hquiet .udp rfl) ?_
    · intro mac hmac
      cases hmac
    · simp [Op.reply]
    · intro kind
      cases kind <;> rfl
  | other packet len hforeign =>
    rw [hsame (by intro kind; cases kind <;> rfl)]
    refine h.call (.packet packet len) s.toKernel ?_ rfl ?_ ?_ ?_
    · intro mac hmac
      simp [Op.reply, hforeign.1] at hmac
    · simp [Op.reply, hforeign.1]
    · rw [happen, Conversation.call, count_pingReport_packet, if_neg hforeign.2, h.reports,
        Nat.add_zero]
    · intro kind
      cases kind <;> rfl
  | atHost frame padded =>
    rw [hsame (by intro kind; cases kind <;> rfl), happen]
    split
    · rename_i harrives
      exact h.atHost harrives.1 harrives.2
    · exact h
  | atKernel frame packet len =>
    rw [hsame (by intro kind; cases kind <;> rfl), happen]
    split
    · rename_i harrives
      exact h.atKernel harrives.1 harrives.2
    · exact h
  | lostToHost frame =>
    rw [hsame (by intro kind; cases kind <;> rfl), happen]
    split
    · exact ⟨h.settled, h.known, h.kinds, h.understood, h.learned, h.echoed, h.reports, h.ready,
        h.requested, h.begun, h.asking⟩
    · exact h
  | lostToKernel frame =>
    rw [hsame (by intro kind; cases kind <;> rfl), happen]
    split
    · exact ⟨h.settled, h.known, h.kinds, h.understood, h.learned, h.echoed, h.reports, h.ready,
        h.requested, h.begun, h.asking⟩
    · exact h

theorem balanced_run (host : Host) (localMac : Mac) (g : Gateway) (hs : List Happening) :
    Balanced host localMac (run (happen host localMac) (.start g) hs) (askedIn · hs)
      (reportsIn host localMac (.start g) hs) := by
  induction hs using List.reverseRecOn with
  | nil =>
    have hheld (kind : Kind) : kind.held (netInit g) = 0 := by cases kind <;> rfl
    refine ⟨fun h => absurd h Bool.false_ne_true, fun h => absurd h Bool.false_ne_true, ?_, ?_,
      rfl, rfl, rfl, ?_, ?_, ?_, ?_⟩
    · intro frame hframe
      exact absurd hframe (Multiset.notMem_zero frame)
    · intro frame hframe
      exact absurd hframe (Multiset.notMem_zero frame)
    · exact iff_of_false Bool.false_ne_true (Nat.lt_irrefl 0)
    · intro kind
      exact (Nat.zero_add _).le.trans (hheld kind).le
    · intro kind hpos
      exact absurd hpos (Nat.lt_irrefl 0)
    · intro kind hpos
      exact absurd (hheld kind) hpos.ne'
  | append_singleton hs i ih =>
    have hstep := balanced_happen ih i
    have hasked : (fun kind => askedIn kind hs + if kind.asks i then 1 else 0) =
        fun kind => askedIn kind (hs ++ [i]) := by
      funext kind
      rw [askedIn, askedIn, List.countP_append, List.countP_singleton]
    have hreports : reportsIn host localMac (.start g) (hs ++ [i]) =
        reportsIn host localMac (.start g) hs + ((happen host localMac
          (run (happen host localMac) (.start g) hs) i).1).count pingReport := by
      rw [reportsIn, trace_append, List.flatMap_append, List.count_append, ← reportsIn]
      simp
    rw [run_append, run_cons, run_nil, hreports, ← hasked]
    exact hstep

/-! ## Deliveries -/

def Delivers (s : Conversation) : Happening → Prop
  | .atHost frame padded => frame ∈ s.toHost.inFlight ∧ frame <+: padded
  | .atKernel frame packet len => frame ∈ s.toKernel.inFlight ∧ frame <+: window packet len
  | _ => False

def Conversation.work (s : Conversation) : ℕ :=
  2 * s.toHost.inFlight.card + s.toKernel.inFlight.card +
    2 * (Kind.icmp.held s.gateway + Kind.udp.held s.gateway)

/-- Each delivery leaves less to do. -/
theorem work_happen (h : Balanced host localMac s asked reports) {i : Happening}
    (hi : Delivers s i) : (happen host localMac s i).2.work + 1 ≤ s.work := by
  cases i with
  | atHost frame padded =>
    obtain ⟨hmem, hp⟩ := hi
    have harrive := Link.card_inFlight_arrive hmem
    have hanswer : (host.answer padded).toList.length ≤ 1 := by
      cases host.answer padded <;> simp
    rw [happen, dif_pos ⟨hmem, hp⟩, Conversation.work, Conversation.work]
    dsimp only
    rw [Link.card_inFlight_put]
    omega
  | atKernel frame packet len =>
    obtain ⟨hmem, hp⟩ := hi
    have hcard := Link.card_inFlight_arrive hmem
    have hunderstood := h.understood frame (Link.mem_entered_of_inFlight hmem) packet len hp
    have hsize := (calls_exec localMac h.settled h.known hunderstood.reply).size
      (by intro kind; cases kind <;> rfl)
    rw [happen, dif_pos ⟨hmem, hp⟩, Conversation.work, Conversation.work, Conversation.call]
    dsimp only
    rw [Link.card_inFlight_put]
    omega
  | _ => exact hi.elim

theorem work_run (h : Balanced host localMac s asked reports) {ds : List Happening}
    (hds : Along (happen host localMac) Delivers s ds) : ds.length ≤ s.work := by
  induction ds generalizing s asked reports with
  | nil => exact Nat.zero_le _
  | cons d ds ih =>
    have hrest := ih (balanced_happen h d) hds.2
    exact (Nat.succ_le_succ hrest).trans (work_happen h hds.1)

structure Accounted (host : Host) (localMac : Mac) (s : Conversation) (asked : Kind → ℕ)
    (reports : ℕ) : Prop where
  known : s.gateway.gatewayMacReady = true → s.gateway.gatewayMac = host.mac
  kinds : ∀ frame ∈ s.toHost.entered,
    frame = arpRequestFrame localMac ∨ ∃ kind : Kind, frame = kind.frame host.mac localMac
  echoes : reports +
    (s.toHost.inFlight.count (icmpEchoFrame host.mac localMac) +
      s.toKernel.inFlight.countP Passes) +
    (s.toHost.lost.count (icmpEchoFrame host.mac localMac) + s.toKernel.lost.countP Passes) =
      s.toHost.entered.count (icmpEchoFrame host.mac localMac)
  requested : ∀ kind : Kind,
    s.toHost.entered.count (kind.frame host.mac localMac) + kind.held s.gateway ≤ asked kind
  rest : s.toHost.inFlight = 0 → s.toKernel.inFlight = 0 → s.toHost.lost = 0 →
    s.toKernel.lost = 0 → ∀ kind : Kind, kind.held s.gateway = 0 ∧
      (0 < asked kind → 0 < s.toHost.arrived.count (kind.frame host.mac localMac))
  ends : ∀ ds, Along (happen host localMac) Delivers s ds → ds.length ≤ s.work

/-- In every conversation, among packets that are no replies, the kernel knows no other address than
that of the gateway, it sends no more than it has been asked for, and each of its echo requests is
on its way, lost or reported.
Deliveries come to an end, and if nothing has been lost, then nothing is held back any more. -/
theorem conversation_run (host : Host) (localMac : Mac) (g : Gateway) (hs : List Happening) :
    Accounted host localMac (run (happen host localMac) (.start g) hs) (askedIn · hs)
      (reportsIn host localMac (.start g) hs) := by
  have h := balanced_run host localMac g hs
  generalize run (happen host localMac) (.start g) hs = s at h ⊢
  have hhost (frame : List UInt8) : s.toHost.entered.count frame =
      s.toHost.inFlight.count frame + s.toHost.arrived.count frame + s.toHost.lost.count frame := by
    rw [s.toHost.account, Multiset.count_add, Multiset.count_add]
  have hpasses := s.toKernel.countP_entered Passes
  have hteaches := s.toKernel.countP_entered Teaches
  refine ⟨h.known, h.kinds, ?_, h.requested, ?_, fun ds hds => work_run h hds⟩
  · have hechoed := h.echoed
    rw [h.reports, hhost]
    omega
  · intro hflight hflight' hlost hlost' kind
    have harp := hhost (arpRequestFrame localMac)
    have hframe := hhost (kind.frame host.mac localMac)
    rw [hflight, hlost, Multiset.count_zero, Nat.zero_add, Nat.add_zero] at harp hframe
    rw [hflight', hlost', Multiset.countP_zero, Nat.zero_add, Nat.add_zero] at hteaches
    have hheld : kind.held s.gateway = 0 := by
      by_contra hne
      have hsent := h.asking kind (Nat.pos_of_ne_zero hne)
      -- the request has been answered, and the answer has arrived
      rw [harp, h.learned, hteaches] at hsent
      exact hne (held_eq_zero h.settled (h.ready.mpr hsent) kind)
    refine ⟨hheld, fun hasked => ?_⟩
    have hbegun := h.begun kind hasked
    rwa [hheld, Nat.add_zero, hframe] at hbegun

/-- A ping of a host that does nothing but answer, with the frames padded by the card. -/
def pingOf (gatewayMac localMac : Mac) : List Happening :=
  let padded (frame : List UInt8) := frame ++ List.replicate (60 - frame.length) 0
  let echo := icmpEchoFrame gatewayMac localMac
  let taught := (plainAnswer gatewayMac (padded (arpRequestFrame localMac))).getD []
  let reply := (plainAnswer gatewayMac echo).getD []
  [.ping, .atHost (arpRequestFrame localMac) (padded (arpRequestFrame localMac)),
    .atKernel taught (ofList (padded taught) 0) 60, .atHost echo echo,
    .atKernel reply (ofList reply 0) reply.length]

theorem conversation_run_pingOf :
    let gatewayMac : Mac := #v[0x52, 0x55, 0x0a, 0x00, 0x02, 0x02]
    let localMac : Mac := #v[0x52, 0x54, 0x00, 0x12, 0x34, 0x56]
    let start := Conversation.start ⟨localMac, false, false, false⟩
    let hs := pingOf gatewayMac localMac
    reportsIn (plainHost gatewayMac) localMac start hs = 1 ∧
      Accounted (plainHost gatewayMac) localMac
        (run (happen (plainHost gatewayMac) localMac) start hs) (askedIn · hs) 1 := by
  intro gatewayMac localMac start hs
  have hreports : reportsIn (plainHost gatewayMac) localMac start hs = 1 := by decide +kernel
  exact ⟨hreports, hreports ▸ conversation_run (plainHost gatewayMac) localMac _ hs⟩

end Wnu.Net
