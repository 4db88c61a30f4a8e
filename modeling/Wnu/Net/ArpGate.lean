import Wnu.Net.Gateway
import Wnu.Runs.Gate

/-! # ARP-gated transmission

The network code is two gates, one for echo requests and one for UDP messages, that the
first accepted ARP reply opens. A frame carries the address of the latest reply, and no
request is held back once an address is known.
-/

namespace Wnu.Net

open Memory Runs

inductive Kind | icmp | udp
  deriving DecidableEq

namespace Kind

def protocol : Kind → UInt8
  | .icmp => ipProtoIcmp
  | .udp => ipProtoUdp

def frame : Kind → Mac → Mac → List UInt8
  | .icmp => icmpEchoFrame
  | .udp => udpFrame

def pending : Kind → Gateway → Bool
  | .icmp, g => g.pendingIcmp
  | .udp, g => g.pendingUdp

def requests : Kind → Op → Bool
  | .icmp, .ping => true
  | .udp, .udp => true
  | _, _ => false

end Kind

variable (localMac : Mac) {packet : Mem UInt8} {g : Gateway}

/-! ## One call -/

@[simp] theorem sent_append (es es' : List Effect) : sent (es ++ es') = sent es ++ sent es' := by
  simp [sent]

@[simp] theorem sent_nil : sent [] = [] := rfl

@[simp] theorem sent_printf (s : String) (args : List UInt8) (es : List Effect) :
    sent (.printf s args :: es) = sent es := rfl

@[simp] theorem sent_serial (s : String) (es : List Effect) :
    sent (.serial s :: es) = sent es := rfl

@[simp] theorem sent_send (frame : List UInt8) (es : List Effect) :
    sent (.send frame :: es) = frame :: sent es := rfl

def Gateway.released (g : Gateway) : List (List UInt8) :=
  (if g.pendingIcmp then [icmpEchoFrame g.gatewayMac localMac] else []) ++
    if g.pendingUdp then [udpFrame g.gatewayMac localMac] else []

def Gateway.flushed (g : Gateway) : Gateway :=
  { g with pendingIcmp := false, pendingUdp := false }

theorem flush_spec (c : Call) :
    (flush localMac c).toGateway = c.toGateway.flushed ∧
      sent (flush localMac c).effects = sent c.effects ++ c.toGateway.released localMac := by
  obtain ⟨⟨mac, ready, icmp, udp⟩, effects, reads⟩ := c
  cases icmp <;> cases udp <;>
    simp [flush, sendIcmpEcho, sendUdpPacket, Call.emit, Gateway.flushed, Gateway.released]

theorem ipEqual_fst (packet : Mem UInt8) (i : ℕ) (ip : List UInt8) (c : Call) :
    (ipEqual packet i ip c).1 = true ↔ window (fun j => packet (i + j)) ip.length = ip := by
  induction ip generalizing i c with
  | nil => simp [ipEqual]
  | cons b ip ih =>
    rw [ipEqual, List.length_cons, window_from_succ, List.cons.injEq]
    split
    · rename_i hne
      simp [hne]
    · rename_i heq
      rw [ih, not_not.mp heq]
      simp

theorem ipEqual_snd (packet : Mem UInt8) (i : ℕ) (ip : List UInt8) (c : Call) :
    ∃ is, (ipEqual packet i ip c).2 = c.touch is := by
  induction ip generalizing i c with
  | nil => exact ⟨[], rfl⟩
  | cons b ip ih =>
    rw [ipEqual]
    split
    · exact ⟨[i], rfl⟩
    · obtain ⟨is, h⟩ := ih (i + 1) (c.touch [i])
      exact ⟨is ++ [i], by rw [h]; simp [Call.touch]⟩

structure Quiet (c c' : Call) : Prop where
  gateway : c'.toGateway = c.toGateway
  sent : sent c'.effects = sent c.effects

theorem Quiet.refl (c : Call) : Quiet c c := ⟨rfl, rfl⟩

theorem quiet_touch (c : Call) (is : List ℕ) : Quiet c (c.touch is) := ⟨rfl, rfl⟩

theorem Quiet.trans {c' c'' : Call} (h : Quiet c c') (h' : Quiet c' c'') : Quiet c c'' :=
  ⟨h'.gateway.trans h.gateway, h'.sent.trans h.sent⟩

theorem quiet_printf (c : Call) (s : String) (args : List UInt8) :
    Quiet c (c.emit (.printf s args)) := ⟨rfl, by simp [Call.emit]⟩

theorem quiet_ipEqual (packet : Mem UInt8) (i : ℕ) (ip : List UInt8) (c : Call) :
    Quiet c (ipEqual packet i ip c).2 := by
  obtain ⟨is, h⟩ := ipEqual_snd packet i ip c
  rw [h]
  exact quiet_touch c is

theorem quiet_handleIpv4 (packet : Mem UInt8) (len : ℕ) (c : Call) :
    Quiet c (handleIpv4 packet len c) := by
  have hq := quiet_ipEqual packet (14 + 16) localIp c
  unfold handleIpv4
  split
  · exact .refl c
  dsimp only
  generalize ipEqual packet (14 + 16) localIp c = r at hq ⊢
  have htouch (is : List ℕ) : Quiet c (r.2.touch is) := hq.trans (quiet_touch ..)
  split_ifs
  · exact hq
  · exact htouch _
  · exact (htouch _).trans (quiet_touch ..)
  · exact (((htouch _).trans (quiet_touch ..)).trans (quiet_touch ..)).trans (quiet_printf ..)
  · exact ((htouch _).trans (quiet_touch ..)).trans (quiet_touch ..)
  · exact ((htouch _).trans (quiet_touch ..)).trans (quiet_printf ..)
  · exact (htouch _).trans (quiet_touch ..)

theorem handleArp_cases {len : ℕ} (hlen : 42 ≤ len)
    (htype : wordAt packet 12 = ethTypeArp) (c : Call) :
    (¬ AcceptedReply packet len ∧ Quiet c (handleArp localMac packet c)) ∨
    (AcceptedReply packet len ∧ ∃ c', c'.toGateway =
      { c.toGateway with gatewayMac := macAt packet 22, gatewayMacReady := true } ∧
      sent c'.effects = sent c.effects ∧ handleArp localMac packet c = flush localMac c') := by
  unfold handleArp
  dsimp only
  by_cases hop : wordAt packet (14 + 6) = arpOpcodeReply
  swap
  · rw [if_pos hop]
    exact .inl ⟨fun h => hop h.2.2.1, quiet_touch ..⟩
  rw [if_neg (not_not.mpr hop)]
  have hfrom := ipEqual_fst packet (14 + 14) gatewayIp (c.touch [14 + 6, 14 + 7])
  have hq := (quiet_touch c [14 + 6, 14 + 7]).trans
    (quiet_ipEqual packet (14 + 14) gatewayIp _)
  generalize ipEqual packet (14 + 14) gatewayIp (c.touch [14 + 6, 14 + 7]) = r at hfrom hq ⊢
  obtain ⟨fromGateway, c₁⟩ := r
  cases fromGateway
  · exact .inl ⟨fun h => absurd (hfrom.mpr h.2.2.2.1) Bool.false_ne_true, hq⟩
  have hto := ipEqual_fst packet (14 + 24) localIp c₁
  have hq' := hq.trans (quiet_ipEqual packet (14 + 24) localIp c₁)
  simp only [Bool.not_true, Bool.false_eq_true, if_false]
  generalize ipEqual packet (14 + 24) localIp c₁ = r at hto hq' ⊢
  obtain ⟨toUs, c₂⟩ := r
  cases toUs
  · exact .inl ⟨fun h => absurd (hto.mpr h.2.2.2.2) Bool.false_ne_true, hq'⟩
  · refine .inr ⟨⟨hlen, htype, hop, hfrom.mp rfl, hto.mp rfl⟩, _, ?_, ?_, rfl⟩
    · simp only [Call.emit, learnMac, Call.touch, ← hq'.gateway]
    · simp only [Call.emit, learnMac, Call.touch, sent_append, sent_printf, sent_nil,
        List.append_nil]
      exact hq'.sent

/-- A packet that is not an accepted reply changes nothing; a reply is learned, and what was
held back is sent to its sender. -/
theorem handlePacket_cases (packet : Mem UInt8) (len : ℕ) (c : Call) :
    (¬ AcceptedReply packet len ∧ Quiet c (handlePacket localMac packet len c)) ∨
    (AcceptedReply packet len ∧ ∃ c', c'.toGateway =
      { c.toGateway with gatewayMac := macAt packet 22, gatewayMacReady := true } ∧
      sent c'.effects = sent c.effects ∧
      handlePacket localMac packet len c = flush localMac c') := by
  unfold handlePacket
  split
  · exact .inl ⟨fun h => absurd h.1 (by omega), .refl c⟩
  dsimp only
  split
  · rename_i harp
    exact (handleArp_cases localMac harp.2 harp.1 (c.touch [12, 13])).imp
      (And.imp_right (quiet_touch c [12, 13]).trans) id
  · rename_i harp
    refine .inl ⟨fun h => harp ⟨h.2.1, h.1⟩, ?_⟩
    split
    · exact quiet_touch ..
    · exact (quiet_touch c [12, 13]).trans (quiet_handleIpv4 ..)

/-! ## The state between calls -/

def Settled (g : Gateway) : Prop :=
  g.gatewayMacReady = true → g.pendingIcmp = false ∧ g.pendingUdp = false

def Gateway.noted (g : Gateway) (op : Op) : Gateway :=
  { gatewayMac := op.reply.getD g.gatewayMac
    gatewayMacReady := g.gatewayMacReady || op.reply.isSome
    pendingIcmp := g.pendingIcmp || Kind.icmp.requests op
    pendingUdp := g.pendingUdp || Kind.udp.requests op }

theorem requestGatewayMac_spec (g : Gateway) (icmp udp : Bool) :
    let c := requestGatewayMac localMac icmp udp g.enter
    let g' := { g with pendingIcmp := g.pendingIcmp || icmp, pendingUdp := g.pendingUdp || udp }
    if g.gatewayMacReady then c.toGateway = g'.flushed ∧ sent c.effects = g'.released localMac
    else c.toGateway = g' ∧ ∀ frame ∈ sent c.effects, frame = arpRequestFrame localMac := by
  intro c g'
  cases hr : g.gatewayMacReady with
  | false => simp [c, requestGatewayMac, Gateway.enter, hr, sendArpRequest, Call.emit, g']
  | true =>
    have hc : c = flush localMac g'.enter := by
      simp [c, requestGatewayMac, Gateway.enter, hr, g']
    obtain ⟨hg, hf⟩ := flush_spec localMac g'.enter
    rw [hc]
    exact ⟨hg, hf⟩

/-- A call notes its request or learns an address. If an address is known then, nothing is held
back any more. Before that, it sends nothing but ARP requests. -/
theorem exec_spec (hs : Settled g) (op : Op) :
    if (g.noted op).gatewayMacReady then
      (exec localMac g op).2 = (g.noted op).flushed ∧
        sent (exec localMac g op).1 = (g.noted op).released localMac
    else
      (exec localMac g op).2 = g.noted op ∧
        ∀ frame ∈ sent (exec localMac g op).1, frame = arpRequestFrame localMac := by
  cases op with
  | ping =>
    simpa [Gateway.noted, Op.reply, Kind.requests, exec, Op.call, pingQemuGateway] using
      requestGatewayMac_spec localMac g true false
  | udp =>
    simpa [Gateway.noted, Op.reply, Kind.requests, exec, Op.call, udpTest] using
      requestGatewayMac_spec localMac g false true
  | packet bytes len =>
    rw [exec, Op.call]
    rcases handlePacket_cases localMac bytes len g.enter with ⟨hno, hq⟩ | ⟨hyes, c', hc', hs', he⟩
    · have hnoted : g.noted (.packet bytes len) = g := by
        simp [Gateway.noted, Op.reply, hno, Kind.requests]
      rw [hnoted]
      cases hr : g.gatewayMacReady
      · refine ⟨hq.gateway, ?_⟩
        rw [hq.sent]
        simp [Gateway.enter]
      · obtain ⟨hi, hu⟩ := hs hr
        have hflushed : g.flushed = g := by
          obtain ⟨mac, ready, icmp, udp⟩ := g
          simp only at hi hu
          rw [Gateway.flushed, hi, hu]
        have hreleased : g.released localMac = [] := by simp [Gateway.released, hi, hu]
        rw [if_pos rfl, hflushed, hreleased]
        exact ⟨hq.gateway, hq.sent⟩
    · have hnoted : g.noted (.packet bytes len) =
          { g with gatewayMac := macAt bytes 22, gatewayMacReady := true } := by
        simp [Gateway.noted, Op.reply, hyes, Kind.requests]
      obtain ⟨hg, hf⟩ := flush_spec localMac c'
      rw [hnoted, if_pos rfl, he]
      rw [hc'] at hg hf
      exact ⟨hg, by rw [hf, hs']; rfl⟩

theorem settled_exec (hs : Settled g) (op : Op) : Settled (exec localMac g op).2 := by
  have h := exec_spec localMac hs op
  split at h
  · rw [h.1]
    exact fun _ => ⟨rfl, rfl⟩
  · rename_i hr
    rw [h.1]
    exact fun hready => absurd hready hr

/-! ## The two gates -/

def Kind.gate (kind : Kind) (g : Gateway) : Gate := ⟨g.gatewayMacReady, kind.pending g⟩

def Kind.event (kind : Kind) (op : Op) : GateEvent :=
  if op.reply.isSome then .unlock else if kind.requests op then .request else .other

theorem sentCount_released (kind : Kind) (g : Gateway) :
    (g.released localMac).countP (fun frame => CarriesProtocol kind.protocol frame) =
      if kind.pending g then 1 else 0 := by
  have hne : ipProtoIcmp ≠ ipProtoUdp := by decide
  obtain ⟨mac, ready, icmp, udp⟩ := g
  cases kind <;> cases icmp <;> cases udp <;>
    simp [Gateway.released, Kind.protocol, Kind.pending, carriesProtocol_icmpEchoFrame,
      carriesProtocol_udpFrame, hne, hne.symm]

theorem destination_of_mem_released {frame : List UInt8} (h : frame ∈ g.released localMac) :
    destination frame = g.gatewayMac.toList := by
  rw [Gateway.released, List.mem_append] at h
  rcases h with h | h
  · split at h
    · obtain rfl := List.mem_singleton.mp h
      exact destination_icmpEchoFrame ..
    · cases h
  · split at h
    · obtain rfl := List.mem_singleton.mp h
      exact destination_udpFrame ..
    · cases h

theorem reply_of_requests {kind : Kind} {op : Op} (h : kind.requests op = true) :
    op.reply = none := by
  cases kind <;> cases op <;> simp_all [Kind.requests, Op.reply]

/-- Each kind of requests goes through its gate. -/
theorem exec_gate (kind : Kind) (hs : Settled g) (op : Op) :
    Gate.step (kind.gate g) (kind.event op) =
      (sentCount kind.protocol (exec localMac g op).1, kind.gate (exec localMac g op).2) := by
  have h := exec_spec localMac hs op
  have hpending : kind.pending (g.noted op) = (kind.pending g || kind.requests op) := by
    cases kind <;> rfl
  have hflushed : kind.pending (g.noted op).flushed = false := by cases kind <;> rfl
  have hsettled : g.gatewayMacReady = true → kind.pending g = false := fun hr => by
    cases kind
    · exact (hs hr).1
    · exact (hs hr).2
  rw [sentCount]
  split at h
  · rename_i hr
    have hready : (g.noted op).flushed.gatewayMacReady = true := hr
    rw [h.1, h.2, sentCount_released, hpending, Kind.gate, Kind.gate, hready, hflushed, Kind.event]
    cases hreply : op.reply with
    | some mac =>
      have hno : kind.requests op = false := by
        rw [Bool.eq_false_iff]
        intro hq
        rw [reply_of_requests hq] at hreply
        cases hreply
      simp [Gate.step, hno]
    | none =>
      have hg : g.gatewayMacReady = true := by simpa [Gateway.noted, hreply] using hr
      cases hq : kind.requests op <;> simp [Gate.step, hg, hsettled hg]
  · rename_i hr
    have hready : (g.noted op).gatewayMacReady = false := by simpa using hr
    obtain ⟨hg, hreply⟩ : g.gatewayMacReady = false ∧ op.reply = none := by
      simpa [Gateway.noted] using hready
    have hnone : (sent (exec localMac g op).1).countP
        (fun frame => CarriesProtocol kind.protocol frame) = 0 := by
      rw [List.countP_eq_zero]
      intro frame hf
      rw [h.2 frame hf]
      simpa using not_carriesProtocol_arpRequestFrame localMac kind.protocol
    rw [h.1, hnone, Kind.gate, Kind.gate, hready, hpending, Kind.event, hreply, hg]
    cases hq : kind.requests op <;> simp [Gate.step]

def runCount (protocol : UInt8) (g : Gateway) (ops : List Op) : ℕ :=
  ((trace (exec localMac) g ops).map fun e => sentCount protocol e.2.2).sum

theorem runCount_eq_passed (kind : Kind) (hs : Settled g) (ops : List Op) :
    runCount localMac kind.protocol g ops =
      Gate.passed (kind.gate g) (ops.map kind.event) := by
  induction ops generalizing g with
  | nil => rfl
  | cons op ops ih =>
    rw [List.map_cons, Gate.passed_cons, exec_gate localMac kind hs op,
      ← ih (settled_exec localMac hs op)]
    simp [runCount]

/-! ## Whole runs -/

def lastReply (ops : List Op) : Option Mac := (ops.filterMap Op.reply).getLast?

def beforeReply (ops : List Op) : List Op := ops.takeWhile fun op => op.reply.isNone

def fromReply (ops : List Op) : List Op := ops.dropWhile fun op => op.reply.isNone

theorem lastReply_concat (ops : List Op) (op : Op) :
    lastReply (ops ++ [op]) = op.reply.or (lastReply ops) := by
  cases h : op.reply <;> simp [lastReply, h]

theorem settled_run (hs : Settled g) (ops : List Op) : Settled (run (exec localMac) g ops) :=
  run_invariant (P := Settled) (fun _ op h => settled_exec localMac h op) hs ops

theorem run_lastReply (hs : Settled g) (hr : g.gatewayMacReady = false) (ops : List Op) :
    lastReply ops = if (run (exec localMac) g ops).gatewayMacReady then
      some (run (exec localMac) g ops).gatewayMac else none := by
  induction ops using List.reverseRecOn with
  | nil => simp [lastReply, hr]
  | append_singleton ops op ih =>
    have hstep := exec_spec localMac (settled_run localMac hs ops) op
    rw [lastReply_concat, ih, run_append, run_cons, run_nil]
    generalize run (exec localMac) g ops = g' at hstep ⊢
    have hnoted : ((exec localMac g' op).2).gatewayMacReady = (g'.noted op).gatewayMacReady ∧
        ((exec localMac g' op).2).gatewayMac = (g'.noted op).gatewayMac := by
      split at hstep <;> rw [hstep.1] <;> exact ⟨rfl, rfl⟩
    rw [hnoted.1, hnoted.2]
    cases hreply : op.reply <;> simp [Gateway.noted, hreply]

structure Gated (g : Gateway) (ops : List Op) : Prop where
  settled : Settled (run (exec localMac) g ops)
  addressed : ∀ past op future, ops = past ++ op :: future →
    ∀ frame ∈ sent (exec localMac (run (exec localMac) g past) op).1, ∀ kind : Kind,
      CarriesProtocol kind.protocol frame →
        ∃ mac, lastReply (past ++ [op]) = some mac ∧ destination frame = mac.toList
  count : ∀ kind : Kind, runCount localMac kind.protocol g ops =
    (fromReply ops).countP kind.requests +
      if fromReply ops ≠ [] ∧ ∃ op ∈ beforeReply ops, kind.requests op then 1 else 0

theorem event_eq_unlock_iff (kind : Kind) (op : Op) :
    kind.event op = .unlock ↔ op.reply.isSome = true := by
  cases h : op.reply <;> simp [Kind.event, h]
  split <;> simp

theorem event_eq_request_iff (kind : Kind) (op : Op) :
    kind.event op = .request ↔ kind.requests op = true := by
  cases hq : kind.requests op
  · cases h : op.reply <;> simp [Kind.event, h, hq]
  · simp [Kind.event, hq, reply_of_requests hq]

theorem passed_map_event (kind : Kind) (ops : List Op) :
    Gate.passed Gate.shut (ops.map kind.event) = (fromReply ops).countP kind.requests +
      if fromReply ops ≠ [] ∧ ∃ op ∈ beforeReply ops, kind.requests op then 1 else 0 := by
  have hlocked : (fun op => decide (kind.event op ≠ .unlock)) = fun op => op.reply.isNone := by
    funext op
    cases h : op.reply <;> simp [event_eq_unlock_iff, h]
  have hcount : ((fromReply ops).map kind.event).count .request =
      (fromReply ops).countP kind.requests := by
    rw [List.count, List.countP_map]
    congr 1
    funext op
    rw [Function.comp_apply, Bool.eq_iff_iff, beq_iff_eq, event_eq_request_iff]
  rw [Gate.passed_shut, List.dropWhile_map, List.takeWhile_map, Function.comp_def, hlocked,
    ← fromReply, ← beforeReply, hcount]
  have hunlock : GateEvent.unlock ∈ ops.map kind.event ↔ fromReply ops ≠ [] := by
    rw [fromReply, ne_eq, List.dropWhile_eq_nil_iff, List.mem_map]
    simp [event_eq_unlock_iff, Option.isSome_iff_ne_none]
  have hrequest : GateEvent.request ∈ (beforeReply ops).map kind.event ↔
      ∃ op ∈ beforeReply ops, kind.requests op := by
    simp [event_eq_request_iff]
  simp only [hunlock, hrequest]

/-- From initialisation on, every run of requests and packets is gated. -/
theorem netInit_gated (g : Gateway) (ops : List Op) : Gated localMac (netInit g) ops := by
  have hs : Settled (netInit g) := fun h => absurd h Bool.false_ne_true
  refine ⟨settled_run localMac hs ops, ?_, ?_⟩
  · rintro past op future - frame hframe kind hkind
    have hstep := exec_spec localMac (settled_run localMac hs past) op
    have hlast := run_lastReply localMac hs rfl (past ++ [op])
    rw [run_append, run_cons, run_nil] at hlast
    generalize run (exec localMac) (netInit g) past = g' at hframe hstep hlast
    split at hstep
    · rename_i hready
      rw [hstep.1] at hlast
      rw [hstep.2] at hframe
      have hdest := destination_of_mem_released localMac hframe
      exact ⟨_, hlast.trans (if_pos hready), hdest⟩
    · rw [hstep.2 frame hframe] at hkind
      exact absurd hkind (not_carriesProtocol_arpRequestFrame localMac kind.protocol)
  · intro kind
    rw [runCount_eq_passed localMac kind hs, ← passed_map_event]
    cases kind <;> rfl

end Wnu.Net
