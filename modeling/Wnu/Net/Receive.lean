import Wnu.Net.ArpGate

/-! # Received packets

Every byte that is read of a packet is one that was received, whatever the packet says
about the length of its IP header. An echo reply is reported by what a few of its bytes
say; neither the version and the least length of the header nor the sender are among
them.
-/

namespace Wnu.Net

open Memory

variable {localMac : Mac} {packet packet' : Mem UInt8} {g : Gateway} {c : Call} {n len : ℕ}

def pingReport : Effect := .printf "ping: reply from 10.0.2.2\n" []

def Reports (localMac : Mac) (g : Gateway) (packet : Mem UInt8) (len : ℕ) : Prop :=
  pingReport ∈ (exec localMac g (.packet packet len)).1

def headerWords (packet : Mem UInt8) : ℕ := (packet 14).toNat % 16

/-- The packet is an echo reply from the gateway to this machine. -/
structure IsPingReply (packet : Mem UInt8) (len : ℕ) : Prop where
  length : 14 + 4 * headerWords packet + 8 ≤ len
  etherType : wordAt packet 12 = ethTypeIpv4
  version : (packet 14).toNat / 16 = 4
  header : 5 ≤ headerWords packet
  destination : window (fun j => packet (30 + j)) 4 = localIp
  source : window (fun j => packet (26 + j)) 4 = gatewayIp
  protocol : packet 23 = ipProtoIcmp
  type : packet (14 + 4 * headerWords packet) = 0

/-- The packet passes the checks that are made of an echo reply. -/
structure PassesAsReply (packet : Mem UInt8) (len : ℕ) : Prop where
  fixed : 14 + 20 ≤ len
  length : 14 + 4 * headerWords packet + 8 ≤ len
  etherType : wordAt packet 12 = ethTypeIpv4
  destination : window (fun j => packet (30 + j)) 4 = localIp
  protocol : packet 23 = ipProtoIcmp
  type : packet (14 + 4 * headerWords packet) = 0

theorem toNat_ihl (b : UInt8) : ((b &&& 0x0f) * 4).toNat = 4 * (b.toNat % 16) := by
  have hand : (b &&& 0x0f).toNat = b.toNat % 2 ^ 4 := toNat_low8 b rfl
  rw [UInt8.toNat_mul, hand, show (4 : UInt8).toNat = 4 from rfl]
  omega

/-! ## Bytes that are read -/

def ReadsBelow (n : ℕ) (c : Call) : Prop := ∀ i ∈ c.reads, i < n

theorem ReadsBelow.touch (h : ReadsBelow n c) {is : List ℕ} (his : ∀ i ∈ is, i < n) :
    ReadsBelow n (c.touch is) := by
  intro i hi
  rcases List.mem_append.mp hi with hi | hi
  · exact his i hi
  · exact h i hi

theorem ReadsBelow.ipEqual (h : ReadsBelow n c) (packet : Mem UInt8) {i : ℕ} {ip : List UInt8}
    (hip : i + ip.length ≤ n) : ReadsBelow n (ipEqual packet i ip c).2 := by
  induction ip generalizing i c with
  | nil => exact h
  | cons b ip ih =>
    rw [List.length_cons] at hip
    have hread : ReadsBelow n (c.touch [i]) :=
      h.touch (List.forall_mem_singleton.mpr (by omega))
    rw [Net.ipEqual]
    split
    · exact hread
    · exact ih hread (by omega)

theorem reads_flush (c : Call) : (flush localMac c).reads = c.reads := by
  obtain ⟨⟨mac, ready, icmp, udp⟩, effects, reads⟩ := c
  cases icmp <;> cases udp <;> rfl

theorem ReadsBelow.handleArp (h : ReadsBelow n c) (hn : 42 ≤ n) (packet : Mem UInt8) :
    ReadsBelow n (handleArp localMac packet c) := by
  have hopcode : ReadsBelow n (c.touch [14 + 6, 14 + 7]) := h.touch (by simp; omega)
  have hsenderEnd : 14 + 14 + gatewayIp.length ≤ n := hn.trans' (by decide)
  have htargetEnd : 14 + 24 + localIp.length ≤ n := hn.trans' (by decide)
  have hsender := hopcode.ipEqual packet hsenderEnd
  have htarget := hsender.ipEqual packet htargetEnd
  have hlearn : ReadsBelow n ((Net.ipEqual packet (14 + 24) localIp (Net.ipEqual packet (14 + 14)
      gatewayIp (c.touch [14 + 6, 14 + 7])).2).2.touch [22, 23, 24, 25, 26, 27]) :=
    htarget.touch (by simp; omega)
  unfold Net.handleArp
  dsimp only
  split_ifs
  · exact hopcode
  · exact hsender
  · exact htarget
  · rw [ReadsBelow, reads_flush]
    exact hlearn

theorem ReadsBelow.handleIpv4 (h : ReadsBelow len c) (packet : Mem UInt8) :
    ReadsBelow len (handleIpv4 packet len c) := by
  unfold Net.handleIpv4
  dsimp only
  split
  · exact h
  rename_i hfixed
  have hto := h.ipEqual packet (show 14 + 16 + localIp.length ≤ len from
    (Nat.le_of_not_lt hfixed).trans' (by decide))
  generalize Net.ipEqual packet (14 + 16) localIp c = r at hto ⊢
  have hfirst : ReadsBelow len (r.2.touch [14]) :=
    hto.touch (List.forall_mem_singleton.mpr (by omega))
  have hprotocol : ReadsBelow len ((r.2.touch [14]).touch [14 + 9]) :=
    hfirst.touch (List.forall_mem_singleton.mpr (by omega))
  split
  · exact hto
  split
  · exact hfirst
  split
  · split
    · exact hprotocol
    · have htype : ReadsBelow len (((r.2.touch [14]).touch [14 + 9]).touch
          [14 + ((packet 14 &&& 0x0f) * 4).toNat]) :=
        hprotocol.touch (List.forall_mem_singleton.mpr (by omega))
      split <;> exact htype
  · split <;> exact hprotocol

/-! ## Bytes that matter -/

theorem ipEqual_congr {i : ℕ} {ip : List UInt8} (hsame : ∀ j < len, packet' j = packet j)
    (hip : i + ip.length ≤ len) (c : Call) : ipEqual packet' i ip c = ipEqual packet i ip c := by
  induction ip generalizing i c with
  | nil => rfl
  | cons b ip ih =>
    rw [List.length_cons] at hip
    rw [ipEqual, ipEqual, hsame i (by omega), ih (by omega)]

theorem wordAt_congr {i : ℕ} (hsame : ∀ j < len, packet' j = packet j) (hi : i + 2 ≤ len) :
    wordAt packet' i = wordAt packet i := by
  rw [wordAt, wordAt, hsame i (by omega), hsame (i + 1) (by omega)]

theorem handleArp_congr (hsame : ∀ j < len, packet' j = packet j) (hlen : 42 ≤ len) (c : Call) :
    handleArp localMac packet' c = handleArp localMac packet c := by
  have hmac : macAt packet' 22 = macAt packet 22 := by
    rw [macAt, macAt]
    congr 1
    funext j
    exact hsame _ (by omega)
  have hsenderEnd : 14 + 14 + gatewayIp.length ≤ len := hlen.trans' (by decide)
  have htargetEnd : 14 + 24 + localIp.length ≤ len := hlen.trans' (by decide)
  unfold handleArp learnMac
  simp only [wordAt_congr (i := 14 + 6) hsame (by omega), hmac, ipEqual_congr hsame hsenderEnd,
    ipEqual_congr hsame htargetEnd]

theorem handleIpv4_congr (hsame : ∀ j < len, packet' j = packet j) (c : Call) :
    handleIpv4 packet' len c = handleIpv4 packet len c := by
  unfold handleIpv4
  by_cases hfixed : len < 14 + 20
  · rw [if_pos hfixed, if_pos hfixed]
  rw [if_neg hfixed, if_neg hfixed]
  have hdestinationEnd : 14 + 16 + localIp.length ≤ len :=
    (Nat.le_of_not_lt hfixed).trans' (by decide)
  simp only [hsame 14 (by omega), hsame (14 + 9) (by omega),
    ipEqual_congr hsame hdestinationEnd]
  by_cases hicmp : len < 14 + ((packet 14 &&& 0x0f) * 4).toNat + 8
  · simp only [hicmp, if_true]
  · rw [hsame (14 + ((packet 14 &&& 0x0f) * 4).toNat) (by omega)]

/-- Only bytes that were received are read, and only they matter. -/
theorem handlePacket_reads (localMac : Mac) (g : Gateway) (packet : Mem UInt8) (len : ℕ) :
    (∀ i ∈ (handlePacket localMac packet len g.enter).reads, i < len) ∧
      ∀ packet', (∀ i < len, packet' i = packet i) →
        handlePacket localMac packet' len g.enter = handlePacket localMac packet len g.enter := by
  constructor
  · have hstart : ReadsBelow len g.enter := fun i hi => by cases hi
    unfold handlePacket
    dsimp only
    split
    · exact hstart
    have htype : ReadsBelow len (g.enter.touch [12, 13]) := hstart.touch (by simp; omega)
    split
    · rename_i harp
      exact htype.handleArp harp.2 packet
    split
    · exact htype
    · exact htype.handleIpv4 packet
  · intro packet' hsame
    unfold handlePacket
    by_cases hlen : len < 14
    · rw [if_pos hlen, if_pos hlen]
    rw [if_neg hlen, if_neg hlen]
    simp only [wordAt_congr (i := 12) hsame (by omega), handleIpv4_congr hsame]
    by_cases harp : wordAt packet 12 = ethTypeArp ∧ len ≥ 42
    · rw [if_pos harp, if_pos harp, handleArp_congr hsame harp.2]
    · rw [if_neg harp, if_neg harp]

/-! ## Ping replies -/

theorem effects_ipEqual (packet : Mem UInt8) (i : ℕ) (ip : List UInt8) (c : Call) :
    (ipEqual packet i ip c).2.effects = c.effects := by
  obtain ⟨is, h⟩ := ipEqual_snd packet i ip c
  rw [h]
  rfl

theorem pingReport_mem_flush :
    pingReport ∈ (flush localMac c).effects ↔ pingReport ∈ c.effects := by
  obtain ⟨⟨mac, ready, icmp, udp⟩, effects, reads⟩ := c
  cases icmp <;> cases udp <;>
    simp [flush, sendIcmpEcho, sendUdpPacket, Call.emit, pingReport]

theorem pingReport_mem_handleArp :
    pingReport ∈ (handleArp localMac packet c).effects ↔ pingReport ∈ c.effects := by
  unfold handleArp
  dsimp only
  split_ifs
  · rfl
  · rw [effects_ipEqual]
    rfl
  · rw [effects_ipEqual, effects_ipEqual]
    rfl
  · rw [pingReport_mem_flush]
    simp [Call.emit, learnMac, Call.touch, effects_ipEqual, pingReport]

theorem pingReport_mem_handleIpv4 (hno : pingReport ∉ c.effects)
    (htype : wordAt packet 12 = ethTypeIpv4) :
    pingReport ∈ (handleIpv4 packet len c).effects ↔ PassesAsReply packet len := by
  have hihl : ((packet 14 &&& 0x0f) * 4).toNat = 4 * headerWords packet := toNat_ihl (packet 14)
  have hto := ipEqual_fst packet (14 + 16) localIp c
  have heffects := effects_ipEqual packet (14 + 16) localIp c
  unfold handleIpv4
  by_cases hfixed : len < 14 + 20
  · rw [if_pos hfixed]
    exact iff_of_false hno fun h => absurd h.fixed (by omega)
  rw [if_neg hfixed]
  dsimp only
  generalize ipEqual packet (14 + 16) localIp c = r at hto heffects ⊢
  obtain ⟨toUs, c'⟩ := r
  simp only at hto heffects ⊢
  rw [← heffects] at hno
  rw [hihl]
  cases toUs with
  | false => exact iff_of_false hno fun h => Bool.false_ne_true (hto.mpr h.destination)
  | true =>
    rw [if_neg (by decide)]
    by_cases hheader : len < 14 + 4 * headerWords packet
    · rw [if_pos hheader]
      exact iff_of_false hno fun h => absurd h.length (by omega)
    rw [if_neg hheader]
    by_cases hprotocol : packet (14 + 9) = ipProtoIcmp
    · rw [if_pos hprotocol]
      by_cases hicmp : len < 14 + 4 * headerWords packet + 8
      · rw [if_pos hicmp]
        exact iff_of_false hno fun h => absurd h.length (by omega)
      rw [if_neg hicmp]
      by_cases hreply : packet (14 + 4 * headerWords packet) = 0
      · rw [if_pos hreply]
        refine iff_of_true (List.mem_append_right _ (List.mem_singleton.mpr rfl)) ?_
        exact ⟨Nat.le_of_not_lt hfixed, Nat.le_of_not_lt hicmp, htype, hto.mp rfl, hprotocol,
          hreply⟩
      · rw [if_neg hreply]
        exact iff_of_false hno fun h => hreply h.type
    · rw [if_neg hprotocol]
      refine iff_of_false ?_ fun h => hprotocol h.protocol
      split
      · simpa [Call.emit, Call.touch, pingReport] using hno
      · exact hno

theorem reports_iff (localMac : Mac) (g : Gateway) (packet : Mem UInt8) (len : ℕ) :
    Reports localMac g packet len ↔ PassesAsReply packet len := by
  have hno : pingReport ∉ (g.enter.touch [12, 13]).effects := by
    intro h
    cases h
  unfold Reports exec Op.call handlePacket
  dsimp only
  split
  · rename_i hlen
    refine iff_of_false (by intro h; cases h) fun h => ?_
    have := h.fixed
    omega
  split
  · rename_i harp
    rw [pingReport_mem_handleArp]
    refine iff_of_false hno fun h => ?_
    rw [h.etherType] at harp
    exact absurd harp.1 (by decide)
  split
  · rename_i hne
    exact iff_of_false hno fun h => hne h.etherType
  · rename_i heq
    exact pingReport_mem_handleIpv4 hno (not_not.mp heq)

/-- The packet passes the checks of an echo reply, but its header is of another version or too
short, or another machine has sent it. -/
def Misread (packet : Mem UInt8) (len : ℕ) : Prop :=
  PassesAsReply packet len ∧ ((packet 14).toNat / 16 ≠ 4 ∨ headerWords packet < 5 ∨
    window (fun j => packet (26 + j)) 4 ≠ gatewayIp)

/-- The report is right about a packet exactly if it is not misread. -/
theorem reports_iff_isPingReply (localMac : Mac) (g : Gateway) (packet : Mem UInt8) (len : ℕ) :
    (Reports localMac g packet len ↔ IsPingReply packet len) ↔ ¬ Misread packet len := by
  rw [reports_iff]
  constructor
  · rintro hiff ⟨hpasses, hwrong⟩
    have hreply := hiff.mp hpasses
    rcases hwrong with hversion | hheader | hsource
    · exact hversion hreply.version
    · exact absurd hreply.header (by omega)
    · exact hsource hreply.source
  · intro hread
    constructor
    · intro hpasses
      obtain ⟨hversion, hrest⟩ := not_or.mp fun hwrong => hread ⟨hpasses, hwrong⟩
      obtain ⟨hheader, hsource⟩ := not_or.mp hrest
      exact ⟨hpasses.length, hpasses.etherType, not_not.mp hversion, Nat.le_of_not_lt hheader,
        hpasses.destination, not_not.mp hsource, hpasses.protocol, hpasses.type⟩
    · intro hreply
      have hlength := hreply.length
      have hheader := hreply.header
      exact ⟨by omega, hlength, hreply.etherType, hreply.destination, hreply.protocol,
        hreply.type⟩

def strangerReply : List UInt8 :=
  [0x52, 0x54, 0x00, 0x12, 0x34, 0x56, 0x52, 0x55, 0x0a, 0x00, 0x02, 0x03, 0x08, 0x00,
    0x45, 0x00, 0x00, 0x1c, 0x00, 0x00, 0x00, 0x00, 64, ipProtoIcmp, 0x62, 0xd0,
    10, 0, 2, 3, 10, 0, 2, 15, 0, 0, 0xff, 0xfd, 0x00, 0x01, 0x00, 0x01]

/-- It is reported as a reply from 10.0.2.2. -/
theorem reports_strangerReply :
    Reports zeroMac ⟨zeroMac, true, false, false⟩ (ofList strangerReply 0) 42 ∧
      ¬ IsPingReply (ofList strangerReply 0) 42 := by
  constructor
  · rw [reports_iff]
    exact ⟨by decide, by decide, by decide, by decide, by decide, by decide⟩
  · intro h
    exact absurd h.source (by decide)

end Wnu.Net
