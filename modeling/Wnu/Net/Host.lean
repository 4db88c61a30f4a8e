import Wnu.Net.Checksum
import Wnu.Net.Receive

/-! # The host at the other end

The gateway is a host that answers ARP requests for its address and echo requests. What
it has to look at in the frames that the kernel sends is in them, also behind the padding
of the card, and what the kernel looks at in an answer is in it.
-/

namespace Wnu.Net

open Memory Text

def slice (i n : ℕ) (frame : List UInt8) : List UInt8 := (frame.drop i).take n

/-! ## What a host looks at -/

structure IsArpRequest (frame : List UInt8) : Prop where
  length : 42 ≤ frame.length
  kind : slice 12 10 frame = [0x08, 0x06, 0x00, 0x01, 0x08, 0x00, 6, 4, 0x00, 1]
  target : slice 38 4 frame = gatewayIp

/-- An IP packet without options that is for the gateway, with what is in it. -/
structure Carries (mac : Mac) (protocol : UInt8) (frame payload : List UInt8) : Prop where
  destination : slice 0 6 frame = mac.toList
  etherType : slice 12 2 frame = [0x08, 0x00]
  version : slice 14 1 frame = [0x45]
  total : ∃ total : UInt16, slice 16 2 frame = bytesOf total ∧ total.toNat = 20 + payload.length
  protocol : slice 23 1 frame = [protocol]
  target : slice 30 4 frame = gatewayIp
  header : checksum (slice 14 20 frame) = 0
  payload : slice 34 payload.length frame = payload

structure IsEchoRequest (mac : Mac) (frame message : List UInt8) : Prop where
  carries : Carries mac ipProtoIcmp frame message
  length : 8 ≤ message.length
  type : slice 0 2 message = [8, 0]
  sum : checksum message = 0

structure IsDatagram (mac : Mac) (port : UInt16) (frame text : List UInt8) : Prop where
  carries : ∃ header : List UInt8, header.length = 8 ∧
    Carries mac ipProtoUdp frame (header ++ text) ∧ slice 2 2 header = bytesOf port ∧
      slice 4 2 header = bytesOf (UInt16.ofNat (8 + text.length)) ∧ slice 6 2 header = [0, 0]

/-! ## What the kernel looks at -/

structure IsArpReply (mac : Mac) (request reply : List UInt8) : Prop where
  length : 42 ≤ reply.length
  kind : slice 12 10 reply = [0x08, 0x06, 0x00, 0x01, 0x08, 0x00, 6, 4, 0x00, 2]
  sender : slice 22 10 reply = mac.toList ++ gatewayIp
  target : slice 32 10 reply = slice 22 10 request

structure IsEchoReply (request reply : List UInt8) : Prop where
  length : 42 ≤ reply.length
  etherType : slice 12 2 reply = [0x08, 0x00]
  version : slice 14 1 reply = [0x45]
  protocol : slice 23 1 reply = [ipProtoIcmp]
  source : slice 26 4 reply = slice 30 4 request
  target : slice 30 4 reply = slice 26 4 request
  type : slice 34 1 reply = [0]

/-- The packet is neither an accepted ARP reply nor one that passes as an echo reply. -/
def Foreign (packet : Mem UInt8) (len : ℕ) : Prop :=
  ¬ AcceptedReply packet len ∧ ¬ PassesAsReply packet len

/-- A host with the address of the gateway. What it answers to a UDP message is nothing that the
kernel waits for. -/
structure Host where
  mac : Mac
  answer : List UInt8 → Option (List UInt8)
  arp : ∀ frame, IsArpRequest frame → ∃ reply ∈ answer frame, IsArpReply mac frame reply
  echo : ∀ frame message, IsEchoRequest mac frame message →
    ∃ reply ∈ answer frame, IsEchoReply frame reply
  udp : ∀ frame port text, IsDatagram mac port frame text → ∀ reply ∈ answer frame,
    ∀ packet len, reply <+: window packet len → Foreign packet len

/-! ## Parts of frames -/

variable {frame whole front back : List UInt8} {packet : Mem UInt8} {i n k len : ℕ}

theorem slice_of_isPrefix (h : frame <+: whole) (hn : i + n ≤ frame.length) :
    slice i n whole = slice i n frame := by
  obtain ⟨rest, rfl⟩ := h
  have hdrop : (frame ++ rest).drop i = frame.drop i ++ rest :=
    List.drop_append_of_le_length (by omega)
  rw [slice, slice, hdrop, List.take_append_of_le_length]
  rw [List.length_drop]
  omega

theorem slice_add_append (h : front.length = k) (i n : ℕ) :
    slice (k + i) n (front ++ back) = slice i n back := by
  rw [slice, slice, ← List.drop_drop, List.drop_left' h]

theorem slice_zero_append (h : front.length = n) : slice 0 n (front ++ back) = front :=
  List.take_left' h

theorem slice_slice (h : i + n ≤ k) (j : ℕ) (frame : List UInt8) :
    slice i n (slice j k frame) = slice (j + i) n frame := by
  rw [slice, slice, slice, List.drop_take, List.take_take, List.drop_drop,
    Nat.min_eq_left (by omega)]

theorem window_eq_slice (h : frame <+: window packet len) (hn : i + n ≤ frame.length) :
    window (fun j => packet (i + j)) n = slice i n frame := by
  have hlen : i + n ≤ len := hn.trans (h.length_le.trans (length_window packet len).le)
  obtain ⟨rest, rfl⟩ := Nat.exists_eq_add_of_le hlen
  have hskip : slice i n (window packet i ++ window (fun j => packet (i + j)) (n + rest)) =
      slice 0 n (window (fun j => packet (i + j)) (n + rest)) :=
    slice_add_append (length_window packet i) 0 n
  rw [← slice_of_isPrefix h hn, Nat.add_assoc, window_add, hskip, window_add]
  exact (slice_zero_append (length_window ..)).symm

/-! ## The frames of the kernel -/

variable (mac localMac : Mac)

theorem exists_bytes (mac : Mac) : ∃ a b c d e f, mac.toList = [a, b, c, d, e, f] := by
  obtain ⟨⟨l⟩, hl⟩ := mac
  match l, hl with
  | [a, b, c, d, e, f], _ => exact ⟨a, b, c, d, e, f, rfl⟩

theorem length_arpRequestFrame : (arpRequestFrame localMac).length = 42 := by
  simp [arpRequestFrame, localIp, gatewayIp]

theorem isArpRequest_of_isPrefix {frame : List UInt8} (h : arpRequestFrame localMac <+: frame) :
    IsArpRequest frame ∧ slice 22 10 frame = localMac.toList ++ localIp := by
  have hlen := length_arpRequestFrame localMac
  have hslice {i n : ℕ} (hn : i + n ≤ 42) :
      slice i n frame = slice i n (arpRequestFrame localMac) :=
    slice_of_isPrefix h (hlen ▸ hn)
  obtain ⟨a, b, c, d, e, f, hbytes⟩ := exists_bytes localMac
  refine ⟨⟨hlen ▸ h.length_le, ?_, ?_⟩, ?_⟩
  · rw [hslice (by decide), arpRequestFrame, hbytes]
    rfl
  · rw [hslice (by decide), arpRequestFrame, hbytes]
    rfl
  · rw [hslice (by decide), arpRequestFrame, hbytes]
    rfl

/-- A frame with an IP header is a packet for the gateway, whatever the card puts behind it. -/
theorem carries_of_isPrefix {frame payload : List UInt8} {totalLen : UInt16} {x y protocol : UInt8}
    (h : ethernetHeader mac localMac ++ ipHeader totalLen [x, y] protocol ++ payload <+: frame)
    (htotal : totalLen.toNat = 20 + payload.length) :
    Carries mac protocol frame payload ∧ slice 26 4 frame = localIp := by
  obtain ⟨hip, hpayload⟩ := drop_frame mac localMac totalLen x y protocol payload
  have hlen : (ethernetHeader mac localMac ++ ipHeader totalLen [x, y] protocol ++ payload).length =
      34 + payload.length := by
    rw [List.length_append, List.length_append, length_ethernetHeader, length_ipHeader]
  have hslice {i n : ℕ} (hn : i + n ≤ 34 + payload.length) : slice i n frame =
      slice i n (ethernetHeader mac localMac ++ ipHeader totalLen [x, y] protocol ++ payload) :=
    slice_of_isPrefix h (hlen ▸ hn)
  obtain ⟨a, b, c, d, e, f, hmac⟩ := exists_bytes mac
  obtain ⟨a', b', c', d', e', f', hlocal⟩ := exists_bytes localMac
  have hheader : checksum (slice 14 20 frame) = 0 := by
    rw [hslice (by omega), slice, hip, checksum_ipHeader]
  have hrest : slice 34 payload.length frame = payload := by
    rw [hslice le_rfl, slice, hpayload, List.take_length]
  have hfields (i n : ℕ) (hn : i + n ≤ 34) : slice i n frame = slice i n
      (ethernetHeader mac localMac ++ ipHeader totalLen [x, y] protocol ++ payload) :=
    hslice (by omega)
  rw [ethernetHeader, ipHeader, hmac, hlocal] at hfields
  generalize checksum (ipHeaderWith totalLen [x, y] protocol 0) = sum at hfields
  refine ⟨⟨?_, hfields 12 2 (by decide), hfields 14 1 (by decide), ?_, hfields 23 1 (by decide),
    hfields 30 4 (by decide), hheader, hrest⟩, hfields 26 4 (by decide)⟩
  · exact (hfields 0 6 (by decide)).trans hmac.symm
  · exact ⟨totalLen, hfields 16 2 (by decide), htotal⟩

theorem isEchoRequest_of_isPrefix {frame : List UInt8} (h : icmpEchoFrame mac localMac <+: frame) :
    IsEchoRequest mac frame (icmpEchoWith (checksum (icmpEchoWith 0))) ∧
      slice 26 4 frame = localIp := by
  have htotal : (20 + 8 + 32 : UInt16).toNat =
      20 + (icmpEchoWith (checksum (icmpEchoWith 0))).length := by
    simp [icmpEchoWith, bytesOf]
  obtain ⟨hcarries, hsource⟩ := carries_of_isPrefix mac localMac h htotal
  exact ⟨⟨hcarries, by simp [icmpEchoWith, bytesOf], rfl, checksum_icmpEcho⟩, hsource⟩

theorem isDatagram_of_isPrefix {frame : List UInt8} (h : udpFrame mac localMac <+: frame) :
    IsDatagram mac 5555 frame message := by
  have hlen : message.length = 15 := rfl
  have hgroup : udpFrame mac localMac = ethernetHeader mac localMac ++
      ipHeader (20 + (8 + UInt16.ofNat message.length)) [0xab, 0xcd] ipProtoUdp ++
        (bytesOf 4444 ++ bytesOf 5555 ++ bytesOf (8 + UInt16.ofNat message.length) ++ [0, 0] ++
          message) := by
    simp only [udpFrame, List.append_assoc]
  rw [hgroup] at h
  have hcarries := carries_of_isPrefix mac localMac h (by rw [List.length_append, hlen]; rfl)
  exact ⟨bytesOf 4444 ++ bytesOf 5555 ++ bytesOf (8 + UInt16.ofNat message.length) ++ [0, 0],
    rfl, hcarries.1, rfl, rfl, rfl⟩

/-! ## The answers of the host -/

theorem byte_eq_of_slice {b : UInt8} (h : frame <+: window packet len) (hn : i + 1 ≤ frame.length)
    (hs : slice i 1 frame = [b]) : packet i = b := by
  have hwindow := (window_eq_slice h hn).trans hs
  rw [window_succ, window_zero] at hwindow
  exact List.head_eq_of_cons_eq hwindow

theorem wordAt_eq_of_slice {hi lo : UInt8} (h : frame <+: window packet len)
    (hn : i + 2 ≤ frame.length) (hs : slice i 2 frame = [hi, lo]) :
    wordAt packet i = (hi.toUInt16 <<< 8) ||| lo.toUInt16 := by
  have hwindow := (window_eq_slice h hn).trans hs
  rw [window_succ, window_succ, window_zero] at hwindow
  obtain ⟨hhi, hlo⟩ : packet i = hi ∧ packet (i + 1) = lo := by simpa using hwindow
  rw [wordAt, hhi, hlo]

variable {mac localMac} {request reply : List UInt8}

theorem macAt_eq_of_slice (h : frame <+: window packet len) (hn : i + 6 ≤ frame.length)
    (hs : slice i 6 frame = mac.toList) : macAt packet i = mac := by
  have hwindow := (window_eq_slice h hn).trans hs
  apply Vector.toList_inj.mp
  rw [← hwindow, macAt, Vector.toList_ofFn]
  simp [window, List.range_succ, List.ofFn_succ]

theorem IsArpReply.accepted (h : IsArpReply mac request reply)
    (hrequest : slice 22 10 request = localMac.toList ++ localIp)
    (hp : reply <+: window packet len) : AcceptedReply packet len ∧ macAt packet 22 = mac := by
  have hreply := h.length
  have hlen : 42 ≤ len := hreply.trans (hp.length_le.trans (length_window packet len).le)
  have hkind {i n : ℕ} (hin : i + n ≤ 10) : slice (12 + i) n reply =
      slice i n [0x08, 0x06, 0x00, 0x01, 0x08, 0x00, 6, 4, 0x00, 2] := by
    rw [← h.kind, slice_slice hin]
  have hmac : slice 22 6 reply = mac.toList := by
    rw [← slice_slice (i := 0) (k := 10) (by decide) 22, h.sender]
    exact slice_zero_append Vector.length_toList
  have hfrom : slice 28 4 reply = gatewayIp := by
    rw [← slice_slice (i := 6) (k := 10) (by decide) 22, h.sender]
    exact slice_add_append Vector.length_toList 0 4
  have hto : slice 38 4 reply = localIp := by
    rw [← slice_slice (i := 6) (k := 10) (by decide) 32, h.target, hrequest]
    exact slice_add_append Vector.length_toList 0 4
  refine ⟨⟨hlen, ?_, ?_, ?_, ?_⟩, macAt_eq_of_slice hp (by omega) hmac⟩
  · exact wordAt_eq_of_slice hp (by omega) (hkind (i := 0) (by decide))
  · exact wordAt_eq_of_slice hp (by omega) (hkind (i := 8) (by decide))
  · exact (window_eq_slice hp (by omega)).trans hfrom
  · exact (window_eq_slice hp (by omega)).trans hto

theorem IsEchoReply.passes (h : IsEchoReply request reply) (hrequest : slice 26 4 request = localIp)
    (hp : reply <+: window packet len) : PassesAsReply packet len := by
  have hreply := h.length
  have hlen : 42 ≤ len := hreply.trans (hp.length_le.trans (length_window packet len).le)
  have hversion : packet 14 = 0x45 := byte_eq_of_slice hp (by omega) h.version
  have hwords : headerWords packet = 5 := by rw [headerWords, hversion]; rfl
  refine ⟨by omega, by omega, ?_, ?_, ?_, ?_⟩
  · exact wordAt_eq_of_slice hp (by omega) h.etherType
  · exact (window_eq_slice hp (by omega)).trans (h.target.trans hrequest)
  · exact byte_eq_of_slice hp (by omega) h.protocol
  · rw [hwords]
    exact byte_eq_of_slice hp (by omega) h.type

/-! ## A host -/

def plainAnswer (mac : Mac) (frame : List UInt8) : Option (List UInt8) :=
  if slice 12 10 frame = [0x08, 0x06, 0x00, 0x01, 0x08, 0x00, 6, 4, 0x00, 1] ∧
      slice 38 4 frame = gatewayIp then
    some (slice 6 6 frame ++ mac.toList ++
      [0x08, 0x06, 0x00, 0x01, 0x08, 0x00, 6, 4, 0x00, 2] ++ mac.toList ++ gatewayIp ++
      slice 22 10 frame)
  else if slice 23 1 frame = [ipProtoIcmp] ∧ slice 34 2 frame = [8, 0] then
    some (slice 6 6 frame ++ mac.toList ++ slice 12 14 frame ++ slice 30 4 frame ++
      slice 26 4 frame ++
      ([0, 0] ++ bytesOf (checksum ([0, 0, 0, 0] ++ frame.drop 38)) ++ frame.drop 38))
  else none

theorem length_slice (h : i + n ≤ frame.length) : (slice i n frame).length = n := by
  rw [slice, List.length_take, List.length_drop]
  omega

theorem slice_of_append {whole middle : List UInt8} (h : whole = front ++ middle ++ back)
    (hi : front.length = i) (hn : middle.length = n) : slice i n whole = middle := by
  rw [h, List.append_assoc, ← Nat.add_zero i, slice_add_append hi, slice_zero_append hn]

theorem Carries.length_le {protocol : UInt8} {payload : List UInt8}
    (h : Carries mac protocol frame payload) (hpos : 0 < payload.length) :
    34 + payload.length ≤ frame.length := by
  have hlen := congrArg List.length h.payload
  rw [slice, List.length_take, List.length_drop] at hlen
  omega

theorem Carries.not_arp {protocol : UInt8} {payload : List UInt8}
    (h : Carries mac protocol frame payload) :
    slice 12 10 frame ≠ [0x08, 0x06, 0x00, 0x01, 0x08, 0x00, 6, 4, 0x00, 1] := by
  intro harp
  have htype := h.etherType
  rw [← slice_slice (i := 0) (k := 10) (by decide) 12, harp] at htype
  exact absurd htype (by decide)

theorem isArpReply_plainAnswer (mac : Mac) (h : IsArpRequest frame) :
    ∃ reply ∈ plainAnswer mac frame, IsArpReply mac frame reply := by
  have hframe := h.length
  have hsource : (slice 6 6 frame).length = 6 := length_slice (by omega)
  have hasker : (slice 22 10 frame).length = 10 := length_slice (by omega)
  have hfront : (slice 6 6 frame ++ mac.toList).length = 12 := by simp [hsource]
  refine ⟨_, if_pos ⟨h.kind, h.target⟩, ?_, ?_, ?_, ?_⟩
  · simp [hsource, hasker, gatewayIp]
  · rw [List.append_assoc, List.append_assoc, List.append_assoc]
    rw [← Nat.add_zero 12, slice_add_append hfront]
    rfl
  · rw [List.append_assoc _ mac.toList gatewayIp]
    apply slice_of_append rfl
    · simp [hsource]
    · simp [gatewayIp]
  · rw [← List.append_nil (_ ++ slice 22 10 frame)]
    apply slice_of_append rfl
    · simp [hsource, gatewayIp]
    · exact hasker

theorem slice_parts {a b c d e : List UInt8} (ha : a.length = 12) (hb : b.length = 14)
    (hc : c.length = 4) (hd : d.length = 4) (n : ℕ) :
    slice 12 14 (a ++ b ++ c ++ d ++ e) = b ∧ slice 26 4 (a ++ b ++ c ++ d ++ e) = c ∧
      slice 30 4 (a ++ b ++ c ++ d ++ e) = d ∧
      slice 34 n (a ++ b ++ c ++ d ++ e) = slice 0 n e := by
  refine ⟨?_, ?_, ?_, ?_⟩
  · have hgroup : a ++ b ++ c ++ d ++ e = a ++ b ++ (c ++ (d ++ e)) := by
      simp only [List.append_assoc]
    exact slice_of_append hgroup ha hb
  · refine slice_of_append (List.append_assoc (a ++ b ++ c) d e) ?_ hc
    rw [List.length_append, ha, hb]
  · refine slice_of_append rfl ?_ hd
    rw [List.length_append, List.length_append, ha, hb, hc]
  · refine slice_add_append (k := 34) ?_ 0 n
    rw [List.length_append, List.length_append, List.length_append, ha, hb, hc, hd]

theorem isEchoReply_plainAnswer {message : List UInt8} (h : IsEchoRequest mac frame message) :
    ∃ reply ∈ plainAnswer mac frame, IsEchoReply frame reply := by
  have hlen := h.length
  have hframe := h.carries.length_le (by omega)
  have htype : slice 34 2 frame = [8, 0] := by
    have hpart := slice_slice (i := 0) (n := 2) (k := message.length) (by omega) 34 frame
    rw [← h.type, ← hpart, h.carries.payload]
  have hno : ¬ (slice 12 10 frame = [0x08, 0x06, 0x00, 0x01, 0x08, 0x00, 6, 4, 0x00, 1] ∧
      slice 38 4 frame = gatewayIp) := fun harp => h.carries.not_arp harp.1
  have hsource : (slice 6 6 frame).length = 6 := length_slice (by omega)
  have hheader : (slice 12 14 frame).length = 14 := length_slice (by omega)
  have hfrom : (slice 30 4 frame).length = 4 := length_slice (by omega)
  have hto : (slice 26 4 frame).length = 4 := length_slice (by omega)
  refine ⟨_, (if_neg hno).trans (if_pos ⟨h.carries.protocol, htype⟩), ?_⟩
  generalize hmessage : [0, 0] ++ bytesOf (checksum ([0, 0, 0, 0] ++ frame.drop 38)) ++
    frame.drop 38 = message'
  have hfront : (slice 6 6 frame ++ mac.toList).length = 12 := by simp [hsource]
  obtain ⟨hblock, hfirst, hsecond, hrest⟩ :=
    slice_parts (e := message') hfront hheader hfrom hto 1
  have hlength : 42 ≤ (slice 6 6 frame ++ mac.toList ++ slice 12 14 frame ++ slice 30 4 frame ++
      slice 26 4 frame ++ message').length := by
    rw [← hmessage]
    simp [hsource, hheader, hfrom, hto, bytesOf]
    omega
  generalize slice 6 6 frame ++ mac.toList ++ slice 12 14 frame ++ slice 30 4 frame ++
    slice 26 4 frame ++ message' = reply at hblock hfirst hsecond hrest hlength ⊢
  have hpart {i n : ℕ} (hin : i + n ≤ 14) : slice (12 + i) n reply = slice (12 + i) n frame := by
    rw [← slice_slice hin, hblock, slice_slice hin]
  refine ⟨hlength, ?_, ?_, ?_, hfirst, hsecond, ?_⟩
  · exact (hpart (i := 0) (by decide)).trans h.carries.etherType
  · exact (hpart (i := 2) (by decide)).trans h.carries.version
  · exact (hpart (i := 11) (by decide)).trans h.carries.protocol
  · rw [hrest, ← hmessage]
    rfl

def plainHost (mac : Mac) : Host where
  mac := mac
  answer := plainAnswer mac
  arp _ h := isArpReply_plainAnswer mac h
  echo _ _ h := isEchoReply_plainAnswer h
  udp frame port text h reply hreply := by
    obtain ⟨header, -, hcarries, -⟩ := h.carries
    have hprotocol : slice 23 1 frame ≠ [ipProtoIcmp] := by
      rw [hcarries.protocol]
      decide
    have hnone : plainAnswer mac frame = none := by
      rw [plainAnswer, if_neg fun harp => hcarries.not_arp harp.1,
        if_neg fun hecho => hprotocol hecho.1]
    rw [hnone] at hreply
    cases hreply

end Wnu.Net
