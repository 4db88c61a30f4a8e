import Wnu.Memory.Bytes
import Wnu.Memory.Parts
import Wnu.Text.CString

/-! # Frames that are sent

The three frames of the network code, byte by byte. Each is built in one array on the
stack that is filled completely before it is sent.
-/

namespace Wnu.Net

open Memory Text

/-- `ETH_TYPE_ARP` -/
abbrev ethTypeArp : UInt16 := 0x0806

abbrev ethTypeIpv4 : UInt16 := 0x0800

abbrev ipProtoIcmp : UInt8 := 1

abbrev ipProtoUdp : UInt8 := 17

abbrev arpOpcodeRequest : UInt8 := 1

abbrev arpOpcodeReply : UInt16 := 2

/-- `local_ip` -/
def localIp : List UInt8 := [10, 0, 2, 15]

/-- `gateway_ip` -/
def gatewayIp : List UInt8 := [10, 0, 2, 2]

abbrev Mac := Vector UInt8 6

/-! ## The checksum -/

/-- The sum of the big-endian words, an odd last byte padded with zero. -/
def sumWords (sum : UInt32) : List UInt8 → UInt32
  | [] => sum
  | [a] => sum + (a.toUInt32 <<< 8)
  | a :: b :: bytes => sumWords (sum + ((a.toUInt32 <<< 8) ||| b.toUInt32)) bytes

theorem fold_lt {sum : UInt32} (h : sum >>> 16 ≠ 0) :
    ((sum &&& (0xffff : UInt32)) + (sum >>> 16)).toNat < sum.toNat := by
  have hlow : (sum &&& (0xffff : UInt32)).toNat = sum.toNat % 2 ^ 16 := toNat_low32 sum rfl
  have hhigh : (sum >>> 16).toNat = sum.toNat / 2 ^ 16 := toNat_high32 sum rfl
  have hpos : (sum >>> 16).toNat ≠ 0 := fun h0 => h (UInt32.toNat_inj.mp h0)
  rw [hhigh] at hpos
  have hlt := sum.toNat_lt
  rw [UInt32.toNat_add, hlow, hhigh, Nat.mod_eq_of_lt (by omega)]
  omega

/-- `while ((sum >> 16) != 0) sum = (sum & 0xffffu) + (sum >> 16);` -/
def foldCarries (sum : UInt32) : UInt32 :=
  if sum >>> 16 ≠ 0 then foldCarries ((sum &&& (0xffff : UInt32)) + (sum >>> 16)) else sum
termination_by sum.toNat
decreasing_by exact fold_lt ‹_›

/-- `checksum` -/
def checksum (data : List UInt8) : UInt16 := ~~~(foldCarries (sumWords 0 data)).toUInt16

/-! ## Frames -/

def bytesOf (x : UInt16) : List UInt8 := [(x >>> 8).toUInt8, (x &&& 0xff).toUInt8]

def ethernetHeader (gatewayMac localMac : Mac) : List UInt8 :=
  gatewayMac.toList ++ localMac.toList ++ [0x08, 0x00]

def ipHeaderWith (totalLen : UInt16) (id : List UInt8) (protocol : UInt8) (sum : UInt16) :
    List UInt8 :=
  [0x45, 0x00] ++ bytesOf totalLen ++ id ++ [0x00, 0x00, 64, protocol] ++ bytesOf sum ++
    localIp ++ gatewayIp

def ipHeader (totalLen : UInt16) (id : List UInt8) (protocol : UInt8) : List UInt8 :=
  ipHeaderWith totalLen id protocol (checksum (ipHeaderWith totalLen id protocol 0))

def icmpEchoWith (sum : UInt16) : List UInt8 :=
  [8, 0] ++ bytesOf sum ++ [0x00, 0x01, 0x00, 0x01] ++ (List.range 32).map UInt8.ofNat

/-- The frame that `send_icmp_echo` sends. -/
def icmpEchoFrame (gatewayMac localMac : Mac) : List UInt8 :=
  ethernetHeader gatewayMac localMac ++ ipHeader (20 + 8 + 32) [0x12, 0x34] ipProtoIcmp ++
    icmpEchoWith (checksum (icmpEchoWith 0))

/-- `message` in `send_udp_packet` -/
def message : List UInt8 := ascii "hello from WNU\n"

/-- The frame that `send_udp_packet` sends. The checksum 0 means that there is none. -/
def udpFrame (gatewayMac localMac : Mac) : List UInt8 :=
  let udpLen := 8 + UInt16.ofNat message.length
  ethernetHeader gatewayMac localMac ++ ipHeader (20 + udpLen) [0xab, 0xcd] ipProtoUdp ++
    bytesOf 4444 ++ bytesOf 5555 ++ bytesOf udpLen ++ [0, 0] ++ message

/-- `broadcast` in `send_arp_request` -/
def broadcast : Mac := Vector.replicate 6 0xff

/-- `zero_mac` in `send_arp_request` -/
def zeroMac : Mac := Vector.replicate 6 0

/-- The frame that `send_arp_request` sends. -/
def arpRequestFrame (localMac : Mac) : List UInt8 :=
  broadcast.toList ++ localMac.toList ++
    [0x08, 0x06, 0x00, 0x01, 0x08, 0x00, 6, 4, 0x00, arpOpcodeRequest] ++
    localMac.toList ++ localIp ++ zeroMac.toList ++ gatewayIp

/-! ## Kinds of frames -/

def CarriesProtocol (protocol : UInt8) (frame : List UInt8) : Prop :=
  frame[12]? = some 0x08 ∧ frame[13]? = some 0x00 ∧ frame[23]? = some protocol

instance (protocol : UInt8) (frame : List UInt8) : Decidable (CarriesProtocol protocol frame) :=
  inferInstanceAs (Decidable (_ ∧ _))

def destination (frame : List UInt8) : List UInt8 := frame.take 6

variable (gatewayMac localMac : Mac)

theorem carriesProtocol_iff (protocol : UInt8) (rest : List UInt8) :
    CarriesProtocol protocol (gatewayMac.toList ++ (localMac.toList ++ rest)) ↔
      rest[0]? = some 0x08 ∧ rest[1]? = some 0x00 ∧ rest[11]? = some protocol := by
  have hdrop : (gatewayMac.toList ++ (localMac.toList ++ rest)).drop 12 = rest := by
    simp [List.drop_append]
  have hget (i : ℕ) :
      (gatewayMac.toList ++ (localMac.toList ++ rest))[12 + i]? = rest[i]? := by
    rw [← List.getElem?_drop, hdrop]
  simp only [CarriesProtocol, ← hget]

theorem carriesProtocol_icmpEchoFrame (protocol : UInt8) :
    CarriesProtocol protocol (icmpEchoFrame gatewayMac localMac) ↔ protocol = ipProtoIcmp := by
  rw [icmpEchoFrame, ethernetHeader]
  simp only [List.append_assoc, carriesProtocol_iff]
  simp [ipHeader, ipHeaderWith, bytesOf, eq_comm]

theorem carriesProtocol_udpFrame (protocol : UInt8) :
    CarriesProtocol protocol (udpFrame gatewayMac localMac) ↔ protocol = ipProtoUdp := by
  rw [udpFrame, ethernetHeader]
  simp only [List.append_assoc, carriesProtocol_iff]
  simp [ipHeader, ipHeaderWith, bytesOf, eq_comm]

theorem not_carriesProtocol_arpRequestFrame (protocol : UInt8) :
    ¬ CarriesProtocol protocol (arpRequestFrame localMac) := by
  rw [arpRequestFrame]
  simp only [List.append_assoc, carriesProtocol_iff]
  simp

theorem destination_icmpEchoFrame :
    destination (icmpEchoFrame gatewayMac localMac) = gatewayMac.toList := by
  simp [destination, icmpEchoFrame, ethernetHeader]

theorem destination_udpFrame :
    destination (udpFrame gatewayMac localMac) = gatewayMac.toList := by
  simp [destination, udpFrame, ethernetHeader]

end Wnu.Net
