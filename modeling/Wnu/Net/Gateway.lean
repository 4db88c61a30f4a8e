import Wnu.Net.Frames
import Wnu.Runs.Machine

/-! # Talking to the gateway

A request is kept until the hardware address of the gateway is known. It is asked for
with an ARP request and learned from an ARP reply. The receive path also reports ping
replies and UDP packets. Every byte of a packet that is read is recorded.
-/

namespace Wnu.Net

open Memory

/-- What the network code does to the outside: a frame given to `rtl8139_send`, a call of
`printf`, or a line for the serial port. -/
inductive Effect
  | send (frame : List UInt8)
  | printf (format : String) (args : List UInt8)
  | serial (s : String)
  deriving DecidableEq

structure Gateway where
  gatewayMac : Mac
  gatewayMacReady : Bool
  pendingIcmp : Bool
  pendingUdp : Bool

/-- A call in progress: what it has done so far, and the places in the packet that it has
read, the latest first. -/
structure Call extends Gateway where
  effects : List Effect
  reads : List ℕ

namespace Call

def emit (c : Call) (e : Effect) : Call := { c with effects := c.effects ++ [e] }

def touch (c : Call) (is : List ℕ) : Call := { c with reads := is ++ c.reads }

end Call

/-- `net_init` -/
def netInit (g : Gateway) : Gateway :=
  { g with gatewayMacReady := false, pendingIcmp := false, pendingUdp := false }

/-! ## Sending -/

/-- `send_icmp_echo` -/
def sendIcmpEcho (localMac : Mac) (c : Call) : Call :=
  ((c.emit (.send (icmpEchoFrame c.gatewayMac localMac))).emit
    (.printf "ping: icmp echo sent\n" [])).emit (.serial "ping: icmp echo sent\n")

/-- `send_udp_packet` -/
def sendUdpPacket (localMac : Mac) (c : Call) : Call :=
  ((c.emit (.send (udpFrame c.gatewayMac localMac))).emit
    (.printf "udp: sent to 10.0.2.2:5555\n" [])).emit (.serial "udp: sent to 10.0.2.2:5555\n")

/-- `send_arp_request` -/
def sendArpRequest (localMac : Mac) (c : Call) : Call :=
  c.emit (.send (arpRequestFrame localMac))

/-- `if (pending_icmp) { pending_icmp = 0; send_icmp_echo(); }` and the same for UDP, which
`request_gateway_mac` and `net_handle_packet` both do. -/
def flush (localMac : Mac) (c : Call) : Call :=
  let c := if c.pendingIcmp then sendIcmpEcho localMac { c with pendingIcmp := false } else c
  if c.pendingUdp then sendUdpPacket localMac { c with pendingUdp := false } else c

/-- `request_gateway_mac` -/
def requestGatewayMac (localMac : Mac) (wantIcmp wantUdp : Bool) (c : Call) : Call :=
  let c := { c with pendingIcmp := c.pendingIcmp || wantIcmp,
                    pendingUdp := c.pendingUdp || wantUdp }
  if c.gatewayMacReady then flush localMac c
  else
    sendArpRequest localMac
      ((c.emit (.printf "net: resolving gateway mac...\n" [])).emit
        (.serial "net: resolving gateway mac...\n"))

/-- `net_ping_qemu_gateway` -/
def pingQemuGateway (localMac : Mac) (c : Call) : Call := requestGatewayMac localMac true false c

/-- `net_udp_test` -/
def udpTest (localMac : Mac) (c : Call) : Call := requestGatewayMac localMac false true c

/-! ## Receiving -/

def wordAt (packet : Mem UInt8) (i : ℕ) : UInt16 :=
  ((packet i).toUInt16 <<< 8) ||| (packet (i + 1)).toUInt16

/-- `ip_equal`, on the packet from a place on. -/
def ipEqual (packet : Mem UInt8) (i : ℕ) : List UInt8 → Call → Bool × Call
  | [], c => (true, c)
  | b :: ip, c =>
    let c := c.touch [i]
    if packet i ≠ b then (false, c) else ipEqual packet (i + 1) ip c

def macAt (packet : Mem UInt8) (i : ℕ) : Mac := Vector.ofFn fun j => packet (i + j)

/-- `memory_copy(gateway_mac, sender_mac, 6)` -/
def learnMac (packet : Mem UInt8) (i : ℕ) (c : Call) : Call :=
  { c.touch [i, i + 1, i + 2, i + 3, i + 4, i + 5] with gatewayMac := macAt packet i }

/-- The ARP part of `net_handle_packet`. -/
def handleArp (localMac : Mac) (packet : Mem UInt8) (c : Call) : Call :=
  let arp := 14
  let opcode := wordAt packet (arp + 6)
  let c := c.touch [arp + 6, arp + 7]
  if opcode ≠ arpOpcodeReply then c
  else
    let (fromGateway, c) := ipEqual packet (arp + 14) gatewayIp c
    if !fromGateway then c
    else
      let (toUs, c) := ipEqual packet (arp + 24) localIp c
      if !toUs then c
      else
        let c := learnMac packet (arp + 8) c
        let c := { c with gatewayMacReady := true }
        let c := c.emit (.printf "arp: gateway mac %x:%x:%x:%x:%x:%x\n" c.gatewayMac.toList)
        flush localMac c

/-- The IPv4 part of `net_handle_packet`. -/
def handleIpv4 (packet : Mem UInt8) (len : ℕ) (c : Call) : Call :=
  if len < 14 + 20 then c
  else
    let ip := 14
    let (toUs, c) := ipEqual packet (ip + 16) localIp c
    if !toUs then c
    else
      let ihl := ((packet ip &&& 0x0f) * 4).toNat
      let c := c.touch [ip]
      if len < 14 + ihl then c
      else
        let protocol := packet (ip + 9)
        let c := c.touch [ip + 9]
        if protocol = ipProtoIcmp then
          let icmp := ip + ihl
          if len < 14 + ihl + 8 then c
          else
            let type := packet icmp
            let c := c.touch [icmp]
            if type = 0 then c.emit (.printf "ping: reply from 10.0.2.2\n" []) else c
        else if protocol = ipProtoUdp then c.emit (.printf "net: udp packet received\n" [])
        else c

/-- `net_handle_packet` -/
def handlePacket (localMac : Mac) (packet : Mem UInt8) (len : ℕ) (c : Call) : Call :=
  if len < 14 then c
  else
    let ethType := wordAt packet 12
    let c := c.touch [12, 13]
    if ethType = ethTypeArp ∧ len ≥ 42 then handleArp localMac packet c
    else if ethType ≠ ethTypeIpv4 then c
    else handleIpv4 packet len c

/-! ## Calls from outside -/

inductive Op
  | ping
  | udp
  | packet (bytes : Mem UInt8) (len : ℕ)

def Op.call (localMac : Mac) : Op → Call → Call
  | .ping => pingQemuGateway localMac
  | .udp => udpTest localMac
  | .packet bytes len => handlePacket localMac bytes len

def Gateway.enter (g : Gateway) : Call := { g with effects := [], reads := [] }

def exec (localMac : Mac) (g : Gateway) (op : Op) : List Effect × Gateway :=
  let c := op.call localMac g.enter
  (c.effects, c.toGateway)

def sent (effects : List Effect) : List (List UInt8) :=
  effects.filterMap fun
    | .send frame => some frame
    | _ => none

def sentCount (protocol : UInt8) (effects : List Effect) : ℕ :=
  (sent effects).countP fun frame => CarriesProtocol protocol frame

/-! ## What is accepted -/

/-- A packet that is accepted as an answer of the gateway to this machine. -/
def AcceptedReply (bytes : Mem UInt8) (len : ℕ) : Prop :=
  42 ≤ len ∧ wordAt bytes 12 = ethTypeArp ∧ wordAt bytes 20 = arpOpcodeReply ∧
    window (fun i => bytes (28 + i)) 4 = gatewayIp ∧ window (fun i => bytes (38 + i)) 4 = localIp

instance (bytes : Mem UInt8) (len : ℕ) : Decidable (AcceptedReply bytes len) :=
  inferInstanceAs (Decidable (_ ∧ _))

def Op.reply : Op → Option Mac
  | .packet bytes len => if AcceptedReply bytes len then some (macAt bytes 22) else none
  | _ => none

end Wnu.Net
