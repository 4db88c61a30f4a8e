import Wnu.Net.Gateway
import Wnu.Pci.Config
import Wnu.Runs.Machine

/-! # The network card

The driver sends from four buffers in turn and receives through a ring that the card
writes into. The card is a parameter: it answers each read of a port and fills the ring,
which may depend on how many reads came before. A call of `rtl8139_poll` takes several
steps, one for each round of its loop, and nothing else is called before it has returned.
-/

namespace Wnu.Rtl8139

open Memory Net

/-- A card that answers the reads of its ports and fills `rx_buffer`. -/
structure Card where
  inb : ℕ → UInt16 → UInt8
  inl : ℕ → UInt16 → UInt32
  rxBuffer : ℕ → Mem UInt8

structure Platform extends Pci.Bases where
  rxBuffer : UInt64
  txBuffers : UInt64

/-- An access to a port, a call of `net_handle_packet` with a part of `rx_buffer`, or a line that
is printed. -/
inductive Event
  | inb (port : UInt16) (value : UInt8)
  | inl (port : UInt16) (value : UInt32)
  | outb (port : UInt16) (value : UInt8)
  | outl (port : UInt16) (value : UInt32)
  | handlePacket (start len : ℕ)
  | printf (format : String) (args : List ℤ)
  | serial (s : String)
  deriving DecidableEq

/-- The static variables of the driver and of the network code, and the number of ports read. -/
structure Driver where
  ioBase : UInt16
  txBuffers : ℕ → Mem UInt8
  mac : Mac
  txIndex : UInt32
  rxOffset : UInt16
  net : Gateway
  reads : ℕ

/-- A step in progress, and what has happened in it, the newest first. -/
structure Call extends Driver where
  events : List Event

/-! ## Registers -/

/-- `RTL8139_VENDOR` -/
abbrev vendor : UInt16 := 0x10ec

abbrev device : UInt16 := 0x8139

abbrev regMac0 : UInt16 := 0x00

abbrev regTxStatus0 : UInt16 := 0x10

abbrev regTxAddr0 : UInt16 := 0x20

abbrev regRxBuf : UInt16 := 0x30

abbrev regCmd : UInt16 := 0x37

abbrev regCapr : UInt16 := 0x38

abbrev regCbr : UInt16 := 0x3a

abbrev regImr : UInt16 := 0x3c

abbrev regIsr : UInt16 := 0x3e

abbrev regTxConfig : UInt16 := 0x40

abbrev regRxConfig : UInt16 := 0x44

abbrev regConfig1 : UInt16 := 0x52

abbrev cmdRxEmpty : UInt8 := 0x01

abbrev cmdTxEn : UInt8 := 0x04

abbrev cmdRxEn : UInt8 := 0x08

abbrev cmdReset : UInt8 := 0x10

abbrev isrRxOk : UInt16 := 0x0001

abbrev isrRxErr : UInt16 := 0x0002

abbrev isrTxOk : UInt16 := 0x0004

abbrev isrTxErr : UInt16 := 0x0008

abbrev rxBufferSize : ℕ := 8192 + 16 + 1500

abbrev txBufferSize : ℕ := 2048

variable (pf : Platform) (card : Card)

namespace Call

def emit (c : Call) (e : Event) : Call := { c with events := e :: c.events }

/-- `wnu_inb` -/
def inb (port : UInt16) (c : Call) : UInt8 × Call :=
  let value := card.inb c.reads port
  (value, { c with reads := c.reads + 1, events := .inb port value :: c.events })

/-- `wnu_inl` -/
def inl (port : UInt16) (c : Call) : UInt32 × Call :=
  let value := card.inl c.reads port
  (value, { c with reads := c.reads + 1, events := .inl port value :: c.events })

/-- `rtl_read8` -/
def read8 (reg : UInt16) (c : Call) : UInt8 × Call := c.inb card (c.ioBase + reg)

/-- `rtl_read16` -/
def read16 (reg : UInt16) (c : Call) : UInt16 × Call :=
  let (lo, c) := c.inb card (c.ioBase + reg)
  let (hi, c) := c.inb card (c.ioBase + reg + 1)
  (lo.toUInt16 ||| (hi.toUInt16 <<< 8), c)

/-- `rtl_read32` -/
def read32 (reg : UInt16) (c : Call) : UInt32 × Call := c.inl card (c.ioBase + reg)

/-- `rtl_write8` -/
def write8 (reg : UInt16) (value : UInt8) (c : Call) : Call := c.emit (.outb (c.ioBase + reg) value)

/-- `rtl_write16` -/
def write16 (reg value : UInt16) (c : Call) : Call :=
  (c.emit (.outb (c.ioBase + reg) (value &&& 0xff).toUInt8)).emit
    (.outb (c.ioBase + reg + 1) ((value >>> 8) &&& 0xff).toUInt8)

/-- `rtl_write32` -/
def write32 (reg : UInt16) (value : UInt32) (c : Call) : Call :=
  c.emit (.outl (c.ioBase + reg) value)

end Call

/-! ## Sending -/

/-- What `rtl8139_send` leaves in a buffer: the data in front, and zeros. -/
def fillBuffer (buf data : Mem UInt8) (txLen len : ℕ) : Mem UInt8 :=
  copyLoop (copyLoop buf 0 (fun _ => 0) txLen) 0 data len

/-- The part of `rtl8139_send` after the check of the address. -/
def transmit (slot phys : UInt32) (txLen : ℕ) (c : Call) : Call :=
  let c := c.write32 (regTxAddr0 + (slot * 4).toUInt16) phys
  let c := c.write32 (regTxStatus0 + (slot * 4).toUInt16) (UInt32.ofNat txLen)
  let (status, c) := c.read32 card (regTxStatus0 + (slot * 4).toUInt16)
  let c := c.emit (.printf "rtl8139: send len=%u tx=%u phys=0x%x status=0x%x\n"
    [txLen, slot.toNat, phys.toNat, status.toNat])
  let c := c.emit (.serial "rtl8139: send\n")
  { c with txIndex := (c.txIndex + 1) &&& 3 }

/-- `rtl8139_send` -/
def send (data : Option (Mem UInt8)) (len : ℕ) (c : Call) : Call :=
  match data with
  | none => c
  | some data =>
    if c.ioBase = 0 then c
    else
      let len := if len > txBufferSize then txBufferSize else len
      let txLen := if len < 60 then 60 else len
      let slot := c.txIndex
      let buf := fillBuffer (c.txBuffers slot.toNat) data txLen len
      let c := { c with txBuffers := Function.update c.txBuffers slot.toNat buf }
      let phys := pf.virtToPhys (pf.txBuffers + UInt64.ofNat (slot.toNat * txBufferSize))
      if phys > 0xffffffff then c.emit (.printf "rtl8139: tx buffer above 4GiB\n" [])
      else transmit card slot phys.toUInt32 txLen c

def perform : List Effect → Call → Call
  | [], c => c
  | .send frame :: effects, c =>
    perform effects (send pf card (some (ofList frame 0)) frame.length c)
  | .printf format args :: effects, c =>
    perform effects (c.emit (.printf format (args.map fun b => (b.toNat : ℤ))))
  | .serial s :: effects, c => perform effects (c.emit (.serial s))

def callNet (op : Net.Op) (c : Call) : Call :=
  let (effects, net) := Net.exec c.mac c.net op
  perform pf card effects { c with net := net }

/-! ## Receiving -/

def wordAt (packet : Mem UInt8) (i : ℕ) : UInt16 :=
  (packet i).toUInt16 ||| ((packet (i + 1)).toUInt16 <<< 8)

/-- The new `rx_offset` after a packet. -/
def nextOffset (rxOffset len : UInt16) : UInt16 :=
  let rxOffset := ((rxOffset.toUInt32 + len.toUInt32 + 4 + 3) &&& ~~~3).toUInt16
  if rxOffset ≥ 8192 then rxOffset - 8192 else rxOffset

/-- `capr` -/
def caprOf (rxOffset : UInt16) : UInt16 := if rxOffset ≥ 16 then rxOffset - 16 else 0

/-- The body of the loop in `rtl8139_poll`: whether the loop goes on, and what is done. -/
def receive (rxBuffer : Mem UInt8) (c : Call) : Bool × Call :=
  let packet := fun i => rxBuffer (c.rxOffset.toNat + i)
  let status := wordAt packet 0
  let len := wordAt packet 2
  let c := c.emit (.printf "rtl8139: rx status=0x%x len=%u off=%u\n"
    [status.toNat, len.toNat, c.rxOffset.toNat])
  if status &&& 0x0001 = 0 then
    (false, (c.emit (.printf "rtl8139: bad rx status\n" [])).write16 regIsr isrRxErr)
  else if len < 4 ∨ len > 1600 then
    (false, (c.emit (.printf "rtl8139: bad rx len\n" [])).write16 regIsr isrRxErr)
  else
    let c := c.emit (.handlePacket (c.rxOffset.toNat + 4) (len.toNat - 4))
    let c := callNet pf card (.packet (fun i => packet (4 + i)) (len.toNat - 4)) c
    let c := { c with rxOffset := nextOffset c.rxOffset len }
    let c := c.write16 regCapr (caprOf c.rxOffset)
    (true, c.write16 regIsr (isrRxOk ||| isrRxErr))

/-- The start of `rtl8139_poll`, up to its loop: the `isr` that it has read, or none if it has
returned. -/
def pollStart (c : Call) : Option UInt16 × Call :=
  if c.ioBase = 0 then (none, c)
  else
    let (cmd, c) := c.read8 card regCmd
    let (isr, c) := c.read16 card regIsr
    if cmd &&& cmdRxEmpty ≠ 0 ∧ isr = 0 then (none, c)
    else
      let (cbr, c) := c.read16 card regCbr
      let (capr, c) := c.read16 card regCapr
      (some isr, c.emit (.printf "rtl8139: poll cmd=0x%x isr=0x%x cbr=0x%x capr=0x%x\n"
        [cmd.toNat, isr.toNat, cbr.toNat, capr.toNat]))

/-- A round of the loop of `rtl8139_poll`, with its condition. -/
def pollRound (c : Call) : Bool × Call :=
  let (cmd, c) := c.read8 card regCmd
  if cmd &&& cmdRxEmpty = 0 then receive pf card (card.rxBuffer c.reads) c else (false, c)

/-- The end of `rtl8139_poll`, after its loop. -/
def pollEnd (isr : UInt16) (c : Call) : Call :=
  if isr &&& (isrTxOk ||| isrTxErr) ≠ 0 then c.write16 regIsr (isrTxOk ||| isrTxErr) else c

/-! ## Initialization -/

/-- `while ((rtl_read8(REG_CMD) & CMD_RESET) != 0 && timeout > 0) { timeout--; }` -/
def waitReset : ℕ → Call → ℕ × Call
  | 0, c => (0, (c.read8 card regCmd).2)
  | timeout + 1, c =>
    let (cmd, c) := c.read8 card regCmd
    if cmd &&& cmdReset ≠ 0 then waitReset timeout c else (timeout + 1, c)

/-- `for (int i = 0; i < 6; ++i) { mac[i] = rtl_read8(REG_MAC0 + i); }` -/
def readMac (c : Call) : Call :=
  (List.range 6).foldl (fun c i =>
    let (b, c) := c.read8 card (regMac0 + UInt16.ofNat i)
    { c with mac := c.mac.setIfInBounds i b }) c

/-- The part of `rtl8139_init` after the reset. -/
def setup (c : Call) : Call :=
  let c := readMac card c
  let c := c.emit (.printf "rtl8139: mac %x:%x:%x:%x:%x:%x\n"
    (c.mac.toList.map fun b => (b.toNat : ℤ)))
  let c := { c with txIndex := 0, rxOffset := 0 }
  let rxPhys := pf.virtToPhys pf.rxBuffer
  let c := c.emit (.printf "rtl8139: rx virt=%p phys=0x%x\n"
    [pf.rxBuffer.toNat, rxPhys.toUInt32.toNat])
  if rxPhys > 0xffffffff then
    let c := c.emit (.printf "rtl8139: rx buffer above 4GiB\n" [])
    { c with ioBase := 0 }
  else
    let c := c.write32 regRxBuf rxPhys.toUInt32
    let c := c.write16 regCapr 0
    let c := c.write16 regIsr 0xffff
    let c := c.write8 regCmd (cmdRxEn ||| cmdTxEn)
    let c := c.write32 regRxConfig (((0 : UInt32) <<< 11) ||| ((0 : UInt32) <<< 13) |||
      ((1 : UInt32) <<< 7) ||| ((1 : UInt32) <<< 3) ||| ((1 : UInt32) <<< 1) |||
      ((1 : UInt32) <<< 0))
    let c := c.write32 regTxConfig 0x03000000
    let c := c.write16 regImr 0x0000
    c.emit (.printf "rtl8139: initialized\n" [])

/-- `rtl8139_init` -/
def init (cfg : Pci.ConfigSpace) (c : Call) : Call :=
  let c := c.emit (.printf "rtl8139: probing...\n" [])
  match Pci.findDevice cfg vendor device with
  | none => { c.emit (.printf "rtl8139: not found\n" []) with ioBase := 0 }
  | some dev =>
    let bar0 := Pci.configRead32 cfg dev.bus dev.slot dev.func 0x10
    if bar0 &&& 1 = 0 then
      { c.emit (.printf "rtl8139: BAR0 is not I/O space\n" []) with ioBase := 0 }
    else
      let c := { c with ioBase := (bar0 &&& ~~~3).toUInt16 }
      let c := c.emit (.printf "rtl8139: found io=0x%x\n" [c.ioBase.toNat])
      let c := c.write8 regConfig1 0x00
      let c := c.write8 regCmd cmdReset
      let (timeout, c) := waitReset card 1000000 c
      if timeout = 0 then
        { c.emit (.printf "rtl8139: reset timeout\n" []) with ioBase := 0 }
      else setup pf card c

/-! ## Runs -/

/-- The driver between two steps, and the `isr` of a call of `rtl8139_poll` that has not
returned. -/
structure State where
  driver : Driver
  polling : Option UInt16

/-- A call, or a round of the loop of `rtl8139_poll`. -/
inductive Input
  | poll
  | round
  | send (data : Option (Mem UInt8)) (len : ℕ)
  | ping
  | udp

def Driver.enter (d : Driver) : Call := { d with events := [] }

/-- A step, and what happens in it. A round belongs to a call of `rtl8139_poll`, and the calls
come one after the other. -/
def exec (s : State) (i : Input) : List Event × State :=
  match s.polling, i with
  | none, .poll =>
    let (polling, c) := pollStart card s.driver.enter
    (c.events, ⟨c.toDriver, polling⟩)
  | some isr, .round =>
    let (goesOn, c) := pollRound pf card s.driver.enter
    if goesOn then (c.events, ⟨c.toDriver, some isr⟩)
    else
      let c := pollEnd isr c
      (c.events, ⟨c.toDriver, none⟩)
  | none, .send data len =>
    let c := send pf card data len s.driver.enter
    (c.events, ⟨c.toDriver, none⟩)
  | none, .ping =>
    let c := callNet pf card .ping s.driver.enter
    (c.events, ⟨c.toDriver, none⟩)
  | none, .udp =>
    let c := callNet pf card .udp s.driver.enter
    (c.events, ⟨c.toDriver, none⟩)
  | _, _ => ([], s)

/-- The state after `rtl8139_init`. -/
def start (cfg : Pci.ConfigSpace) (d : Driver) : State :=
  ⟨(init pf card cfg d.enter).toDriver, none⟩

end Wnu.Rtl8139
