import PS2Bios.Library.EventFlag
import PS2Bios.Library.Run

/-!
# SIO2MAN: the serial interface's service thread and its clients

The pads and the memory cards hang off one serial interface, and one thread drives it
(`serviceThread`). A client claims it for a pad or for a card (`padTransferInit`,
`mcTransferInit`), hands it a descriptor (`doTransfer`) and gets the reply in the descriptor. All
they have in common is an event flag of eight bits and the pointer `transfer`; the bit `finished`
is the interrupt's.

Each of the source's calls on the flag is one action here, and so is what stands between two of
them. The clients are threads of any number, and what they do with the interface between their
calls is of no account. A transfer is on the interface from the write that starts it to the
interrupt that ends it; what the interface answers is up to the outside.
-/

namespace PS2Bios.Sio2man

open EventFlag

/-- The event flag's eight bits. -/
inductive Bit
  | padRequest | padAck | mcRequest | mcAck | run | done | release | finished
  deriving DecidableEq, Repr

/-- The bit's mask in the event flag's word. -/
def Bit.mask : Bit → BitVec 32
  | padRequest => 0x01
  | padAck => 0x02
  | mcRequest => 0x04
  | mcAck => 0x08
  | run => 0x10
  | done => 0x20
  | release => 0x40
  | finished => 0x80

/-- What a client claims the interface for. -/
inductive Kind
  | pad | mc
  deriving DecidableEq, Repr

/-- The bit a client of the kind asks with. -/
def Kind.request : Kind → Bit
  | pad => .padRequest
  | mc => .mcRequest

/-- The bit a client of the kind is answered with. -/
def Kind.ack : Kind → Bit
  | pad => .padAck
  | mc => .mcAck

/-! ### Descriptors and registers -/

/-- What one direction of a transfer takes by DMA: nothing where the address is nought. -/
structure DmaArgument where
  address : ℕ
  size : ℕ
  count : ℕ
  deriving DecidableEq, Repr

/-- What a caller hands to `doTransfer`; `input` and `output` are the bytes `in` and `out` point
at. -/
structure TransferData where
  stat6c : ℕ
  portCtrl1 : ℕ → ℕ
  portCtrl2 : ℕ → ℕ
  stat70 : ℕ
  regdata : ℕ → ℕ
  stat74 : ℕ
  inSize : ℕ
  outSize : ℕ
  input : ℕ → UInt8
  output : ℕ → UInt8
  inDma : DmaArgument
  outDma : DmaArgument

/-- The channel that carries to the interface. -/
def kDmaIn : ℕ := 11

/-- The channel that carries from the interface. -/
def kDmaOut : ℕ := 12

/-- What the control register is first set to. -/
def kInitialControl : ℕ := 0x3BC

/-- The control bits or-ed in before a transfer is set up. -/
def kControlPrepare : ℕ := 0xC

/-- The control bit that starts it. -/
def kControlStart : ℕ := 0x1

/-! Register indices. The two byte registers are the interface's queues. -/

/-- The first of the sixteen words that describe a transfer's parts. -/
def kRegData : ℕ := 0

/-- The first control word of the first port; the ports alternate. -/
def kPortCtrl1 : ℕ := 16

/-- The control register. -/
def kCtrl : ℕ := 26

/-- The status register at 0x6C. -/
def kStat6c : ℕ := 27

/-- The status register at 0x70. -/
def kStat70 : ℕ := 28

/-- The status register at 0x74. -/
def kStat74 : ℕ := 29

/-- The interface: its registers, the bytes it was given and has to give, and the channels that
were started for it, with their directions. -/
structure Device where
  reg : ℕ → ℕ
  sent : List UInt8
  received : List UInt8
  dma : List (ℕ × DmaArgument × ℕ)

namespace Device

/-- A register of the interface written. -/
def set (d : Device) (index value : ℕ) : Device :=
  { d with reg := Function.update d.reg index value }

/-- Bits or-ed into the control register. -/
def ctrlOr (d : Device) (value : ℕ) : Device := d.set kCtrl (d.reg kCtrl ||| value)

/-- `portCtrl1Set`: a port that is not there is left alone. -/
def portCtrl1Set (d : Device) (port value : ℕ) : Device :=
  if port < 4 then d.set (kPortCtrl1 + port * 2) value else d

/-- `regSet`: an index past the sixteen is left alone. -/
def regSet (d : Device) (index value : ℕ) : Device :=
  if index < 16 then d.set (kRegData + index) value else d

/-- A byte into the interface's queue. -/
def dataOut (d : Device) (value : UInt8) : Device := { d with sent := d.sent ++ [value] }

/-- A channel started, unless the argument's address is nought. -/
def startDma (d : Device) (channel : ℕ) (arg : DmaArgument) (direction : ℕ) : Device :=
  if arg.address ≠ 0 then { d with dma := d.dma ++ [(channel, arg, direction)] } else d

/-- Push the caller's registers and bytes, and start the channels it asked for. `portCtrl2` is not
pushed. -/
def pushTransfer (d : Device) (td : TransferData) : Device :=
  let d := (List.range 4).foldl (fun d port => d.portCtrl1Set port (td.portCtrl1 port)) d
  let d := (List.range 16).foldl (fun d index => d.regSet index (td.regdata index)) d
  let d := (List.range td.inSize).foldl (fun d k => d.dataOut (td.input k)) d
  (d.startDma kDmaIn td.inDma 1).startDma kDmaOut td.outDma 0

/-- The status and the bytes that came back; a byte that is not there reads as zero. -/
def harvestTransfer (d : Device) (td : TransferData) : TransferData × Device :=
  ({ td with
      stat6c := d.reg kStat6c
      stat70 := d.reg kStat70
      stat74 := d.reg kStat74
      output := fun k => if k < td.outSize then d.received.getD k 0 else td.output k },
    { d with received := d.received.drop td.outSize })

end Device

/-- What a transfer ends with: the three status words, and the bytes to read. -/
structure Reply where
  stat6c : ℕ
  stat70 : ℕ
  stat74 : ℕ
  bytes : List UInt8

/-- The interface once a transfer has ended: the start bit reads back clear. -/
def Device.finish (d : Device) (r : Reply) : Device :=
  let d := d.set kCtrl (d.reg kCtrl &&& (0xFFFFFFFF - kControlStart))
  { ((d.set kStat6c r.stat6c).set kStat70 r.stat70).set kStat74 r.stat74 with received := r.bytes }

/-- A reply stored in a descriptor. -/
def TransferData.stored (td : TransferData) (r : Reply) : TransferData :=
  { td with
    stat6c := r.stat6c
    stat70 := r.stat70
    stat74 := r.stat74
    output := fun k => if k < td.outSize then r.bytes.getD k 0 else td.output k }

/-! ### The threads -/

/-- Where the service thread is: before the call named. -/
inductive ServerPc
  | waitRequest
  | woken (result : BitVec 32)
  | acking (k : Kind)
  | waitRun
  | clearRun
  | push
  | start
  | waitFinished
  | clearFinished
  | harvest
  | setDone
  | waitRelease
  | clearRelease
  | exited
  deriving DecidableEq

/-- Where a client is: before the call named, or with the interface claimed. `leaving` is inside
the last call of `doTransfer`, with its bit set. -/
inductive ClientPc
  | idle
  | request (k : Kind)
  | waitAck (k : Kind)
  | clearAck (k : Kind)
  | claimed (k : Kind)
  | give (k : Kind) (td : ℕ)
  | setRun (k : Kind) (td : ℕ)
  | waitDone (k : Kind) (td : ℕ)
  | clearDone (k : Kind) (td : ℕ)
  | setRelease (k : Kind) (td : ℕ)
  | leaving (k : Kind) (td : ℕ)
  deriving DecidableEq

/-- What happens to the interface: a client hands over the descriptor at an address, what is there
is pushed, a transfer ends, and its reply is stored. -/
inductive Event
  | called (client td : ℕ) (data : TransferData)
  | pushed (td : ℕ) (data : TransferData)
  | finished (r : Reply)
  | stored (td : ℕ) (data : TransferData)

/-- Everything but the flag: `memory` is the descriptors by address, `running` that a transfer is
on the interface, `log` what happened to it so far. -/
structure Serial where
  server : ServerPc
  client : ℕ → ClientPc
  transfer : ℕ
  memory : ℕ → TransferData
  device : Device
  running : Bool
  log : List Event

namespace Serial

/-- The server at a place of its program. -/
def goServer (pc : ServerPc) (x : Serial) : Serial := { x with server := pc }

/-- One client at a place of its program. -/
def goClient (n : ℕ) (pc : ClientPc) (x : Serial) : Serial :=
  { x with client := Function.update x.client n pc }

/-- Something that happened, noted in the log. -/
def record (e : Event) (x : Serial) : Serial := { x with log := x.log ++ [e] }

/-- `ctrlSet(ctrlGet() | kControlPrepare); pushTransfer(*transfer);` -/
def pushed (x : Serial) : Serial :=
  { x with device := (x.device.ctrlOr kControlPrepare).pushTransfer (x.memory x.transfer) }.record
    (.pushed x.transfer (x.memory x.transfer))

/-- `ctrlSet(ctrlGet() | kControlStart);` -/
def started (x : Serial) : Serial :=
  { x with device := x.device.ctrlOr kControlStart, running := true }

/-- `harvestTransfer(*transfer);` -/
def harvested (x : Serial) : Serial :=
  let r := x.device.harvestTransfer (x.memory x.transfer)
  { x with memory := Function.update x.memory x.transfer r.1, device := r.2 }.record
    (.stored x.transfer r.1)

/-- `transfer = td;` -/
def given (n td : ℕ) (x : Serial) : Serial :=
  { x with transfer := td }.record (.called n td (x.memory td))

end Serial

open Serial

/-- Which request the service thread answers. -/
def answered (result : BitVec 32) : Option Kind :=
  if result &&& Bit.mask .padRequest ≠ 0 then some .pad
  else if result &&& Bit.mask .mcRequest ≠ 0 then some .mc
  else none

/-- The service thread. -/
def serviceThread : ServerPc → Option (Action Serial)
  | .waitRequest => some (.wait (Bit.mask .padRequest ||| Bit.mask .mcRequest) true fun result =>
      goServer (.woken result))
  | .woken result =>
    match answered result with
    | some k => some (.clear (~~~k.request.mask) (goServer (.acking k)))
    | none => some (.act (goServer .exited))
  | .acking k => some (.set k.ack.mask (goServer .waitRun))
  | .waitRun => some (.wait (Bit.mask .run) false fun _ => goServer .clearRun)
  | .clearRun => some (.clear (~~~Bit.mask .run) (goServer .push))
  | .push => some (.act fun x => goServer .start x.pushed)
  | .start => some (.act fun x => goServer .waitFinished x.started)
  | .waitFinished => some (.wait (Bit.mask .finished) false fun _ => goServer .clearFinished)
  | .clearFinished => some (.clear (~~~Bit.mask .finished) (goServer .harvest))
  | .harvest => some (.act fun x => goServer .setDone x.harvested)
  | .setDone => some (.set (Bit.mask .done) (goServer .waitRelease))
  | .waitRelease => some (.wait (Bit.mask .release) false fun _ => goServer .clearRelease)
  | .clearRelease => some (.clear (~~~Bit.mask .release) (goServer .waitRequest))
  | .exited => none

/-- `claim` and `doTransfer`, as the client `n` goes through them. -/
def clientThread (n : ℕ) : ClientPc → Option (Action Serial)
  | .idle => none
  | .request k => some (.set k.request.mask (goClient n (.waitAck k)))
  | .waitAck k => some (.wait k.ack.mask false fun _ => goClient n (.clearAck k))
  | .clearAck k => some (.clear (~~~k.ack.mask) (goClient n (.claimed k)))
  | .claimed _ => none
  | .give k td => some (.act fun x => goClient n (.setRun k td) (x.given n td))
  | .setRun k td => some (.set (Bit.mask .run) (goClient n (.waitDone k td)))
  | .waitDone k td => some (.wait (Bit.mask .done) false fun _ => goClient n (.clearDone k td))
  | .clearDone k td => some (.clear (~~~Bit.mask .done) (goClient n (.setRelease k td)))
  | .setRelease k td => some (.set (Bit.mask .release) (goClient n (.leaving k td)))
  | .leaving _ _ => some (.act (goClient n .idle))

/-- The threads: the server and the clients that ask it. -/
inductive Tid
  | server
  | client (n : ℕ)
  deriving DecidableEq

/-- What else happens: a client begins a claim, or begins a transfer with a descriptor it has
filled in, or a transfer ends and the interrupt says so. -/
inductive Happening
  | claim (n : ℕ) (k : Kind)
  | transfer (n td : ℕ) (data : TransferData)
  | finish (r : Reply)

/-- The interface with its service thread and any number of clients. -/
def serial : System Tid Serial Happening where
  action
    | .server, x => serviceThread x.server
    | .client n, x => clientThread n (x.client n)
  event
    | .claim n k, x =>
      match x.client n with
      | .idle => some (x.goClient n (.request k), 0)
      | _ => none
    | .transfer n td data, x =>
      match x.client n with
      | .claimed k =>
        some ({ x with memory := Function.update x.memory td data }.goClient n (.give k td), 0)
      | _ => none
    | .finish r, x =>
      if x.running then
        some ({ x with device := x.device.finish r, running := false }.record (.finished r),
          Bit.mask .finished)
      else none

/-- The module has been started, its service thread is about to wait, and nobody has called. -/
def start (memory : ℕ → TransferData) (device : Device) : State Tid Serial where
  bits := 0
  rest :=
    { server := .waitRequest
      client := fun _ => .idle
      transfer := 0
      memory := memory
      device := device.set kCtrl kInitialControl
      running := false
      log := [] }
  waiters := []
  walk := fun _ => none

end PS2Bios.Sio2man
