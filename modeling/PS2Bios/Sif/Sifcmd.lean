import PS2Bios.Sif.SendRing

/-!
# SIFCMD: the packets it builds

Every packet of SIFCMD's own, an END or a SET_SREG, is built in the one buffer `outgoing` and
handed to SIFMAN as a transfer out of that buffer. The handler of arriving packets (`servePacket`)
does both at a stroke. A queue's thread that answers a call (`answerCall`) stores the packet word
by word and hands it over when it is done, and may be interrupted, or lose the processor, between
any two of these steps. The channel reads the words of a run it is on one by one, from IOP memory
as it is at that time.

What `answerCall` reads of the server's record, the function's answer and the server that
`findServer` finds are whatever they are (`Answer`, `Packet`). All other memory may change at any
time, and other modules queue runs of their own.
-/

namespace PS2Bios.Sif

/-- The packet that says where the other side's buffer is. -/
def kCidChangeAddress : UInt32 := 0x80000000

/-- The packet that sets a register of the other side. -/
def kCidSetSreg : UInt32 := 0x80000001

/-- The packet that starts the command layer. -/
def kCidInitCmd : UInt32 := 0x80000002

/-- The packet that ends a call. -/
def kCidRpcEnd : UInt32 := 0x80000008

/-- The packet that asks for a server. -/
def kCidRpcBind : UInt32 := 0x80000009

/-- The packet that calls one. -/
def kCidRpcCall : UInt32 := 0x8000000A

/-- Where the linker put `outgoing`: in the half of the address space that `kTagEnd` is not part
of, as all IOP memory is. -/
structure Layout where
  outgoing : UInt32
  physical : outgoing &&& 0x7FFFFFFF = outgoing

/-- The word `outgoing[i]`. -/
def Layout.word (L : Layout) (i : ℕ) : UInt32 := L.outgoing + UInt32.ofNat (4 * i)

/-- The memory, a word at each address. -/
abbrev Memory := UInt32 → UInt32

/-- One transfer of `words` words, ending the EE's channel when it is the last of its run. -/
def describeTransfer (src words destination : UInt32) (endsEeChannel : Bool) : Transfer where
  src := src
  dest := destination
  size := words * 4
  attr := if endsEeChannel then kAttrEndEe else 0

/-- The client's words, which every request carries and its answer hands back. -/
structure Request where
  recId : UInt32
  pktAddr : UInt32
  rpcId : UInt32
  client : UInt32
deriving Repr, DecidableEq

/-- The words of an END packet. A null `server` is an answer that names none. -/
def fillEnd (request : Request) (cid server buffer : UInt32) : List UInt32 :=
  let buffer := if server ≠ 0 then buffer else 0
  [48, 0, kCidRpcEnd, 0, request.recId, request.pktAddr, request.rpcId, request.client, cid,
    server, buffer, buffer]

/-- The words of a SET_SREG packet. -/
def setSreg (index value : UInt32) : List UInt32 := [24, 0, kCidSetSreg, 0, index, value]

/-- A packet as it has landed in `receive`, and the record and buffer of the server a bind asks
for, `0` for none. -/
structure Packet where
  cid : UInt32
  opt : UInt32
  body : ℕ → UInt32
  server : UInt32
  buffer : UInt32

/-- What `answerCall` finds: its function's answer, and what it reads of the server's record. -/
structure Answer where
  answer : UInt32
  receive : UInt32
  receiveSize : UInt32
  mode : UInt32
  request : Request
  server : UInt32
  buffer : UInt32

/-- Where a queue's thread is in `answerCall`, if it has come so far as to send something. -/
inductive Progress
  /-- It is not sending. -/
  | elsewhere
  /-- It has stored the first `stored` words of the packet. -/
  | filling (packet : List UInt32) (stored : ℕ) (data : Option Transfer)
  /-- Its run is described; `packet` is the packet in `outgoing`, if it carries one. -/
  | described (run : List Transfer) (packet : Option (List UInt32))
deriving Repr, DecidableEq

/-- A block that has arrived at the EE. If it is one that was to carry a packet of SIFCMD's own,
`packet` is what was filled in for it. -/
structure Delivery where
  destination : UInt32
  words : List UInt32
  packet : Option (List UInt32)
deriving Repr, DecidableEq

/-- The command layer's shared buffer with the ring and channel under it. -/
structure Bus where
  memory : Memory
  sifman : Sifman
  eePacketBuffer : UInt32
  thread : ℕ → Progress
  /-- How many blocks of its run the channel is done with. -/
  block : ℕ
  /-- What the channel has read of the next one. -/
  read : List UInt32
  /-- For an observer only: the packet each queued run was filled in to carry. -/
  carried : List (Option (List UInt32))

/-- SIFCMD before its first packet, over whatever memory holds. -/
def Bus.start (memory : Memory) : Bus :=
  ⟨memory, Sifman.start, 0, fun _ => .elsewhere, 0, [], []⟩

namespace Bus

/-- SIFMAN is handed a run; `packet` is what its last block was filled in to carry. -/
def enqueue (b : Bus) (list : ℕ → Transfer) (count function arg : UInt32)
    (packet : Option (List UInt32)) : Bus :=
  let o := b.sifman.queueTransfers list count function arg
  { b with
    sifman := o.state
    carried := if o.answer = 1 then b.carried ++ [packet] else b.carried }

/-- A run handed to SIFMAN, the packet in it named. -/
def setDma (b : Bus) (run : List Transfer) (packet : Option (List UInt32)) : Bus :=
  b.enqueue (fun k => run.getD k ⟨0, 0, 0, 0⟩) (UInt32.ofNat run.length) 0 0 packet

/-- A word of the shared buffer stored. -/
def store (L : Layout) (b : Bus) (i : ℕ) (word : UInt32) : Bus :=
  { b with memory := Function.update b.memory (L.word i) word }

/-- Store words of `outgoing` from the `i`th on. -/
def storeAll (L : Layout) (b : Bus) (i : ℕ) : List UInt32 → Bus
  | [] => b
  | word :: words => storeAll L (b.store L i word) (i + 1) words

/-- Build a packet in `outgoing` and queue it, without leaving the handler. -/
def sendPacket (L : Layout) (b : Bus) (packet : List UInt32) : Bus :=
  if b.eePacketBuffer = 0 then b
  else
    (b.storeAll L 0 packet).setDma
      [describeTransfer L.outgoing (UInt32.ofNat packet.length) b.eePacketBuffer true] (some packet)

/-- `sendSetSreg`: the register's packet is filled in and sent. -/
def sendSetSreg (L : Layout) (b : Bus) (index value : UInt32) : Bus :=
  b.sendPacket L (setSreg index value)

/-- `serveBind`: the answer is filled in and sent at once. -/
def serveBind (L : Layout) (b : Bus) (request : Request) (server buffer : UInt32) : Bus :=
  b.sendPacket L (fillEnd request kCidRpcBind server buffer)

/-- The receiving channel's interrupt. A call is kept for its server's thread, and a command of
another module's is handed to it: neither sends anything here. -/
def servePacket (L : Layout) (b : Bus) (p : Packet) : Bus :=
  if p.cid = kCidInitCmd then
    if p.opt = 0 then { b with eePacketBuffer := p.body 0 } else b.sendSetSreg L 0 1
  else if p.cid = kCidChangeAddress then { b with eePacketBuffer := p.body 0 }
  else if p.cid = kCidRpcBind then
    b.serveBind L ⟨p.body 0, p.body 1, p.body 2, p.body 3⟩ p.server p.buffer
  else b

/-- The packet `servePacket` is going to build. -/
def builds? (b : Bus) (p : Packet) : Option (List UInt32) :=
  if b.eePacketBuffer = 0 then none
  else if p.cid = kCidInitCmd then if p.opt = 0 then none else some (setSreg 0 1)
  else if p.cid = kCidChangeAddress then none
  else if p.cid = kCidRpcBind then
    some (fillEnd ⟨p.body 0, p.body 1, p.body 2, p.body 3⟩ kCidRpcBind p.server p.buffer)
  else none

/-- How far a server's thread is with its answer. -/
def setThread (b : Bus) (t : ℕ) (progress : Progress) : Bus :=
  { b with thread := Function.update b.thread t progress }

/-- The block that carries the function's answer, when there is one to carry. -/
def dataOf (a : Answer) : Option Transfer :=
  if a.answer ≠ 0 ∧ a.receive ≠ 0 ∧ a.receiveSize ≠ 0 then
    some (describeTransfer a.answer ((a.receiveSize + 3) / 4) a.receive (a.mode = 0))
  else none

/-- The server's function has returned. -/
def answerCall (b : Bus) (t : ℕ) (a : Answer) : Bus :=
  if b.eePacketBuffer = 0 then b
  else if a.mode ≠ 0 then
    b.setThread t (.filling (fillEnd a.request kCidRpcCall a.server a.buffer) 0 (dataOf a))
  else
    match dataOf a with
    | some data => b.setThread t (.described [data] none)
    | none => b

end Bus

/-- What can happen next. -/
inductive BusEvent
  /-- A packet has arrived. -/
  | packet (p : Packet)
  /-- A server's function returns, on the thread of a queue. -/
  | answer (t : ℕ) (a : Answer)
  /-- A thread stores the next word of its packet. -/
  | store (t : ℕ)
  /-- A thread that has stored its packet describes its run. -/
  | describe (t : ℕ)
  /-- A thread hands its run over. -/
  | queue (t : ℕ)
  /-- Another module hands over a run. -/
  | send (list : ℕ → Transfer) (count function arg : UInt32)
  /-- Other memory changes. -/
  | write (address value : UInt32)
  /-- The channel reads a word. -/
  | read
  /-- The channel has read a block whole. -/
  | deliver
  /-- The channel's interrupt is served. -/
  | interrupt

namespace Bus

/-- The memory address of a block, which is its address word less the tag. -/
def source (block : SendBlock) : UInt32 := block.address &&& 0x7FFFFFFF

/-- What one event does, with the packets it made arrive. -/
def step (L : Layout) (b : Bus) : BusEvent → Option (List Delivery × Bus)
  | .packet p => some ([], b.servePacket L p)
  | .answer t a =>
    match b.thread t with
    | .elsewhere => some ([], b.answerCall t a)
    | _ => none
  | .store t =>
    match b.thread t with
    | .filling packet stored data =>
      match packet[stored]? with
      | some word => some ([], (b.store L stored word).setThread t
          (.filling packet (stored + 1) data))
      | none => none
    | _ => none
  | .describe t =>
    match b.thread t with
    | .filling packet stored data =>
      if stored = packet.length then
        some ([], b.setThread t (.described (data.toList ++
          [describeTransfer L.outgoing (UInt32.ofNat packet.length) b.eePacketBuffer true])
          (some packet)))
      else none
    | _ => none
  | .queue t =>
    match b.thread t with
    | .described run packet => some ([], (b.setDma run packet).setThread t .elsewhere)
    | _ => none
  | .send list count function arg => some ([], b.enqueue list count function arg none)
  | .write address value =>
    if ∀ i ∈ List.range 16, address ≠ L.word i then
      some ([], { b with memory := Function.update b.memory address value })
    else none
  | .read =>
    match b.sifman.channel with
    | .running slot =>
      let block := (b.sifman.sendQueue slot).blocks b.block
      if b.read.length < block.words.toNat then
        some ([], { b with
          read := b.read ++ [b.memory (source block + UInt32.ofNat (4 * b.read.length))] })
      else none
    | _ => none
  | .deliver =>
    match b.sifman.channel with
    | .running slot =>
      let group := b.sifman.sendQueue slot
      let block := group.blocks b.block
      if b.read.length = block.words.toNat then
        -- only the last block of a run carries a packet
        let packet := if b.block + 1 = group.count.toNat then b.carried.headD none else none
        let delivery := Delivery.mk block.destination b.read packet
        if block.address &&& kTagEnd ≠ 0 then
          some ([delivery], { b with
            sifman := { b.sifman with channel := .finished slot }
            block := 0
            read := [] })
        else some ([delivery], { b with block := b.block + 1, read := [] })
      else none
    | _ => none
  | .interrupt =>
    match b.sifman.channel with
    | .finished _ =>
      some ([], { b with
        sifman := (Sifman.sendFinished { b.sifman with channel := .idle }).state
        carried := b.carried.tail })
    | _ => none

end Bus

end PS2Bios.Sif
