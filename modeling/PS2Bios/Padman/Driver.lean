import PS2Bios.Library.Interference

/-!
# PADMAN: the driver thread

What the driver thread of `src/iop/padman.cpp` does of one vertical blank, as a program over the
port's fields. The thread that serves the client's requests preempts it, so each access to a field
is a question of its own, between any two of which a request may be served: `port` reads one field
of the port, `set` writes one. The reply of the controller is the driver's own, and read at once.

Three accesses are set apart, for what a request in their place would do: `judge` is the comparison
of a poll's reply with the port's id, `validate` the store of `port.valid = true` it leads to, and
`counter` and `count` are the load of `port.frame` a record is made of and the store behind it.
-/

namespace PS2Bios.Padman

/-- The second control word of a port, for the first probe of the id only. -/
def kCtrl2Probe : UInt32 := 0x0002000A

/-- The second control word of a port, for every other transfer. -/
def kCtrl2 : UInt32 := 0x00020014

/-- The status bit of a batch that failed. -/
def kStatusBatchFailed : UInt32 := (1 : UInt32) <<< 13

/-- The status bit of a port that did not answer, for the first port. -/
def kStatusPortFailed : UInt32 := (1 : UInt32) <<< 16

/-- The id a controller answers with in its configuration mode. -/
def kIdConfig : UInt8 := 0xF3

/-- The byte behind the id in every whole reply. -/
def kReplyMagic : UInt8 := 0x5A

/-- The attempts a port is given before it is taken to have failed. -/
def kRetries : UInt32 := 10

/-- The bytes of one record of the area the client reads. -/
def kRecordBytes : ℕ := 0x40

/-- `kConfigFrames`. -/
def kConfigFrames : List (List UInt8) :=
  [[0x01, 0x45, 0x00, 0x5A, 0x5A, 0x5A, 0x5A, 0x5A, 0x5A],
   [0x01, 0x46, 0x00, 0x00, 0x5A, 0x5A, 0x5A, 0x5A, 0x5A],
   [0x01, 0x47, 0x00, 0x00, 0x5A, 0x5A, 0x5A, 0x5A, 0x5A],
   [0x01, 0x4C, 0x00, 0x00, 0x5A, 0x5A, 0x5A, 0x5A, 0x5A],
   [0x01, 0x41, 0x00, 0x5A, 0x5A, 0x5A, 0x5A, 0x5A, 0x5A],
   [0x01, 0x43, 0x00, 0x00, 0x5A, 0x5A, 0x5A, 0x5A, 0x5A]]

/-- How many frames the configuration takes. -/
def kConfigFrameCount : ℕ := 6

/-- The configuration frame whose reply has the model. -/
def kFrameModel : ℕ := 0

/-- The configuration frame whose reply has the mask of buttons. -/
def kFrameMask : ℕ := kConfigFrameCount - 2

/-- The configuration frame that leaves the mode. -/
def kFrameExit : ℕ := kConfigFrameCount - 1

/-- The slot state of a port nothing answers at. -/
def kSlotSilent : UInt8 := 0

/-- The slot state of a controller that has no configuration mode. -/
def kSlotPlain : UInt8 := 2

/-- The slot state while the configuration is under way. -/
def kSlotHandshake : UInt8 := 5

/-- The slot state of a controller that went through the configuration. -/
def kSlotConfigured : UInt8 := 6

/-- The slot state of a controller that stopped answering on the way. -/
def kSlotFailed : UInt8 := 7

/-- The frame that reads the buttons. -/
def kPollFrame : List UInt8 := [0x01, 0x42, 0x00, 0x00, 0x00]

/-- The frame that enters the configuration mode. -/
def kEnterConfigFrame : List UInt8 := [0x01, 0x43, 0x00, 0x01, 0x00]

/-- How far the driver has come with a controller. -/
inductive Stage
  | ProbeId
  | EnterConfig
  | ConfigFrames
  | ReprobeId
  | Poll
  deriving DecidableEq

/-- `Port`, but for `open`, which a blank only looks at when it begins. -/
structure Port where
  ee_address : UInt32
  frame : UInt32
  stage : Stage
  frame_index : ℕ
  attempts : UInt32
  id : UInt8
  model : UInt8
  configurable : UInt8
  slot_state : UInt8
  errors : UInt8
  valid : Bool
  reply : ℕ → UInt8
  reply_length : ℕ
  status_bit : UInt8

/-- The fields an accepted open writes. -/
def Port.reset (p : Port) (address : UInt32) : Port :=
  { p with
    ee_address := address
    frame := 0
    stage := .ProbeId
    frame_index := 0
    attempts := 0
    id := 0
    model := 0
    configurable := 0
    slot_state := kSlotSilent
    errors := 0
    valid := false
    status_bit := 0 }

/-- What an exchange is for. -/
inductive Purpose
  | probe
  | configure
  | poll
  deriving DecidableEq

/-- What SIO2MAN leaves of a transfer: the status word and the bytes received. -/
structure Reply where
  stat6c : UInt32
  out : ℕ → UInt8

/-- Whether the batch and the port both answered. -/
def Reply.good (r : Reply) : Bool :=
  r.stat6c &&& (kStatusBatchFailed ||| kStatusPortFailed) = 0

/-- A record, by its offsets. -/
abbrev Record := ℕ → UInt8

/-- What the driver thread asks of its surroundings. -/
inductive Op
  | stat70
  | port
  | set (f : Port → Port)
  | frame (index : ℕ)
  | transfer (purpose : Purpose) (bytes : List UInt8) (ctrl2 : UInt32)
  | judge
  | validate
  | close
  | counter
  | send (dest : UInt32) (record : Record)
  | count (frame : UInt32)

/-- What it is replied. `send` is told whether SIFMAN took the transfer. -/
abbrev Op.Answer : Op → Type
  | .stat70 => UInt32
  | .port => Port
  | .set _ => Unit
  | .frame _ => List UInt8
  | .transfer _ _ _ => Reply
  | .judge => Bool
  | .validate => Unit
  | .close => Unit
  | .counter => UInt32
  | .send _ _ => Bool
  | .count _ => Unit

/-- A piece of the driver's program, which performs `Op`s and reads their answers. -/
abbrev Driver := Prog Op.Answer

namespace Driver

/-- Read the interface's status word. -/
def stat70 : Driver UInt32 := Prog.op Op.stat70

/-- Read the port's record. -/
def port : Driver Port := Prog.op Op.port

/-- Change the port's record. -/
def set (f : Port → Port) : Driver Unit := Prog.op (Op.set f)

/-- Read one of the configuration frames. -/
def frame (index : ℕ) : Driver (List UInt8) := Prog.op (Op.frame index)

/-- Send a frame to the controller, and read what it replied. -/
def transfer (purpose : Purpose) (bytes : List UInt8) (ctrl2 : UInt32) : Driver Reply :=
  Prog.op (Op.transfer purpose bytes ctrl2)

/-- Ask whether the reply is that of the id the port is known by. -/
def judge : Driver Bool := Prog.op Op.judge

/-- Store that the record is valid. -/
def validate : Driver Unit := Prog.op Op.validate

/-- Close the port. -/
def close : Driver Unit := Prog.op Op.close

/-- Read the count of the records sent. -/
def counter : Driver UInt32 := Prog.op Op.counter

/-- Queue a record for the client's memory; false where the transfer was not taken. -/
def send (dest : UInt32) (record : Record) : Driver Bool :=
  Prog.op (Op.send dest record)

/-- Store the count of the records sent. -/
def count (frame : UInt32) : Driver Unit := Prog.op (Op.count frame)

end Driver

open Driver

/-- The reply's bytes go to the port's, as many as were sent. -/
def Port.received (p : Port) (length : ℕ) (r : Reply) : Port :=
  { p with reply := fun i => if i < length then r.out i else p.reply i }

/-- `exchange`. -/
def exchange (purpose : Purpose) (bytes : List UInt8) (ctrl2 : UInt32) : Driver Bool := do
  let r ← transfer purpose bytes ctrl2
  set fun p => { p with reply_length := bytes.length }
  set fun p => p.received bytes.length r
  return r.good

/-- `answered`. -/
def Port.answered (p : Port) (expected_id : UInt8) : Bool :=
  p.reply 2 = kReplyMagic ∧ p.reply 1 = expected_id

/-- What is no controller's reply to a probe. -/
def Port.silent (p : Port) : Bool := p.reply 1 = 0 ∨ p.reply 2 ≠ kReplyMagic

/-- `advance` in the stage `ProbeId`. -/
def probeId : Driver Unit := do
  set fun p => { p with slot_state := kSlotSilent }
  let good ← exchange .probe kPollFrame kCtrl2Probe
  let p ← port
  if !good || p.silent then return
  set fun q => { q with id := p.reply 1 }
  set fun p => { p with slot_state := kSlotHandshake }
  set fun p => { p with attempts := 0 }
  set fun p => { p with stage := .EnterConfig }

/-- In the stage `EnterConfig`. -/
def enterConfig : Driver Unit := do
  let good ← exchange .configure kEnterConfigFrame kCtrl2
  if good then
    set fun p => { p with configurable := 2 }
    set fun p => { p with frame_index := 0 }
    set fun p => { p with attempts := 0 }
    set fun p => { p with stage := .ConfigFrames }
  else
    let attempts := (← port).attempts + 1
    set fun p => { p with attempts }
    if kRetries ≤ attempts then
      set fun p => { p with configurable := 1 }
      set fun p => { p with stage := .Poll }

/-- In the stage `ConfigFrames`, when the frame has not been answered. -/
def configFailed : Driver Unit := do
  let attempts := (← port).attempts + 1
  set fun p => { p with attempts }
  if kRetries ≤ attempts then
    set fun p => { p with id := 0 }
    set fun p => { p with stage := .ProbeId }

/-- The model byte is in the reply to the first frame. -/
def keepModel : Driver Unit := do
  if (← port).frame_index = kFrameModel then
    let p ← port
    set fun q => { q with model := p.reply 3 }

/-- The frame behind the one that has been answered. -/
def nextFrame : Driver Unit := do
  let index := (← port).frame_index + 1
  set fun p => { p with frame_index := index }
  if (← port).frame_index = kFrameMask then
    if (← port).model &&& 2 = 0 then
      let index := (← port).frame_index + 1
      set fun p => { p with frame_index := index }

/-- And when it has. -/
def configAnswered : Driver Unit := do
  set fun p => { p with attempts := 0 }
  keepModel
  if (← port).frame_index = kFrameExit then
    set fun p => { p with stage := .ReprobeId }
  else nextFrame

/-- In the stage `ConfigFrames`. -/
def configFrames : Driver Unit := do
  let bytes ← frame (← port).frame_index
  let good ← exchange .configure bytes kCtrl2
  let p ← port
  if good && p.answered kIdConfig then configAnswered else configFailed

/-- In the stage `ReprobeId`. -/
def reprobeId : Driver Unit := do
  let good ← exchange .probe kPollFrame kCtrl2
  let p ← port
  if !good || p.silent then
    set fun p => { p with id := 0 }
    set fun p => { p with stage := .ProbeId }
  else
    set fun q => { q with id := p.reply 1 }
    set fun p => { p with stage := .Poll }

/-- In the stage `Poll`, when the transfer has failed. -/
def pollFailed : Driver Unit := do
  set fun p => { p with valid := false }
  set fun p => { p with slot_state := kSlotFailed }
  let errors := (← port).errors + 1
  set fun p => { p with errors }
  if kRetries ≤ errors.toUInt32 then
    set fun p => { p with errors := 0 }
    set fun p => { p with id := 0 }
    set fun p => { p with stage := .ProbeId }

/-- When the reply is not the controller's. -/
def pollStrange : Driver Unit := do
  set fun p => { p with valid := false }
  set fun p => { p with slot_state := kSlotHandshake }
  set fun p => { p with id := 0 }
  set fun p => { p with stage := .ProbeId }

/-- In the stage `Poll`. -/
def poll : Driver Unit := do
  let good ← exchange .poll kPollFrame kCtrl2
  if !good then pollFailed
  else
    set fun p => { p with errors := 0 }
    if ← judge then
      validate
      let configurable := (← port).configurable
      set fun p => { p with
        slot_state := if configurable = 2 then kSlotConfigured else kSlotPlain }
    else pollStrange

/-- `advance`. -/
def advance : Driver Unit := do
  match (← port).stage with
  | .ProbeId => probeId
  | .EnterConfig => enterConfig
  | .ConfigFrames => configFrames
  | .ReprobeId => reprobeId
  | .Poll => poll

/-! ### The record -/

/-- A byte of the record stored. -/
def put (r : Record) (offset : ℕ) (x : UInt8) : Record := Function.update r offset x

/-- The bytes of a word, lowest first. -/
def byteOf (x : UInt32) (i : ℕ) : UInt8 := (x >>> UInt32.ofNat (8 * i)).toUInt8

/-- The counter, at the beginning of a cleared record. -/
def counted (frame : UInt32) : Record :=
  put (put (put (put (fun _ => 0) 0x00 (byteOf frame 0)) 0x01 (byteOf frame 1))
    0x02 (byteOf frame 2)) 0x03 (byteOf frame 3)

/-- The loop that puts the reply behind its first two bytes. -/
def putReply (r : Record) (p : Port) : Record := fun k =>
  if 0x0A ≤ k ∧ k < 0x08 + p.reply_length - 1 then p.reply (k - 0x08 + 1) else r k

/-- The block of a valid record. -/
def validBlock (r : Record) : Driver Record := do
  let id := (← port).id
  let p ← port
  let r := putReply (put (put r 0x08 0) 0x09 id) p
  return put (put r 0x27 (p.reply 2)) 0x28 0x20

/-- What follows the first eight bytes. -/
def block (r : Record) : Driver Record := do
  if (← port).valid then validBlock r else return put r 0x08 0xFF

/-- The record, with a counter. -/
def makeRecord (frame : UInt32) : Driver Record := do
  let r := counted frame
  let r := put r 0x04 (← port).slot_state
  let r := put r 0x05 0
  let r := put r 0x06 (if (← port).valid then 1 else 0)
  let r ← block r
  let r := put r 0x2C (if (← port).stage = .Poll then 1 else 2)
  let r := put r 0x2D (← port).configurable
  let r := put r 0x2E (← port).model
  let r := put r 0x2F (← port).status_bit
  return put r 0x30 (← port).errors

/-- `pushRecord`. -/
def pushRecord : Driver Unit := do
  if (← port).ee_address = 0 then close
  else
    let frame ← counter
    let r ← makeRecord frame
    let dest := (← port).ee_address + (if frame &&& 1 ≠ 0 then 0x40 else 0)
    let _ ← send dest r
    count (frame + 1)

/-- What the driver thread does of a blank, once it has found the port open. -/
def blank : Driver Unit := do
  let status ← stat70
  set fun p => { p with status_bit := ((status >>> 4) &&& 1).toUInt8 }
  advance
  pushRecord

end PS2Bios.Padman
