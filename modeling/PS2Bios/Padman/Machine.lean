import PS2Bios.Library.Run
import PS2Bios.Padman.Driver
import Mathlib.Algebra.Group.Nat.Defs

/-!
# PADMAN and its client

The driver thread of PADMAN takes one step at a time, and the thread that serves the client's
requests preempts it anywhere. `View` is what the two and the EE share: the port, the EE's memory,
and what is told of a run besides. That is the reply to the poll of this blank, the id the
controller last gave a probe, and since the last accepted open how many records have been pushed
and which was the last one delivered, and whether the area was clear then.

The EE's memory is the client's while the port is closed, so an accepted open finds in it whatever
the client has put there. A transfer SIFMAN takes is in the EE's memory at once; one it refuses is
lost.
-/

namespace PS2Bios.Padman

/-- The code that a served code is counted from. -/
def kCodeBase : UInt32 := 0x80000100

/-- The code of the request that opens a port. -/
def kCodeOpen : UInt32 := 0x80000100

/-- The code of the request for the number of ports. -/
def kCodePortCount : UInt32 := 0x8000010B

/-- The code of the request for the slots of a port. -/
def kCodeSlotCount : UInt32 := 0x8000010C

/-- The code of the request that closes a port. -/
def kCodeClose : UInt32 := 0x8000010D

/-- How many codes there are. -/
def kCodeCount : UInt32 := 15

/-- The EE's memory. -/
abbrev EeMemory := ℕ → UInt8

/-- What the driver and its client see: the port's record, the client's memory, and what the
controller replied last. -/
structure View where
  port : Port
  ee : EeMemory
  /-- A record is being made and pushed. -/
  pushing : Bool
  polled : Option Reply
  probed : Option UInt8
  fresh : Bool
  pushes : ℕ
  last : Option Record

/-- Whether an area is clear. -/
def isClear (ee : EeMemory) (address : UInt32) : Bool :=
  (List.range (2 * kRecordBytes)).all fun i => ee (address.toNat + i) = 0

/-- A record in the EE's memory. -/
def delivered (ee : EeMemory) (dest : UInt32) (r : Record) : EeMemory := fun a =>
  if dest.toNat ≤ a ∧ a < dest.toNat + kRecordBytes then r (a - dest.toNat) else ee a

namespace View

/-- An accepted open. -/
def opened (v : View) (address : UInt32) (ee : EeMemory) : View :=
  { v with
    port := v.port.reset address
    ee
    fresh := isClear ee address
    pushes := 0
    last := none }

/-- What the surroundings may answer the driver. -/
def answer (v : View) (stat70 : UInt32) (reply : Reply) (sent : Bool) :
    (o : Op) → Option o.Answer
  | .stat70 => some stat70
  | .port => some v.port
  | .set _ => some ()
  | .frame index => kConfigFrames[index]?
  | .transfer _ _ _ => some reply
  | .judge => some (v.port.answered v.port.id)
  | .validate => some ()
  | .close => some ()
  | .counter => some v.port.frame
  | .send _ _ => some sent
  | .count _ => some ()

/-- What is known of a reply: a probe that is answered gives an id. -/
def exchanged (v : View) (r : Reply) : Purpose → View
  | .probe =>
    { v with probed := if r.good ∧ r.out 1 ≠ 0 ∧ r.out 2 = kReplyMagic then some (r.out 1)
        else v.probed }
  | .configure => v
  | .poll => { v with polled := some r }

/-- What it leaves. -/
def next (v : View) : (o : Op) → o.Answer → View
  | .stat70, _ => v
  | .port, _ => v
  | .set f, _ => { v with port := f v.port }
  | .frame _, _ => v
  | .transfer purpose _ _, r => v.exchanged r purpose
  | .judge, _ => v
  | .validate, _ => { v with port := { v.port with valid := true } }
  | .close, _ => v
  | .counter, _ => { v with pushing := true }
  | .send dest record, sent =>
    { v with
      ee := if sent then delivered v.ee dest record else v.ee
      pushes := v.pushes + 1
      last := if sent then some record else v.last }
  | .count frame, _ => { v with port := { v.port with frame }, pushing := false }

end View

/-- Where the driver thread is: waiting for a blank, about to clear the event, about to look whether
the port is open, or in a blank. -/
inductive Place
  | waiting
  | clearing
  | looking
  | working (p : Driver Unit)

/-- A blank that is at its end has the thread waiting again. -/
def Place.of : Driver Unit → Place
  | .ret () => .waiting
  | .ask o k => .working (.ask o k)

/-- The driver thread at one of its accesses, the server it shares the port with, and the event of
the vertical blank. -/
structure State where
  opened : Bool
  event : Bool
  place : Place
  view : View

/-- What of a request is looked at. -/
structure Request where
  code : UInt32
  port : UInt32
  slot : UInt32
  address : UInt32

/-- One step: a blanking, a request served, or one access of the driver thread with what it is
replied. -/
inductive Label
  | vblank
  | serve (request : Request) (ee : EeMemory)
  | driver (stat70 : UInt32) (reply : Reply) (sent : Bool)

namespace State

/-- Whether a request opens the port. -/
def accepts (s : State) (request : Request) : Bool :=
  request.code = kCodeOpen ∧ ¬(request.port ≠ 0 ∨ request.slot ≠ 0 ∨ s.opened)

/-- `serve`, with the word of the reply it sets, if any. -/
def serve (s : State) (request : Request) (ee : EeMemory) : Option UInt32 × State :=
  if kCodeCount ≤ request.code - kCodeBase then (none, s)
  else if request.code = kCodeOpen then
    if request.port ≠ 0 ∨ request.slot ≠ 0 ∨ s.opened then (some 0, s)
    else (some 1, { s with opened := true, view := s.view.opened request.address ee })
  else if request.code = kCodeClose then
    (some (if s.opened ∧ request.port = 0 ∧ request.slot = 0 then 1 else 0),
      { s with opened := false })
  else if request.code = kCodePortCount then (some 2, s)
  else if request.code = kCodeSlotCount then (some 1, s)
  else (none, s)

/-- A step of the driver thread. -/
def drive (s : State) (stat70 : UInt32) (reply : Reply) (sent : Bool) : Option State :=
  match s.place with
  | .waiting => if s.event then some { s with place := .clearing } else none
  | .clearing => some { s with event := false, place := .looking }
  | .looking =>
    if s.opened then
      some { s with place := .of blank, view := { s.view with polled := none } }
    else some { s with place := .waiting }
  | .working (.ret ()) => some { s with place := .waiting }
  | .working (.ask o k) => do
    let r ← s.view.answer stat70 reply sent o
    some { s with
      opened := match o with
        | .close => false
        | _ => s.opened
      place := .of (k r)
      view := s.view.next o r }

/-- The next state, `none` where the driver thread waits. -/
def step (s : State) : Label → Option State
  | .vblank => some { s with event := s.event || s.opened }
  | .serve request ee => some (s.serve request ee).2
  | .driver stat70 reply sent => s.drive stat70 reply sent

/-- Behind the entry of the module: the port has not been opened. -/
def start (port : Port) (ee : EeMemory) : State where
  opened := false
  event := false
  place := .waiting
  view := ⟨(port.reset 0), ee, false, none, none, false, 0, none⟩

end State

/-! ### The client -/

/-- What the client decodes of a controller. -/
structure PadState where
  present : Bool
  buttons : UInt16
  id : UInt8
  slot_state : UInt8
  frame : ℕ
  deriving DecidableEq

/-- `frameOf`, of a record's bytes. -/
def frameOf (r : Record) : ℕ :=
  (r 0).toNat + (r 1).toNat * 2 ^ 8 + (r 2).toNat * 2 ^ 16 + (r 3).toNat * 2 ^ 24

/-- What `read` makes of the record it has chosen. -/
def decode (r : Record) : PadState :=
  if r 0x06 = 0 then ⟨false, 0, 0, r 0x04, frameOf r⟩
  else ⟨true, ~~~((r 0x0A).toUInt16 ||| (r 0x0B).toUInt16 <<< 8), r 0x09, r 0x04, frameOf r⟩

/-- A record of the area. -/
def half (ee : EeMemory) (address : UInt32) (k : ℕ) : Record := fun i =>
  ee (address.toNat + k * kRecordBytes + i)

/-- `read`, for a client whose open was accepted. -/
def read (ee : EeMemory) (address : UInt32) : PadState :=
  if frameOf (half ee address 0) < frameOf (half ee address 1) then decode (half ee address 1)
  else decode (half ee address 0)

end PS2Bios.Padman
