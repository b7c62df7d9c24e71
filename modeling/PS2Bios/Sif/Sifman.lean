import Mathlib.Data.List.Range
import Mathlib.Logic.Function.Basic

/-!
# SIFMAN: the send ring

What SIFMAN keeps of the transfers handed to it for the EE: a ring of `kSendGroups` runs, the one
the sending channel is on first. `enqueue` puts a run behind the others and starts the channel
when it is idle; the channel's interrupt, `sendFinished`, takes the head off, starts the next run
and then makes the callback the run was queued with.

A run is built in the caller's own memory with interrupts open, and queued with them closed, so
that `queueTransfers` is one step over the ring wherever it is called from. A callback runs when
`sendFinished` has done everything else, so the calls it makes are calls like any others. The
channel itself is hardware: it is started on a group, and done with it some time later.
-/

namespace PS2Bios.Sif

/-- The descriptor a client hands over: IOP memory to send, where in EE memory it lands, and
the attributes of the run. -/
structure Transfer where
  src : UInt32
  dest : UInt32
  size : UInt32
  attr : UInt32
deriving Repr, DecidableEq

/-- The one attribute acted on: the last block of a run ends the EE's channel. -/
def kAttrEndEe : UInt32 := 0x4

/-- The bit of a send block's address that says it is the last of its run. -/
def kTagEnd : UInt32 := 0x80000000

/-- The tag the other side's channel takes with a block. -/
def kTagDest : UInt32 := 0x10000000

/-- The same tag with the bit that stops and interrupts. -/
def kTagDestEnd : UInt32 := 0x90000000

/-- What the channel reads: where the bytes are and how many, then the tag the EE's channel
pops. -/
structure SendBlock where
  address : UInt32
  words : UInt32
  tag : UInt32
  destination : UInt32
deriving Repr, DecidableEq

/-- The blocks of one run. -/
def kTransfersMax : UInt32 := 2

/-- The runs the ring has room for. -/
def kSendGroups : ℕ := 32

/-- One run: its blocks, of which the first `count` count, and the callback it ends with, `0`
for none. -/
structure SendGroup where
  blocks : ℕ → SendBlock
  count : UInt32
  done : UInt32
  arg : UInt32

/-- The quadwords that the words fill, the last one perhaps in part. -/
def quadwords (words : UInt32) : UInt32 := (words + 3) / 4

/-- `describe`: a send block for one transfer. -/
def describe (src words destination : UInt32) (last endsEeChannel : Bool) : SendBlock where
  address := src ||| (if last then kTagEnd else 0)
  words := quadwords words * 4
  tag := (if last && endsEeChannel then kTagDestEnd else kTagDest) ||| quadwords words
  destination := destination &&& 0x1FFFFFFF

/-- The sending channel: idle, started on the group in a slot, or done with it and its interrupt
still to be served. -/
inductive Channel
  | idle
  | running (slot : ℕ)
  | finished (slot : ℕ)
deriving Repr, DecidableEq

/-- The slot of the group the channel reads, or has read. -/
def Channel.slot? : Channel → Option ℕ
  | .idle => none
  | .running slot => some slot
  | .finished slot => some slot

/-- The channel is done with its group and nobody has been told. -/
def Channel.isFinished : Channel → Bool
  | .finished _ => true
  | _ => false

/-- The ring of runs, and the channel that is on one of them. -/
structure Sifman where
  sendQueue : ℕ → SendGroup
  sendHead : ℕ
  sendQueued : ℕ
  channel : Channel

/-- What a step does that others can see: it writes the blocks of a slot, it starts the channel
on a group, the channel is done with a group, and a callback is called. -/
inductive Effect
  | wrote (slot : ℕ)
  | started (slot : ℕ) (group : SendGroup)
  | sent (group : SendGroup)
  | called (function arg : UInt32)

/-- What an operation answers, what it does, and the state it leaves. -/
structure Outcome where
  answer : UInt32
  effects : List Effect
  state : Sifman

namespace Sifman

/-- The channel takes the group at the head from memory. -/
def startHead (s : Sifman) : List Effect × Sifman :=
  ([.started s.sendHead (s.sendQueue s.sendHead)], { s with channel := .running s.sendHead })

/-- `enqueue`: a run takes the next slot, and starts the channel if it is idle. -/
def enqueue (s : Sifman) (blocks : ℕ → SendBlock) (count done arg : UInt32) : Outcome :=
  if count = 0 ∨ kTransfersMax < count ∨ s.sendQueued = kSendGroups then
    ⟨0, [], s⟩
  else
    let slot := (s.sendHead + s.sendQueued) % kSendGroups
    -- a group keeps the blocks past `count` it had
    let group : SendGroup :=
      { blocks := fun k => if k < count.toNat then blocks k else (s.sendQueue slot).blocks k
        count := count
        done := done
        arg := arg }
    let queued : Sifman :=
      { s with
        sendQueue := Function.update s.sendQueue slot group
        sendQueued := s.sendQueued + 1 }
    if s.sendQueued = 0 then
      let (effects, started) := queued.startHead
      ⟨1, .wrote slot :: effects, started⟩
    else
      ⟨1, [.wrote slot], queued⟩

/-- `sendFinished`: the run at the head is done, and the next one starts. -/
def sendFinished (s : Sifman) : Outcome :=
  if s.sendQueued = 0 then
    ⟨1, [], s⟩
  else
    let group := s.sendQueue s.sendHead
    let popped : Sifman :=
      { s with
        sendQueue := Function.update s.sendQueue s.sendHead { group with done := 0 }
        sendHead := (s.sendHead + 1) % kSendGroups
        sendQueued := s.sendQueued - 1 }
    let (effects, started) := if popped.sendQueued ≠ 0 then popped.startHead else ([], popped)
    let callback := if group.done ≠ 0 then [.called group.done group.arg] else []
    ⟨1, effects ++ callback, started⟩

/-- The blocks of a run as `queueTransfers` builds them from the descriptors at `list`. -/
def describeRun (list : ℕ → Transfer) (count : UInt32) (k : ℕ) : SendBlock :=
  describe (list k).src (((list k).size + 3) / 4) (list k).dest (k + 1 = count.toNat)
    ((list k).attr &&& kAttrEndEe ≠ 0)

/-- What `sifSetDma` does, with no function, and `sifSetDmaIntr`. -/
def queueTransfers (s : Sifman) (list : ℕ → Transfer) (count function arg : UInt32) : Outcome :=
  if count = 0 ∨ kTransfersMax < count then
    ⟨0, [], s⟩
  else
    s.enqueue (describeRun list count) count function arg

/-- `0` while a run is queued, else `-1`. -/
def sifDmaStat (s : Sifman) : ℤ :=
  if s.sendQueued ≠ 0 then 0 else -1

end Sifman

end PS2Bios.Sif
