import PS2Bios.Library.Cursor
import PS2Bios.Library.Run
import PS2Bios.Threadman.Clock
import PS2Bios.Threadman.Ids

/-!
# THREADMAN's alarms

A pool of 32 records, those in use on one queue by deadline, and one hardware timer whose compare
register follows the head of the queue. The timer's handler takes the due records off in order and
calls them; a callback may set and cancel alarms itself, so the handler is modelled as the machine
it is at that point: `walking` the queue, or `calling` a record that it has taken off.

The counter is hardware, and every reading of it is an argument of the step that takes it. The
links of the records are kept beside them, as one `Intrusive.Links`. A loop along the queue has
turns for as many records as there are, and `none` says that these did not suffice.

`stamp` and `stamps` belong to no variable of the source: they number the insertions, so that one
can say which of two records was queued first.
-/

namespace PS2Bios.Threadman

open Intrusive

/-- How many alarms there are. -/
def kAlarms : ℕ := 32

/-- The index that ends the list of armed alarms and stands for no alarm. -/
def kAlarmNone : ℕ := 0xFFFF

/-- `setAlarm` answers this where the pair of callback and argument is already armed. -/
def kAlarmDuplicate : ℤ := -104

/-- `cancelAlarm` answers this where the pair is not armed. -/
def kAlarmUnknown : ℤ := -105

/-- The bit of the counter's status that says its target was reached. -/
def kStatusTarget : UInt32 := 0x800

/-- Alarms this close together are called by one interrupt. -/
def kGranularityUsec : UInt32 := 100

/-- How far the first deadline of the permanent alarm is written behind the clock. -/
def kSeedUsec : UInt32 := 2000

/-- The turns a loop along the queue is given. -/
def kTurns : ℕ := kAlarms + 1

/-- 100 us of ticks. -/
def ticksGranularity : UInt32 := (usecToSysClock kGranularityUsec).lo

/-- 200 us: alarms closer than this share one target. -/
def ticksCoalesce : UInt32 := ticksGranularity * 2

/-- An alarm of the table: its deadline, what is called then, and the two flags of its record. -/
structure Alarm where
  deadline : Clock
  callback : UInt32
  arg : UInt32
  inUse : Bool
  permanent : Bool

/-- The readings of the counter that setting an alarm takes: for the deadline, and two for the
compare register. -/
structure Readings where
  now : UInt32
  low : UInt32
  again : UInt32
deriving Repr, DecidableEq

/-- The variables of the clock and the alarms, and the timer's compare register. -/
structure Alarms where
  alarms : ℕ → Alarm
  links : Links ℕ
  alarmHead : ℕ
  clockSeen : Clock
  compare : UInt32

namespace Alarms

/-- Write one record. -/
def set (s : Alarms) (index : ℕ) (alarm : Alarm) : Alarms :=
  { s with alarms := Function.update s.alarms index alarm }

/-- The reading is answered as `clockSeen`. -/
def readClock (s : Alarms) (low : UInt32) : Alarms :=
  { s with clockSeen := ⟨low, if low < s.clockSeen.lo then s.clockSeen.hi + 1 else s.clockSeen.hi⟩ }

/-- `unlinkAlarm`: the neighbours are led past the alarm, whose own links are cleared. -/
def unlinkAlarm (s : Alarms) (index : ℕ) : Alarms :=
  let next := s.links.next index
  let prev := s.links.prev index
  let s := if prev = kAlarmNone then { s with alarmHead := next }
    else { s with links := s.links.setNext prev next }
  let s := if next = kAlarmNone then s else { s with links := s.links.setPrev next prev }
  { s with links := (s.links.setNext index kAlarmNone).setPrev index kAlarmNone }

/-- The loop of `insertAlarm` stops before this record, or at the end. -/
def isLater (s : Alarms) (index at_ : ℕ) : Bool :=
  at_ == kAlarmNone || clockBefore (s.alarms index).deadline (s.alarms at_).deadline

/-- The end of `insertAlarm`: the record goes behind `after`. -/
def insertAfter (s : Alarms) (index after : ℕ) : Alarms :=
  let s := { s with links := s.links.setPrev index after }
  let s := if after = kAlarmNone then
      { s with links := s.links.setNext index s.alarmHead, alarmHead := index }
    else { s with links := (s.links.setNext index (s.links.next after)).setNext after index }
  if s.links.next index = kAlarmNone then s
  else { s with links := s.links.setPrev (s.links.next index) index }

/-- `insertAlarm`: the alarm goes in front of the first one that is later than it. -/
def insertAlarm (s : Alarms) (index : ℕ) : Option Alarms :=
  (walkBehind s.links.next (s.isLater index) kTurns kAlarmNone s.alarmHead).map
    (s.insertAfter index)

/-- The loop of `findAlarm` stops at this record, or at the end. -/
def isPair (s : Alarms) (callback arg : UInt32) (at_ : ℕ) : Bool :=
  at_ == kAlarmNone || ((s.alarms at_).callback == callback && (s.alarms at_).arg == arg)

/-- `findAlarm`: the first armed alarm of this callback and argument, `kAlarmNone` without one. -/
def findAlarm (s : Alarms) (callback arg : UInt32) : Option ℕ :=
  walk s.links.next (s.isPair callback arg) kTurns s.alarmHead

/-- `allocateAlarm`: the first record not in use, marked as used. -/
def allocateAlarm (s : Alarms) : ℕ × Alarms :=
  match (List.range kAlarms).find? fun k => !(s.alarms k).inUse with
  | none => (kAlarmNone, s)
  | some k => (k, s.set k { s.alarms k with inUse := true, permanent := false })

/-- The loop of `armTimer` stops at the last of a run of records, each within 200 us of the one
before it. -/
def endsRun (s : Alarms) (target : ℕ) : Bool :=
  s.links.next target == kAlarmNone ||
    clockBefore (clockAdd (s.alarms target).deadline ⟨ticksCoalesce, 0⟩)
      (s.alarms (s.links.next target)).deadline

/-- The counter is read for the clock, and again where the deadline has passed. -/
def armTimer (s : Alarms) (low again : UInt32) : Option Alarms :=
  if s.alarmHead = kAlarmNone then some s
  else
    (walk s.links.next s.endsRun kTurns s.alarmHead).map fun target =>
      let s := s.readClock low
      if clockBefore s.clockSeen (s.alarms target).deadline then
        { s with compare := (s.alarms target).deadline.lo }
      else { s with compare := again + ticksCoalesce }

/-- The wait, with the floor of 100 us applied. -/
def waitOf (delta : Clock) : Clock :=
  if delta.hi == 0 && delta.lo < ticksGranularity then { delta with lo := ticksGranularity }
  else delta

/-- What `setAlarm` and `setAlarmInterrupt` share: refuse a pair that is armed, take a record, arm
it. -/
def addAlarm (s : Alarms) (delta : Clock) (callback arg : UInt32) (r : Readings) :
    Option (ℤ × Alarms) :=
  (s.findAlarm callback arg).bind fun found =>
    if found ≠ kAlarmNone then some (kAlarmDuplicate, s)
    else
      let (index, s) := s.allocateAlarm
      if index = kAlarmNone then some (kNoMemory, s)
      else
        let s := s.readClock r.now
        let s := s.set index
          { s.alarms index with
            deadline := clockAdd s.clockSeen (waitOf delta), callback := callback, arg := arg }
        (s.insertAlarm index).bind fun s => (s.armTimer r.low r.again).map fun s => (kOk, s)

/-- What `cancelAlarm` and `cancelAlarmInterrupt` share: the alarm of the pair leaves the list. -/
def removeAlarm (s : Alarms) (callback arg : UInt32) : Option (ℤ × Alarms) :=
  (s.findAlarm callback arg).map fun index =>
    if index = kAlarmNone then (kAlarmUnknown, s)
    else
      let s := s.unlinkAlarm index
      (kOk, s.set index { s.alarms index with inUse := false })

/-- Ordinals 35 and 36: the one wants a thread, the other an interrupt. -/
def setAlarm (s : Alarms) (interrupt context : Bool) (clock : Clock) (callback arg : UInt32)
    (r : Readings) : Option (ℤ × Alarms) :=
  if context != interrupt then some (kIllegalContext, s) else s.addAlarm clock callback arg r

/-- Ordinals 37 and 38. -/
def cancelAlarm (s : Alarms) (interrupt context : Bool) (callback arg : UInt32) :
    Option (ℤ × Alarms) :=
  if context != interrupt then some (kIllegalContext, s) else s.removeAlarm callback arg

/-- The alarm of `delayThread`, for the record of the thread that calls it. -/
def delayThread (s : Alarms) (delayExpired : UInt32) (context : Bool) (usec thread : UInt32)
    (r : Readings) : Option (ℤ × Alarms) :=
  if context then some (kIllegalContext, s)
  else s.addAlarm (usecToSysClock usec) delayExpired thread r

/-- What a thread that leaves a delay does with its alarm. -/
def cancelDelay (s : Alarms) (delayExpired thread : UInt32) : Option (ℤ × Alarms) :=
  s.removeAlarm delayExpired thread

/-- The permanent record is seeded 2 ms before zero. -/
def seed : Clock := clockSubtract ⟨0, 0⟩ (usecToSysClock kSeedUsec)

/-- What `startClock` makes of the variables before it queues the permanent record. -/
def cleared (s : Alarms) : Alarms :=
  { s with
    alarms := fun k => if k < kAlarms then { s.alarms k with inUse := false } else s.alarms k
    alarmHead := kAlarmNone
    clockSeen := ⟨0, 0⟩ }

/-- `startClock`: the table is cleared, and the permanent alarm is the first one armed. -/
def startClock (s : Alarms) : Option Alarms :=
  let (permanent, s) := s.cleared.allocateAlarm
  let s := s.set permanent
    { s.alarms permanent with permanent := true, callback := 0, arg := 0, deadline := seed }
  (s.insertAlarm permanent).map fun s => { s with compare := ticksGranularity }

end Alarms

/-! ### The handler as a machine -/

/-- Where the timer's handler is: not running, at the head of its loop, or in the callback of the
record it has taken off. -/
inductive Control
  | idle
  | walking
  | calling (index : ℕ)
deriving Repr, DecidableEq

/-- The alarms with the interrupt that may be walking them, and when each was queued last. -/
structure Machine where
  state : Alarms
  control : Control
  stamp : ℕ → ℕ
  stamps : ℕ

/-- A call, or a stretch of the handler. -/
inductive Event
  | setAlarm (interrupt context : Bool) (clock : Clock) (callback arg : UInt32) (r : Readings)
  | cancelAlarm (interrupt context : Bool) (callback arg : UInt32)
  | delayThread (context : Bool) (usec thread : UInt32) (r : Readings)
  | cancelDelay (thread : UInt32)
  | getSystemTime (low : UInt32)
  | interrupt (status low : UInt32)
  | turn (now low again : UInt32)
  | returned (again : UInt32)
deriving Repr

namespace Machine

/-- The record has been inserted. -/
def inserted (m : Machine) (index : ℕ) (s : Alarms) : Machine :=
  { m with state := s, stamp := Function.update m.stamp index m.stamps, stamps := m.stamps + 1 }

/-- What an accepted `addAlarm` leaves behind: the record it took is the first that was free. -/
def added (m : Machine) (r : ℤ × Alarms) : Machine :=
  if r.1 = kOk then m.inserted m.state.allocateAlarm.1 r.2 else { m with state := r.2 }

/-- The timer's interrupt, up to the loop: the overflow half is answered by reading the clock. -/
def interrupt (m : Machine) (status low : UInt32) : Machine :=
  { m with
    state := m.state.readClock low
    control := if status &&& kStatusTarget = 0 then .idle else .walking }

/-- One turn of the handler's loop, up to the callback, or the end of the handler. -/
def turn (m : Machine) (now low again : UInt32) : Option Machine :=
  if m.state.alarmHead = kAlarmNone then
    (m.state.armTimer low again).map fun s => { m with state := s, control := .idle }
  else
    let index := m.state.alarmHead
    let s := m.state.readClock now
    if clockBefore s.clockSeen (s.alarms index).deadline then
      (s.armTimer low again).map fun s => { m with state := s, control := .idle }
    else
      let s := s.unlinkAlarm index
      if (s.alarms index).permanent then
        let alarm := s.alarms index
        let s := s.set index
          { alarm with deadline := { alarm.deadline with hi := alarm.deadline.hi + 1 } }
        (s.insertAlarm index).map (m.inserted index)
      else some { m with state := s, control := .calling index }

/-- What a callback that asks for more gets: at most 200 us. -/
def more (again : UInt32) : Clock :=
  ⟨if again < ticksCoalesce then again else ticksCoalesce, 0⟩

/-- The rest of the turn, with what the callback has answered. -/
def returned (m : Machine) (index : ℕ) (again : UInt32) : Option Machine :=
  let alarm := m.state.alarms index
  if again = 0 then
    some { m with state := m.state.set index { alarm with inUse := false }, control := .walking }
  else
    let s := m.state.set index { alarm with deadline := clockAdd alarm.deadline (more again) }
    (s.insertAlarm index).map fun s => { m.inserted index s with control := .walking }

/-- One event. The handler does not interrupt itself, and its steps come in their order; the calls
come at any time. -/
def step (delayExpired : UInt32) (m : Machine) : Event → Option Machine
  | .setAlarm interrupt context clock callback arg r =>
    (m.state.setAlarm interrupt context clock callback arg r).map m.added
  | .cancelAlarm interrupt context callback arg =>
    (m.state.cancelAlarm interrupt context callback arg).map fun r => { m with state := r.2 }
  | .delayThread context usec thread r =>
    (m.state.delayThread delayExpired context usec thread r).map m.added
  | .cancelDelay thread =>
    (m.state.cancelDelay delayExpired thread).map fun r => { m with state := r.2 }
  | .getSystemTime low => some { m with state := m.state.readClock low }
  | .interrupt status low =>
    match m.control with
    | .idle => some (m.interrupt status low)
    | _ => none
  | .turn now low again =>
    match m.control with
    | .walking => m.turn now low again
    | _ => none
  | .returned again =>
    match m.control with
    | .calling index => m.returned index again
    | _ => none

end Machine

/-- The machine after `startClock`. -/
def started (s : Alarms) : Option Machine :=
  s.startClock.map fun s => ⟨s, .idle, fun _ => 0, 1⟩

end PS2Bios.Threadman
