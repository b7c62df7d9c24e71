import PS2Bios.Library.Cursor
import PS2Bios.Library.QueueFamily
import PS2Bios.Library.Word
import PS2Bios.Threadman.Ids

/-!
# THREADMAN's queues and its switch

The thread records, the queues that are threaded through them, and the two variables that decide
who runs: `current`, and `pending`, who runs next. A thread that is `pending` but not `current` is
staged: it is ready, and in no queue.

The links of the records are one `Intrusive.Links`, and the queues one function of a `Place`. The
bitmap of non-empty ready queues is kept bit by bit. Of a saved frame the word for `$v0` is kept,
and with it where its thread goes on (`Resume`), which the source has in the registers and on the
stack of the thread. A loop along a queue has turns for as many records as there are, and `none`
says that these did not suffice.
-/

namespace PS2Bios.Threadman

open Intrusive

/-- The index that ends a queue and stands for no thread. -/
def kNone : ℕ := 0xFFFF

/-- The priorities there are, and so the ready queues. -/
def kPriorities : ℕ := 128

/-- The priority of the idle thread. -/
def kIdlePriority : ℕ := 127

/-- The priority the boot thread runs at. -/
def kBootPriority : ℕ := 1

/-- The priority the boot thread's record says it was created with. -/
def kBootInitialPriority : ℕ := 8

/-- A thread's state. -/
inductive Status
  | free | run | ready | wait | dormant
deriving DecidableEq, Repr

/-- What a waiting thread waits for. -/
inductive WaitType
  | notWaiting | sleep | delay | onSema | onEvent | onMbx
deriving DecidableEq, Repr

/-- Where a thread goes on that has been switched away from: in its own code, at the end of a call
that answers what is in `$v0` or a value of its own, in the loop of `setEventFlag` over the waiters
of a flag, or in the endless loop of `exitThread`. -/
inductive Resume
  | own
  | answer
  | value (v : ℤ)
  | setting (event following : ℕ)
  | endless
deriving DecidableEq, Repr

/-- A saved frame. -/
structure Frame where
  v0 : ℤ
  resume : Resume
deriving DecidableEq, Repr

/-- A thread's record, with the saved frame its stack holds. -/
structure Thread where
  state : Status
  waitType : WaitType
  initialPriority : ℕ
  currentPriority : ℕ
  frame : Option Frame
  waitId : UInt32
  wakeupCount : ℕ
  waitOut : ℕ
  waitBits : UInt32
  waitMode : UInt32
deriving Repr

/-- An event flag's record. -/
structure EventFlag where
  attr : UInt32
  bits : UInt32
deriving Repr

/-- A semaphore's record. -/
structure Semaphore where
  attr : UInt32
  max : ℤ
  count : ℤ
deriving Repr

/-- A message is the sender's memory: the link, and the bytes after it, of which the first is the
priority. -/
structure Message where
  next : ℕ
  rest : ℕ → UInt8

/-- A mailbox's record: the last message of its ring and how many there are. -/
structure Mailbox where
  attr : UInt32
  tail : ℕ
  messageCount : ℕ
deriving Repr

/-- The queues: one for each priority, and the waiters of each object. -/
inductive Place
  | ready (priority : ℕ)
  | waiters (kind : Kind) (index : ℕ)
deriving DecidableEq, Repr

/-- The variables of the scheduler and of its objects, the messages, and the words that blocked
calls have for their results. -/
structure Sched where
  pools : Pools
  threads : ℕ → Thread
  links : Links ℕ
  queues : Place → Queue ℕ
  waiterCount : Kind → ℕ → ℕ
  readyBits : ℕ → Bool
  current : ℕ
  pending : ℕ
  events : ℕ → EventFlag
  semaphores : ℕ → Semaphore
  mailboxes : ℕ → Mailbox
  messages : ℕ → Message
  out : ℕ → ℕ

namespace Sched

/-- Write one thread record. -/
def setThread (s : Sched) (k : ℕ) (f : Thread → Thread) : Sched :=
  { s with threads := Function.update s.threads k (f (s.threads k)) }

/-- Write the links and one queue. -/
def setQueue (s : Sched) (p : Place) (r : Links ℕ × Queue ℕ) : Sched :=
  { s with links := r.1, queues := Function.update s.queues p r.2 }

/-- Write one bit of the bitmap. -/
def setBit (s : Sched) (priority : ℕ) (b : Bool) : Sched :=
  { s with readyBits := Function.update s.readyBits priority b }

/-- Write one count of waiters. -/
def setCount (s : Sched) (kind : Kind) (index n : ℕ) : Sched :=
  { s with waiterCount :=
      Function.update s.waiterCount kind (Function.update (s.waiterCount kind) index n) }

/-- The current priority of a thread, by which its ready queue is chosen. -/
def priorityOf (s : Sched) (k : ℕ) : ℕ := (s.threads k).currentPriority

/-! ### Queues -/

/-- `enqueue`: the thread goes behind the others of a place. -/
def enqueue (s : Sched) (p : Place) (k : ℕ) : Sched :=
  s.setQueue p (Intrusive.enqueue kNone s.links (s.queues p) k)

/-- The turns a loop along a queue is given. -/
def kQueueTurns : ℕ := kThreads + 1

/-- The loop of `enqueueByPriority` stops at this record, or at the end. -/
def isWorse (s : Sched) (k at_ : ℕ) : Bool :=
  at_ == kNone || decide (s.priorityOf k < s.priorityOf at_)

/-- `enqueueByPriority`: the thread goes in front of the first one of a worse priority. -/
def enqueueByPriority (s : Sched) (p : Place) (k : ℕ) : Option Sched :=
  (walk s.links.next (s.isWorse k) kQueueTurns (s.queues p).head).map fun at_ =>
    if at_ = kNone then s.enqueue p k
    else s.setQueue p (insertBefore kNone s.links (s.queues p) k at_)

/-- `unlink`: the thread leaves the queue of a place. -/
def unlink (s : Sched) (p : Place) (k : ℕ) : Sched :=
  s.setQueue p (Intrusive.unlink kNone s.links (s.queues p) k)

/-- `popFront`: the first thread of a queue, taken off it. -/
def popFront (s : Sched) (p : Place) : ℕ × Sched :=
  let index := (s.queues p).head
  (index, if index ≠ kNone then s.unlink p index else s)

/-- The writes of `state` and `wait_type` that a thread is made ready with. -/
def markReady (s : Sched) (k : ℕ) : Sched :=
  s.setThread k fun t => { t with state := .ready, waitType := .notWaiting }

/-- `makeReady`: the thread goes to the end of its ready queue. -/
def makeReady (s : Sched) (k : ℕ) : Sched :=
  let priority := s.priorityOf k
  ((s.markReady k).enqueue (.ready priority) k).setBit priority true

/-- `makeReadyFirst`: the thread goes to the front of its ready queue. -/
def makeReadyFirst (s : Sched) (k : ℕ) : Sched :=
  let priority := s.priorityOf k
  let s := s.markReady k
  let s := s.setQueue (.ready priority)
    (pushFront kNone s.links (s.queues (.ready priority)) k)
  s.setBit priority true

/-- The bit of a queue is cleared if it is empty. -/
def clearIfEmpty (s : Sched) (priority : ℕ) : Sched :=
  if (s.queues (.ready priority)).head = kNone then s.setBit priority false else s

/-- `takeOffReady`: the thread leaves its ready queue, whose bit goes when it was the last. -/
def takeOffReady (s : Sched) (k : ℕ) : Sched :=
  let priority := s.priorityOf k
  (s.unlink (.ready priority) k).clearIfEmpty priority

/-- `pick`: the first thread of the best ready queue that has one. -/
def pick (s : Sched) : ℕ × Sched :=
  match (List.range kPriorities).find? s.readyBits with
  | none => (kNone, s)
  | some priority =>
    let (index, s) := s.popFront (.ready priority)
    (index, s.clearIfEmpty priority)

/-- The object a thread waits on, if there is one. -/
def waitObjectOf (s : Sched) (t : Thread) : Option (Kind × ℕ) :=
  match t.waitType with
  | .onSema => (semaphoreOf s.pools t.waitId).map fun k => (.semaphore, k)
  | .onEvent => (eventOf s.pools t.waitId).map fun k => (.event, k)
  | .onMbx => (mailboxOf s.pools t.waitId).map fun k => (.mailbox, k)
  | _ => none

/-- A delayed thread's alarm goes as well, which is no matter of these variables. -/
def leaveWait (s : Sched) (k : ℕ) : Sched :=
  let s := match s.waitObjectOf (s.threads k) with
    | some (kind, index) =>
      (s.unlink (.waiters kind index) k).setCount kind index
        (sub32 (s.waiterCount kind index) 1)
    | none => s
  s.setThread k fun t => { t with waitType := .notWaiting }

/-! ### The switch -/

/-- What the service that blocked the thread will answer it. -/
def setAnswer (s : Sched) (k : ℕ) (value : ℤ) : Sched :=
  s.setThread k fun t => { t with frame := t.frame.map fun f => { f with v0 := value } }

/-- The thread that runs when the processor is given up next. -/
def setPending (s : Sched) (k : ℕ) : Sched := { s with pending := k }

/-- `should_preempt`: somebody other than the current thread is to run. -/
def shouldPreempt (s : Sched) : Bool := decide (s.pending ≠ s.current)

/-- The choice of `newContext`. -/
def resolve (s : Sched) : Sched :=
  if s.pending = kNone ∨ s.pending = s.current then
    let (index, s) := s.pick
    s.setPending (if index = kNone then s.current else index)
  else s

/-- `new_context`: the running thread's frame is saved and the pending one runs. -/
def newContext (s : Sched) (frame : Frame) : Sched :=
  let s := if s.current ≠ kNone then
      s.setThread s.current fun t => { t with frame := some frame }
    else s
  let s := s.resolve
  { s with current := s.pending }.setThread s.pending fun t => { t with state := .run }

/-- `blockCurrent` up to its trap. -/
def blockCurrent (s : Sched) (waitType : WaitType) (waitId : UInt32) : Sched :=
  let s := s.setThread s.current fun t =>
    { t with state := .wait, waitType := waitType, waitId := waitId }
  let (index, s) := s.pick
  s.setPending index

/-- `handOffIfBetter` up to its trap, and whether it traps. -/
def handOffIfBetter (s : Sched) (k : ℕ) : Sched × Bool :=
  if s.current = kNone ∨ s.priorityOf s.current ≤ s.priorityOf k then (s, false)
  else
    let priority := s.priorityOf s.current
    let s := s.setThread s.current fun t => { t with state := .ready }
    let s := (s.enqueue (.ready priority) s.current).setBit priority true
    ((s.takeOffReady k).setPending k, true)

/-- What `wake` does of an interrupt's behalf when the thread is better than both. -/
def stage (s : Sched) (k : ℕ) : Sched :=
  let s := if s.pending = kNone ∨ s.pending = s.current then s.makeReadyFirst s.current
    else s.makeReady s.pending
  (s.takeOffReady k).setPending k

/-- `wake`: the thread leaves its wait with an answer, and a better one than the caller runs at
once. -/
def wake (s : Sched) (k : ℕ) (answer : ℤ) (fromInterrupt : Bool) : Sched × Bool :=
  let s := ((s.leaveWait k).setAnswer k answer).makeReady k
  if fromInterrupt then
    if s.current ≠ kNone ∧ s.priorityOf k < s.priorityOf s.current ∧
        (s.pending = kNone ∨ s.pending = s.current ∨ s.priorityOf k < s.priorityOf s.pending) then
      (s.stage k, false)
    else (s, false)
  else s.handOffIfBetter k

/-! ### What the entry of the module leaves -/

/-- A record that has never been used. -/
def blank : Thread where
  state := .free
  waitType := .notWaiting
  initialPriority := 0
  currentPriority := 0
  frame := none
  waitId := 0
  wakeupCount := 0
  waitOut := 0
  waitBits := 0
  waitMode := 0

/-- The idle thread as it is set up. -/
def idle : Thread :=
  { blank with
    initialPriority := kIdlePriority, currentPriority := kIdlePriority, frame := some ⟨0, .own⟩ }

/-- The boot thread as it is set up, running. -/
def boot : Thread :=
  { blank with
    state := .run, initialPriority := kBootInitialPriority, currentPriority := kBootPriority }

/-- The variables before the entry makes the idle thread ready. -/
def cleared (messages : ℕ → Message) (out : ℕ → ℕ) : Sched where
  pools := World.started.pools
  threads := fun k => if k = 0 then idle else if k = 1 then boot else blank
  links := ⟨fun _ => 0, fun _ => 0⟩
  queues := fun p => match p with
    | .ready _ => ⟨kNone, kNone⟩
    | .waiters _ _ => ⟨0, 0⟩
  waiterCount := fun _ _ => 0
  readyBits := fun _ => false
  current := 1
  pending := 1
  events := fun _ => ⟨0, 0⟩
  semaphores := fun _ => ⟨0, 0, 0⟩
  mailboxes := fun _ => ⟨0, 0, 0⟩
  messages := messages
  out := out

/-- The scheduler when THREADMAN has started: the boot thread runs, the idle thread is ready. -/
def started (messages : ℕ → Message) (out : ℕ → ℕ) : Sched := (cleared messages out).makeReady 0

end Sched

end PS2Bios.Threadman
