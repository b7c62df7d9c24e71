import PS2Bios.Threadman.Scheduler

/-!
# THREADMAN's calls and the processor under them

A call runs with interrupts off, from its entry to its end or to the trap in which it switches away
(`Reply`). `Processor` is what there is of the machine: THREADMAN's variables, whether a handler is
running, and whether the current thread is in the middle of `setEventFlag`, whose loop is the only
code that goes on with the variables after a switch.

The acts of a run are a call made by the current thread, the rest of its loop, an interrupt's
entry, a call made by the handler, the expiry of a delay, and the interrupt's exit, where the
hooks decide who runs. `interrupt` tells a call which of its two forms it is, and is also what
INTRMAN answers to the question for the context. Handlers of nested interrupts are one handler
here: the hooks are asked at the exit of the outermost one only.
-/

namespace PS2Bios.Threadman

open Intrusive

/-- A wait mode with a bit that means nothing. -/
def kIllegalMode : ℤ := -405

/-- The thread is not started. -/
def kDormant : ℤ := -413

/-- The thread does not wait. -/
def kNotWait : ℤ := -416

/-- What a thread is told whose wait `releaseWaitThread` ended. -/
def kReleaseWait : ℤ := -418

/-- The semaphore polled has no count left. -/
def kSemaZero : ℤ := -419

/-- The flag polled does not have the bits asked for. -/
def kEvfCond : ℤ := -421

/-- Another thread waits on a flag that only one may wait on. -/
def kEvfMulti : ℤ := -422

/-- A wait for no bits at all. -/
def kEvfIlpat : ℤ := -423

/-- The mailbox polled is empty. -/
def kMbxNoMsg : ℤ := -424

/-- What a waiter is told whose object was deleted. -/
def kWaitDelete : ℤ := -425

/-- The attribute bit of a semaphore that serves its waiters by priority. -/
def kSemaPriority : UInt32 := 1

/-- The mode bit of a wait that any of the bits ends. -/
def kWaitOr : UInt32 := 1

/-- The mode bit of a wait that clears the bits it was ended by. -/
def kWaitClear : UInt32 := 0x10

/-- The attribute bit of a mailbox that serves its receivers by priority. -/
def kMbxThreadPriority : UInt32 := 1

/-- The attribute bit of a mailbox whose messages are kept by urgency. -/
def kMbxMessagePriority : UInt32 := 4

/-- A call returns, or traps and goes on later. -/
inductive Reply
  | returns (v : ℤ)
  | traps (resume : Resume)
deriving DecidableEq, Repr

namespace Sched

/-- The end of a call that may have switched on its way. -/
def andReturn (r : Sched × Bool) (v : ℤ) : Sched × Reply :=
  (r.1, if r.2 then .traps (.value v) else .returns v)

/-! ### thbase -/

/-- `createThread`: a free slot becomes a dormant thread with a stack of its own. -/
def createThread (s : Sched) (interrupt : Bool) (a : ThreadParameters) (stack : UInt32) :
    Sched × Reply :=
  match Threadman.createThread interrupt a stack s.pools with
  | (.error code, _) => (s, .returns code)
  | (.ok id, pools) =>
    let k := slotOf id
    let s := { s with pools := pools, links := (s.links.setNext k kNone).setPrev k kNone }
    let s := s.setThread k fun t =>
      { t with state := .dormant, waitType := .notWaiting, initialPriority := a.priority.toNat,
               currentPriority := a.priority.toNat, frame := none, wakeupCount := 0 }
    (s, .returns id.toNat)

/-- `deleteThread`: the slot of a dormant thread is free again. -/
def deleteThread (s : Sched) (interrupt : Bool) (id : UInt32) : Sched × Reply :=
  let k := slotOf id
  match Threadman.deleteThread interrupt (decide ((s.threads k).state = .dormant)) id s.pools with
  | (code, pools) =>
    if code = kOk then
      ({ s with pools := pools }.setThread k fun t => { t with state := .free }, .returns kOk)
    else (s, .returns code)

/-- What `primeFrame` writes of a frame that is kept here. -/
def primeFrame (s : Sched) (k : ℕ) : Sched :=
  s.setThread k fun t => { t with frame := some ⟨0, .own⟩ }

/-- `startThread`: a dormant thread is made ready at the priority it was created with. -/
def startThread (s : Sched) (interrupt : Bool) (id : UInt32) : Sched × Reply :=
  if interrupt then (s, .returns kIllegalContext)
  else match threadOf s.pools id with
    | none => (s, .returns kUnknownThid)
    | some k =>
      if (s.threads k).state ≠ .dormant then (s, .returns kNotDormant)
      else
        let s := s.setThread k fun t => { t with currentPriority := t.initialPriority }
        andReturn (((s.primeFrame k).makeReady k).handOffIfBetter k) kOk

/-- `ExitThread`: the caller goes dormant and the best ready thread runs. -/
def exitThread (s : Sched) : Sched × Reply :=
  let s := s.setThread s.current fun t => { t with state := .dormant, waitType := .notWaiting }
  let (index, s) := s.pick
  (s.setPending index, .traps .endless)

/-- `terminateThread`: another thread goes dormant from wherever it is. -/
def terminateThread (s : Sched) (id : UInt32) : Sched × Reply :=
  if id = 0 then (s, .returns kIllegalThid)
  else match threadOf s.pools id with
    | none => (s, .returns kUnknownThid)
    | some k =>
      if k = s.current then (s, .returns kIllegalThid)
      else if (s.threads k).state = .dormant then (s, .returns kDormant)
      else
        let s :=
          if (s.threads k).state = .ready then s.takeOffReady k
          else if (s.threads k).state = .wait then s.leaveWait k
          else s
        let s := if s.pending = k then s.setPending s.current else s
        (s.setThread k fun t => { t with state := .dormant }, .returns kOk)

/-- The thread of the calls for which 0 is the caller. -/
def threadOrSelf (s : Sched) (id : UInt32) : Option ℕ :=
  if id = 0 then some s.current else threadOf s.pools id

/-- The current priority in a thread's record. -/
def setPriority (s : Sched) (k priority : ℕ) : Sched :=
  s.setThread k fun t => { t with currentPriority := priority }

/-- The end of `changeThreadPriority` for a thread that is ready. -/
def requeue (s : Sched) (interrupt : Bool) (k priority : ℕ) (previous : ℤ) : Sched × Reply :=
  let s := ((s.takeOffReady k).setPriority k priority).makeReady k
  if interrupt then (s, .returns previous) else andReturn (s.handOffIfBetter k) previous

/-- The end of `changeThreadPriority` for the caller. -/
def yieldIfWorse (s : Sched) (k : ℕ) (previous : ℤ) : Sched × Reply :=
  let (best, s) := s.pick
  if best = kNone then (s, .returns previous)
  else if s.priorityOf best < s.priorityOf k then
    ((s.makeReady k).setPending best, .traps (.value previous))
  else (s.makeReady best, .returns previous)

/-- `changeThreadPriority`: the record's priority changes, and the thread is queued under it. -/
def changeThreadPriority (s : Sched) (interrupt : Bool) (id priority : UInt32) : Sched × Reply :=
  if priority < 1 ∨ 126 < priority then (s, .returns kIllegalPriority)
  else match s.threadOrSelf id with
    | none => (s, .returns kUnknownThid)
    | some k =>
      if (s.threads k).state = .dormant then (s, .returns kDormant)
      else
        let previous : ℤ := s.priorityOf k
        if (s.threads k).state = .ready then s.requeue interrupt k priority.toNat previous
        else
          let s := s.setPriority k priority.toNat
          if k = s.current ∧ interrupt = false then s.yieldIfWorse k previous
          else (s, .returns previous)

/-- `rotateThreadReadyQueue`: the first thread of a priority goes to the end of its queue. -/
def rotateThreadReadyQueue (s : Sched) (interrupt : Bool) (priority : UInt32) : Sched × Reply :=
  if 127 < priority then (s, .returns kIllegalPriority)
  else
    let priority := if priority = 0 then s.priorityOf s.current else priority.toNat
    if interrupt = false ∧ s.current ≠ kNone ∧ s.priorityOf s.current = priority ∧
        (s.queues (.ready priority)).head ≠ kNone then
      let (index, s) := (s.makeReady s.current).pick
      (s.setPending index, .traps (.value kOk))
    else
      let (head, s) := s.popFront (.ready priority)
      (if head ≠ kNone then s.enqueue (.ready priority) head else s, .returns kOk)

/-- `releaseWaitThread`: a waiting thread runs on, told that it was released. -/
def releaseWaitThread (s : Sched) (interrupt : Bool) (id : UInt32) : Sched × Reply :=
  if id = 0 then (s, .returns kIllegalThid)
  else match threadOf s.pools id with
    | none => (s, .returns kUnknownThid)
    | some k =>
      if (s.threads k).state = .dormant then (s, .returns kDormant)
      else if (s.threads k).state ≠ .wait then (s, .returns kNotWait)
      else andReturn (s.wake k kReleaseWait interrupt) kOk

/-- `sleepThread`: a wakeup kept from before is used up, or the caller sleeps. -/
def sleepThread (s : Sched) (interrupt : Bool) : Sched × Reply :=
  if interrupt then (s, .returns kIllegalContext)
  else if 0 < (s.threads s.current).wakeupCount then
    (s.setThread s.current fun t => { t with wakeupCount := t.wakeupCount - 1 }, .returns kOk)
  else (s.blockCurrent .sleep 0, .traps .answer)

/-- `wakeupThread`: a sleeping thread runs on, and for any other the wakeup is kept. -/
def wakeupThread (s : Sched) (interrupt : Bool) (id : UInt32) : Sched × Reply :=
  if id = 0 then (s, .returns kIllegalThid)
  else match threadOf s.pools id with
    | none => (s, .returns kUnknownThid)
    | some k =>
      if (s.threads k).state = .dormant then (s, .returns kDormant)
      else if (s.threads k).state = .wait ∧ (s.threads k).waitType = .sleep then
        andReturn (s.wake k kOk interrupt) kOk
      else
        (s.setThread k fun t => { t with wakeupCount := add32 t.wakeupCount 1 }, .returns kOk)

/-- `cancelWakeupThread`: the wakeups kept are forgotten and their number is answered. -/
def cancelWakeupThread (s : Sched) (id : UInt32) : Sched × Reply :=
  match s.threadOrSelf id with
  | none => (s, .returns kUnknownThid)
  | some k =>
    (s.setThread k fun t => { t with wakeupCount := 0 },
      .returns (int32 (s.threads k).wakeupCount))

/-- `added` is what setting the alarm answers. -/
def delayThread (s : Sched) (interrupt : Bool) (added : ℤ) : Sched × Reply :=
  if interrupt then (s, .returns kIllegalContext)
  else if added ≠ kOk then (s, .returns added)
  else (s.blockCurrent .delay 0, .traps .answer)

/-- The callback of the alarm of a delay. -/
def delayExpired (s : Sched) (k : ℕ) : Sched :=
  if (s.threads k).state = .wait ∧ (s.threads k).waitType = .delay then (s.wake k kOk true).1 else s

/-! ### Objects with waiters -/

/-- A new object has no waiters. -/
def clearWaiters (s : Sched) (kind : Kind) (k : ℕ) : Sched :=
  (s.setQueue (.waiters kind k) (s.links, ⟨kNone, kNone⟩)).setCount kind k 0

/-- What the three create calls have in common: `fill` writes the record. -/
def createObject (s : Sched) (kind : Kind) (r : Except ℤ UInt32 × Pools)
    (fill : ℕ → Sched → Sched) : Sched × Reply :=
  match r with
  | (.error code, _) => (s, .returns code)
  | (.ok id, pools) =>
    (fill (slotOf id) ({ s with pools := pools }.clearWaiters kind (slotOf id)),
      .returns id.toNat)

/-- The loop of the delete calls. -/
def wakeAll (kind : Kind) (k : ℕ) : ℕ → Sched → Option Sched
  | 0, _ => none
  | n + 1, s =>
    let head := (s.queues (.waiters kind k)).head
    if head = kNone then some s else wakeAll kind k n (s.wake head kWaitDelete true).1

/-- The body of the three delete calls. -/
def deleteObject (s : Sched) (interrupt : Bool) (kind : Kind) (unknown : ℤ) (id : UInt32) :
    Option (Sched × Reply) :=
  if interrupt then some (s, .returns kIllegalContext)
  else match lookup kind s.pools id with
    | none => some (s, .returns unknown)
    | some k => (wakeAll kind k kQueueTurns s).map fun s =>
      ({ s with pools := vacate kind s.pools k }, .returns kOk)

/-- The caller joins the waiters of an object and blocks. -/
def blockOn (s : Sched) (kind : Kind) (waitType : WaitType) (k : ℕ) (id : UInt32)
    (byPriority : Bool) : Option (Sched × Reply) :=
  (if byPriority then s.enqueueByPriority (.waiters kind k) s.current
    else some (s.enqueue (.waiters kind k) s.current)).map fun s =>
      ((s.setCount kind k (s.waiterCount kind k + 1)).blockCurrent waitType id, .traps .answer)

/-! ### thevent -/

/-- The record of an event flag changed. -/
def setEvent (s : Sched) (k : ℕ) (f : EventFlag → EventFlag) : Sched :=
  { s with events := Function.update s.events k (f (s.events k)) }

/-- `createEventFlag`, with the bits it starts with. -/
def createEventFlag (s : Sched) (interrupt : Bool) (attr bits : UInt32) : Sched × Reply :=
  s.createObject .event (Threadman.createEventFlag interrupt attr s.pools) fun k s =>
    s.setEvent k fun _ => ⟨attr, bits⟩

/-- `deleteEventFlag`, which answers every waiter. -/
def deleteEventFlag (s : Sched) (interrupt : Bool) (id : UInt32) : Option (Sched × Reply) :=
  s.deleteObject interrupt .event kUnknownEvfid id

/-- `eventSatisfied`: any of the bits, or all of them, as the mode says. -/
def eventSatisfied (bits wanted mode : UInt32) : Bool :=
  if mode &&& kWaitOr ≠ 0 then bits &&& wanted != 0 else bits &&& wanted == wanted

/-- Write through the out-parameter of a call, unless it is null. -/
def writeOut (s : Sched) (result v : ℕ) : Sched :=
  if result = 0 then s else { s with out := Function.update s.out result v }

/-- A wait for a flag ends with its bits: they are written, and cleared if the mode says so. -/
def takeBits (s : Sched) (k result : ℕ) (mode : UInt32) : Sched :=
  let s := s.writeOut result (s.events k).bits.toNat
  if mode &&& kWaitClear ≠ 0 then s.setEvent k fun e => { e with bits := 0 } else s

/-- The loop of `setEventFlag`, from the waiter `at_` on. -/
def setLoop (interrupt : Bool) (k : ℕ) : ℕ → ℕ → Sched → Option (Sched × Reply)
  | 0, _, _ => none
  | n + 1, at_, s =>
    if at_ = kNone then some (s, .returns kOk)
    else
      let following := s.links.next at_
      let waiter := s.threads at_
      if eventSatisfied (s.events k).bits waiter.waitBits waiter.waitMode then
        let (s, trapped) := (s.takeBits k waiter.waitOut waiter.waitMode).wake at_ kOk interrupt
        if trapped then some (s, .traps (.setting k following))
        else setLoop interrupt k n following s
      else setLoop interrupt k n following s

/-- `setEventFlag`: the bits are added, and every waiter they satisfy is woken in turn. -/
def setEventFlag (s : Sched) (interrupt : Bool) (id bits : UInt32) : Option (Sched × Reply) :=
  match eventOf s.pools id with
  | none => some (s, .returns kUnknownEvfid)
  | some k =>
    if bits = 0 then some (s, .returns kOk)
    else
      let s := s.setEvent k fun e => { e with bits := e.bits ||| bits }
      setLoop interrupt k kQueueTurns (s.queues (.waiters .event k)).head s

/-- `clearEventFlag`: only the bits to keep stay. -/
def clearEventFlag (s : Sched) (id keep : UInt32) : Sched × Reply :=
  match eventOf s.pools id with
  | none => (s, .returns kUnknownEvfid)
  | some k => (s.setEvent k fun e => { e with bits := e.bits &&& keep }, .returns kOk)

/-- `waitEventFlag` and `pollEventFlag`, which differ in what they do without the bits. -/
def waitEventFlag (s : Sched) (interrupt : Bool) (id bits mode : UInt32) (result : ℕ)
    (poll : Bool) : Option (Sched × Reply) :=
  if interrupt then some (s, .returns kIllegalContext)
  else if mode &&& ~~~(kWaitOr ||| kWaitClear) ≠ 0 then some (s, .returns kIllegalMode)
  else if bits = 0 then some (s, .returns kEvfIlpat)
  else match eventOf s.pools id with
    | none => some (s, .returns kUnknownEvfid)
    | some k =>
      if (s.events k).attr &&& kEventMulti = 0 ∧ s.waiterCount .event k ≠ 0 then
        some (s, .returns kEvfMulti)
      else if eventSatisfied (s.events k).bits bits mode then
        some (s.takeBits k result mode, .returns kOk)
      else if poll then some (s, .returns kEvfCond)
      else
        let s := s.setThread s.current fun t =>
          { t with waitBits := bits, waitMode := mode, waitOut := result }
        s.blockOn .event .onEvent k id false

/-! ### thsemap -/

/-- The record of a semaphore changed. -/
def setSemaphore (s : Sched) (k : ℕ) (f : Semaphore → Semaphore) : Sched :=
  { s with semaphores := Function.update s.semaphores k (f (s.semaphores k)) }

/-- `createSema`, with its first count and its maximum. -/
def createSema (s : Sched) (interrupt : Bool) (attr : UInt32) (initial max : ℤ) :
    Sched × Reply :=
  s.createObject .semaphore (Threadman.createSema interrupt attr s.pools) fun k s =>
    s.setSemaphore k fun _ => ⟨attr, max, initial⟩

/-- `deleteSema`, which answers every waiter. -/
def deleteSema (s : Sched) (interrupt : Bool) (id : UInt32) : Option (Sched × Reply) :=
  s.deleteObject interrupt .semaphore kUnknownSemid id

/-- `signalSema`: the first waiter is served, and without one the count goes up. -/
def signalSema (s : Sched) (interrupt : Bool) (id : UInt32) : Sched × Reply :=
  match semaphoreOf s.pools id with
  | none => (s, .returns kUnknownSemid)
  | some k =>
    let head := (s.queues (.waiters .semaphore k)).head
    if head ≠ kNone then andReturn (s.wake head kOk interrupt) kOk
    else if (s.semaphores k).count < (s.semaphores k).max then
      (s.setSemaphore k fun m => { m with count := m.count + 1 }, .returns kOk)
    else (s, .returns kOk)

/-- `waitSema`: the count goes down, or the caller waits where the attribute says. -/
def waitSema (s : Sched) (interrupt : Bool) (id : UInt32) : Option (Sched × Reply) :=
  if interrupt then some (s, .returns kIllegalContext)
  else match semaphoreOf s.pools id with
    | none => some (s, .returns kUnknownSemid)
    | some k =>
      if 0 < (s.semaphores k).count then
        some (s.setSemaphore k fun m => { m with count := m.count - 1 }, .returns kOk)
      else s.blockOn .semaphore .onSema k id ((s.semaphores k).attr &&& kSemaPriority != 0)

/-- `pollSema`: the count goes down, or the caller is told there is none. -/
def pollSema (s : Sched) (id : UInt32) : Sched × Reply :=
  match semaphoreOf s.pools id with
  | none => (s, .returns kUnknownSemid)
  | some k =>
    if 0 < (s.semaphores k).count then
      (s.setSemaphore k fun m => { m with count := m.count - 1 }, .returns kOk)
    else (s, .returns kSemaZero)

/-! ### thmsgbx -/

/-- The record of a mailbox changed. -/
def setMailbox (s : Sched) (k : ℕ) (f : Mailbox → Mailbox) : Sched :=
  { s with mailboxes := Function.update s.mailboxes k (f (s.mailboxes k)) }

/-- Write the first word of a message. -/
def setNext (s : Sched) (message next : ℕ) : Sched :=
  { s with messages :=
      Function.update s.messages message { s.messages message with next := next } }

/-- The message a message's first word leads to. -/
def nextOf (s : Sched) (message : ℕ) : ℕ := (s.messages message).next

/-- The byte of a message's header that orders the ring. -/
def urgency (s : Sched) (message : ℕ) : UInt8 := (s.messages message).rest 0

/-- `createMbx`, with an empty ring. -/
def createMbx (s : Sched) (interrupt : Bool) (attr : UInt32) : Sched × Reply :=
  s.createObject .mailbox (Threadman.createMbx interrupt attr s.pools) fun k s =>
    s.setMailbox k fun _ => ⟨attr, 0, 0⟩

/-- `deleteMbx`, which answers every receiver. -/
def deleteMbx (s : Sched) (interrupt : Bool) (id : UInt32) : Option (Sched × Reply) :=
  s.deleteObject interrupt .mailbox kUnknownMbxid id

/-- The loop of `queueMessage`: where it stops, and whether it has been all around. The turns are
those that `position < message_count` leaves it. -/
def seekMessage (s : Sched) (message : ℕ) : ℕ → ℕ → ℕ × Bool
  | 0, previous => (previous, true)
  | n + 1, previous =>
    if s.urgency (s.nextOf previous) ≤ s.urgency message then
      seekMessage s message n (s.nextOf previous)
    else (previous, false)

/-- `queueMessage`: behind the others, or in front of the first that is less urgent. -/
def queueMessage (s : Sched) (k message : ℕ) : Sched :=
  let mailbox := s.mailboxes k
  if mailbox.tail = 0 then (s.setNext message message).setMailbox k ({ · with tail := message })
  else if mailbox.attr &&& kMbxMessagePriority = 0 then
    let s := s.setNext message (s.nextOf mailbox.tail)
    (s.setNext mailbox.tail message).setMailbox k ({ · with tail := message })
  else
    let (previous, around) := s.seekMessage message mailbox.messageCount mailbox.tail
    let s := s.setNext message (s.nextOf previous)
    let s := s.setNext previous message
    if around then s.setMailbox k ({ · with tail := message }) else s

/-- `dequeueMessage`: the first message of the ring, taken out of it. -/
def dequeueMessage (s : Sched) (k : ℕ) : ℕ × Sched :=
  let tail := (s.mailboxes k).tail
  let first := s.nextOf tail
  let s := if first = tail then s.setMailbox k ({ · with tail := 0 })
    else s.setNext tail (s.nextOf first)
  (first, s.setMailbox k fun m => { m with messageCount := sub32 m.messageCount 1 })

/-- `iForm` is which export is called; the two refuse each other's context. -/
def sendMbx (s : Sched) (interrupt iForm : Bool) (id : UInt32) (message : ℕ) : Sched × Reply :=
  if interrupt ≠ iForm then (s, .returns kIllegalContext)
  else match mailboxOf s.pools id with
    | none => (s, .returns kUnknownMbxid)
    | some k =>
      let head := (s.queues (.waiters .mailbox k)).head
      if head ≠ kNone then
        let s := s.writeOut (s.threads head).waitOut message
        andReturn (s.wake head kOk iForm) kOk
      else
        ((s.queueMessage k message).setMailbox k fun m =>
          { m with messageCount := add32 m.messageCount 1 }, .returns kOk)

/-- The end of a call that finds a message. -/
def takeMessage (s : Sched) (k received : ℕ) : Sched × Reply :=
  let (first, s) := s.dequeueMessage k
  ({ s with out := Function.update s.out received first }, .returns kOk)

/-- `ReceiveMbx`: the first message, or the caller waits for one. -/
def receiveMbx (s : Sched) (interrupt : Bool) (received : ℕ) (id : UInt32) :
    Option (Sched × Reply) :=
  if interrupt then some (s, .returns kIllegalContext)
  else match mailboxOf s.pools id with
    | none => some (s, .returns kUnknownMbxid)
    | some k =>
      if 0 < (s.mailboxes k).messageCount then some (s.takeMessage k received)
      else
        let s := s.setThread s.current fun t => { t with waitOut := received }
        s.blockOn .mailbox .onMbx k id ((s.mailboxes k).attr &&& kMbxThreadPriority != 0)

/-- `pollMbx`: the first message, or the caller is told there is none. -/
def pollMbx (s : Sched) (received : ℕ) (id : UInt32) : Sched × Reply :=
  match mailboxOf s.pools id with
  | none => (s, .returns kUnknownMbxid)
  | some k =>
    if (s.mailboxes k).messageCount = 0 then (s, .returns kMbxNoMsg) else s.takeMessage k received

end Sched

/-! ### Runs -/

/-- The calls, but for those that only read. -/
inductive Service
  | createThread (a : ThreadParameters) (stack : UInt32)
  | deleteThread (id : UInt32)
  | startThread (id : UInt32)
  | exitThread
  | terminateThread (id : UInt32)
  | changeThreadPriority (id priority : UInt32)
  | rotateThreadReadyQueue (priority : UInt32)
  | releaseWaitThread (id : UInt32)
  | sleepThread
  | wakeupThread (id : UInt32)
  | cancelWakeupThread (id : UInt32)
  | delayThread (added : ℤ)
  | createEventFlag (attr bits : UInt32)
  | deleteEventFlag (id : UInt32)
  | setEventFlag (id bits : UInt32)
  | clearEventFlag (id keep : UInt32)
  | waitEventFlag (id bits mode : UInt32) (result : ℕ) (poll : Bool)
  | createSema (attr : UInt32) (initial max : ℤ)
  | deleteSema (id : UInt32)
  | signalSema (id : UInt32)
  | waitSema (id : UInt32)
  | pollSema (id : UInt32)
  | createMbx (attr : UInt32)
  | deleteMbx (id : UInt32)
  | sendMbx (iForm : Bool) (id : UInt32) (message : ℕ)
  | receiveMbx (received : ℕ) (id : UInt32)
  | pollMbx (received : ℕ) (id : UInt32)
deriving DecidableEq, Repr

/-- A call, made by the current thread or by a handler. -/
def Sched.perform (s : Sched) (interrupt : Bool) : Service → Option (Sched × Reply)
  | .createThread a stack => some (s.createThread interrupt a stack)
  | .deleteThread id => some (s.deleteThread interrupt id)
  | .startThread id => some (s.startThread interrupt id)
  | .exitThread => some s.exitThread
  | .terminateThread id => some (s.terminateThread id)
  | .changeThreadPriority id priority => some (s.changeThreadPriority interrupt id priority)
  | .rotateThreadReadyQueue priority => some (s.rotateThreadReadyQueue interrupt priority)
  | .releaseWaitThread id => some (s.releaseWaitThread interrupt id)
  | .sleepThread => some (s.sleepThread interrupt)
  | .wakeupThread id => some (s.wakeupThread interrupt id)
  | .cancelWakeupThread id => some (s.cancelWakeupThread id)
  | .delayThread added => some (s.delayThread interrupt added)
  | .createEventFlag attr bits => some (s.createEventFlag interrupt attr bits)
  | .deleteEventFlag id => s.deleteEventFlag interrupt id
  | .setEventFlag id bits => s.setEventFlag interrupt id bits
  | .clearEventFlag id keep => some (s.clearEventFlag id keep)
  | .waitEventFlag id bits mode result poll => s.waitEventFlag interrupt id bits mode result poll
  | .createSema attr initial max => some (s.createSema interrupt attr initial max)
  | .deleteSema id => s.deleteSema interrupt id
  | .signalSema id => some (s.signalSema interrupt id)
  | .waitSema id => s.waitSema interrupt id
  | .pollSema id => some (s.pollSema id)
  | .createMbx attr => some (s.createMbx interrupt attr)
  | .deleteMbx id => s.deleteMbx interrupt id
  | .sendMbx iForm id message => some (s.sendMbx interrupt iForm id message)
  | .receiveMbx received id => s.receiveMbx interrupt received id
  | .pollMbx received id => some (s.pollMbx received id)

/-- `going`: the flag and the next waiter of the loop the current thread is in. -/
structure Processor where
  sched : Sched
  interrupt : Bool
  going : Option (ℕ × ℕ)

/-- What can happen next: a call of the running thread, a walk that goes on, and an interrupt with
what its handlers ask for and what the delays that run out do. -/
inductive Act
  | call (c : Service)
  | goOn
  | enter
  | handler (c : Service)
  | expire (k : ℕ)
  | leave (v0 : ℤ)
deriving DecidableEq, Repr

namespace Processor

/-- What a call has answered, to which thread or to the handler. -/
inductive Told
  | nobody
  | thread (k : ℕ) (v : ℤ)
  | handler (v : ℤ)
deriving DecidableEq, Repr

/-- The thread that has been switched to goes on. -/
def resumed (s : Sched) : Option (Told × Processor) :=
  match (s.threads s.current).frame with
  | none => none
  | some ⟨v0, resume⟩ =>
    match resume with
    | .own => some (.nobody, ⟨s, false, none⟩)
    | .answer => some (.thread s.current v0, ⟨s, false, none⟩)
    | .value v => some (.thread s.current v, ⟨s, false, none⟩)
    | .setting event following => some (.nobody, ⟨s, false, some (event, following)⟩)
    | .endless => none

/-- The trap leaves 0 in `$v0`. -/
def replied : Sched × Reply → Option (Told × Processor)
  | (s, .returns v) => some (.thread s.current v, ⟨s, false, none⟩)
  | (s, .traps resume) => resumed (s.newContext ⟨0, resume⟩)

/-- Nothing else can happen while a thread is in the loop of `setEventFlag`, and no thread runs
while a handler does. -/
def step (m : Processor) : Act → Option (Told × Processor)
  | .call c =>
    if m.interrupt ∨ m.going ≠ none then none else (m.sched.perform false c).bind replied
  | .goOn =>
    m.going.bind fun g => (Sched.setLoop false g.1 Sched.kQueueTurns g.2 m.sched).bind replied
  | .enter =>
    if m.interrupt ∨ m.going ≠ none then none else some (.nobody, { m with interrupt := true })
  | .handler c =>
    if m.interrupt = false ∨ c = .exitThread then none
    else (m.sched.perform true c).bind fun r =>
      match r.2 with
      | .returns v => some (.handler v, { m with sched := r.1 })
      | .traps _ => none
  | .expire k =>
    if m.interrupt = false ∨ kThreads ≤ k then none
    else some (.nobody, { m with sched := m.sched.delayExpired k })
  | .leave v0 =>
    if m.interrupt = false then none
    else if m.sched.shouldPreempt then resumed (m.sched.newContext ⟨v0, .own⟩)
    else some (.nobody, { m with interrupt := false })

/-- After the entry of the module. -/
def started (messages : ℕ → Message) (out : ℕ → ℕ) : Processor :=
  ⟨Sched.started messages out, false, none⟩

end Processor

end PS2Bios.Threadman
