import PS2Bios.Kernel.Record

/-!
# The EE kernel's threads

The queues, the switch and the thread calls of `src/kernel/thread.cpp`. A call that may block or
reschedule ends in `resume`, which brings the picked thread in and answers what that thread
finds in `$v0`; the model is an `Option` because the kernel stops for good when nothing is ready
(`pickNext`). The direct forms never switch, so a handler can make them.

Each rescheduling form is its direct form followed by `yield`, unless the direct form refused
(`thenYield`).
-/

namespace PS2Bios.Kernel

open Intrusive

namespace State

/-! ### Queues -/

/-- The queue a thread is ready in: its priority's, except the boot thread's. -/
def queueOf (s : State) (id : ℕ) : ℕ :=
  if id = 0 then kIdleQueue else (s.thread id).currentPriority

/-- Append to the thread's ready queue. -/
def linkReady (s : State) (id : ℕ) : State :=
  let queue := s.queueOf id
  let r := enqueue kNone s.links (s.readyQueue queue) id
  { s with
    links := r.1
    readyQueue := Function.update s.readyQueue queue r.2
    lowestReady := if queue < s.lowestReady then queue else s.lowestReady
    rescheduleRequested := s.rescheduleRequested || queue < s.queueOf s.currentThread }

/-- The thread goes to the end of its priority's queue. -/
def makeReady (s : State) (id : ℕ) : State :=
  (s.setThread id fun t => { t with state := .ready }).linkReady id

/-- The thread leaves its priority's queue. -/
def takeOffReadyQueue (s : State) (id : ℕ) : State :=
  let r := unlink kNone s.links (s.readyQueue (s.queueOf id)) id
  { s with links := r.1, readyQueue := Function.update s.readyQueue (s.queueOf id) r.2 }

/-- Take a thread off a semaphore's list, and count it off. -/
def unlinkWaiter (s : State) (sema id : ℕ) : State :=
  let m := s.semaphore sema
  let r := unlink kNone s.links ⟨m.waitHead, m.waitTail⟩ id
  { s with links := r.1 }.setSemaphore sema fun m =>
    { m with
      waitHead := r.2.head
      waitTail := r.2.tail
      waitCount := if 0 < m.waitCount then m.waitCount - 1 else m.waitCount }

/-- A thread waiting on a semaphore leaves its list; any wait is over. -/
def leaveWaitList (s : State) (id : ℕ) : State :=
  let t := s.thread id
  (if t.waitType = .onSemaphore ∧ t.waitId < kSemaphores then s.unlinkWaiter t.waitId id else s)
    |>.setThread id fun t => { t with waitType := .notWaiting }

/-! ### The switch -/

/-- Park the running thread: its registers go to a frame below its stack pointer. -/
def parkCurrent (s : State) (block : Block) (resumePc : ℕ) (byInterrupt : Bool) : State :=
  let s := s.setThread s.currentThread fun t =>
    { t with resumePc := resumePc, context := sub32 (block kSlotSp) kFramePush }
  { s with
    frame := Function.update s.frame s.currentThread block
    parkedByInterrupt := Function.update s.parkedByInterrupt s.currentThread byInterrupt }

/-- The caller's context goes into its own record. -/
def saveCaller (s : State) : State := s.parkCurrent s.syscallContext s.epc false

/-- The head of the lowest-numbered non-empty queue, read and not taken. -/
def pickNext (s : State) : Option (ℕ × State) :=
  match (List.range' s.lowestReady (kQueues - s.lowestReady)).find? fun queue =>
      (s.readyQueue queue).head ≠ kNone with
  | some queue => some ((s.readyQueue queue).head, { s with lowestReady := queue })
  | none => none

/-- Bring a thread in; the answer is what its frame says about `$v0`. -/
def resume (s : State) (id : ℕ) : ℕ × State :=
  let s := { s with currentThread := id }.setThread id fun t => { t with state := .run }
  (s.frame id kSlotV0,
    { s with
      syscallContext := s.frame id
      epc := (s.thread id).resumePc
      syscallRestoreFull := s.parkedByInterrupt id })

/-- What a parked thread's call answers when the thread is resumed. -/
def setResumeValue (s : State) (id value : ℕ) : State :=
  { s with frame := Function.update s.frame id (Function.update (s.frame id) kSlotV0 value) }

/-- `resume(pickNext())`. -/
def resumeNext (s : State) : Option (ℕ × State) :=
  s.pickNext.map fun r => r.2.resume r.1

/-- The caller stays ready with `answer` as its own result, and the pick runs. -/
def yield (s : State) (answer : ℕ) : Option (ℕ × State) :=
  let s := s.saveCaller.setResumeValue s.currentThread answer
  (s.setThread s.currentThread fun t => { t with state := .ready }).resumeNext

/-- The caller blocks; `answer` is what its call returns if nobody says otherwise. -/
def block (s : State) (type : WaitType) (waitId answer : ℕ) : Option (ℕ × State) :=
  let s := s.saveCaller.setResumeValue s.currentThread answer
  let s := s.takeOffReadyQueue s.currentThread
  (s.setThread s.currentThread fun t =>
    { t with state := .wait, waitType := type, waitId := waitId }).resumeNext

/-- A fresh frame for a thread about to be started. -/
def primeFrame (s : State) (id : ℕ) : State :=
  let t := s.thread id
  let top := add32 t.stack t.stackSize
  let fresh : Block := fun k =>
    if k = kSlotGp then t.gp
    else if k = kSlotSp ∨ k = kSlotFp then sub32 top 0x20
    else if k = kSlotRa then t.root
    else 0
  { s with frame := Function.update s.frame id fresh }.setThread id fun t =>
    { t with context := sub32 top kFrameBytes }

/-- Back to dormant, startable again. -/
def resetToDormant (s : State) (id : ℕ) : State :=
  (s.setThread id fun t =>
    { t with
      state := .dormant
      resumePc := t.entry
      currentPriority := t.initialPriority
      waitType := .notWaiting
      wakeupCount := 0 }).primeFrame id

/-- Give the record back: in front of the free list. -/
def release (s : State) (id : ℕ) : State :=
  { s with links := s.links.setNext id s.freeThread, freeThread := id }.setThread id fun t =>
    { t with state := .free }

/-- Take the head of the free list; a record in use starts with its links cleared. -/
def takeFreeThread (s : State) : State :=
  { s with
    freeThread := s.links.next s.freeThread
    links := (s.links.setNext s.freeThread kNone).setPrev s.freeThread kNone }

/-- Give a semaphore back: in front of the free list. -/
def releaseSemaphore (s : State) (id : ℕ) : State :=
  { s with freeSemaphore := id }.setSemaphore id fun m =>
    { m with count := -1, nextFree := s.freeSemaphore }

/-- Take a thread out of whatever it is in, whatever its state. -/
def detach (s : State) (id : ℕ) : State :=
  match (s.thread id).state with
  | .run | .ready => s.takeOffReadyQueue id
  | .wait | .waitSuspend => s.leaveWaitList id
  | _ => s

/-- The id is one of a thread there can be, and not the caller's. -/
def validOther (s : State) (id : ℕ) : Prop := 1 ≤ id ∧ id < kThreads ∧ id ≠ s.currentThread

instance (s : State) (id : ℕ) : Decidable (s.validOther id) :=
  inferInstanceAs (Decidable (_ ∧ _ ∧ _))

/-! ### The interrupt's side -/

/-- The request is answered. -/
def clearRescheduleRequest (s : State) : State := { s with rescheduleRequested := false }

/-- The interrupt exit: if a switch is due, the interrupted thread is parked with the frame the
entry built, and the frame the exit restores is the picked thread's. -/
def interruptReschedule (s : State) (frame : Block) : Option (Option Block × State) :=
  if s.rescheduleRequested = false then some (none, s)
  else
    let s := { s with rescheduleRequested := false }.parkCurrent frame (frame 0) true
    let s := s.setThread s.currentThread fun t => { t with state := .ready }
    s.pickNext.map fun r =>
      let next := r.1
      let s := { r.2 with currentThread := next }.setThread next fun t => { t with state := .run }
      -- Status stays the interrupted thread's
      (some (Function.update (Function.update (s.frame next) kWordStatus (frame kWordStatus))
        0 (s.thread next).resumePc), s)

end State

open State

/-! ### The tables at first use -/

/-- `for (k = n; k >= 1; k--)`: every thread but the boot thread is free. -/
def freeThreads (s : State) : ℕ → State
  | 0 => s
  | k + 1 => freeThreads (s.release (k + 1)) k

/-- `for (k = n; k-- > 0;)`: every semaphore is free. -/
def freeSemaphores (s : State) : ℕ → State
  | 0 => s
  | k + 1 => freeSemaphores (s.releaseSemaphore k) k

/-- A record of the zero-filled table. -/
def zeroRecord : ThreadRecord where
  state := .free
  resumePc := 0
  context := 0
  gp := 0
  initialPriority := 0
  currentPriority := 0
  waitType := .notWaiting
  waitId := 0
  wakeupCount := 0
  attr := 0
  option := 0
  entry := 0
  argc := 0
  args := 0
  stack := 0
  stackSize := 0
  root := 0
  heapEnd := 0
  startArg := 0

/-- The variables before the tables are set up. -/
def zeroState (threadRoot : ℕ) : State where
  threadRoot := threadRoot
  thread := fun _ => zeroRecord
  links := ⟨fun _ => 0, fun _ => 0⟩
  semaphore := fun _ => ⟨0, 0, 0, 0, 0, 0, 0, 0⟩
  readyQueue := fun _ => ⟨0, 0⟩
  currentThread := 0
  lowestReady := kQueues
  freeThread := kNone
  freeSemaphore := kNone
  rescheduleRequested := false
  parkedByInterrupt := fun _ => false
  frame := fun _ _ => 0
  syscallContext := fun _ => 0
  syscallRestoreFull := false
  epc := 0

/-- Every ready queue is empty. -/
def emptyTables (threadRoot : ℕ) : State :=
  { zeroState threadRoot with readyQueue := fun _ => ⟨kNone, kNone⟩ }

/-- The boot thread is alone in its own queue, behind every priority. -/
def queueBootThread (s : State) : State :=
  let s := s.setThread 0 fun t =>
    { t with state := .ready, initialPriority := kBootPriority, currentPriority := kBootPriority }
  let r := enqueue kNone s.links (s.readyQueue kIdleQueue) 0
  { s with
    links := r.1
    readyQueue := Function.update s.readyQueue kIdleQueue r.2
    lowestReady := kIdleQueue }

/-- The tables as the boot sets them up: the boot thread ready, every other record free. -/
def prepareTables (threadRoot : ℕ) : State :=
  freeSemaphores (queueBootThread (freeThreads (emptyTables threadRoot) (kThreads - 1)))
    kSemaphores

/-- The first program's thread takes the first free record and runs at the boot priority; the
boot thread stays behind in its own queue, in the idle loop. -/
def startProgramThread (s : State) (gp entry idleLoop idleStackTop : ℕ) : State :=
  let idle : Block := fun k =>
    if k = kSlotSp ∨ k = kSlotFp then sub32 idleStackTop 0x20
    else if k = kSlotRa then idleLoop
    else 0
  let s := { s with frame := Function.update s.frame 0 idle }.setThread 0 fun t =>
    { t with resumePc := idleLoop, state := .ready }
  let id := s.freeThread
  let s := s.takeFreeThread.setThread id fun _ =>
    { zeroRecord with
      state := .run
      resumePc := entry
      entry := entry
      gp := gp
      initialPriority := kBootPriority
      currentPriority := kBootPriority }
  { s.linkReady id with currentThread := id }

/-! ### Thread calls -/

/-- The words of `ee_thread_t` that slot 0x20 reads. -/
structure ThreadParam where
  entry : ℕ
  stack : ℕ
  stackSize : ℕ
  gp : ℕ
  initialPriority : ℕ
  attr : ℕ
  option : ℕ
  deriving DecidableEq

/-- A direct form: it answers at once and never switches. -/
abbrev Direct := State → Option (ℤ × State)

/-- The rescheduling form of a direct form: a refusal is answered, anything else yields. -/
def thenYield (f : Direct) (s : State) : Option (ℕ × State) :=
  (f s).bind fun r => if r.1 < 0 then some (toWord r.1, r.2) else r.2.yield (toWord r.1)

/-- What slot 0x20 writes into a record: the caller's words, and the creator's heap end and
root. The priority is cut to 16 bits. -/
def ThreadParam.fill (p : ThreadParam) (heapEnd root : ℕ) (t : ThreadRecord) : ThreadRecord :=
  { t with
    entry := p.entry
    stack := p.stack
    stackSize := p.stackSize
    gp := p.gp
    initialPriority := p.initialPriority % 2 ^ 16
    currentPriority := p.initialPriority % 2 ^ 16
    attr := p.attr
    option := p.option
    waitId := 0
    argc := 0
    args := 0
    startArg := 0
    heapEnd := heapEnd
    root := root }

/-- Slot 0x20. -/
def sysCreateThread (p : ThreadParam) : Direct := fun s =>
  if s.freeThread = kNone then some (-1, s)
  else
    let id := s.freeThread
    let creator := s.current
    let root := if creator.root ≠ 0 then creator.root else s.threadRoot
    let s := { s with parkedByInterrupt := Function.update s.parkedByInterrupt id false }
    let s := s.takeFreeThread.setThread id (p.fill creator.heapEnd root)
    some (id, s.resetToDormant id)

/-- Slot 0x21. -/
def sysDeleteThread (id : ℕ) : Direct := fun s =>
  if ¬s.validOther id ∨ (s.thread id).state ≠ .dormant then some (-1, s)
  else some (id, s.release id)

/-- Slot 0x22. -/
def sysStartThread (id arg : ℕ) (s : State) : Option (ℕ × State) :=
  if ¬s.validOther id ∨ (s.thread id).state ≠ .dormant then some (toWord (-1), s)
  else
    let s := { s with
      frame := Function.update s.frame id (Function.update (s.frame id) kSlotA0 arg) }
    let s := s.setThread id fun t => { t with startArg := arg, resumePc := t.entry }
    (s.makeReady id).yield id

/-- Slot 0x23. -/
def sysExitThread (s : State) : Option (ℕ × State) :=
  ((s.takeOffReadyQueue s.currentThread).resetToDormant s.currentThread).resumeNext

/-- Slot 0x24. -/
def sysExitDeleteThread (s : State) : Option (ℕ × State) :=
  ((s.takeOffReadyQueue s.currentThread).release s.currentThread).resumeNext

/-- Slot 0x26. -/
def terminateThread (id : ℕ) : Direct := fun s =>
  if id < 1 ∨ kThreads ≤ id then some (-1, s)
  else if (s.thread id).state = .free ∨ (s.thread id).state = .dormant then some (-1, s)
  else some (id, (s.detach id).resetToDormant id)

/-- Slot 0x25: a thread that terminates itself is not there to yield. -/
def sysTerminateThread (id : ℕ) (s : State) : Option (ℕ × State) :=
  (terminateThread id s).bind fun r =>
    if r.1 < 0 then some (toWord r.1, r.2)
    else if id = r.2.currentThread then r.2.resumeNext
    else r.2.yield (toWord r.1)

/-- Slot 0x2A. The id 0 is the caller. -/
def changeThreadPriority (id priority : ℕ) : Direct := fun s =>
  let id := if id = 0 then s.currentThread else id
  if kThreads ≤ id ∨ 128 ≤ priority then some (-1, s)
  else
    let t := s.thread id
    if t.state = .free ∨ t.state = .dormant then some (-1, s)
    else
      let previous := int16 t.currentPriority
      if t.state = .run ∨ t.state = .ready then
        let s := (s.takeOffReadyQueue id).setThread id fun t =>
          { t with currentPriority := priority }
        some (previous, s.linkReady id)
      else some (previous, s.setThread id fun t => { t with currentPriority := priority })

/-- Slot 0x29. -/
def sysChangeThreadPriority (id priority : ℕ) : State → Option (ℕ × State) :=
  thenYield (changeThreadPriority id priority)

/-- Slot 0x2C: the head goes to the tail. -/
def rotateReadyQueue (priority : ℕ) : Direct := fun s =>
  if 128 ≤ priority then some (-1, s)
  else
    let r := popFront kNone s.links (s.readyQueue priority)
    let head := r.1
    let s := { s with
      links := r.2.1, readyQueue := Function.update s.readyQueue priority r.2.2 }
    if head ≠ kNone then
      let r := enqueue kNone s.links (s.readyQueue priority) head
      some (priority, { s with
        links := r.1, readyQueue := Function.update s.readyQueue priority r.2 })
    else some (priority, s)

/-- Slot 0x2B. -/
def sysRotateThreadReadyQueue (priority : ℕ) : State → Option (ℕ × State) :=
  thenYield (rotateReadyQueue priority)

/-- Slot 0x2E: the released thread's call answers -1. -/
def releaseWaitThread (id : ℕ) : Direct := fun s =>
  if id < 1 ∨ kThreads ≤ id then some (-1, s)
  else
    match (s.thread id).state with
    | .free => some (-1, s)
    | .wait => some (id, ((s.leaveWaitList id).setResumeValue id (toWord (-1))).makeReady id)
    | .waitSuspend =>
      some (id, ((s.leaveWaitList id).setResumeValue id (toWord (-1))).setThread id fun t =>
        { t with state := .suspend })
    | _ => some (id, s)

/-- Slot 0x2D. -/
def sysReleaseWaitThread (id : ℕ) : State → Option (ℕ × State) :=
  thenYield (releaseWaitThread id)

/-- Slot 0x2F. -/
def sysGetThreadId : Direct := fun s => some (s.currentThread, s)

/-- The twelve words slot 0x30 writes. -/
def statusBlock (t : ThreadRecord) : List ℕ :=
  [t.state.code, t.entry, t.stack, t.stackSize, t.gp, toWord (int16 t.initialPriority),
    toWord (int16 t.currentPriority), t.attr, t.option, t.waitType.code, t.waitId, t.wakeupCount]

/-- Slot 0x30: the state, and the block for a caller that gave one. -/
def sysReferThreadStatus (id : ℕ) (s : State) : ℤ × List ℕ :=
  let id := if id = 0 then s.currentThread else id
  if kThreads ≤ id then (-1, [])
  else ((s.thread id).state.code, statusBlock (s.thread id))

/-- Slot 0x32. -/
def sysSleepThread (s : State) : Option (ℕ × State) :=
  if 0 < s.current.wakeupCount then
    some (s.currentThread, s.setThread s.currentThread fun t =>
      { t with wakeupCount := t.wakeupCount - 1 })
  else s.block .sleeping 0 s.currentThread

/-- One more wake-up, in 32 bits. -/
def countWakeup (s : State) (id : ℕ) : State :=
  s.setThread id fun t => { t with wakeupCount := add32 t.wakeupCount 1 }

/-- Slot 0x34. -/
def wakeupThread (id : ℕ) : Direct := fun s =>
  if kThreads ≤ id then some (-1, s)
  else
    match (s.thread id).state with
    | .wait =>
      if (s.thread id).waitType = .sleeping then
        some (id, (s.setThread id fun t => { t with waitType := .notWaiting }).makeReady id)
      else some (id, countWakeup s id)
    | .ready | .suspend => some (id, countWakeup s id)
    | .waitSuspend =>
      if (s.thread id).waitType = .sleeping then
        some (id, s.setThread id fun t => { t with waitType := .notWaiting, state := .suspend })
      else some (id, countWakeup s id)
    | _ => some (-1, s)

/-- Slot 0x33. -/
def sysWakeupThread (id : ℕ) : State → Option (ℕ × State) := thenYield (wakeupThread id)

/-- Slots 0x35 and 0x36. -/
def sysCancelWakeupThread (id : ℕ) : Direct := fun s =>
  if kThreads ≤ id then some (-1, s)
  else some (int32 (s.thread id).wakeupCount, s.setThread id fun t => { t with wakeupCount := 0 })

/-- Slots 0x37 and 0x38. A running thread that suspends itself goes on running. -/
def sysSuspendThread (id : ℕ) : Direct := fun s =>
  if id < 1 ∨ kThreads ≤ id then some (-1, s)
  else
    match (s.thread id).state with
    | .run | .ready =>
      some (id, (s.takeOffReadyQueue id).setThread id fun t => { t with state := .suspend })
    | .wait => some (id, s.setThread id fun t => { t with state := .waitSuspend })
    | _ => some (-1, s)

/-- Slot 0x3A. -/
def resumeThread (id : ℕ) : Direct := fun s =>
  if ¬s.validOther id then some (-1, s)
  else
    match (s.thread id).state with
    | .suspend => some (id, s.makeReady id)
    | .waitSuspend => some (id, s.setThread id fun t => { t with state := .wait })
    | _ => some (-1, s)

/-- Slot 0x39. -/
def sysResumeThread (id : ℕ) : State → Option (ℕ × State) := thenYield (resumeThread id)

end PS2Bios.Kernel
