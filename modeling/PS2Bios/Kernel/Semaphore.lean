import PS2Bios.Kernel.Thread

/-!
# The EE kernel's semaphores, and the kernel as a machine

The semaphore calls of `src/kernel/thread.cpp`, and with them the machine whose runs the
theorems are about: the running thread makes a system call, a handler makes a direct-form call,
an interrupt is entered and left. Each is one step, because the kernel's own code runs with
interrupts off.
-/

namespace PS2Bios.Kernel

open Intrusive State

/-- The words of `ee_sema_t` that slot 0x40 reads. -/
structure SemaParam where
  maxCount : ℕ
  initCount : ℕ
  attr : ℕ
  option : ℕ
  deriving DecidableEq

/-- Slot 0x40. -/
def sysCreateSema (p : SemaParam) : Direct := fun s =>
  if s.freeSemaphore = kNone then some (-1, s)
  else if int32 p.initCount < 0 then some (-1, s)
  else
    let id := s.freeSemaphore
    let s := { s with freeSemaphore := (s.semaphore id).nextFree }
    some (id, s.setSemaphore id fun m =>
      { m with
        count := int32 p.initCount
        maxCount := int32 p.maxCount
        attr := p.attr
        option := p.option
        waitCount := 0
        waitHead := kNone
        waitTail := kNone })

/-- Whether the id names a semaphore in use. -/
def allocated (s : State) (id : ℕ) : Prop := id < kSemaphores ∧ 0 ≤ (s.semaphore id).count

instance (s : State) (id : ℕ) : Decidable (allocated s id) := inferInstanceAs (Decidable (_ ∧ _))

/-- Hand a waiting thread back: off the list, and ready unless it was suspended meanwhile. -/
def wakeWaiter (s : State) (sema id : ℕ) : State :=
  let s := (s.unlinkWaiter sema id).setThread id fun t => { t with waitType := .notWaiting }
  match (s.thread id).state with
  | .wait => s.makeReady id
  | .waitSuspend => s.setThread id fun t => { t with state := .suspend }
  | _ => s

/-- `while (sema->wait_head != kNone)`, `n` turns of it; `none` when they do not suffice. -/
def releaseWaiters (sema : ℕ) : ℕ → State → Option State
  | 0, s => if (s.semaphore sema).waitHead = kNone then some s else none
  | n + 1, s =>
    let waiter := (s.semaphore sema).waitHead
    if waiter = kNone then some s
    else releaseWaiters sema n (wakeWaiter (s.setResumeValue waiter (toWord (-1))) sema waiter)

/-- Slot 0x49. There are `kThreads` threads, so the list is not longer. -/
def deleteSema (id : ℕ) : Direct := fun s =>
  if ¬allocated s id then some (-1, s)
  else
    (releaseWaiters id kThreads s).map fun s => (id, s.releaseSemaphore id)

/-- Slot 0x41. -/
def sysDeleteSema (id : ℕ) : State → Option (ℕ × State) := thenYield (deleteSema id)

/-- Slot 0x43. The count is incremented in 32 bits, with no check of the maximum. -/
def signalSema (id : ℕ) : Direct := fun s =>
  if ¬allocated s id then some (-1, s)
  else if (s.semaphore id).waitHead = kNone then
    some (id, s.setSemaphore id fun m => { m with count := int32 (toWord (m.count + 1)) })
  else
    let waiter := (s.semaphore id).waitHead
    some (id, wakeWaiter (s.setResumeValue waiter id) id waiter)

/-- Slot 0x42. -/
def sysSignalSema (id : ℕ) : State → Option (ℕ × State) := thenYield (signalSema id)

/-- Slot 0x44. The caller is put on the wait list first, and taken off its ready queue by
`block` after that. -/
def sysWaitSema (id : ℕ) (s : State) : Option (ℕ × State) :=
  if ¬allocated s id then some (toWord (-1), s)
  else if 0 < (s.semaphore id).count then
    some (id, s.setSemaphore id fun m => { m with count := m.count - 1 })
  else
    let m := s.semaphore id
    let r := enqueue kNone s.links ⟨m.waitHead, m.waitTail⟩ s.currentThread
    let s := { s with links := r.1 }.setSemaphore id fun m =>
      { m with waitHead := r.2.head, waitTail := r.2.tail, waitCount := add32 m.waitCount 1 }
    s.block .onSemaphore id id

/-- Slots 0x45 and 0x46. -/
def sysPollSema (id : ℕ) : Direct := fun s =>
  if ¬allocated s id ∨ (s.semaphore id).count ≤ 0 then some (-1, s)
  else some (id, s.setSemaphore id fun m => { m with count := m.count - 1 })

/-- Slots 0x47 and 0x48: the answer, and the words written for a caller that gave a block, by
place; the word at `out+0x08` is not written. -/
def sysReferSemaStatus (id : ℕ) (s : State) : ℤ × List (ℕ × ℕ) :=
  if ¬allocated s id then (-1, [])
  else
    let m := s.semaphore id
    (id, [(0, toWord m.count), (1, toWord m.maxCount), (3, m.waitCount), (4, m.attr),
      (5, m.option)])

/-! ### The machine -/

/-- The calls that never switch, so that a handler can make them. -/
inductive DirectCall
  | createThread (p : ThreadParam)
  | deleteThread (id : ℕ)
  | terminateThread (id : ℕ)
  | changeThreadPriority (id priority : ℕ)
  | rotateReadyQueue (priority : ℕ)
  | releaseWaitThread (id : ℕ)
  | getThreadId
  | referThreadStatus (id : ℕ)
  | wakeupThread (id : ℕ)
  | cancelWakeupThread (id : ℕ)
  | suspendThread (id : ℕ)
  | resumeThread (id : ℕ)
  | createSema (p : SemaParam)
  | deleteSema (id : ℕ)
  | signalSema (id : ℕ)
  | pollSema (id : ℕ)
  | referSemaStatus (id : ℕ)
  deriving DecidableEq

/-- What a direct-form call does. -/
def DirectCall.run : DirectCall → Direct
  | createThread p => sysCreateThread p
  | deleteThread id => sysDeleteThread id
  | terminateThread id => Kernel.terminateThread id
  | changeThreadPriority id priority => Kernel.changeThreadPriority id priority
  | rotateReadyQueue priority => Kernel.rotateReadyQueue priority
  | releaseWaitThread id => Kernel.releaseWaitThread id
  | getThreadId => sysGetThreadId
  | referThreadStatus id => fun s => some ((sysReferThreadStatus id s).1, s)
  | wakeupThread id => Kernel.wakeupThread id
  | cancelWakeupThread id => sysCancelWakeupThread id
  | suspendThread id => sysSuspendThread id
  | resumeThread id => Kernel.resumeThread id
  | createSema p => sysCreateSema p
  | deleteSema id => Kernel.deleteSema id
  | signalSema id => Kernel.signalSema id
  | pollSema id => sysPollSema id
  | referSemaStatus id => fun s => some ((sysReferSemaStatus id s).1, s)

/-- The calls of the running thread. -/
inductive Call
  | direct (c : DirectCall)
  | startThread (id arg : ℕ)
  | exitThread
  | exitDeleteThread
  | terminateThread (id : ℕ)
  | changeThreadPriority (id priority : ℕ)
  | rotateReadyQueue (priority : ℕ)
  | releaseWaitThread (id : ℕ)
  | sleepThread
  | wakeupThread (id : ℕ)
  | resumeThread (id : ℕ)
  | deleteSema (id : ℕ)
  | signalSema (id : ℕ)
  | waitSema (id : ℕ)
  deriving DecidableEq

/-- What a call does: the answer that is in `$v0` on the way out, and the state. -/
def Call.run : Call → State → Option (ℕ × State)
  | direct c => fun s => (c.run s).map fun r => (toWord r.1, r.2)
  | startThread id arg => sysStartThread id arg
  | exitThread => sysExitThread
  | exitDeleteThread => sysExitDeleteThread
  | terminateThread id => sysTerminateThread id
  | changeThreadPriority id priority => sysChangeThreadPriority id priority
  | rotateReadyQueue priority => sysRotateThreadReadyQueue priority
  | releaseWaitThread id => sysReleaseWaitThread id
  | sleepThread => sysSleepThread
  | wakeupThread id => sysWakeupThread id
  | resumeThread id => sysResumeThread id
  | deleteSema id => sysDeleteSema id
  | signalSema id => sysSignalSema id
  | waitSema id => sysWaitSema id

/-- The direct form of a call that yields unless its direct form refuses. -/
def Call.yielding : Call → Option DirectCall
  | changeThreadPriority id priority => some (.changeThreadPriority id priority)
  | rotateReadyQueue priority => some (.rotateReadyQueue priority)
  | releaseWaitThread id => some (.releaseWaitThread id)
  | wakeupThread id => some (.wakeupThread id)
  | resumeThread id => some (.resumeThread id)
  | deleteSema id => some (.deleteSema id)
  | signalSema id => some (.signalSema id)
  | _ => none

theorem Call.run_of_yielding {c : Call} {d : DirectCall} (h : c.yielding = some d) :
    c.run = thenYield d.run := by
  cases c <;> cases h <;> rfl

/-- The direct form of a call that has one. -/
def Call.directForm : Call → Option DirectCall
  | direct c => some c
  | terminateThread id => some (.terminateThread id)
  | c => c.yielding

theorem Call.directForm_of_yielding {c : Call} {d : DirectCall} (h : c.yielding = some d) :
    c.directForm = some d := by
  cases c <;> cases h <;> rfl

/-- What happens to the machine: a system call of the running thread, with the registers the
dispatcher saved and the advanced EPC; a handler's direct-form call; the outermost interrupt's
entry and exit, the latter with the frame the entry built. -/
inductive Event
  | syscall (c : Call) (block : Block) (epc : ℕ)
  | handler (c : DirectCall)
  | interruptEntry
  | interruptExit (frame : Block)

/-- The direct form a step goes through. -/
def Event.direct : Event → Option DirectCall
  | syscall c _ _ => c.directForm
  | handler c => some c
  | interruptEntry | interruptExit _ => none

/-- One step: what is in `$v0` afterwards (for a call: the answer of the thread that runs on;
for an interrupt exit: the word its frame restores), and the state. `none` when the kernel
stops. -/
def Event.run : Event → State → Option (ℕ × State)
  | syscall c block epc => fun s => c.run { s with syscallContext := block, epc := epc }
  | handler c => fun s => (c.run s).map fun r => (toWord r.1, r.2)
  | interruptEntry => fun s => some (0, s.clearRescheduleRequest)
  | interruptExit frame => fun s =>
    (s.interruptReschedule frame).map fun r => (r.1.getD frame kSlotV0, r.2)

end PS2Bios.Kernel
