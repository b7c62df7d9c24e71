import PS2Bios.Library.LinkedList
import PS2Bios.Library.Word

/-!
# The EE kernel's thread and semaphore tables

The records of `src/kernel/thread.cpp` and the state they live in. Ids are natural numbers with
`kNone` for "no record", as in the source; words are natural numbers below `2 ^ 32`. The two
link fields of a thread record are kept beside the table, as one `Intrusive.Links`, because one
pair serves the ready queues, the wait lists and the free list.

A thread that is out has its registers in a frame on its own stack. Frames are kept by thread:
the stacks of two threads are different memory, and nobody but the kernel writes below the
stack pointer of a thread that is out.
-/

namespace PS2Bios.Kernel

open Intrusive

/-- The thread records. -/
def kThreads : ℕ := 256

/-- The semaphore records. -/
def kSemaphores : ℕ := 256

/-- The priorities, the boot thread's among them. -/
def kPriorities : ℕ := 129

/-- The priority of the boot thread, below every other. -/
def kBootPriority : ℕ := 128

/-- The index that ends a queue. -/
def kNone : ℕ := 0xFFFF

/-- The bytes a saved frame takes on a stack. -/
def kFrameBytes : ℕ := 0x2A0

/-- How far below the saved stack pointer the frame lies. -/
def kFramePush : ℕ := 0x280

/-! Places of registers in a frame, in words. -/

/-- The word of an interrupt's frame that keeps the status register. -/
def kWordStatus : ℕ := 1

/-- The word of a frame that keeps `v0`. -/
def kSlotV0 : ℕ := 2 * 16 / 4

/-- The word of a frame that keeps `a0`. -/
def kSlotA0 : ℕ := 4 * 16 / 4

/-- The word of a frame that keeps `gp`. -/
def kSlotGp : ℕ := 28 * 16 / 4

/-- The word of a frame that keeps `sp`. -/
def kSlotSp : ℕ := 29 * 16 / 4

/-- The word of a frame that keeps `fp`. -/
def kSlotFp : ℕ := 30 * 16 / 4

/-- The word of a frame that keeps `ra`. -/
def kSlotRa : ℕ := 31 * 16 / 4

/-- The queue behind those of the priorities, which is the boot thread's. -/
def kIdleQueue : ℕ := kPriorities

/-- All the queues. -/
def kQueues : ℕ := kPriorities + 1

/-- The states, as a program sees them through slot 0x30. -/
inductive ThreadState
  | free | run | ready | wait | suspend | waitSuspend | dormant
  deriving DecidableEq, Repr

/-- The value slot 0x30 answers for a state. -/
def ThreadState.code : ThreadState → ℕ
  | free => 0
  | run => 1
  | ready => 2
  | wait => 4
  | suspend => 8
  | waitSuspend => 0xC
  | dormant => 0x10

/-- What a waiting thread waits on. -/
inductive WaitType
  | notWaiting | sleeping | onSemaphore
  deriving DecidableEq, Repr

/-- The number of a kind of wait in the record. -/
def WaitType.code : WaitType → ℕ
  | notWaiting => 0
  | sleeping => 1
  | onSemaphore => 2

/-- The words of a frame or of the dispatcher's register block. -/
abbrev Block := ℕ → ℕ

/-- One thread's record. The priorities are `int16_t` in the source and kept here as the 16-bit
pattern, which is also the number of the ready queue. -/
structure ThreadRecord where
  state : ThreadState
  resumePc : ℕ
  context : ℕ
  gp : ℕ
  initialPriority : ℕ
  currentPriority : ℕ
  waitType : WaitType
  waitId : ℕ
  wakeupCount : ℕ
  attr : ℕ
  option : ℕ
  entry : ℕ
  argc : ℕ
  args : ℕ
  stack : ℕ
  stackSize : ℕ
  root : ℕ
  heapEnd : ℕ
  startArg : ℕ

/-- One semaphore. The count is -1 while the record is free. -/
structure Semaphore where
  count : ℤ
  maxCount : ℤ
  attr : ℕ
  option : ℕ
  waitCount : ℕ
  waitHead : ℕ
  waitTail : ℕ
  nextFree : ℕ

/-- The kernel's variables, and the three places the dispatcher in syscall.S restores from: its
block, the word that makes it restore `$v0` and `$v1` too, and EPC. `threadRoot` is the address
of the kernel's own thread root, which the link decides. -/
structure State where
  threadRoot : ℕ
  thread : ℕ → ThreadRecord
  links : Links ℕ
  semaphore : ℕ → Semaphore
  readyQueue : ℕ → Queue ℕ
  currentThread : ℕ
  lowestReady : ℕ
  freeThread : ℕ
  freeSemaphore : ℕ
  rescheduleRequested : Bool
  parkedByInterrupt : ℕ → Bool
  frame : ℕ → Block
  syscallContext : Block
  syscallRestoreFull : Bool
  epc : ℕ

/-! ### Writing one record -/

namespace State

/-- Write fields of one thread record. -/
def setThread (s : State) (id : ℕ) (f : ThreadRecord → ThreadRecord) : State :=
  { s with thread := Function.update s.thread id (f (s.thread id)) }

/-- Write fields of one semaphore. -/
def setSemaphore (s : State) (id : ℕ) (f : Semaphore → Semaphore) : State :=
  { s with semaphore := Function.update s.semaphore id (f (s.semaphore id)) }

/-- The record of the running thread. -/
def current (s : State) : ThreadRecord := s.thread s.currentThread

section Fields

variable (s : State) (id : ℕ) (f : ThreadRecord → ThreadRecord) (g : Semaphore → Semaphore)

@[simp] theorem setThread_thread (x : ℕ) :
    (s.setThread id f).thread x = if x = id then f (s.thread id) else s.thread x := by
  simp [setThread, Function.update_apply]

@[simp] theorem setThread_links : (s.setThread id f).links = s.links := rfl
@[simp] theorem setThread_semaphore : (s.setThread id f).semaphore = s.semaphore := rfl
@[simp] theorem setThread_readyQueue : (s.setThread id f).readyQueue = s.readyQueue := rfl
@[simp] theorem setThread_currentThread : (s.setThread id f).currentThread = s.currentThread := rfl
@[simp] theorem setThread_lowestReady : (s.setThread id f).lowestReady = s.lowestReady := rfl
@[simp] theorem setThread_freeThread : (s.setThread id f).freeThread = s.freeThread := rfl
@[simp] theorem setThread_freeSemaphore : (s.setThread id f).freeSemaphore = s.freeSemaphore := rfl
@[simp] theorem setThread_frame : (s.setThread id f).frame = s.frame := rfl

@[simp] theorem setSemaphore_semaphore (x : ℕ) :
    (s.setSemaphore id g).semaphore x = if x = id then g (s.semaphore id) else s.semaphore x := by
  simp [setSemaphore, Function.update_apply]

@[simp] theorem setSemaphore_thread : (s.setSemaphore id g).thread = s.thread := rfl
@[simp] theorem setSemaphore_links : (s.setSemaphore id g).links = s.links := rfl
@[simp] theorem setSemaphore_readyQueue : (s.setSemaphore id g).readyQueue = s.readyQueue := rfl
@[simp] theorem setSemaphore_currentThread :
    (s.setSemaphore id g).currentThread = s.currentThread := rfl
@[simp] theorem setSemaphore_lowestReady : (s.setSemaphore id g).lowestReady = s.lowestReady := rfl
@[simp] theorem setSemaphore_freeThread : (s.setSemaphore id g).freeThread = s.freeThread := rfl
@[simp] theorem setSemaphore_freeSemaphore :
    (s.setSemaphore id g).freeSemaphore = s.freeSemaphore := rfl
@[simp] theorem setSemaphore_frame : (s.setSemaphore id g).frame = s.frame := rfl

end Fields

end State

end PS2Bios.Kernel
