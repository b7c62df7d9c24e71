import PS2Bios.Library.Semaphore
import PS2Bios.Threadman.Services

/-!
# What THREADMAN's semaphores are for

THREADMAN as its threads and handlers see it: who calls what, what a handler's call answers, and
which thread goes on with which answer (`Observation`). `SemaStep` says which of these observations
semaphores allow, over the counting semaphores of the library: a signal is handed to the first
waiter, or raises the count up to its maximum; a wait takes a unit or queues its thread, behind the
others unless the semaphore is ordered by priority; and a thread goes on only when it waits no more,
with the answer that it was given. The other calls are no business of the semaphores, except those
that take a thread off a list.
-/

namespace PS2Bios.Threadman

open Counting

/-- What can be seen of an act. -/
inductive Observation
  | call (caller : ℕ) (c : Service)
  | goOn
  | handler (c : Service) (v : ℤ)
  | run (k : ℕ) (v : ℤ)
deriving DecidableEq

/-- The semaphores by id, their waiters by record. -/
structure Semas where
  base : Counting.Semas ℕ UInt32 ℤ
  max : UInt32 → ℤ
  byPriority : UInt32 → Bool

namespace Semas

/-- There are none. -/
def start : Semas := ⟨.start, fun _ => 0, fun _ => false⟩

variable (σ : Semas)

/-- What a signal makes of a count. -/
def raise (id : UInt32) (n : ℤ) : ℤ := if n < σ.max id then n + 1 else n

/-- Creating a semaphore fails and changes nothing, or makes one under an id nobody had. -/
def created (attr : UInt32) (initial max answer : ℤ) (σ' : Semas) : Prop :=
  (answer < 0 ∧ σ' = σ) ∨ ∃ id : UInt32, σ.base.count id = none ∧ answer = id.toNat ∧
    σ' = ⟨σ.base.setCount id (some initial), Function.update σ.max id max,
      Function.update σ.byPriority id (attr &&& kSemaPriority != 0)⟩

/-- Deleting a semaphore answers all its waiters with `kWaitDelete`. -/
def deleted (id : UInt32) (answer : ℤ) (σ' : Semas) : Prop :=
  match σ.base.count id with
  | none => answer = kUnknownSemid ∧ σ' = σ
  | some _ => answer = kOk ∧ σ' = { σ with base := σ.base.delete id kWaitDelete }

/-- A signal serves the first waiter, or raises the count as far as its maximum. -/
def signalled (id : UInt32) (answer : ℤ) (σ' : Semas) : Prop :=
  match σ.base.count id with
  | none => answer = kUnknownSemid ∧ σ' = σ
  | some n => answer = kOk ∧ σ' = { σ with base := σ.base.signal (σ.raise id) id n }

/-- A poll takes a unit if there is one. -/
def polled (id : UInt32) (answer : ℤ) (σ' : Semas) : Prop :=
  match σ.base.count id with
  | none => answer = kUnknownSemid ∧ σ' = σ
  | some n =>
    if 0 < n then answer = kOk ∧ σ' = { σ with base := σ.base.setCount id (some (n - 1)) }
    else answer = kSemaZero ∧ σ' = σ

/-- What a call that does not wait does to the semaphores, and what it may answer. The slot of a
thread's id is the thread, unless the id is stale. -/
def direct (interrupt : Bool) (c : Service) (answer : ℤ) (σ' : Semas) : Prop :=
  match c with
  | .createSema attr initial max => σ.created attr initial max answer σ'
  | .deleteSema id =>
    if interrupt then answer = kIllegalContext ∧ σ' = σ else σ.deleted id answer σ'
  | .signalSema id => σ.signalled id answer σ'
  | .pollSema id => σ.polled id answer σ'
  | .waitSema _ => answer = kIllegalContext ∧ σ' = σ
  | .releaseWaitThread id => σ' = σ ∨ ∃ base', σ.base.cancels (slotOf id) kReleaseWait base' ∧
      σ' = { σ with base := base' }
  | .terminateThread id =>
    σ' = σ ∨ σ' = { σ with base := (σ.base.leave (slotOf id)).setReply (slotOf id) none }
  | _ => σ' = σ

/-- What the caller of a call about semaphores is told. -/
def told (answer : ℤ) : Service → Option (Counting.Reply UInt32 ℤ)
  | .createSema _ _ _ | .deleteSema _ | .signalSema _ | .pollSema _ => some (.own answer)
  | _ => none

/-- A wait takes a unit if there is one, and else its caller waits. -/
def waited (id : UInt32) (caller : ℕ) (σ' : Semas) : Prop :=
  match σ.base.count id with
  | none => σ' = { σ with base := σ.base.setReply caller (some (.own kUnknownSemid)) }
  | some n =>
    if 0 < n then
      σ' = { σ with
        base := (σ.base.setCount id (some (n - 1))).setReply caller (some (.own kOk)) }
    else ∃ l₁ l₂, σ.base.waiting id = l₁ ++ l₂ ∧ (σ.byPriority id = false → l₂ = []) ∧
      σ' = { σ with base := σ.base.enlist (fun _ k => l₁ ++ k :: l₂) id caller }

/-- What a thread's call does to the semaphores. -/
def call (caller : ℕ) (c : Service) (σ' : Semas) : Prop :=
  match c with
  | .waitSema id => σ.waited id caller σ'
  | _ => ∃ answer σ₁, σ.direct false c answer σ₁ ∧
      σ' = { σ₁ with base := σ₁.base.setReply caller (told answer c) }

end Semas

/-- The observations semaphores allow. -/
def SemaStep (σ : Semas) (o : Observation) (σ' : Semas) : Prop :=
  match o with
  | .call caller c => σ.call caller c σ'
  | .goOn => σ' = σ
  | .handler c v => σ.direct true c v σ'
  | .run k v => ∃ base', σ.base.runs (fun _ => kOk) k v base' ∧ σ' = { σ with base := base' }

/-! ### What is seen of THREADMAN -/

namespace Processor

/-- What is seen when a thread comes to run: the answer its service left it. -/
def Told.observed : Told → List Observation
  | .thread k v => [.run k v]
  | _ => []

/-- What a step shows of the semaphores: calls, answers and the threads that run on. -/
def observed (m : Processor) (a : Act) (told : Told) : List Observation :=
  match a, told with
  | .call c, _ => .call m.sched.current c :: told.observed
  | .goOn, _ => .goOn :: told.observed
  | .handler c, .handler v => [.handler c v]
  | _, _ => told.observed

end Processor

end PS2Bios.Threadman
