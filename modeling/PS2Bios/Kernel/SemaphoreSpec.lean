import PS2Bios.Library.Semaphore
import PS2Bios.Kernel.Semaphore

/-!
# What the EE kernel's semaphores are for

The kernel as its threads and handlers see it: who calls what, what a handler's call answers,
and which thread runs on with what in `$v0` (`Observation`). `SemaStep` says which of these
observations semaphores allow, over the counting semaphores of the library and nothing of the
kernel's own: a call on a semaphore does to it what the call is for, and a thread may run on if
it does not wait, with the answer it was given. The other calls are no business of the
semaphores, except those that take a thread off a wait list.
-/

namespace PS2Bios.Kernel

open Counting

/-- What can be seen of a step. -/
inductive Observation
  | call (caller : ℕ) (c : Call)
  | handler (c : DirectCall) (v : ℕ)
  | run (id v : ℕ)
  deriving DecidableEq

/-- The semaphores by id, their waiters by thread id. -/
abbrev Semas := Counting.Semas ℕ ℕ ℕ

/-- A signal that nobody waits for raises the count by one. -/
def Semas.signalled (σ : Semas) (m : ℕ) (answer : ℤ) (σ' : Semas) : Prop :=
  match σ.count m with
  | none => answer = -1 ∧ σ' = σ
  | some n => answer = m ∧ σ' = σ.signal (· + 1) m n

/-- A poll takes one if there is one. -/
def Semas.polled (σ : Semas) (m : ℕ) (answer : ℤ) (σ' : Semas) : Prop :=
  match σ.count m with
  | none => answer = -1 ∧ σ' = σ
  | some n =>
    if 0 < n then answer = m ∧ σ' = σ.setCount m (some (n - 1)) else answer = -1 ∧ σ' = σ

/-- Deleting a semaphore that is there lets all its waiters run on, told -1. -/
def Semas.deleted (σ : Semas) (m : ℕ) (answer : ℤ) (σ' : Semas) : Prop :=
  match σ.count m with
  | none => answer = -1 ∧ σ' = σ
  | some _ => answer = m ∧ σ' = σ.delete m (toWord (-1))

/-- A refusal, or a semaphore that was not in use is, with the count asked for. -/
def Semas.created (σ : Semas) (p : SemaParam) (answer : ℤ) (σ' : Semas) : Prop :=
  (answer = -1 ∧ σ' = σ) ∨
    ∃ m < kSemaphores, σ.count m = none ∧ 0 ≤ int32 p.initCount ∧ answer = m ∧
      σ' = σ.setCount m (some (int32 p.initCount))

/-- What a direct-form call does to the semaphores, and what it may answer. -/
def Semas.direct (σ : Semas) (c : DirectCall) (answer : ℤ) (σ' : Semas) : Prop :=
  match c with
  | .createSema p => σ.created p answer σ'
  | .deleteSema m => σ.deleted m answer σ'
  | .signalSema m => σ.signalled m answer σ'
  | .pollSema m => σ.polled m answer σ'
  | .releaseWaitThread id =>
    if id < 1 ∨ kThreads ≤ id then σ' = σ else σ.cancels id (toWord (-1)) σ'
  | .terminateThread id =>
    if id < 1 ∨ kThreads ≤ id then σ' = σ else σ' = (σ.leave id).setReply id none
  | _ => σ' = σ

/-- What the caller of a direct-form call about semaphores is told. -/
def DirectCall.told (c : DirectCall) (answer : ℤ) : Option (Reply ℕ ℕ) :=
  match c with
  | .createSema _ | .deleteSema _ | .signalSema _ | .pollSema _ => some (.own (toWord answer))
  | _ => none

/-- A wait takes one if there is one, and else its caller waits, behind the others. -/
def Semas.waited (σ : Semas) (m caller : ℕ) : Semas :=
  match σ.count m with
  | none => σ.setReply caller (some (.own (toWord (-1))))
  | some n =>
    if 0 < n then (σ.setCount m (some (n - 1))).setReply caller (some (.own m))
    else σ.enlist (fun l id => l ++ [id]) m caller

/-- What a thread's call does to the semaphores. -/
def Semas.call (σ : Semas) (caller : ℕ) (c : Call) (σ' : Semas) : Prop :=
  match c.directForm with
  | some d => ∃ answer σ₁, σ.direct d answer σ₁ ∧ σ' = σ₁.setReply caller (d.told answer)
  | none =>
    match c with
    | .waitSema m => σ' = σ.waited m caller
    | _ => σ' = σ

/-- The observations semaphores allow. -/
def SemaStep (σ : Semas) (o : Observation) (σ' : Semas) : Prop :=
  match o with
  | .call caller c => σ.call caller c σ'
  | .handler c v => ∃ answer, v = toWord answer ∧ σ.direct c answer σ'
  | .run id v => σ.runs (fun m => m) id v σ'

/-! ### What is seen of the kernel -/

/-- What is seen of a step from `s` to `s'` that left `v` in `$v0`. -/
def Event.observed (s : State) (v : ℕ) (s' : State) : Event → List Observation
  | .syscall c _ _ => [.call s.currentThread c, .run s'.currentThread v]
  | .handler c => [.handler c v]
  | .interruptEntry => []
  | .interruptExit _ => [.run s'.currentThread v]

end PS2Bios.Kernel
