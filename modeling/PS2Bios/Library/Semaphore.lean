import Mathlib.Logic.Function.Basic
import Mathlib.Data.Int.Notation
import Mathlib.Data.List.Basic

/-!
# Counting semaphores

What counting semaphores are for, apart from any kernel: each semaphore in use has a count and a
list of waiting threads, and a thread that was made to wait finds, when it runs again, the reply
it was given meanwhile. A reply says where it came from: the call did not wait (`own`), one
signal of a semaphore was handed to the thread (`handed`), or the wait was called off
(`cancelled`).

A waiting thread gets a reply only by leaving its list, and runs only when it is in none
(`Semas.runs`). So a thread whose reply is `handed m` was given exactly one signal, and the
signal was given to nobody else.

The rules leave open what a signal makes of a count (`raise`) and where a list takes a new waiter
(`insert`), which kernels decide differently.
-/

namespace PS2Bios

namespace Counting

universe u v w

/-- Why a thread finds the answer it finds. -/
inductive Reply (M : Type u) (V : Type v)
  | own (answer : V)
  | handed (sema : M)
  | cancelled (answer : V)

/-- The answer of a reply; `f` is what a handed signal of a semaphore answers. -/
def Reply.answer {M : Type u} {V : Type v} (f : M → V) : Reply M V → V
  | own v => v
  | handed m => f m
  | cancelled v => v

/-- Semaphores of type `M`, waited on by threads of type `T`, with answers of type `V`. -/
structure Semas (T : Type w) (M : Type u) (V : Type v) where
  /-- The count of a semaphore in use. -/
  count : M → Option ℤ
  waiting : M → List T
  /-- What a thread is going to be told. -/
  reply : T → Option (Reply M V)

namespace Semas

variable {T : Type w} {M : Type u} {V : Type v}

/-- No semaphore is in use. -/
def start : Semas T M V := ⟨fun _ => none, fun _ => [], fun _ => none⟩

/-- A thread waits on some semaphore. -/
def waits (σ : Semas T M V) (t : T) : Prop := ∃ m, t ∈ σ.waiting m

section Operations

variable [DecidableEq T]

/-- What a thread is to be told. -/
def setReply (σ : Semas T M V) (t : T) (r : Option (Reply M V)) : Semas T M V :=
  { σ with reply := Function.update σ.reply t r }

/-- A thread may run on with `v`: it does not wait, and if it was given a reply, `v` is the
answer. The reply is told once. -/
def runs (f : M → V) (σ : Semas T M V) (t : T) (v : V) (σ' : Semas T M V) : Prop :=
  ¬σ.waits t ∧ (∀ r, σ.reply t = some r → v = r.answer f) ∧ σ' = σ.setReply t none

/-- A thread is on no list any more. -/
def leave (σ : Semas T M V) (t : T) : Semas T M V :=
  { σ with waiting := fun m => (σ.waiting m).erase t }

/-- The wait of a thread is called off with an answer; a thread that does not wait is left
alone. -/
def cancels (σ : Semas T M V) (t : T) (v : V) (σ' : Semas T M V) : Prop :=
  (σ.waits t ∧ σ' = (σ.leave t).setReply t (some (.cancelled v))) ∨ (¬σ.waits t ∧ σ' = σ)

variable [DecidableEq M]

/-- The count of a semaphore, `none` for one that is not there. -/
def setCount (σ : Semas T M V) (m : M) (c : Option ℤ) : Semas T M V :=
  { σ with count := Function.update σ.count m c }

/-- A signal: handed to the first waiter, which leaves the list; with no waiter, the count
`n` becomes `raise n`. -/
def signal (raise : ℤ → ℤ) (σ : Semas T M V) (m : M) (n : ℤ) : Semas T M V :=
  match σ.waiting m with
  | [] => σ.setCount m (some (raise n))
  | t :: ts => { σ with waiting := Function.update σ.waiting m ts }.setReply t (some (.handed m))

/-- A thread is put on a semaphore's list. -/
def enlist (insert : List T → T → List T) (σ : Semas T M V) (m : M) (t : T) : Semas T M V :=
  { σ with waiting := Function.update σ.waiting m (insert (σ.waiting m) t) }

/-- A semaphore goes out of use: the waits on it are called off. -/
def delete (σ : Semas T M V) (m : M) (v : V) : Semas T M V where
  count := Function.update σ.count m none
  waiting := Function.update σ.waiting m []
  reply t := if t ∈ σ.waiting m then some (.cancelled v) else σ.reply t

end Operations

section Lemmas

variable [DecidableEq T] {σ : Semas T M V} {t : T}

theorem setReply_reply (σ : Semas T M V) (t x : T) (r : Option (Reply M V)) :
    (σ.setReply t r).reply x = if x = t then r else σ.reply x := by
  simp [setReply, Function.update_apply]

@[simp] theorem setReply_count (σ : Semas T M V) (t : T) (r : Option (Reply M V)) :
    (σ.setReply t r).count = σ.count := rfl

@[simp] theorem setReply_waiting (σ : Semas T M V) (t : T) (r : Option (Reply M V)) :
    (σ.setReply t r).waiting = σ.waiting := rfl

@[simp] theorem setReply_waits (σ : Semas T M V) (t x : T) (r : Option (Reply M V)) :
    (σ.setReply t r).waits x ↔ σ.waits x := Iff.rfl

/-- Telling a thread what it has been told. -/
theorem setReply_eq_self {r : Option (Reply M V)} (h : σ.reply t = r) : σ.setReply t r = σ := by
  unfold setReply
  rw [← h, Function.update_eq_self]

@[simp] theorem setReply_setReply (σ : Semas T M V) (t : T) (r r' : Option (Reply M V)) :
    (σ.setReply t r).setReply t r' = σ.setReply t r' := by
  simp [setReply]

/-- A thread that does not wait has nothing to leave. -/
theorem leave_eq_self (h : ¬σ.waits t) : σ.leave t = σ := by
  unfold leave
  have : (fun m => (σ.waiting m).erase t) = σ.waiting :=
    funext fun m => List.erase_of_not_mem fun hm => h ⟨m, hm⟩
  rw [this]

end Lemmas

end Semas

end Counting

end PS2Bios
