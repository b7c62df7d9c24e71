import Mathlib.Logic.Function.Basic
import Mathlib.Tactic.Common

/-!
# Threads and what each may rely on

Threads over one shared state. A thread is at a place of its own, and a step of it changes its
place and the shared state. `Holds I A s` says that the shared state satisfies `I`, and that with
each thread's place goes an assertion `A` about the shared state. A step keeps that if it ends in
the assertion of the place it leads to and disturbs no assertion of another thread (`Holds.go`).

Both may name what is not in the state, such as which thread is in a critical section, and a step
may change it.
-/

namespace PS2Bios

universe u v w

/-- Threads `ι`, at places `P`, over a shared state `σ`. -/
structure Threads (ι : Type u) (P : Type v) (σ : Type w) where
  place : ι → P
  shared : σ

namespace Threads

variable {ι : Type u} {P : Type v} {σ : Type w} {s : Threads ι P σ} {t u : ι} {p : P} {x : σ}
  {I I' : σ → Prop} {A A' : ι → P → σ → Prop}

/-- What goes with every place. -/
structure Holds (I : σ → Prop) (A : ι → P → σ → Prop) (s : Threads ι P σ) : Prop where
  shared : I s.shared
  own : ∀ t, A t (s.place t) s.shared

variable [DecidableEq ι]

/-- A thread goes to a place and leaves the shared state as given. -/
def go (s : Threads ι P σ) (t : ι) (p : P) (x : σ) : Threads ι P σ :=
  ⟨Function.update s.place t p, x⟩

@[simp] theorem shared_go : (s.go t p x).shared = x := rfl

theorem place_go_self : (s.go t p x).place t = p := by
  simp only [go, Function.update_self]

theorem place_go_of_ne (h : u ≠ t) : (s.go t p x).place u = s.place u := by
  simp only [go, Function.update_of_ne h]

/-- A step keeps the assertions: its own is established, and the others' are not disturbed. -/
theorem Holds.go (h : Holds I A s) (hshared : I' x) (hown : A' t p x)
    (hothers : ∀ u ≠ t, A u (s.place u) s.shared → A' u (s.place u) x) :
    Holds I' A' (s.go t p x) := by
  refine ⟨hshared, fun u => ?_⟩
  rw [shared_go]
  rcases eq_or_ne u t with rfl | hne
  · rwa [place_go_self]
  · rw [place_go_of_ne hne]
    exact hothers u hne (h.own u)

/-- Each thread steps by a partial function of its place and the shared state. -/
def step {α : Type*} (next : σ → P → α → Option (σ × P)) (s : Threads ι P σ) (i : ι × α) :
    Option (Threads ι P σ) :=
  (next s.shared (s.place i.1) i.2).map fun r => s.go i.1 r.2 r.1

/-- A step is one of the thread that its label names. -/
theorem step_eq_some_iff {α : Type*} {next : σ → P → α → Option (σ × P)} {i : ι × α}
    {s' : Threads ι P σ} : s.step next i = some s' ↔
      ∃ x p, next s.shared (s.place i.1) i.2 = some (x, p) ∧ s' = s.go i.1 p x := by
  rw [step, Option.map_eq_some_iff]
  constructor
  · rintro ⟨⟨x, p⟩, hnext, rfl⟩
    exact ⟨x, p, hnext, rfl⟩
  · rintro ⟨x, p, hnext, rfl⟩
    exact ⟨(x, p), hnext, rfl⟩

end Threads

end PS2Bios
