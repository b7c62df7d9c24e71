import Mathlib.Data.List.Basic
import Mathlib.Order.Nat
import Mathlib.Tactic.Common

/-!
# Tilings

`Tiles start stop a l e` says that the pieces of `l`, in order, tile the range from `a` to `e`:
each starts where the one before it stops and none is empty. A stretch of the pieces tiles the
range it covers (`tiles_append`), so pieces may be cut, joined and replaced inside a tiling, and
distinct pieces meet nowhere (`Tiles.pairwise`).
-/

namespace PS2Bios

namespace Tiling

universe u

variable {β : Type u} {start stop : β → ℕ} {a e k : ℕ} {l m : List β} {b c : β}

/-- The pieces of the list tile the range from `a` to `e`. -/
def Tiles (start stop : β → ℕ) : ℕ → List β → ℕ → Prop
  | a, [], e => a = e
  | a, b :: l, e => start b = a ∧ a < stop b ∧ Tiles start stop (stop b) l e

@[simp] theorem tiles_nil : Tiles start stop a [] e ↔ a = e := Iff.rfl

@[simp] theorem tiles_cons :
    Tiles start stop a (b :: l) e ↔ start b = a ∧ a < stop b ∧ Tiles start stop (stop b) l e :=
  Iff.rfl

/-- A tiling may be cut between any two pieces. -/
theorem tiles_append :
    Tiles start stop a (l ++ m) e ↔ ∃ k, Tiles start stop a l k ∧ Tiles start stop k m e := by
  induction l generalizing a with
  | nil => simp
  | cons b l ih =>
    simp only [List.cons_append, tiles_cons, ih]
    constructor
    · rintro ⟨hb, hlt, k, hl, hm⟩
      exact ⟨k, ⟨hb, hlt, hl⟩, hm⟩
    · rintro ⟨k, ⟨hb, hlt, hl⟩, hm⟩
      exact ⟨hb, hlt, k, hl, hm⟩

/-- A tiling, from one of its pieces. -/
theorem tiles_middle : Tiles start stop a (l ++ b :: m) e ↔
    Tiles start stop a l (start b) ∧ start b < stop b ∧ Tiles start stop (stop b) m e := by
  rw [tiles_append]
  constructor
  · rintro ⟨k, hl, rfl, hlt, hm⟩
    exact ⟨hl, hlt, hm⟩
  · rintro ⟨hl, hlt, hm⟩
    exact ⟨_, hl, rfl, hlt, hm⟩

/-- What is tiled ends no earlier than it begins. -/
theorem Tiles.le (h : Tiles start stop a l e) : a ≤ e := by
  induction l generalizing a with
  | nil => exact h.le
  | cons b l ih =>
    obtain ⟨-, hlt, hl⟩ := h
    exact hlt.le.trans (ih hl)

/-- Every piece lies in the range. -/
theorem Tiles.bounds (h : Tiles start stop a l e) (hb : b ∈ l) :
    a ≤ start b ∧ start b < stop b ∧ stop b ≤ e := by
  obtain ⟨l₁, l₂, rfl⟩ := List.append_of_mem hb
  obtain ⟨h₁, hlt, h₂⟩ := tiles_middle.mp h
  exact ⟨h₁.le, hlt, h₂.le⟩

/-- An earlier piece stops before a later one starts. -/
theorem Tiles.pairwise (h : Tiles start stop a l e) :
    l.Pairwise fun b c => stop b ≤ start c := by
  induction l generalizing a with
  | nil => exact List.Pairwise.nil
  | cons b l ih =>
    obtain ⟨-, -, hl⟩ := h
    exact List.Pairwise.cons (fun c hc => (hl.bounds hc).1) (ih hl)

/-- There are no more pieces than fit in the range. -/
theorem Tiles.length_le (h : Tiles start stop a l e) (hk : ∀ b ∈ l, start b + k ≤ stop b) :
    a + l.length * k ≤ e := by
  induction l generalizing a with
  | nil => exact (Nat.add_le_add_left (Nat.zero_mul k).le a).trans h.le
  | cons b l ih =>
    obtain ⟨rfl, -, hl⟩ := h
    have := ih hl fun c hc => hk c (List.mem_cons_of_mem b hc)
    have := hk b List.mem_cons_self
    rw [List.length_cons, Nat.succ_mul]
    omega

/-- Two pieces are one or meet nowhere. -/
theorem Tiles.apart (h : Tiles start stop a l e) (hb : b ∈ l) (hc : c ∈ l) :
    b = c ∨ stop b ≤ start c ∨ stop c ≤ start b := by
  obtain ⟨l₁, l₂, rfl⟩ := List.append_of_mem hb
  obtain ⟨h₁, -, h₂⟩ := tiles_middle.mp h
  rcases List.mem_append.mp hc with hc | hc
  · exact .inr (.inr (h₁.bounds hc).2.2)
  · exact (List.mem_cons.mp hc).imp Eq.symm fun hc => .inl (h₂.bounds hc).1

/-- Pieces that start at one place are one piece. -/
theorem Tiles.start_inj (h : Tiles start stop a l e) (hb : b ∈ l) (hc : c ∈ l)
    (heq : start b = start c) : b = c := by
  have hb' := h.bounds hb
  have hc' := h.bounds hc
  refine (h.apart hb hc).resolve_right ?_
  omega

end Tiling

end PS2Bios
