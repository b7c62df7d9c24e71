import Mathlib.Data.List.Forall2
import Mathlib.Tactic.Common

/-!
# Searching with a test that may fail

`List.findM?` with a test into `Option`: the search fails when the test does, and the test is put to
an element only when it was false of all before it. So the search does not fail exactly when the
test does not fail on any element it comes to (`List.isSome_findM?_iff`), and then it is the search
for the first element of which the test is true (`List.findM?_eq_some`).
-/

namespace PS2Bios

namespace Search

open List

variable {α : Type} {p : α → Option Bool} {q : α → Bool} {l l' : List α} {x : α}

theorem findM?_cons_true (h : p x = some true) : (x :: l).findM? p = some (some x) := by
  rw [findM?, h]
  rfl

theorem findM?_cons_false (h : p x = some false) : (x :: l).findM? p = l.findM? p := by
  rw [findM?, h]
  rfl

theorem findM?_cons_none (h : p x = none) : (x :: l).findM? p = none := by
  rw [findM?, h]
  rfl

/-- A search goes on behind a list without what is searched for. -/
theorem findM?_append : (l ++ l').findM? p = (l.findM? p).bind fun found =>
    match found with
    | some x => some (some x)
    | none => l'.findM? p := by
  induction l with
  | nil => rfl
  | cons x l ih =>
    rw [cons_append]
    cases hx : p x with
    | none => rw [findM?_cons_none hx, findM?_cons_none hx, Option.bind_none]
    | some b =>
      cases b with
      | false => rw [findM?_cons_false hx, findM?_cons_false hx, ih]
      | true => rw [findM?_cons_true hx, findM?_cons_true hx, Option.bind_some]

/-- A search comes to an element when the test is false of all before it. -/
theorem isSome_findM?_iff : (l.findM? p).isSome ↔
    ∀ before x behind, l = before ++ x :: behind → (∀ y ∈ before, p y = some false) →
      (p x).isSome := by
  induction l with
  | nil =>
    refine iff_of_true rfl fun before x behind h => ?_
    exact absurd h.symm (by simp)
  | cons x l ih =>
    cases hx : p x with
    | none =>
      rw [findM?_cons_none hx]
      refine iff_of_false (by simp) fun h => ?_
      have := h [] x l rfl nofun
      rw [hx] at this
      exact Bool.false_ne_true this
    | some b =>
      cases b with
      | false =>
        rw [findM?_cons_false hx, ih]
        constructor
        · intro h before y behind heq hbefore
          rcases cons_eq_append_iff.mp heq with ⟨rfl, heq⟩ | ⟨before', rfl, hl⟩
          · obtain ⟨rfl, rfl⟩ := cons.inj heq
            rw [hx]
            rfl
          · exact h before' y behind hl fun z hz => hbefore z (mem_cons_of_mem x hz)
        · intro h before y behind heq hbefore
          refine h (x :: before) y behind (by rw [heq, cons_append]) fun z hz => ?_
          rcases mem_cons.mp hz with rfl | hz
          · exact hx
          · exact hbefore z hz
      | true =>
        rw [findM?_cons_true hx]
        refine iff_of_true rfl fun before y behind heq hbefore => ?_
        rcases cons_eq_append_iff.mp heq with ⟨rfl, heq⟩ | ⟨before', rfl, hl⟩
        · obtain ⟨rfl, rfl⟩ := cons.inj heq
          rw [hx]
          rfl
        · have hfalse := hbefore x mem_cons_self
          rw [hx] at hfalse
          cases hfalse

/-- A search that does not fail is one with the test's answers. -/
theorem findM?_eq_some (h : (l.findM? p).isSome) (hq : ∀ x ∈ l, ∀ b, p x = some b → q x = b) :
    l.findM? p = some (l.find? q) := by
  induction l with
  | nil => rfl
  | cons x l ih =>
    cases hx : p x with
    | none =>
      rw [findM?_cons_none hx] at h
      cases h
    | some b =>
      have hqx : q x = b := hq x mem_cons_self b hx
      cases b with
      | false =>
        rw [findM?_cons_false hx] at h ⊢
        rw [find?_cons_of_neg (by simp [hqx])]
        exact ih h fun y hy => hq y (mem_cons_of_mem x hy)
      | true => rw [findM?_cons_true hx, find?_cons_of_pos hqx]

/-- Of two lists that go together the searches find what goes together. -/
theorem find?_of_forall₂ {β : Type} {R : α → β → Prop} {q : β → Bool} {p : α → Bool}
    {l' : List β} (h : Forall₂ R l l') (hpq : ∀ x y, R x y → p x = q y) :
    Option.Rel R (l.find? p) (l'.find? q) := by
  induction h with
  | nil => exact .none
  | @cons x y l l' hxy h ih =>
    cases hx : p x with
    | true =>
      rw [find?_cons_of_pos hx, find?_cons_of_pos (hpq x y hxy ▸ hx)]
      exact .some hxy
    | false =>
      rw [find?_cons_of_neg (by simp [hx]), find?_cons_of_neg (by simp [← hpq x y hxy, hx])]
      exact ih

end Search

end PS2Bios
