import Mathlib.Logic.Function.Basic
import Mathlib.Tactic.Common

/-!
# Two tables, one of which holds entries of the other

`owner i` is the entry of the second table that the `i`-th of the first holds, if it holds one, and
`used k` says that the `k`-th of the second is in use. `Owns owner used` says that what is held is
what is in use, and that nothing is held twice. An entry may be claimed by one that holds nothing
(`Owns.claim`) and given back by the one that holds it (`Owns.release`).
-/

namespace PS2Bios

universe u v

variable {ι : Type u} {κ : Type v} {owner : ι → Option κ} {used : κ → Prop} {i : ι} {k : κ}

/-- What is held is what is in use, and nothing is held twice. -/
structure Owns (owner : ι → Option κ) (used : κ → Prop) : Prop where
  used_of : ∀ i k, owner i = some k → used k
  unique : ∀ i j k, owner i = some k → owner j = some k → i = j
  owned : ∀ k, used k → ∃ i, owner i = some k

namespace Owns

theorem of_none (howner : ∀ i, owner i = none) (hused : ∀ k, ¬used k) : Owns owner used where
  used_of i k h := by simp [howner i] at h
  unique i j k h := by simp [howner i] at h
  owned k h := absurd h (hused k)

theorem congr {owner' : ι → Option κ} {used' : κ → Prop} (h : Owns owner used)
    (howner : ∀ i, owner' i = owner i) (hused : ∀ k, used' k ↔ used k) : Owns owner' used' := by
  obtain rfl : owner' = owner := funext howner
  obtain rfl : used' = used := funext fun k => propext (hused k)
  exact h

variable [DecidableEq ι]

/-- An entry that is not in use is claimed. -/
theorem claim (h : Owns owner used) (hi : owner i = none) (hk : ¬used k) :
    Owns (Function.update owner i (some k)) fun l => l = k ∨ used l := by
  -- nobody else holds the entry
  have hother : ∀ j, owner j ≠ some k := fun j hj => hk (h.used_of j k hj)
  constructor
  · intro j l hj
    rcases eq_or_ne j i with rfl | hne
    · rw [Function.update_self] at hj
      exact Or.inl (Option.some.inj hj).symm
    · rw [Function.update_of_ne hne] at hj
      exact Or.inr (h.used_of j l hj)
  · intro j j' l hj hj'
    by_cases hne : j = i <;> by_cases hne' : j' = i
    · rw [hne, hne']
    · rw [hne, Function.update_self] at hj
      rw [Function.update_of_ne hne', ← hj] at hj'
      exact absurd hj' (hother j')
    · rw [hne', Function.update_self] at hj'
      rw [Function.update_of_ne hne, ← hj'] at hj
      exact absurd hj (hother j)
    · rw [Function.update_of_ne hne] at hj
      rw [Function.update_of_ne hne'] at hj'
      exact h.unique j j' l hj hj'
  · intro l hl
    rcases hl with rfl | hl
    · exact ⟨i, Function.update_self i _ owner⟩
    · obtain ⟨j, hj⟩ := h.owned l hl
      refine ⟨j, ?_⟩
      rw [Function.update_of_ne (fun hji => by rw [hji, hi] at hj; cases hj), hj]

/-- An entry is given back. -/
theorem release (h : Owns owner used) (hi : owner i = some k) :
    Owns (Function.update owner i none) fun l => l ≠ k ∧ used l := by
  have hother : ∀ j l, Function.update owner i none j = some l → j ≠ i ∧ owner j = some l := by
    intro j l hj
    rcases eq_or_ne j i with rfl | hne
    · rw [Function.update_self] at hj
      cases hj
    · exact ⟨hne, by rwa [Function.update_of_ne hne] at hj⟩
  constructor
  · intro j l hj
    obtain ⟨hne, hj⟩ := hother j l hj
    refine ⟨?_, h.used_of j l hj⟩
    rintro rfl
    exact hne (h.unique j i l hj hi)
  · intro j j' l hj hj'
    exact h.unique j j' l (hother j l hj).2 (hother j' l hj').2
  · rintro l ⟨hlk, hl⟩
    obtain ⟨j, hj⟩ := h.owned l hl
    refine ⟨j, ?_⟩
    rw [Function.update_of_ne, hj]
    rintro rfl
    exact hlk (Option.some.inj (hj.symm.trans hi))

end Owns

end PS2Bios
