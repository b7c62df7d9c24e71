import Mathlib.Data.List.Pairwise
import Mathlib.Tactic.Common

/-!
# Patches

A patch changes a memory in some places, by what it finds in those places. Patches that have no
place in common do not see each other: however many are applied, each does in its places what it
would have done to the memory they all began with (`foldl_of_mem`).
-/

namespace PS2Bios

universe u v w

namespace Patch

variable {α : Type u} {β : Type v} {ι : Type w}

/-- `apply i` changes the places of `i` only, by what it finds there. -/
structure IsLocal (apply : (α → β) → ι → α → β) (places : ι → α → Prop) (i : ι) : Prop where
  frame : ∀ m a, ¬places i a → apply m i a = m a
  reads : ∀ m m', (∀ a, places i a → m a = m' a) → ∀ a, places i a → apply m i a = apply m' i a

variable {apply : (α → β) → ι → α → β} {places : ι → α → Prop} {is : List ι} {m m' : α → β}

/-- Where no patch has a place nothing changes. -/
theorem foldl_of_not (hlocal : ∀ i ∈ is, IsLocal apply places i) {a : α}
    (ha : ∀ i ∈ is, ¬places i a) : is.foldl apply m a = m a := by
  induction is generalizing m with
  | nil => rfl
  | cons i is ih =>
    rw [List.foldl_cons, ih (fun j hj => hlocal j (.tail _ hj)) fun j hj => ha j (.tail _ hj)]
    exact (hlocal i List.mem_cons_self).frame m a (ha i List.mem_cons_self)

/-- In its places a patch does what it does to the memory the patches began with. -/
theorem foldl_of_mem (hlocal : ∀ i ∈ is, IsLocal apply places i)
    (hdisjoint : is.Pairwise fun i j => ∀ a, places i a → ¬places j a) {i : ι} (hi : i ∈ is)
    {a : α} (ha : places i a) : is.foldl apply m a = apply m i a := by
  induction is generalizing m with
  | nil => exact absurd hi List.not_mem_nil
  | cons j is ih =>
    obtain ⟨hj, his⟩ := List.pairwise_cons.mp hdisjoint
    have htail := fun k hk => hlocal k (.tail _ hk)
    rw [List.foldl_cons]
    rcases List.mem_cons.mp hi with rfl | hi
    · exact foldl_of_not htail fun k hk => hj k hk a ha
    · rw [ih htail his hi]
      -- the patch before it has left its places alone
      refine (htail i hi).reads _ _ (fun b hb => ?_) a ha
      exact (hlocal j List.mem_cons_self).frame m b fun hjb => hj i hi b hjb hb

end Patch

end PS2Bios
