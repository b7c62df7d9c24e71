import Mathlib.Data.List.Basic
import Mathlib.Data.List.Pairwise
import Mathlib.Data.List.TakeWhile
import Mathlib.Order.Basic
import Mathlib.Order.Lattice
import Mathlib.Tactic.Common

/-!
# Lists kept in order

`insertBy key x l` puts `x` behind the items of `l` whose keys are not above its own. A list that is
built this way is in the order of the keys, and items of one key are in the order they came in:
it is a stable sort of the items in that order (`IsStableSort`), and stays one when items are left
out.
-/

namespace PS2Bios

universe u v

variable {α : Type u} {κ : Type v} [LinearOrder κ] {key : α → κ} {source l : List α} {x y : α}

/-- Behind the items whose keys are not above. -/
def insertBy (key : α → κ) (x : α) (l : List α) : List α :=
  l.takeWhile (fun y => key y ≤ key x) ++ x :: l.dropWhile fun y => key y ≤ key x

/-- The members after an insertion. -/
theorem mem_insertBy : y ∈ insertBy key x l ↔ y = x ∨ y ∈ l := by
  have hsplit : y ∈ l ↔ y ∈ l.takeWhile (fun y => key y ≤ key x) ∨
      y ∈ l.dropWhile fun y => key y ≤ key x := by
    rw [← List.mem_append, List.takeWhile_append_dropWhile]
  rw [insertBy, List.mem_append, List.mem_cons, hsplit]
  tauto

/-- Behind an item above the key all are. -/
theorem lt_of_mem_dropWhile (h : l.Pairwise fun a b => key a ≤ key b)
    (hy : y ∈ l.dropWhile fun y => key y ≤ key x) : key x < key y := by
  induction l with
  | nil => exact absurd hy List.not_mem_nil
  | cons a l ih =>
    obtain ⟨ha, hl⟩ := List.pairwise_cons.mp h
    rw [List.dropWhile_cons] at hy
    split at hy
    · exact ih hl hy
    · rename_i hlt
      have hax : key x < key a := lt_of_not_ge (by simpa using hlt)
      rcases List.mem_cons.mp hy with rfl | hy
      · exact hax
      · exact hax.trans_le (ha y hy)

theorem le_of_mem_takeWhile (hy : y ∈ l.takeWhile fun y => key y ≤ key x) : key y ≤ key x := by
  simpa using List.mem_takeWhile_imp hy

/-- An insertion keeps a list sorted. -/
theorem sorted_insertBy (h : l.Pairwise fun a b => key a ≤ key b) :
    (insertBy key x l).Pairwise fun a b => key a ≤ key b := by
  rw [insertBy, List.pairwise_append, List.pairwise_cons]
  refine ⟨h.sublist (List.takeWhile_sublist _),
    ⟨fun b hb => ?_, h.sublist (List.dropWhile_sublist _)⟩, fun a ha b hb => ?_⟩
  · exact (lt_of_mem_dropWhile h hb).le
  · have hax := le_of_mem_takeWhile ha
    rcases List.mem_cons.mp hb with rfl | hb
    · exact hax
    · exact hax.trans (lt_of_mem_dropWhile h hb).le

/-- Among its equals the new item is the last. -/
theorem filter_insertBy (h : l.Pairwise fun a b => key a ≤ key b) (k : κ) :
    (insertBy key x l).filter (fun y => key y = k) = (l ++ [x]).filter fun y => key y = k := by
  have hl : l.filter (fun y => key y = k) =
      (l.takeWhile fun y => key y ≤ key x).filter (fun y => key y = k) ++
        (l.dropWhile fun y => key y ≤ key x).filter fun y => key y = k := by
    rw [← List.filter_append, List.takeWhile_append_dropWhile]
  rw [insertBy, List.filter_append, List.filter_append, hl]
  by_cases hk : key x = k
  · -- all that is behind the new item is above it
    have hnone : (l.dropWhile fun y => key y ≤ key x).filter (fun y => key y = k) = [] := by
      refine List.filter_eq_nil_iff.mpr fun y hy => ?_
      have hlt := lt_of_mem_dropWhile h hy
      simpa [hk] using (hk ▸ hlt).ne'
    have hcons : ∀ r : List α, (x :: r).filter (fun y => key y = k) =
        x :: r.filter fun y => key y = k := fun r => List.filter_cons_of_pos (by simpa using hk)
    rw [hcons, hcons, hnone, List.filter_nil, List.append_nil]
  · have hcons : ∀ r : List α, (x :: r).filter (fun y => key y = k) =
        r.filter fun y => key y = k := fun r => List.filter_cons_of_neg (by simpa using hk)
    rw [hcons, hcons, List.filter_nil, List.append_nil]

/-- The items of `source`, in the order of the keys, and in their own where keys are equal. -/
structure IsStableSort (key : α → κ) (source l : List α) : Prop where
  sorted : l.Pairwise fun a b => key a ≤ key b
  filter_eq : ∀ k, l.filter (fun y => key y = k) = source.filter fun y => key y = k

namespace IsStableSort

theorem nil : IsStableSort key [] [] := ⟨List.Pairwise.nil, fun _ => rfl⟩

theorem insertBy (h : IsStableSort key source l) (x : α) :
    IsStableSort key (source ++ [x]) (insertBy key x l) := by
  refine ⟨sorted_insertBy h.sorted, fun k => ?_⟩
  rw [filter_insertBy h.sorted, List.filter_append, List.filter_append, h.filter_eq]

theorem filter (h : IsStableSort key source l) (p : α → Bool) :
    IsStableSort key (source.filter p) (l.filter p) := by
  refine ⟨h.sorted.sublist List.filter_sublist, fun k => ?_⟩
  rw [List.filter_comm, h.filter_eq, List.filter_comm]

theorem mem_iff (h : IsStableSort key source l) : x ∈ l ↔ x ∈ source := by
  have hmem : ∀ l : List α, x ∈ l ↔ x ∈ l.filter fun y => key y = key x := fun l => by
    rw [List.mem_filter, decide_eq_true rfl, and_iff_left rfl]
  rw [hmem l, hmem source, h.filter_eq]

theorem perm [DecidableEq α] (h : IsStableSort key source l) : l.Perm source := by
  refine List.perm_iff_count.mpr fun a => ?_
  have hcount : ∀ l : List α, (l.filter fun y => key y = key a).count a = l.count a :=
    fun l => List.count_filter (by simp)
  rw [← hcount l, ← hcount source, h.filter_eq]

end IsStableSort

end PS2Bios
