import PS2Bios.Library.LinkedList
import PS2Bios.Library.Ring

/-!
# Loops along a queue

A loop along a queue goes from the head, by `next`, until a test holds of the record it is at or
the queue ends. As a loop over links in memory it is `walk`, with a test that the sentinel passes;
`walkBehind` is the same loop with the record before the cursor kept. On a queue that is a list,
the one finds the first record of the list that passes (`Chain.walk`, `Chain.walk_first`) and the
other the last one before it (`Chain.walkBehind`), in no more turns than the queue has records.
-/

namespace PS2Bios

namespace Intrusive

universe u

variable {α : Type u} {nil h p x y : α} {next : α → α} {g : α → Bool} {l : List α} {n : ℕ}

/-- Follow `next` to the first node that passes the test, and answer the one before it. -/
def walkBehind (next : α → α) (g : α → Bool) : ℕ → α → α → Option α
  | 0, _, _ => none
  | n + 1, behind, x => if g x then some behind else walkBehind next g n x (next x)

/-- A loop that the sentinel ends finds the first record that passes, or the sentinel. -/
theorem Chain.walk (hc : Chain nil next h l) (hnil : g nil = true) (hn : l.length < n) :
    walk next g n h = some ((l.find? g).getD nil) := by
  induction l generalizing h n with
  | nil =>
    obtain rfl : h = nil := hc
    obtain ⟨n, rfl⟩ : ∃ k, n = k + 1 := ⟨n - 1, by rw [List.length_nil] at hn; omega⟩
    rw [Intrusive.walk, if_pos hnil]
    rfl
  | cons x xs ih =>
    obtain ⟨rfl, -, hxs⟩ := hc
    obtain ⟨n, rfl⟩ : ∃ k, n = k + 1 := ⟨n - 1, by rw [List.length_cons] at hn; omega⟩
    rw [Intrusive.walk, List.find?_cons]
    cases hg : g h with
    | true => rfl
    | false =>
      rw [if_neg Bool.false_ne_true]
      exact ih hxs (by
        rw [List.length_cons] at hn
        omega)

/-- The record before the one found is the last that does not pass. -/
theorem Chain.walkBehind (hc : Chain nil next h l) (hnil : g nil = true) (hn : l.length < n) :
    walkBehind next g n p h = some ((l.takeWhile fun x => !g x).getLastD p) := by
  induction l generalizing h n p with
  | nil =>
    obtain rfl : h = nil := hc
    obtain ⟨n, rfl⟩ : ∃ k, n = k + 1 := ⟨n - 1, by rw [List.length_nil] at hn; omega⟩
    rw [Intrusive.walkBehind, if_pos hnil]
    rfl
  | cons x xs ih =>
    obtain ⟨rfl, -, hxs⟩ := hc
    obtain ⟨n, rfl⟩ : ∃ k, n = k + 1 := ⟨n - 1, by rw [List.length_cons] at hn; omega⟩
    rw [Intrusive.walkBehind]
    cases hg : g h with
    | true => simp [hg]
    | false =>
      rw [if_neg Bool.false_ne_true, ih hxs (by
        rw [List.length_cons] at hn
        omega)]
      simp [hg, List.getLastD_eq_getLast?, List.getLast?_cons]

/-- A loop that some record ends stops at the first that does. -/
theorem Chain.walk_first (hc : Chain nil next h l) (hy : ∃ y ∈ l, g y = true)
    (hn : l.length ≤ n) : ∃ l₁ y l₂, l = l₁ ++ y :: l₂ ∧ (∀ z ∈ l₁, g z = false) ∧ g y = true ∧
      Intrusive.walk next g n h = some y := by
  induction l generalizing h n with
  | nil =>
    obtain ⟨y, hy, -⟩ := hy
    exact absurd hy List.not_mem_nil
  | cons x xs ih =>
    obtain ⟨rfl, -, hxs⟩ := hc
    obtain ⟨n, rfl⟩ : ∃ k, n = k + 1 := ⟨n - 1, by rw [List.length_cons] at hn; omega⟩
    rw [Intrusive.walk]
    cases hg : g h with
    | true => exact ⟨[], h, xs, rfl, fun z hz => absurd hz List.not_mem_nil, hg, rfl⟩
    | false =>
      obtain ⟨y, hy, hgy⟩ := hy
      have hyx : y ∈ xs := by
        refine (List.mem_cons.mp hy).resolve_left ?_
        rintro rfl
        exact absurd hgy (by simp [hg])
      obtain ⟨l₁, z, l₂, rfl, hpre, hgz, hwalk⟩ := ih (n := n) hxs ⟨y, hyx, hgy⟩ (by
        rw [List.length_cons] at hn
        omega)
      refine ⟨h :: l₁, z, l₂, rfl, List.forall_mem_cons.mpr ⟨hg, hpre⟩, hgz, ?_⟩
      rw [if_neg Bool.false_ne_true]
      exact hwalk

end Intrusive

end PS2Bios
