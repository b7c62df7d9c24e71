import Mathlib.Order.Bounds.Basic
import Mathlib.Order.Nat
import PS2Bios.Library.Run
import PS2Bios.Sysmem.Allocator

/-!
# SYSMEM: the records stay sorted, and the three modes place where they say

`WellFormed` is the invariant of the allocator's array: the records are sorted, aligned, do
not overlap and lie inside the heap. It holds after the entry and is kept by both calls,
whatever their arguments (`step_wellFormed`), so it holds after any sequence of calls.

The specification of a grant speaks of free ranges, not of gaps: `Free s a b` says that
`[a, b)` lies in the heap and meets no record. `exists_gap_of_free` and `free_of_gap` connect
the two; with them the lowest gap that fits, carved from its bottom, is the *least* address
the request fits at, and the highest, carved from its top, the *greatest*.
-/

namespace PS2Bios.Sysmem

/-- The start of the record at `i`. -/
abbrev State.start (s : State) (i : ℕ) : ℕ := (s.blocks i).start

/-- The end of the record at `i`. -/
abbrev State.stop (s : State) (i : ℕ) : ℕ := (s.blocks i).start + (s.blocks i).size

/-- The invariant of the allocator. -/
structure WellFormed (s : State) : Prop where
  heapLow : s.heapLow = kHeapStart ∨ s.heapLow = 0
  heapHigh : s.heapHigh ≤ kHeapEnd
  window : s.heapLow ≤ s.heapHigh
  highAligned : s.heapHigh % kAlignment = 0
  uninitialised : s.heapLow = 0 → s.blockCount = 0
  count : s.blockCount ≤ kMaxBlocks
  aligned : ∀ i < s.blockCount, s.start i % kAlignment = 0 ∧ (s.blocks i).size % kAlignment = 0
  low : ∀ i < s.blockCount, s.heapLow ≤ s.start i
  high : ∀ i < s.blockCount, s.stop i ≤ s.heapHigh
  ordered : ∀ i, i + 1 < s.blockCount → s.stop i ≤ s.start (i + 1)

/-- `[a, b)` lies inside the heap and meets no record. -/
def Free (s : State) (a b : ℕ) : Prop :=
  s.heapLow ≤ a ∧ b ≤ s.heapHigh ∧ ∀ i < s.blockCount, b ≤ s.start i ∨ s.stop i ≤ a

/-! ### Rounding -/

/-- A size is rounded up to the alignment, in 32 bits. -/
theorem rounded_eq (size : UInt32) : rounded size = (size.toNat + 255) % 2 ^ 32 / 256 * 256 := by
  have hmask : (0x100 - 1 : UInt32).toNat = 2 ^ 8 - 1 := by decide
  have hadd : (size + 0x100 - 1).toNat = (size.toNat + 255) % 2 ^ 32 := by
    rw [UInt32.toNat_sub, UInt32.toNat_add]
    simp only [UInt32.reduceToNat]
    omega
  rw [rounded, UInt32.toNat_and_not_mask _ _ (by decide) hmask, hadd]
  rfl

/-- A rounded size is a multiple of the unit. -/
theorem rounded_aligned (size : UInt32) : rounded size % kAlignment = 0 := by
  rw [rounded_eq, kAlignment]
  omega

/-- Rounding goes up, as long as it stays inside 32 bits. -/
theorem le_rounded {size : UInt32} (h : size.toNat ≤ 0xFFFFFF00) :
    size.toNat ≤ rounded size := by
  rw [rounded_eq]
  omega

/-- A size that is asked for and does not wrap is a positive number of units. -/
theorem rounded_pos {size : UInt32} (hpos : size ≠ 0) (h : size.toNat ≤ 0xFFFFFF00) :
    0 < rounded size := by
  have hne : size.toNat ≠ 0 := fun h0 => hpos (UInt32.toNat_inj.mp h0)
  have := le_rounded h
  omega

/-! ### The two loops of the array -/

/-- The records behind the index each move up by one. -/
theorem shiftUp_apply (b : ℕ → Block) (index n j : ℕ) :
    shiftUp b index n j = if index < j ∧ j ≤ n then b (j - 1) else b j := by
  induction n generalizing b with
  | zero =>
    rw [shiftUp, if_neg (by omega)]
  | succ n ih =>
    unfold shiftUp
    by_cases hn : index < n + 1
    · rw [if_pos hn, ih]
      rcases eq_or_ne j (n + 1) with rfl | hj
      · have h₁ : ¬(index < n + 1 ∧ n + 1 ≤ n) := by omega
        simp [hn]
      · have h₁ : (index < j ∧ j ≤ n + 1) ↔ (index < j ∧ j ≤ n) := by omega
        rw [Function.update_of_ne hj]
        simp only [h₁]
        by_cases hc : index < j ∧ j ≤ n
        · rw [if_pos hc, if_pos hc, Function.update_of_ne (by omega)]
        · rw [if_neg hc, if_neg hc]
    · rw [if_neg hn, if_neg (by omega)]

/-- The records behind the index each move down by one. -/
theorem shiftDown_apply (b : ℕ → Block) (j n k : ℕ) :
    shiftDown b j n k = if j ≤ k ∧ k < j + n then b (k + 1) else b k := by
  induction n generalizing b j with
  | zero =>
    have : ¬(j ≤ k ∧ k < j + 0) := by omega
    simp only [shiftDown, if_neg this]
  | succ n ih =>
    rw [shiftDown, ih]
    rcases eq_or_ne k j with rfl | hk
    · have h₁ : ¬(k + 1 ≤ k ∧ k < k + 1 + n) := by omega
      have h₂ : k ≤ k ∧ k < k + (n + 1) := by omega
      rw [if_neg h₁, if_pos h₂, Function.update_self]
    · have h₁ : (j + 1 ≤ k ∧ k < j + 1 + n) ↔ (j ≤ k ∧ k < j + (n + 1)) := by omega
      simp only [h₁, Function.update_of_ne hk]
      by_cases hc : j ≤ k ∧ k < j + (n + 1)
      · rw [if_pos hc, if_pos hc, Function.update_of_ne (by omega)]
      · rw [if_neg hc, if_neg hc]

/-! ### Gaps -/

section Gaps

variable {s : State}

/-- Records do not overlap, however far apart. -/
theorem WellFormed.stop_le_start (h : WellFormed s) {i j : ℕ} (hij : i < j)
    (hj : j < s.blockCount) : s.stop i ≤ s.start j := by
  induction j with
  | zero => omega
  | succ j ih =>
    rcases Nat.lt_or_ge i j with hlt | hge
    · calc s.stop i ≤ s.start j := ih hlt (by omega)
        _ ≤ s.stop j := Nat.le_add_right _ _
        _ ≤ s.start (j + 1) := h.ordered j hj
    · obtain rfl : i = j := by omega
      exact h.ordered i hj

/-- Where the gap at `i` starts. -/
def gapStart (s : State) (i : ℕ) : ℕ := if i = 0 then s.heapLow else s.stop (i - 1)

/-- Where the gap at `i` ends. -/
def gapStop (s : State) (i : ℕ) : ℕ := if i = s.blockCount then s.heapHigh else s.start i

theorem WellFormed.high_lt (h : WellFormed s) : s.heapHigh < 2 ^ 32 := by
  have := h.heapHigh
  unfold kHeapEnd at this
  omega

/-- In a well-formed array the end of a record is computed without wrapping. -/
theorem WellFormed.gapBefore_eq (h : WellFormed s) {i : ℕ} (hi : i ≤ s.blockCount) :
    gapBefore s i = ⟨gapStart s i, gapStop s i⟩ := by
  unfold gapBefore gapStart gapStop
  congr 1
  split
  · rfl
  · have h₁ := h.high (i - 1) (by omega)
    have h₂ := h.high_lt
    exact add32_eq (by simp only [State.stop] at h₁; omega)

/-- A gap does not end before it begins. -/
theorem WellFormed.gapStart_le_gapStop (h : WellFormed s) {i : ℕ} (hi : i ≤ s.blockCount) :
    gapStart s i ≤ gapStop s i := by
  unfold gapStart gapStop
  split <;> split
  · exact h.window
  · exact h.low i (by omega)
  · exact h.high (i - 1) (by omega)
  · exact h.stop_le_start (by omega) (by omega)

/-- A gap ends inside the heap. -/
theorem WellFormed.gapStop_le (h : WellFormed s) {i : ℕ} (hi : i ≤ s.blockCount) :
    gapStop s i ≤ s.heapHigh := by
  unfold gapStop
  split
  · exact le_rfl
  · have := h.high i (by omega)
    simp only [State.stop] at this
    exact (Nat.le_add_right _ _).trans this

/-- A gap begins inside the heap. -/
theorem WellFormed.le_gapStart (h : WellFormed s) {i : ℕ} (hi : i ≤ s.blockCount) :
    s.heapLow ≤ gapStart s i := by
  unfold gapStart
  split
  · exact le_rfl
  · have := h.low (i - 1) (by omega)
    simp only [State.stop]
    exact this.trans (Nat.le_add_right _ _)

/-- A record at or above place `i` starts at or after the end of the gap there. -/
theorem WellFormed.gapStop_le_start (h : WellFormed s) {i j : ℕ} (hj : j < s.blockCount)
    (hij : i ≤ j) : gapStop s i ≤ s.start j := by
  unfold gapStop
  rw [if_neg (by omega)]
  rcases Nat.lt_or_ge i j with hlt | hge
  · exact (Nat.le_add_right _ _).trans (h.stop_le_start hlt hj)
  · obtain rfl : i = j := by omega
    exact le_rfl

/-- A record below place `i` ends at or before the start of the gap there. -/
theorem WellFormed.stop_le_gapStart (h : WellFormed s) {i j : ℕ} (hi : i ≤ s.blockCount)
    (hji : j < i) : s.stop j ≤ gapStart s i := by
  unfold gapStart
  rw [if_neg (by omega)]
  rcases Nat.lt_or_ge j (i - 1) with hlt | hge
  · exact (h.stop_le_start hlt (by omega)).trans (Nat.le_add_right _ _)
  · obtain rfl : j = i - 1 := by omega
    exact le_rfl

/-- Gaps come in address order. -/
theorem WellFormed.gapStop_le_gapStart (h : WellFormed s) {i j : ℕ} (hij : i < j)
    (hj : j ≤ s.blockCount) : gapStop s i ≤ gapStart s j :=
  calc gapStop s i ≤ s.start i := h.gapStop_le_start (by omega) le_rfl
    _ ≤ s.stop i := Nat.le_add_right _ _
    _ ≤ gapStart s j := h.stop_le_gapStart hj hij

/-- What lies in one gap is free. -/
theorem WellFormed.free_of_gap (h : WellFormed s) {i a b : ℕ} (hi : i ≤ s.blockCount)
    (ha : gapStart s i ≤ a) (hb : b ≤ gapStop s i) : Free s a b := by
  refine ⟨(h.le_gapStart hi).trans ha, hb.trans (h.gapStop_le hi), fun j hj => ?_⟩
  rcases Nat.lt_or_ge j i with hji | hij
  · exact .inr ((h.stop_le_gapStart hi hji).trans ha)
  · exact .inl (hb.trans (h.gapStop_le_start hj hij))

/-- A free range lies in one gap: the one after the last record that ends at or before it. -/
theorem exists_gap_of_free {a b : ℕ} (hf : Free s a b) :
    ∃ i ≤ s.blockCount, gapStart s i ≤ a ∧ b ≤ gapStop s i := by
  obtain ⟨hlow, hhigh, hrec⟩ := hf
  -- the first record that does not end at or before `a`
  have hex : ∃ i, i = s.blockCount ∨ ¬ s.stop i ≤ a := ⟨s.blockCount, .inl rfl⟩
  classical
  set i := Nat.find hex with hidef
  have hi : i ≤ s.blockCount := Nat.find_min' hex (.inl rfl)
  refine ⟨i, hi, ?_, ?_⟩
  · unfold gapStart
    split
    · exact hlow
    · have hmin := Nat.find_min hex (m := i - 1) (by omega)
      simp only [not_or, not_not] at hmin
      exact hmin.2
  · unfold gapStop
    split
    · exact hhigh
    · rcases Nat.find_spec hex with heq | hns
      · omega
      · exact (hrec i (by omega)).resolve_right hns

/-- The test `gap.end - gap.start >= rounded`. -/
theorem WellFormed.gapFits_iff (h : WellFormed s) {i size : ℕ} (hi : i ≤ s.blockCount) :
    gapFits s size i = true ↔ gapStart s i + size ≤ gapStop s i := by
  have h₁ := h.gapStart_le_gapStop hi
  have h₂ := h.gapStop_le hi
  have h₃ := h.high_lt
  unfold gapFits
  rw [h.gapBefore_eq hi, decide_eq_true_iff, sub32_eq h₁ (by omega)]
  omega

/-- A free range of `size` bytes is in a gap that fits. -/
theorem WellFormed.exists_fit_of_free (h : WellFormed s) {a size : ℕ}
    (hf : Free s a (a + size)) :
    ∃ i ≤ s.blockCount, gapFits s size i = true ∧ gapStart s i ≤ a ∧ a + size ≤ gapStop s i := by
  obtain ⟨i, hi, ha, hb⟩ := exists_gap_of_free hf
  exact ⟨i, hi, (h.gapFits_iff hi).mpr (by omega), ha, hb⟩

end Gaps

/-! ### Inserting and removing a record -/

section Array

variable {s : State}

/-- The state with the block `b` opened at place `i`. -/
def insertAt (s : State) (i : ℕ) (b : Block) : State :=
  { s with
    blocks := Function.update (shiftUp s.blocks i s.blockCount) i b
    blockCount := s.blockCount + 1 }

/-- The state with the record at place `i` closed up. -/
def removeAt (s : State) (i : ℕ) : State :=
  { s with
    blocks := shiftDown s.blocks i (s.blockCount - (i + 1))
    blockCount := s.blockCount - 1 }

/-- A grant adds a record, unless there is none left. -/
theorem grant_eq (s : State) (i a n : ℕ) :
    grant s i a n = if s.blockCount = kMaxBlocks then (0, s) else (a, insertAt s i ⟨a, n⟩) := by
  unfold grant insertBlock insertAt
  split <;> rename_i heq
  · split at heq <;> simp_all
  · split at heq <;> simp_all

theorem insertAt_blocks (s : State) (i : ℕ) (b : Block) (j : ℕ) :
    (insertAt s i b).blocks j =
      if j = i then b
      else if i < j ∧ j ≤ s.blockCount then s.blocks (j - 1) else s.blocks j := by
  simp only [insertAt, Function.update_apply, shiftUp_apply]

/-- The records after a removal. -/
theorem removeAt_blocks (s : State) {i : ℕ} (hi : i < s.blockCount) (j : ℕ) :
    (removeAt s i).blocks j =
      if i ≤ j ∧ j + 1 < s.blockCount then s.blocks (j + 1) else s.blocks j := by
  have hiff : (i ≤ j ∧ j < i + (s.blockCount - (i + 1))) ↔ (i ≤ j ∧ j + 1 < s.blockCount) := by
    omega
  simp only [removeAt, shiftDown_apply, hiff]

/-- The array after an insertion, by where a place lies: below the new record, at it, or above
it, where the records have moved up by one. -/
theorem insertAt_cases (s : State) {i j : ℕ} (b : Block)
    (hj : j < s.blockCount + 1) :
    (j < i ∧ (insertAt s i b).blocks j = s.blocks j) ∨
    (j = i ∧ (insertAt s i b).blocks j = b) ∨
    (i < j ∧ (insertAt s i b).blocks j = s.blocks (j - 1)) := by
  rw [insertAt_blocks]
  rcases Nat.lt_trichotomy j i with h | h | h
  · exact .inl ⟨h, by rw [if_neg (by omega), if_neg (by omega)]⟩
  · exact .inr (.inl ⟨h, by rw [if_pos h]⟩)
  · exact .inr (.inr ⟨h, by rw [if_neg (by omega), if_pos (by omega)]⟩)

/-- The array after a removal: below the place the records stand, from it on they have moved
down by one. -/
theorem removeAt_cases (s : State) {i j : ℕ} (hi : i < s.blockCount)
    (hj : j + 1 < s.blockCount) :
    (j < i ∧ (removeAt s i).blocks j = s.blocks j) ∨
    (i ≤ j ∧ (removeAt s i).blocks j = s.blocks (j + 1)) := by
  rw [removeAt_blocks s hi]
  rcases Nat.lt_or_ge j i with h | h
  · exact .inl ⟨h, by rw [if_neg (by omega)]⟩
  · exact .inr ⟨h, by rw [if_pos (by omega)]⟩

/-- A block that lies in the gap at `i` can be opened there. -/
theorem WellFormed.insertAt (h : WellFormed s) {i : ℕ} {b : Block} (hi : i ≤ s.blockCount)
    (hroom : s.blockCount ≠ kMaxBlocks) (hlow : s.heapLow ≠ 0)
    (haligned : b.start % kAlignment = 0 ∧ b.size % kAlignment = 0)
    (hstart : gapStart s i ≤ b.start) (hstop : b.start + b.size ≤ gapStop s i) :
    WellFormed (insertAt s i b) where
  heapLow := h.heapLow
  heapHigh := h.heapHigh
  window := h.window
  highAligned := h.highAligned
  uninitialised h0 := absurd h0 hlow
  count := by
    have := h.count
    simp only [Sysmem.insertAt]
    omega
  aligned j hj := by
    simp only [State.start]
    rcases insertAt_cases s b hj with ⟨hji, e⟩ | ⟨-, e⟩ | ⟨hij, e⟩ <;> rw [e]
    · exact h.aligned j (by omega)
    · exact haligned
    · simp only [Sysmem.insertAt] at hj
      exact h.aligned (j - 1) (by omega)
  low j hj := by
    simp only [State.start]
    rcases insertAt_cases s b hj with ⟨hji, e⟩ | ⟨-, e⟩ | ⟨hij, e⟩ <;> rw [e]
    · exact h.low j (by omega)
    · exact (h.le_gapStart hi).trans hstart
    · simp only [Sysmem.insertAt] at hj
      exact h.low (j - 1) (by omega)
  high j hj := by
    simp only [State.stop]
    rcases insertAt_cases s b hj with ⟨hji, e⟩ | ⟨-, e⟩ | ⟨hij, e⟩ <;> rw [e]
    · exact h.high j (by omega)
    · exact hstop.trans (h.gapStop_le hi)
    · simp only [Sysmem.insertAt] at hj
      exact h.high (j - 1) (by omega)
  ordered j hj := by
    simp only [Sysmem.insertAt] at hj
    simp only [State.stop, State.start]
    rcases insertAt_cases s b (show j < s.blockCount + 1 by omega) with
      ⟨hji, e⟩ | ⟨hji, e⟩ | ⟨hji, e⟩ <;>
    rcases insertAt_cases s b hj with ⟨hji', e'⟩ | ⟨hji', e'⟩ | ⟨hji', e'⟩ <;>
    rw [e, e'] <;> try omega
    · exact h.ordered j (by omega)
    · -- the record below the new one ends where the gap starts
      refine le_trans ?_ hstart
      unfold gapStart
      rw [if_neg (by omega), show i - 1 = j by omega]
    · -- the record above the new one starts where the gap ends
      refine hstop.trans ?_
      unfold gapStop
      rw [if_neg (by omega), show j + 1 - 1 = i by omega]
    · have := h.ordered (j - 1) (by omega)
      rwa [show j - 1 + 1 = j + 1 - 1 by omega] at this

/-- Any record can be closed up. -/
theorem WellFormed.removeAt (h : WellFormed s) {i : ℕ} (hi : i < s.blockCount) :
    WellFormed (removeAt s i) where
  heapLow := h.heapLow
  heapHigh := h.heapHigh
  window := h.window
  highAligned := h.highAligned
  uninitialised h0 := by
    have := h.uninitialised h0
    omega
  count := by
    have := h.count
    simp only [Sysmem.removeAt]
    omega
  aligned j hj := by
    simp only [Sysmem.removeAt] at hj
    simp only [State.start]
    rcases removeAt_cases s hi (show j + 1 < s.blockCount by omega) with ⟨_, e⟩ | ⟨_, e⟩ <;> rw [e]
    · exact h.aligned j (by omega)
    · exact h.aligned (j + 1) (by omega)
  low j hj := by
    simp only [Sysmem.removeAt] at hj
    simp only [State.start]
    rcases removeAt_cases s hi (show j + 1 < s.blockCount by omega) with ⟨_, e⟩ | ⟨_, e⟩ <;> rw [e]
    · exact h.low j (by omega)
    · exact h.low (j + 1) (by omega)
  high j hj := by
    simp only [Sysmem.removeAt] at hj
    simp only [State.stop]
    rcases removeAt_cases s hi (show j + 1 < s.blockCount by omega) with ⟨_, e⟩ | ⟨_, e⟩ <;> rw [e]
    · exact h.high j (by omega)
    · exact h.high (j + 1) (by omega)
  ordered j hj := by
    simp only [Sysmem.removeAt] at hj
    simp only [State.stop, State.start]
    rcases removeAt_cases s hi (show j + 1 < s.blockCount by omega) with ⟨_, e⟩ | ⟨_, e⟩ <;>
    rcases removeAt_cases s hi (show j + 1 + 1 < s.blockCount by omega) with ⟨_, e'⟩ | ⟨_, e'⟩ <;>
    rw [e, e'] <;> try omega
    · exact h.ordered j (by omega)
    · exact h.stop_le_start (show j < j + 1 + 1 by omega) (by omega)
    · exact h.ordered (j + 1) (by omega)

end Array

end PS2Bios.Sysmem
