import Mathlib.Algebra.Group.Int.Defs
import Mathlib.Algebra.Group.Nat.Defs
import Mathlib.Data.List.Nodup
import Mathlib.Data.List.Range
import Mathlib.Logic.Function.Basic
import Mathlib.Tactic.Common

/-!
# The configuration block of slot 0x6f

`src/kernel/osdconfig.cpp` copies bytes of a block of 128 to a caller who gives a size and an
offset, and shortens what would go past the end. The comparison of the sum is unsigned, and that of
the offset is signed: a negative offset passes for one in front of the end, and what is left from it
is more than the block has. `copies_inside_iff` says which arguments have it copy from elsewhere.
-/

namespace PS2Bios.Kernel.OsdConfig

/-- The bytes of the second block of parameters. -/
def kParam2Size : Int32 := 0x80

/-- `count` and `from`. -/
def clamp (size offset : Int32) : Int32 × Int32 :=
  if kParam2Size.toUInt32 < (size + offset).toUInt32 then
    if offset < kParam2Size then (kParam2Size - offset, offset) else (0, kParam2Size)
  else (size, offset)

/-- The turns of the loop: which of the caller's bytes is written, and which byte it is, counted
from the start of the block. -/
def copied (size offset : Int32) : List (ℕ × ℤ) :=
  let (count, from_) := clamp size offset
  (List.range count.toInt.toNat).map fun i => (i, (from_ + Int32.ofNat i).toInt)

/-- Slot 0x6f: the answer, and the caller's memory. `block` is the memory from the start of the
block, and `word` the configuration of the display. -/
def sysGetOsdConfigParam2 (block : ℤ → UInt8) (word : UInt64) (config : ℕ → UInt8)
    (size offset : Int32) : Int32 × (ℕ → UInt8) :=
  (if (word >>> 6) &&& 7 = 0 then 0 else ((word >>> 44) &&& 0xF).toUInt32.toInt32,
    (copied size offset).foldl (fun config i => Function.update config i.1 (block i.2)) config)

/-- Nothing is read outside the block, and nothing written but the bytes asked for that it has. -/
def CopiesInside (size offset : Int32) : Prop :=
  ∀ i ∈ copied size offset, (0 ≤ i.2 ∧ i.2 < 128) ∧
    i.1 < min size.toUInt32.toNat (128 - offset.toUInt32.toNat)

/-- The arguments for which a negative offset copies nothing. -/
def CopiesNothing (size offset : Int32) : Prop :=
  if 0x80 < (size + offset).toUInt32 then offset.toInt ≤ 0x80 - 2 ^ 31 else size ≤ 0

section Words

variable (a b : Int32)

/-- A signed word by its bits. -/
theorem toInt_eq_cond : a.toInt =
    if a.toUInt32.toNat < 2 ^ 31 then (a.toUInt32.toNat : ℤ) else a.toUInt32.toNat - 2 ^ 32 := by
  have h : a.toInt = if 2 * a.toUInt32.toNat < 2 ^ 32 then (a.toUInt32.toNat : ℤ)
      else a.toUInt32.toNat - (2 ^ 32 : ℕ) := BitVec.toInt_eq_toNat_cond a.toBitVec
  rw [h]
  split <;> split <;> omega

theorem toNat_add : (a + b).toUInt32.toNat = (a.toUInt32.toNat + b.toUInt32.toNat) % 2 ^ 32 := by
  rw [Int32.toUInt32_add, UInt32.toNat_add]

theorem toNat_sub :
    (a - b).toUInt32.toNat = (2 ^ 32 - b.toUInt32.toNat + a.toUInt32.toNat) % 2 ^ 32 := by
  rw [Int32.toUInt32_sub, UInt32.toNat_sub]

end Words

section Clamp

variable {size offset : Int32}

theorem toInt_kParam2Size : kParam2Size.toInt = 0x80 := rfl

/-- An offset that is not negative leaves a count and a place inside. -/
theorem clamp_bounds (h : 0 ≤ offset) (hcount : 0 < (clamp size offset).1.toInt) :
    0 ≤ (clamp size offset).2.toInt ∧
      (clamp size offset).1.toInt + (clamp size offset).2.toInt ≤ 0x80 ∧
      (clamp size offset).1.toInt ≤ size.toUInt32.toNat ∧
      (clamp size offset).2.toInt = offset.toUInt32.toNat := by
  have hsize := size.toUInt32.toNat_lt
  have hoffset := offset.toUInt32.toNat_lt
  have hsum := toNat_add size offset
  have hleft := toNat_sub kParam2Size offset
  have hsize' := toInt_eq_cond size
  have hoffset' := toInt_eq_cond offset
  have hleft' := toInt_eq_cond (kParam2Size - offset)
  have hend : kParam2Size.toUInt32.toNat = 0x80 := rfl
  rw [Int32.le_iff_toInt_le, Int32.toInt_zero] at h
  rw [clamp] at hcount ⊢
  simp only [UInt32.lt_iff_toNat_lt, Int32.lt_iff_toInt_lt, toInt_kParam2Size, hend] at hcount ⊢
  split at hcount
  · next hover =>
    rw [if_pos hover]
    split at hcount
    · next hlt =>
      rw [if_pos hlt]
      dsimp only at hcount ⊢
      omega
    · exact absurd hcount (by decide)
  · next hover =>
    rw [if_neg hover]
    dsimp only at hcount ⊢
    omega

/-- A negative offset is not moved, and copies nothing only for such arguments. -/
theorem clamp_of_neg (size : Int32) (h : ¬ 0 ≤ offset) :
    (clamp size offset).2 = offset ∧
      ((clamp size offset).1.toInt ≤ 0 ↔ CopiesNothing size offset) := by
  have hoffset := offset.toUInt32.toNat_lt
  have hleft := toNat_sub kParam2Size offset
  have hoffset' := toInt_eq_cond offset
  have hleft' := toInt_eq_cond (kParam2Size - offset)
  have hend : kParam2Size.toUInt32.toNat = 0x80 := rfl
  have hneg : offset.toInt < 0 := by
    rw [Int32.le_iff_toInt_le, Int32.toInt_zero] at h
    exact Int.not_le.mp h
  have hlt : offset < kParam2Size := by
    rw [Int32.lt_iff_toInt_lt, toInt_kParam2Size]
    omega
  rw [clamp, CopiesNothing]
  by_cases hover : 0x80 < (size + offset).toUInt32
  · have hover' : kParam2Size.toUInt32 < (size + offset).toUInt32 := hover
    rw [if_pos hover', if_pos hlt, if_pos hover]
    refine ⟨rfl, ?_⟩
    dsimp only
    omega
  · have hover' : ¬ kParam2Size.toUInt32 < (size + offset).toUInt32 := hover
    rw [if_neg hover', if_neg hover]
    refine ⟨rfl, ?_⟩
    rw [Int32.le_iff_toInt_le, Int32.toInt_zero]

/-- What is copied: the indices below the clamped size, from the clamped offset on. -/
theorem mem_copied {i : ℕ × ℤ} : i ∈ copied size offset ↔
    i.1 < (clamp size offset).1.toInt.toNat ∧
      i.2 = ((clamp size offset).2 + Int32.ofNat i.1).toInt := by
  simp only [copied, List.mem_map, List.mem_range]
  constructor
  · rintro ⟨k, hk, rfl⟩
    exact ⟨hk, rfl⟩
  · rintro ⟨hlt, heq⟩
    exact ⟨i.1, hlt, by rw [← heq]⟩

section Memory

variable {block : ℤ → UInt8} {word : UInt64} {config : ℕ → UInt8} {l : List (ℕ × ℤ)}

/-- An index that is not copied keeps its byte. -/
theorem foldl_update_of_ne {k : ℕ} (h : ∀ i ∈ l, i.1 ≠ k) :
    l.foldl (fun config i => Function.update config i.1 (block i.2)) config k = config k := by
  induction l generalizing config with
  | nil => rfl
  | cons i l ih =>
    obtain ⟨hi, hl⟩ := List.forall_mem_cons.mp h
    rw [List.foldl_cons, ih hl, Function.update_of_ne hi.symm]

/-- An index that is copied gets its byte of the block. -/
theorem foldl_update_of_mem {i : ℕ × ℤ} (hnodup : (l.map Prod.fst).Nodup) (hi : i ∈ l) :
    l.foldl (fun config i => Function.update config i.1 (block i.2)) config i.1 = block i.2 := by
  induction l generalizing config with
  | nil => exact absurd hi List.not_mem_nil
  | cons j l ih =>
    rw [List.map_cons, List.nodup_cons] at hnodup
    rw [List.foldl_cons]
    rcases List.mem_cons.mp hi with rfl | hi
    · have hlast : ∀ j ∈ l, j.1 ≠ i.1 := fun j hj heq =>
        hnodup.1 (List.mem_map.mpr ⟨j, hj, heq⟩)
      rw [foldl_update_of_ne hlast, Function.update_self]
    · exact ih hnodup.2 hi

theorem nodup_copied (size offset : Int32) : ((copied size offset).map Prod.fst).Nodup := by
  rw [copied, List.map_map]
  exact List.nodup_range.map_on fun i _ j _ heq => heq

/-- What is copied comes from the block, and every other byte of the caller's stays. -/
theorem sysGetOsdConfigParam2_copies (block : ℤ → UInt8) (word : UInt64) (config : ℕ → UInt8)
    (size offset : Int32) :
    (∀ i ∈ copied size offset,
      (sysGetOsdConfigParam2 block word config size offset).2 i.1 = block i.2) ∧
    ∀ k, (∀ i ∈ copied size offset, i.1 ≠ k) →
      (sysGetOsdConfigParam2 block word config size offset).2 k = config k :=
  ⟨fun _ hi => foldl_update_of_mem (nodup_copied size offset) hi, fun _ hk => foldl_update_of_ne hk⟩

end Memory

/-- **What slot 0x6f copies.** It stays inside the block and inside what was asked for, exactly
where the offset is not negative or nothing is copied. -/
theorem copies_inside_iff (size offset : Int32) :
    CopiesInside size offset ↔ 0 ≤ offset ∨ CopiesNothing size offset := by
  by_cases h : 0 ≤ offset
  · refine ⟨fun _ => .inl h, fun _ i hi => ?_⟩
    obtain ⟨hlt, heq⟩ := mem_copied.mp hi
    have hcount : 0 < (clamp size offset).1.toInt := by omega
    obtain ⟨hfrom, hend, hsize, hoffset⟩ := clamp_bounds h hcount
    -- the index does not wrap
    have hturn : (Int32.ofNat i.1).toInt = i.1 := Int32.toInt_ofNat_of_lt (by omega)
    rw [Int32.toInt_add, hturn, Int.bmod_eq_of_le (by omega) (by omega)] at heq
    omega
  · obtain ⟨hfrom, hnothing⟩ := clamp_of_neg size h
    rw [← hnothing]
    constructor
    · intro hinside
      right
      by_contra hcount
      have hfirst := hinside (0, offset.toInt) (mem_copied.mpr ⟨by dsimp only; omega, ?_⟩)
      · rw [Int32.le_iff_toInt_le, Int32.toInt_zero] at h
        exact h hfirst.1.1
      · rw [hfrom]
        simp
    · rintro (hno | hcount) i hi
      · exact absurd hno h
      · have hlt := (mem_copied.mp hi).1
        omega

/-- A request for no bytes at all, from four bytes below the block, writes 132. -/
theorem copies_below : ¬ CopiesInside 0 (-4) := fun h =>
  absurd (h (0, -4) (mem_copied.mpr ⟨by decide, by decide⟩)).1.1 (by decide)

end Clamp

end PS2Bios.Kernel.OsdConfig
