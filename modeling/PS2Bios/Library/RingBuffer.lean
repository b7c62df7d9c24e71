import Mathlib.Data.List.Range
import Mathlib.Logic.Function.Basic

/-!
# Ring buffers

A line kept in an array of `n` slots: its first element is at `head`, it has `count` of them, and
it goes on at slot `0` after slot `n - 1`. `contents` is the line such a buffer holds. Up to `n`
elements are in different slots (`slot_ne`), so that the slot behind the last one is free
(`contents_update_free`), and the first one's is free again once it has been taken
(`contents_update_taken`).
-/

namespace PS2Bios

universe u

namespace RingBuffer

variable {α : Type u}

/-- The elements of the buffer, in order. -/
def contents (n : ℕ) (slots : ℕ → α) (head count : ℕ) : List α :=
  (List.range count).map fun i => slots ((head + i) % n)

variable {n : ℕ} {slots : ℕ → α} {head count : ℕ}

@[simp]
theorem contents_zero : contents n slots head 0 = [] := rfl

@[simp]
theorem length_contents : (contents n slots head count).length = count := by
  simp [contents]

theorem contents_eq_nil_iff : contents n slots head count = [] ↔ count = 0 := by
  rw [← List.length_eq_zero_iff, length_contents]

/-- One more element is behind the others. -/
theorem contents_succ :
    contents n slots head (count + 1) =
      contents n slots head count ++ [slots ((head + count) % n)] := by
  simp [contents, List.range_succ]

/-- Without its first element the line starts one slot further on. -/
theorem contents_succ_eq_cons :
    contents n slots head (count + 1) =
      slots (head % n) :: contents n slots ((head + 1) % n) count := by
  unfold contents
  rw [List.range_succ_eq_map, List.map_cons, List.map_map, Nat.add_zero]
  congr 1
  refine List.map_congr_left fun i _ => ?_
  simp only [Function.comp_apply]
  rw [Nat.mod_add_mod, Nat.succ_eq_add_one, Nat.add_assoc, Nat.add_comm 1 i]

/-- Two places less than `n` apart are in different slots. -/
theorem slot_ne {i j : ℕ} (hij : i < j) (hj : j < i + n) : (head + i) % n ≠ (head + j) % n := by
  intro heq
  have hdvd : n ∣ (head + j) - (head + i) :=
    Nat.dvd_of_mod_eq_zero (Nat.sub_mod_eq_zero_of_mod_eq heq.symm)
  have hle := Nat.le_of_dvd (by omega) hdvd
  omega

/-- What is written into other slots does not matter. -/
theorem contents_congr {slots' : ℕ → α}
    (h : ∀ i < count, slots' ((head + i) % n) = slots ((head + i) % n)) :
    contents n slots' head count = contents n slots head count :=
  List.map_congr_left fun i hi => h i (List.mem_range.mp hi)

/-- The slot behind the last element is free. -/
theorem contents_update_free (hcount : count < n) (x : α) :
    contents n (Function.update slots ((head + count) % n) x) head count =
      contents n slots head count :=
  contents_congr fun i hi => Function.update_of_ne (slot_ne hi (by omega)) x slots

/-- The slot of an element that was taken is free. -/
theorem contents_update_taken (hcount : count < n) (x : α) :
    contents n (Function.update slots (head % n) x) ((head + 1) % n) count =
      contents n slots ((head + 1) % n) count := by
  refine contents_congr fun i hi => Function.update_of_ne ?_ x slots
  rw [Nat.mod_add_mod, Nat.add_assoc]
  exact (slot_ne (i := 0) (by omega) (by omega)).symm

end RingBuffer

end PS2Bios
