import Mathlib.Tactic.Common

/-!
# Latched registers

A device register may mix two kinds of bits. Most hold what was last written to them. The others
are latched by the hardware, and a write does not set them: a one written to such a flag clears
it, a zero leaves it as it is. `write` is that write. A program that means to change the held bits
only has to write zeroes to the flags (`getLsbD_write`, `and_write`).
-/

namespace PS2Bios

namespace Latch

variable {w : ℕ} {flags old v x : BitVec w} {i j : ℕ}

/-- What a register with latched `flags` holds after `v` has been written to it. -/
def write (flags old v : BitVec w) : BitVec w := (v &&& ~~~flags) ||| (old &&& ~~~v &&& flags)

/-- A latch keeps its bit unless a one is written; any other bit takes what is written. -/
@[simp] theorem getLsbD_write :
    (write flags old v).getLsbD i =
      if flags.getLsbD i then old.getLsbD i && !v.getLsbD i else v.getLsbD i := by
  rcases Nat.lt_or_ge i w with hi | hi
  · simp only [write, BitVec.getLsbD_or, BitVec.getLsbD_and, BitVec.getLsbD_not, hi, decide_true]
    cases flags.getLsbD i <;> simp
  · simp [hi]

/-- A write with zeroes at the flags leaves them all. -/
theorem and_write (h : v &&& flags = 0) : write flags old v &&& flags = old &&& flags := by
  refine BitVec.eq_of_getLsbD_eq fun i hi => ?_
  have hv : (v &&& flags).getLsbD i = false := by rw [h]; simp
  rw [BitVec.getLsbD_and] at hv
  simp only [BitVec.getLsbD_and, getLsbD_write]
  cases hf : flags.getLsbD i <;> simp_all

/-- One bit of a word. -/
theorem getLsbD_twoPow (hi : i < w) : (BitVec.twoPow w i).getLsbD j = decide (j = i) := by
  rw [BitVec.getLsbD_twoPow, decide_eq_true hi, Bool.true_and]
  exact decide_eq_decide.mpr eq_comm

/-- Whether a bit is set, as a program tests it. -/
theorem and_twoPow_eq_zero (hi : i < w) :
    x &&& BitVec.twoPow w i = 0 ↔ x.getLsbD i = false := by
  rw [BitVec.and_twoPow]
  refine ⟨fun h => ?_, fun h => by rw [h]; rfl⟩
  by_contra hx
  rw [Bool.not_eq_false] at hx
  rw [if_pos hx] at h
  have hbit := congrArg (·.getLsbD i) h
  simp [hi] at hbit

end Latch

end PS2Bios
