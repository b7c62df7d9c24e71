import Mathlib.Data.Int.Notation
import Mathlib.Data.Nat.Bitwise
import Mathlib.Tactic.Common

/-!
# 32-bit words

Addresses and sizes are kept as natural numbers below `2 ^ 32`. `add32` and `sub32` are the
machine's addition and subtraction on them, which agree with the ordinary ones as long as
nothing wraps. `toWord` and `int32` go between a signed integer and its word. Masking the low `k`
bits off a word rounds it down to a multiple of `2 ^ k`.
-/

namespace PS2Bios

/-- Unsigned 32-bit addition. -/
def add32 (a b : ℕ) : ℕ := (a + b) % 2 ^ 32

/-- Unsigned 32-bit subtraction. -/
def sub32 (a b : ℕ) : ℕ := (a + (2 ^ 32 - b)) % 2 ^ 32

theorem add32_eq {a b : ℕ} (h : a + b < 2 ^ 32) : add32 a b = a + b :=
  Nat.mod_eq_of_lt h

theorem sub32_eq {a b : ℕ} (hba : b ≤ a) (ha : a < 2 ^ 32) : sub32 a b = a - b := by
  unfold sub32
  omega

theorem add32_lt (a b : ℕ) : add32 a b < 2 ^ 32 :=
  Nat.mod_lt _ (by decide)

/-- An `int32_t` as the word it is in a register. -/
def toWord (x : ℤ) : ℕ := (x % 2 ^ 32).toNat

/-- A word read as `int32_t`. -/
def int32 (w : ℕ) : ℤ := if w % 2 ^ 32 < 2 ^ 31 then w % 2 ^ 32 else w % 2 ^ 32 - 2 ^ 32

theorem int32_of_lt {x : ℕ} (h : x < 2 ^ 31) : int32 x = x := by
  have hmod : x % 2 ^ 32 = x := Nat.mod_eq_of_lt (by omega)
  rw [int32, hmod, if_pos h]
  exact Int.emod_eq_of_lt (Int.natCast_nonneg x) (by omega)

/-- What is added to an `int32_t` is added to the word it is. -/
theorem toWord_int32_add (w : ℕ) (x : ℤ) : toWord (int32 w + x) = toWord (w + x) := by
  have hmod : (int32 w + x) % 2 ^ 32 = ((w : ℤ) + x) % 2 ^ 32 := by
    rw [int32]
    split <;> omega
  rw [toWord, toWord, hmod]

/-- A 16-bit pattern read as `int16_t`. -/
def int16 (w : ℕ) : ℤ := if w % 2 ^ 16 < 2 ^ 15 then w % 2 ^ 16 else w % 2 ^ 16 - 2 ^ 16

/-- Clearing the low `k` bits rounds down to a multiple of `2 ^ k`. -/
theorem UInt32.toNat_and_not_mask (x m : UInt32) {k : ℕ} (hk : k ≤ 32)
    (hm : m.toNat = 2 ^ k - 1) : (x &&& ~~~m).toNat = x.toNat / 2 ^ k * 2 ^ k := by
  have hx : x.toNat < 2 ^ 32 := x.toNat_lt
  rw [UInt32.toNat_and, UInt32.toNat_not, hm]
  refine Nat.eq_of_testBit_eq fun i => ?_
  have hnot : UInt32.size - 1 - (2 ^ k - 1) = 2 ^ 32 - (2 ^ k - 1 + 1) := by
    have : UInt32.size = 2 ^ 32 := rfl
    omega
  have hlt : 2 ^ k - 1 < 2 ^ 32 := by
    have := Nat.pow_le_pow_right (show 0 < 2 by decide) hk
    have := Nat.two_pow_pos k
    omega
  rw [Nat.testBit_and, hnot, Nat.testBit_two_pow_sub_succ hlt, Nat.testBit_two_pow_sub_one,
    Nat.testBit_mul_two_pow, Nat.testBit_div_two_pow]
  rcases Nat.lt_or_ge i k with hik | hik
  · simp [hik]
  · rcases Nat.lt_or_ge i 32 with hi | hi
    · simp [hik, hi, Nat.sub_add_cancel hik]
    · have hbit : x.toNat.testBit i = false :=
        Nat.testBit_lt_two_pow (hx.trans_le (Nat.pow_le_pow_right (by decide) hi))
      simp [hbit, Nat.sub_add_cancel hik]

/-- Keeping `k` bits from bit `n` on. -/
theorem Nat.and_shifted_mask (w k n : ℕ) :
    w &&& (2 ^ k - 1) <<< n = w / 2 ^ n % 2 ^ k * 2 ^ n := by
  refine Nat.eq_of_testBit_eq fun i => ?_
  rw [Nat.testBit_and, Nat.testBit_shiftLeft, Nat.testBit_two_pow_sub_one, Nat.testBit_mul_two_pow,
    Nat.testBit_mod_two_pow, Nat.testBit_div_two_pow]
  rcases Nat.lt_or_ge i n with hin | hin
  · simp [Nat.not_le_of_lt hin]
  · simp [hin, Nat.sub_add_cancel hin, Bool.and_comm]

/-- The low `n` bits of a word replaced. -/
theorem Nat.mul_two_pow_or_mod (a b n : ℕ) : a * 2 ^ n ||| b % 2 ^ n = a * 2 ^ n + b % 2 ^ n := by
  rw [← Nat.shiftLeft_eq]
  exact (Nat.shiftLeft_add_eq_or_of_lt (Nat.mod_lt b (Nat.two_pow_pos n)) a).symm

/-- `(w & 0xFFFF0000) | (x & 0xFFFF)`. -/
theorem setLow16_eq {w : ℕ} (hw : w < 2 ^ 32) (x : ℕ) :
    w &&& 0xFFFF0000 ||| x &&& 0xFFFF = w / 2 ^ 16 * 2 ^ 16 + x % 2 ^ 16 := by
  have hhigh : w &&& 0xFFFF0000 = w / 2 ^ 16 * 2 ^ 16 := by
    have hmask := Nat.and_shifted_mask w 16 16
    rwa [Nat.mod_eq_of_lt (by omega)] at hmask
  have hlow : x &&& 0xFFFF = x % 2 ^ 16 := Nat.and_two_pow_sub_one_eq_mod x 16
  rw [hhigh, hlow, Nat.mul_two_pow_or_mod]

/-- `(w & 0xFC000000) | (x & 0x03FFFFFF)`. -/
theorem setLow26_eq {w : ℕ} (hw : w < 2 ^ 32) (x : ℕ) :
    w &&& 0xFC000000 ||| x &&& 0x03FFFFFF = w / 2 ^ 26 * 2 ^ 26 + x % 2 ^ 26 := by
  have hhigh : w &&& 0xFC000000 = w / 2 ^ 26 * 2 ^ 26 := by
    have hmask := Nat.and_shifted_mask w 6 26
    rwa [Nat.mod_eq_of_lt (by omega)] at hmask
  have hlow : x &&& 0x03FFFFFF = x % 2 ^ 26 := Nat.and_two_pow_sub_one_eq_mod x 26
  rw [hhigh, hlow, Nat.mul_two_pow_or_mod]

end PS2Bios
