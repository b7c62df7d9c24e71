import PS2Bios.Library.Word
import Mathlib.Data.Nat.Basic

/-!
# THREADMAN's clock

A clock value is 64 bits in two words. The processor has neither a 64-bit add nor a 64-bit divide,
so `clockAdd`, `clockSubtract` and `clockMultiply` carry from one word into the other themselves,
and `clockDivide` goes down the 64 bits, shifting each into a remainder and subtracting the divisor
when it goes in. The remainder is one word: it never loses its top bit as long as the divisor is at
most `2 ^ 31`. -/

namespace PS2Bios.Threadman

/-- `Clock`: a count of 64 bits as two words. -/
structure Clock where
  lo : UInt32
  hi : UInt32
deriving Repr, DecidableEq

/-- A counter period: `2 ^ 32` ticks. -/
def kPeriod : ℕ := 0x100000000

/-- What a count of microseconds is multiplied by to make it ticks. -/
def kClockNumerator : UInt32 := 4608

/-- What the product is divided by. -/
def kClockDenominator : UInt32 := 125

namespace Clock

/-- The 64 bits as a number. -/
def ticks (c : Clock) : ℕ := c.hi.toNat * 2 ^ 32 + c.lo.toNat

/-- The clock at nought. -/
def zero : Clock := ⟨0, 0⟩

/-- One bit of the 64. -/
def bit (c : Clock) (n : ℕ) : UInt32 :=
  if 32 ≤ n then (c.hi >>> UInt32.ofNat (n - 32)) &&& 1 else (c.lo >>> UInt32.ofNat n) &&& 1

/-- One bit of the quotient, in the word it falls into. -/
def setBit (c : Clock) (n : ℕ) : Clock :=
  if 32 ≤ n then { c with hi := c.hi ||| (1 <<< UInt32.ofNat (n - 32)) }
  else { c with lo := c.lo ||| (1 <<< UInt32.ofNat n) }

end Clock

/-- `clockBefore`: the high words decide, and where they agree the low ones do. -/
def clockBefore (a b : Clock) : Bool := a.hi < b.hi || (a.hi == b.hi && a.lo < b.lo)

/-- `clockAdd`: the carry is seen by the low word having gone down. -/
def clockAdd (a b : Clock) : Clock :=
  let sum : Clock := ⟨a.lo + b.lo, a.hi + b.hi⟩
  if sum.lo < a.lo then { sum with hi := sum.hi + 1 } else sum

/-- `clockSubtract`: a low word that is the smaller one borrows. -/
def clockSubtract (a b : Clock) : Clock :=
  let difference : Clock := ⟨a.lo - b.lo, a.hi - b.hi⟩
  if a.lo < b.lo then { difference with hi := difference.hi - 1 } else difference

/-- The loop of `clockDivide`, with so many bits to go. -/
def divideBits (value : Clock) (divisor : UInt32) : ℕ → Clock → UInt32 → Clock × UInt32
  | 0, quotient, remainder => (quotient, remainder)
  | bit + 1, quotient, remainder =>
    let remainder := (remainder <<< 1) ||| value.bit bit
    if divisor ≤ remainder then
      divideBits value divisor bit (quotient.setBit bit) (remainder - divisor)
    else divideBits value divisor bit quotient remainder

/-- The quotient, and the remainder. -/
def clockDivide (value : Clock) (divisor : UInt32) : Clock × UInt32 :=
  divideBits value divisor 64 .zero 0

/-- `clockMultiply`: the low word's product is taken in 64 bits, the high word's is cut to 32. -/
def clockMultiply (value : Clock) (factor : UInt32) : Clock :=
  let low := value.lo.toUInt64 * factor.toUInt64
  ⟨low.toUInt32, (low >>> 32).toUInt32 + value.hi * factor⟩

/-- Ordinal 39. -/
def usecToSysClock (usec : UInt32) : Clock :=
  (clockDivide (clockMultiply ⟨usec, 0⟩ kClockNumerator) kClockDenominator).1

/-- Ordinal 40: seconds and microseconds. -/
def sysClockToUsec (clock : Clock) : UInt32 × UInt32 :=
  let total := (clockDivide (clockMultiply clock kClockDenominator) kClockNumerator).1
  let split := clockDivide total 1000000
  (split.1.lo, split.2)

/-! ### The two words as one number -/

section Words

variable {a b c : Clock}

theorem Clock.ticks_lt (c : Clock) : c.ticks < 2 ^ 64 := by
  have hlo := c.lo.toNat_lt
  have hhi := c.hi.toNat_lt
  unfold ticks
  omega

theorem Clock.toNat_lo (c : Clock) : c.lo.toNat = c.ticks % kPeriod := by
  have hlo := c.lo.toNat_lt
  unfold ticks kPeriod
  omega

/-- The order of two words is that of the numbers. -/
theorem clockBefore_iff : clockBefore a b = true ↔ a.ticks < b.ticks := by
  have ha := a.lo.toNat_lt
  have hb := b.lo.toNat_lt
  unfold clockBefore Clock.ticks
  rw [Bool.or_eq_true, Bool.and_eq_true, beq_iff_eq, decide_eq_true_eq, decide_eq_true_eq,
    UInt32.lt_iff_toNat_lt, UInt32.lt_iff_toNat_lt, ← UInt32.toNat_inj]
  omega

/-- The sum of two clocks, in 64 bits. -/
theorem ticks_clockAdd : (clockAdd a b).ticks = (a.ticks + b.ticks) % 2 ^ 64 := by
  have halo := a.lo.toNat_lt
  have hblo := b.lo.toNat_lt
  have hahi := a.hi.toNat_lt
  have hbhi := b.hi.toNat_lt
  have hone : (1 : UInt32).toNat = 1 := rfl
  unfold clockAdd Clock.ticks
  dsimp only
  split
  next hcarry =>
    rw [UInt32.lt_iff_toNat_lt, UInt32.toNat_add] at hcarry
    dsimp only
    rw [UInt32.toNat_add, UInt32.toNat_add, UInt32.toNat_add, hone]
    omega
  next hnone =>
    rw [UInt32.lt_iff_toNat_lt, UInt32.toNat_add] at hnone
    rw [UInt32.toNat_add, UInt32.toNat_add]
    omega

/-- The difference of two clocks, in 64 bits. -/
theorem ticks_clockSubtract :
    (clockSubtract a b).ticks = (2 ^ 64 + a.ticks - b.ticks) % 2 ^ 64 := by
  have halo := a.lo.toNat_lt
  have hblo := b.lo.toNat_lt
  have hahi := a.hi.toNat_lt
  have hbhi := b.hi.toNat_lt
  have hone : (1 : UInt32).toNat = 1 := rfl
  unfold clockSubtract Clock.ticks
  dsimp only
  split
  next hborrow =>
    rw [UInt32.lt_iff_toNat_lt] at hborrow
    dsimp only
    rw [UInt32.toNat_sub, UInt32.toNat_sub, UInt32.toNat_sub, hone]
    omega
  next hnone =>
    rw [UInt32.lt_iff_toNat_lt] at hnone
    rw [UInt32.toNat_sub, UInt32.toNat_sub]
    omega

/-- The product of a clock and a word, in 64 bits. -/
theorem ticks_clockMultiply (factor : UInt32) :
    (clockMultiply c factor).ticks = c.ticks * factor.toNat % 2 ^ 64 := by
  have hlo := c.lo.toNat_lt
  have hfactor := factor.toNat_lt
  have hproduct : c.lo.toNat * factor.toNat < 2 ^ 64 := by
    calc c.lo.toNat * factor.toNat < 2 ^ 32 * 2 ^ 32 := Nat.mul_lt_mul'' hlo hfactor
      _ = 2 ^ 64 := by decide
  have hlow : (c.lo.toUInt64 * factor.toUInt64).toNat = c.lo.toNat * factor.toNat := by
    rw [UInt64.toNat_mul, UInt32.toNat_toUInt64, UInt32.toNat_toUInt64, Nat.mod_eq_of_lt hproduct]
  have hhigh : ((c.lo.toUInt64 * factor.toUInt64) >>> 32).toNat =
      c.lo.toNat * factor.toNat / 2 ^ 32 := by
    rw [UInt64.toNat_shiftRight, hlow]
    exact Nat.shiftRight_eq_div_pow _ _
  unfold clockMultiply Clock.ticks
  dsimp only
  rw [UInt32.toNat_add, UInt32.toNat_mul, UInt64.toNat_toUInt32, UInt64.toNat_toUInt32, hlow, hhigh,
    Nat.add_mul, Nat.mul_right_comm]
  generalize c.lo.toNat * factor.toNat = low at hproduct
  generalize c.hi.toNat * factor.toNat = high
  omega

end Words

/-! ### The divide -/

section Divide

variable {value quotient : Clock} {divisor remainder : UInt32} {n : ℕ}

theorem toNat_shiftRight_ofNat (x : UInt32) (hn : n < 32) :
    (x >>> UInt32.ofNat n).toNat = x.toNat / 2 ^ n := by
  rw [UInt32.toNat_shiftRight, UInt32.toNat_ofNat_of_lt' (show n < 2 ^ 32 by omega),
    Nat.mod_eq_of_lt hn]
  exact Nat.shiftRight_eq_div_pow _ _

/-- One shifted is a power of two. -/
theorem toNat_one_shiftLeft (hn : n < 32) : ((1 : UInt32) <<< UInt32.ofNat n).toNat = 2 ^ n := by
  rw [UInt32.toNat_shiftLeft, UInt32.toNat_ofNat_of_lt' (show n < 2 ^ 32 by omega),
    Nat.mod_eq_of_lt hn]
  show 1 <<< n % 2 ^ 32 = 2 ^ n
  rw [Nat.one_shiftLeft]
  exact Nat.mod_eq_of_lt (Nat.pow_lt_pow_right (by decide) hn)

/-- A bit above all that are set. -/
theorem toNat_or_one_shiftLeft (x : UInt32) (hn : n < 32) (hclear : 2 ^ (n + 1) ∣ x.toNat) :
    (x ||| (1 <<< UInt32.ofNat n)).toNat = x.toNat + 2 ^ n := by
  obtain ⟨y, hy⟩ := hclear
  rw [UInt32.toNat_or, toNat_one_shiftLeft hn, hy]
  exact (Nat.two_pow_add_eq_or_of_lt (Nat.pow_lt_pow_right (by decide) (Nat.lt_succ_self n)) y).symm

/-- A bit of the clock. -/
theorem Clock.toNat_bit (hn : n < 64) : (value.bit n).toNat = value.ticks / 2 ^ n % 2 := by
  have hlo := value.lo.toNat_lt
  have hbit : value.ticks.testBit n =
      if n < 32 then value.lo.toNat.testBit n else value.hi.toNat.testBit (n - 32) := by
    unfold ticks
    rw [Nat.mul_comm]
    exact Nat.testBit_two_pow_mul_add value.hi.toNat hlo n
  have hone : (1 : UInt32).toNat = 1 := rfl
  rw [Nat.testBit_eq_decide_div_mod_eq, Nat.testBit_eq_decide_div_mod_eq,
    Nat.testBit_eq_decide_div_mod_eq] at hbit
  unfold Clock.bit
  split
  next hhigh =>
    rw [if_neg (by omega), decide_eq_decide] at hbit
    rw [UInt32.toNat_and, toNat_shiftRight_ofNat _ (by omega), hone, Nat.and_one_is_mod]
    omega
  next hlow =>
    rw [if_pos (by omega), decide_eq_decide] at hbit
    rw [UInt32.toNat_and, toNat_shiftRight_ofNat _ (by omega), hone, Nat.and_one_is_mod]
    omega

/-- The loop sets the bits of the quotient from the top. -/
theorem Clock.ticks_setBit (hn : n < 64) (hclear : 2 ^ (n + 1) ∣ quotient.ticks) :
    (quotient.setBit n).ticks = quotient.ticks + 2 ^ n := by
  have hlo := quotient.lo.toNat_lt
  unfold Clock.setBit
  split
  next hhigh =>
    obtain ⟨k, rfl⟩ := Nat.exists_eq_add_of_le hhigh
    have hpow : 2 ^ (32 + k + 1) = 2 ^ (k + 1) * 2 ^ 32 := by
      rw [← Nat.pow_add]
      congr 1
      omega
    have hlow : 2 ^ 32 ∣ quotient.ticks := Dvd.dvd.trans (Dvd.intro_left _ hpow.symm) hclear
    have hzero : quotient.lo.toNat = 0 := by
      unfold ticks at hlow
      omega
    have hhi : 2 ^ (k + 1) ∣ quotient.hi.toNat := by
      unfold ticks at hclear
      rw [hzero, Nat.add_zero (_ * _), hpow] at hclear
      have hpos : 0 < 2 ^ 32 := by omega
      exact Nat.dvd_of_mul_dvd_mul_right hpos hclear
    unfold ticks
    dsimp only
    rw [Nat.add_sub_cancel_left, toNat_or_one_shiftLeft _ (by omega) hhi, Nat.add_mul, Nat.pow_add]
    omega
  next hlow =>
    have hdvd : 2 ^ (n + 1) ∣ quotient.hi.toNat * 2 ^ 32 :=
      Dvd.dvd.mul_left (Nat.pow_dvd_pow 2 (by omega)) _
    have hlo' : 2 ^ (n + 1) ∣ quotient.lo.toNat := (Nat.dvd_add_right hdvd).mp hclear
    unfold ticks
    dsimp only
    rw [toNat_or_one_shiftLeft _ (by omega) hlo', Nat.add_assoc]

/-- The remainder takes the next bit in, and keeps its own. -/
theorem toNat_shiftIn (bit : UInt32) (hbit : bit.toNat < 2) (hsmall : remainder.toNat < 2 ^ 31) :
    ((remainder <<< 1) ||| bit).toNat = 2 * remainder.toNat + bit.toNat := by
  have hshift : (remainder <<< 1).toNat = 2 ^ 1 * remainder.toNat := by
    rw [UInt32.toNat_shiftLeft]
    show remainder.toNat <<< 1 % 2 ^ 32 = _
    rw [Nat.shiftLeft_eq, Nat.mod_eq_of_lt (by omega)]
    omega
  rw [UInt32.toNat_or, hshift]
  exact (Nat.two_pow_add_eq_or_of_lt hbit remainder.toNat).symm

/-- With `n` bits to go, the quotient and the remainder are those of the bits that are done. -/
theorem ticks_divideBits (hpos : 0 < divisor.toNat) (hmax : divisor.toNat ≤ 2 ^ 31) (hn : n ≤ 64)
    (hquotient : quotient.ticks = 2 ^ n * (value.ticks / 2 ^ n / divisor.toNat))
    (hremainder : remainder.toNat = value.ticks / 2 ^ n % divisor.toNat) :
    (divideBits value divisor n quotient remainder).1.ticks = value.ticks / divisor.toNat ∧
      (divideBits value divisor n quotient remainder).2.toNat = value.ticks % divisor.toNat := by
  induction n generalizing quotient remainder with
  | zero =>
    rw [Nat.pow_zero, Nat.div_one, Nat.one_mul] at hquotient
    rw [Nat.pow_zero, Nat.div_one] at hremainder
    exact ⟨hquotient, hremainder⟩
  | succ n ih =>
    have hbit : (value.bit n).toNat = value.ticks / 2 ^ n % 2 := Clock.toNat_bit hn
    have hless := Nat.mod_lt (value.ticks / 2 ^ (n + 1)) hpos
    have hshift : ((remainder <<< 1) ||| value.bit n).toNat =
        2 * remainder.toNat + (value.bit n).toNat := toNat_shiftIn _ (by omega) (by omega)
    -- the bits that are done, and the one that goes in
    have hhalf : value.ticks / 2 ^ n = 2 * (value.ticks / 2 ^ (n + 1)) + (value.bit n).toNat := by
      rw [Nat.pow_succ, ← Nat.div_div_eq_div_mul]
      omega
    have hdone := Nat.div_add_mod (value.ticks / 2 ^ (n + 1)) divisor.toNat
    rw [← hremainder] at hdone
    rw [← hremainder] at hless
    have hclear : 2 ^ (n + 1) ∣ quotient.ticks := Dvd.intro _ hquotient.symm
    generalize value.ticks / 2 ^ (n + 1) / divisor.toNat = q at hquotient hdone
    have htwice : value.ticks / 2 ^ n =
        divisor.toNat * (2 * q) + (2 * remainder.toNat + (value.bit n).toNat) := by
      rw [hhalf, ← hdone, Nat.mul_left_comm]
      omega
    unfold divideBits
    dsimp only
    split
    next hfits =>
      rw [UInt32.le_iff_toNat_le, hshift] at hfits
      have hsub : (((remainder <<< 1) ||| value.bit n) - divisor).toNat =
          2 * remainder.toNat + (value.bit n).toNat - divisor.toNat := by
        rw [UInt32.toNat_sub_of_le _ _ (by rw [UInt32.le_iff_toNat_le, hshift]; exact hfits),
          hshift]
      have hsplit : value.ticks / 2 ^ n = divisor.toNat * (2 * q + 1) +
          (2 * remainder.toNat + (value.bit n).toNat - divisor.toNat) := by
        rw [htwice, Nat.mul_add, Nat.mul_one]
        omega
      have hrest : 2 * remainder.toNat + (value.bit n).toNat - divisor.toNat < divisor.toNat := by
        omega
      refine ih (by omega) ?_ ?_
      · rw [Clock.ticks_setBit (by omega) hclear, hquotient, hsplit, Nat.mul_add_div hpos,
          Nat.div_eq_of_lt hrest, Nat.pow_succ, Nat.add_zero, Nat.mul_add, Nat.mul_one,
          Nat.mul_assoc]
      · rw [hsub, hsplit, Nat.mul_add_mod, Nat.mod_eq_of_lt hrest]
    next hsmall =>
      rw [UInt32.le_iff_toNat_le, hshift] at hsmall
      refine ih (by omega) ?_ ?_
      · rw [hquotient, htwice, Nat.mul_add_div hpos, Nat.div_eq_of_lt (by omega), Nat.pow_succ,
          Nat.add_zero, Nat.mul_assoc]
      · rw [hshift, htwice, Nat.mul_add_mod, Nat.mod_eq_of_lt (by omega)]

/-- The quotient and the remainder, for a divisor that the long division can shift. -/
theorem ticks_clockDivide (hpos : 0 < divisor.toNat) (hmax : divisor.toNat ≤ 2 ^ 31) :
    (clockDivide value divisor).1.ticks = value.ticks / divisor.toNat ∧
      (clockDivide value divisor).2.toNat = value.ticks % divisor.toNat := by
  have hlt := value.ticks_lt
  have hzero : value.ticks / 2 ^ 64 = 0 := Nat.div_eq_of_lt hlt
  refine ticks_divideBits hpos hmax (Nat.le_refl 64) ?_ ?_
  · rw [hzero, Nat.zero_div]
    rfl
  · rw [hzero, Nat.zero_mod]
    rfl

end Divide

/-! ### Microseconds -/

/-- Microseconds in ticks, rounded down. -/
theorem ticks_usecToSysClock (usec : UInt32) :
    (usecToSysClock usec).ticks = usec.toNat * 4608 / 125 := by
  have husec := usec.toNat_lt
  have hdivide : (usecToSysClock usec).ticks = _ := (ticks_clockDivide (by decide) (by decide)).1
  rw [hdivide, ticks_clockMultiply, Nat.mod_eq_of_lt]
  · show (0 * 2 ^ 32 + usec.toNat) * 4608 / 125 = _
    rw [Nat.zero_mul, Nat.zero_add]
  · show (0 * 2 ^ 32 + usec.toNat) * 4608 < 2 ^ 64
    omega

/-- The way back is short of a microsecond when the way there was not exact. -/
theorem sysClockToUsec_usecToSysClock (usec : UInt32) :
    let r := sysClockToUsec (usecToSysClock usec)
    r.2.toNat < 1000000 ∧ (r.1.toNat * 1000000 + r.2.toNat = usec.toNat ∨
      r.1.toNat * 1000000 + r.2.toNat + 1 = usec.toNat) := by
  have husec := usec.toNat_lt
  have hthere := ticks_usecToSysClock usec
  have htotal : (clockDivide (clockMultiply (usecToSysClock usec) kClockDenominator)
      kClockNumerator).1.ticks = usec.toNat * 4608 / 125 * 125 / 4608 := by
    rw [(ticks_clockDivide (by decide) (by decide)).1, ticks_clockMultiply, hthere,
      Nat.mod_eq_of_lt]
    · rfl
    · show usec.toNat * 4608 / 125 * 125 < 2 ^ 64
      omega
  unfold sysClockToUsec
  dsimp only
  generalize (clockDivide (clockMultiply (usecToSysClock usec) kClockDenominator)
    kClockNumerator).1 = total at htotal
  have hmillion : (1000000 : UInt32).toNat = 1000000 := rfl
  obtain ⟨hseconds, hrest⟩ : (clockDivide total 1000000).1.ticks = total.ticks / 1000000 ∧
      (clockDivide total 1000000).2.toNat = total.ticks % 1000000 :=
    ticks_clockDivide (by decide) (by decide)
  rw [htotal] at hseconds hrest
  have hback : usec.toNat * 4608 / 125 * 125 / 4608 ≤ usec.toNat ∧
      usec.toNat ≤ usec.toNat * 4608 / 125 * 125 / 4608 + 1 := by omega
  generalize usec.toNat * 4608 / 125 * 125 / 4608 = back at hseconds hrest hback
  unfold Clock.ticks at hseconds
  have hhi : (clockDivide total 1000000).1.hi.toNat = 0 := by omega
  omega

/-- **Clock arithmetic is exact**: the divide by every divisor up to `2 ^ 31`, the sum, difference
and product modulo `2 ^ 64`, the conversion of every number of microseconds, and the way back up to
one of them. -/
theorem clock_is_exact :
    (∀ (value : Clock) (divisor : UInt32), 1 ≤ divisor → divisor ≤ 0x80000000 →
      value.ticks = (clockDivide value divisor).1.ticks * divisor.toNat +
          (clockDivide value divisor).2.toNat ∧
        (clockDivide value divisor).2 < divisor) ∧
    (∀ a b : Clock, (clockAdd a b).ticks = (a.ticks + b.ticks) % 2 ^ 64 ∧
      (clockSubtract a b).ticks = (2 ^ 64 + a.ticks - b.ticks) % 2 ^ 64) ∧
    (∀ (value : Clock) (factor : UInt32),
      (clockMultiply value factor).ticks = value.ticks * factor.toNat % 2 ^ 64) ∧
    ∀ usec : UInt32, (usecToSysClock usec).ticks = usec.toNat * 4608 / 125 ∧
      let r := sysClockToUsec (usecToSysClock usec)
      r.2.toNat < 1000000 ∧ (r.1.toNat * 1000000 + r.2.toNat = usec.toNat ∨
        r.1.toNat * 1000000 + r.2.toNat + 1 = usec.toNat) := by
  refine ⟨fun value divisor hone hmax => ?_, fun a b => ⟨ticks_clockAdd, ticks_clockSubtract⟩,
    fun value factor => ticks_clockMultiply factor,
    fun usec => ⟨ticks_usecToSysClock usec, sysClockToUsec_usecToSysClock usec⟩⟩
  rw [UInt32.le_iff_toNat_le] at hone hmax
  have hpos : 0 < divisor.toNat := hone
  obtain ⟨hquotient, hremainder⟩ :
      (clockDivide value divisor).1.ticks = value.ticks / divisor.toNat ∧
      (clockDivide value divisor).2.toNat = value.ticks % divisor.toNat :=
    ticks_clockDivide hpos hmax
  rw [UInt32.lt_iff_toNat_lt, hquotient, hremainder]
  exact ⟨(Nat.div_add_mod' value.ticks divisor.toNat).symm, Nat.mod_lt _ hpos⟩

/-- The largest divisor. -/
theorem divide_by_two_to_the_31 :
    (2 ^ 64 - 1 = (clockDivide ⟨0xFFFFFFFF, 0xFFFFFFFF⟩ 0x80000000).1.ticks * 2 ^ 31 +
      (clockDivide ⟨0xFFFFFFFF, 0xFFFFFFFF⟩ 0x80000000).2.toNat) ∧
      (clockDivide ⟨0xFFFFFFFF, 0xFFFFFFFF⟩ 0x80000000).2 < 0x80000000 :=
  clock_is_exact.1 ⟨0xFFFFFFFF, 0xFFFFFFFF⟩ 0x80000000 (by decide) (by decide)

end PS2Bios.Threadman
