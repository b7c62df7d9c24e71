import PS2Bios.Library.Latch
import Mathlib.Tactic.Common
import Mathlib.Tactic.IntervalCases

/-!
# The interrupt mask registers

`enableIntr` and `disableIntr` of `intrman.cpp`, with the three registers they program. A line
below `0x20` has its bit in `I_MASK`. The DMA channels have their enables in `DICR` and `DICR2`,
next to the flags, which a write of ones clears, and a low bit for each channel besides.

A flag bit of the argument stands for a low bit: the lemmas say of each function what it leaves in
each bit of the two registers, and that the value `disableIntr` stores through its out-parameter
reads back as the line and its low bits (`token_reads`).
-/

namespace PS2Bios.Intrman

/-- A register. -/
abbrev Word := BitVec 32

/-- The lines: the ordinary ones and the DMA channels of both banks. -/
def kLines : ℕ := 0x2E

/-- The ordinary line all DMA interrupts come by. -/
def kDmaLine : ℕ := 3

/-- The line of the first bank's first channel. -/
def kDmaFirst : ℕ := 0x20

/-- The line of the second bank's first channel. -/
def kDmaSecondBank : ℕ := 0x28

/-- DICR's master enable. -/
def kDmaMaster : Word := BitVec.twoPow 32 23

/-- The byte of the argument that names the line; the rest are flags. -/
def kLineMask : Word := 0xFF

/-- The flag that asks for DICR's low bit of the channel too. -/
def kFlagDicr : Word := BitVec.twoPow 32 8

/-- The flag that asks for DICR2's bit of the channel too. -/
def kFlagDicr2 : Word := BitVec.twoPow 32 9

/-- The bits a write that only configures may set: the others acknowledge. -/
def kDicrWritable : Word := 0x00FFFFFF

/-- The answer of a call that went through. -/
def kOk : ℤ := 0

/-- The answer to a line that is not there. -/
def kErrorIllegalIrq : ℤ := -0x65

/-- The answer to disabling a line that was not enabled. -/
def kErrorNotEnabled : ℤ := -0x67

/-- `I_MASK`, `DICR` and `DICR2`. -/
structure Registers where
  iMask : Word
  dicr : Word
  dicr2 : Word
deriving DecidableEq, Repr

namespace Registers

/-- A store to `I_MASK`. -/
def writeIntMask (r : Registers) (value : Word) : Registers := { r with iMask := value }

/-- The upper byte is acknowledge-on-write. -/
def writeDicr (r : Registers) (value : Word) : Registers :=
  { r with dicr := Latch.write (~~~kDicrWritable) r.dicr value }

/-- A store to DICR2, whose upper bits are cleared where ones are stored. -/
def writeDicr2 (r : Registers) (value : Word) : Registers :=
  { r with dicr2 := Latch.write (~~~kDicrWritable) r.dicr2 value }

end Registers

/-- The line in the low byte of an argument. -/
def lineOf (line_and_flags : Word) : ℕ := (line_and_flags &&& kLineMask).toNat

/-- `EnableIntr`: the line's bit, and for a channel the flags' bits and the master enable. -/
def enableIntr (line_and_flags : Word) (r : Registers) : ℤ × Registers :=
  let line := lineOf line_and_flags
  let flags := line_and_flags &&& ~~~kLineMask
  if line < kDmaFirst then
    (kOk, r.writeIntMask (r.iMask ||| BitVec.twoPow 32 line))
  else if line < kDmaSecondBank - 1 then
    let channel := line - kDmaFirst
    let keep := kDicrWritable &&& ~~~BitVec.twoPow 32 channel
    let bits := BitVec.twoPow 32 (16 + channel) ||| kDmaMaster |||
      (if flags &&& kFlagDicr ≠ 0 then BitVec.twoPow 32 channel else 0)
    let r := r.writeDicr ((r.dicr &&& keep) ||| bits)
    let keep2 := kDicrWritable &&& ~~~BitVec.twoPow 32 channel
    let bits2 := if flags &&& kFlagDicr2 ≠ 0 then BitVec.twoPow 32 channel else 0
    let r := r.writeDicr2 ((r.dicr2 &&& keep2) ||| bits2)
    (kOk, r.writeIntMask (r.iMask ||| BitVec.twoPow 32 kDmaLine))
  else if kDmaSecondBank ≤ line ∧ line < kLines then
    let channel := line - kDmaSecondBank
    let low := channel + 7
    let keep := kDicrWritable &&& ~~~BitVec.twoPow 32 low
    let bits := BitVec.twoPow 32 (16 + channel) |||
      (if flags &&& kFlagDicr2 ≠ 0 then BitVec.twoPow 32 low else 0)
    let r := r.writeDicr2 ((r.dicr2 &&& keep) ||| bits)
    let r := r.writeDicr ((r.dicr &&& kDicrWritable) ||| kDmaMaster)
    (kOk, r.writeIntMask (r.iMask ||| BitVec.twoPow 32 kDmaLine))
  else
    (kErrorIllegalIrq, r)

/-- With it goes the word behind `previous`, which may be null. -/
def disableIntr (line_and_flags : Word) (previous : Option Word) (r : Registers) :
    ℤ × Option Word × Registers :=
  let line := lineOf line_and_flags
  let refused := BitVec.ofInt 32 kErrorNotEnabled
  let store (restore : Word) : Option Word := previous.map fun _ => restore
  if line < kDmaFirst then
    let bit := BitVec.twoPow 32 line
    let mask := r.iMask
    let r := r.writeIntMask (mask &&& ~~~bit)
    if mask &&& bit = 0 then
      (kErrorNotEnabled, store refused, r)
    else
      (kOk, store (BitVec.ofNat 32 line), r)
  else if line < kDmaSecondBank - 1 then
    let channel := line - kDmaFirst
    let enable := BitVec.twoPow 32 (16 + channel)
    let value := r.dicr &&& kDicrWritable
    if value &&& enable = 0 then
      (kErrorNotEnabled, store refused, r)
    else
      let restore := BitVec.ofNat 32 line |||
        (if (value >>> channel) &&& 1 ≠ 0 then kFlagDicr else 0) |||
        (if r.dicr2 &&& BitVec.twoPow 32 channel ≠ 0 then kFlagDicr2 else 0)
      (kOk, store restore, r.writeDicr (value &&& ~~~enable))
  else if kDmaSecondBank ≤ line ∧ line < kLines then
    let channel := line - kDmaSecondBank
    let enable := BitVec.twoPow 32 (16 + channel)
    let value := r.dicr2 &&& kDicrWritable
    if value &&& enable = 0 then
      (kErrorNotEnabled, store refused, r)
    else
      let restore := BitVec.ofNat 32 line |||
        (if (value >>> (channel + 7)) &&& 1 ≠ 0 then kFlagDicr2 else 0)
      (kOk, store restore, r.writeDicr2 (value &&& ~~~enable))
  else
    (kErrorIllegalIrq, store refused, r)

/-! ### What the two functions do to each bit -/

variable {r : Registers} {arg old bits value : Word} {line channel i k : ℕ}
  {previous : Option Word}

@[simp] theorem getLsbD_kDicrWritable : kDicrWritable.getLsbD i = decide (i < 24) := by
  rcases Nat.lt_or_ge i 32 with hi | hi
  · interval_cases i <;> rfl
  · rw [BitVec.getLsbD_of_ge _ _ hi, decide_eq_false (by omega)]

@[simp] theorem getLsbD_kDmaMaster : kDmaMaster.getLsbD i = decide (i = 23) :=
  Latch.getLsbD_twoPow (by decide)

theorem getLsbD_optional {p : Prop} [Decidable p] (hk : k < 32) :
    (if p then BitVec.twoPow 32 k else 0 : Word).getLsbD i = decide (p ∧ i = k) := by
  split <;> rename_i hp <;> simp [hp, Latch.getLsbD_twoPow hk]

/-- A word with nothing at the flags. -/
def Below (x : Word) : Prop := ∀ i, 24 ≤ i → x.getLsbD i = false

theorem below_twoPow (hk : k < 24) : Below (BitVec.twoPow 32 k) := fun i hi => by
  rw [Latch.getLsbD_twoPow (by omega), decide_eq_false (by omega)]

theorem below_kDmaMaster : Below kDmaMaster := below_twoPow (by decide)

theorem below_or {x y : Word} (hx : Below x) (hy : Below y) : Below (x ||| y) := fun i hi => by
  rw [BitVec.getLsbD_or, hx i hi, hy i hi, Bool.or_self]

theorem below_optional {p : Prop} [Decidable p] (hk : k < 24) :
    Below (if p then BitVec.twoPow 32 k else 0) := by
  split
  · exact below_twoPow hk
  · exact fun i _ => BitVec.getLsbD_zero

/-- Writing such a word leaves the flags. -/
theorem getLsbD_configure (h : Below value) :
    (Latch.write (~~~kDicrWritable) old value).getLsbD i =
      if i < 24 then value.getLsbD i else old.getLsbD i := by
  rw [Latch.getLsbD_write, BitVec.getLsbD_not, getLsbD_kDicrWritable]
  rcases Nat.lt_or_ge i 24 with hi | hi
  · simp [hi]
  · rcases Nat.lt_or_ge i 32 with hw | hw
    · simp [hw, Nat.not_lt.mpr hi, h i hi, -BitVec.getLsbD_eq_getElem]
    · simp [hw, Nat.not_lt.mpr hi]

/-- Writing a register back with the bit `k` as `bits` has it, and the other `bits` set. -/
theorem getLsbD_replace (hk : k < 24) (hbits : Below bits) :
    (Latch.write (~~~kDicrWritable) old
        (old &&& (kDicrWritable &&& ~~~BitVec.twoPow 32 k) ||| bits)).getLsbD i =
      (bits.getLsbD i || decide (i ≠ k) && old.getLsbD i) := by
  have hold : Below (old &&& (kDicrWritable &&& ~~~BitVec.twoPow 32 k)) := fun i hi => by
    simp only [BitVec.getLsbD_and, getLsbD_kDicrWritable, decide_eq_false (Nat.not_lt.mpr hi),
      Bool.false_and, Bool.and_false]
  rw [getLsbD_configure (below_or hold hbits)]
  split
  next h =>
    simp only [BitVec.getLsbD_or, BitVec.getLsbD_and, BitVec.getLsbD_not, getLsbD_kDicrWritable,
      Latch.getLsbD_twoPow (show k < 32 by omega), h, show i < 32 by omega, decide_true,
      Bool.true_and, decide_not]
    rw [Bool.or_comm, Bool.and_comm]
  next h =>
    rw [hbits i (by omega), decide_eq_true (by omega), Bool.true_and, Bool.false_or]

/-- Writing it back with `bits` set. -/
theorem getLsbD_add (hbits : Below bits) :
    (Latch.write (~~~kDicrWritable) old (old &&& kDicrWritable ||| bits)).getLsbD i =
      (bits.getLsbD i || old.getLsbD i) := by
  have hold : Below (old &&& kDicrWritable) := fun i hi => by
    simp only [BitVec.getLsbD_and, getLsbD_kDicrWritable, decide_eq_false (Nat.not_lt.mpr hi),
      Bool.and_false]
  rw [getLsbD_configure (below_or hold hbits)]
  split
  next h =>
    rw [BitVec.getLsbD_or, BitVec.getLsbD_and, getLsbD_kDicrWritable, decide_eq_true h,
      Bool.and_true, Bool.or_comm]
  next h => rw [hbits i (by omega), Bool.false_or]

/-- Writing it back without the bit `k`. -/
theorem getLsbD_drop (hk : k < 24) :
    (Latch.write (~~~kDicrWritable) old
        (old &&& kDicrWritable &&& ~~~BitVec.twoPow 32 k)).getLsbD i =
      (decide (i ≠ k) && old.getLsbD i) := by
  have hold : old &&& kDicrWritable &&& ~~~BitVec.twoPow 32 k =
      old &&& (kDicrWritable &&& ~~~BitVec.twoPow 32 k) ||| 0#32 := by
    rw [BitVec.or_zero, BitVec.and_assoc]
  rw [hold, getLsbD_replace hk fun i _ => BitVec.getLsbD_zero, BitVec.getLsbD_zero, Bool.false_or]

theorem enableIntr_low (h : lineOf arg < kDmaFirst) : enableIntr arg r =
    (kOk, r.writeIntMask (r.iMask ||| BitVec.twoPow 32 (lineOf arg))) := by
  simp only [enableIntr, h, if_true]

/-- Enabling a channel of the first bank. -/
theorem enableIntr_first (h : lineOf arg = kDmaFirst + channel) (hc : channel < 7) :
    ∃ r', enableIntr arg r = (kOk, r') ∧
    (∀ i, r'.dicr.getLsbD i = (decide (i = 16 + channel) || decide (i = 23) ||
        decide (arg &&& ~~~kLineMask &&& kFlagDicr ≠ 0 ∧ i = channel) ||
        decide (i ≠ channel) && r.dicr.getLsbD i)) ∧
    (∀ i, r'.dicr2.getLsbD i =
      (decide (arg &&& ~~~kLineMask &&& kFlagDicr2 ≠ 0 ∧ i = channel) ||
        decide (i ≠ channel) && r.dicr2.getLsbD i)) ∧
    r'.iMask = r.iMask ||| BitVec.twoPow 32 kDmaLine := by
  have hlow : ¬ kDmaFirst + channel < kDmaFirst := by omega
  have hfirst : kDmaFirst + channel < kDmaSecondBank - 1 := by
    simp only [kDmaSecondBank, kDmaFirst]
    omega
  simp only [enableIntr, h, hlow, hfirst, Nat.add_sub_cancel_left, if_false, if_true]
  refine ⟨_, rfl, fun i => ?_, fun i => ?_, rfl⟩
  · refine (getLsbD_replace (by omega) (below_or (below_or (below_twoPow (by omega))
      below_kDmaMaster) (below_optional (by omega)))).trans ?_
    rw [BitVec.getLsbD_or, BitVec.getLsbD_or, getLsbD_kDmaMaster, getLsbD_optional (by omega),
      Latch.getLsbD_twoPow (by omega)]
  · refine (getLsbD_replace (by omega) (below_optional (by omega))).trans ?_
    rw [getLsbD_optional (by omega)]
    rfl

/-- Enabling a channel of the second bank. -/
theorem enableIntr_second (h : lineOf arg = kDmaSecondBank + channel) (hc : channel < 6) :
    ∃ r', enableIntr arg r = (kOk, r') ∧
    (∀ i, r'.dicr.getLsbD i = (decide (i = 23) || r.dicr.getLsbD i)) ∧
    (∀ i, r'.dicr2.getLsbD i = (decide (i = 16 + channel) ||
        decide (arg &&& ~~~kLineMask &&& kFlagDicr2 ≠ 0 ∧ i = channel + 7) ||
        decide (i ≠ channel + 7) && r.dicr2.getLsbD i)) ∧
    r'.iMask = r.iMask ||| BitVec.twoPow 32 kDmaLine := by
  have hlow : ¬ kDmaSecondBank + channel < kDmaFirst := by
    simp only [kDmaSecondBank, kDmaFirst]
    omega
  have hfirst : ¬ kDmaSecondBank + channel < kDmaSecondBank - 1 := by omega
  have hsecond : kDmaSecondBank ≤ kDmaSecondBank + channel ∧
      kDmaSecondBank + channel < kLines := by
    simp only [kDmaSecondBank, kLines]
    omega
  simp only [enableIntr, h, hlow, hfirst, hsecond, Nat.add_sub_cancel_left, if_false, if_true,
    and_self]
  refine ⟨_, rfl, fun i => ?_, fun i => ?_, rfl⟩
  · refine (getLsbD_add below_kDmaMaster).trans ?_
    rw [getLsbD_kDmaMaster]
    rfl
  · refine (getLsbD_replace (by omega) (below_or (below_twoPow (by omega))
      (below_optional (by omega)))).trans ?_
    rw [BitVec.getLsbD_or, getLsbD_optional (by omega), Latch.getLsbD_twoPow (by omega)]

/-- The argument that enables a line again: with it go the low bits found set. -/
def token (line : ℕ) (dicr dicr2 : Bool) : Word :=
  BitVec.ofNat 32 line ||| (if dicr then kFlagDicr else 0) ||| (if dicr2 then kFlagDicr2 else 0)

theorem token_false (line : ℕ) (b : Bool) :
    token line false b = BitVec.ofNat 32 line ||| (if b then kFlagDicr2 else 0) := by
  simp [token]

theorem token_false_false (line : ℕ) : token line false false = BitVec.ofNat 32 line := by
  simp [token]

theorem getLsbD_shiftRight_and_one {x : Word} : (x >>> k &&& 1 ≠ 0) ↔ x.getLsbD k = true := by
  have h := Latch.and_twoPow_eq_zero (w := 32) (x := x >>> k) (i := 0) (by decide)
  rw [BitVec.twoPow_zero, BitVec.getLsbD_ushiftRight, Nat.add_zero] at h
  rw [← Bool.not_eq_false, ← h]
  exact Iff.rfl

theorem and_twoPow_ne_zero {x : Word} (hk : k < 32) :
    (x &&& BitVec.twoPow 32 k ≠ 0) ↔ x.getLsbD k = true := by
  rw [← Bool.not_eq_false]
  exact not_congr (Latch.and_twoPow_eq_zero hk)

theorem getLsbD_masked {x : Word} (hk : k < 24) :
    (x &&& kDicrWritable).getLsbD k = x.getLsbD k := by
  rw [BitVec.getLsbD_and, getLsbD_kDicrWritable, decide_eq_true hk, Bool.and_true]

/-- What disabling an ordinary line that is enabled does and answers. -/
theorem disableIntr_low (h : lineOf arg < kDmaFirst)
    (hset : r.iMask.getLsbD (lineOf arg) = true) :
    disableIntr arg previous r = (kOk, previous.map fun _ => token (lineOf arg) false false,
      r.writeIntMask (r.iMask &&& ~~~BitVec.twoPow 32 (lineOf arg))) := by
  have hbit : ¬ r.iMask &&& BitVec.twoPow 32 (lineOf arg) = 0 :=
    (and_twoPow_ne_zero (by simp only [kDmaFirst] at h; omega)).mpr hset
  simp only [disableIntr, h, hbit, if_true, if_false, token_false_false]

/-- Disabling a channel of the first bank that is enabled. -/
theorem disableIntr_first (previous : Option Word) (h : lineOf arg = kDmaFirst + channel)
    (hc : channel < 7) (hset : r.dicr.getLsbD (16 + channel) = true) :
    ∃ r', disableIntr arg previous r =
      (kOk, previous.map fun _ => token (lineOf arg) (r.dicr.getLsbD channel)
        (r.dicr2.getLsbD channel), r') ∧
    (∀ i, r'.dicr.getLsbD i = (decide (i ≠ 16 + channel) && r.dicr.getLsbD i)) ∧
    r'.dicr2 = r.dicr2 ∧ r'.iMask = r.iMask := by
  have hlow : ¬ kDmaFirst + channel < kDmaFirst := by omega
  have hfirst : kDmaFirst + channel < kDmaSecondBank - 1 := by
    simp only [kDmaSecondBank, kDmaFirst]
    omega
  have hbit : ¬ r.dicr &&& kDicrWritable &&& BitVec.twoPow 32 (16 + channel) = 0 :=
    (and_twoPow_ne_zero (by omega)).mpr ((getLsbD_masked (by omega)).trans hset)
  have hdicr := getLsbD_masked (x := r.dicr) (show channel < 24 by omega)
  simp only [disableIntr, h, hlow, hfirst, hbit, Nat.add_sub_cancel_left, if_false, if_true,
    getLsbD_shiftRight_and_one, hdicr, and_twoPow_ne_zero (show channel < 32 by omega)]
  exact ⟨_, rfl, fun i => getLsbD_drop (by omega), rfl, rfl⟩

/-- A channel that is not enabled is left. -/
theorem disableIntr_first_off (h : lineOf arg = kDmaFirst + channel) (hc : channel < 7)
    (hclear : r.dicr.getLsbD (16 + channel) = false) : (disableIntr arg previous r).2.2 = r := by
  have hlow : ¬ kDmaFirst + channel < kDmaFirst := by omega
  have hfirst : kDmaFirst + channel < kDmaSecondBank - 1 := by
    simp only [kDmaSecondBank, kDmaFirst]
    omega
  have hbit : r.dicr &&& kDicrWritable &&& BitVec.twoPow 32 (16 + channel) = 0 :=
    (Latch.and_twoPow_eq_zero (by omega)).mpr ((getLsbD_masked (by omega)).trans hclear)
  simp only [disableIntr, h, hlow, hfirst, hbit, Nat.add_sub_cancel_left, if_false, if_true]

/-- Disabling a channel of the second bank that is enabled. -/
theorem disableIntr_second (previous : Option Word) (h : lineOf arg = kDmaSecondBank + channel)
    (hc : channel < 6) (hset : r.dicr2.getLsbD (16 + channel) = true) :
    ∃ r', disableIntr arg previous r =
      (kOk, previous.map fun _ => token (lineOf arg) false (r.dicr2.getLsbD (channel + 7)), r') ∧
    r'.dicr = r.dicr ∧
    (∀ i, r'.dicr2.getLsbD i = (decide (i ≠ 16 + channel) && r.dicr2.getLsbD i)) ∧
    r'.iMask = r.iMask := by
  have hlow : ¬ kDmaSecondBank + channel < kDmaFirst := by
    simp only [kDmaSecondBank, kDmaFirst]
    omega
  have hfirst : ¬ kDmaSecondBank + channel < kDmaSecondBank - 1 := by omega
  have hsecond : kDmaSecondBank ≤ kDmaSecondBank + channel ∧
      kDmaSecondBank + channel < kLines := by
    simp only [kDmaSecondBank, kLines]
    omega
  have hbit : ¬ r.dicr2 &&& kDicrWritable &&& BitVec.twoPow 32 (16 + channel) = 0 :=
    (and_twoPow_ne_zero (by omega)).mpr ((getLsbD_masked (by omega)).trans hset)
  have hdicr2 := getLsbD_masked (x := r.dicr2) (show channel + 7 < 24 by omega)
  simp only [disableIntr, h, hlow, hfirst, hsecond, hbit, Nat.add_sub_cancel_left, if_false,
    if_true, and_self, getLsbD_shiftRight_and_one, hdicr2, token_false]
  exact ⟨_, rfl, rfl, fun i => getLsbD_drop (by omega), rfl⟩

/-- Disabling a channel that is not enabled leaves the registers as they are. -/
theorem disableIntr_second_off (h : lineOf arg = kDmaSecondBank + channel) (hc : channel < 6)
    (hclear : r.dicr2.getLsbD (16 + channel) = false) : (disableIntr arg previous r).2.2 = r := by
  have hlow : ¬ kDmaSecondBank + channel < kDmaFirst := by
    simp only [kDmaSecondBank, kDmaFirst]
    omega
  have hfirst : ¬ kDmaSecondBank + channel < kDmaSecondBank - 1 := by omega
  have hsecond : kDmaSecondBank ≤ kDmaSecondBank + channel ∧
      kDmaSecondBank + channel < kLines := by
    simp only [kDmaSecondBank, kLines]
    omega
  have hbit : r.dicr2 &&& kDicrWritable &&& BitVec.twoPow 32 (16 + channel) = 0 :=
    (Latch.and_twoPow_eq_zero (by omega)).mpr ((getLsbD_masked (by omega)).trans hclear)
  simp only [disableIntr, h, hlow, hfirst, hsecond, hbit, Nat.add_sub_cancel_left, if_false,
    if_true, and_self]

/-- What the token says, read back. -/
theorem token_reads {line : ℕ} (h : line < kLines) (a b : Bool) :
    lineOf (token line a b) = line ∧
    (token line a b &&& ~~~kLineMask &&& kFlagDicr ≠ 0 ↔ a = true) ∧
    (token line a b &&& ~~~kLineMask &&& kFlagDicr2 ≠ 0 ↔ b = true) := by
  have hall : ∀ line < kLines, ∀ a b : Bool, lineOf (token line a b) = line ∧
      (token line a b &&& ~~~kLineMask &&& kFlagDicr ≠ 0 ↔ a = true) ∧
      (token line a b &&& ~~~kLineMask &&& kFlagDicr2 ≠ 0 ↔ b = true) := by
    decide +kernel
  exact hall line h a b

end PS2Bios.Intrman
