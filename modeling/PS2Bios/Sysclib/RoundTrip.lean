import Mathlib.Data.Nat.Digits.Lemmas
import PS2Bios.Sysclib.Format
import PS2Bios.Sysclib.Numerals

/-!
# Numbers that are printed and read back

What `prnt` writes for a number is blanks, a sign or a prefix, zeros, the digits, and blanks
(`emitPaddedNumber_eq`), and this is what `strtol` and `strtoul` read, unless the zeros and digits
look like a prefix. They do in one case: a `0` in front of a number whose first hexadecimal digit
is `b` is the prefix of a binary one.
-/

namespace PS2Bios.Sysclib

/-! ### Digits -/

section Digits

variable {b : ℕ} {upper : Bool} {l : List ℕ}

theorem digitValue_digitChar {d : ℕ} (hd : d < 16) : digitValue (digitChar upper d) = some d := by
  have h : ∀ upper, ∀ d < 16, digitValue (digitChar upper d) = some d := by decide
  exact h upper d hd

/-- The digits from the first to the last, read as a number. -/
def numeral (b : ℕ) (l : List ℕ) : ℕ := l.foldl (fun n d => n * b + d) 0

theorem numeral_reverse (b : ℕ) (l : List ℕ) : numeral b l.reverse = Nat.ofDigits b l := by
  rw [numeral, List.foldl_reverse, Nat.ofDigits_eq_foldr]
  congr 1
  funext d n
  rw [Nat.cast_id, Nat.mul_comm, Nat.add_comm]

/-- Zeros in front do not count. -/
theorem numeral_zeros (b z : ℕ) (l : List ℕ) :
    numeral b (List.replicate z 0 ++ l) = numeral b l := by
  induction z with
  | zero => rfl
  | succ z ih =>
    rw [List.replicate_succ, List.cons_append, ← ih]
    simp [numeral]

/-- The word `base` is the base `b`. -/
structure IsBase (base : Int32) (b : ℕ) : Prop where
  word : base.toUInt32 = UInt32.ofNat b
  ne_zero : base ≠ 0
  digit : ∀ d < b, ¬base ≤ Int32.ofNat d
  one_lt : 1 < b
  le : b ≤ 16

theorem isBase_eight : IsBase 8 8 := ⟨by decide, by decide, by decide, by decide, by decide⟩
theorem isBase_ten : IsBase 10 10 := ⟨by decide, by decide, by decide, by decide, by decide⟩
theorem isBase_sixteen : IsBase 16 16 := ⟨by decide, by decide, by decide, by decide, by decide⟩

/-- The loop over the digits goes through all of them. -/
theorem scanDigits_digits {base : Int32} (hbase : IsBase base b) (upper : Bool)
    (hl : ∀ d ∈ l, d < b) (n : ℕ) (any : Bool) (rest : List Char) :
    scanDigits base (UInt32.ofNat n) any (l.map (digitChar upper) ++ rest) =
      scanDigits base (UInt32.ofNat (l.foldl (fun n d => n * b + d) n)) (any || !l.isEmpty)
        rest := by
  induction l generalizing n any with
  | nil => simp
  | cons d l ih =>
    have hd : d < b := hl d List.mem_cons_self
    rw [List.map_cons, List.cons_append, scanDigits, digitValue_digitChar (hd.trans_le hbase.le)]
    dsimp only
    rw [if_neg (hbase.digit d hd), hbase.word, ← UInt32.ofNat_mul, ← UInt32.ofNat_add,
      ih (fun d hd => hl d (List.mem_cons_of_mem _ hd))]
    simp

end Digits

/-! ### What is written -/

section Written

variable {s : Spec} {m : UInt32} {b : ℕ}

/-- The values of the digits, the least significant first. -/
def digitsIn (b : ℕ) (m : UInt32) : List ℕ := if m = 0 then [0] else Nat.digits b m.toNat

/-- What is printed for a number is the characters of its digits. -/
theorem digitsOf_eq (upper : Bool) (hprec : s.prec ≠ 0) :
    digitsOf m b upper s.prec = (digitsIn b m).map (digitChar upper) := by
  rw [digitsOf, digitsIn, if_pos hprec]
  split
  · cases upper <;> rfl
  · rfl

/-- A number has a digit, and nought has one too. -/
theorem digitsIn_ne_nil : digitsIn b m ≠ [] := by
  rw [digitsIn]
  split
  · exact List.cons_ne_nil _ _
  · next hm =>
    exact Nat.digits_ne_nil_iff_ne_zero.mpr fun h => hm (UInt32.toNat_inj.mp h)

/-- A digit is below its base. -/
theorem digitsIn_lt (hb : 1 < b) : ∀ d ∈ digitsIn b m, d < b := by
  intro d hd
  rw [digitsIn] at hd
  split at hd
  · obtain rfl := List.mem_singleton.mp hd
    omega
  · exact Nat.digits_lt_base hb hd

/-- The digits are the number's. -/
theorem ofDigits_digitsIn : Nat.ofDigits b (digitsIn b m) = m.toNat := by
  rw [digitsIn]
  split
  · next hm =>
    rw [hm]
    rfl
  · exact Nat.ofDigits_digits b _

/-- A number of the digits `l`, between blanks. -/
def framed (blanks : ℕ) (sign : List Char) (upper : Bool) (l : List ℕ) (behind : ℕ) : List Char :=
  List.replicate blanks ' ' ++ (sign ++ (l.map (digitChar upper) ++ List.replicate behind ' '))

theorem map_zeros (upper : Bool) (z : ℕ) :
    (List.replicate z 0).map (digitChar upper) = List.replicate z '0' := by
  rw [List.map_replicate]
  cases upper <;> rfl

/-- A number is printed as blanks, sign and prefix, noughts, digits, and blanks again. -/
theorem emitPaddedNumber_eq (upper negative : Bool) (numberPrefix : List Char)
    (plus space octal : Bool) (hprec : s.prec ≠ 0) : ∃ blanks zeros behind,
      emitPaddedNumber negative m b upper numberPrefix s plus space octal =
        framed blanks (signOf negative plus space ++ numberPrefix) upper
          (List.replicate zeros 0 ++ (digitsIn b m).reverse) behind := by
  obtain ⟨pad, zeroPadPrec, zeroPad, hshape⟩ : ∃ pad zeroPadPrec : Int32, ∃ zeroPad : Bool,
      emitPaddedNumber negative m b upper numberPrefix s plus space octal =
        (if s.left = false ∧ zeroPad = false then padding pad ' ' else []) ++
          signOf negative plus space ++ numberPrefix ++
          (if s.left = false ∧ zeroPad then padding pad '0' else []) ++ padding zeroPadPrec '0' ++
          (digitsOf m b upper s.prec).reverse ++ (if s.left then padding pad ' ' else []) :=
    ⟨_, _, _, rfl⟩
  rw [hshape, digitsOf_eq upper hprec, ← List.map_reverse]
  refine ⟨if s.left = false ∧ zeroPad = false then pad.toInt.toNat else 0,
    (if s.left = false ∧ zeroPad = true then pad.toInt.toNat else 0) + zeroPadPrec.toInt.toNat,
    if s.left = true then pad.toInt.toNat else 0, ?_⟩
  have hpadding {c : Prop} [Decidable c] (x : Char) :
      (if c then padding pad x else []) = List.replicate (if c then pad.toInt.toNat else 0) x := by
    split <;> rfl
  rw [hpadding, hpadding, hpadding, framed, List.map_append, map_zeros, List.replicate_add, padding]
  simp only [List.append_assoc]

end Written

/-! ### What is read -/

section Read

/-- The first characters of a binary number. -/
def BinaryPrefix (p : List Char) : Prop := ∃ c rest, (c = 'b' ∨ c = 'B') ∧ p = '0' :: c :: rest

/-- Digits and blanks. -/
def Plain (b : ℕ) (p : List Char) : Prop := ∀ c ∈ p, c = ' ' ∨ ∃ d < b, digitValue c = some d

/-- A base that was asked for stays, unless what follows looks like the prefix of another. -/
theorem applyBasePrefix_eq {p : List Char} {base : Int32} (hbase : base ≠ 0) (hp : Plain 16 p)
    (hno : ¬BinaryPrefix p) : applyBasePrefix p base = (p, base) := by
  have hx {c : Char} (hc : c = ' ' ∨ ∃ d < 16, digitValue c = some d) {v : ℕ}
      (hv : digitValue c = some v) (hlarge : 16 ≤ v) : False := by
    rcases hc with rfl | ⟨d, hd, heq⟩
    · cases hv
    · rw [hv] at heq
      cases heq
      omega
  rw [applyBasePrefix.eq_def]
  split
  · exact (hx (v := 33) (hp 'x' (by simp)) (by decide) (by decide)).elim
  · exact (hx (v := 33) (hp 'X' (by simp)) (by decide) (by decide)).elim
  · exact absurd ⟨'b', _, .inl rfl, rfl⟩ hno
  · exact absurd ⟨'B', _, .inr rfl, rfl⟩ hno
  · exact (hx (v := 24) (hp 'o' (by simp)) (by decide) (by decide)).elim
  · exact (hx (v := 24) (hp 'O' (by simp)) (by decide) (by decide)).elim
  · rw [if_neg hbase]

/-- Decimal and octal digits do not look like a binary number. -/
theorem Plain.not_binaryPrefix {b : ℕ} {p : List Char} (hp : Plain b p) (hb : b ≤ 11) :
    ¬BinaryPrefix p := by
  rintro ⟨c, rest, hc, rfl⟩
  have hvalue : digitValue c = some 11 := by rcases hc with rfl | rfl <;> decide
  rcases hp c (by simp) with rfl | ⟨d, hd, heq⟩
  · cases hvalue
  · rw [hvalue] at heq
    cases heq
    omega

/-- Digits and the blanks behind them have no prefix. -/
theorem plain_digits {b : ℕ} (upper : Bool) {l : List ℕ} (hl : ∀ d ∈ l, d < b) (hb : b ≤ 16)
    (behind : ℕ) : Plain b (l.map (digitChar upper) ++ List.replicate behind ' ') := by
  intro c hc
  rcases List.mem_append.mp hc with hc | hc
  · obtain ⟨d, hd, rfl⟩ := List.mem_map.mp hc
    exact .inr ⟨d, hl d hd, digitValue_digitChar ((hl d hd).trans_le hb)⟩
  · exact .inl (List.eq_of_mem_replicate hc)

/-- A digit is not a space, and not a sign. -/
theorem digit_head {c : Char} {d : ℕ} (h : digitValue c = some d) :
    isSpaceChar c = false ∧ c ≠ '-' := by
  have hlarge : 48 ≤ c.toNat := by
    rw [digitValue] at h
    split at h
    · next hc => exact hc.1
    · split at h
      · next hc => exact le_trans (by decide : 48 ≤ 'a'.toNat) hc.1
      · split at h
        · next hc => exact le_trans (by decide : 48 ≤ 'A'.toNat) hc.1
        · cases h
  constructor
  · have hblank : c ≠ ' ' := by
      rintro rfl
      exact absurd hlarge (by decide)
    simp only [isSpaceChar, Bool.or_eq_false_iff, decide_eq_false_iff_not, beq_eq_false_iff_ne]
    exact ⟨fun h => by omega, hblank⟩
  · rintro rfl
    exact absurd hlarge (by decide)

/-- The blanks in front are passed over. -/
theorem dropWhile_blanks (blanks : ℕ) {c : Char} (hc : isSpaceChar c = false) (p : List Char) :
    (List.replicate blanks ' ' ++ c :: p).dropWhile isSpaceChar = c :: p := by
  rw [List.dropWhile_append_of_pos fun x hx => by
    rw [List.eq_of_mem_replicate hx]
    rfl]
  exact List.dropWhile_cons_of_neg (by rw [hc]; exact Bool.false_ne_true)

/-- What stops behind the last digit. -/
theorem scanDigits_blanks (base : Int32) (value : UInt32) (any : Bool) (behind : ℕ) :
    scanDigits base value any (List.replicate behind ' ') =
      (value, any, List.replicate behind ' ') := by
  cases behind <;> rfl

variable {base : Int32} {b : ℕ} {upper : Bool} {l : List ℕ}

/-- The scan reads the digits and stops at the blanks. -/
theorem scanDigits_numeral (hbase : IsBase base b) (hl : ∀ d ∈ l, d < b) (hne : l ≠ [])
    (behind : ℕ) :
    scanDigits base 0 false (l.map (digitChar upper) ++ List.replicate behind ' ') =
      (UInt32.ofNat (numeral b l), true, List.replicate behind ' ') := by
  have hscan := scanDigits_digits hbase upper hl 0 false (List.replicate behind ' ')
  rw [scanDigits_blanks] at hscan
  rw [numeral]
  refine hscan.trans ?_
  simp [hne]

/-- A list of digits begins with one. -/
theorem exists_cons_digits (upper : Bool) (hbase : IsBase base b) (hl : ∀ d ∈ l, d < b)
    (hne : l ≠ []) (behind : ℕ) :
    ∃ c p, (l.map (digitChar upper) ++ List.replicate behind ' ') = c :: p ∧
      isSpaceChar c = false ∧ c ≠ '-' := by
  obtain ⟨d, l, rfl⟩ := List.exists_cons_of_ne_nil hne
  have hd := (hl d List.mem_cons_self).trans_le hbase.le
  exact ⟨_, _, rfl, digit_head (digitValue_digitChar hd)⟩

/-- What is framed by blanks is read as its digits. -/
theorem strtoulImpl_framed (hbase : IsBase base b) (hl : ∀ d ∈ l, d < b) (hne : l ≠ [])
    (blanks behind : ℕ)
    (hno : ¬BinaryPrefix (l.map (digitChar upper) ++ List.replicate behind ' ')) :
    strtoulImpl (some (framed blanks [] upper l behind)) base =
      (UInt32.ofNat (numeral b l), some (List.replicate behind ' ')) := by
  obtain ⟨c, p, heq, hspace, -⟩ := exists_cons_digits upper hbase hl hne behind
  have hdrop : (framed blanks [] upper l behind).dropWhile isSpaceChar =
      l.map (digitChar upper) ++ List.replicate behind ' ' := by
    rw [framed, List.nil_append, heq]
    exact dropWhile_blanks blanks hspace p
  have hplain : Plain 16 (l.map (digitChar upper) ++ List.replicate behind ' ') :=
    plain_digits upper (fun d hd => (hl d hd).trans_le hbase.le) le_rfl behind
  rw [strtoulImpl, hdrop, applyBasePrefix_eq hbase.ne_zero hplain hno]
  dsimp only
  rw [scanDigits_numeral hbase hl hne]
  rfl

/-- Behind a prefix nothing looks like one. -/
theorem strtoulImpl_prefixed {x : Char} (hx : x = 'x' ∨ x = 'X') (hl : ∀ d ∈ l, d < 16)
    (hne : l ≠ []) (blanks behind : ℕ) :
    strtoulImpl (some (framed blanks ['0', x] upper l behind)) 16 =
      (UInt32.ofNat (numeral 16 l), some (List.replicate behind ' ')) := by
  have hdrop : (framed blanks ['0', x] upper l behind).dropWhile isSpaceChar =
      '0' :: x :: (l.map (digitChar upper) ++ List.replicate behind ' ') :=
    dropWhile_blanks blanks (by decide) _
  have hbegins : applyBasePrefix ('0' :: x :: (l.map (digitChar upper) ++
      List.replicate behind ' ')) 16 =
        (l.map (digitChar upper) ++ List.replicate behind ' ', 16) := by
    rcases hx with rfl | rfl <;> rfl
  rw [strtoulImpl, hdrop, hbegins]
  dsimp only
  rw [scanDigits_numeral isBase_sixteen hl hne]
  rfl

/-- What is framed by blanks is read as its digits, with its sign. -/
theorem strtolImpl_framed (hl : ∀ d ∈ l, d < 10) (hne : l ≠ []) (negative space : Bool)
    (blanks behind : ℕ) :
    strtolImpl (some (framed blanks (signOf negative false space) upper l behind)) 10 =
      (if negative then -(UInt32.ofNat (numeral 10 l)).toInt32
        else (UInt32.ofNat (numeral 10 l)).toInt32, some (List.replicate behind ' ')) := by
  obtain ⟨c, p, heq, hspace, hminus⟩ := exists_cons_digits upper isBase_ten hl hne behind
  have hplain : Plain 10 (l.map (digitChar upper) ++ List.replicate behind ' ') :=
    plain_digits upper hl (by decide) behind
  have hbegins : applyBasePrefix _ 10 = (_, 10) := applyBasePrefix_eq (by decide)
    (plain_digits upper (fun d hd => (hl d hd).trans (by decide)) le_rfl behind)
    (hplain.not_binaryPrefix (by decide))
  have hsign : scanMinus false ((framed blanks (signOf negative false space) upper l
      behind).dropWhile isSpaceChar) =
        (negative, l.map (digitChar upper) ++ List.replicate behind ' ') := by
    rw [framed, heq]
    have hstop (neg : Bool) : scanMinus neg (c :: p) = (neg, c :: p) := by
      rw [scanMinus]
      exact fun p' h => hminus (List.cons.inj h).1
    cases negative with
    | true =>
      refine (congrArg (scanMinus false) (dropWhile_blanks blanks (by decide) _)).trans ?_
      exact hstop true
    | false =>
      cases space with
      | true =>
        have hblank : List.replicate blanks ' ' ++ (signOf false false true ++ c :: p) =
            List.replicate (blanks + 1) ' ' ++ c :: p := by
          rw [List.replicate_succ', List.append_assoc]
          rfl
        rw [hblank, dropWhile_blanks _ hspace]
        exact hstop false
      | false =>
        refine (congrArg (scanMinus false) (dropWhile_blanks blanks hspace p)).trans ?_
        exact hstop false
  rw [strtolImpl, hsign]
  dsimp only
  rw [hbegins]
  dsimp only
  rw [scanDigits_numeral isBase_ten hl hne]
  rfl

end Read

/-! ### The round trip -/

section RoundTrip

variable {strings : UInt32 → List Char} {args : ℕ → UInt32} {fmt text : List Char} {s : Spec}
  {conv : Char} {cursor : ℕ} {v : UInt32}

theorem written_map_char (text : List Char) : written (text.map .char) = text := by
  rw [written, List.filterMap_map]
  exact List.filterMap_some

/-- A format that is one conversion of a number. -/
theorem written_prnt (h : readSpec fmt args 0 = (s, [conv], cursor))
    (hn : number conv s (args cursor) = some text) :
    written (prnt strings ('%' :: fmt) args) = text := by
  have hconvert : convert strings conv s args cursor 0 = (text.map .char, cursor + 1) := by
    rw [convert.eq_def, hn]
  have hfrom : prntFrom strings args ('%' :: fmt) 0 0 = text.map .char := by
    rw [prntFrom.eq_def]
    dsimp only
    rw [if_neg (not_not.mpr rfl)]
    split
    · next heq =>
      rw [h] at heq
      cases heq
    · next heq =>
      rw [h] at heq
      cases heq
      rw [hconvert, prntFrom.eq_def, List.append_nil]
  rw [prnt, hfrom, written, List.cons_append, List.filterMap_cons_none rfl, List.filterMap_append,
    ← written, written_map_char]
  exact List.append_nil _

/-- The digits with the zeros in front. -/
theorem numeral_digitsIn (b zeros : ℕ) (m : UInt32) :
    UInt32.ofNat (numeral b (List.replicate zeros 0 ++ (digitsIn b m).reverse)) = m := by
  rw [numeral_zeros, numeral_reverse, ofDigits_digitsIn, UInt32.ofNat_toNat]

/-- The noughts and digits of a number are below its base. -/
theorem digits_lt {b : ℕ} (hb : 1 < b) (zeros : ℕ) (m : UInt32) :
    ∀ d ∈ List.replicate zeros 0 ++ (digitsIn b m).reverse, d < b := by
  intro d hd
  rcases List.mem_append.mp hd with hd | hd
  · rw [List.eq_of_mem_replicate hd]
    omega
  · exact digitsIn_lt hb d (List.mem_reverse.mp hd)

theorem digits_ne_nil (b zeros : ℕ) (m : UInt32) :
    List.replicate zeros 0 ++ (digitsIn b m).reverse ≠ [] := fun h =>
  digitsIn_ne_nil (List.reverse_eq_nil_iff.mp (List.append_eq_nil_iff.mp h).2)

/-- What reads a conversion's text, and in which base. -/
def readBack (conv : Char) (text : List Char) : UInt32 × Option (List Char) :=
  match conv with
  | 'd' | 'i' | 'D' => ((strtolImpl (some text) 10).1.toUInt32, (strtolImpl (some text) 10).2)
  | 'u' | 'U' => strtoulImpl (some text) 10
  | 'o' | 'O' => strtoulImpl (some text) 8
  | _ => strtoulImpl (some text) 16

/-- The end is just past the last digit. -/
def EndsAtDigit (text rest : List Char) : Prop :=
  ∃ before c, text = before ++ c :: rest ∧ digitValue c ≠ none ∧ ∀ x ∈ rest, digitValue x = none

/-- The text is read back as the value. -/
def ReadsBack (conv : Char) (text : List Char) (v : UInt32) : Prop :=
  ∃ rest, readBack conv text = (v, some rest) ∧ EndsAtDigit text rest

/-- The text that is read ends at a digit. -/
theorem endsAtDigit_framed {b : ℕ} {upper : Bool} {l : List ℕ} (hl : ∀ d ∈ l, d < b) (hb : b ≤ 16)
    (hne : l ≠ []) (blanks : ℕ) (sign : List Char) (behind : ℕ) :
    EndsAtDigit (framed blanks sign upper l behind) (List.replicate behind ' ') := by
  have hlast := List.dropLast_append_getLast hne
  refine ⟨List.replicate blanks ' ' ++ (sign ++ l.dropLast.map (digitChar upper)),
    digitChar upper (l.getLast hne), ?_, ?_, ?_⟩
  · rw [framed]
    conv_lhs => rw [← hlast]
    simp
  · rw [digitValue_digitChar ((hl _ (List.getLast_mem hne)).trans_le hb)]
    exact Option.some_ne_none _
  · intro x hx
    rw [List.eq_of_mem_replicate hx]
    decide

/-- A signed conversion is read back. -/
theorem signed_readsBack (hplus : s.plus = false) (hprec : s.prec ≠ 0) :
    let negative := decide (v.toInt32 < 0)
    ReadsBack 'd' (emitPaddedNumber negative (if negative then -v else v) 10 false [] s s.plus
      s.space false) v := by
  intro negative
  obtain ⟨blanks, zeros, behind, heq⟩ := emitPaddedNumber_eq (s := s) (b := 10)
    (m := if negative then -v else v) false negative [] s.plus s.space false hprec
  have hl := digits_lt (b := 10) (by decide) zeros (if negative then -v else v)
  have hne := digits_ne_nil 10 zeros (if negative then -v else v)
  rw [heq, hplus, List.append_nil]
  refine ⟨_, ?_, endsAtDigit_framed hl (by decide) hne _ _ _⟩
  dsimp only [readBack]
  rw [strtolImpl_framed hl hne, numeral_digitsIn]
  cases negative with
  | true => simp
  | false => simp

/-- An unsigned conversion is read back in a base up to eleven. -/
theorem unsigned_readsBack {base : Int32} {b : ℕ} (hbase : IsBase base b) (hsmall : b ≤ 11)
    (hread : ∀ text, readBack conv text = strtoulImpl (some text) base) (octal : Bool)
    (hprec : s.prec ≠ 0) :
    ReadsBack conv (emitPaddedNumber false v b false [] s false false octal) v := by
  obtain ⟨blanks, zeros, behind, heq⟩ := emitPaddedNumber_eq (s := s) (b := b)
    (m := v) false false [] false false octal hprec
  have hl := digits_lt hbase.one_lt zeros v
  have hne := digits_ne_nil b zeros v
  rw [heq]
  refine ⟨_, ?_, endsAtDigit_framed hl hbase.le hne _ _ _⟩
  rw [hread]
  refine (strtoulImpl_framed hbase hl hne _ _
    ((plain_digits false hl hbase.le behind).not_binaryPrefix hsmall)).trans ?_
  rw [numeral_digitsIn]

/-- A number that looks like a binary one. -/
def LooksBinary (text : List Char) : Prop := BinaryPrefix (text.dropWhile isSpaceChar)

/-- A hexadecimal conversion is read back, with its prefix or without. -/
theorem hexadecimal_readsBack {x : Char} (hx : x = 'x' ∨ x = 'X') (upper : Bool)
    (hread : ∀ text, readBack conv text = strtoulImpl (some text) 16) (hprec : s.prec ≠ 0) :
    let text := emitPaddedNumber false v 16 upper (if s.alt ∧ v ≠ 0 then ['0', x] else []) s false
      false false
    ¬LooksBinary text → ReadsBack conv text v := by
  intro text hno
  obtain ⟨blanks, zeros, behind, heq⟩ := emitPaddedNumber_eq (s := s) (b := 16)
    (m := v) upper false (if s.alt ∧ v ≠ 0 then ['0', x] else []) false false false hprec
  have hl := digits_lt (b := 16) (by decide) zeros v
  have hne := digits_ne_nil 16 zeros v
  have htext : text = framed blanks (if s.alt ∧ v ≠ 0 then ['0', x] else []) upper
      (List.replicate zeros 0 ++ (digitsIn 16 v).reverse) behind := heq
  clear_value text
  subst htext
  refine ⟨_, ?_, endsAtDigit_framed hl le_rfl hne _ _ _⟩
  rw [hread]
  split
  · rw [strtoulImpl_prefixed hx hl hne, numeral_digitsIn]
  · next hbare =>
    rw [if_neg hbare] at hno
    obtain ⟨c, p, hcons, hspace, -⟩ :=
      exists_cons_digits upper isBase_sixteen hl hne behind
    have hdrop := dropWhile_blanks blanks hspace p
    rw [LooksBinary, framed, List.nil_append, hcons, hdrop, ← hcons] at hno
    rw [strtoulImpl_framed isBase_sixteen hl hne _ _ hno, numeral_digitsIn]

/-- **A number is read back as it was written**, by `strtol` or `strtoul` with the base it was
written in: whatever stands between the `%` and the letter, a `+` and the precision 0 apart, and
unless a hexadecimal number looks like a binary one. -/
theorem numbers_are_read_back (strings : UInt32 → List Char) (args : ℕ → UInt32) (fmt : List Char)
    (s : Spec) (conv : Char) (cursor : ℕ) (h : readSpec fmt args 0 = (s, [conv], cursor))
    (hconv : conv ∈ ['d', 'i', 'D', 'u', 'U', 'o', 'O', 'x', 'X']) (hplus : s.plus = false)
    (hprec : s.prec ≠ 0)
    (hno : conv ∈ ['x', 'X'] → ¬LooksBinary (written (prnt strings ('%' :: fmt) args))) :
    ReadsBack conv (written (prnt strings ('%' :: fmt) args)) (args cursor) := by
  have hsigned := signed_readsBack (v := args cursor) hplus hprec
  have hdecimal (c : Char) (hread : ∀ text, readBack c text = strtoulImpl (some text) 10) :=
    unsigned_readsBack (v := args cursor) isBase_ten (by decide) hread false hprec
  have hoctal (c : Char) (hread : ∀ text, readBack c text = strtoulImpl (some text) 8) :=
    unsigned_readsBack (v := args cursor) isBase_eight (by decide) hread s.alt hprec
  simp only [List.mem_cons, List.not_mem_nil, or_false] at hconv hno
  rcases hconv with rfl | rfl | rfl | rfl | rfl | rfl | rfl | rfl | rfl
  · rw [written_prnt h rfl]
    exact hsigned
  · rw [written_prnt h rfl]
    exact hsigned
  · rw [written_prnt h rfl]
    exact hsigned
  · rw [written_prnt h rfl]
    exact hdecimal _ fun _ => rfl
  · rw [written_prnt h rfl]
    exact hdecimal _ fun _ => rfl
  · rw [written_prnt h rfl]
    exact hoctal _ fun _ => rfl
  · rw [written_prnt h rfl]
    exact hoctal _ fun _ => rfl
  · have hno' := hno (.inl rfl)
    rw [written_prnt h rfl] at hno' ⊢
    exact hexadecimal_readsBack (.inl rfl) false (fun _ => rfl) hprec hno'
  · have hno' := hno (.inr rfl)
    rw [written_prnt h rfl] at hno' ⊢
    exact hexadecimal_readsBack (.inr rfl) true (fun _ => rfl) hprec hno'

/-- The smallest number, to the left of a field. -/
theorem numbers_are_read_back_least :
    let text := written (prnt (fun _ => []) "%-14d".toList fun _ => 0x80000000)
    text = "-2147483648   ".toList ∧ ReadsBack 'd' text 0x80000000 := by
  have hspec : readSpec "-14d".toList (fun _ => 0x80000000) 0 =
      (⟨⟨true, false, false, false, false⟩, 14, true, -1⟩, ['d'], 0) := by decide
  exact ⟨written_prnt hspec (by decide), numbers_are_read_back _ _ "-14d".toList _ _ _ hspec
    (by decide) rfl (by decide) fun h => absurd h (by decide)⟩

/-- `%02x` of 11 is written as `0b`, and read as the prefix of a binary number. -/
theorem padded_number_looks_binary :
    ¬ReadsBack 'x' (written (prnt (fun _ => []) "%02x".toList fun _ => 0xB)) 0xB := by
  have hspec : readSpec "02x".toList (fun _ => 0xB) 0 =
      (⟨⟨false, false, false, false, true⟩, 2, true, -1⟩, ['x'], 0) := by decide
  have htext : written (prnt (fun _ => []) "%02x".toList fun _ => 0xB) = "0b".toList :=
    written_prnt hspec (by decide)
  rw [htext]
  rintro ⟨rest, hread, -⟩
  have hzero : (readBack 'x' "0b".toList).1 = 0 := by decide
  rw [hread] at hzero
  exact absurd (show (0xB : UInt32) = 0 from hzero) (by decide)

end RoundTrip

end PS2Bios.Sysclib
