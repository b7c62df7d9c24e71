import Mathlib.Data.Nat.Digits.Defs
import Mathlib.Tactic.Common

/-!
# SYSCLIB's formatted output

`prnt` of `src/iop/sysclib.cpp`. A format is the list of its characters up to the NUL, the stacked
arguments are words, and `strings` says which C string is at an address. What a call does is a list
of effects: the characters and the two marks that it hands to the writer, and the counts that `%n`
stores. An `int` is an `Int32`, whose arithmetic wraps.
-/

namespace PS2Bios.Sysclib

/-- The flags of a conversion. -/
structure Flags where
  left : Bool
  plus : Bool
  space : Bool
  alt : Bool
  zero : Bool
deriving DecidableEq, Repr

/-- What stands between the `%` and the letter; a precision that is not given is -1. -/
structure Spec extends Flags where
  width : Int32
  haveWidth : Bool
  prec : Int32
deriving DecidableEq

/-- What `prnt` hands to its sink: a character, a mark, or a count to be stored. -/
inductive Effect
  | char (c : Char)
  | mark (n : ℕ)
  | count (address : UInt32) (total : ℕ)
deriving DecidableEq

/-! ### Reading a conversion -/

/-- The flags, in any order and as often as they come. -/
def readFlags (f : Flags) : List Char → Flags × List Char
  | '-' :: fmt => readFlags { f with left := true } fmt
  | '+' :: fmt => readFlags { f with plus := true } fmt
  | ' ' :: fmt => readFlags { f with space := true } fmt
  | '#' :: fmt => readFlags { f with alt := true } fmt
  | '0' :: fmt => readFlags { f with zero := true } fmt
  | fmt => (f, fmt)

/-- The loop over the digits of a width or a precision, from the number so far. -/
def readDigits (n : Int32) : List Char → Int32 × List Char
  | [] => (n, [])
  | c :: fmt =>
    if c.isDigit then readDigits (n * 10 + Int32.ofNat (c.toNat - '0'.toNat)) fmt
    else (n, c :: fmt)

/-- A width that is negative is one to the left. -/
def readWidth (f : Flags) (fmt : List Char) (args : ℕ → UInt32) (cursor : ℕ) :
    Spec × List Char × ℕ :=
  match fmt with
  | '*' :: fmt =>
    let w := (args cursor).toInt32
    (if w < 0 then ⟨{ f with left := true }, -w, true, -1⟩ else ⟨f, w, true, -1⟩, fmt, cursor + 1)
  | fmt =>
    let r := readDigits 0 fmt
    (⟨f, r.1, (fmt.head?.map Char.isDigit).getD false, -1⟩, r.2, cursor)

/-- The precision, written out or taken from the arguments. -/
def readPrecision (s : Spec) (fmt : List Char) (args : ℕ → UInt32) (cursor : ℕ) :
    Spec × List Char × ℕ :=
  match fmt with
  | '.' :: '*' :: fmt =>
    let prec := (args cursor).toInt32
    ({ s with prec := if prec < 0 then -1 else prec }, fmt, cursor + 1)
  | '.' :: fmt =>
    let r := readDigits 0 fmt
    ({ s with prec := r.1 }, r.2, cursor)
  | fmt => (s, fmt, cursor)

/-- The letters of an argument's size, which change nothing. -/
def skipSizes : List Char → List Char
  | 'h' :: fmt | 'l' :: fmt | 'L' :: fmt => skipSizes fmt
  | fmt => fmt

/-- What follows a `%`, up to the letter. -/
def readSpec (fmt : List Char) (args : ℕ → UInt32) (cursor : ℕ) : Spec × List Char × ℕ :=
  let (f, fmt) := readFlags ⟨false, false, false, false, false⟩ fmt
  let (s, fmt, cursor) := readWidth f fmt args cursor
  let (s, fmt, cursor) := readPrecision s fmt args cursor
  (s, skipSizes fmt, cursor)

/-! ### Conversions -/

/-- `while (pad-- > 0)`. -/
def padding (pad : Int32) (c : Char) : List Char := List.replicate pad.toInt.toNat c

/-- The character of a digit. -/
def digitChar (upper : Bool) (d : ℕ) : Char :=
  Char.ofNat (if d < 10 then '0'.toNat + d else (if upper then 'A' else 'a').toNat + d - 10)

/-- The digits, the least significant first. -/
def digitsOf (magnitude : UInt32) (base : ℕ) (upper : Bool) (prec : Int32) : List Char :=
  if magnitude = 0 then if prec ≠ 0 then ['0'] else []
  else (Nat.digits base magnitude.toNat).map (digitChar upper)

/-- What stands in front of a number: its sign, or what the flags ask for in its place. -/
def signOf (negative plus space : Bool) : List Char :=
  if negative then ['-'] else if plus then ['+'] else if space then [' '] else []

/-- A number with its sign, its prefix and its padding. -/
def emitPaddedNumber (negative : Bool) (magnitude : UInt32) (base : ℕ) (upper : Bool)
    (numberPrefix : List Char) (s : Spec) (plus space altOctal : Bool) : List Char :=
  let digits := digitsOf magnitude base upper s.prec
  let digitCount := Int32.ofNat digits.length
  let prec := if altOctal ∧ digits.getLast? ≠ some '0' ∧ s.prec < digitCount + 1
    then digitCount + 1 else s.prec
  let zeroPadPrec := if digitCount < prec then prec - digitCount else 0
  let sign := signOf negative plus space
  let contentLen := Int32.ofNat sign.length + Int32.ofNat numberPrefix.length + zeroPadPrec +
    digitCount
  let pad := if s.haveWidth ∧ contentLen < s.width then s.width - contentLen else 0
  let zeroPad := s.zero && !s.left && decide (prec < 0)
  (if s.left = false ∧ zeroPad = false then padding pad ' ' else []) ++ sign ++ numberPrefix ++
    (if s.left = false ∧ zeroPad then padding pad '0' else []) ++ padding zeroPadPrec '0' ++
    digits.reverse ++ (if s.left then padding pad ' ' else [])

/-- The conversions of a number, by their letter. -/
def number (conv : Char) (s : Spec) (v : UInt32) : Option (List Char) :=
  match conv with
  | 'd' | 'i' | 'D' =>
    let negative := decide (v.toInt32 < 0)
    some (emitPaddedNumber negative (if negative then -v else v) 10 false [] s s.plus s.space
      false)
  | 'u' | 'U' => some (emitPaddedNumber false v 10 false [] s false false false)
  | 'o' | 'O' => some (emitPaddedNumber false v 8 false [] s false false s.alt)
  | 'x' =>
    some (emitPaddedNumber false v 16 false (if s.alt ∧ v ≠ 0 then ['0', 'x'] else []) s false
      false false)
  | 'X' =>
    some (emitPaddedNumber false v 16 true (if s.alt ∧ v ≠ 0 then ['0', 'X'] else []) s false
      false false)
  | 'p' => some (emitPaddedNumber false v 16 false ['0', 'x'] s false false false)
  | _ => none

/-- A text in its field. -/
def field (s : Spec) (length : Int32) (text : List Char) : List Char :=
  let pad := if s.haveWidth then s.width - length else 0
  if s.left then text ++ padding pad ' ' else padding pad ' ' ++ text

/-- The string of a `%s`, up to the precision. -/
def clip (s : Spec) (text : List Char) : List Char :=
  if s.prec < 0 then text else text.take s.prec.toInt.toNat

/-- What a conversion does, and where the arguments are read on. -/
def convert (strings : UInt32 → List Char) (conv : Char) (s : Spec) (args : ℕ → UInt32)
    (cursor total : ℕ) : List Effect × ℕ :=
  match number conv s (args cursor) with
  | some text => (text.map .char, cursor + 1)
  | none =>
    match conv with
    | 'c' => ((field s 1 [Char.ofNat ((args cursor).toNat % 256)]).map .char, cursor + 1)
    | 's' =>
      let text := clip s (if args cursor = 0 then "(null)".toList else strings (args cursor))
      ((field s (Int32.ofNat text.length) text).map .char, cursor + 1)
    | 'n' => (if args cursor = 0 then [] else [.count (args cursor) total], cursor + 1)
    | c => ([.char '%', .char c], cursor)

/-! ### The loop over the format -/

theorem length_readFlags (f : Flags) (fmt : List Char) :
    (readFlags f fmt).2.length ≤ fmt.length := by
  fun_induction readFlags f fmt <;> simp <;> omega

/-- Reading digits leaves no more of the format than there was. -/
theorem length_readDigits (n : Int32) (fmt : List Char) :
    (readDigits n fmt).2.length ≤ fmt.length := by
  fun_induction readDigits n fmt with
  | case1 => exact le_rfl
  | case2 n c fmt _ ih => exact ih.trans (Nat.le_succ _)
  | case3 => exact le_rfl

/-- Reading a width leaves no more of the format than there was. -/
theorem length_readWidth (f : Flags) (fmt : List Char) (args : ℕ → UInt32) (cursor : ℕ) :
    (readWidth f fmt args cursor).2.1.length ≤ fmt.length := by
  rw [readWidth.eq_def]
  split
  · simp
  · exact length_readDigits 0 fmt

/-- Reading a precision leaves no more of the format than there was. -/
theorem length_readPrecision (s : Spec) (fmt : List Char) (args : ℕ → UInt32) (cursor : ℕ) :
    (readPrecision s fmt args cursor).2.1.length ≤ fmt.length := by
  rw [readPrecision.eq_def]
  split
  · simp
    omega
  · exact (length_readDigits 0 _).trans (Nat.le_succ _)
  · exact le_rfl

theorem length_skipSizes (fmt : List Char) : (skipSizes fmt).length ≤ fmt.length := by
  fun_induction skipSizes fmt <;> simp <;> omega

theorem length_readSpec (fmt : List Char) (args : ℕ → UInt32) (cursor : ℕ) :
    (readSpec fmt args cursor).2.1.length ≤ fmt.length :=
  (length_skipSizes _).trans ((length_readPrecision _ _ _ _).trans
    ((length_readWidth _ _ _ _).trans (length_readFlags _ _)))

/-- The characters that have been emitted. -/
def written (l : List Effect) : List Char :=
  l.filterMap fun
    | .char c => some c
    | _ => none

/-- The loop over the format, `total` characters having been emitted. -/
def prntFrom (strings : UInt32 → List Char) (args : ℕ → UInt32) (fmt : List Char)
    (cursor total : ℕ) : List Effect :=
  match fmt with
  | [] => []
  | c :: fmt =>
    if c ≠ '%' then .char c :: prntFrom strings args fmt cursor (total + 1)
    else
      match _h : readSpec fmt args cursor with
      | (_, [], _) => []
      | (s, conv :: rest, next) =>
        let r := convert strings conv s args next total
        r.1 ++ prntFrom strings args rest r.2 (total + (written r.1).length)
termination_by fmt.length
decreasing_by
  · simp
  · have hrest := length_readSpec fmt args cursor
    rw [_h, List.length_cons] at hrest
    rw [List.length_cons]
    omega

/-- `prnt`: the format between the marks of its beginning and end. -/
def prnt (strings : UInt32 → List Char) (fmt : List Char) (args : ℕ → UInt32) : List Effect :=
  .mark 0x200 :: prntFrom strings args fmt 0 0 ++ [.mark 0x201]

end PS2Bios.Sysclib
