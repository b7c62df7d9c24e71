import Mathlib.Tactic.Common

/-!
# SYSCLIB's numerals

`strtol` and `strtoul` of `src/iop/sysclib.cpp`. A string is the list of its characters up to the
NUL, and the end pointer is the list from there on. The scan for a prefix comes before anything is
asked of the base, and overrides it.
-/

namespace PS2Bios.Sysclib

/-- The characters that the table of `ctype` calls space. -/
def isSpaceChar (c : Char) : Bool := decide (9 ≤ c.toNat ∧ c.toNat ≤ 13) || c == ' '

/-- The value of a digit; `none` is -1. -/
def digitValue (c : Char) : Option ℕ :=
  if '0' ≤ c ∧ c ≤ '9' then some (c.toNat - '0'.toNat)
  else if 'a' ≤ c ∧ c ≤ 'z' then some (c.toNat - 'a'.toNat + 10)
  else if 'A' ≤ c ∧ c ≤ 'Z' then some (c.toNat - 'A'.toNat + 10)
  else none

/-- A prefix decides the base whatever base was asked for. -/
def applyBasePrefix (p : List Char) (base : Int32) : List Char × Int32 :=
  match p with
  | '0' :: 'x' :: p | '0' :: 'X' :: p => (p, 16)
  | '0' :: 'b' :: p | '0' :: 'B' :: p => (p, 2)
  | 'o' :: p | 'O' :: p => (p, 8)
  | p => (p, if base = 0 then 10 else base)

/-- The loop over the digits, from the value so far; `any` says whether there was one. -/
def scanDigits (base : Int32) (value : UInt32) (any : Bool) : List Char → UInt32 × Bool × List Char
  | [] => (value, any, [])
  | c :: p =>
    match digitValue c with
    | none => (value, any, c :: p)
    | some digit =>
      if base ≤ Int32.ofNat digit then (value, any, c :: p)
      else scanDigits base (value * base.toUInt32 + UInt32.ofNat digit) true p

/-- `while (*p == '-')`. -/
def scanMinus (negative : Bool) : List Char → Bool × List Char
  | '-' :: p => scanMinus (!negative) p
  | p => (negative, p)

/-- The string, unless it is null, and the answer with the end pointer. -/
def strtolImpl (s : Option (List Char)) (base : Int32) : Int32 × Option (List Char) :=
  match s with
  | none => (0, none)
  | some s =>
    let (negative, p) := scanMinus false (s.dropWhile isSpaceChar)
    let (p, base) := applyBasePrefix p base
    let (value, any, p) := scanDigits base 0 false p
    let result := value.toInt32
    (if negative then -result else result, some (if any then p else s))

/-- `strtoulImpl`: spaces, prefix, digits, and where the reading stopped. -/
def strtoulImpl (s : Option (List Char)) (base : Int32) : UInt32 × Option (List Char) :=
  match s with
  | none => (0, none)
  | some s =>
    let (p, base) := applyBasePrefix (s.dropWhile isSpaceChar) base
    let (value, any, p) := scanDigits base 0 false p
    (value, some (if any then p else s))

end PS2Bios.Sysclib
