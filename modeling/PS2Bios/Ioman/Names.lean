import PS2Bios.Library.Bytes
import Mathlib.Data.List.DropRight
import Mathlib.Data.Nat.Digits.Defs
import Mathlib.Tactic.Common

/-!
# Device names

How `ioman.cpp` compares names and takes a path apart. `sameName` is a loop over a given number of
bytes, which does not stop at the end of a string. With the length of a part of the path, which has
no zero byte in it, it tells whether the two are the same (`sameName_prefix`); with a length behind
both strings it goes on comparing what lies behind them (`sameName_whole`).

`parse` walks forward to the colon and back over the digits before it, and finds what `splitColon`
and the decimal value of the digits say (`parse_eq`).
-/

namespace PS2Bios.Ioman

open Bytes

/-- A pointer to an `iop_device_t`, and the name it points to. -/
structure Device where
  address : ℕ
  name : ℕ
deriving DecidableEq, Repr

/-- The loop of `sameName`: `n` more bytes from the `k`-th on. -/
def sameBytes (m : Ram) (a b : ℕ) : ℕ → ℕ → Bool
  | 0, _ => true
  | n + 1, k => if m (a + k) ≠ m (b + k) then false else sameBytes m a b n (k + 1)

/-- The name at `a` is the `length` bytes at `b`, and ends there. -/
def sameName (m : Ram) (a b length : ℕ) : Bool :=
  sameBytes m a b length 0 && m (b + length) == 0

/-- The character behind the device. -/
def kColon : UInt8 := 0x3A

/-- The character is a digit of a unit. -/
def isDigit (c : UInt8) : Bool := 0x30 ≤ c && c ≤ 0x39

/-- `c - '0'`. -/
def digit (c : UInt8) : ℕ := c.toNat - 0x30

/-- The walk to the colon. -/
def colonFrom (m : Ram) (path : ℕ) : ℕ → ℕ → ℕ
  | 0, colon => colon
  | fuel + 1, colon =>
    if m (path + colon) ≠ 0 ∧ m (path + colon) ≠ kColon then colonFrom m path fuel (colon + 1)
    else colon

/-- The walk back over the digits: what is left of the name, and the unit. -/
def digitsBefore (m : Ram) (path : ℕ) : ℕ → UInt32 → UInt32 → ℕ × UInt32
  | 0, unit, _ => (0, unit)
  | name_length + 1, unit, scale =>
    if isDigit (m (path + name_length)) then
      digitsBefore m path name_length
        (unit + UInt32.ofNat (digit (m (path + name_length))) * scale) (scale * 10)
    else (name_length + 1, unit)

/-- What a path is taken for. -/
structure Parsed where
  device : Option Device
  unit : UInt32
  /-- Null is `0`. -/
  rest : ℕ
deriving DecidableEq, Repr

/-- The table is looked through in order; `colon` is a `uint32_t`. -/
def parse (m : Ram) (drivers : List (Option Device)) (path : ℕ) : Parsed :=
  let colon := colonFrom m path (2 ^ 32) 0
  if m (path + colon) ≠ kColon then ⟨none, 0, 0⟩
  else
    let found := digitsBefore m path colon 0 1
    { device := drivers.findSome? fun entry =>
        entry.filter fun device => sameName m path device.name found.1
      unit := found.2
      rest := path + colon + 1 }

/-! ### Strings -/

/-- How far `delDrv` compares. -/
def kWhole : ℕ := 0xFFFFFFFF / 2

/-- The string `s` stands at `p`. An object is shorter than half the address space, and so is a
string. -/
structure IsString (m : Ram) (p : ℕ) (s : List UInt8) : Prop where
  bytes : At m p (s ++ [0])
  zero : 0 ∉ s
  fits : s.length < kWhole

variable {m : Ram} {a b p path : ℕ} {s t w : List UInt8}

theorem IsString.get (h : IsString m p s) {k : ℕ} (hk : k < s.length) : m (p + k) = s[k] :=
  h.bytes k _ (by rw [List.getElem?_append_left hk, List.getElem?_eq_getElem hk])

theorem IsString.nul (h : IsString m p s) : m (p + s.length) = 0 :=
  h.bytes s.length _ (by simp)

theorem IsString.ne_zero (h : IsString m p s) {k : ℕ} (hk : k < s.length) : m (p + k) ≠ 0 := by
  rw [h.get hk]
  exact fun hzero => h.zero (hzero ▸ List.getElem_mem hk)

/-- One string lies at an address. -/
theorem IsString.unique (h : IsString m p s) (h' : IsString m p t) : s = t := by
  have hlength : s.length = t.length := by
    rcases Nat.lt_trichotomy s.length t.length with hlt | heq | hgt
    · exact absurd h.nul (h'.ne_zero hlt)
    · exact heq
    · exact absurd h'.nul (h.ne_zero hgt)
  refine List.ext_getElem hlength fun k hk hk' => ?_
  rw [← h.get hk, ← h'.get hk']

/-! ### Comparing names -/

/-- The comparison holds where the bytes agree from the index on. -/
theorem sameBytes_iff {n k : ℕ} :
    sameBytes m a b n k = true ↔ ∀ j, k ≤ j → j < k + n → m (a + j) = m (b + j) := by
  induction n generalizing k with
  | zero => simp only [sameBytes, true_iff]; omega
  | succ n ih =>
    rw [sameBytes]
    split
    next hne =>
      refine ⟨fun h => absurd h Bool.false_ne_true, fun h => absurd (h k le_rfl (by omega)) hne⟩
    next heq =>
      rw [ih]
      refine ⟨fun h j hj hlt => ?_, fun h j hj hlt => h j (by omega) (by omega)⟩
      rcases Nat.eq_or_lt_of_le hj with rfl | hlt'
      · exact not_not.mp heq
      · exact h j hlt' (by omega)

theorem sameName_iff {n : ℕ} : sameName m a b n = true ↔
    (∀ j < n, m (a + j) = m (b + j)) ∧ m (b + n) = 0 := by
  rw [sameName, Bool.and_eq_true, sameBytes_iff, beq_iff_eq]
  refine and_congr_left fun _ => ⟨fun h j hj => h j (Nat.zero_le j) (by omega),
    fun h j _ hj => h j (by omega)⟩

/-- Over no more than the first string, the other one is that part of it. -/
theorem sameName_prefix (hs : IsString m a s) (ht : IsString m b t) {n : ℕ} (hn : n ≤ s.length) :
    sameName m a b n = true ↔ t = s.take n := by
  rw [sameName_iff]
  constructor
  · rintro ⟨hsame, hend⟩
    have hlength : t.length = n := by
      rcases Nat.lt_trichotomy t.length n with hlt | heq | hgt
      · have hbyte := (hsame _ hlt).trans ht.nul
        exact absurd hbyte (hs.ne_zero (by omega))
      · exact heq
      · exact absurd hend (ht.ne_zero hgt)
    have htake : t.length = (s.take n).length := by
      rw [hlength, List.length_take, Nat.min_eq_left hn]
    refine List.ext_getElem htake fun k hk hk' => ?_
    rw [← ht.get hk, ← hsame k (hlength ▸ hk), hs.get (by omega), List.getElem_take]
  · rintro rfl
    have hlength : (s.take n).length = n := by rw [List.length_take, Nat.min_eq_left hn]
    refine ⟨fun j hj => ?_, ?_⟩
    · rw [hs.get (by omega), ht.get (by omega), List.getElem_take]
    · have hnul := ht.nul
      rwa [hlength] at hnul

/-- What lies behind the strings is the same as far as `delDrv` compares, and ends with a zero. -/
def AgreeBehind (m : Ram) (a b : ℕ) (s : List UInt8) : Prop :=
  (∀ j, s.length < j → j < kWhole → m (a + j) = m (b + j)) ∧ m (b + kWhole) = 0

/-- Over the whole length the strings are the same, and so is what lies behind them. -/
theorem sameName_whole (hs : IsString m a s) (ht : IsString m b t) :
    sameName m a b kWhole = true ↔ t = s ∧ AgreeBehind m a b s := by
  rw [sameName_iff]
  constructor
  · rintro ⟨hsame, hend⟩
    have hlength : t.length = s.length := by
      rcases Nat.lt_trichotomy t.length s.length with hlt | heq | hgt
      · exact absurd ((hsame _ ht.fits).trans ht.nul) (hs.ne_zero hlt)
      · exact heq
      · exact absurd ((hsame _ hs.fits).symm.trans hs.nul) (ht.ne_zero hgt)
    refine ⟨List.ext_getElem hlength fun k hk hk' => ?_, fun j _ hj => hsame j hj, hend⟩
    rw [← ht.get hk, ← hs.get hk', hsame k (hk.trans ht.fits)]
  · rintro ⟨rfl, hbehind, hend⟩
    refine ⟨fun j hj => ?_, hend⟩
    rcases Nat.lt_trichotomy j t.length with hlt | rfl | hgt
    · rw [hs.get hlt, ht.get hlt]
    · rw [hs.nul, ht.nul]
    · exact hbehind j hgt hj

/-! ### Taking a path apart -/

/-- A search depends on the function's values on the list only. -/
theorem findSome?_congr {α β : Type} {f g : α → Option β} {l : List α} (h : ∀ x ∈ l, f x = g x) :
    l.findSome? f = l.findSome? g := by
  induction l with
  | nil => rfl
  | cons x l ih =>
    rw [List.findSome?_cons, List.findSome?_cons, h x List.mem_cons_self,
      ih fun y hy => h y (List.mem_cons_of_mem _ hy)]

/-- The parts of a path before and behind its first colon. -/
def splitColon (s : List UInt8) : Option (List UInt8 × List UInt8) :=
  match s.dropWhile (· ≠ kColon) with
  | [] => none
  | _ :: rest => some (s.takeWhile (· ≠ kColon), rest)

/-- The unit that a device name's digits say. -/
def unitOf (w : List UInt8) : UInt32 :=
  UInt32.ofNat (Nat.ofDigits 10 ((w.rtakeWhile isDigit).map digit).reverse)

/-- The colon is found where it stands, or the string's end where it has none. -/
theorem colonFrom_eq {x : UInt8} {rest : List UInt8} {fuel k : ℕ}
    (hat : At m (path + k) (w ++ x :: rest)) (hw : ∀ c ∈ w, c ≠ 0 ∧ c ≠ kColon)
    (hx : x = 0 ∨ x = kColon) (hfuel : w.length < fuel) :
    colonFrom m path fuel k = k + w.length := by
  induction w generalizing fuel k with
  | nil =>
    obtain ⟨fuel, rfl⟩ := Nat.exists_eq_succ_of_ne_zero (by omega : fuel ≠ 0)
    have hbyte := (at_cons.mp hat).1
    have hstop : ¬ (m (path + k) ≠ 0 ∧ m (path + k) ≠ kColon) := by
      rw [hbyte]
      rcases hx with rfl | rfl <;> simp
    rw [colonFrom, if_neg hstop]
    rfl
  | cons c w ih =>
    obtain ⟨fuel, rfl⟩ := Nat.exists_eq_succ_of_ne_zero (by omega : fuel ≠ 0)
    obtain ⟨hbyte, hrest⟩ := at_cons.mp hat
    rw [colonFrom, if_pos (by rw [hbyte]; exact hw c List.mem_cons_self),
      ih (by rwa [Nat.add_assoc] at hrest) (fun c' h => hw c' (List.mem_cons_of_mem _ h))
        (by rw [List.length_cons] at hfuel; omega), List.length_cons]
    omega

/-- Walking back from the colon gives the unit and where the name ends. -/
theorem digitsBefore_eq (hat : At m path w) (unit scale : UInt32) :
    digitsBefore m path w.length unit scale =
      ((w.rdropWhile isDigit).length, unit + scale * unitOf w) := by
  induction w using List.reverseRecOn generalizing unit scale with
  | nil => simp [digitsBefore, unitOf]
  | append_singleton w c ih =>
    obtain ⟨hw, hc⟩ := at_append.mp hat
    have hbyte : m (path + w.length) = c := (at_cons.mp hc).1
    rw [List.length_append, List.length_singleton, digitsBefore, hbyte]
    cases hdigit : isDigit c with
    | false =>
      have hneg : ¬ isDigit c = true := by rw [hdigit]; exact Bool.false_ne_true
      rw [if_neg Bool.false_ne_true, List.rdropWhile_concat_neg _ _ _ hneg, unitOf,
        List.rtakeWhile_concat_neg _ _ _ hneg]
      simp
    | true =>
      rw [if_pos rfl, ih hw, List.rdropWhile_concat_pos _ _ _ hdigit, unitOf, unitOf,
        List.rtakeWhile_concat_pos _ _ _ hdigit, List.map_append, List.reverse_append,
        List.map_singleton, List.reverse_singleton, List.singleton_append, Nat.ofDigits_cons,
        UInt32.ofNat_add, UInt32.ofNat_mul]
      refine Prod.ext rfl ?_
      dsimp only
      rw [UInt32.mul_add, UInt32.mul_comm scale (UInt32.ofNat (digit c)), UInt32.mul_assoc,
        UInt32.add_assoc]
      rfl

/-- A string has a first colon, with what stands in front of it and behind, or none. -/
theorem splitColon_cases (s : List UInt8) :
    splitColon s = none ∧ (∀ c ∈ s, c ≠ kColon) ∨
    ∃ w rest, splitColon s = some (w, rest) ∧ s = w ++ kColon :: rest ∧ ∀ c ∈ w, c ≠ kColon := by
  have happend : s.takeWhile (· ≠ kColon) ++ s.dropWhile (· ≠ kColon) = s :=
    List.takeWhile_append_dropWhile
  have hbefore : ∀ c ∈ s.takeWhile (· ≠ kColon), c ≠ kColon := fun c hc => by
    simpa using List.mem_takeWhile_imp hc
  have hhead := List.head?_dropWhile_not (fun c => decide (c ≠ kColon)) s
  unfold splitColon
  cases hdrop : s.dropWhile (· ≠ kColon) with
  | nil =>
    rw [hdrop, List.append_nil] at happend
    exact .inl ⟨rfl, happend ▸ hbefore⟩
  | cons x rest =>
    rw [hdrop] at happend hhead
    obtain rfl : x = kColon := by simpa using hhead
    exact .inr ⟨_, rest, rfl, happend.symm, hbefore⟩

/-- A path without a colon names no device. -/
theorem parse_none (h : IsString m path s) (drivers : List (Option Device))
    (hsplit : splitColon s = none) : parse m drivers path = ⟨none, 0, 0⟩ := by
  obtain ⟨-, hcolon⟩ | ⟨w, rest, hsome, -⟩ := splitColon_cases s
  · have hwalk : colonFrom m path (2 ^ 32) 0 = 0 + s.length :=
      colonFrom_eq h.bytes (fun c hc => ⟨fun hzero => h.zero (hzero ▸ hc), hcolon c hc⟩) (.inl rfl)
        (h.fits.trans (by decide))
    rw [parse, hwalk, Nat.zero_add, if_pos]
    rw [h.nul]
    decide
  · rw [hsplit] at hsome
    cases hsome

/-- A path with a colon names the first driver of the name in front of it, with the unit its digits
are. -/
theorem parse_some (h : IsString m path s) {drivers : List (Option Device)}
    {names : Device → List UInt8} (hnames : ∀ d, some d ∈ drivers → IsString m d.name (names d))
    {rest : List UInt8} (hsplit : splitColon s = some (w, rest)) :
    parse m drivers path = {
      device := drivers.findSome? fun entry =>
        entry.filter fun device => names device = w.rdropWhile isDigit
      unit := unitOf w
      rest := path + w.length + 1 } ∧ IsString m (path + w.length + 1) rest := by
  obtain ⟨hnone, -⟩ | ⟨w', rest', hsome, rfl, hw⟩ := splitColon_cases s
  · rw [hnone] at hsplit
    cases hsplit
  obtain ⟨rfl, rfl⟩ := Prod.ext_iff.mp (Option.some.inj (hsome.symm.trans hsplit))
  dsimp only at *
  have hat : At m path (w' ++ kColon :: (rest' ++ [0])) := by simpa using h.bytes
  obtain ⟨hname, hbehind⟩ := at_append.mp hat
  have hcolon : m (path + w'.length) = kColon := (at_cons.mp hbehind).1
  have hzero : ∀ c ∈ w', c ≠ 0 := fun c hc hc0 => h.zero (hc0 ▸ List.mem_append_left _ hc)
  have hwalk : colonFrom m path (2 ^ 32) 0 = 0 + w'.length :=
    colonFrom_eq hat (fun c hc => ⟨hzero c hc, hw c hc⟩) (.inr rfl) <| by
      have hfits := h.fits
      rw [List.length_append, kWhole] at hfits
      omega
  constructor
  · rw [parse, hwalk, Nat.zero_add, if_neg (not_not.mpr hcolon)]
    simp only [digitsBefore_eq hname, UInt32.zero_add, UInt32.one_mul, Parsed.mk.injEq, and_true]
    refine findSome?_congr fun entry hentry => ?_
    cases entry with
    | none => rfl
    | some d =>
      have hpre : w'.rdropWhile isDigit <+: w' ++ kColon :: rest' :=
        (List.rdropWhile_prefix isDigit w').trans (List.prefix_append _ _)
      have hsame := sameName_prefix h (hnames d hentry) hpre.length_le
      rw [← List.prefix_iff_eq_take.mp hpre] at hsame
      rw [Option.filter_some, Option.filter_some]
      exact if_congr (hsame.trans decide_eq_true_iff.symm) rfl rfl
  · refine ⟨(at_cons.mp hbehind).2, fun hc => h.zero (by simp [hc]), ?_⟩
    have hfits := h.fits
    rw [List.length_append, List.length_cons] at hfits
    omega

end PS2Bios.Ioman
