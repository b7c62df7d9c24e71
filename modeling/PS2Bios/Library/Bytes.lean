import Mathlib.Algebra.Group.Nat.Defs
import Mathlib.Data.List.Basic
import Mathlib.Logic.Function.Basic
import Mathlib.Tactic.Common

/-!
# Byte memory

Memory as a function from addresses to bytes. `At m a l` says that the bytes `l` are in memory
from `a` on, `write m a l` puts them there. Words are four bytes, lowest first. A C string is what
precedes the first zero byte (`cString`), and strings packed back to back with their zero bytes can
be read back one by one (`packed_injective`).
-/

namespace PS2Bios

namespace Bytes

/-- A memory of bytes. -/
abbrev Ram := ℕ → UInt8

variable {m m' : Ram} {a b : ℕ} {l l' : List UInt8}

/-! ### Bytes in memory -/

/-- The bytes `l` are in memory from `a` on. -/
def At (m : Ram) (a : ℕ) (l : List UInt8) : Prop :=
  ∀ i x, l[i]? = some x → m (a + i) = x

@[simp]
theorem at_nil : At m a [] := nofun

/-- A list lies at an address when its head does and its tail lies behind. -/
@[simp]
theorem at_cons {x : UInt8} : At m a (x :: l) ↔ m a = x ∧ At m (a + 1) l := by
  constructor
  · intro h
    refine ⟨h 0 x rfl, fun i y hy => ?_⟩
    rw [Nat.add_assoc, Nat.add_comm 1 i]
    exact h (i + 1) y hy
  · rintro ⟨hx, hl⟩ (_ | i) y hy
    · exact hx.trans (Option.some.inj hy)
    · rw [Nat.add_comm i 1, ← Nat.add_assoc]
      exact hl i y hy

/-- Two lists lie one behind the other. -/
theorem at_append : At m a (l ++ l') ↔ At m a l ∧ At m (a + l.length) l' := by
  induction l generalizing a with
  | nil => simp
  | cons x l ih =>
    rw [List.cons_append, at_cons, at_cons, ih, and_assoc, List.length_cons, Nat.add_assoc,
      Nat.add_comm 1]

/-- What holds of some bytes holds wherever they are the same. -/
theorem At.congr (h : At m a l) (hm : ∀ x, a ≤ x → x < a + l.length → m' x = m x) :
    At m' a l := by
  intro i x hx
  have hi := (List.getElem?_eq_some_iff.mp hx).1
  rw [hm _ (by omega) (by omega)]
  exact h i x hx

/-- Of two strings at one place the shorter begins the longer. -/
theorem At.begins (h : At m a l) (h' : At m a l') (hle : l.length ≤ l'.length) : l <+: l' := by
  refine List.prefix_iff_getElem?.mpr fun i hi => ?_
  rw [List.getElem?_eq_getElem (by omega), ← h' i _ (List.getElem?_eq_getElem (by omega)),
    h i _ (List.getElem?_eq_getElem hi)]

/-- Put bytes into memory. -/
def write (m : Ram) (a : ℕ) (l : List UInt8) : Ram := fun x =>
  if a ≤ x ∧ x < a + l.length then l.getD (x - a) 0 else m x

theorem write_of_not (h : ¬(a ≤ b ∧ b < a + l.length)) : write m a l b = m b := if_neg h

/-- What is written lies there. -/
theorem at_write : At (write m a l) a l := by
  intro i x hx
  have hi := (List.getElem?_eq_some_iff.mp hx).1
  unfold write
  rw [if_pos ⟨by omega, by omega⟩, Nat.add_sub_cancel_left, List.getD_eq_getElem?_getD, hx]
  rfl

@[simp]
theorem write_nil : write m a [] = m := by
  funext x
  exact write_of_not (by simp)

/-- Bytes put behind others. -/
theorem write_append : write (write m a l) (a + l.length) l' = write m a (l ++ l') := by
  funext x
  unfold write
  simp only [List.length_append]
  by_cases h₁ : a + l.length ≤ x ∧ x < a + l.length + l'.length
  · rw [if_pos h₁, if_pos ⟨by omega, by omega⟩, List.getD_eq_getElem?_getD,
      List.getD_eq_getElem?_getD, List.getElem?_append_right (by omega), Nat.sub_sub]
  · rw [if_neg h₁]
    by_cases h₂ : a ≤ x ∧ x < a + l.length
    · rw [if_pos h₂, if_pos ⟨by omega, by omega⟩, List.getD_eq_getElem?_getD,
        List.getD_eq_getElem?_getD, List.getElem?_append_left (by omega)]
    · rw [if_neg h₂, if_neg (by omega)]

/-- One byte put into memory. -/
theorem update_eq_write (m : Ram) (a : ℕ) (x : UInt8) : Function.update m a x = write m a [x] := by
  funext y
  by_cases hy : y = a
  · subst hy
    rw [Function.update_self]
    exact (at_write 0 x rfl).symm
  · rw [Function.update_of_ne hy, write_of_not (by simp only [List.length_singleton]; omega)]

/-! ### Copying -/

/-- Copy `n` bytes, the first first. -/
def copy (m : Ram) (target source : ℕ) : ℕ → Ram
  | 0 => m
  | n + 1 =>
    let m' := copy m target source n
    Function.update m' (target + n) (m' (source + n))

/-- Bytes copied to where they are not. -/
theorem copy_eq (hl : At m b l) (hdisjoint : b + l.length ≤ a ∨ a + l.length ≤ b) :
    copy m a b l.length = write m a l := by
  suffices hgen : ∀ n ≤ l.length, copy m a b n = write m a (l.take n) by
    rw [hgen l.length (Nat.le_refl _), List.take_length]
  intro n
  induction n with
  | zero => simp [copy]
  | succ n ih =>
    intro hn
    have hlt : n < l.length := hn
    have hlen : (l.take n).length = n := by simp; omega
    have hsource : write m a (l.take n) (b + n) = l[n] := by
      rw [write_of_not (by omega)]
      exact hl n _ (List.getElem?_eq_getElem hlt)
    unfold copy
    dsimp only
    rw [ih (by omega), hsource, List.take_succ_eq_append_getElem hlt, ← write_append, hlen,
      update_eq_write]

/-! ### Words -/

/-- The word at an address, the lowest byte first. -/
def readWord (m : Ram) (a : ℕ) : ℕ :=
  (m a).toNat + 256 * (m (a + 1)).toNat + 65536 * (m (a + 2)).toNat + 16777216 * (m (a + 3)).toNat

/-- The four bytes of a word, the lowest first. -/
def wordBytes (w : ℕ) : List UInt8 :=
  [UInt8.ofNat w, UInt8.ofNat (w / 256), UInt8.ofNat (w / 65536), UInt8.ofNat (w / 16777216)]

/-- A word stored. -/
def writeWord (m : Ram) (a w : ℕ) : Ram := write m a (wordBytes w)

theorem writeWord_of_not {w : ℕ} (h : ¬(a ≤ b ∧ b < a + 4)) : writeWord m a w b = m b :=
  write_of_not h

theorem readWord_congr (h : ∀ x, a ≤ x → x < a + 4 → m' x = m x) :
    readWord m' a = readWord m a := by
  unfold readWord
  rw [h a (by omega) (by omega), h (a + 1) (by omega) (by omega), h (a + 2) (by omega) (by omega),
    h (a + 3) (by omega) (by omega)]

/-- A word reads back as it was written. -/
theorem readWord_writeWord {w : ℕ} (hw : w < 2 ^ 32) : readWord (writeWord m a w) a = w := by
  have hat : At (writeWord m a w) a (wordBytes w) := at_write
  simp only [wordBytes, at_cons, Nat.add_assoc, Nat.reduceAdd] at hat
  obtain ⟨h₀, h₁, h₂, h₃, -⟩ := hat
  unfold readWord
  rw [h₀, h₁, h₂, h₃]
  simp only [UInt8.toNat_ofNat']
  omega

/-- A word whose bytes lie at an address is read there. -/
theorem readWord_of_at {w : ℕ} (hw : w < 2 ^ 32) (h : At m a (wordBytes w)) : readWord m a = w := by
  have hcongr : readWord m a = readWord (writeWord m a w) a := by
    refine readWord_congr fun x hx hx' => ?_
    obtain ⟨i, rfl⟩ := Nat.exists_eq_add_of_le hx
    have hi : i < (wordBytes w).length := show i < 4 by omega
    rw [h i _ (List.getElem?_eq_getElem hi)]
    exact (at_write i _ (List.getElem?_eq_getElem hi)).symm
  rw [hcongr, readWord_writeWord hw]

/-- Equal words are equal bytes. -/
theorem readWord_inj (h : readWord m a = readWord m' b) : ∀ i < 4, m (a + i) = m' (b + i) := by
  have hlt : ∀ x : UInt8, x.toNat < 256 := fun x => x.toNat_lt
  have ha₀ := hlt (m a)
  have ha₁ := hlt (m (a + 1))
  have ha₂ := hlt (m (a + 2))
  have ha₃ := hlt (m (a + 3))
  have hb₀ := hlt (m' b)
  have hb₁ := hlt (m' (b + 1))
  have hb₂ := hlt (m' (b + 2))
  have hb₃ := hlt (m' (b + 3))
  unfold readWord at h
  rintro (_ | _ | _ | _ | i) hi
  · exact UInt8.toNat_inj.mp (show (m a).toNat = (m' b).toNat by omega)
  · exact UInt8.toNat_inj.mp (by simp only [Nat.zero_add]; omega)
  · exact UInt8.toNat_inj.mp (by simp only [Nat.zero_add, Nat.reduceAdd]; omega)
  · exact UInt8.toNat_inj.mp (by simp only [Nat.zero_add, Nat.reduceAdd]; omega)
  · omega

/-! ### Halfwords -/

/-- The halfword at an address, the lowest byte first. -/
def readHalf (m : Ram) (a : ℕ) : ℕ := (m a).toNat + 256 * (m (a + 1)).toNat

/-- The two bytes of a halfword, the lowest first. -/
def halfBytes (w : ℕ) : List UInt8 := [UInt8.ofNat w, UInt8.ofNat (w / 256)]

theorem readHalf_of_at {w : ℕ} (hw : w < 2 ^ 16) (h : At m a (halfBytes w)) : readHalf m a = w := by
  simp only [halfBytes, at_cons, at_nil] at h
  rw [readHalf, h.1, h.2.1]
  simp only [UInt8.toNat_ofNat']
  omega

/-- Equal halfwords have equal bytes. -/
theorem readHalf_inj (h : readHalf m a = readHalf m' b) : ∀ i < 2, m (a + i) = m' (b + i) := by
  have hlt : ∀ x : UInt8, x.toNat < 256 := fun x => x.toNat_lt
  have ha₀ := hlt (m a)
  have hb₀ := hlt (m' b)
  unfold readHalf at h
  rintro (_ | _ | i) hi
  · exact UInt8.toNat_inj.mp (show (m a).toNat = (m' b).toNat by omega)
  · exact UInt8.toNat_inj.mp (by simp only [Nat.zero_add]; omega)
  · omega

/-! ### Strings -/

/-- The bytes from an address up to the first that is nought, if that comes in time. -/
def stringFrom (m : Ram) : ℕ → ℕ → Option (List UInt8)
  | 0, _ => none
  | n + 1, a => if m a = 0 then some [] else (stringFrom m n (a + 1)).map (m a :: ·)

/-- The string at an address, when it ends before `limit`. -/
def cString (m : Ram) (limit a : ℕ) : Option (List UInt8) := stringFrom m (limit - a) a

/-- What is read is the string that lies there, if its end comes in time. -/
theorem stringFrom_eq_some_iff {n : ℕ} {s : List UInt8} :
    stringFrom m n a = some s ↔ 0 ∉ s ∧ At m a (s ++ [0]) ∧ s.length < n := by
  induction n generalizing a s with
  | zero => simp [stringFrom]
  | succ n ih =>
    unfold stringFrom
    by_cases hzero : m a = 0
    · rw [if_pos hzero]
      cases s with
      | nil => simp [hzero]
      | cons x s =>
        simp only [Option.some.injEq, reduceCtorEq, List.mem_cons, not_or, List.cons_append,
          at_cons, false_iff]
        rintro ⟨⟨hx, -⟩, ⟨hax, -⟩, -⟩
        exact hx (hzero.symm.trans hax)
    · rw [if_neg hzero]
      cases s with
      | nil => simp [hzero]
      | cons x s =>
        simp only [Option.map_eq_some_iff, List.cons.injEq, ih, List.mem_cons, not_or,
          List.cons_append, at_cons, List.length_cons, Nat.add_lt_add_iff_right]
        constructor
        · rintro ⟨_, ⟨hs, hat, hlt⟩, rfl, rfl⟩
          exact ⟨⟨Ne.symm hzero, hs⟩, ⟨rfl, hat⟩, hlt⟩
        · rintro ⟨⟨-, hs⟩, ⟨hx, hat⟩, hlt⟩
          exact ⟨s, ⟨hs, hat, hlt⟩, hx, rfl⟩

theorem cString_eq_some_iff {limit : ℕ} {s : List UInt8} :
    cString m limit a = some s ↔ 0 ∉ s ∧ At m a (s ++ [0]) ∧ a + s.length < limit := by
  unfold cString
  rw [stringFrom_eq_some_iff, Nat.lt_sub_iff_add_lt, Nat.add_comm]

/-- A string depends on no byte below it. -/
theorem cString_congr {limit : ℕ} (h : ∀ x, a ≤ x → x < limit → m' x = m x) :
    cString m' limit a = cString m limit a := by
  refine Option.ext fun s => ?_
  rw [cString_eq_some_iff, cString_eq_some_iff]
  refine and_congr_right fun _ => ⟨fun ⟨hat, hlt⟩ => ⟨hat.congr ?_, hlt⟩,
    fun ⟨hat, hlt⟩ => ⟨hat.congr ?_, hlt⟩⟩
  · intro x hx hlen
    rw [List.length_append, List.length_singleton] at hlen
    exact (h x hx (by omega)).symm
  · intro x hx hlen
    rw [List.length_append, List.length_singleton] at hlen
    exact h x hx (by omega)

/-- Strings back to back, each with its zero byte. -/
def packed (ss : List (List UInt8)) : List UInt8 := ss.flatMap (· ++ [0])

@[simp]
theorem packed_nil : packed [] = [] := rfl

@[simp]
theorem packed_cons {s : List UInt8} {ss : List (List UInt8)} :
    packed (s :: ss) = s ++ [0] ++ packed ss := rfl

theorem length_packed_cons (s : List UInt8) (ss : List (List UInt8)) :
    (packed (s :: ss)).length = s.length + 1 + (packed ss).length := by
  rw [packed_cons, List.length_append, List.length_append, List.length_singleton]

theorem packed_append {ss ts : List (List UInt8)} : packed (ss ++ ts) = packed ss ++ packed ts :=
  List.flatMap_append ..

/-- A string without zero bytes is read off by its end. -/
theorem string_inj {s t : List UInt8} (hs : 0 ∉ s) (ht : 0 ∉ t)
    (h : s ++ [0] ++ l = t ++ [0] ++ l') : s = t ∧ l = l' := by
  induction s generalizing t with
  | nil =>
    cases t with
    | nil => simpa using h
    | cons y t =>
      simp only [List.nil_append, List.cons_append, List.cons.injEq] at h
      exact absurd (h.1 ▸ List.mem_cons_self) ht
  | cons x s ih =>
    cases t with
    | nil =>
      simp only [List.nil_append, List.cons_append, List.cons.injEq] at h
      exact absurd (h.1 ▸ List.mem_cons_self) hs
    | cons y t =>
      simp only [List.cons_append, List.cons.injEq] at h
      obtain ⟨rfl, h⟩ := h
      obtain ⟨rfl, rfl⟩ := ih (fun hm => hs (.tail _ hm)) (fun hm => ht (.tail _ hm)) h
      exact ⟨rfl, rfl⟩

/-- As many strings, packed at one place, are the same strings. -/
theorem packed_injective {ss ts : List (List UInt8)} (hs : ∀ s ∈ ss, 0 ∉ s) (ht : ∀ t ∈ ts, 0 ∉ t)
    (hlen : ss.length = ts.length) (h : At m a (packed ss)) (h' : At m a (packed ts)) :
    ss = ts := by
  induction ss generalizing ts a with
  | nil => exact (List.length_eq_zero_iff.mp hlen.symm).symm
  | cons s ss ih =>
    obtain ⟨t, ts, rfl⟩ := List.exists_cons_of_length_eq_add_one hlen.symm
    rw [packed_cons, at_append] at h h'
    have hst : s ++ [0] = t ++ [0] := by
      rcases Nat.le_total (s ++ [0]).length (t ++ [0]).length with hle | hle
      · obtain ⟨r, hr⟩ := h.1.begins h'.1 hle
        have := string_inj (l := r) (hs s List.mem_cons_self) (ht t List.mem_cons_self)
          (by simpa using hr)
        rw [this.1]
      · obtain ⟨r, hr⟩ := h'.1.begins h.1 hle
        have := string_inj (l := r) (ht t List.mem_cons_self) (hs s List.mem_cons_self)
          (by simpa using hr)
        rw [this.1]
    obtain rfl : s = t := List.append_cancel_right hst
    rw [ih (fun x hx => hs x (.tail _ hx)) (fun x hx => ht x (.tail _ hx)) (by simpa using hlen)
      h.2 h'.2]

end Bytes

end PS2Bios
