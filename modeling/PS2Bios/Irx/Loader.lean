import PS2Bios.Irx.Mkirx
import PS2Bios.Library.Word

/-!
# Relocating

`applyRelocation` and `relocate` of the loader, and what they do to one word: to a fixup that needs
no other, and to a `HI16` with the `LO16` that follows it.
-/

namespace PS2Bios.Irx

open Bytes

namespace Loader

/-- The HI16 entries the loader can keep for the LO16 that follows. -/
def kHeldHi16Max : ℕ := 1

/-- `HeldHi16`: where each held `HI16` is, and what was stored there. -/
abbrev HeldHi16 := List (ℕ × ℕ)

/-- `applyRelocation`. -/
def applyRelocation (base : ℕ) (s : Ram × HeldHi16) (entry : Rel) : Ram × HeldHi16 :=
  let m := s.1
  let held := s.2
  let word := add32 base entry.offset
  let instruction := readWord m word
  match entry.info % 256 with
  | 2 => (writeWord m word (add32 instruction base), held)
  | 4 =>
    let byteTarget := (instruction &&& 0x03FFFFFF) <<< 2 % 2 ^ 32
    let rebased := add32 byteTarget base
    let target := rebased >>> 2 &&& 0x03FFFFFF
    (writeWord m word (instruction &&& 0xFC000000 ||| target), held)
  | 5 =>
    let held := if kHeldHi16Max ≤ held.length then [] else held
    (m, held ++ [(word, instruction)])
  | 6 =>
    let low := toWord (int16 (instruction &&& 0xFFFF))
    let rebased := add32 low base
    match held with
    | [] => (writeWord m word (instruction &&& 0xFFFF0000 ||| rebased &&& 0xFFFF), [])
    | (_, stored) :: _ =>
      let address := add32 (stored <<< 16 % 2 ^ 32) rebased
      let m := writeWord m word (instruction &&& 0xFFFF0000 ||| address &&& 0xFFFF)
      -- the carry out of the low half belongs to the high one
      let high := if address &&& 0x8000 ≠ 0 then add32 (address >>> 16) 1 else address >>> 16
      (held.foldl (fun m hi =>
        writeWord m hi.1 (readWord m hi.1 &&& 0xFFFF0000 ||| high &&& 0xFFFF)) m, [])
  | _ => (m, held)

/-- The inner loop of `relocate`, over the entries of a section. -/
def relocateSection (base : ℕ) (m : Ram) (entries : List Rel) : Ram :=
  (entries.foldl (applyRelocation base) (m, [])).1

/-- `relocate`, over the type and the entries of each section. -/
def relocate (base : ℕ) (m : Ram) (sections : List (ℕ × List Rel)) : Ram :=
  sections.foldl (fun m s => if s.1 ≠ shtRel then m else relocateSection base m s.2) m

/-! ### Words -/

/-- An address literal: what a `lui` and the low half of a later instruction make. -/
def literal (hi lo : ℕ) : ℕ := add32 (hi % 2 ^ 16 * 2 ^ 16) (toWord (int16 lo))

/-- Where a jump at `pc` goes: the region is that of the instruction after it. -/
def jumpTarget (pc instruction : ℕ) : ℕ :=
  (pc + 4) / 2 ^ 28 % 16 * 2 ^ 28 + instruction % 2 ^ 26 * 4

/-- A jump with its target rebased. -/
def rebasedJump (base instruction : ℕ) : ℕ :=
  instruction / 2 ^ 26 * 2 ^ 26 + (instruction % 2 ^ 26 * 4 + base) / 4 % 2 ^ 26

/-- An instruction with its low half rebased. -/
def rebasedLow (base instruction : ℕ) : ℕ :=
  instruction / 2 ^ 16 * 2 ^ 16 + (instruction + base) % 2 ^ 16

/-- A `lui` with its high half rebased, given the instruction with the low one. -/
def rebasedHigh (base hi lo : ℕ) : ℕ :=
  hi / 2 ^ 16 * 2 ^ 16 + (add32 (literal hi lo) base + 2 ^ 15) / 2 ^ 16 % 2 ^ 16

/-- The word a fixup that needs no other leaves. -/
def rebased (kind base instruction : ℕ) : ℕ :=
  if kind = rMips32 then add32 instruction base
  else if kind = rMips26 then rebasedJump base instruction else rebasedLow base instruction

variable {m : Ram} {base a : ℕ} {f h l : Fixup}

/-- A word of the memory is one of 32 bits. -/
theorem readWord_lt (m : Ram) (a : ℕ) : readWord m a < 2 ^ 32 := by
  have hlt : ∀ x : UInt8, x.toNat < 256 := fun x => x.toNat_lt
  have h0 := hlt (m a)
  have h1 := hlt (m (a + 1))
  have h2 := hlt (m (a + 2))
  have h3 := hlt (m (a + 3))
  unfold readWord
  omega

theorem toWord_int16 (w : ℕ) :
    toWord (int16 w) =
      if w % 2 ^ 16 < 2 ^ 15 then w % 2 ^ 16 else 2 ^ 32 - 2 ^ 16 + w % 2 ^ 16 := by
  unfold toWord int16
  split <;> omega

theorem literal_congr {hi lo lo' : ℕ} (h : lo % 2 ^ 16 = lo' % 2 ^ 16) :
    literal hi lo = literal hi lo' := by
  unfold literal
  rw [toWord_int16, toWord_int16, h]

/-- A rebased pair makes the literal it made, moved by the base. -/
theorem literal_rebased {hi lo lo' : ℕ} (h : lo % 2 ^ 16 = lo' % 2 ^ 16) :
    literal (rebasedHigh base hi lo) (rebasedLow base lo') = add32 (literal hi lo') base := by
  have hhigh : rebasedHigh base hi lo % 2 ^ 16 =
      (add32 (literal hi lo') base + 2 ^ 15) / 2 ^ 16 % 2 ^ 16 := by
    rw [rebasedHigh, literal_congr h]
    omega
  have hlow : rebasedLow base lo' % 2 ^ 16 = add32 (literal hi lo') base % 2 ^ 16 := by
    unfold rebasedLow literal add32
    rw [toWord_int16]
    split <;> omega
  have hlt := add32_lt (literal hi lo') base
  rw [literal, hhigh, toWord_int16, hlow]
  generalize add32 (literal hi lo') base = x at hlt ⊢
  unfold add32
  split <;> omega

/-- A rebased jump goes where it went, moved by the base, when that is in its region. -/
theorem jumpTarget_rebased {pc target instruction : ℕ} (hbase : base % 4 = 0)
    (htarget : target % 2 ^ 28 = instruction % 2 ^ 26 * 4) :
    jumpTarget pc (rebasedJump base instruction) = add32 target base ↔
      add32 pc 4 / 2 ^ 28 = add32 target base / 2 ^ 28 := by
  unfold jumpTarget rebasedJump add32
  omega

theorem jumpTarget_mod (pc instruction : ℕ) :
    jumpTarget pc instruction % 2 ^ 28 = instruction % 2 ^ 26 * 4 := by
  unfold jumpTarget
  omega

/-! ### Applying a fixup -/

/-- A fixup that is no `HI16`, with nothing held. -/
theorem applyRelocation_single (hkind : f.kind ∈ Mkirx.allowedRelocations)
    (hhi : f.kind ≠ rMipsHi16) :
    applyRelocation base (m, []) f.entry =
      (writeWord m (add32 base f.offset)
        (rebased f.kind base (readWord m (add32 base f.offset))), []) := by
  have hw := readWord_lt m (add32 base f.offset)
  simp only [Mkirx.allowedRelocations, List.mem_cons, List.not_mem_nil, or_false] at hkind
  rcases hkind with hk | hk | hk | hk
  · simp only [applyRelocation, Fixup.entry, hk, rebased]
    rfl
  · have hjump : rebasedJump base (readWord m (add32 base f.offset)) =
        readWord m (add32 base f.offset) &&& 0xFC000000 |||
          add32 ((readWord m (add32 base f.offset) &&& 0x03FFFFFF) <<< 2 % 2 ^ 32) base >>> 2 &&&
            0x03FFFFFF := by
      generalize readWord m (add32 base f.offset) = w at hw
      have hmask : w &&& 0x03FFFFFF = w % 2 ^ 26 := Nat.and_two_pow_sub_one_eq_mod w 26
      rw [setLow26_eq hw, hmask, Nat.shiftLeft_eq, Nat.shiftRight_eq_div_pow, rebasedJump]
      unfold add32
      omega
    simp only [applyRelocation, Fixup.entry, hk, rebased, hjump]
    rfl
  · exact absurd hk hhi
  · have hlow : rebasedLow base (readWord m (add32 base f.offset)) =
        readWord m (add32 base f.offset) &&& 0xFFFF0000 |||
          add32 (toWord (int16 (readWord m (add32 base f.offset) &&& 0xFFFF))) base &&&
            0xFFFF := by
      generalize readWord m (add32 base f.offset) = w at hw
      have hmask : w &&& 0xFFFF = w % 2 ^ 16 := Nat.and_two_pow_sub_one_eq_mod w 16
      rw [setLow16_eq hw, hmask, toWord_int16, rebasedLow, Nat.mod_mod]
      unfold add32
      split <;> omega
    simp only [applyRelocation, Fixup.entry, hk, rebased, hlow]
    rfl

/-- A `HI16` and the `LO16` that follows it, when they are apart. -/
theorem applyRelocation_pair (hhi : h.kind = rMipsHi16) (hlo : l.kind = rMipsLo16)
    (hapart : add32 base l.offset + 4 ≤ add32 base h.offset ∨
      add32 base h.offset + 4 ≤ add32 base l.offset) :
    applyRelocation base (applyRelocation base (m, []) h.entry) l.entry =
      (writeWord (writeWord m (add32 base l.offset)
          (rebasedLow base (readWord m (add32 base l.offset)))) (add32 base h.offset)
        (rebasedHigh base (readWord m (add32 base h.offset)) (readWord m (add32 base l.offset))),
        []) := by
  -- the high half waits until the low half comes
  have hheld : applyRelocation base (m, []) h.entry =
      (m, [(add32 base h.offset, readWord m (add32 base h.offset))]) := by
    simp only [applyRelocation, Fixup.entry, hhi]
    rfl
  -- the low half's word is another one
  have hsame : ∀ w, readWord (writeWord m (add32 base l.offset) w) (add32 base h.offset) =
      readWord m (add32 base h.offset) := fun w =>
    readWord_congr fun x hx hx' => writeWord_of_not (by omega)
  have hwl := readWord_lt m (add32 base l.offset)
  have hwh := readWord_lt m (add32 base h.offset)
  rw [hheld]
  simp only [applyRelocation, Fixup.entry, hlo, List.foldl_cons, List.foldl_nil]
  rw [show rMipsLo16 % 256 = 6 from rfl]
  simp only [hsame]
  generalize readWord m (add32 base l.offset) = wl at hwl
  generalize readWord m (add32 base h.offset) = wh at hwh
  -- together they are the address, moved by the base
  have haddress : add32 (wh <<< 16 % 2 ^ 32) (add32 (toWord (int16 (wl &&& 0xFFFF))) base) =
      add32 (literal wh wl) base := by
    have hmask : wl &&& 0xFFFF = wl % 2 ^ 16 := Nat.and_two_pow_sub_one_eq_mod wl 16
    rw [hmask, literal, toWord_int16, toWord_int16, Nat.shiftLeft_eq, Nat.mod_mod]
    unfold add32
    split <;> omega
  have hlow : wl / 2 ^ 16 * 2 ^ 16 + add32 (literal wh wl) base % 2 ^ 16 = rebasedLow base wl := by
    unfold rebasedLow literal add32
    rw [toWord_int16]
    split <;> omega
  rw [haddress, setLow16_eq hwl, setLow16_eq hwh, hlow]
  have hlt := add32_lt (literal wh wl) base
  -- the low half is added with its sign, so that the high half makes up for the carry
  have hcarry : add32 (literal wh wl) base &&& 0x8000 =
      add32 (literal wh wl) base / 2 ^ 15 % 2 * 2 ^ 15 :=
    Nat.and_shifted_mask (add32 (literal wh wl) base) 1 15
  have hhigh : (if add32 (literal wh wl) base &&& 0x8000 ≠ 0 then
      add32 (add32 (literal wh wl) base >>> 16) 1 else add32 (literal wh wl) base >>> 16) % 2 ^ 16 =
        (add32 (literal wh wl) base + 2 ^ 15) / 2 ^ 16 % 2 ^ 16 := by
    rw [hcarry]
    generalize add32 (literal wh wl) base = x at hlt
    rw [Nat.shiftRight_eq_div_pow]
    unfold add32
    split <;> omega
  rw [hhigh, rebasedHigh]

end Loader

end PS2Bios.Irx
