import PS2Bios.Padman.Machine

/-!
# The newest record

A record lands in the half of the area its counter's low bit names, so the half the client finds the
larger counter in is that of the record delivered last (`Newest`): an area that was clear stays so
until the first record, and from then on the other half is clear, or has an older one.
-/

namespace PS2Bios.Padman

variable {r r' : Record} {ee : EeMemory} {address : UInt32} {last : Option Record} {k : ℕ}

/-! ### What is in a record -/

/-- A word's bytes, the lowest first. -/
theorem toNat_byteOf (x : UInt32) {i : ℕ} (hi : i < 4) :
    (byteOf x i).toNat = x.toNat / 2 ^ (8 * i) % 2 ^ 8 := by
  have hshift : (UInt32.ofNat (8 * i)).toNat = 8 * i :=
    UInt32.toNat_ofNat_of_lt' (Nat.lt_trans (by omega : 8 * i < 32) (by decide))
  have hmod : 8 * i % 32 = 8 * i := Nat.mod_eq_of_lt (by omega)
  rw [byteOf, UInt32.toNat_toUInt8, UInt32.toNat_shiftRight, hshift, hmod,
    Nat.shiftRight_eq_div_pow]

/-- The count stored in a record is read back. -/
theorem frameOf_counted (x : UInt32) : frameOf (counted x) = x.toNat := by
  have h0 := toNat_byteOf x (i := 0) (by decide)
  have h1 := toNat_byteOf x (i := 1) (by decide)
  have h2 := toNat_byteOf x (i := 2) (by decide)
  have h3 := toNat_byteOf x (i := 3) (by decide)
  have hx := x.toNat_lt
  have hc : frameOf (counted x) = (byteOf x 0).toNat + (byteOf x 1).toNat * 2 ^ 8 +
      (byteOf x 2).toNat * 2 ^ 16 + (byteOf x 3).toNat * 2 ^ 24 := by
    simp [frameOf, counted, put, Function.update]
  omega

/-- A counter is in the first four bytes. -/
theorem frameOf_congr (h : ∀ i < 4, r i = r' i) : frameOf r = frameOf r' := by
  rw [frameOf, frameOf, h 0 (by decide), h 1 (by decide), h 2 (by decide), h 3 (by decide)]

theorem frameOf_clear (h : ∀ i < 4, r i = 0) : frameOf r = 0 :=
  frameOf_congr h

/-- The client looks at nothing outside the record. -/
theorem decode_congr (h : ∀ i < kRecordBytes, r i = r' i) : decode r = decode r' := by
  have hframe : frameOf r = frameOf r' :=
    frameOf_congr fun i hi => h i (by unfold kRecordBytes; omega)
  rw [decode, decode, hframe, h 0x04 (by decide), h 0x06 (by decide), h 0x09 (by decide),
    h 0x0A (by decide), h 0x0B (by decide)]

/-- The record of a port that nobody writes to meanwhile. -/
def recordOf (p : Port) : Record :=
  let r := counted p.frame
  let r := put r 0x04 p.slot_state
  let r := put r 0x05 0
  let r := put r 0x06 (if p.valid then 1 else 0)
  let r := if p.valid then
      put (put (putReply (put (put r 0x08 0) 0x09 p.id) p) 0x27 (p.reply 2)) 0x28 0x20
    else put r 0x08 0xFF
  let r := put r 0x2C (if p.stage = .Poll then 1 else 2)
  let r := put r 0x2D p.configurable
  let r := put r 0x2E p.model
  let r := put r 0x2F p.status_bit
  put r 0x30 p.errors

theorem put_of_ne {offset i : ℕ} {x : UInt8} (h : i ≠ offset) : put r offset x i = r i := by
  rw [put, Function.update_of_ne h]

theorem putReply_of_lt {p : Port} {i : ℕ} (h : i < 0x0A) : putReply r p i = r i :=
  if_neg fun hi => absurd hi.1 (Nat.not_le_of_lt h)

/-- What stands behind the block of a record leaves what stands before it. -/
theorem recordOf_front (p : Port) {i : ℕ} (hi : i < 0x08) :
    recordOf p i = put (put (put (counted p.frame) 0x04 p.slot_state) 0x05 0) 0x06
      (if p.valid then 1 else 0) i := by
  rw [recordOf, put_of_ne (by omega), put_of_ne (by omega), put_of_ne (by omega),
    put_of_ne (by omega), put_of_ne (by omega)]
  split
  · rw [put_of_ne (by omega), put_of_ne (by omega), putReply_of_lt (by omega),
      put_of_ne (by omega), put_of_ne (by omega)]
  · rw [put_of_ne (by omega)]

theorem frameOf_recordOf (p : Port) : frameOf (recordOf p) = p.frame.toNat := by
  rw [← frameOf_counted]
  refine frameOf_congr fun i hi => ?_
  rw [recordOf_front p (by omega), put_of_ne (by omega), put_of_ne (by omega),
    put_of_ne (by omega)]

theorem valid_recordOf {p : Port} (h : recordOf p 0x06 ≠ 0) : p.valid = true := by
  rw [recordOf_front p (by decide), put, Function.update_self] at h
  by_contra hvalid
  rw [if_neg hvalid] at h
  exact h rfl

/-! ### The area -/

/-- Where the record of a counter goes. -/
def halfOf (frame : ℕ) : UInt32 := if frame % 2 = 1 then 0x40 else 0

/-- Each half of the area lies where the parity of the frame says. -/
theorem toNat_add_halfOf (h : address.toNat + 2 * kRecordBytes ≤ 2 ^ 32) (frame : ℕ) :
    (address + halfOf frame).toNat = address.toNat + frame % 2 * kRecordBytes := by
  unfold kRecordBytes at *
  rw [UInt32.toNat_add, halfOf]
  split
  next hodd =>
    rw [hodd]
    change (_ + 0x40) % 2 ^ 32 = _
    omega
  next heven =>
    have hzero : frame % 2 = 0 := by omega
    rw [hzero]
    change (_ + 0) % 2 ^ 32 = _
    omega

/-- A record that is delivered is the half it was sent to. -/
theorem half_delivered_same (h : address.toNat + 2 * kRecordBytes ≤ 2 ^ 32) (frame : ℕ) {i : ℕ}
    (hi : i < kRecordBytes) :
    half (delivered ee (address + halfOf frame) r) address (frame % 2) i = r i := by
  rw [half, delivered, toNat_add_halfOf h, if_pos (by omega)]
  congr 1
  omega

/-- A record that is delivered leaves the other half as it was. -/
theorem half_delivered_other (h : address.toNat + 2 * kRecordBytes ≤ 2 ^ 32) (frame : ℕ) {i : ℕ}
    (hi : i < kRecordBytes) :
    half (delivered ee (address + halfOf frame) r) address (1 - frame % 2) i =
      half ee address (1 - frame % 2) i := by
  unfold kRecordBytes at hi
  rw [half, delivered, toNat_add_halfOf h, if_neg, half]
  unfold kRecordBytes
  rcases Nat.mod_two_eq_zero_or_one frame with hmod | hmod <;> rw [hmod] <;> omega

/-- The area is that of the last record delivered, if there is one. -/
def Newest (ee : EeMemory) (address : UInt32) : Option Record → Prop
  | none => ∀ i < 2 * kRecordBytes, ee (address.toNat + i) = 0
  | some r => (∀ i < kRecordBytes, half ee address (frameOf r % 2) i = r i) ∧
      (frameOf (half ee address (1 - frameOf r % 2)) = 0 ∨
        frameOf (half ee address (1 - frameOf r % 2)) < frameOf r)

/-- The halves of a clear area. -/
theorem half_clear (h : Newest ee address none) (hk : k < 2) :
    ∀ i < kRecordBytes, half ee address k i = 0 := by
  intro i hi
  rw [half, Nat.add_assoc]
  refine h _ ?_
  unfold kRecordBytes at *
  omega

/-- **The client decodes the last record delivered.** -/
theorem Newest.read (h : Newest ee address last) :
    read ee address = decode (last.getD fun _ => 0) := by
  cases last with
  | none =>
    have hclear := fun k hk => half_clear (k := k) h hk
    have hframe : ∀ k < 2, frameOf (half ee address k) = 0 := fun k hk =>
      frameOf_clear fun i hi => hclear k hk i (by unfold kRecordBytes; omega)
    rw [Padman.read, hframe 0 (by decide), hframe 1 (by decide), if_neg (Nat.lt_irrefl 0)]
    exact decode_congr (hclear 0 (by decide))
  | some r =>
    obtain ⟨hsame, hother⟩ := h
    have hframe : frameOf (half ee address (frameOf r % 2)) = frameOf r :=
      frameOf_congr fun i hi => hsame i (by unfold kRecordBytes; omega)
    have hdecode := decode_congr hsame
    rw [Padman.read, Option.getD_some, ← hdecode]
    rcases Nat.mod_two_eq_zero_or_one (frameOf r) with hmod | hmod
    · rw [hmod] at hframe hother ⊢
      rw [if_neg]
      change ¬_ < frameOf (half ee address (1 - 0))
      omega
    · rw [hmod] at hframe hother ⊢
      rw [if_pos]
      change frameOf (half ee address (1 - 1)) < _
      omega

/-- The next record, with a counter above those of all records before it. -/
theorem Newest.push (h : Newest ee address last)
    (hlast : ∀ r' ∈ last, frameOf r' < frameOf r)
    (harea : address.toNat + 2 * kRecordBytes ≤ 2 ^ 32) :
    Newest (delivered ee (address + halfOf (frameOf r)) r) address (some r) := by
  refine ⟨fun i hi => half_delivered_same harea _ hi, ?_⟩
  have hother : frameOf (half (delivered ee (address + halfOf (frameOf r)) r) address
      (1 - frameOf r % 2)) = frameOf (half ee address (1 - frameOf r % 2)) :=
    frameOf_congr fun i hi => half_delivered_other harea _ (by unfold kRecordBytes; omega)
  rw [hother]
  cases last with
  | none =>
    left
    exact frameOf_clear fun i hi => half_clear h (by omega) i (by unfold kRecordBytes; omega)
  | some r' =>
    obtain ⟨hsame, hold⟩ := h
    have hlt := hlast r' rfl
    -- the other half is the last record's, or the one it left
    by_cases hparity : frameOf r' % 2 = 1 - frameOf r % 2
    · right
      rw [← hparity, frameOf_congr fun i hi => hsame i (by unfold kRecordBytes; omega)]
      exact hlt
    · have heq : 1 - frameOf r' % 2 = 1 - frameOf r % 2 := by omega
      rw [heq] at hold
      exact hold.imp_right fun hsmall => Nat.lt_trans hsmall hlt

end PS2Bios.Padman
