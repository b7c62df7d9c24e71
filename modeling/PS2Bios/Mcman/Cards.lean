import Mathlib.Algebra.GroupWithZero.Nat
import PS2Bios.Mcman.Exports
import PS2Bios.Mcman.Trials

/-!
# A card that answers

What is replied by a card that was visited before, never misses and holds certain bytes in pages of
one size: every batch gets what it is for (`cardReply_hit`), the geometry is that size, and a page
that is asked for is its own (`cardReply_page`).
-/

namespace PS2Bios.Mcman

open Bytes

/-- The frame a batch begins with decides the reply. The blocks of a page read are its chunks, with
their check bytes. -/
def cardReply (image : Ram) (page_bytes : UInt16) (frames : List Sent) : Transferred where
  stat6c := kStatusGood
  rx block byte :=
    match kindOf frames with
    | .presence => if byte = 3 then kAck else 0
    | .setTerminator => if byte = 4 then kAck else 0
    | .geometry =>
      if byte = 3 then page_bytes.toUInt8
      else if byte = 4 then (page_bytes >>> 8).toUInt8
      else if byte = 0xB then page_bytes.toUInt8 ^^^ (page_bytes >>> 8).toUInt8
      else if byte = 0xC then kAck
      else 0
    | .setPage =>
      let start := (pageIn frames).toNat * page_bytes.toNat + (block - 1) * kChunkBytes
      if byte = 3 ∨ block = 0 ∧ byte = 8 then kAck
      else if byte = 4 + kChunkBytes then exclusiveOr (bytesAt image start kChunkBytes)
      else image (start + (byte - 4))
    | _ => 0

variable {image : Ram} {page_bytes : UInt16} {frames : List Sent}

/-- What stands in the block of a chunk. -/
theorem cardReply_page (hkind : kindOf frames = .setPage) (j : ℕ) {i : ℕ} (hi : i < kChunkBytes) :
    (cardReply image page_bytes frames).rx (1 + j) (4 + i) =
      image ((pageIn frames).toNat * page_bytes.toNat + (j * kChunkBytes + i)) := by
  have hblock : 1 + j - 1 = j := by omega
  have hbyte : 4 + i - 4 = i := by omega
  have hplain : ¬(4 + i = 3 ∨ 1 + j = 0 ∧ 4 + i = 8) := by omega
  have hcheck : 4 + i ≠ 4 + kChunkBytes := by omega
  simp only [cardReply, hkind]
  rw [if_neg hplain, if_neg hcheck, hblock, hbyte, Nat.add_assoc]

theorem chunk_cardReply (hkind : kindOf frames = .setPage) (j : ℕ) :
    chunk (cardReply image page_bytes frames) j =
      bytesAt image ((pageIn frames).toNat * page_bytes.toNat + j * kChunkBytes) kChunkBytes :=
  bytesAt_congr fun i hi => by rw [cardReply_page hkind j hi, Nat.add_assoc]

/-- A card takes the page it is told. -/
theorem accepts_cardReply (hkind : kindOf frames = .setPage) (chunks last : ℕ) :
    accepts chunks last (cardReply image page_bytes frames) = true := by
  have hcheck : ∀ j, exclusiveOr (chunk (cardReply image page_bytes frames) j) =
      (cardReply image page_bytes frames).rx (1 + j) (4 + kChunkBytes) := by
    intro j
    have hblock : 1 + j - 1 = j := by omega
    have hplain : ¬(4 + kChunkBytes = 3 ∨ 1 + j = 0 ∧ 4 + kChunkBytes = 8) := by
      rw [kChunkBytes]
      omega
    rw [chunk_cardReply hkind]
    simp only [cardReply, hkind]
    rw [if_neg hplain, hblock, if_pos trivial]
  have hfirst : (cardReply image page_bytes frames).rx 0 8 = kAck := by
    simp only [cardReply, hkind]
    exact if_pos (.inr ⟨trivial, trivial⟩)
  have hlast : (cardReply image page_bytes frames).rx last 3 = kAck := by
    simp only [cardReply, hkind]
    exact if_pos (.inl trivial)
  simp only [accepts, hfirst, hlast, decide_true, Bool.and_self, Bool.true_and, List.all_eq_true,
    decide_eq_true_eq]
  exact fun j _ => hcheck j

/-- The size in a geometry reply. -/
theorem geometryOf_cardReply (hkind : kindOf frames = .geometry) :
    geometryOf (cardReply image page_bytes frames) = some (0, page_bytes.toUInt32) := by
  have hsize : page_bytes.toUInt8.toNat + 256 * (page_bytes >>> 8).toUInt8.toNat =
      page_bytes.toNat := by
    have hlt := page_bytes.toNat_lt
    have hhigh : (page_bytes >>> 8).toUInt8.toNat = page_bytes.toNat / 256 := by
      rw [UInt16.toNat_toUInt8, UInt16.toNat_shiftRight]
      rw [show (8 : UInt16).toNat % 16 = 8 from rfl, Nat.shiftRight_eq_div_pow]
      omega
    rw [hhigh, UInt16.toNat_toUInt8]
    omega
  have hhalf : UInt32.ofNat (readHalf ((cardReply image page_bytes frames).rx 0) 3) =
      page_bytes.toUInt32 := by
    have hread : readHalf ((cardReply image page_bytes frames).rx 0) 3 = page_bytes.toNat := by
      simp only [readHalf, cardReply, hkind]
      exact hsize
    rw [hread]
    exact UInt32.toNat_inj.mp (by simp)
  have hcheck : exclusiveOr (bytesAt ((cardReply image page_bytes frames).rx 0) 3 8) =
      (cardReply image page_bytes frames).rx 0 0xB := by
    have hbytes : bytesAt ((cardReply image page_bytes frames).rx 0) 3 8 =
        [page_bytes.toUInt8, (page_bytes >>> 8).toUInt8, 0, 0, 0, 0, 0, 0] := by
      simp only [bytesAt, cardReply, hkind]
      rfl
    rw [hbytes]
    simp [exclusiveOr, cardReply, hkind]
  have hack : (cardReply image page_bytes frames).rx 0 0xC = kAck := by
    simp only [cardReply, hkind]
    rfl
  have hflags : (cardReply image page_bytes frames).rx 0 2 = 0 := by
    simp only [cardReply, hkind]
    rfl
  rw [geometryOf, if_neg (by simp [hack, hcheck]), hflags, hhalf]

/-- Every batch gets what it is for. -/
theorem cardReply_hit : Hit frames (cardReply image page_bytes frames) := by
  refine ⟨show kStatusGood &&& kStatusMask = kStatusGood by decide, ?_⟩
  cases hkind : kindOf frames with
  | probe => simp only [cardReply, hkind]; decide
  | presence => simp only [cardReply, hkind]; decide
  | setTerminator => simp only [cardReply, hkind]; rfl
  | geometry => rw [geometryOf_cardReply hkind]; rfl
  | setPage => exact accepts_cardReply hkind _ _
  | _ => exact True.intro

/-- Such a card is in either port, the authentication allows it, and the stack is clear. -/
def cardIn (image : Ram) (page_bytes : UInt16) : Slots where
  transfer _ _ frames := cardReply image page_bytes frames
  authCard _ _ _ := 1
  stack _ _ := 0

/-- A formatted card of 512-byte pages, two to a cluster. Its root directory lies in the clusters 3
and 4, and has four slots, all of them in use. -/
def formatted : Ram := fun a =>
  match a / 512 with
  | 0 =>
    match a with
    | 0x29 => 2
    | 0x2A => 2
    | 0x2C => 16
    | 0x34 => 3
    | 0x44 => 1
    | 0x50 => 1
    | _ => kIdentifierHead.getD a 0
  | 2 => if a = 1024 then 2 else 0
  | 4 =>
    match a with
    | 2048 => 1
    | 2051 => 0x80
    | _ => 0
  | 6 =>
    match a with
    | 3073 => 0x80
    | 3076 => 4
    | 3136 => 0x2E
    | _ => 0
  | 7 =>
    match a with
    | 3585 => 0x80
    | 3648 => 0x2E
    | 3649 => 0x2E
    | _ => 0
  | 8 =>
    match a with
    | 4097 => 0x80
    | 4160 => 0x41
    | _ => 0
  | 9 =>
    match a with
    | 4609 => 0x80
    | 4672 => 0x42
    | _ => 0
  | _ => 0

end PS2Bios.Mcman
