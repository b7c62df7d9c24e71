import PS2Bios.Servers.Outcome
import PS2Bios.Servers.Reports

/-!
# A read that reaches its client

`doRead` splits a read by the quadwords of its destination. `Fed` is how far it has come: the bytes
read so far are in EE memory, one behind the other, and nothing outside the quadwords the
destination touches has changed. Head, chunks and tail each keep it (`Fed.sent`), as long as no
transfer finds the ring full; one that does leaves its bytes out, and `doRead` goes on as if they
were there.
-/

namespace PS2Bios.Servers.Fileio

open Sif

variable {L : Layout} {f : File} {loads : World → UInt32 → ℕ → Prop} {before w w₁ : World}
  {start stop n : ℕ} {fd dest cursor total tail : UInt32}

/-- What the file has left to deliver of a read ends within the physical space. Where it ends with
it, the read ends there too or goes on for a quadword at least: a shorter tail would be sent to the
bottom of memory, without a byte of the file in it. -/
structure Fits (f : File) (position start length : ℕ) : Prop where
  room : start + min length (f.contents.length - position) ≤ 2 ^ 29
  top : 16 ≤ length → start + (f.contents.length - position) = 2 ^ 29 →
    f.contents.length - position < length → f.contents.length - position + 16 ≤ length

/-- So many bytes of a read have been sent to EE memory from `start` on; it may go up to `stop`. -/
structure Fed (f : File) (before : World) (start stop n : ℕ) (w : World) : Prop where
  fd : w.fd = before.fd
  position : w.position = before.position + n
  within : start + n ≤ stop
  delivered : n ≤ f.contents.length - before.position
  bytes : w.refused = false → ∀ k < n, ∀ a : UInt32, a.toNat = start + k →
    f.contents[before.position + k]? = some (w.ee a)
  frame : ∀ a : UInt32, ¬(start / 16 * 16 ≤ a.toNat ∧ a.toNat < (stop + 15) / 16 * 16) →
    w.ee a = before.ee a

/-- A read is over: it answers how many bytes it has sent, or why there are none. -/
def Over (f : File) (before : World) (start stop : ℕ) (r : Result) (w : World) : Prop :=
  ∃ n, Fed f before start stop n w ∧ r.1 = if n = 0 then w.failure.getD 0 else (n : ℤ)

variable (w₁) in
/-- What has been read goes out, in quadwords of its own. -/
theorem Fed.sent (h : Fed f before start stop n w) (source ee size : UInt32) (offset count : ℕ)
    (hfd : w₁.fd = before.fd)
    (hposition : w₁.position = before.position + (n + count)) (hee : w₁.ee = w.ee)
    (hrefused : w₁.refused = w.refused) (hwithin : start + (n + count) ≤ stop)
    (hsource : source &&& 0x7FFFFFFF = source)
    (hsize : size.toNat ≤ 0x1000) (hoffset : (physical ee).toNat + offset = start + n)
    (hfirst : offset = 0 ∨ n = 0) (hlow : start / 16 * 16 ≤ (physical ee).toNat)
    (hhigh : (physical ee).toNat + (size.toNat + 15) / 16 * 16 ≤ (stop + 15) / 16 * 16)
    (hcount : offset + count ≤ (size.toNat + 15) / 16 * 16)
    (hbytes : ∀ j < count, f.contents[before.position + n + j]? =
      some (w₁.iop (source + UInt32.ofNat (offset + j)))) :
    Fed f before start stop (n + count) { w₁ with refused := true } ∧
      Fed f before start stop (n + count)
        { w₁ with ee := w₁.landed (transferOf source ee size) } := by
  have hdelivered : n + count ≤ f.contents.length - before.position := by
    rcases Nat.eq_zero_or_pos count with rfl | hpos
    · exact h.delivered
    · obtain ⟨hlt, -⟩ := List.getElem?_eq_some_iff.mp (hbytes (count - 1) (by omega))
      omega
  constructor
  · exact ⟨hfd, hposition, hwithin, hdelivered, fun hnot => (by cases hnot),
      fun a ha => (congrFun hee a).trans (h.frame a ha)⟩
  refine ⟨hfd, hposition, hwithin, hdelivered, fun hnot k hk a ha => ?_, fun a ha => ?_⟩
  · show _ = some (w₁.landed _ a)
    rw [World.landed_eq hsource hsize]
    rcases Nat.lt_or_ge k n with hold | hnew
    · -- what was there before is in quadwords below
      rw [if_neg (by omega), hee]
      exact h.bytes (hrefused.symm.trans hnot) k hold a ha
    · obtain ⟨j, rfl⟩ := Nat.exists_eq_add_of_le hnew
      have hat : a.toNat - (physical ee).toNat = offset + j := by omega
      rw [if_pos (by omega), hat, ← hbytes j (by omega), Nat.add_assoc]
  · show w₁.landed _ a = _
    rw [World.landed_eq hsource hsize, if_neg (by omega), hee]
    exact h.frame a ha

/-- What has been sent is within the physical space. -/
theorem Fed.le_top {length : ℕ} (h : Fed f before start (start + length) n w)
    (hfits : Fits f before.position start length) : start + n ≤ 2 ^ 29 := by
  have hwithin := h.within
  have hdelivered := h.delivered
  have hroom := hfits.room
  omega

/-- A block of no quadwords changes nothing. -/
theorem Fed.sent_nothing {source ee size : UInt32} (h : Fed f before start stop n w₁)
    (hsource : source &&& 0x7FFFFFFF = source) (hsize : size.toNat = 0) :
    Fed f before start stop n { w₁ with ee := w₁.landed (transferOf source ee size) } := by
  have hsame : w₁.landed (transferOf source ee size) = w₁.ee := funext fun a => by
    rw [World.landed_eq hsource (by omega), if_neg (by omega)]
  rw [hsame]
  exact h

/-- A read that stops with what it has sent. -/
theorem Fed.over {length : ℕ} (h : Fed f before start (start + length) total.toNat w)
    (hnone : w.failure = none) (hfits : Fits f before.position start length) :
    Over f before start (start + length) (readSoFar dest total) w := by
  have htop := h.le_top hfits
  refine ⟨total.toNat, h, ?_⟩
  show int32 total.toNat = _
  rw [int32_of_lt (by omega), hnone]
  split
  next hzero =>
    rw [hzero]
    rfl
  next => rfl

/-- And one that fails behind it. -/
theorem Fed.failed {length : ℕ} (h : Fed f before start (start + length) total.toNat w)
    (hnone : w.failure = none) (hfits : Fits f before.position start length) (got : ℤ) :
    Over f before start (start + length) (failedAfter dest total got)
      { w with failure := w.failure.or (some got) } := by
  have htop := h.le_top hfits
  refine ⟨total.toNat, ⟨h.fd, h.position, h.within, h.delivered, h.bytes, h.frame⟩, ?_⟩
  unfold failedAfter
  by_cases hzero : total = 0
  · subst hzero
    rw [if_neg (not_not.mpr rfl), hnone]
    rfl
  · have hpos : total.toNat ≠ 0 := fun h => hzero (UInt32.toNat_inj.mp h)
    rw [if_pos hzero, if_neg hpos]
    exact int32_of_lt (by omega)

/-- What a read has put behind the start of a buffer. -/
theorem iop_read {memory : UInt32 → UInt8} {buffer : UInt32} {bytes : List UInt8} {p count : ℕ}
    (hlength : bytes.length = count) (hcount : count ≤ 0x1000)
    (hbytes : ∀ k < count, bytes[k]? = f.contents[p + k]?) :
    ∀ j < count, f.contents[p + j]? =
      some (put memory buffer bytes (buffer + UInt32.ofNat j)) := by
  intro j hj
  rw [put_eq (by omega) (by omega), if_pos (by omega), List.getD_eq_getElem?_getD, ← hbytes j hj,
    List.getElem?_eq_getElem (by omega)]
  rfl

/-- A chunk that was read goes out. At the top of the physical space the file has ended, and the
chunk has no quadwords. -/
theorem Fed.chunk {length count : ℕ} {size : UInt32} {bytes : List UInt8}
    (h : Fed f before start (start + length) total.toNat w) (L : Layout)
    (hcursor : cursor = dest + total) (hstart : (physical dest).toNat = start)
    (halign : (start + total.toNat) % 16 = 0) (hend : total.toNat + count ≤ length)
    (hfits : Fits f before.position start length) (hcounted : bytes.length = count)
    (hcount : count ≤ 0x1000) (hsize : size.toNat = count)
    (hbytes : ∀ k < count, bytes[k]? = f.contents[before.position + total.toNat + k]?) :
    let w' := { w with
      iop := put w.iop L.bounce bytes
      position := w.position + count }
    Fed f before start (start + length) (total.toNat + count) { w' with refused := true } ∧
      Fed f before start (start + length) (total.toNat + count)
        { w' with ee := w'.landed (transferOf L.bounce cursor size) } := by
  have hposition : w.position = before.position + total.toNat := h.position
  have hbounce : L.bounce &&& 0x7FFFFFFF = L.bounce :=
    L.physical .fileio L.bounce (by simpa using L.bounce_own 0 (by decide))
  rcases Nat.lt_or_ge (start + total.toNat) (2 ^ 29) with hbelow | hover
  · have hat : (physical cursor).toNat = start + total.toNat := by
      rw [hcursor, toNat_physical_add (by omega), hstart]
    exact h.sent
      { w with
        iop := put w.iop L.bounce bytes
        position := w.position + count } L.bounce cursor size 0 count h.fd
      (by show w.position + count = _; omega) rfl rfl (by omega) hbounce (by omega) (by omega)
      (.inl rfl) (by omega) (by omega) (by omega)
      (by simpa only [Nat.zero_add] using iop_read hcounted (by omega) hbytes)
  · have htop := h.le_top hfits
    have hroom := hfits.room
    have hdelivered := h.delivered
    obtain rfl : count = 0 := by
      rcases Nat.eq_zero_or_pos count with hzero | hpos
      · exact hzero
      · have hbyte := hbytes (count - 1) (by omega)
        rw [List.getElem?_eq_getElem (by omega)] at hbyte
        obtain ⟨hlt, -⟩ := List.getElem?_eq_some_iff.mp hbyte.symm
        omega
    have hsame : Fed f before start (start + length) total.toNat
        { w with
          iop := put w.iop L.bounce bytes
          position := w.position + 0 } :=
      ⟨h.fd, h.position, h.within, h.delivered, h.bytes, h.frame⟩
    exact ⟨⟨hsame.fd, hsame.position, hsame.within, hsame.delivered, fun hnot => (by cases hnot),
      hsame.frame⟩, hsame.sent_nothing hbounce hsize⟩

/-- The block a read begins with, what was read behind the bytes ahead of the destination. -/
theorem Fed.head (h : Fed f before start stop 0 before) (L : Layout) (memory : UInt32 → UInt8)
    (size : UInt32) {offset ee : UInt32} {count : ℕ} {bytes : List UInt8}
    (hoffset : offset.toNat = start % 16)
    (hee : (physical ee).toNat = start / 16 * 16) (hlength : bytes.length = count)
    (hbytes : ∀ k < count, bytes[k]? = f.contents[before.position + k]?)
    (hsize : size.toNat ≤ 32) (hcount : offset.toNat + count ≤ size.toNat)
    (hstop : start + count ≤ stop)
    (hhigh : start / 16 * 16 + (size.toNat + 15) / 16 * 16 ≤ (stop + 15) / 16 * 16) :
    let w := { before with
      iop := put memory (L.edge + offset) bytes
      position := before.position + count }
    Fed f before start stop count { w with refused := true } ∧
      Fed f before start stop count { w with ee := w.landed (transferOf L.edge ee size) } := by
  have hedge : L.edge &&& 0x7FFFFFFF = L.edge :=
    L.physical .fileio L.edge (by simpa using L.edge_own 0 (by decide))
  have hsent := h.sent
    { before with
      iop := put memory (L.edge + offset) bytes
      position := before.position + count } L.edge ee size offset.toNat count rfl
    (by rw [Nat.zero_add]) rfl rfl
    (by omega) hedge (by omega) (by omega) (.inr rfl) (by omega) (by omega) (by omega) ?_
  · rwa [Nat.zero_add] at hsent
  · intro j hj
    rw [Nat.add_zero, UInt32.ofNat_add, UInt32.ofNat_toNat, ← UInt32.add_assoc]
    exact iop_read hlength (by omega) hbytes j hj

/-- The `i`th word of the request. -/
def requested (L : Layout) (w : World) (i : ℕ) : UInt32 :=
  UInt32.ofNat (littleEndian ((List.range 4).map fun k =>
    w.iop (L.request .fileio + UInt32.ofNat (4 * i) + UInt32.ofNat k)))

/-- A read request's answer is how many bytes the file has delivered, they are where they were asked
to be, and EE memory is as it was outside the quadwords asked for. A read that fails with nothing
delivered answers why. -/
def Reaches (f : File) (before : World) (dest length : UInt32) (a : Answer) (after : World) :
    Prop :=
  ∃ n ≤ length.toNat, after.position = before.position + n ∧
    a.words = some [if n = 0 then after.failure.getD 0 else (n : ℤ), 0, 0, 0] ∧
    (∀ k < n, ∀ x : UInt32, x.toNat = (physical dest).toNat + k →
      f.contents[before.position + k]? = some (after.ee x)) ∧
    ∀ x : UInt32, ¬((physical dest).toNat / 16 * 16 ≤ x.toNat ∧
      x.toNat < ((physical dest).toNat + length.toNat + 15) / 16 * 16) → after.ee x = before.ee x

/-- The request is to read the four bytes to `0x100000`. -/
def fresh : World := ⟨readFour, fun _ => 0, 0, 0, none, false⟩

end PS2Bios.Servers.Fileio
