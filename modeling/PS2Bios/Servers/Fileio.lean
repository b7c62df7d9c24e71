import PS2Bios.Library.Word
import PS2Bios.Servers.Operations

/-!
# FILEIO

`doRead` splits a read by the quadwords of its destination: an unaligned head and an unaligned tail
go out through `edge`, whole blocks with zeros around what was read, and the middle goes out through
`bounce`, a chunk at a time. It answers what it has read so far as soon as a read is short, or fails
behind the head.

Its heap service puts nothing into EE memory, and is left out.
-/

namespace PS2Bios.Servers.Fileio

open Sif

/-- The request to open a file. -/
def kFnoOpen : UInt32 := 0

/-- The request to close one. -/
def kFnoClose : UInt32 := 1

/-- The request to read. -/
def kFnoRead : UInt32 := 2

/-- The request to seek. -/
def kFnoLseek : UInt32 := 4

/-- The request for a file's record. -/
def kFnoGetstat : UInt32 := 12

/-- The first number that is no request. -/
def kFnoLimit : UInt32 := 17

/-- The answer to a request that this server does not serve. -/
def kOtherwiseUnserved : ℤ := -1

/-- Rounded up to a quadword. -/
def alignUp16 (value : UInt32) : UInt32 := (value + 15) &&& ~~~15

/-- What a function of `serve` answers, and what it says it has delivered. -/
abbrev Result := ℤ × List (UInt32 × ℕ)

/-- `static_cast<int32_t>(total)`, of the bytes from `dest` on. -/
def readSoFar (dest total : UInt32) : Result := (int32 total.toNat, [(dest, total.toNat)])

/-- A read that fails answers what it had got before, and the error only if that was nothing. -/
def failedAfter (dest total : UInt32) (got : ℤ) : Result :=
  if total ≠ 0 then readSoFar dest total else (got, [])

/-- The last `tail` bytes, fewer than a quadword. -/
def readTail (L : Layout) (fd dest tail cursor total : UInt32) : Server Result := do
  if tail ≠ 0 then
    store L.edge (zeros 16)
    let got ← call (.ioRead fd L.edge tail)
    if got.value < 0 then
      return failedAfter dest total got.value
    sendToEe L.edge cursor 16
    return readSoFar dest (total + UInt32.ofNat got.value.toNat)
  else
    return readSoFar dest total

/-- Whether the chunk is short, when a read has got no more than it was asked for. -/
theorem Chunk.done {middle done wanted : UInt32} {got : ℤ} (hdone : done < middle)
    (hwanted : wanted.toNat ≤ middle.toNat - done.toNat) (hpos : 0 < wanted.toNat)
    (hbound : got ≤ wanted.toNat) (hshort : ¬UInt32.ofNat got.toNat < wanted) :
    UInt32.ofNat got.toNat = wanted ∧
      (done + UInt32.ofNat got.toNat).toNat = done.toNat + wanted.toNat := by
  have hm := middle.toNat_lt
  have hd := UInt32.lt_iff_toNat_lt.mp hdone
  have hle : got.toNat ≤ wanted.toNat := by omega
  have hcount : (UInt32.ofNat got.toNat).toNat = got.toNat :=
    UInt32.toNat_ofNat_of_lt' (show got.toNat < 2 ^ 32 by have := wanted.toNat_lt; omega)
  have hge : wanted.toNat ≤ got.toNat := by
    rw [← hcount]
    exact Nat.not_lt.mp fun h => hshort (UInt32.lt_iff_toNat_lt.mpr h)
  have heq : UInt32.ofNat got.toNat = wanted := UInt32.toNat_inj.mp (by omega)
  refine ⟨heq, ?_⟩
  rw [heq, UInt32.toNat_add]
  omega

/-- How much of the middle the next chunk is. -/
def chunkOf (middle done : UInt32) : UInt32 :=
  if kBounceBytes < middle - done then kBounceBytes else middle - done

/-- A chunk is not empty, fits the buffer, and is no more than what is left. -/
theorem chunkOf_le {middle done : UInt32} (hdone : done < middle) :
    (chunkOf middle done).toNat ≤ middle.toNat - done.toNat ∧ 0 < (chunkOf middle done).toNat ∧
      (chunkOf middle done).toNat ≤ 0x1000 := by
  have hlt := UInt32.lt_iff_toNat_lt.mp hdone
  have hsub := UInt32.toNat_sub_of_le _ _ (UInt32.le_of_lt hdone)
  have hbounce : kBounceBytes.toNat = 0x1000 := rfl
  unfold chunkOf
  split
  next h =>
    have := UInt32.lt_iff_toNat_lt.mp h
    omega
  next h =>
    have : ¬kBounceBytes.toNat < (middle - done).toNat := fun hlt =>
      h (UInt32.lt_iff_toNat_lt.mpr hlt)
    omega

/-- Chunks of the middle, then the tail. -/
def readMiddle (L : Layout) (fd dest middle tail done cursor total : UInt32) : Server Result :=
  if _ : done < middle then do
    let wanted := chunkOf middle done
    let got ← call (.ioRead fd L.bounce wanted)
    if got.value < 0 then
      return failedAfter dest total got.value
    else
      let count := UInt32.ofNat got.value.toNat
      sendToEe L.bounce cursor count
      if _ : count < wanted then
        return readSoFar dest (total + count)
      else
        readMiddle L fd dest middle tail (done + count) (cursor + count) (total + count)
  else
    readTail L fd dest tail cursor total
termination_by middle.toNat - done.toNat
decreasing_by
  have hdone := ‹done < middle›
  obtain ⟨hle, hpos, -⟩ := chunkOf_le hdone
  have hnext := (Chunk.done hdone hle hpos (got.bound _ rfl) ‹_›).2
  have hlt := UInt32.lt_iff_toNat_lt.mp hdone
  omega

/-- `doRead`: a short read through one block, a long one by its head, its blocks and its tail. -/
def doRead (L : Layout) (fd dest_ee length : UInt32) : Server Result := do
  if length = 0 then
    return (0, [])
  let offset := dest_ee &&& 0xF
  if length < 16 then
    let block_bytes := alignUp16 (offset + length)
    store L.edge (zeros block_bytes.toNat)
    let got ← call (.ioRead fd (L.edge + offset) length)
    if got.value < 0 then
      return (got.value, [])
    sendToEe L.edge (dest_ee - offset) block_bytes
    return (got.value, [(dest_ee, got.value.toNat)])
  let head := (16 - offset) &&& 0xF
  let remaining := length - head
  let middle := remaining - remaining % 16
  let tail := remaining - middle
  if head ≠ 0 then
    store L.edge (zeros 16)
    let got ← call (.ioRead fd (L.edge + offset) head)
    if got.value < 0 then
      return (got.value, [])
    sendToEe L.edge (dest_ee - offset) 16
    let count := UInt32.ofNat got.value.toNat
    -- the file ends within the head
    if count < head then
      return readSoFar dest_ee count
    readMiddle L fd dest_ee middle tail 0 (dest_ee + count) count
  else
    readMiddle L fd dest_ee middle tail 0 dest_ee 0

/-- `serve`: the request's number decides, and the answer goes into the reply's first word. -/
def serve (L : Layout) (fno : UInt32) : Server Answer := do
  let words := L.request .fileio
  let answered (result : Result) : Answer := ⟨some [result.1, 0, 0, 0], result.2⟩
  if kFnoLimit ≤ fno then
    return ⟨none, []⟩
  if fno = kFnoOpen then
    let r ← call (.ioOpen (words + 4) (← loadWord words))
    return answered (r.value, [])
  else if fno = kFnoClose then
    let r ← call (.ioClose (← loadWord words))
    return answered (r.value, [])
  else if fno = kFnoRead then
    let result ← doRead L (← loadWord words) (← loadWord (words + 4)) (← loadWord (words + 8))
    return answered result
  else if fno = kFnoLseek then
    let r ← call (.ioLseek (← loadWord words) (← loadWord (words + 4)) (← loadWord (words + 8)))
    return answered (r.value, [])
  else if fno = kFnoGetstat then
    let dest_ee ← loadWord words
    let r ← call (.ioGetstat (words + 4) L.statBlock)
    if 0 ≤ r.value then
      sendToEe L.statBlock dest_ee kStatBytes
      return answered (r.value, [(dest_ee, kStatBytes.toNat)])
    return answered (r.value, [])
  else
    return answered (kOtherwiseUnserved, [])

/-! ### What FILEIO says it has delivered -/

variable {L : Layout} {w : Watch}

/-- What a read has answered is carried. -/
def Read (r : Result) (w : Watch) : Prop :=
  w.Quiet .fileio ∧ ∀ d ∈ r.2, Carry w.sent d.1 d.2

theorem read_none {value : ℤ} (hquiet : w.Quiet .fileio) : Read (value, []) w :=
  ⟨hquiet, nofun⟩

theorem read_one {value : ℤ} {ee : UInt32} {n : ℕ} (hquiet : w.Quiet .fileio)
    (hcarry : Carry w.sent ee n) : Read (value, [(ee, n)]) w := by
  refine ⟨hquiet, fun d hd => ?_⟩
  obtain rfl := List.mem_singleton.mp hd
  exact hcarry

/-- What a failed read answers is what was sent before it. -/
theorem read_failedAfter {dest total : UInt32} {got : ℤ} (hquiet : w.Quiet .fileio)
    (hcarry : Carry w.sent dest total.toNat) : Read (failedAfter dest total got) w := by
  unfold failedAfter
  split
  · exact read_one hquiet hcarry
  · exact read_none hquiet

/-- A quadword more, of which `got` bytes count. -/
theorem carry_count {sent : List Transfer} {dest total cursor source size count : UInt32}
    (hcarry : Carry sent dest total.toNat) (hcursor : cursor = dest + total)
    (hroom : total.toNat + count.toNat < 2 ^ 32) (hsize : count.toNat ≤ size.toNat) :
    Carry (sent ++ [transferOf source cursor size]) dest (total + count).toNat := by
  have hsum : (total + count).toNat = total.toNat + count.toNat := by
    rw [UInt32.toNat_add]
    omega
  rw [hsum]
  refine (hcarry.more _).add (carry_last (k := 0) ?_ (by show 0 + _ ≤ size.toNat; omega))
  show cursor + UInt32.ofNat 0 = _
  rw [UInt32.ofNat_toNat, hcursor]
  exact UInt32.add_zero _

/-- What a read gets, as a word. -/
theorem ofNat_got {got : ℤ} {size : UInt32} (h : got ≤ size.toNat) :
    (UInt32.ofNat got.toNat).toNat = got.toNat := by
  have hlt := size.toNat_lt
  exact UInt32.toNat_ofNat_of_lt' (show got.toNat < 2 ^ 32 by omega)

theorem toNat_got {got : ℤ} {size : UInt32} (h : got ≤ size.toNat) :
    (UInt32.ofNat got.toNat).toNat ≤ size.toNat := by
  rw [ofNat_got h]
  omega

/-- The tail is sent behind the whole blocks. -/
theorem readTail_wp {fd dest tail cursor total : UInt32} (hquiet : w.Quiet .fileio)
    (hcarry : Carry w.sent dest total.toNat) (hcursor : cursor = dest + total)
    (htail : tail.toNat < 16) (hroom : total.toNat + tail.toNat < 2 ^ 32) :
    (readTail L fd dest tail cursor total).wp (watch L .fileio) Read w := by
  unfold readTail
  split
  · rw [Prog.wp_bind, wp_store]
    refine ⟨⟨hquiet, Layout.Owns.take L.edge_own (by decide)⟩, ?_⟩
    rw [Prog.wp_bind, wp_call]
    refine ⟨?_, fun got => ?_⟩
    · rintro b ⟨⟩
      exact ⟨hquiet, Layout.Owns.take L.edge_own (show tail.toNat ≤ 32 by omega)⟩
    · split
      · exact read_failedAfter hquiet hcarry
      · rw [Prog.wp_bind]
        have hgot := toNat_got (got.bound _ rfl)
        refine wp_sendAndWait hquiet L.edge_own (by decide) (by decide) ?_
        exact read_one (.inr rfl) (carry_count hcarry hcursor (by omega)
          (hgot.trans (show tail.toNat ≤ 16 by omega)))
  · exact read_one hquiet hcarry

/-- The whole blocks are sent one behind the other, and then the tail. -/
theorem readMiddle_wp {fd dest middle tail done cursor total : UInt32} (hquiet : w.Quiet .fileio)
    (hcarry : Carry w.sent dest total.toNat) (hcursor : cursor = dest + total)
    (htail : tail.toNat < 16)
    (hroom : total.toNat + (middle.toNat - done.toNat) + tail.toNat < 2 ^ 32) :
    (readMiddle L fd dest middle tail done cursor total).wp (watch L .fileio) Read w := by
  induction hleft : middle.toNat - done.toNat using Nat.strong_induction_on
    generalizing done cursor total w with
  | h left ih =>
    rw [readMiddle]
    split
    next hdone =>
      obtain ⟨hle, hpos, hchunk⟩ := chunkOf_le hdone
      rw [Prog.wp_bind, wp_call]
      refine ⟨?_, fun got => ?_⟩
      · rintro b ⟨⟩
        exact ⟨hquiet, Layout.Owns.take L.bounce_own hchunk⟩
      · have hbound := got.bound _ rfl
        have hgot := toNat_got hbound
        split
        · exact read_failedAfter hquiet hcarry
        · rw [Prog.wp_bind]
          refine wp_sendAndWait hquiet L.bounce_own (hgot.trans hchunk) (by omega) ?_
          have hmore : Carry (w.sent ++ [transferOf L.bounce cursor (UInt32.ofNat got.value.toNat)])
              dest (total + UInt32.ofNat got.value.toNat).toNat :=
            carry_count hcarry hcursor (by omega) (Nat.le_refl _)
          split
          · exact read_one (.inr rfl) hmore
          · next hshort =>
            obtain ⟨heq, hnext⟩ := Chunk.done hdone hle hpos hbound hshort
            have htotal : (total + UInt32.ofNat got.value.toNat).toNat =
                total.toNat + (UInt32.ofNat got.value.toNat).toNat := by
              rw [UInt32.toNat_add]
              omega
            rw [heq] at htotal
            refine ih _ ?_ (.inr rfl) hmore ?_ ?_ rfl
            · rw [hnext]
              omega
            · rw [hcursor, UInt32.add_assoc]
            · rw [hnext, heq, htotal]
              omega
    next hdone => exact readTail_wp hquiet hcarry hcursor htail (by omega)

/-- The head of a read: a block with `offset` bytes of zeros before what was read. -/
theorem carry_block {sent : List Transfer} {dest offset source size count : UInt32}
    (hsize : offset.toNat + count.toNat ≤ size.toNat) :
    Carry (sent ++ [transferOf source (dest - offset) size]) dest count.toNat := by
  refine carry_last (k := offset.toNat) ?_ hsize
  show dest - offset + UInt32.ofNat offset.toNat = dest
  rw [UInt32.ofNat_toNat, UInt32.sub_add_cancel]

theorem toNat_alignUp16 {value : UInt32} (h : value.toNat + 15 < 2 ^ 32) :
    (alignUp16 value).toNat = (value.toNat + 15) / 16 * 16 := by
  have hmask := UInt32.toNat_and_not_mask (value + 15) 15 (k := 4) (by decide) (by decide)
  rw [UInt32.toNat_add, show (15 : UInt32).toNat = 15 from rfl, Nat.mod_eq_of_lt h] at hmask
  exact hmask

/-- The bytes up to the next quadword. -/
theorem toNat_head {offset : UInt32} (h : offset.toNat < 16) :
    ((16 - offset) &&& 0xF).toNat = (16 - offset.toNat) % 16 := by
  have hsub : (16 - offset).toNat = 16 - offset.toNat :=
    UInt32.toNat_sub_of_le _ _ (UInt32.le_iff_toNat_le.mpr (Nat.le_of_lt h))
  rw [UInt32.toNat_and, hsub]
  exact Nat.and_two_pow_sub_one_eq_mod _ 4

/-- How the rest of a read is split. -/
theorem toNat_split (length head : UInt32) (h : head.toNat ≤ length.toNat) :
    let remaining := length - head
    let middle := remaining - remaining % 16
    middle.toNat + (remaining - middle).toNat + head.toNat = length.toNat ∧
      (remaining - middle).toNat < 16 := by
  have hremaining := UInt32.toNat_sub_of_le length head (UInt32.le_iff_toNat_le.mpr h)
  dsimp only
  have hmod : ((length - head) % 16).toNat = (length - head).toNat % 16 := UInt32.toNat_mod ..
  have hmiddle := UInt32.toNat_sub_of_le (length - head) ((length - head) % 16)
    (UInt32.le_iff_toNat_le.mpr (by rw [hmod]; exact Nat.mod_le ..))
  have htail := UInt32.toNat_sub_of_le (length - head) (length - head - (length - head) % 16)
    (UInt32.le_iff_toNat_le.mpr (by omega))
  omega

/-- A read answers as many bytes as it has sent. -/
theorem doRead_wp {fd dest_ee length : UInt32} (hquiet : w.Quiet .fileio) :
    (doRead L fd dest_ee length).wp (watch L .fileio) Read w := by
  have hoffset : (dest_ee &&& 0xF).toNat < 16 := by
    rw [UInt32.toNat_and]
    exact Nat.lt_of_le_of_lt Nat.and_le_right (by decide)
  unfold doRead
  split
  · exact read_none hquiet
  dsimp only
  generalize dest_ee &&& 0xF = offset at hoffset ⊢
  -- what is read goes behind the offset
  have hbehind : ∀ n : UInt32, offset.toNat + n.toNat ≤ 32 →
      L.Owns .fileio (L.edge + offset) n.toNat := by
    intro n hn
    have hsub := Layout.Owns.sub L.edge_own hn
    rwa [UInt32.ofNat_toNat] at hsub
  split
  next hlength =>
    have hlen : length.toNat < 16 := UInt32.lt_iff_toNat_lt.mp hlength
    have hsum : (offset + length).toNat = offset.toNat + length.toNat := by
      rw [UInt32.toNat_add]
      omega
    have hblock : (alignUp16 (offset + length)).toNat =
        (offset.toNat + length.toNat + 15) / 16 * 16 := by
      rw [toNat_alignUp16 (by omega), hsum]
    rw [Prog.wp_bind, wp_store]
    refine ⟨⟨hquiet, Layout.Owns.take L.edge_own ?_⟩, ?_⟩
    · rw [zeros, List.length_replicate]
      omega
    rw [Prog.wp_bind, wp_call]
    refine ⟨?_, fun got => ?_⟩
    · rintro b ⟨⟩
      exact ⟨hquiet, hbehind length (by omega)⟩
    split
    · exact read_none hquiet
    · have hgot := toNat_got (got.bound _ rfl)
      have hcount := ofNat_got (got.bound _ rfl)
      rw [Prog.wp_bind]
      refine wp_sendAndWait hquiet L.edge_own (by omega) (by omega) ?_
      refine read_one (.inr rfl) ?_
      rw [← hcount]
      exact carry_block (by omega)
  next hlength =>
    have hlen : 16 ≤ length.toNat := Nat.not_lt.mp fun hlt =>
      hlength (UInt32.lt_iff_toNat_lt.mpr hlt)
    have hhead := toNat_head hoffset
    generalize (16 - offset) &&& 0xF = head at hhead ⊢
    obtain ⟨hsplit, htail⟩ := toNat_split length head (by omega)
    have hlength := length.toNat_lt
    split
    next hne =>
      rw [Prog.wp_bind, wp_store]
      refine ⟨⟨hquiet, Layout.Owns.take L.edge_own (by decide)⟩, ?_⟩
      rw [Prog.wp_bind, wp_call]
      refine ⟨?_, fun got => ?_⟩
      · rintro b ⟨⟩
        exact ⟨hquiet, hbehind head (by omega)⟩
      split
      · exact read_none hquiet
      · have hgot := toNat_got (got.bound _ rfl)
        have hpos : head.toNat ≠ 0 := fun hzero => hne (UInt32.toNat_inj.mp hzero)
        have hcarry : Carry (w.sent ++ [transferOf L.edge (dest_ee - offset) 16]) dest_ee
            (UInt32.ofNat got.value.toNat).toNat := carry_block (show _ ≤ 16 by omega)
        rw [Prog.wp_bind]
        refine wp_sendAndWait hquiet L.edge_own (by decide) (by decide) ?_
        split
        · exact read_one (.inr rfl) hcarry
        · exact readMiddle_wp (.inr rfl) hcarry rfl htail (by rw [UInt32.toNat_zero]; omega)
    next heq =>
      refine readMiddle_wp hquiet carry_zero (UInt32.add_zero _).symm htail ?_
      rw [UInt32.toNat_zero]
      omega

/-- **FILEIO**: what it says it has delivered is carried by the transfers it has handed over. -/
theorem serve_wp {fno : UInt32} (hquiet : w.Quiet .fileio) :
    (serve L fno).wp (watch L .fileio) (Delivered .fileio) w := by
  unfold serve
  dsimp only
  split
  · exact ⟨hquiet, List.forall_mem_nil _⟩
  split
  · simp only [Prog.wp_bind, wp_loadWord, wp_call]
    exact fun _ => ⟨fun _ h => (by cases h), fun _ => ⟨hquiet, List.forall_mem_nil _⟩⟩
  split
  · simp only [Prog.wp_bind, wp_loadWord, wp_call]
    exact fun _ => ⟨fun _ h => (by cases h), fun _ => ⟨hquiet, List.forall_mem_nil _⟩⟩
  split
  · simp only [Prog.wp_bind, wp_loadWord]
    exact fun _ _ _ => Prog.wp_mono (doRead_wp hquiet) fun _ _ h => h
  split
  · simp only [Prog.wp_bind, wp_loadWord, wp_call]
    exact fun _ _ _ => ⟨fun _ h => (by cases h), fun _ => ⟨hquiet, List.forall_mem_nil _⟩⟩
  split
  · simp only [Prog.wp_bind, wp_loadWord, wp_call]
    refine fun bytes => ⟨?_, fun r => ?_⟩
    · rintro b ⟨⟩
      exact ⟨hquiet, Layout.Owns.take L.statBlock_own (show kStatBytes.toNat ≤ 0x30 by decide)⟩
    · split
      · rw [Prog.wp_bind]
        refine wp_sendAndWait hquiet L.statBlock_own (by decide) (by decide) ?_
        refine ⟨.inr rfl, fun d hd => ?_⟩
        obtain rfl := List.mem_singleton.mp hd
        exact carry_last (k := 0) (UInt32.add_zero _)
          (show 0 + kStatBytes.toNat ≤ kStatBytes.toNat by decide)
      · exact ⟨hquiet, List.forall_mem_nil _⟩
  · exact ⟨hquiet, List.forall_mem_nil _⟩

end PS2Bios.Servers.Fileio
