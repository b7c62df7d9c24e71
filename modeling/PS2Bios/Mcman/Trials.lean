import PS2Bios.Mcman.Card

/-!
# What a card replies

`watching` is the monitor the driver is looked at with. It allows no store outside an array, relies
on what is said of each reply, and counts how often in a row a batch of a kind has missed. A card
may be relied on to be `steady`: no batch misses as often as the driver tries it.

`readPage_wp` is what a page read does under it, whichever card replies.
-/

namespace PS2Bios.Mcman

open Bytes

variable {port : Fin kPorts} {page : UInt32} {frames : List Sent} {l : Layout}

/-! ### Batches as the card sees them -/

/-- What a batch begins with. -/
def kindOf (frames : List Sent) : Frame := (frames.head?.map (·.frame)).getD .reset

/-- The page a batch sets. -/
def pageIn (frames : List Sent) : UInt32 :=
  UInt32.ofNat (readWord (((frames.head?.map (·.payload)).getD []).getD · 0) 0)

/-- How many of a batch's frames read a chunk. -/
def chunksIn (frames : List Sent) : ℕ := frames.countP (·.frame = .readChunk)

/-- A reply gets its batch what it is for. -/
def Hit (frames : List Sent) (r : Transferred) : Prop :=
  r.Good ∧
    match kindOf frames with
    | .probe => r.rx 0 3 ≠ kBusy
    | .presence => r.rx 0 4 ≠ kBusy
    | .setTerminator => r.rx 0 4 = kAck
    | .geometry => (geometryOf r).isSome
    | .setPage => accepts (chunksIn frames) (frames.length - 1) r
    | _ => True

instance (frames : List Sent) (r : Transferred) : Decidable (Hit frames r) := by
  unfold Hit
  cases kindOf frames <;> infer_instance

/-- How many frames a page read takes. -/
def Layout.frameCount (l : Layout) : ℕ := 2 + l.chunks + if l.hasTail then 1 else 0

theorem addFrame_of_lt {which : Frame} {payload : List UInt8} {extra : UInt32}
    (h : frames.length < kMaxFrames) :
    addFrame port which payload extra frames = frames ++ [sentOf port which payload extra] :=
  if_neg (Nat.not_le.mpr h)

/-- As long as the batch has room, each frame goes behind the others. -/
theorem foldl_addFrame {which : Frame} {payload : List UInt8} {extra : UInt32} {n : ℕ}
    (h : frames.length + n ≤ kMaxFrames) :
    (List.replicate n ()).foldl (fun frames _ => addFrame port which payload extra frames) frames =
      frames ++ List.replicate n (sentOf port which payload extra) := by
  induction n generalizing frames with
  | zero => exact (List.append_nil _).symm
  | succ n ih =>
    rw [List.replicate_succ, List.foldl_cons, addFrame_of_lt (by omega),
      ih (by rw [List.length_append, List.length_singleton]; omega), List.append_assoc]
    rfl

/-- A batch takes a frame unless it is full. -/
theorem le_length_addFrame {which : Frame} {payload : List UInt8} {extra : UInt32} :
    min kMaxFrames (frames.length + 1) ≤ (addFrame port which payload extra frames).length := by
  unfold addFrame
  split
  · omega
  · rw [List.length_append, List.length_singleton]
    omega

/-- A batch takes frames until it is full. -/
theorem le_length_foldl_addFrame {which : Frame} {payload : List UInt8} {extra : UInt32} {n : ℕ} :
    min kMaxFrames (frames.length + n) ≤
      ((List.replicate n ()).foldl (fun frames _ => addFrame port which payload extra frames)
        frames).length := by
  induction n generalizing frames with
  | zero => exact Nat.min_le_right _ _
  | succ n ih =>
    have hadd := @le_length_addFrame port frames which payload extra
    refine Nat.le_trans ?_ ih
    dsimp only
    omega

/-- The frames of a page read that is not too long. -/
theorem pageBatch_eq (h : l.frameCount ≤ kMaxFrames) :
    pageBatch l port page =
      sentOf port .setPage (pageArgument page) 0 ::
        (List.replicate l.chunks (sentOf port .readChunk [0x80] 0) ++
          ((if l.hasTail then [sentOf port .readTail [kTailBytes.toUInt8] kTailBytes] else []) ++
            [sentOf port .endRead [] 0])) := by
  unfold Layout.frameCount at h
  have hfirst : addFrame port .setPage (pageArgument page) 0 [] =
      [sentOf port .setPage (pageArgument page) 0] := addFrame_of_lt (by decide)
  unfold pageBatch
  dsimp only
  rw [hfirst, foldl_addFrame (by rw [List.length_singleton]; omega)]
  have hlength : ([sentOf port .setPage (pageArgument page) 0] ++
      List.replicate l.chunks (sentOf port .readChunk [0x80] 0)).length = 1 + l.chunks := by
    rw [List.length_append, List.length_singleton, List.length_replicate]
  split at h
  next htail =>
    have hadd := @addFrame_of_lt port ([sentOf port .setPage (pageArgument page) 0] ++
      List.replicate l.chunks (sentOf port .readChunk [0x80] 0)) .readTail [kTailBytes.toUInt8]
      kTailBytes (by omega)
    rw [if_pos htail, if_pos htail, hadd, addFrame_of_lt, List.append_assoc, List.append_assoc]
    · rfl
    · rw [List.length_append, List.length_singleton]
      omega
  next htail =>
    rw [if_neg htail, if_neg htail, addFrame_of_lt (by omega), List.append_assoc]
    rfl

/-- One that is too long is not sent. -/
theorem le_length_pageBatch (h : kMaxFrames ≤ l.frameCount) :
    kMaxFrames ≤ (pageBatch l port page).length := by
  unfold Layout.frameCount at h
  have hfirst : (addFrame port .setPage (pageArgument page) 0 []).length = 1 := rfl
  have hchunks := @le_length_foldl_addFrame port (addFrame port .setPage (pageArgument page) 0 [])
    .readChunk [0x80] 0 l.chunks
  rw [hfirst] at hchunks
  unfold pageBatch
  dsimp only
  refine Nat.le_trans ?_ le_length_addFrame
  split at h
  next htail =>
    rw [if_pos htail]
    have htail := @le_length_addFrame port
      ((List.replicate l.chunks ()).foldl
        (fun frames _ => addFrame port .readChunk [0x80] 0 frames)
        (addFrame port .setPage (pageArgument page) 0 [])) .readTail [kTailBytes.toUInt8] kTailBytes
    omega
  next htail =>
    rw [if_neg htail]
    omega

theorem length_pageBatch (h : l.frameCount ≤ kMaxFrames) :
    (pageBatch l port page).length = l.frameCount := by
  rw [pageBatch_eq h, Layout.frameCount]
  split <;> simp <;> omega

theorem kindOf_pageBatch (h : l.frameCount ≤ kMaxFrames) :
    kindOf (pageBatch l port page) = .setPage := by
  rw [pageBatch_eq h]
  rfl

theorem chunksIn_pageBatch (h : l.frameCount ≤ kMaxFrames) :
    chunksIn (pageBatch l port page) = l.chunks := by
  rw [pageBatch_eq h, chunksIn]
  split <;> simp [sentOf, List.countP_replicate]

/-- The page a page read sets. -/
theorem pageIn_pageBatch (h : l.frameCount ≤ kMaxFrames) :
    pageIn (pageBatch l port page) = page := by
  have hbyte : ∀ k : UInt32, k.toNat < 32 →
      (page >>> k).toUInt8.toNat = page.toNat / 2 ^ k.toNat % 256 := by
    intro k hk
    rw [UInt32.toNat_toUInt8, UInt32.toNat_shiftRight, Nat.mod_eq_of_lt hk,
      Nat.shiftRight_eq_div_pow]
  have h₁ : (page >>> 8).toUInt8.toNat = page.toNat / 2 ^ 8 % 256 := hbyte 8 (by decide)
  have h₂ : (page >>> 16).toUInt8.toNat = page.toNat / 2 ^ 16 % 256 := hbyte 16 (by decide)
  have h₃ : (page >>> 24).toUInt8.toNat = page.toNat / 2 ^ 24 % 256 := hbyte 24 (by decide)
  have hlt := page.toNat_lt
  rw [pageBatch_eq h]
  refine UInt32.toNat_inj.mp ?_
  show (UInt32.ofNat (page.toUInt8.toNat + 256 * (page >>> 8).toUInt8.toNat +
    65536 * (page >>> 16).toUInt8.toNat + 16777216 * (page >>> 24).toUInt8.toNat)).toNat = _
  rw [h₁, h₂, h₃, UInt32.toNat_toUInt8, UInt32.toNat_ofNat']
  omega

/-! ### Watching -/

variable {R : Fin kPorts → List Sent → Transferred → Prop} {steady : Prop} {misses : Frame → ℕ}

/-- What is relied on, of a reply. -/
def relied (R : Fin kPorts → List Sent → Transferred → Prop) (steady : Prop) (misses : Frame → ℕ) :
    (o : Question) → Reply o → Prop
  | .transfer port frames, r =>
    R port frames r ∧ (steady → Hit frames r ∨ misses (kindOf frames) + 1 < kAttempts)
  | .authCard _ _, _ => True
  | .stack, _ => True
  | .overrun, _ => True

/-- How often batches have missed, now. -/
def counted (misses : Frame → ℕ) : (o : Question) → Reply o → Frame → ℕ
  | .transfer _ frames, r =>
    Function.update misses (kindOf frames)
      (if Hit frames r then 0 else misses (kindOf frames) + 1)
  | .authCard _ _, _ => misses
  | .stack, _ => misses
  | .overrun, _ => misses

/-- What is watched over the driver: that it never writes past an array, as long as each reply is
one that `R` relies on. -/
def watching (R : Fin kPorts → List Sent → Transferred → Prop) (steady : Prop) :
    Monitor Reply (Frame → ℕ) where
  allows _ o := o ≠ .overrun
  relies := relied R steady
  next := counted

/-- A batch that is not full is sent, and its reply is one that is relied on. -/
theorem runBatch_wp {Q : Option Transferred → (Frame → ℕ) → Prop}
    (hrefused : kMaxFrames ≤ frames.length → Q none misses)
    (hsent : frames.length < kMaxFrames → ∀ r, R port frames r →
      (steady → Hit frames r ∨ misses (kindOf frames) + 1 < kAttempts) →
      Q (if r.Good then some r else none) (counted misses (.transfer port frames) r))
    (hpos : 0 < frames.length) :
    (runBatch port frames).wp (watching R steady) Q misses := by
  unfold runBatch
  split
  next h => exact hrefused (h.resolve_left (by omega))
  next h => exact ⟨nofun, fun r hr => hsent (by omega) r hr.1 hr.2⟩

/-- A batch that hits resets its count, one that misses adds to it. -/
theorem counted_transfer {r : Transferred} :
    counted misses (.transfer port frames) r =
      Function.update misses (kindOf frames)
        (if Hit frames r then 0 else misses (kindOf frames) + 1) := rfl

section Attempt

variable {α : Type} {hit : Transferred → Option α} {Q : Option α → (Frame → ℕ) → Prop}

/-- The attempts end with a hit, or have all missed, which a card that stays does not do. -/
theorem attempt_wp_from (hhit : ∀ r, Hit frames r ↔ r.Good ∧ (hit r).isSome)
    (hpos : 0 < frames.length) (hlt : frames.length < kMaxFrames) {n : ℕ}
    (hn : steady → 0 < n ∧ misses (kindOf frames) + n = kAttempts)
    (hsome : ∀ r a misses', R port frames r → r.Good → hit r = some a →
      (steady → misses' = Function.update misses (kindOf frames) 0) → Q (some a) misses')
    (hnone : ∀ misses', ¬steady → Q none misses') :
    (attempt port frames hit n).wp (watching R steady) Q misses := by
  induction n generalizing misses with
  | zero => exact hnone misses fun h => absurd (hn h).1 (Nat.lt_irrefl 0)
  | succ n ih =>
    rw [attempt, Prog.wp_bind]
    refine runBatch_wp (fun hge => absurd hge (Nat.not_le.mpr hlt)) (fun _ r hR hsteady => ?_) hpos
    rw [counted_transfer]
    by_cases hr : Hit frames r
    · obtain ⟨a, ha⟩ := Option.isSome_iff_exists.mp ((hhit r).mp hr).2
      rw [if_pos hr, if_pos ((hhit r).mp hr).1, Option.bind_some, ha]
      exact hsome r a _ hR ((hhit r).mp hr).1 ha fun _ => rfl
    · have hbind : (if r.Good then some r else none).bind hit = none := by
        split
        next hgood =>
          rw [Option.bind_some]
          exact Option.not_isSome_iff_eq_none.mp fun h => hr ((hhit r).mpr ⟨hgood, h⟩)
        next => rfl
      rw [hbind, if_neg hr]
      refine ih (fun h => ?_) fun r a misses' hR hgood ha hmisses => ?_
      · have hmore := (hsteady h).resolve_left hr
        have hsum := (hn h).2
        rw [Function.update_self]
        omega
      · refine hsome r a misses' hR hgood ha fun h => ?_
        rw [hmisses h, Function.update_idem]

/-- A batch that is tried afresh. -/
theorem attempt_wp (hhit : ∀ r, Hit frames r ↔ r.Good ∧ (hit r).isSome)
    (hpos : 0 < frames.length) (hlt : frames.length < kMaxFrames)
    (hfresh : steady → misses (kindOf frames) = 0)
    (hsome : ∀ r a misses', R port frames r → r.Good → hit r = some a →
      (steady → misses' = misses) → Q (some a) misses')
    (hnone : ∀ misses', ¬steady → Q none misses') :
    (attempt port frames hit kAttempts).wp (watching R steady) Q misses := by
  refine attempt_wp_from hhit hpos hlt (fun h => ⟨by decide, by rw [hfresh h, Nat.zero_add]⟩)
    (fun r a misses' hR hgood ha hmisses => hsome r a misses' hR hgood ha fun h => ?_) hnone
  rw [hmisses h, ← hfresh h, Function.update_eq_self]

end Attempt

/-- A probe finds a card that stays. -/
theorem probe_wp {Q : Bool → (Frame → ℕ) → Prop} (hfresh : steady → misses .probe = 0)
    (hthere : ∀ misses', (steady → misses' = misses) → Q true misses')
    (hgone : ∀ misses', ¬steady → Q false misses') :
    (probe port).wp (watching R steady) Q misses := by
  rw [probe, Prog.wp_bind]
  refine attempt_wp (fun r => ?_) (Nat.zero_lt_one) (show 1 < kMaxFrames by decide) hfresh
    (fun _ _ misses' _ _ _ hmisses => hthere misses' hmisses) hgone
  refine and_congr_right fun _ => ?_
  show r.rx 0 3 ≠ kBusy ↔ _
  split <;> simp [*]

/-- The presence of a card that stays is read. -/
theorem presence_wp {Q : Option UInt8 → (Frame → ℕ) → Prop}
    (hfresh : steady → misses .presence = 0)
    (hthere : ∀ r misses', R port (addFrame port .presence [] 0 []) r →
      Hit (addFrame port .presence [] 0 []) r → (steady → misses' = misses) →
      Q (some (r.rx 0 3)) misses')
    (hgone : ∀ misses', ¬steady → Q none misses') :
    (presence port).wp (watching R steady) Q misses := by
  refine attempt_wp (fun r => ?_) Nat.zero_lt_one (show 1 < kMaxFrames by decide) hfresh
    (fun r a misses' hR hgood ha hmisses => ?_) hgone
  · refine and_congr_right fun _ => ?_
    show r.rx 0 4 ≠ kBusy ↔ _
    split <;> simp [*]
  · split at ha
    next hbusy =>
      rw [← ha]
      exact hthere r misses' hR ⟨hgood, hbusy⟩ hmisses
    next => exact absurd ha nofun

/-! ### Reading a page -/

/-- The chunks of a page. -/
def pageData (r : Transferred) (chunks : ℕ) : List UInt8 := (List.range chunks).flatMap (chunk r)

theorem pageData_succ {r : Transferred} {k : ℕ} :
    pageData r (k + 1) = pageData r k ++ chunk r k := by
  simp [pageData, List.range_succ]

@[simp]
theorem length_pageData {r : Transferred} {k : ℕ} : (pageData r k).length = k * kChunkBytes := by
  induction k with
  | zero => rfl
  | succ k ih =>
    rw [pageData_succ, List.length_append, ih, chunk, length_bytesAt, Nat.add_mul, Nat.one_mul]

/-- The bytes of a page are those of its chunks, one behind the other. -/
theorem getElem?_pageData {r : Transferred} {k j i : ℕ} (hj : j < k) (hi : i < kChunkBytes) :
    (pageData r k)[j * kChunkBytes + i]? = some (r.rx (1 + j) (4 + i)) := by
  induction k with
  | zero => exact absurd hj (Nat.not_lt_zero j)
  | succ k ih =>
    rw [pageData_succ]
    rcases Nat.lt_or_ge j k with hlt | hge
    · have hle : (j + 1) * kChunkBytes ≤ k * kChunkBytes := Nat.mul_le_mul_right _ hlt
      rw [Nat.add_mul, Nat.one_mul] at hle
      rw [List.getElem?_append_left (by rw [length_pageData]; omega), ih hlt]
    · obtain rfl : j = k := by omega
      rw [List.getElem?_append_right (by rw [length_pageData]; omega), length_pageData,
        Nat.add_sub_cancel_left, chunk, bytesAt, List.getElem?_map, List.getElem?_range hi]
      rfl

/-- A page's bytes, where they have been put. -/
theorem write_pageData (r : Transferred) (m : Ram) (offset : ℕ) {k j i : ℕ} (hj : j < k)
    (hi : i < kChunkBytes) :
    write m offset (pageData r k) (offset + (j * kChunkBytes + i)) = r.rx (1 + j) (4 + i) :=
  at_write _ _ (getElem?_pageData hj hi)

/-- Chunks that fit are stored. -/
theorem storeChunks_eq {n offset k : ℕ} {r : Transferred} {b : Block n}
    (h : k = 0 ∨ offset + k * kChunkBytes ≤ n) :
    storeChunks r offset k b = pure ⟨write b.ram offset (pageData r k)⟩ := by
  induction k with
  | zero =>
    show pure b = _
    rw [show pageData r 0 = [] from rfl, write_nil]
  | succ k ih =>
    have hfits := h.resolve_left (Nat.succ_ne_zero k)
    have hlength : (chunk r k).length = kChunkBytes := length_bytesAt
    rw [Nat.add_mul, Nat.one_mul] at hfits
    rw [storeChunks, ih (.inr (by omega))]
    show Block.store ⟨write b.ram offset (pageData r k)⟩ (offset + k * kChunkBytes) (chunk r k) = _
    rw [Block.store_eq (by omega), pageData_succ, ← write_append, length_pageData]

variable {n offset : ℕ} {into : Block n} {Q : ℤ × Block n → (Frame → ℕ) → Prop}

/-- Nothing has missed. -/
def fresh : Frame → ℕ := fun _ => 0

/-- So many page reads have missed in a row. -/
def missed (k : ℕ) : Frame → ℕ := Function.update fresh .setPage k

theorem missed_zero : missed 0 = fresh := Function.update_eq_self ..

/-- A card that stays is still there. -/
theorem stillThere_wp {first : Bool} {Q : Bool → (Frame → ℕ) → Prop}
    (hfresh : steady → misses .probe = 0)
    (hthere : ∀ misses', (steady → misses' = misses) → Q true misses')
    (hgone : ∀ misses', ¬steady → Q false misses') :
    (stillThere port first).wp (watching R steady) Q misses := by
  unfold stillThere
  split
  · exact hthere misses fun _ => rfl
  · exact probe_wp hfresh hthere hgone

/-- The attempts that are left. -/
theorem readAttempts_wp {first : Bool} {left : ℕ}
    (hfits : l.frameCount < kMaxFrames → l.chunks = 0 ∨ offset + l.chunks * kChunkBytes ≤ n)
    (hsteady : steady → l.frameCount < kMaxFrames ∧ 0 < left ∧ left ≤ kAttempts ∧
      misses = missed (kAttempts - left))
    (hread : ∀ r misses', l.frameCount < kMaxFrames → R port (pageBatch l port page) r →
      Hit (pageBatch l port page) r → (steady → misses' = fresh) →
      Q (kOk, ⟨write into.ram offset (pageData r l.chunks)⟩) misses')
    (hfailed : ∀ misses', ¬steady → Q (kReadFailed, into) misses') :
    (readAttempts l port page into offset first left).wp (watching R steady) Q misses := by
  induction left generalizing first misses with
  | zero => exact hfailed misses fun h => absurd (hsteady h).2.1 (Nat.lt_irrefl 0)
  | succ left ih =>
    rw [readAttempts, Prog.wp_bind]
    refine stillThere_wp (fun h => ?_) (fun misses' hmisses => ?_) fun misses' hnot => ?_
    · rw [(hsteady h).2.2.2]
      rfl
    · rw [if_pos rfl, Prog.wp_bind]
      rcases Nat.lt_or_ge l.frameCount kMaxFrames with hlt | hge
      · -- the batch is sent
        have hlength : (pageBatch l port page).length = l.frameCount :=
          length_pageBatch (Nat.le_of_lt hlt)
        have hkind : kindOf (pageBatch l port page) = .setPage :=
          kindOf_pageBatch (Nat.le_of_lt hlt)
        have hhit : ∀ r, Hit (pageBatch l port page) r ↔
            r.Good ∧ accepts l.chunks ((pageBatch l port page).length - 1) r := by
          intro r
          rw [Hit, hkind, chunksIn_pageBatch (Nat.le_of_lt hlt)]
        refine runBatch_wp (fun h => absurd h (by omega)) (fun _ r hR htimes => ?_) ?_
        · rw [counted_transfer, hkind]
          by_cases hr : Hit (pageBatch l port page) r
          · rw [if_pos hr, if_pos ((hhit r).mp hr).1]
            dsimp only
            rw [if_pos ((hhit r).mp hr).2, storeChunks_eq (hfits hlt)]
            refine hread r _ hlt hR hr fun h => ?_
            rw [hmisses h, (hsteady h).2.2.2, missed, Function.update_idem]
            exact missed_zero
          · rw [if_neg hr]
            have hnext : (readAttempts l port page into offset false left).wp (watching R steady) Q
                (Function.update misses' .setPage (misses' .setPage + 1)) := by
              refine ih fun h => ?_
              obtain ⟨hlt, hpos, hle, heq⟩ := hsteady h
              have hmore := (htimes h).resolve_left hr
              rw [hkind, hmisses h, heq, missed, Function.update_self] at hmore
              refine ⟨hlt, by omega, by omega, ?_⟩
              rw [hmisses h, heq, missed, Function.update_self, Function.update_idem]
              exact congrArg missed (by omega)
            by_cases hgood : r.Good
            · rw [if_pos hgood]
              dsimp only
              rw [if_neg fun ha => hr ((hhit r).mpr ⟨hgood, ha⟩)]
              exact hnext
            · rw [if_neg hgood]
              exact hnext
        · rw [hlength, Layout.frameCount]
          omega
      · have hlength : kMaxFrames ≤ (pageBatch l port page).length := le_length_pageBatch hge
        refine runBatch_wp (fun _ => ?_) (fun h => absurd h (by omega)) ?_
        · exact ih fun h => absurd (hsteady h).1 (by omega)
        · exact Nat.lt_of_lt_of_le (by decide) hlength
    · exact ih fun h => absurd h hnot

/-- A page read keeps to its array when the page fits it, and puts there what was replied. -/
theorem readPage_wp
    (hfits : l.frameCount < kMaxFrames → l.chunks = 0 ∨ offset + l.chunks * kChunkBytes ≤ n)
    (hsteady : steady → l.frameCount < kMaxFrames ∧ misses = fresh)
    (hread : ∀ r misses', l.frameCount < kMaxFrames → R port (pageBatch l port page) r →
      Hit (pageBatch l port page) r → (steady → misses' = fresh) →
      Q (kOk, ⟨write into.ram offset (pageData r l.chunks)⟩) misses')
    (hfailed : ∀ misses', ¬steady → Q (kReadFailed, into) misses') :
    (readPage l port page into offset).wp (watching R steady) Q misses := by
  refine readAttempts_wp hfits (fun h => ?_) hread hfailed
  exact ⟨(hsteady h).1, by decide, Nat.le_refl _, (hsteady h).2.trans missed_zero.symm⟩

end PS2Bios.Mcman
