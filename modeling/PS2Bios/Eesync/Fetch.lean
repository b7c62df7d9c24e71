import PS2Bios.Eesync.Exchange

/-!
# A fetch that gets its answers

What the kernel makes of its exchanges when each gets its own answer. `fetching` is the view the
kernel has of EE memory: an exchange puts its answer where it was asked to, up to the end of the
last quadword. `stage_wp` then says that a fetch asks for nothing outside the kernel's buffers, and
ends with the file's size and its bytes.
-/

namespace PS2Bios.Eesync

open Sif

variable {S : Site} {r : Request}

/-! ### Answers -/

/-- An answer has no more words than the payload has room for. -/
theorem answerTo_words : (answerTo S r).2 ≤ 4096 := by
  unfold answerTo
  dsimp only
  split
  · exact Nat.le_of_ble_eq_true rfl
  · unfold fillContent
    split
    · exact Nat.le_of_ble_eq_true rfl
    · split
      · exact Nat.le_of_ble_eq_true rfl
      · have hmax : kPayloadBytes = 16384 := rfl
        dsimp only
        omega

/-- An answer lands in whole quadwords. -/
theorem landing_eq : landing S r = 16 * (((answerTo S r).2 + 3) / 4) := by
  have hwords : (answerTo S r).2 ≤ 4096 := answerTo_words
  have hsize : (UInt32.ofNat ((answerTo S r).2 * 4)).toNat = (answerTo S r).2 * 4 :=
    UInt32.toNat_ofNat_of_lt' (show _ < 2 ^ 32 by omega)
  have hquads : (answerTransfer S r).block.quads =
      ((UInt32.ofNat ((answerTo S r).2 * 4)).toNat + 15) / 16 :=
    Link.quads_block (by
      show (UInt32.ofNat ((answerTo S r).2 * 4)).toNat < _
      omega)
  rw [landing, hquads, hsize]
  omega

/-- What is asked for is among what lands. -/
theorem answerTo_length : (answerTo S r).1.length ≤ landing S r := by
  rw [landing_eq]
  unfold answerTo
  dsimp only
  split
  · show (Bytes.wordBytes _ ++ List.replicate 12 0).length ≤ 16 * ((4 + 3) / 4)
    rw [List.length_append, List.length_replicate]
    exact Nat.le_refl 16
  · unfold fillContent
    split
    · exact Nat.le_of_ble_eq_true rfl
    · split
      · exact Nat.le_of_ble_eq_true rfl
      · dsimp only
        rw [List.length_take]
        omega

/-- A window of a file that is no longer than what is left of it. -/
theorem answerTo_content {file : List UInt8} (hfile : S.lookup r.name = some file)
    (hverb : r.verb = kVerbContent) (hlength : r.length ≠ 0)
    (hleft : r.offset.toNat + r.length.toNat ≤ file.length)
    (hmax : r.length.toNat ≤ kPayloadBytes) :
    answerTo S r = ((file.drop r.offset.toNat).take r.length.toNat, (r.length.toNat + 3) / 4) := by
  have hpos : r.length.toNat ≠ 0 := fun hzero => hlength (UInt32.toNat_inj.mp hzero)
  unfold answerTo
  dsimp only
  rw [if_neg (by rw [hverb]; decide), hfile]
  unfold fillContent
  dsimp only
  rw [if_neg (by omega), if_neg (by rintro (hzero | hmore); exacts [hlength hzero, by omega]),
    Nat.min_eq_left hmax]

/-! ### The kernel's view -/

/-- The two memories agree where the kernel has files brought. -/
def Same (S : Site) (ee ee' : UInt32 → UInt8) : Prop := ∀ a, S.buffers a → ee a = ee' a

/-- What a fetch may do: what it exchanges lands in the buffers, and so does what it reads. -/
def allowed (S : Site) : Op → Prop
  | .sifExchange r => physical r.destination = r.destination ∧
      ∀ k < landing S r, S.buffers (r.destination + UInt32.ofNat k)
  | .load a => ∀ k < 4, S.buffers (a + UInt32.ofNat k)
  | .copyBytes _ source n => ∀ k < n, S.buffers (source + UInt32.ofNat k)
  | .clear _ _ => True

/-- The reply to an exchange: what the stub answers has landed, and nothing else has changed. -/
def Relied (S : Site) (memory : UInt32 → UInt8) : (o : Op) → o.Reply → Prop
  | .sifExchange r, (ee : UInt32 → UInt8) => ∃ bytes : List UInt8, bytes.length = landing S r ∧
      (answerTo S r).1 <+: bytes ∧ Same S ee (put memory r.destination bytes)
  | .load a, (w : UInt32) => w = wordAt memory a
  | .copyBytes _ _ _, _ => True
  | .clear _ _, _ => True

/-- The memory after an operation. -/
def seen (memory : UInt32 → UInt8) : (o : Op) → o.Reply → UInt32 → UInt8
  | .sifExchange _, (ee : UInt32 → UInt8) => ee
  | .load _, _ => memory
  | .copyBytes target source n, _ => put memory target (slice memory source n)
  | .clear first last, _ => cleared memory first last

/-- EE memory, as the kernel sees it. -/
def fetching (S : Site) : Monitor Op.Reply (UInt32 → UInt8) where
  allows _ := allowed S
  relies := Relied S
  next := seen

/-- The first bytes of a file are there. -/
def Brought (file : List UInt8) (target : UInt32) (n : ℕ) (memory : UInt32 → UInt8) : Prop :=
  ∀ k x, k < n → file[k]? = some x → memory (target + UInt32.ofNat k) = x

/-- How much of memory a file takes that is brought: whole quadwords when they are aligned. -/
def extent (target : UInt32) (size : ℕ) : ℕ :=
  if target &&& 15 = 0 then (size + 15) / 16 * 16 else size

/-- There is room for a file: in the kernel's buffers, and off `bounce` if it goes through that. -/
def Room (S : Site) (target : UInt32) (size : ℕ) : Prop :=
  (∀ k < extent target size, S.buffers (target + UInt32.ofNat k)) ∧
    (target &&& 15 ≠ 0 → ∀ k < size, ∀ j < kWindow,
      target + UInt32.ofNat k ≠ S.bounce + UInt32.ofNat j)

/-- Nothing else has changed, but `bounce` when the file went through that. -/
def Kept (S : Site) (target : UInt32) (size : ℕ) (before after : UInt32 → UInt8) : Prop :=
  ∀ a, S.buffers a → (∀ k < extent target size, a ≠ target + UInt32.ofNat k) →
    (target &&& 15 ≠ 0 → ∀ j < kWindow, a ≠ S.bounce + UInt32.ofNat j) → after a = before a

/-- A fetch ends with the size of the file, and all of it. -/
def Staged (S : Site) (name : List UInt8) (target : UInt32) (size : UInt32)
    (memory : UInt32 → UInt8) : Prop :=
  size.toNat = (S.lookup (nameField name)).elim 0 List.length ∧
    ∀ file, S.lookup (nameField name) = some file → Brought file target file.length memory

/-- A word of four bytes. -/
theorem wordAt_eq {memory : UInt32 → UInt8} {address : UInt32} {n : ℕ} (hn : n < 2 ^ 32)
    (h : ∀ k x, (Bytes.wordBytes n)[k]? = some x → memory (address + UInt32.ofNat k) = x) :
    wordAt memory address = UInt32.ofNat n := by
  have h0 := h 0 _ rfl
  have h1 := h 1 _ rfl
  have h2 := h 2 _ rfl
  have h3 := h 3 _ rfl
  rw [show UInt32.ofNat 0 = 0 from rfl, UInt32.add_zero] at h0
  unfold wordAt
  rw [h0, show address + 1 = address + UInt32.ofNat 1 from rfl, h1,
    show address + 2 = address + UInt32.ofNat 2 from rfl, h2,
    show address + 3 = address + UInt32.ofNat 3 from rfl, h3]
  simp only [UInt8.toNat_ofNat']
  congr 1
  omega

/-! ### A window of a file -/

section Window

variable {name file : List UInt8} {target : UInt32} {memory : UInt32 → UInt8}

/-- Addresses further on from the same one. -/
theorem add_ofNat_ne {a b : ℕ} (hne : a ≠ b) (ha : a < 2 ^ 32) (hb : b < 2 ^ 32) (base : UInt32) :
    base + UInt32.ofNat a ≠ base + UInt32.ofNat b := by
  intro heq
  have hnat := congrArg UInt32.toNat ((UInt32.add_right_inj base).mp heq)
  rw [UInt32.toNat_ofNat_of_lt' (show a < UInt32.size from ha),
    UInt32.toNat_ofNat_of_lt' (show b < UInt32.size from hb)] at hnat
  exact hne hnat

theorem getElem?_of_begins {l l' : List UInt8} (h : l <+: l') {k : ℕ} {x : UInt8}
    (hx : l[k]? = some x) : l'[k]? = some x := by
  obtain ⟨rest, rfl⟩ := h
  rw [List.getElem?_append_left (List.getElem?_eq_some_iff.mp hx).1]
  exact hx

theorem add_ofNat_add (base : UInt32) (a b : ℕ) :
    base + UInt32.ofNat a + UInt32.ofNat b = base + UInt32.ofNat (a + b) := by
  rw [UInt32.add_assoc, UInt32.ofNat_add]

/-- An exchange may be made where its answer lands in the buffers, and then the answer is there. -/
theorem exchange_wp {verb destination offset length : UInt32} {Q : Unit → (UInt32 → UInt8) → Prop}
    (hroom : ∀ k < landing S ⟨nameField name, verb, physical destination, offset, length⟩,
      S.buffers (physical destination + UInt32.ofNat k))
    (h : ∀ ee bytes,
      bytes.length = landing S ⟨nameField name, verb, physical destination, offset, length⟩ →
      (answerTo S ⟨nameField name, verb, physical destination, offset, length⟩).1 <+: bytes →
        Same S ee (put memory (physical destination) bytes) → Q () ee) :
    (sifExchange name verb destination offset length).wp (fetching S) Q memory := by
  have hphysical : physical (physical destination) = physical destination := by
    unfold physical
    rw [UInt32.and_assoc, UInt32.and_self]
  unfold sifExchange
  rw [Prog.wp_bind, Prog.wp_op]
  refine ⟨⟨hphysical, hroom⟩, fun ee hrelied => ?_⟩
  obtain ⟨bytes, hlen, hprefix, hsame⟩ := hrelied
  exact h ee bytes hlen hprefix hsame

theorem copyBytes_wp {source : UInt32} {n : ℕ} {Q : Unit → (UInt32 → UInt8) → Prop}
    (hroom : ∀ k < n, S.buffers (source + UInt32.ofNat k))
    (h : Q () (put memory target (slice memory source n))) :
    (copyBytes target source n).wp (fetching S) Q memory :=
  ⟨hroom, fun _ _ => h⟩

theorem length_slice {source : UInt32} {n : ℕ} : (slice memory source n).length = n := by
  rw [slice, List.length_map, List.length_range]

theorem getElem?_slice {source : UInt32} {n k : ℕ} (hk : k < n) :
    (slice memory source n)[k]? = some (memory (source + UInt32.ofNat k)) := by
  rw [slice, List.getElem?_map, List.getElem?_range hk]
  rfl

/-- A window is brought to where it was asked to be, and nothing else of the kernel's is written but
the rest of its last quadword. -/
theorem window_wp (hfile : S.lookup (nameField name) = some file) {destination : UInt32}
    {done length : ℕ} (hlength : 0 < length) (hleft : done + length ≤ file.length)
    (hmax : length ≤ kWindow)
    (hroom : ∀ k < (length + 15) / 16 * 16, S.buffers (destination + UInt32.ofNat k))
    {Q : Unit → (UInt32 → UInt8) → Prop}
    (h : ∀ ee,
      (∀ k x, k < length → file[done + k]? = some x → ee (destination + UInt32.ofNat k) = x) →
      (∀ a, S.buffers a → (∀ k < (length + 15) / 16 * 16, a ≠ destination + UInt32.ofNat k) →
        ee a = memory a) → Q () ee) :
    (sifExchange name kVerbContent destination (UInt32.ofNat done) (UInt32.ofNat length)).wp
      (fetching S) Q memory := by
  have hwindow : kWindow = 0x4000 := rfl
  have hsmall := S.small _ _ hfile
  have hphysical : physical destination = destination := by
    have hzero := hroom 0 (by omega)
    rw [show UInt32.ofNat 0 = 0 from rfl, UInt32.add_zero] at hzero
    exact S.buffers_physical _ hzero
  have hdone : (UInt32.ofNat done).toNat = done :=
    UInt32.toNat_ofNat_of_lt' (show done < 2 ^ 32 by omega)
  have hlen : (UInt32.ofNat length).toNat = length :=
    UInt32.toNat_ofNat_of_lt' (show length < 2 ^ 32 by omega)
  -- the answer to the request is the bytes asked for, and the words that hold them
  have hanswer : answerTo S ⟨nameField name, kVerbContent, physical destination,
      UInt32.ofNat done, UInt32.ofNat length⟩ =
        ((file.drop done).take length, (length + 3) / 4) := by
    have hcontent := answerTo_content (S := S) (r := ⟨nameField name, kVerbContent,
      physical destination, UInt32.ofNat done, UInt32.ofNat length⟩) hfile rfl
    dsimp only at hcontent
    rw [hdone, hlen] at hcontent
    refine hcontent (fun hzero => ?_) hleft hmax
    rw [hzero] at hlen
    exact absurd hlen.symm (Nat.ne_of_gt hlength)
  have hlanding : landing S ⟨nameField name, kVerbContent, physical destination,
      UInt32.ofNat done, UInt32.ofNat length⟩ = (length + 15) / 16 * 16 := by
    rw [landing_eq, hanswer]
    dsimp only
    omega
  refine exchange_wp (by rw [hlanding, hphysical]; exact hroom) ?_
  rw [hlanding, hanswer, hphysical]
  -- what lands is the answer, and nothing else is touched
  intro ee bytes hbytes hprefix hsame
  refine h ee (fun k x hk hx => ?_) fun a ha hout => ?_
  · rw [hsame _ (hroom k (by omega))]
    refine put_add (getElem?_of_begins hprefix ?_) (by omega)
    rw [List.getElem?_take_of_lt hk, List.getElem?_drop]
    exact hx
  · rw [hsame a ha]
    exact put_of_apart (by rw [hbytes]; exact hout)

/-- A window that goes where it is to be. -/
theorem aligned_wp (hfile : S.lookup (nameField name) = some file) (haligned : target &&& 15 = 0)
    (hroom : Room S target file.length) {done length : ℕ} (hwhole : 16 ∣ done)
    (hlength : 0 < length) (hleft : done + length ≤ file.length) (hmax : length ≤ kWindow)
    {before : UInt32 → UInt8} (h : Brought file target done memory)
    (hkept : Kept S target file.length before memory) {Q : Unit → (UInt32 → UInt8) → Prop}
    (hQ : ∀ m, Brought file target (done + length) m → Kept S target file.length before m →
      Q () m) :
    (sifExchange name kVerbContent (target + UInt32.ofNat done) (UInt32.ofNat done)
      (UInt32.ofNat length)).wp (fetching S) Q memory := by
  have hwindow : kWindow = 0x4000 := rfl
  have hsmall := S.small _ _ hfile
  have hextent : extent target file.length = (file.length + 15) / 16 * 16 := if_pos haligned
  have hin : ∀ k < (length + 15) / 16 * 16,
      S.buffers (target + UInt32.ofNat done + UInt32.ofNat k) := by
    intro k hk
    rw [add_ofNat_add]
    exact hroom.1 (done + k) (by omega)
  refine window_wp hfile hlength hleft hmax hin fun ee hbrought hout => hQ ee ?_ ?_
  · intro k x hk hx
    rcases Nat.lt_or_ge k done with hold | hnew
    · rw [hout _ (hroom.1 k (by omega)) fun j hj => ?_]
      · exact h k x hold hx
      · rw [add_ofNat_add]
        exact add_ofNat_ne (by omega) (by omega) (by omega) target
    · obtain ⟨j, rfl⟩ := Nat.exists_eq_add_of_le hnew
      rw [← add_ofNat_add]
      exact hbrought j x (by omega) hx
  · intro a ha hoff hbounce
    rw [hout a ha fun j hj => ?_]
    · exact hkept a ha hoff hbounce
    · rw [add_ofNat_add]
      exact hoff (done + j) (by omega)

/-- And one that goes through `bounce`. -/
theorem bounced_wp (hfile : S.lookup (nameField name) = some file) (hmis : target &&& 15 ≠ 0)
    (hroom : Room S target file.length) {done length : ℕ}
    (hlength : 0 < length) (hleft : done + length ≤ file.length) (hmax : length ≤ kWindow)
    {before : UInt32 → UInt8} (h : Brought file target done memory)
    (hkept : Kept S target file.length before memory) {Q : Unit → (UInt32 → UInt8) → Prop}
    (hQ : ∀ m, Brought file target (done + length) m → Kept S target file.length before m →
      Q () m) :
    (do
      sifExchange name kVerbContent S.bounce (UInt32.ofNat done) (UInt32.ofNat length)
      copyBytes (target + UInt32.ofNat done) S.bounce length : Kernel Unit).wp (fetching S) Q
        memory := by
  have hwindow : kWindow = 0x4000 := rfl
  have hsmall := S.small _ _ hfile
  have hextent : extent target file.length = file.length := if_neg hmis
  have hslice : ∀ ee, (slice ee S.bounce length).length = length := fun ee => length_slice
  rw [Prog.wp_bind]
  refine window_wp hfile hlength hleft hmax (fun k hk => S.bounce_buffers k (by omega))
    fun ee hbrought hout => ?_
  refine copyBytes_wp (fun k hk => S.bounce_buffers k (by omega)) (hQ _ ?_ ?_)
  · intro k x hk hx
    rcases Nat.lt_or_ge k done with hold | hnew
    · rw [put_of_apart fun j hj => ?_]
      · rw [hout _ (hroom.1 k (by omega)) fun j hj => hroom.2 hmis k (by omega) j (by omega)]
        exact h k x hold hx
      · rw [hslice] at hj
        rw [add_ofNat_add]
        exact add_ofNat_ne (by omega) (by omega) (by omega) target
    · obtain ⟨j, rfl⟩ := Nat.exists_eq_add_of_le hnew
      rw [← add_ofNat_add, ← hbrought j x (by omega) hx]
      exact put_add (getElem?_slice (by omega)) (by rw [hslice]; omega)
  · intro a ha hoff hbounce
    rw [put_of_apart fun j hj => ?_, hout a ha fun j hj => hbounce hmis j (by omega)]
    · exact hkept a ha hoff hbounce
    · rw [hslice] at hj
      rw [add_ofNat_add]
      exact hoff (done + j) (by omega)

/-- The loop: what it has brought stays, and each turn brings one window more. -/
theorem fetchFile_wp (hfile : S.lookup (nameField name) = some file)
    (hroom : Room S target file.length) {done : ℕ} (hwhole : kWindow ∣ done)
    {before : UInt32 → UInt8} (h : Brought file target done memory)
    (hkept : Kept S target file.length before memory) :
    (fetchFile S name target file.length done).wp (fetching S)
      (fun _ m => Brought file target file.length m ∧ Kept S target file.length before m)
      memory := by
  have hwindow : kWindow = 0x4000 := rfl
  rw [hwindow] at hwhole
  induction hn : file.length - done using Nat.strong_induction_on generalizing done memory with
  | _ n ih =>
  rw [fetchFile]
  split
  next hmore =>
    generalize hlen :
      (if file.length - done < kWindow then file.length - done else kWindow) = length
    have hlength : 0 < length := by split at hlen <;> omega
    have hleft : done + length ≤ file.length := by split at hlen <;> omega
    have hmax : length ≤ kWindow := by split at hlen <;> omega
    have hend : done + length < file.length → length = kWindow := by split at hlen <;> omega
    -- with this window there, the rest is the next turn's
    have hnext : ∀ m, Brought file target (done + length) m →
        Kept S target file.length before m →
        (fetchFile S name target file.length (done + kWindow)).wp (fetching S)
          (fun _ m => Brought file target file.length m ∧ Kept S target file.length before m)
          m := by
      intro m hm hm'
      refine ih (file.length - (done + kWindow)) (by omega) (by omega) (fun k x hk hx => ?_) hm' rfl
      have hlt := (List.getElem?_eq_some_iff.mp hx).1
      exact hm k x (by omega) hx
    split
    next haligned =>
      rw [Prog.wp_bind]
      have hquads : 16 ∣ done := Nat.dvd_trans (by decide) hwhole
      exact aligned_wp hfile haligned hroom hquads hlength hleft hmax h hkept hnext
    next hmis =>
      have hbounced := bounced_wp (Q := fun _ m =>
        (fetchFile S name target file.length (done + kWindow)).wp (fetching S)
          (fun _ m => Brought file target file.length m ∧ Kept S target file.length before m) m)
        hfile hmis hroom hlength hleft hmax h hkept hnext
      rw [Prog.wp_bind] at hbounced
      rw [Prog.wp_bind]
      refine Prog.wp_mono hbounced fun _ m hm => ?_
      rw [Prog.wp_bind]
      exact Prog.wp_mono hm fun _ _ hm' => hm'
  next hdone =>
    refine ⟨fun k x hk hx => h k x ?_ hx, hkept⟩
    have hlt := (List.getElem?_eq_some_iff.mp hx).1
    omega

end Window

/-! ### The size of a file -/

section Size

variable {name : List UInt8} {target : UInt32} {memory : UInt32 → UInt8}

/-- How large the file is that goes by a name. -/
def sizeOf (S : Site) (name : List UInt8) : ℕ := (S.lookup (nameField name)).elim 0 List.length

/-- What the answer to that is. -/
def sizeReply (S : Site) (name : List UInt8) : List UInt8 :=
  Bytes.wordBytes (sizeOf S name) ++ List.replicate 12 0

theorem sizeOf_le : sizeOf S name ≤ 0x400000 := by
  unfold sizeOf
  cases hfile : S.lookup (nameField name) with
  | none => exact Nat.zero_le _
  | some file => exact S.small _ _ hfile

theorem sizeOf_eq {file : List UInt8} (hfile : S.lookup (nameField name) = some file) :
    sizeOf S name = file.length := by
  rw [sizeOf, hfile]
  rfl

/-- The first exchange of a fetch. -/
theorem size_wp {Q : UInt32 → (UInt32 → UInt8) → Prop}
    (h : ∀ ee, (∀ k x, (sizeReply S name)[k]? = some x →
        ee (S.sifReply + UInt32.ofNat k) = x) →
      (∀ a, S.buffers a → (∀ k < 16, a ≠ S.sifReply + UInt32.ofNat k) → ee a = memory a) →
        Q (UInt32.ofNat (sizeOf S name)) ee) :
    (do
      sifExchange name kVerbSize S.sifReply 0 0
      load S.sifReply : Kernel UInt32).wp (fetching S) Q memory := by
  have hphysical : physical S.sifReply = S.sifReply := by
    have hzero := S.sifReply_buffers 0 (by omega)
    rw [show UInt32.ofNat 0 = 0 from rfl, UInt32.add_zero] at hzero
    exact S.buffers_physical _ hzero
  have hanswer : answerTo S ⟨nameField name, kVerbSize, physical S.sifReply, 0, 0⟩ =
      (sizeReply S name, 4) := rfl
  have hlanding : landing S ⟨nameField name, kVerbSize, physical S.sifReply, 0, 0⟩ = 16 := by
    rw [landing_eq, hanswer]
    exact show 16 * ((4 + 3) / 4) = 16 from rfl
  have hsmall : sizeOf S name ≤ 0x400000 := sizeOf_le
  rw [Prog.wp_bind]
  refine exchange_wp (by rw [hlanding, hphysical]; exact S.sifReply_buffers) ?_
  rw [hlanding, hanswer, hphysical]
  intro ee bytes hbytes hprefix hsame
  have hreply : ∀ k x, (sizeReply S name)[k]? = some x →
      ee (S.sifReply + UInt32.ofNat k) = x := by
    intro k x hx
    have hk := (List.getElem?_eq_some_iff.mp (getElem?_of_begins hprefix hx)).1
    rw [hsame _ (S.sifReply_buffers k (by omega))]
    exact put_add (getElem?_of_begins hprefix hx) (by omega)
  refine ⟨fun k hk => S.sifReply_buffers k (by omega), ?_⟩
  rintro size rfl
  have hsize : wordAt ee S.sifReply = UInt32.ofNat (sizeOf S name) := by
    refine wordAt_eq (by omega) fun k x hx => hreply k x ?_
    have hk : k < 4 := (List.getElem?_eq_some_iff.mp hx).1
    rw [sizeReply, List.getElem?_append_left hk]
    exact hx
  show Q (wordAt ee S.sifReply) ee
  rw [hsize]
  refine h ee hreply fun a ha hout => ?_
  rw [hsame a ha]
  exact put_of_apart (by rw [hbytes]; exact hout)

end Size

/-- A fetch has room for the file where it has room for every file. -/
theorem Roomy.room {name : List UInt8} {target : UInt32} {file : List UInt8}
    (h : Roomy S name target) (hfile : S.lookup (nameField name) = some file) :
    Room S target file.length := by
  have hextent : extent target file.length ≤ (file.length + 15) / 16 * 16 := by
    unfold extent
    split <;> omega
  exact ⟨fun k hk => (h file hfile k (by omega)).1,
    fun _ k hk => (h file hfile k (by omega)).2⟩

/-- **A fetch**, as the kernel sees it. -/
theorem stage_wp {name : List UInt8} {target : UInt32} {memory : UInt32 → UInt8}
    (hroomy : Roomy S name target) :
    (stage S name target).wp (fetching S) (Staged S name target) memory := by
  have hsmall : sizeOf S name ≤ 0x400000 := sizeOf_le
  have hnat : (UInt32.ofNat (sizeOf S name)).toNat = sizeOf S name :=
    UInt32.toNat_ofNat_of_lt' (show _ < 2 ^ 32 by omega)
  have hsize := @size_wp S name memory fun size ee =>
    Prog.wp (fetching S) (do
      if size = 0 then
        return 0
      clear target kClearEnd
      fetchFile S name target size.toNat 0
      return size) (Staged S name target) ee
  rw [Prog.wp_bind] at hsize
  unfold stage
  rw [Prog.wp_bind]
  refine Prog.wp_mono (hsize fun ee _ _ => ?_) fun _ ee hee => ?_
  -- a file of no bytes is not fetched
  · split
    next hzero =>
      have hnone : sizeOf S name = 0 := by
        rw [← hnat, hzero]
        rfl
      refine ⟨hnone.symm, fun file hfile k x hk => ?_⟩
      rw [sizeOf_eq hfile] at hnone
      omega
    -- the rest of the sectors is cleared, and then the file is fetched over it
    next hnonzero =>
      rw [Prog.wp_bind]
      refine ⟨trivial, fun _ _ => ?_⟩
      show Prog.wp _ (fetchFile S name target _ 0 >>= fun _ => _) _ _
      rw [Prog.wp_bind, hnat]
      cases hfile : S.lookup (nameField name) with
      | none =>
        have hnone : sizeOf S name = 0 := by
          rw [sizeOf, hfile]
          rfl
        exact absurd (congrArg UInt32.ofNat hnone) hnonzero
      | some file =>
        have hlength := sizeOf_eq hfile
        rw [hlength]
        refine Prog.wp_mono (fetchFile_wp hfile (hroomy.room hfile) (Nat.dvd_zero _)
          (fun k _ hk => absurd hk (Nat.not_lt_zero k)) fun _ _ _ _ => rfl) fun _ m hm => ⟨?_, ?_⟩
        · rw [← hlength, hnat]
          rfl
        · intro file' hfile'
          obtain rfl := Option.some.inj (hfile.symm.trans hfile')
          exact hm.1
  · rw [Prog.wp_bind]
    exact hee

end PS2Bios.Eesync
