import PS2Bios.Mcman.Cards

/-!
# What a card may announce

The arrays a page, a cluster and an entry are read into have fixed sizes, and how much is stored in
them is what the card announces: its geometry reply the size of a page, its superblock that and the
pages of a cluster. Neither is compared with the arrays. `Fitting` says of a reply that what it
announces fits; from a card that sends no other nothing is stored outside an array, whatever it
replies otherwise and whatever the driver is called for (`serveAll_inside`).
-/

namespace PS2Bios.Mcman

open Bytes

/-! ### Sizes -/

/-- A page of so many bytes is read, and into an array of `kPageBytes`. -/
def PageFits (page_bytes : UInt32) : Prop :=
  0 < chunksOf page_bytes ∧ chunksOf page_bytes * kChunkBytes ≤ kPageBytes

/-- Pages of so many bytes fit an array of `kPageBytes`, so many of them one of `kClusterBytes`. -/
def SizesFit (page_bytes pages_per_cluster : UInt32) : Prop :=
  chunksOf page_bytes * kChunkBytes ≤ kPageBytes ∧
    ∀ k < pages_per_cluster.toNat, chunksOf page_bytes = 0 ∨
      (UInt32.ofNat k * page_bytes).toNat + chunksOf page_bytes * kChunkBytes ≤ kClusterBytes

/-- The sizes a port's superblock gave fit the buffers. -/
def Port.Fits (p : Port) : Prop := SizesFit p.page_bytes p.pages_per_cluster

/-- What a reply announces fits: a geometry reply that is believed, or a page 0 with the
identifier. -/
structure Fitting (port : Fin kPorts) (frames : List Sent) (r : Transferred) : Prop where
  geometry : kindOf frames = .geometry → r.Good → ∀ flags page_bytes,
    geometryOf r = some (flags, page_bytes) → PageFits page_bytes
  superblock : kindOf frames = .setPage → pageIn frames = 0 → 0 < chunksIn frames →
    Hit frames r → bytesAt (r.rx 1) 4 8 = kIdentifierHead →
    SizesFit (UInt32.ofNat (readHalf (r.rx 1) (4 + 0x28)))
      (UInt32.ofNat (readHalf (r.rx 1) (4 + 0x2A)))

/-- The monitor of a card whose sizes fit. -/
abbrev inside : Monitor Reply (Frame → ℕ) := watching Fitting False

variable {port : Fin kPorts} {state : Port} {misses : Frame → ℕ}

/-! ### Clusters and entries -/

/-- A page read whose outcome does not matter. -/
theorem readPage_inside {n offset : ℕ} {l : Layout} {page : UInt32} {into : Block n}
    {Q : ℤ × Block n → (Frame → ℕ) → Prop}
    (h : l.chunks = 0 ∨ offset + l.chunks * kChunkBytes ≤ n) (hQ : ∀ r misses', Q r misses') :
    (readPage l port page into offset).wp inside Q misses :=
  readPage_wp (fun _ => h) nofun (fun _ _ _ _ _ _ => hQ _ _) fun _ _ => hQ _ _

/-- The pages of a cluster fit its buffer. -/
theorem readPages_inside {absolute : UInt32} {left k : ℕ} {into : Block kClusterBytes}
    {Q : Bool × Block kClusterBytes → (Frame → ℕ) → Prop} (h : state.Fits)
    (hk : k + left ≤ state.pages_per_cluster.toNat) (hQ : ∀ r misses', Q r misses') :
    (readPages state port absolute left k into).wp inside Q misses := by
  induction left generalizing k into misses with
  | zero => exact hQ _ _
  | succ left ih =>
    rw [readPages, Prog.wp_bind]
    refine readPage_inside (h.2 k (by omega)) fun ⟨read, into⟩ misses' => ?_
    dsimp only
    split
    · exact hQ _ _
    · exact ih (by omega)

theorem readCluster_inside {absolute : UInt32} {into : Block kClusterBytes}
    {Q : Bool × Block kClusterBytes → (Frame → ℕ) → Prop} (h : state.Fits)
    (hQ : ∀ r misses', Q r misses') :
    (readCluster state port absolute into).wp inside Q misses :=
  readPages_inside h (Nat.le_of_eq (Nat.zero_add _)) hQ

/-- Both tables that a cluster is looked up in are read inside the buffer. -/
theorem nextCluster_inside {cluster : UInt32} {into : Block kClusterBytes}
    {Q : Option UInt32 × Block kClusterBytes → (Frame → ℕ) → Prop} (h : state.Fits)
    (hQ : ∀ r misses', Q r misses') :
    (nextCluster state port cluster into).wp inside Q misses := by
  unfold nextCluster
  dsimp only
  split
  · split
    · exact hQ _ _
    · rw [Prog.wp_bind]
      refine readCluster_inside h fun ⟨good, into⟩ misses' => ?_
      dsimp only
      split
      · rw [Prog.wp_bind]
        refine readCluster_inside h fun ⟨good, into⟩ misses' => ?_
        dsimp only
        split
        · split
          · exact hQ _ _
          · exact hQ _ _
        · exact hQ _ _
      · exact hQ _ _
  · exact hQ _ _

/-- A walk along a chain reads inside the buffer, however long it is. -/
theorem walk_inside {steps : ℕ} {cluster : UInt32} {into : Block kClusterBytes}
    {Q : Option UInt32 × Block kClusterBytes → (Frame → ℕ) → Prop} (h : state.Fits)
    (hQ : ∀ r misses', Q r misses') :
    (walk state port steps cluster into).wp inside Q misses := by
  induction steps generalizing cluster into misses with
  | zero => exact hQ _ _
  | succ steps ih =>
    rw [walk, Prog.wp_bind]
    refine nextCluster_inside h fun ⟨next, into⟩ misses' => ?_
    cases next with
    | none => exact hQ _ _
    | some next => exact ih

/-- An entry is read inside the buffer of its cluster. -/
theorem directoryEntry_inside {cluster index : UInt32} {b : Buffers}
    {Q : Bool × Buffers → (Frame → ℕ) → Prop} (h : state.Fits) (hQ : ∀ r misses', Q r misses') :
    (directoryEntry state port cluster index b).wp inside Q misses := by
  rw [directoryEntry, Prog.wp_bind]
  refine walk_inside h fun ⟨at?, into⟩ misses' => ?_
  cases at? with
  | none => exact hQ _ _
  | some walk =>
    dsimp only
    rw [Prog.wp_bind]
    refine readCluster_inside h fun ⟨good, into⟩ misses' => ?_
    dsimp only
    split
    · rw [Block.store_eq (Nat.le_of_eq (by rw [Block.length_bytes, Nat.zero_add]))]
      exact hQ _ _
    · exact hQ _ _

/-! ### Mounting -/

/-- What comes of mounting: a card that fits is mounted, or none is. -/
def Outcome (r : ℤ × Port × Buffers) : Prop :=
  r.1 = kOk ∧ r.2.1.mounted = true ∧ r.2.1.Fits ∨ r.1 < kCardChanged ∧ r.2.1.mounted = false

theorem Outcome.refused {code : ℤ} {b : Buffers} (hcode : code < kCardChanged)
    (hnot : state.mounted = false) : Outcome (code, state, b) :=
  .inr ⟨hcode, hnot⟩

/-- The root's first two entries are read inside, and only a card whose sizes fit is mounted. -/
theorem mountRoot_inside {b : Buffers} (h : state.Fits) (hnot : state.mounted = false) :
    (mountRoot state port b).wp inside (fun r _ => Outcome r) misses := by
  rw [mountRoot, Prog.wp_bind]
  refine directoryEntry_inside h fun ⟨found, b⟩ misses' => ?_
  dsimp only
  split
  · exact .refused (by decide) hnot
  · split
    · exact .refused (by decide) hnot
    · rw [Prog.wp_bind]
      refine directoryEntry_inside h fun ⟨found, b⟩ misses' => ?_
      dsimp only
      split
      · exact .refused (by decide) hnot
      · split
        · exact .refused (by decide) hnot
        · exact .inl ⟨rfl, rfl, h⟩

/-- The pages of the spare block are read inside. -/
theorem mountJournal_inside {pages_per_block : UInt32} {b : Buffers} (h : state.Fits)
    (hnot : state.mounted = false) :
    (mountJournal state port pages_per_block b).wp inside (fun r _ => Outcome r) misses := by
  have hpage : state.toLayout.chunks = 0 ∨ 0 + state.toLayout.chunks * kChunkBytes ≤ kPageBytes :=
    .inr (by rw [Nat.zero_add]; exact h.1)
  rw [mountJournal, Prog.wp_bind, Prog.wp_op]
  refine ⟨nofun, fun garbage _ => ?_⟩
  rw [Prog.wp_bind]
  refine readPage_inside hpage fun ⟨read, journal⟩ misses' => ?_
  dsimp only
  split
  · exact .refused (by decide) hnot
  · rw [Prog.wp_bind]
    refine readPage_inside hpage fun ⟨read, journal⟩ misses' => ?_
    dsimp only
    split
    · exact .refused (by decide) hnot
    · exact mountRoot_inside h hnot

/-- The first page decides the sizes, and a card whose sizes do not fit is not mounted. -/
theorem mountPage_inside {b : Buffers} (h : PageFits state.page_bytes)
    (hnot : state.mounted = false) :
    (mountPage state port b).wp inside (fun r _ => Outcome r) misses := by
  rw [mountPage, Prog.wp_bind, Prog.wp_op]
  refine ⟨nofun, fun garbage _ => ?_⟩
  rw [Prog.wp_bind]
  refine readPage_wp (fun _ => .inr (by rw [Nat.zero_add]; exact h.2)) nofun
    (fun r misses' hlt hR hhit _ => ?_) fun misses' _ => ?_
  · dsimp only
    rw [if_neg (by decide), if_neg (not_not.mpr rfl)]
    split
    · exact .refused (by decide) hnot
    next hidentifier =>
      -- the fields are all in the page's first chunk
      have hbyte : ∀ i < kChunkBytes,
          write garbage 0 (pageData r state.toLayout.chunks) i = r.rx 1 (4 + i) := by
        intro i hi
        have hwrite := write_pageData r garbage 0 h.1 hi
        rwa [Nat.zero_mul, Nat.zero_add, Nat.zero_add] at hwrite
      have hfits := hR.superblock (kindOf_pageBatch (Nat.le_of_lt hlt))
        (pageIn_pageBatch (Nat.le_of_lt hlt))
        (by rw [chunksIn_pageBatch (Nat.le_of_lt hlt)]; exact h.1) hhit ?_
      · have hhalf : ∀ i, i + 1 < kChunkBytes →
            readHalf (write garbage 0 (pageData r state.toLayout.chunks)) i =
              readHalf (r.rx 1) (4 + i) := by
          intro i hi
          rw [readHalf, hbyte i (by omega), hbyte (i + 1) hi]
          rfl
        rw [Block.store_eq (Nat.le_of_eq (by rw [Block.length_bytes, Nat.zero_add]))]
        refine mountJournal_inside ?_ hnot
        rw [← hhalf 0x28 (by decide), ← hhalf 0x2A (by decide)] at hfits
        exact hfits
      · rw [← not_not.mp hidentifier]
        refine bytesAt_congr fun i hi => ?_
        rw [Nat.zero_add]
        exact (hbyte i (Nat.lt_trans hi (by decide))).symm
  · exact .refused (by decide) hnot

/-- A mount stays inside, whatever the card replies. -/
theorem mount_inside {b : Buffers} :
    (mount state port b).wp inside (fun r _ => Outcome r) misses := by
  rw [mount, Prog.wp_bind]
  refine attempt_wp (fun r => .rfl) Nat.zero_lt_one (show 1 < kMaxFrames by decide) nofun
    (fun r ⟨flags, page_bytes⟩ misses' hR hgood hbelieved _ => ?_) fun misses' _ => ?_
  · exact mountPage_inside (hR.geometry rfl hgood flags page_bytes hbelieved) rfl
  · exact .refused (by decide) rfl

/-! ### Calls -/

/-- What is mounted fits. -/
def State.Sound (s : State) : Prop := ∀ port, (s.ports port).mounted = true → (s.ports port).Fits

variable {s : State}

/-- A port is sound where it is not mounted or its sizes fit. -/
theorem State.Sound.setPort (hs : s.Sound) (h : state.mounted = true → state.Fits) :
    (s.setPort port state).Sound := by
  intro p hmounted
  by_cases hp : p = port
  · subst hp
    rw [State.setPort_self] at hmounted ⊢
    exact h hmounted
  · rw [State.setPort_of_ne s hp] at hmounted ⊢
    exact hs p hmounted

/-- A ladder that has come to its end; one that has found a card has it mounted. -/
def Detected (port : Fin kPorts) (r : ℤ × State) : Prop :=
  r.2.Sound ∧ (kCardChanged ≤ r.1 → (r.2.ports port).mounted = true)

theorem Detected.refused {code : ℤ} (hs : s.Sound) (hcode : code < kCardChanged) :
    Detected port (code, s) :=
  ⟨hs, fun h => absurd h (Int.not_le.mpr hcode)⟩

/-- A card that is mounted again leaves its port detected. -/
theorem remount_inside (hs : s.Sound) :
    (remount s port).wp inside (fun r _ => Detected port r) misses := by
  rw [remount, Prog.wp_bind]
  refine Prog.wp_mono mount_inside fun ⟨mounted, state, buffers⟩ misses' h => ?_
  rcases h with ⟨rfl, hmounted, hfits⟩ | ⟨hcode, hnot⟩
  · refine ⟨hs.setPort fun _ => hfits, fun _ => ?_⟩
    show ((s.setPort port state).ports port).mounted = true
    rw [State.setPort_self]
    exact hmounted
  · have hne : mounted ≠ kOk := by
      rintro rfl
      exact absurd hcode (show ¬kOk < kCardChanged by decide)
    dsimp only
    rw [if_neg hne]
    exact .refused (hs.setPort fun h => absurd (hnot.symm.trans h) nofun) hcode

/-- Setting the terminator writes past nothing. -/
theorem setTerminator_inside {Q : Bool → (Frame → ℕ) → Prop} (hQ : ∀ r misses', Q r misses') :
    (setTerminator port).wp inside Q misses := by
  rw [setTerminator, Prog.wp_bind]
  refine attempt_wp (fun r => ?_) Nat.zero_lt_one (show 1 < kMaxFrames by decide) nofun
    (fun _ _ _ _ _ _ _ => hQ _ _) fun _ _ => hQ _ _
  refine and_congr_right fun _ => ?_
  show r.rx 0 4 = kAck ↔ _
  split <;> simp [*]

/-- The terminator is set, and then the card mounted. -/
theorem terminated_inside (hs : s.Sound) :
    (do if ← setTerminator port then remount s port else return (kNoTerminator, s)).wp inside
      (fun r _ => Detected port r) misses := by
  rw [Prog.wp_bind]
  refine setTerminator_inside fun done misses' => ?_
  split
  · exact remount_inside hs
  · exact .refused hs (by decide)

/-- The rest of the ladder stays inside and leaves its port detected. -/
theorem ladderFrom_inside {slot : ℤ} {authenticated : Bool} (hs : s.Sound) :
    (ladderFrom s port slot authenticated).wp inside (fun r _ => Detected port r) misses := by
  rw [ladderFrom, Prog.wp_bind]
  refine presence_wp nofun (fun r misses' _ _ _ => ?_) fun misses' _ => .refused hs (by decide)
  dsimp only
  split
  · split
    next hmounted => exact ⟨hs, fun _ => hmounted⟩
    next => exact remount_inside hs
  · split
    · exact terminated_inside hs
    · rw [Prog.wp_bind, Prog.wp_op]
      refine ⟨nofun, fun allowed _ => ?_⟩
      split
      · exact .refused hs (by decide)
      · exact terminated_inside hs

/-- The ladder stays inside and leaves its port detected. -/
theorem detectLadder_inside {slot : ℤ} (hs : s.Sound) :
    (detectLadder s port slot).wp inside (fun r _ => Detected port r) misses := by
  rw [detectLadder, Prog.wp_bind]
  refine probe_wp nofun (fun misses' _ => ?_) fun misses' _ => ?_
  · exact ladderFrom_inside hs
  · rw [if_neg nofun, reset, Prog.wp_bind, Prog.wp_bind]
    have hreset : ∀ (r : Option Transferred) misses',
        Prog.wp inside (if r.isSome = true then do
          let allowed ← Prog.op (Question.authCard port slot)
          if allowed = (0 : ℤ) then return (kNoAuth, s) else ladderFrom s port slot true
        else return (kNoReset, s)) (fun r _ => Detected port r) misses' := by
      intro r misses'
      split
      · rw [Prog.wp_bind, Prog.wp_op]
        refine ⟨nofun, fun allowed _ => ?_⟩
        split
        · exact .refused hs (by decide)
        · exact ladderFrom_inside hs
      · exact .refused hs (by decide)
    exact runBatch_wp (fun _ => hreset _ _) (fun _ _ _ _ => hreset _ _) Nat.zero_lt_one

/-- `detect` as a whole, of a port there is. -/
theorem masked_detected {r : ℤ × State} (h : Detected port r) :
    Detected port (masked r.2 port r.1) := by
  obtain ⟨hs, hmounted⟩ := h
  unfold masked
  split
  next hcode => exact ⟨hs.setPort (hs port), fun _ => by simpa using hmounted hcode⟩
  next =>
    split
    · exact .refused (hs.setPort (hs port)) (by decide)
    · exact .refused (hs.setPort nofun) (by decide)

/-- A detection stays inside, keeps the state sound, and leaves its port detected. -/
theorem detect_inside {p slot : ℤ} (hs : s.Sound) :
    (detect s p slot).wp inside
      (fun r _ => r.2.Sound ∧ ∀ port, portOf p = some port → Detected port r) misses := by
  unfold detect
  split
  next hport => exact ⟨hs, fun port h => absurd (hport.symm.trans h) nofun⟩
  next index hport =>
    rw [Prog.wp_bind]
    refine Prog.wp_mono (detectLadder_inside hs) fun ⟨answer, s⟩ misses' h => ?_
    have hmasked := masked_detected h
    refine ⟨hmasked.1, fun port hp => ?_⟩
    obtain rfl := Option.some.inj (hport.symm.trans hp)
    exact hmasked

/-- A listing reads inside, however many entries it goes through. -/
theorem listFrom_inside {max : ℤ} {bound position : UInt32} {b : Buffers} {records : List Listing}
    {Q : List Listing × UInt32 × Buffers → (Frame → ℕ) → Prop} (h : state.Fits)
    (hQ : ∀ r misses', Q r misses') :
    (listFrom state port max bound position b records).wp inside Q misses := by
  induction hleft : bound.toNat - position.toNat using Nat.strongRecOn
    generalizing position b records misses with
  | ind left ih =>
    subst hleft
    rw [listFrom]
    split
    · split
      next hlt =>
        rw [Prog.wp_bind]
        refine directoryEntry_inside h fun ⟨found, b⟩ misses' => ?_
        dsimp only
        split
        · exact ih _ (bound_falls hlt) rfl
        · exact hQ _ _
      next => exact hQ _ _
    · exact hQ _ _

theorem listPiece_inside {max : ℤ} (hs : s.Sound) (h : (s.ports port).Fits) :
    (listPiece s port max).wp inside (fun r _ => r.2.2.Sound) misses := by
  rw [listPiece, Prog.wp_bind]
  exact listFrom_inside h fun _ _ => hs

/-- A call for a listing stays inside and keeps the state sound. -/
theorem getDir_inside {p slot max : ℤ} {path : Option (List UInt8)} {mode : UInt32}
    (hs : s.Sound) :
    (getDir s p slot path mode max).wp inside (fun r _ => r.2.2.Sound) misses := by
  unfold getDir
  split
  next => exact hs
  next index hport =>
    split
    · exact hs
    · rw [Prog.wp_bind]
      refine Prog.wp_mono (detect_inside hs) fun ⟨found, s⟩ misses' h => ?_
      dsimp only at h ⊢
      split
      · exact h.1
      next hfound =>
        split
        · exact h.1
        · -- what has been found is mounted, and fits
          have hfits : (s.ports index).Fits :=
            h.1 index ((h.2 index hport).2 (Int.not_lt.mp hfound))
          split
          · rw [startListing, Prog.wp_bind, Prog.wp_bind]
            refine directoryEntry_inside hfits fun ⟨found, b⟩ misses' => ?_
            exact listPiece_inside h.1 hfits
          · exact listPiece_inside h.1 hfits

/-- Each call stays inside and keeps the state sound. -/
theorem serve_inside {c : Call} (hs : s.Sound) :
    (serve s c).wp inside (fun r _ => r.2.Sound) misses := by
  cases c with
  | detect p slot =>
    rw [serve, Prog.wp_bind]
    exact Prog.wp_mono (detect_inside hs) fun _ _ h => h.1
  | cardType p => exact hs
  | getDir p slot path mode max =>
    rw [serve, Prog.wp_bind]
    exact Prog.wp_mono (getDir_inside hs) fun _ _ h => h

/-- Any sequence of calls stays inside and keeps the state sound. -/
theorem serveAll_inside {calls : List Call} (hs : s.Sound) :
    (serveAll s calls).wp inside (fun r _ => r.2.Sound) misses := by
  induction calls generalizing s misses with
  | nil => exact hs
  | cons c cs ih =>
    rw [serveAll, Prog.wp_bind]
    refine Prog.wp_mono (serve_inside hs) fun ⟨answer, s⟩ misses' h => ?_
    rw [Prog.wp_bind]
    exact Prog.wp_mono (ih h) fun _ _ h => h

theorem started_sound : started.Sound := nofun

/-- The cards of the slots answer every question in a way that is relied on. -/
theorem Slots.answer_relied {w : Slots}
    (hw : ∀ n port frames, Fitting port frames (w.transfer n port frames)) (n : ℕ)
    (misses : Frame → ℕ) (o : Question) (ho : inside.allows misses o) :
    ∃ r, w.answer n o = some r ∧ inside.relies misses o r := by
  cases o with
  | transfer port frames => exact ⟨_, rfl, hw n port frames, nofun⟩
  | authCard port slot => exact ⟨_, rfl, trivial⟩
  | stack => exact ⟨_, rfl, trivial⟩
  | overrun => exact absurd rfl ho

/-- The driver, whatever it is called for: no store is outside its array, every call returns, and
what is mounted fits; provided that what the cards announce fits. -/
theorem stays_inside (w : Slots)
    (hw : ∀ n port frames, Fitting port frames (w.transfer n port frames)) (calls : List Call) :
    ∃ answers s n, (serveAll started calls).run w.answer 0 = some ((answers, s), n) ∧ s.Sound := by
  obtain ⟨⟨answers, s⟩, n, -, hrun, hsound⟩ := Prog.run_of_wp (w.answer_relied hw)
    (@serveAll_inside fresh started calls started_sound) 0
  exact ⟨answers, s, n, hrun, hsound⟩

/-- The sizes of a card are those of its geometry and those in its page 0. -/
theorem fitting_cardReply {image : Ram} {page_bytes : UInt16} (hpage : PageFits page_bytes.toUInt32)
    (hsizes : bytesAt image 0 8 = kIdentifierHead →
      SizesFit (UInt32.ofNat (readHalf image 0x28)) (UInt32.ofNat (readHalf image 0x2A)))
    (frames : List Sent) : Fitting port frames (cardReply image page_bytes frames) where
  geometry hkind _ flags size h := by
    rw [geometryOf_cardReply hkind, Option.some.injEq, Prod.mk.injEq] at h
    rwa [← h.2]
  superblock hkind hzero _ _ h := by
    have hpage : ∀ i < kChunkBytes,
        (cardReply image page_bytes frames).rx (1 + 0) (4 + i) = image i := fun i hi => by
      have hbyte : (cardReply image page_bytes frames).rx (1 + 0) (4 + i) = _ :=
        cardReply_page hkind 0 hi
      rw [hzero] at hbyte
      simpa using hbyte
    have hhalf : ∀ i, i + 1 < kChunkBytes →
        readHalf ((cardReply image page_bytes frames).rx 1) (4 + i) = readHalf image i :=
      fun i hi => by
        rw [readHalf, readHalf, hpage i (by omega), Nat.add_assoc, hpage (i + 1) hi]
    rw [hhalf 0x28 (by decide), hhalf 0x2A (by decide)]
    refine hsizes (h ▸ (bytesAt_congr fun i hi => ?_).symm)
    rw [hpage i (by rw [kChunkBytes]; omega), Nat.zero_add]

/-- A formatted card is mounted, and its first entry listed. -/
theorem formatted_stays_inside : ∃ answers s n,
    (serveAll started [.detect 0 0, .getDir 0 0 (some [0x2F]) 0 1]).run
        (cardIn formatted 512).answer 0 = some ((answers, s), n) ∧ s.Sound ∧
      answers.map (fun r => (r.1, r.2.map fun l => l.name.take 2)) =
        [(kCardChanged, []), (1, [[0x41, 0]])] := by
  have hpage : PageFits (UInt16.toUInt32 512) := ⟨by decide, by decide⟩
  have hsizes : SizesFit (UInt32.ofNat (readHalf formatted 0x28))
      (UInt32.ofNat (readHalf formatted 0x2A)) := ⟨by decide, by decide⟩
  obtain ⟨answers, s, n, hrun, hsound⟩ := stays_inside (cardIn formatted 512)
    (fun _ _ frames => fitting_cardReply hpage (fun _ => hsizes) frames)
    [.detect 0 0, .getDir 0 0 (some [0x2F]) 0 1]
  refine ⟨answers, s, n, hrun, hsound, ?_⟩
  have hanswers : (((serveAll started [.detect 0 0, .getDir 0 0 (some [0x2F]) 0 1]).run
      (cardIn formatted 512).answer 0).map fun r =>
        r.1.1.map fun r => (r.1, r.2.map fun l => l.name.take 2)) =
        some [(kCardChanged, []), (1, [[0x41, 0]])] := by
    decide +kernel
  rw [hrun] at hanswers
  exact Option.some.inj hanswers

/-- A card whose bytes are all zero, with pages of 1024 bytes. They do not fit, but are read. -/
theorem blank_runs_over : ¬∃ r,
    (serveAll started [.detect 0 0]).run (cardIn (fun _ => 0) 1024).answer 0 = some r := by
  have hrun : ((serveAll started [.detect 0 0]).run
      (cardIn (fun _ => 0) 1024).answer 0).isNone := by
    decide +kernel
  rw [Option.isNone_iff_eq_none.mp hrun]
  exact nofun

end PS2Bios.Mcman
