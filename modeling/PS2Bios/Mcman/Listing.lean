import Mathlib.Data.List.SplitLengths
import PS2Bios.Mcman.Cards

/-!
# A listing by pieces

`Volume` is a card as it is read: its bytes, page behind page, and the chain of clusters its root
directory lies in. When the card stays in and its page reads succeed (`staying`), an entry is found
where the chain says (`directoryEntry_staying`), and however a listing is split into calls, the
calls write the entries in use behind the two conventional ones, one behind the other
(`listing_by_pieces`).
-/

namespace PS2Bios.Mcman

open Bytes

/-! ### The card -/

/-- A card, and the clusters of its root directory. -/
structure Volume where
  image : Ram
  page_bytes : UInt32
  first_cluster : UInt32
  clusters : ℕ → UInt32
  count : ℕ

namespace Volume

/-- A slot of the root directory: two to a cluster. -/
def slot (v : Volume) (i : ℕ) : Block kEntryBytes where
  ram k := v.image ((v.clusters (i / 2) + v.first_cluster).toNat * kClusterBytes +
    (i % 2 * kEntryBytes + k))

theorem length_inside : 4 + 4 ≤ kEntryBytes := by decide

/-- How many slots are in use, as the first entry has it. -/
def length (v : Volume) : UInt32 := (v.slot 0).word 4 length_inside

/-- What is to be listed of the slots from one on. -/
def listingFrom (v : Volume) (i : ℕ) : List Listing :=
  (((List.range' i (v.length.toNat - i)).map v.slot).filter inUse).map listingOf

/-- The listing: the entries in use behind the first two. -/
def listing (v : Volume) : List Listing := v.listingFrom 2

/-- A word of a cluster. -/
def wordAt (v : Volume) (cluster : UInt32) (i : ℕ) : UInt32 :=
  UInt32.ofNat (readWord v.image (cluster.toNat * kClusterBytes + i * 4))

end Volume

/-- The pages of a cluster have numbers. -/
def Port.InRange (state : Port) (absolute : UInt32) : Prop :=
  absolute.toNat * state.pages_per_cluster.toNat + state.pages_per_cluster.toNat ≤ 2 ^ 32

instance (state : Port) (absolute : UInt32) : Decidable (state.InRange absolute) :=
  inferInstanceAs (Decidable (_ ≤ _))

/-- The allocation table has one cluster behind another. -/
structure Linked (v : Volume) (state : Port) (cluster next : UInt32) : Prop where
  which : (cluster / (per * per)).toNat < 8
  listed : state.indirect ⟨_, which⟩ ≠ 0
  indirect_inRange : state.InRange (state.indirect ⟨_, which⟩)
  table_inRange : state.InRange
    (v.wordAt (state.indirect ⟨_, which⟩) (cluster / per % per).toNat)
  entry : (v.wordAt (v.wordAt (state.indirect ⟨_, which⟩) (cluster / per % per).toNat)
    (cluster % per).toNat).toNat = 2 ^ 31 + next.toNat
  more : next.toNat < 2 ^ 31 - 1

/-- A port has a well-formed card mounted. -/
structure Volume.IsMounted (v : Volume) (state : Port) : Prop where
  mounted : state.mounted = true
  size : state.page_bytes = v.page_bytes
  sent : state.frameCount < kMaxFrames
  page : state.chunks * kChunkBytes = state.page_bytes.toNat
  cluster : state.pages_per_cluster.toNat * state.page_bytes.toNat = kClusterBytes
  first : state.first_cluster = v.first_cluster
  begins : v.clusters 0 = 0
  linked : ∀ i, i + 1 < v.count → Linked v state (v.clusters i) (v.clusters (i + 1))
  inRange : ∀ i < v.count, state.InRange (v.clusters i + v.first_cluster)
  pos : 0 < v.count
  long : v.length.toNat ≤ 2 * v.count

/-- The card has not been out, and a page of it that is read is its own. -/
structure Keeps (v : Volume) (frames : List Sent) (r : Transferred) : Prop where
  terminator : kindOf frames = .presence → Hit frames r → r.rx 0 3 = kAck
  page : kindOf frames = .setPage → Hit frames r → ∀ j < chunksIn frames, ∀ i < kChunkBytes,
    r.rx (1 + j) (4 + i) =
      v.image ((pageIn frames).toNat * v.page_bytes.toNat + (j * kChunkBytes + i))

/-- The monitor of a card that stays in and whose page reads succeed. -/
abbrev staying (v : Volume) : Monitor Reply (Frame → ℕ) := watching (fun _ => Keeps v) True

variable {v : Volume} {port : Fin kPorts} {state : Port}

/-! ### Clusters -/

/-- A page that is read has the image's bytes, as long as the card stays in. -/
theorem readPage_staying {n offset : ℕ} {page : UInt32} {into : Block n}
    {Q : ℤ × Block n → (Frame → ℕ) → Prop} (h : v.IsMounted state)
    (hfits : offset + state.page_bytes.toNat ≤ n)
    (hQ : ∀ into' : Block n,
      (∀ i < state.page_bytes.toNat, into'.ram (offset + i) =
        v.image (page.toNat * state.page_bytes.toNat + i)) →
      (∀ i < offset, into'.ram i = into.ram i) → Q (kOk, into') fresh) :
    (readPage state.toLayout port page into offset).wp (staying v) Q fresh := by
  refine readPage_wp (fun _ => .inr (by rw [h.page]; exact hfits)) (fun _ => ⟨h.sent, rfl⟩)
    (fun r misses' hlt hR hhit hfresh => ?_) fun _ hnot => absurd trivial hnot
  rw [hfresh trivial]
  refine hQ _ (fun i hi => ?_) fun i hi => write_of_not (by omega)
  have hpos : 0 < kChunkBytes := by decide
  have hchunk : i / kChunkBytes < state.chunks := by
    rw [Nat.div_lt_iff_lt_mul hpos, h.page]
    exact hi
  have hread := hR.page (kindOf_pageBatch (Nat.le_of_lt hlt)) hhit (i / kChunkBytes)
    (by rw [chunksIn_pageBatch (Nat.le_of_lt hlt)]; exact hchunk) (i % kChunkBytes)
    (Nat.mod_lt _ hpos)
  have hwrite := write_pageData r into.ram offset hchunk (Nat.mod_lt i hpos)
  rw [Nat.div_add_mod'] at hread hwrite
  rw [pageIn_pageBatch (Nat.le_of_lt hlt), ← h.size] at hread
  exact hwrite.trans hread

/-- A cluster's pages, behind those that have been read. -/
theorem readPages_staying {absolute : UInt32} {left k : ℕ} {into : Block kClusterBytes}
    {Q : Bool × Block kClusterBytes → (Frame → ℕ) → Prop} (h : v.IsMounted state)
    (hrange : state.InRange absolute) (hk : k + left = state.pages_per_cluster.toNat)
    (hinto : ∀ i < k * state.page_bytes.toNat,
      into.ram i = v.image (absolute.toNat * kClusterBytes + i))
    (hQ : ∀ into' : Block kClusterBytes,
      (∀ i < kClusterBytes, into'.ram i = v.image (absolute.toNat * kClusterBytes + i)) →
      Q (true, into') fresh) :
    (readPages state port absolute left k into).wp (staying v) Q fresh := by
  induction left generalizing k into with
  | zero =>
    refine hQ into fun i hi => hinto i ?_
    rw [show k = state.pages_per_cluster.toNat by omega, h.cluster]
    exact hi
  -- the next page lies behind the ones that are read
  | succ left ih =>
    have hcluster := h.cluster
    have hle : (k + 1) * state.page_bytes.toNat ≤ kClusterBytes :=
      hcluster ▸ Nat.mul_le_mul_right _ (by omega)
    rw [Nat.add_mul, Nat.one_mul] at hle
    have hbytes : kClusterBytes = 1024 := rfl
    have hk' : (UInt32.ofNat k).toNat = k := by
      have := state.pages_per_cluster.toNat_lt
      exact UInt32.toNat_ofNat_of_lt' (show k < 2 ^ 32 by omega)
    have hoffset : (UInt32.ofNat k * state.page_bytes).toNat = k * state.page_bytes.toNat := by
      rw [UInt32.toNat_mul, hk']
      exact Nat.mod_eq_of_lt (by omega)
    -- its number on the card
    have hpage : (absolute * state.pages_per_cluster + UInt32.ofNat k).toNat =
        absolute.toNat * state.pages_per_cluster.toNat + k := by
      unfold Port.InRange at hrange
      rw [UInt32.toNat_add, UInt32.toNat_mul, hk']
      omega
    have habsolute : (absolute.toNat * state.pages_per_cluster.toNat + k) * state.page_bytes.toNat =
        absolute.toNat * kClusterBytes + k * state.page_bytes.toNat := by
      rw [Nat.add_mul, Nat.mul_assoc, hcluster]
    rw [readPages, Prog.wp_bind]
    refine readPage_staying h (by rw [hoffset]; exact hle) fun into' hnew hold => ?_
    dsimp only
    rw [if_neg (not_not.mpr rfl)]
    refine ih (by omega) fun i hi => ?_
    rw [Nat.add_mul, Nat.one_mul] at hi
    rw [hoffset] at hnew hold
    rw [hpage, habsolute] at hnew
    -- what has been read stays
    rcases Nat.lt_or_ge i (k * state.page_bytes.toNat) with hlt | hge
    · exact (hold i hlt).trans (hinto i hlt)
    · obtain ⟨j, rfl⟩ := Nat.exists_eq_add_of_le hge
      rw [hnew j (by omega), Nat.add_assoc]

/-- A cluster that is read has the image's bytes, as long as the card stays in. -/
theorem readCluster_staying {absolute : UInt32} {into : Block kClusterBytes}
    {Q : Bool × Block kClusterBytes → (Frame → ℕ) → Prop} (h : v.IsMounted state)
    (hrange : state.InRange absolute)
    (hQ : ∀ into' : Block kClusterBytes,
      (∀ i < kClusterBytes, into'.ram i = v.image (absolute.toNat * kClusterBytes + i)) →
      Q (true, into') fresh) :
    (readCluster state port absolute into).wp (staying v) Q fresh :=
  readPages_staying h hrange (Nat.zero_add _) (fun i hi => absurd hi (by omega)) hQ

/-- A word of a cluster that has been read. -/
theorem word_of_read {cluster : UInt32} {b : Block kClusterBytes} {i : ℕ}
    (hb : ∀ i < kClusterBytes, b.ram i = v.image (cluster.toNat * kClusterBytes + i))
    (hi : i * 4 + 4 ≤ kClusterBytes) : b.word (i * 4) hi = v.wordAt cluster i := by
  unfold Block.word Volume.wordAt readWord
  rw [hb _ (by omega), hb _ (by omega), hb _ (by omega), hb _ (by omega)]
  simp only [Nat.add_assoc]

/-- What an entry of the table says of a cluster that has another behind it. -/
theorem entry_masks {entry next : UInt32} (h : entry.toNat = 2 ^ 31 + next.toNat)
    (hmore : next.toNat < 2 ^ 31 - 1) :
    entry &&& 0x80000000 ≠ 0 ∧ entry &&& 0x7FFFFFFF = next ∧ next ≠ 0x7FFFFFFF := by
  refine ⟨fun hzero => ?_, ?_, ?_⟩
  · have hbit : (entry &&& 0x80000000).toNat.testBit 31 = false :=
      congrArg (fun x : UInt32 => x.toNat.testBit 31) hzero
    rw [UInt32.toNat_and, h, Nat.testBit_and, Nat.testBit_two_pow_add_eq,
      Nat.testBit_lt_two_pow (by omega)] at hbit
    exact absurd hbit (by decide)
  · refine UInt32.toNat_inj.mp ?_
    rw [UInt32.toNat_and, h]
    have hmod := Nat.and_two_pow_sub_one_eq_mod (2 ^ 31 + next.toNat) 31
    refine hmod.trans ?_
    omega
  · rintro rfl
    exact absurd hmore (by decide)

/-- The tables of the image lead to the next cluster. -/
theorem nextCluster_staying {cluster next : UInt32} {into : Block kClusterBytes}
    {Q : Option UInt32 × Block kClusterBytes → (Frame → ℕ) → Prop} (h : v.IsMounted state)
    (hlinked : Linked v state cluster next) (hQ : ∀ into', Q (some next, into') fresh) :
    (nextCluster state port cluster into).wp (staying v) Q fresh := by
  unfold nextCluster
  dsimp only
  rw [dif_pos hlinked.which, if_neg hlinked.listed, Prog.wp_bind]
  refine readCluster_staying h hlinked.indirect_inRange fun into₁ hinto₁ => ?_
  dsimp only
  rw [if_pos rfl, Prog.wp_bind, word_of_read hinto₁]
  refine readCluster_staying h hlinked.table_inRange fun into₂ hinto₂ => ?_
  dsimp only
  obtain ⟨hhigh, hnext, hend⟩ := entry_masks hlinked.entry hlinked.more
  rw [if_pos rfl, word_of_read hinto₂, hnext, if_neg (not_or.mpr ⟨hhigh, hend⟩)]
  exact hQ into₂

/-! ### Entries -/

/-- Along the root's chain. -/
theorem walk_staying {steps i : ℕ} {into : Block kClusterBytes}
    {Q : Option UInt32 × Block kClusterBytes → (Frame → ℕ) → Prop} (h : v.IsMounted state)
    (hi : i + steps < v.count) (hQ : ∀ into', Q (some (v.clusters (i + steps)), into') fresh) :
    (walk state port steps (v.clusters i) into).wp (staying v) Q fresh := by
  induction steps generalizing i into with
  | zero => exact hQ into
  | succ steps ih =>
    rw [walk, Prog.wp_bind]
    refine nextCluster_staying h (h.linked i (by omega)) fun into' => ?_
    refine ih (by omega) fun into'' => ?_
    rw [Nat.add_assoc, Nat.add_comm 1]
    exact hQ into''

/-- What is said of an entry depends on its own bytes only. -/
def SameEntry (b b' : Block kEntryBytes) : Prop := ∀ i < kEntryBytes, b.ram i = b'.ram i

namespace SameEntry

variable {b b' : Block kEntryBytes}

theorem word (h : SameEntry b b') {i : ℕ} (hi : i + 4 ≤ kEntryBytes) :
    b.word i hi = b'.word i hi :=
  congrArg UInt32.ofNat (readWord_congr fun x _ hx => h x (by omega))

theorem half (h : SameEntry b b') {i : ℕ} (hi : i + 2 ≤ kEntryBytes) :
    b.half i hi = b'.half i hi := by
  unfold Block.half readHalf
  rw [h i (by omega), h (i + 1) (by omega)]

theorem bytes (h : SameEntry b b') {i n : ℕ} (hi : i + n ≤ kEntryBytes) :
    b.bytes i n hi = b'.bytes i n hi :=
  bytesAt_congr fun k hk => h (i + k) (by omega)

theorem inUse (h : SameEntry b b') : inUse b = inUse b' := by
  unfold Mcman.inUse
  rw [h.word]

theorem listingOf (h : SameEntry b b') : listingOf b = listingOf b' := by
  unfold Mcman.listingOf
  rw [h.word, h.word, h.word, h.half, h.bytes, h.bytes, h.bytes]

end SameEntry

/-- An entry of the root is in its slot. -/
theorem directoryEntry_staying {index : UInt32} {b : Buffers}
    {Q : Bool × Buffers → (Frame → ℕ) → Prop} (h : v.IsMounted state)
    (hindex : index.toNat < 2 * v.count)
    (hQ : ∀ b' : Buffers, SameEntry b'.entry_buffer (v.slot index.toNat) → Q (true, b') fresh) :
    (directoryEntry state port 0 index b).wp (staying v) Q fresh := by
  have hper : perCluster.toNat = 2 := rfl
  have hdiv : (index / perCluster).toNat = index.toNat / 2 := by rw [UInt32.toNat_div, hper]
  have hmod : (index % perCluster).toNat = index.toNat % 2 := by rw [UInt32.toNat_mod, hper]
  rw [directoryEntry, Prog.wp_bind, ← h.begins]
  refine walk_staying h (by omega) fun cluster_buffer => ?_
  rw [hdiv, Nat.zero_add]
  dsimp only
  rw [Prog.wp_bind, h.first]
  refine readCluster_staying h (h.inRange _ (by omega)) fun cluster_buffer hread => ?_
  dsimp only
  rw [if_pos rfl, Block.store_eq (Nat.le_of_eq (by rw [Block.length_bytes, Nat.zero_add]))]
  unfold Block.bytes
  refine hQ ⟨cluster_buffer, ⟨_⟩⟩ fun i hi => ?_
  have hfits := entry_fits index
  have hcopied := write_bytesAt (m := b.entry_buffer.ram) (r := cluster_buffer.ram) (b := 0)
    (a := (index % perCluster).toNat * kEntryBytes) hi
  rw [Nat.zero_add, hread _ (by omega)] at hcopied
  dsimp only
  rw [hcopied, hmod]
  rfl

/-! ### Pieces -/

theorem Volume.listingFrom_of_ge {i : ℕ} (h : v.length.toNat ≤ i) : v.listingFrom i = [] := by
  rw [listingFrom, Nat.sub_eq_zero_of_le h]
  rfl

/-- A listing from a slot begins with its entry, if that is in use. -/
theorem Volume.listingFrom_of_lt {i : ℕ} (h : i < v.length.toNat) :
    v.listingFrom i =
      (if inUse (v.slot i) then [listingOf (v.slot i)] else []) ++ v.listingFrom (i + 1) := by
  rw [listingFrom, listingFrom, show v.length.toNat - i = v.length.toNat - (i + 1) + 1 by omega,
    List.range'_succ, List.map_cons, List.filter_cons]
  split
  · rfl
  · rfl

/-- The loop writes what comes next, as far as it may, and keeps where it is. -/
theorem listFrom_staying {max : ℕ} {position : UInt32} {b : Buffers} {records : List Listing}
    {Q : List Listing × UInt32 × Buffers → (Frame → ℕ) → Prop} (h : v.IsMounted state)
    (hrecords : records.length ≤ max)
    (hQ : ∀ (position' : UInt32) (b' : Buffers),
      v.listingFrom position'.toNat =
        (v.listingFrom position.toNat).drop (max - records.length) →
      Q (records ++ (v.listingFrom position.toNat).take (max - records.length), position', b')
        fresh) :
    (listFrom state port max v.length position b records).wp (staying v) Q
      fresh := by
  induction hleft : v.length.toNat - position.toNat using Nat.strongRecOn
    generalizing position b records with
  | ind left ih =>
    subst hleft
    rw [listFrom]
    split
    next hmore =>
      split
      next hlt =>
        have hlt' := UInt32.lt_iff_toNat_lt.mp hlt
        have hlong := h.long
        have hnext : (position + 1).toNat = position.toNat + 1 := by
          have := v.length.toNat_lt
          have hone : (1 : UInt32).toNat = 1 := rfl
          rw [UInt32.toNat_add, hone]
          omega
        rw [Prog.wp_bind]
        refine directoryEntry_staying h (by omega) fun b' hsame => ?_
        dsimp only
        rw [if_pos rfl, hsame.inUse, hsame.listingOf]
        have hlisting := v.listingFrom_of_lt hlt'
        split
        next huse =>
          -- an entry that is listed
          rw [if_pos huse] at hlisting
          refine ih _ (bound_falls hlt) ?_ (fun position' b'' heq => ?_) rfl
          · rw [List.length_append, List.length_singleton]
            omega
          · rw [hnext, List.length_append, List.length_singleton] at heq
            rw [hnext, List.length_append, List.length_singleton, List.append_assoc]
            have hcount : max - records.length = max - (records.length + 1) + 1 := by omega
            rw [hlisting, hcount] at hQ
            exact hQ position' b'' heq
        next huse =>
          rw [if_neg huse] at hlisting
          refine ih _ (bound_falls hlt) hrecords (fun position' b'' heq => ?_) rfl
          rw [hnext] at heq ⊢
          rw [hlisting] at hQ
          exact hQ position' b'' heq
      next hge =>
        have hnil := v.listingFrom_of_ge
          (Nat.not_lt.mp fun hlt => hge (UInt32.lt_iff_toNat_lt.mpr hlt))
        rw [hnil, List.take_nil, List.append_nil] at hQ
        exact hQ position b (by rw [hnil, List.drop_nil])
    next hfull =>
      rw [show max - records.length = 0 by omega, List.take_zero, List.append_nil] at hQ
      exact hQ position b rfl

/-! ### Calls -/

variable {s : State} {p slot : ℤ}

/-- Whether a volume is mounted does not depend on the port's type. -/
theorem Volume.IsMounted.retype (h : v.IsMounted state) (type : UInt8) :
    v.IsMounted { state with type } :=
  ⟨h.mounted, h.size, h.sent, h.page, h.cluster, h.first, h.begins,
    fun i hi => ⟨(h.linked i hi).which, (h.linked i hi).listed, (h.linked i hi).indirect_inRange,
      (h.linked i hi).table_inRange, (h.linked i hi).entry, (h.linked i hi).more⟩,
    h.inRange, h.pos, h.long⟩

/-- The same card, still mounted. -/
theorem detect_staying {Q : ℤ × State → (Frame → ℕ) → Prop} (hport : portOf p = some port)
    (h : v.IsMounted (s.ports port))
    (hQ : Q (kOk, s.setPort port { s.ports port with type := 2 }) fresh) :
    (detect s p slot).wp (staying v) Q fresh := by
  unfold detect
  rw [hport]
  dsimp only
  rw [Prog.wp_bind, detectLadder, Prog.wp_bind]
  refine probe_wp (fun _ => rfl) (fun misses' hmisses => ?_) fun _ hnot => absurd trivial hnot
  rw [hmisses trivial, if_pos rfl, ladderFrom, Prog.wp_bind]
  refine presence_wp (fun _ => rfl) (fun r misses' hR hhit hmisses => ?_)
    fun _ hnot => absurd trivial hnot
  rw [hmisses trivial, hR.terminator rfl hhit]
  dsimp only
  rw [if_pos rfl, if_pos h.mounted]
  exact hQ

/-- A port at a place of its listing. -/
structure State.IsAt (s : State) (v : Volume) (port : Fin kPorts) (rest : List Listing) : Prop where
  mounted : v.IsMounted (s.ports port)
  bound : s.listing_bound port = v.length
  rest : v.listingFrom (s.listing_position port).toNat = rest

/-- One piece, of what is left of a listing. -/
theorem listPiece_staying {max : ℕ} {rest : List Listing}
    {Q : ℤ × List Listing × State → (Frame → ℕ) → Prop} (h : s.IsAt v port rest)
    (hQ : ∀ s' : State, s'.IsAt v port (rest.drop max) →
      Q ((rest.take max).length, rest.take max, s') fresh) :
    (listPiece s port max).wp (staying v) Q fresh := by
  rw [listPiece, Prog.wp_bind, h.bound]
  refine listFrom_staying h.mounted (Nat.zero_le _) fun position' b' hrest => ?_
  rw [h.rest] at hrest ⊢
  refine hQ _ ⟨h.mounted, h.bound, ?_⟩
  dsimp only
  rw [Function.update_self]
  exact hrest

/-- What a call of `getDir` answers of a listing. -/
def answerOf (l : List Listing) : ℤ × List Listing := (l.length, l)

variable {path : List UInt8} {mode : UInt32}

/-- A call that goes on with a listing. -/
theorem getDir_continues {max : ℕ} {rest : List Listing}
    {Q : (ℤ × List Listing) × State → (Frame → ℕ) → Prop} (hport : portOf p = some port)
    (hpath : path.head? = some 0x2F) (hmax : 0 < max) (hmode : mode ≠ 0) (h : s.IsAt v port rest)
    (hQ : ∀ s' : State, s'.IsAt v port (rest.drop max) →
      Q (answerOf (rest.take max), s') fresh) :
    (serve s (.getDir p slot (some path) mode max)).wp (staying v) Q
      fresh := by
  rw [serve, Prog.wp_bind, getDir, hport]
  dsimp only
  rw [if_neg (by omega), Prog.wp_bind]
  refine detect_staying hport h.mounted ?_
  dsimp only
  rw [if_neg (by decide), if_neg (by rw [Option.bind_some, hpath]; exact not_not.mpr rfl),
    if_neg hmode]
  have hat : (s.setPort port { s.ports port with type := 2 }).IsAt v port rest := by
    refine ⟨?_, h.bound, h.rest⟩
    rw [State.setPort_self]
    exact h.mounted.retype 2
  exact listPiece_staying hat hQ

/-- The call that starts one. -/
theorem getDir_starts {max : ℕ} {Q : (ℤ × List Listing) × State → (Frame → ℕ) → Prop}
    (hport : portOf p = some port) (hpath : path.head? = some 0x2F) (hmax : 0 < max)
    (h : v.IsMounted (s.ports port))
    (hQ : ∀ s' : State, s'.IsAt v port (v.listing.drop max) →
      Q (answerOf (v.listing.take max), s') fresh) :
    (serve s (.getDir p slot (some path) 0 max)).wp (staying v) Q fresh := by
  rw [serve, Prog.wp_bind, getDir, hport]
  dsimp only
  rw [if_neg (by omega), Prog.wp_bind]
  refine detect_staying hport h ?_
  dsimp only
  rw [if_neg (by decide), if_neg (by rw [Option.bind_some, hpath]; exact not_not.mpr rfl),
    if_pos rfl, startListing, Prog.wp_bind, Prog.wp_bind, State.setPort_self]
  refine directoryEntry_staying (h.retype 2) (show 0 < _ by have := h.pos; omega)
    fun b' hsame => ?_
  dsimp only
  rw [if_pos rfl, hsame.word]
  refine listPiece_staying ⟨?_, ?_, ?_⟩ hQ
  · show v.IsMounted ((s.setPort port { s.ports port with type := 2 }).ports port)
    rw [State.setPort_self]
    exact h.retype 2
  · exact Function.update_self ..
  · dsimp only
    rw [Function.update_self]
    rfl

/-- The calls that go on with a listing. -/
theorem continues {rest : List Listing} {calls : List (UInt32 × ℕ)}
    {Q : List (ℤ × List Listing) × State → (Frame → ℕ) → Prop} (hport : portOf p = some port)
    (hpath : path.head? = some 0x2F) (hcalls : ∀ c ∈ calls, c.1 ≠ 0 ∧ 0 < c.2)
    (h : s.IsAt v port rest)
    (hQ : ∀ s', Q (((calls.map (·.2)).splitLengths rest).map answerOf, s') fresh) :
    (serveAll s (calls.map fun c => .getDir p slot (some path) c.1 c.2)).wp (staying v) Q
      fresh := by
  induction calls generalizing s rest Q with
  | nil => exact hQ s
  | cons c calls ih =>
    obtain ⟨hc, hcalls⟩ := List.forall_mem_cons.mp hcalls
    rw [List.map_cons, serveAll, Prog.wp_bind]
    refine getDir_continues hport hpath hc.2 hc.1 h fun s' hs' => ?_
    dsimp only
    rw [Prog.wp_bind]
    refine ih hcalls hs' fun s'' => ?_
    rw [List.map_cons, List.splitLengths_cons] at hQ
    exact hQ s''

theorem flatMap_answerOf (ls : List (List Listing)) :
    (ls.map answerOf).flatMap (·.2) = ls.flatten := by
  rw [List.flatMap_map]
  exact List.flatMap_id

/-- Behind the pieces that make up a list there are empty ones. -/
theorem eq_nil_of_mem_drop {ns : List ℕ} {k : ℕ} {l x : List Listing}
    (h : l.length ≤ (ns.take k).sum) (hx : x ∈ (ns.splitLengths l).drop k) : x = [] := by
  induction ns generalizing k l with
  | nil => exact absurd hx (by simp)
  | cons n ns ih =>
    rw [List.splitLengths_cons] at hx
    cases k with
    | zero =>
      obtain rfl : l = [] := List.length_eq_zero_iff.mp (Nat.le_zero.mp h)
      rw [List.drop_zero, List.mem_cons, List.take_nil, List.drop_nil] at hx
      exact hx.elim id fun hx => ih (k := 0) (l := []) (Nat.zero_le _) hx
    | succ k =>
      rw [List.take_succ_cons, List.sum_cons] at h
      exact ih (by rw [List.length_drop]; omega) hx

/-- What calls that may write so many records each answer and write, of a listing. -/
structure Pieces (l : List Listing) (counts : List ℕ) (answers : List (ℤ × List Listing)) :
    Prop where
  /-- Each writes what comes next, and answers how many. -/
  each : answers = (counts.splitLengths l).map answerOf
  /-- Together they have written the listing. -/
  written : l.length ≤ counts.sum → answers.flatMap (·.2) = l
  /-- A call behind the end of it answers `0`. -/
  behind : ∀ k, l.length ≤ (counts.take k).sum → ∀ answer ∈ answers.drop k, answer = (0, [])

/-- Calls of `getDir` list the root by pieces, however the listing is split. -/
theorem listing_by_pieces (hport : portOf p = some port) (hpath : path.head? = some 0x2F)
    (h : v.IsMounted (s.ports port)) {max : ℕ} (hmax : 0 < max) {calls : List (UInt32 × ℕ)}
    (hcalls : ∀ c ∈ calls, c.1 ≠ 0 ∧ 0 < c.2) :
    (serveAll s (.getDir p slot (some path) 0 max ::
        calls.map fun c => .getDir p slot (some path) c.1 c.2)).wp (staying v)
      (fun r _ => Pieces v.listing (max :: calls.map (·.2)) r.1) fresh := by
  rw [serveAll, Prog.wp_bind]
  refine getDir_starts hport hpath hmax h fun s' hs' => ?_
  dsimp only
  rw [Prog.wp_bind]
  refine continues hport hpath hcalls hs' fun s'' => ?_
  have hanswers : answerOf (v.listing.take max) ::
      ((calls.map (·.2)).splitLengths (v.listing.drop max)).map answerOf =
        ((max :: calls.map (·.2)).splitLengths v.listing).map answerOf := by
    rw [List.splitLengths_cons, List.map_cons]
  rw [Prog.wp_pure]
  dsimp only
  rw [hanswers]
  refine ⟨rfl, fun hall => ?_, fun k hk answer hanswer => ?_⟩
  · rw [flatMap_answerOf]
    exact List.flatten_splitLengths _ _ hall
  · rw [← List.map_drop] at hanswer
    obtain ⟨l, hl, rfl⟩ := List.mem_map.mp hanswer
    rw [eq_nil_of_mem_drop hk hl]
    rfl

/-- A card that answers is one to rely on. -/
theorem keeps_cardReply {page_bytes : UInt16} (hsize : v.page_bytes = page_bytes.toUInt32)
    (frames : List Sent) : Keeps v frames (cardReply v.image page_bytes frames) where
  terminator hkind _ := by
    simp only [cardReply, hkind]
    rfl
  page hkind _ j _ i hi := by
    rw [cardReply_page hkind j hi, hsize, UInt16.toNat_toUInt32]

/-- A card with the volume's image answers as one that stays in. -/
theorem Slots.answer_staying {page_bytes : UInt16} (hsize : v.page_bytes = page_bytes.toUInt32)
    (n : ℕ) (misses : Frame → ℕ) (o : Question) (ho : (staying v).allows misses o) :
    ∃ r, (cardIn v.image page_bytes).answer n o = some r ∧ (staying v).relies misses o r := by
  cases o with
  | transfer port frames =>
    exact ⟨_, rfl, keeps_cardReply hsize frames, fun _ => .inl cardReply_hit⟩
  | authCard port slot => exact ⟨_, rfl, trivial⟩
  | stack => exact ⟨_, rfl, trivial⟩
  | overrun => exact absurd rfl ho

/-- The formatted card, with a root of four slots. -/
def fourSlots : Volume where
  image := formatted
  page_bytes := 512
  first_cluster := 3
  clusters := UInt32.ofNat
  count := 2

/-- The port the examples use. -/
def firstPort : Fin kPorts := ⟨0, by decide⟩

/-- It is in the first port. -/
def fourSlotsIn : State :=
  started.setPort firstPort
    { started.ports firstPort with
      page_bytes := 512
      mounted := true
      pages_per_cluster := 2
      first_cluster := 3
      indirect := fun i => if i = 0 then 1 else 0 }

/-- The root's first cluster is followed by its second. -/
theorem fourSlots_linked : Linked fourSlots (fourSlotsIn.ports firstPort) 0 1 where
  which := by decide
  listed := by decide
  indirect_inRange := by decide
  table_inRange := by decide +kernel
  entry := by decide +kernel
  more := by decide

/-- The port holds what mounting the image gives. -/
theorem fourSlots_isMounted : fourSlots.IsMounted (fourSlotsIn.ports firstPort) where
  mounted := rfl
  size := rfl
  sent := by decide
  page := rfl
  cluster := rfl
  first := rfl
  begins := rfl
  linked i hi := by
    obtain rfl : i = 0 := by change i + 1 < 2 at hi; omega
    exact fourSlots_linked
  inRange i hi := by
    change i < 2 at hi
    obtain rfl | rfl : i = 0 ∨ i = 1 := by omega
    · decide
    · decide
  pos := by decide
  long := by decide +kernel

/-- Its entries are listed in two calls, when it answers as it should. -/
theorem fourSlots_listing :
    (serveAll fourSlotsIn [.getDir 0 0 (some [0x2F]) 0 1, .getDir 0 0 (some [0x2F]) 1 1]).wp
      (staying fourSlots) (fun r _ => Pieces fourSlots.listing [1, 1] r.1) fresh ∧
    ∃ answers s n,
      (serveAll fourSlotsIn [.getDir 0 0 (some [0x2F]) 0 1, .getDir 0 0 (some [0x2F]) 1 1]).run
          (cardIn formatted 512).answer 0 = some ((answers, s), n) ∧
        Pieces fourSlots.listing [1, 1] answers ∧ fourSlots.listing.length = 2 := by
  have hwp : (serveAll fourSlotsIn
      [.getDir 0 0 (some [0x2F]) 0 1, .getDir 0 0 (some [0x2F]) 1 1]).wp (staying fourSlots)
        (fun r _ => Pieces fourSlots.listing [1, 1] r.1) fresh :=
    @listing_by_pieces fourSlots firstPort fourSlotsIn 0 0 [0x2F] (by decide) rfl
      fourSlots_isMounted 1 Nat.one_pos [(1, 1)] (by decide)
  obtain ⟨⟨answers, s⟩, n, -, hrun, hpieces⟩ :=
    Prog.run_of_wp (@Slots.answer_staying fourSlots 512 rfl) hwp 0
  exact ⟨hwp, answers, s, n, hrun, hpieces, by decide +kernel⟩

end PS2Bios.Mcman
