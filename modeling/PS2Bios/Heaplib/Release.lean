import PS2Bios.Heaplib.Invariant

/-!
# Release

The search of `heapFree` walks the ring to the one place its block belongs, between the last
free block before it, or the sentinel, and the next. Under the invariant it ends there, and none
of its tests for a corrupted heap fires on the way. What follows joins the block to its free
neighbours, so that again no two free blocks are adjacent.
-/

namespace PS2Bios.Heaplib

open Intrusive Memory Tiling

variable {m : Memory} {arena size first sentinel p q : ℕ} {bs l r : List Block} {b : Block}
  {pre : List ℕ}

/-- The tests that refuse a block in the way of the free block `q`. -/
def Misplaced (m : Memory) (bp q : ℕ) : Prop :=
  (bp = q ∨ bp = m.next q) ∨ q < bp ∧ bp < blockAt q (m.size q)

/-- The test that `bp` lies between `q` and the free block after `q`. -/
def Brackets (m : Memory) (bp q : ℕ) : Prop :=
  if q < m.next q then q < bp ∧ bp < m.next q else q < bp ∨ bp < m.next q

instance (m : Memory) (bp q : ℕ) : Decidable (Misplaced m bp q) :=
  inferInstanceAs (Decidable (_ ∨ _))

instance (m : Memory) (bp q : ℕ) : Decidable (Brackets m bp q) :=
  inferInstanceAs (Decidable
    (if q < m.next q then q < bp ∧ bp < m.next q else q < bp ∨ bp < m.next q))

/-- The search of `heapFree` is a walk too. -/
theorem bracket_eq_walk (m : Memory) (bp n p : ℕ) :
    bracket m bp n p =
      (walk m.next (fun q => decide (Misplaced m bp q ∨ Brackets m bp q)) n p).map
        fun q => if Misplaced m bp q then none else some q := by
  induction n generalizing p with
  | zero => rfl
  | succ n ih =>
    rw [bracket, walk, ih]
    by_cases hon : bp = p ∨ bp = m.next p
    · have hm : Misplaced m bp p := .inl hon
      rw [if_pos hon, if_pos (decide_eq_true (.inl hm)), Option.map_some, if_pos hm]
    rw [if_neg hon]
    by_cases hin : p < bp ∧ bp < blockAt p (m.size p)
    · have hm : Misplaced m bp p := .inr hin
      rw [if_pos hin, if_pos (decide_eq_true (.inl hm)), Option.map_some, if_pos hm]
    rw [if_neg hin]
    have hm : ¬Misplaced m bp p := not_or.mpr ⟨hon, hin⟩
    by_cases hb : Brackets m bp p
    · rw [if_pos (decide_eq_true (.inr hb)), Option.map_some, if_neg hm]
      unfold Brackets at hb
      split at hb
      · rw [if_pos ‹_›, if_pos hb]
      · rw [if_neg ‹_›, if_pos hb]
    · have htest : ¬decide (Misplaced m bp p ∨ Brackets m bp p) = true := by simp [hm, hb]
      rw [if_neg htest]
      unfold Brackets at hb
      split at hb
      · rw [if_pos ‹_›, if_neg hb]
      · rw [if_neg ‹_›, if_neg hb]

namespace Body

/-- A free block leads upwards. -/
theorem lt_next (h : Body m arena first sentinel bs) (hq : q ∈ freeList bs) : q < m q := by
  have hlinks := h.links
  have hsorted := h.tiled.freeList_sorted
  have hqb := h.tiled.free_bounds hq
  obtain ⟨x, y, hxy⟩ := List.append_of_mem hq
  rw [hxy, ← List.cons_append] at hlinks
  rw [hxy] at hsorted
  rw [(leads_append.mp hlinks).2.1]
  cases y with
  | nil =>
    rw [List.headD_nil]
    omega
  | cons z zs =>
    exact List.rel_of_pairwise_cons (List.pairwise_append.mp hsorted).2.1 List.mem_cons_self

/-- No node of the ring is in the way of an allocated block. -/
theorem not_misplaced (h : Body m arena first sentinel (l ++ b :: r)) (hb : b.live = true)
    (hs : sentinel + 8 ≤ 2 ^ 32) (hq : q ∈ sentinel :: freeList (l ++ b :: r)) :
    ¬Misplaced m b.address q := by
  obtain ⟨hl, -, hr⟩ := tiled_middle.mp h.tiled
  have hbb := h.tiled.bounds (List.mem_append_right l List.mem_cons_self)
  have hoff : ∀ x ∈ sentinel :: freeList (l ++ b :: r), b.address ≠ x := by
    intro x hx
    rw [freeList_append, freeList_cons_live hb, List.mem_cons, List.mem_append] at hx
    rcases hx with rfl | hx | hx
    · omega
    · have := hl.free_bounds hx
      omega
    · have := hr.free_bounds hx
      omega
  rintro ((heq | heq) | ⟨hlt, hin⟩)
  · exact hoff q hq heq
  · exact hoff _ (h.ring.next_mem hq) heq
  · rw [freeList_append, freeList_cons_live hb, List.mem_cons, List.mem_append] at hq
    rcases hq with rfl | hq | hq
    · omega
    · obtain ⟨d, hd, -, rfl⟩ := mem_freeList.mp hq
      have hdb := hl.bounds hd
      rw [size_eq (by omega), (h.written d (List.mem_append_left _ hd)).1,
        blockAt_eq (by omega)] at hin
      omega
    · have := hr.free_bounds hq
      omega

/-- An allocated block is bracketed by the last free block before it, or the sentinel, -/
theorem brackets (h : Body m arena first sentinel (l ++ b :: r)) (hb : b.live = true)
    (hq : sentinel :: freeList l = pre ++ [q]) : Brackets m b.address q := by
  obtain ⟨hl, -, hr⟩ := tiled_middle.mp h.tiled
  have hbb := h.tiled.bounds (List.mem_append_right l List.mem_cons_self)
  have hqm : q ∈ sentinel :: freeList l := hq ▸ List.mem_append_right pre List.mem_cons_self
  have hqb := hl.node_bounds hqm
  have hnext : m.next q = (freeList r).headD sentinel := by
    rw [← freeList_cons_live hb]
    exact h.next_prev hq
  have hgt : b.address < m.next q ∧ m.next q ≤ sentinel := by
    rw [hnext]
    cases hfr : freeList r with
    | nil =>
      rw [List.headD_nil]
      omega
    | cons z zs =>
      have := hr.free_bounds (hfr ▸ List.mem_cons_self : z ∈ freeList r)
      rw [List.headD_cons]
      omega
  unfold Brackets
  split
  · omega
  · exact .inr hgt.1

/-- and by nothing else on the ring. -/
theorem eq_of_brackets (h : Body m arena first sentinel (l ++ b :: r)) (hb : b.live = true)
    (hq : q ∈ sentinel :: freeList (l ++ b :: r)) (hbr : Brackets m b.address q) :
    ∃ pre, sentinel :: freeList l = pre ++ [q] := by
  obtain ⟨hl, -, hr⟩ := tiled_middle.mp h.tiled
  have hbb := h.tiled.bounds (List.mem_append_right l List.mem_cons_self)
  have hlinks := h.links
  have hfree : freeList (l ++ b :: r) = freeList l ++ freeList r := by
    rw [freeList_append, freeList_cons_live hb]
  unfold Brackets at hbr
  rcases List.mem_cons.mp hq with rfl | hqf
  · -- the wrap: nothing free lies below the block
    have hle := h.tiled.node_bounds (h.ring.next_mem hq)
    rw [if_neg (by unfold Memory.next; omega)] at hbr
    cases hfl : freeList l with
    | nil => exact ⟨[], rfl⟩
    | cons z zs =>
      rw [hfree, hfl] at hlinks
      have hz : m q = z := hlinks.1
      have := hl.free_bounds (hfl ▸ List.mem_cons_self : z ∈ freeList l)
      unfold Memory.next at hbr
      omega
  · have hup : q < m.next q := h.lt_next hqf
    rw [if_pos hup] at hbr
    rw [hfree] at hqf
    rcases List.mem_append.mp hqf with hqf | hqf
    · obtain ⟨x, y, hxy⟩ := List.append_of_mem hqf
      cases y with
      | nil => exact ⟨sentinel :: x, by rw [hxy, List.cons_append]⟩
      | cons z zs =>
        rw [hfree, hxy, List.append_assoc, ← List.cons_append] at hlinks
        have hz : m q = z := (leads_append.mp hlinks).2.1
        have hzm : z ∈ freeList l := hxy ▸ by simp
        have := hl.free_bounds hzm
        unfold Memory.next at hbr
        omega
    · have := hr.free_bounds hqf
      omega

/-- `linkFollowing` lets go of the block, with the block after it if that is free. -/
theorem linkFollowing (h : Body m arena first sentinel (l ++ b :: r)) (hb : b.live = true)
    (hs : sentinel + 8 ≤ 2 ^ 32) (hq : sentinel :: freeList l = pre ++ [q]) (hr : Spaced r) :
    ∃ u r', Loose (linkFollowing m q b.address) arena first sentinel l ⟨b.address, u, false⟩ r' ∧
      Spaced r' ∧ (∀ c ∈ r'.head?, c.live = true) ∧ liveBlocks r' = liveBlocks r ∧
      ∀ x, x < b.address ∨ b.address + 8 ≤ x → Heaplib.linkFollowing m q b.address x = m x := by
  have hbm : b ∈ l ++ b :: r := List.mem_append_right l List.mem_cons_self
  have hbb := h.tiled.bounds hbm
  have hsize : m.size b.address = b.units :=
    (size_eq (by omega)).trans (h.written b hbm).1
  have hnext : m.next q = (freeList r).headD sentinel := by
    rw [← freeList_cons_live hb]
    exact h.next_prev hq
  have hafter : Tiled (b.address + 8 * b.units) r sentinel := (tiled_middle.mp h.tiled).2.2
  unfold Heaplib.linkFollowing
  rw [hsize, blockAt_eq (by omega), hnext]
  -- with an allocated block or the sentinel after it, the block is let go alone
  have halone : (∀ c ∈ r.head?, c.live = true) →
      ¬(m.size ((freeList r).headD sentinel) ≠ 0 ∧
        b.address + 8 * b.units = (freeList r).headD sentinel) := by
    rintro hhead ⟨hne, heq⟩
    cases hfr : freeList r with
    | nil =>
      rw [hfr, List.headD_nil, size_eq (by omega), h.sentinelSize] at hne
      exact hne rfl
    | cons z zs =>
      rw [hfr, List.headD_cons] at heq
      obtain ⟨d, hd, hdf, hdz⟩ := mem_freeList.mp (hfr ▸ List.mem_cons_self : z ∈ freeList r)
      cases r with
      | nil => exact absurd hd List.not_mem_nil
      | cons c r =>
        have hcb : b.address + 8 * b.units = c.address := hafter.1.symm
        have hdb := hafter.bounds hd
        have hcu := hafter.bounds List.mem_cons_self
        rcases hafter.apart List.mem_cons_self hd with rfl | hcd | hdc
        · exact absurd (hhead c rfl) (by simp [hdf])
        · omega
        · omega
  cases r with
  | nil =>
    rw [if_neg (halone fun c hc => absurd hc (by simp))]
    exact ⟨_, [], h.loosen hb, hr, fun c hc => absurd hc (by simp), rfl,
      fun x hx => Function.update_of_ne (by omega) _ _⟩
  | cons d r =>
    cases hd : d.live with
    | true =>
      have hhead : ∀ c ∈ (d :: r).head?, c.live = true := by
        rintro c ⟨⟩
        exact hd
      rw [if_neg (halone hhead)]
      exact ⟨_, d :: r, h.loosen hb, hr, hhead, rfl,
        fun x hx => Function.update_of_ne (by omega) _ _⟩
    | false =>
      have hdm : d ∈ l ++ b :: d :: r := by simp
      have hdb := h.tiled.bounds hdm
      have hadj : b.address + 8 * b.units = d.address := (tiled_middle (l := []).mp hafter).1
      have hdsize : m.size d.address = d.units :=
        (size_eq (by omega)).trans (h.written d hdm).1
      obtain ⟨hhead, htail⟩ := List.isChain_cons.mp hr
      have hqb := (tiled_middle.mp h.tiled).1.node_bounds
        (hq ▸ List.mem_append_right pre List.mem_cons_self : q ∈ sentinel :: freeList l)
      rw [freeList_cons_free hd, List.headD_cons] at hnext
      rw [freeList_cons_free hd, List.headD_cons, if_pos ⟨by omega, hadj⟩, hdsize,
        add32_eq (by omega), setSize_eq (by omega)]
      have hnext' : Memory.next (Function.update m (b.address + 4) (b.units + d.units))
          (Memory.next (Function.update m (b.address + 4) (b.units + d.units)) q) =
            m d.address := by
        unfold Memory.next at hnext ⊢
        rw [Function.update_of_ne (a := q) (by omega), hnext, Function.update_of_ne (by omega)]
      dsimp only
      rw [hnext']
      refine ⟨_, r, h.loosenMerged hb hd, htail, fun c hc => ?_, ?_, fun x hx => ?_⟩
      · exact (hhead c hc).resolve_left (by simp [hd])
      · rw [liveBlocks_cons_free hd]
      · unfold setNext
        rw [Function.update_of_ne (by omega), Function.update_of_ne (by omega)]

end Body

/-- `linkPreceding` puts the block on the free list, joined to the block before it if that is
free. -/
theorem Loose.linkPreceding {first sentinel u : ℕ}
    (h : Loose m arena first sentinel l ⟨p, u, false⟩ r) (hs : sentinel + 8 ≤ 2 ^ 32)
    (hq : sentinel :: freeList l = pre ++ [q]) (hl : Spaced l) (hr : Spaced r)
    (hhead : ∀ c ∈ r.head?, c.live = true) :
    ∃ bs', Body (linkPreceding m q p) arena first sentinel bs' ∧ Spaced bs' ∧
      liveBlocks bs' = liveBlocks l ++ liveBlocks r ∧ q ∈ sentinel :: freeList bs' ∧
      ∀ x, x < first ∨ sentinel + 8 ≤ x → Heaplib.linkPreceding m q p x = m x := by
  have hpb : first ≤ p ∧ 0 < u ∧ p + 8 * u ≤ sentinel :=
    h.tiled.bounds (List.mem_append_right l List.mem_cons_self)
  have htl : Tiled first l p := (tiled_middle.mp h.tiled).1
  have hqm : q ∈ sentinel :: freeList l := hq ▸ List.mem_append_right pre List.mem_cons_self
  have hqb := htl.node_bounds hqm
  have halone : (∀ c ∈ l.getLast?, c.live = true) →
      Body (Heaplib.linkPreceding m q p) arena first sentinel (l ++ ⟨p, u, false⟩ :: r) ∧
        ∀ x, x < first ∨ sentinel + 8 ≤ x → Heaplib.linkPreceding m q p x = m x := by
    intro hlast
    have hne : ¬blockAt q (m.size q) = p := by
      intro heq
      rcases List.mem_cons.mp hqm with rfl | hqf
      · rw [size_eq (by omega), h.sentinelSize, blockAt_eq (by omega)] at heq
        omega
      · obtain ⟨d, hd, hdf, rfl⟩ := mem_freeList.mp hqf
        have hdb := htl.bounds hd
        rw [size_eq (by omega), (h.before d hd).1, blockAt_eq (by omega)] at heq
        obtain rfl | ⟨l, e, rfl⟩ := List.eq_nil_or_concat l
        · exact absurd hd List.not_mem_nil
        rw [List.concat_eq_append] at hd hlast htl
        have he : e ∈ l ++ [e] := List.mem_append_right l List.mem_cons_self
        have heb := htl.bounds he
        have hep : e.address + 8 * e.units = p := (tiled_middle.mp htl).2.2
        rcases htl.apart hd he with rfl | hde | hed
        · exact absurd (hlast d (by simp)) (by simp [hdf])
        · omega
        · omega
    unfold Heaplib.linkPreceding
    rw [if_neg hne]
    exact ⟨h.fasten rfl hq, fun x hx => Function.update_of_ne (by omega) _ _⟩
  have hqin : ∀ bs' : List Block, freeList l ⊆ freeList bs' → q ∈ sentinel :: freeList bs' :=
    fun bs' hsub => List.cons_subset_cons sentinel hsub hqm
  have hspaced : (∀ c ∈ l.getLast?, c.live = true) → Spaced (l ++ ⟨p, u, false⟩ :: r) :=
    fun hlast => spaced_middle.mpr ⟨hl, hr, fun c hc => .inl (hlast c hc),
      fun c hc => .inr (hhead c hc)⟩
  have hlive : liveBlocks (l ++ ⟨p, u, false⟩ :: r) = liveBlocks l ++ liveBlocks r := by
    rw [liveBlocks_append, liveBlocks_cons_free rfl]
  have hsub : freeList l ⊆ freeList (l ++ ⟨p, u, false⟩ :: r) := by
    rw [freeList_append]
    exact List.subset_append_left _ _
  obtain rfl | ⟨l, e, rfl⟩ := List.eq_nil_or_concat l
  · -- the block is the first of the arena
    have hlast : ∀ c ∈ ([] : List Block).getLast?, c.live = true := fun c hc => absurd hc (by simp)
    obtain ⟨hbody, hframe⟩ := halone hlast
    exact ⟨_, hbody, hspaced hlast, hlive, hqin _ hsub, hframe⟩
  rw [List.concat_eq_append] at *
  cases he : e.live with
  | true =>
    have hlast : ∀ c ∈ (l ++ [e]).getLast?, c.live = true := by
      intro c hc
      rw [List.getLast?_concat] at hc
      obtain rfl := Option.some.inj hc
      exact he
    obtain ⟨hbody, hframe⟩ := halone hlast
    exact ⟨_, hbody, hspaced hlast, hlive, hqin _ hsub, hframe⟩
  | false =>
    have hem : e ∈ l ++ [e] := List.mem_append_right l List.mem_cons_self
    have heb := htl.bounds hem
    have hep : e.address + 8 * e.units = p := (tiled_middle.mp htl).2.2
    obtain rfl : e.address = q := by
      rw [freeList_append, freeList_cons_free he, freeList_nil, ← List.cons_append] at hq
      exact List.head_eq_of_cons_eq (List.append_inj' hq rfl).2
    have hesize : m.size e.address = e.units := (size_eq (by omega)).trans (h.before e hem).1
    have hpsize : m.size p = u := (size_eq (by omega)).trans h.units
    have hnext : Memory.next (Function.update m (e.address + 4) (e.units + u)) p = m p := by
      unfold Memory.next
      exact Function.update_of_ne (by omega) _ _
    obtain ⟨hsl, -, hbefore, -⟩ := spaced_middle.mp hl
    unfold Heaplib.linkPreceding
    rw [hesize, blockAt_eq (by omega), if_pos hep, hpsize, add32_eq (by omega),
      setSize_eq (by omega)]
    dsimp only
    rw [hnext]
    refine ⟨_, h.fastenMerged he, spaced_middle.mpr ⟨hsl, hr, hbefore, fun c hc => .inr
      (hhead c hc)⟩, ?_, hqin _ ?_, fun x hx => ?_⟩
    · rw [liveBlocks_append, liveBlocks_append, liveBlocks_cons_free he,
        liveBlocks_cons_free (by exact he)]
      simp [liveBlocks]
    · rw [freeList_append, freeList_append, freeList_cons_free he,
        freeList_cons_free (by exact he), freeList_nil]
      simp
    · unfold setNext
      rw [Function.update_of_ne (by omega), Function.update_of_ne (by omega)]

/-! ### HeapFree -/

namespace Arena

/-- The search of `heapFree` ends at the last free block before the one given back. -/
theorem bracket (h : Arena m arena size (l ++ b :: r)) (hb : b.live = true) :
    ∃ pre q, sentinelOf arena size :: freeList l = pre ++ [q] ∧
      bracket m b.address kBlocks (m.arenaRover arena) = some (some q) := by
  have hsb := h.sentinel_bounds
  have hfits := h.fits
  obtain ⟨-, -, -, hC⟩ := h.header
  have hrover : m.arenaRover arena ∈ sentinelOf arena size :: freeList (l ++ b :: r) := by
    unfold arenaRover
    rw [hC]
    exact h.rover
  obtain hnil | ⟨pre, p, hp⟩ := List.eq_nil_or_concat (sentinelOf arena size :: freeList l)
  · exact absurd hnil (List.cons_ne_nil _ _)
  rw [List.concat_eq_append] at hp
  have hpm : p ∈ sentinelOf arena size :: freeList (l ++ b :: r) := by
    rw [freeList_append, ← List.cons_append, hp]
    exact List.mem_append_left _ (List.mem_append_right pre List.mem_cons_self)
  obtain ⟨q, hq, hstop, hwalk⟩ := h.body.ring.walk (n := kBlocks)
    (g := fun q => decide (Misplaced m b.address q ∨ Brackets m b.address q)) hrover
    ⟨p, hpm, decide_eq_true (.inr (h.body.brackets hb hp))⟩ h.length_le
  have hclean := h.body.not_misplaced hb (by omega) hq
  obtain ⟨pre', hq'⟩ := h.body.eq_of_brackets hb hq ((of_decide_eq_true hstop).resolve_left hclean)
  refine ⟨pre', q, hq', ?_⟩
  rw [bracket_eq_walk]
  exact (congrArg _ hwalk).trans (congrArg some (if_neg hclean))

/-- **HeapFree** of an allocated block answers 0: the block is free, no other is, and nothing
outside the arena is touched. -/
theorem heapFree (h : Arena m arena size bs) (hb : b ∈ liveBlocks bs) :
    ∃ bs' m', heapFree m arena (b.address + 8) = some (0, m') ∧ Arena m' arena size bs' ∧
      (liveBlocks bs).Perm (b :: liveBlocks bs') ∧
      ∀ x, x < arena ∨ arena + size ≤ x → m' x = m x := by
  obtain ⟨hbm, hbl⟩ := mem_liveBlocks.mp hb
  obtain ⟨l, r, rfl⟩ := List.append_of_mem hbm
  have hfits := h.fits
  have hsb := h.sentinel_bounds
  have hbb := h.body.tiled.bounds hbm
  obtain ⟨hF, h4, h8, hC⟩ := h.header
  obtain ⟨pre, q, hq, hbracket⟩ := h.bracket hbl
  have hbp : sub32 (b.address + 8) 8 = b.address := by
    rw [sub32_eq (by omega) (by omega), Nat.add_sub_cancel]
  have hend : add32 arena (m.arenaSize arena) = arena + size := by
    unfold arenaSize
    rw [h4, h.sizeWord, add32_eq (by omega)]
  have howned : m.next b.address = arena := (h.body.written b hbm).2 hbl
  have haligned : b.address % 4 = 0 := by
    have := h.body.tiled.address_mod hbm
    have := h.aligned
    omega
  unfold Heaplib.heapFree
  dsimp only
  rw [if_neg (not_not_intro h.isValid), if_neg (by omega), hbp, hF, hend, if_neg (by omega),
    if_neg (not_not_intro haligned), if_neg (not_not_intro howned), hbracket, Option.map_some]
  dsimp only
  -- the free block after `q` lies behind the block, so nothing runs into it
  have hclear : ¬(m.size (m.next q) ≠ 0 ∧ m.next q < blockAt b.address (m.size b.address)) := by
    rintro ⟨hne, hlt⟩
    have hnext : m.next q = (freeList r).headD (sentinelOf arena size) := by
      rw [← freeList_cons_live hbl]
      exact h.body.next_prev hq
    have hr := (tiled_middle.mp h.body.tiled).2.2
    rw [size_eq (by omega), (h.body.written b hbm).1, blockAt_eq (by omega), hnext] at hlt
    cases hfr : freeList r with
    | nil =>
      rw [hfr, List.headD_nil] at hlt
      omega
    | cons z zs =>
      have := hr.free_bounds (hfr ▸ List.mem_cons_self : z ∈ freeList r)
      rw [hfr, List.headD_cons] at hlt
      omega
  rw [if_neg hclear]
  have hsize : m.size b.address = b.units := (size_eq (by omega)).trans (h.body.written b hbm).1
  have hsum := h.body.tiled.units_eq
  have hlive : liveUnits (l ++ b :: r) = liveUnits l + (b.units + liveUnits r) := by
    rw [liveUnits_append, liveUnits_cons, hbl, if_pos rfl]
  have hused : sub32 (m.arenaUsed arena) (m.size b.address) = liveUnits l + liveUnits r := by
    unfold arenaUsed
    rw [h8, h.used, hsize, hlive, sub32_eq (by omega) (by omega)]
    omega
  rw [hused]
  have hcount : ∀ x, x ≠ arena + 8 → m.setArenaUsed arena (liveUnits l + liveUnits r) x = m x := by
    intro x hx
    unfold setArenaUsed
    rw [h8]
    exact Function.update_of_ne hx _ _
  have hcounted : m.setArenaUsed arena (liveUnits l + liveUnits r) (arena + 8) =
      liveUnits l + liveUnits r := by
    unfold setArenaUsed
    rw [h8]
    exact Function.update_self _ _ _
  have hbody := h.body.congr fun x hx _ => hcount x (by omega)
  obtain ⟨hsl, hsr, -, -⟩ := spaced_middle.mp h.spaced
  obtain ⟨u, r', hloose, hsr', hhead, hlr, hf₁⟩ :=
    hbody.linkFollowing hbl (by omega) hq hsr
  obtain ⟨bs', hbody', hspaced', hlb, hqm, hf₂⟩ :=
    hloose.linkPreceding (by omega) hq hsl hsr' hhead
  have hframe : ∀ x, x < arena + 0x10 ∨ arena + size ≤ x →
      coalesce (m.setArenaUsed arena (liveUnits l + liveUnits r)) q b.address x =
        m.setArenaUsed arena (liveUnits l + liveUnits r) x := by
    intro x hx
    exact (hf₂ x (by omega)).trans (hf₁ x (by omega))
  have hlb' : liveUnits bs' = liveUnits l + liveUnits r := by
    unfold liveUnits
    rw [hlb, hlr, List.map_append, List.sum_append]
  have hrover : ∀ x, x ≠ arena + 0xC → (coalesce (m.setArenaUsed arena
      (liveUnits l + liveUnits r)) q b.address).setArenaRover arena q x =
        coalesce (m.setArenaUsed arena (liveUnits l + liveUnits r)) q b.address x := by
    intro x hx
    unfold setArenaRover
    rw [hC]
    exact Function.update_of_ne hx _ _
  have hroved : (coalesce (m.setArenaUsed arena (liveUnits l + liveUnits r)) q
      b.address).setArenaRover arena q (arena + 0xC) = q := by
    unfold setArenaRover
    rw [hC]
    exact Function.update_self _ _ _
  refine ⟨bs', _, rfl, h.of_body (hbody'.congr fun x hx _ => hrover x (by omega)) ?_ ?_ ?_ ?_
    hspaced', ?_, fun x hx => ?_⟩
  · rw [hrover _ (by omega), hframe _ (by omega), hcount _ (by omega)]
  · rw [hrover _ (by omega), hframe _ (by omega), hcount _ (by omega)]
  · rw [hrover _ (by omega), hframe _ (by omega), hcounted, hlb']
  · rw [hroved]
    exact hqm
  · rw [hlb, hlr, liveBlocks_append, liveBlocks_cons_live hbl]
    exact List.perm_middle
  · rw [hrover _ (by omega), hframe _ (by omega), hcount _ (by omega)]

end Arena

end PS2Bios.Heaplib
