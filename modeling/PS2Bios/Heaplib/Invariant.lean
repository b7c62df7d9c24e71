import PS2Bios.Heaplib.Blocks

/-!
# The arena invariant, and allocation

`Arena m arena size bs` is the invariant of an arena of `size` bytes: its header is in order,
its blocks are the `Body` of `bs`, no two free ones are adjacent, `used` counts the allocated
ones, and the rover is on the ring.

`heapPrepare` establishes it, and `heapAlloc` keeps it. The search is a walk round the ring that
stops before a block that fits or before the rover; the rover is on the ring, so it ends, and
what it returns as the predecessor of the block is its one predecessor.
-/

namespace PS2Bios.Heaplib

open Intrusive Memory Tiling

/-- Where the sentinel of an arena is. -/
def sentinelOf (arena size : ℕ) : ℕ := arena + 0x10 + 8 * ((size - 0x10) / 8 - 1)

/-- Memory that an arena can be prepared over. -/
structure Extent (arena size : ℕ) : Prop where
  ne_zero : arena ≠ 0
  size_ge : 0x29 ≤ size
  size_lt : size < 2 ^ 31
  fits : arena + size < 2 ^ 32
  aligned : arena % 4 = 0

/-- The memory holds an arena, and its blocks are `bs`. -/
structure Arena (m : Memory) (arena size : ℕ) (bs : List Block) : Prop
    extends Extent arena size where
  magic : m arena = arena - 1
  sizeWord : m (arena + 4) = size
  used : m (arena + 8) = liveUnits bs
  rover : m (arena + 0xC) ∈ sentinelOf arena size :: freeList bs
  body : Body m arena (arena + 0x10) (sentinelOf arena size) bs
  spaced : Spaced bs

variable {m : Memory} {arena size p q u : ℕ} {bs l r : List Block} {b : Block}
  {pre : List ℕ}

theorem Extent.sentinel_bounds (h : Extent arena size) :
    arena + 0x18 ≤ sentinelOf arena size ∧ sentinelOf arena size + 8 ≤ arena + size := by
  have := h.size_ge
  unfold sentinelOf
  omega

theorem size_eq (h : p + 4 < 2 ^ 32) : m.size p = m (p + 4) := by
  unfold Memory.size
  rw [add32_eq h]

theorem setSize_eq (h : p + 4 < 2 ^ 32) {v : ℕ} :
    m.setSize p v = Function.update m (p + 4) v := by
  unfold Memory.setSize
  rw [add32_eq h]

theorem blockAt_eq (h : p + 8 * u < 2 ^ 32) : blockAt p u = p + 8 * u := add32_eq h

theorem unitsFor_pos (requested : ℕ) : 0 < unitsFor requested := Nat.succ_pos _

/-! ### Preparing an arena -/

/-- What `heapPrepare` stores, where nothing wraps around. -/
theorem Extent.heapPrepare_eq (h : Extent arena size) (m : Memory) :
    heapPrepare m arena size =
      Function.update (Function.update (Function.update (Function.update (Function.update
        (Function.update (Function.update (Function.update m arena (arena - 1)) (arena + 4) size)
          (arena + 8) 0) (arena + 0x10 + 4) ((size - 0x10) / 8 - 1)) (arena + 0x10)
            (sentinelOf arena size)) (sentinelOf arena size + 4) 0) (sentinelOf arena size)
              (arena + 0x10)) (arena + 0xC) (arena + 0x10) := by
  obtain ⟨hne, hge, hlt, hfits, -⟩ := id h
  have hs := h.sentinel_bounds
  have hword : toWord size = size := by
    unfold toWord
    omega
  have hfirst : firstBlockOf arena = arena + 0x10 := add32_eq (by omega)
  have hunits : sub32 (sub32 size 0x10 / 8) 1 = (size - 0x10) / 8 - 1 := by
    rw [sub32_eq (a := size) (by omega) (by omega), sub32_eq (by omega) (by omega)]
  have hsentinel : blockAt (arena + 0x10) ((size - 0x10) / 8 - 1) = sentinelOf arena size :=
    blockAt_eq (by unfold sentinelOf at hs; omega)
  have hmagic : arenaMagicFor arena = arena - 1 := sub32_eq (by omega) (by omega)
  unfold heapPrepare
  dsimp only
  rw [if_neg (by omega), hword, hfirst, hunits, hsentinel, hmagic,
    setSize_eq (by omega), setSize_eq (by omega)]
  unfold setArenaMagic setArenaSize setArenaUsed setArenaRover setNext
  rw [add32_eq (by omega), add32_eq (by omega), add32_eq (by omega)]

/-- **HeapPrepare** leaves an arena of one free block. -/
theorem Extent.heapPrepare (h : Extent arena size) (m : Memory) :
    Arena (heapPrepare m arena size) arena size
      [⟨arena + 0x10, (size - 0x10) / 8 - 1, false⟩] := by
  obtain ⟨hne, hge, hlt, hfits, -⟩ := id h
  have hs := h.sentinel_bounds
  have hs' : sentinelOf arena size = arena + 0x10 + 8 * ((size - 0x10) / 8 - 1) := rfl
  rw [h.heapPrepare_eq]
  have hfree : freeList [⟨arena + 0x10, (size - 0x10) / 8 - 1, false⟩] = [arena + 0x10] := rfl
  refine { h with magic := ?_, sizeWord := ?_, used := ?_, rover := ?_, body := ?_, spaced := ?_ }
  · simp (disch := omega) only [Function.update_of_ne, Function.update_self]
  · simp (disch := omega) only [Function.update_of_ne, Function.update_self]
  · simp (disch := omega) only [Function.update_of_ne, Function.update_self]
    rfl
  · rw [Function.update_self, hfree]
    exact List.mem_cons_of_mem _ List.mem_cons_self
  · refine ⟨⟨rfl, ?_, ?_⟩, fun b hb => ?_, ?_, ?_⟩
    · unfold Block.stop
      dsimp only
      omega
    · rfl
    · rw [List.mem_singleton.mp hb]
      refine ⟨?_, fun hl => absurd hl Bool.false_ne_true⟩
      simp (disch := omega) only [Function.update_of_ne, Function.update_self]
    · simp (disch := omega) only [Function.update_of_ne, Function.update_self]
    · rw [hfree, leads_cons, leads_cons, List.headD_cons, List.headD_nil]
      simp (disch := omega) only [Function.update_of_ne, Function.update_self, leads_nil, and_self]
  · exact List.isChain_singleton _

namespace Arena

/-- An arena that is in order has its magic. -/
theorem isValid (h : Arena m arena size bs) : isValidArena m arena := by
  refine ⟨h.ne_zero, h.magic.trans (sub32_eq ?_ ?_).symm⟩
  · have := h.ne_zero
    omega
  · have := h.fits
    omega

/-- The header's fields, without wrapping addresses. -/
theorem header (h : Arena m arena size bs) :
    firstBlockOf arena = arena + 0x10 ∧ add32 arena 4 = arena + 4 ∧ add32 arena 8 = arena + 8 ∧
      add32 arena 0xC = arena + 0xC := by
  have := h.fits
  have := h.size_ge
  exact ⟨add32_eq (by omega), add32_eq (by omega), add32_eq (by omega), add32_eq (by omega)⟩

/-- A loop over the ring has turns enough. -/
theorem length_le (h : Arena m arena size bs) :
    (sentinelOf arena size :: freeList bs).length ≤ kBlocks := by
  have hlen := h.body.tiled.length_le (k := 8) fun b hb => by
    have := h.body.tiled.bounds hb
    unfold Block.stop
    omega
  have hs := h.sentinel_bounds
  have hlt := h.size_lt
  have hle : (freeList bs).length ≤ bs.length := by
    unfold freeList
    rw [List.length_map]
    exact List.length_filter_le _ bs
  unfold kBlocks
  rw [List.length_cons]
  omega

/-! ### HeapAlloc -/

/-- The search is a walk that stops before a block that fits or before the rover. -/
theorem search_eq_walk (m : Memory) (rover units n prev : ℕ) :
    search m rover units n prev (m.next prev) =
      (walk m.next (fun q => decide (units ≤ m.size (m.next q) ∨ m.next q = rover)) n prev).map
        fun q => if units ≤ m.size (m.next q) then some (q, m.next q) else none := by
  induction n generalizing prev with
  | zero => rfl
  | succ n ih =>
    rw [search, walk]
    by_cases hfit : units ≤ m.size (m.next prev)
    · simp [hfit]
    · by_cases hrover : m.next prev = rover
      · rw [if_neg hfit, if_pos hrover, if_pos (by simp [hrover]), Option.map_some, if_neg hfit]
      · rw [if_neg hfit, if_neg hrover, if_neg (by simp [hfit, hrover])]
        exact ih (m.next prev)

/-- The last free block before `b`, or the sentinel, is found as what leads to `b`. -/
theorem eq_prev (h : Arena m arena size (l ++ b :: r)) (hb : b.live = false)
    (hp : p ∈ sentinelOf arena size :: freeList (l ++ b :: r)) (hn : m p = b.address) :
    ∃ pre, sentinelOf arena size :: freeList l = pre ++ [p] := by
  obtain hnil | ⟨pre, q, hq⟩ := List.eq_nil_or_concat (sentinelOf arena size :: freeList l)
  · exact absurd hnil (List.cons_ne_nil _ _)
  rw [List.concat_eq_append] at hq
  have hqb : m q = b.address := by
    rw [h.body.next_prev hq, freeList_cons_free hb, List.headD_cons]
  have hqm : q ∈ sentinelOf arena size :: freeList (l ++ b :: r) := by
    rw [freeList_append, ← List.cons_append, hq]
    exact List.mem_append_left _ (List.mem_append_right pre List.mem_cons_self)
  have hbm : m q ∈ sentinelOf arena size :: freeList (l ++ b :: r) := h.body.ring.next_mem hqm
  obtain rfl : q = p := h.body.ring.next_inj hqm hp (hqb.trans hn.symm) hbm
  exact ⟨pre, hq⟩

/-- The search ends: after one circuit, or at a free block that fits, with what leads to it. -/
theorem search (h : Arena m arena size bs) (hu : 0 < u) :
    search m (m.arenaRover arena) u kBlocks (m.arenaRover arena) (m.next (m.arenaRover arena)) =
        some none ∨
      ∃ l b r pre q, bs = l ++ b :: r ∧ b.live = false ∧ u ≤ b.units ∧
        sentinelOf arena size :: freeList l = pre ++ [q] ∧
        search m (m.arenaRover arena) u kBlocks (m.arenaRover arena)
          (m.next (m.arenaRover arena)) = some (some (q, b.address)) := by
  have hfits := h.fits
  have hs := h.sentinel_bounds
  obtain ⟨-, -, -, hC⟩ := h.header
  have hrover : m.arenaRover arena ∈ sentinelOf arena size :: freeList bs := by
    unfold arenaRover
    rw [hC]
    exact h.rover
  obtain ⟨y, hy, hyr⟩ := h.body.ring.exists_prev hrover
  obtain ⟨q, hq, -, hwalk⟩ := h.body.ring.walk (n := kBlocks)
    (g := fun q => decide (u ≤ m.size (m.next q) ∨ m.next q = m.arenaRover arena)) hrover
    ⟨y, hy, decide_eq_true (.inr hyr)⟩ h.length_le
  have hsearch := (search_eq_walk m (m.arenaRover arena) u kBlocks (m.arenaRover arena)).trans
    (congrArg _ hwalk)
  rw [Option.map_some] at hsearch
  rw [hsearch]
  by_cases hfit : u ≤ m.size (m.next q)
  · right
    rw [if_pos hfit]
    rcases List.mem_cons.mp (h.body.ring.next_mem hq) with hn | hn
    · rw [show m.next q = sentinelOf arena size from hn, size_eq (by omega),
        h.body.sentinelSize] at hfit
      omega
    · obtain ⟨b, hb, hbf, hbq⟩ := mem_freeList.mp hn
      have hbb := h.body.tiled.bounds hb
      have hsize : m.size (m.next q) = b.units := by
        rw [show m.next q = b.address from hbq.symm, size_eq (by omega)]
        exact (h.body.written b hb).1
      obtain ⟨l, r, rfl⟩ := List.append_of_mem hb
      obtain ⟨pre, hpre⟩ := h.eq_prev hbf hq hbq.symm
      exact ⟨l, b, r, pre, q, rfl, hbf, hsize ▸ hfit, hpre, by rw [hbq]; rfl⟩
  · exact .inl (by rw [if_neg hfit])

/-- A body, under a header that is kept but for the rover and the count. -/
theorem of_body (h : Arena m arena size bs) {f : Memory} {bs' : List Block}
    (hbody : Body f arena (arena + 0x10) (sentinelOf arena size) bs')
    (hmagic : f arena = m arena) (hsize : f (arena + 4) = m (arena + 4))
    (hused : f (arena + 8) = liveUnits bs')
    (hrover : f (arena + 0xC) ∈ sentinelOf arena size :: freeList bs') (hs : Spaced bs') :
    Arena f arena size bs' :=
  { h.toExtent with
    magic := hmagic.trans h.magic
    sizeWord := hsize.trans h.sizeWord
    used := hused
    rover := hrover
    body := hbody
    spaced := hs }

/-- The end of `heapAlloc`: the rover, the count and the ownership tag. -/
theorem granted (h : Arena m arena size bs) {f : Memory} {bs' : List Block}
    (hf : ∀ x, x < arena + 0x10 → f x = m x)
    (hbody : Body (Function.update f p arena) arena (arena + 0x10) (sentinelOf arena size) bs')
    (hp : arena + 0x10 ≤ p) (hq : q ∈ sentinelOf arena size :: freeList bs')
    (hlive : liveUnits bs' = liveUnits bs + u) (hs : Spaced bs') :
    Arena (((f.setArenaRover arena q).setArenaUsed arena
      (add32 ((f.setArenaRover arena q).arenaUsed arena) u)).setNext p arena) arena size bs' := by
  have hfits := h.fits
  have hsb := h.sentinel_bounds
  have hsum := hbody.tiled.units_eq
  obtain ⟨-, -, h8, hC⟩ := h.header
  have hused : add32 ((f.setArenaRover arena q).arenaUsed arena) u = liveUnits bs + u := by
    unfold arenaUsed setArenaRover
    rw [h8, hC, Function.update_of_ne (by omega), hf _ (by omega), h.used, add32_eq (by omega)]
  rw [hused]
  unfold setArenaUsed setArenaRover setNext
  rw [h8, hC]
  refine h.of_body (hbody.congr fun x hx _ => ?_) ?_ ?_ ?_ ?_ hs
  · by_cases hxp : x = p
    · rw [hxp, Function.update_self, Function.update_self]
    · simp (disch := omega) only [Function.update_of_ne]
  · simp (disch := omega) only [Function.update_of_ne, hf]
  · simp (disch := omega) only [Function.update_of_ne, hf]
  · simp (disch := omega) only [Function.update_of_ne, Function.update_self, hlive]
  · simp (disch := omega) only [Function.update_of_ne, Function.update_self, hq]

/-- **HeapAlloc** refuses and changes nothing, or grants one more block, of the units asked
for, and touches nothing outside the arena. -/
theorem heapAlloc (h : Arena m arena size bs) (requested : ℕ) :
    heapAlloc m arena requested = some (0, m) ∨
      ∃ b bs' m', heapAlloc m arena requested = some (b.address + 8, m') ∧
        Arena m' arena size bs' ∧ b.units = unitsFor requested ∧
        (liveBlocks bs').Perm (b :: liveBlocks bs) ∧
        ∀ x, x < arena ∨ arena + size ≤ x → m' x = m x := by
  have hfits := h.fits
  have hsb := h.sentinel_bounds
  obtain ⟨-, -, h8, hC⟩ := h.header
  unfold Heaplib.heapAlloc
  dsimp only
  rw [if_neg (not_not_intro h.isValid)]
  rcases h.search (unitsFor_pos requested) with hnone | ⟨l, b, r, pre, q, rfl, hb, hu, hq, hsome⟩
  · rw [hnone]
    exact .inl rfl
  right
  rw [hsome, Option.map_some]
  dsimp only
  have hbm : b ∈ l ++ b :: r := List.mem_append_right l List.mem_cons_self
  have hbb := h.body.tiled.bounds hbm
  have hsize : m.size b.address = b.units :=
    (size_eq (by omega)).trans (h.body.written b hbm).1
  have hqm : q ∈ sentinelOf arena size :: freeList l :=
    hq ▸ List.mem_append_right pre List.mem_cons_self
  have hqb := (tiled_middle.mp h.body.tiled).1.node_bounds hqm
  obtain ⟨hsl, hsr, hbefore, hafter⟩ := spaced_middle.mp h.spaced
  by_cases hexact : m.size b.address = unitsFor requested
  · -- the whole block
    rw [if_pos hexact]
    have hbu : b.units = unitsFor requested := hsize.symm.trans hexact
    have hgrant := h.granted (f := m.setNext q (m.next b.address)) (p := b.address) (q := q)
      (u := unitsFor requested) (fun x hx => Function.update_of_ne (by omega) _ _)
      (h.body.take hb hq) hbb.1 (by
        rw [freeList_append, ← List.cons_append]
        exact List.mem_append_left _ hqm) (by
        rw [liveUnits_append, liveUnits_append, liveUnits_cons, liveUnits_cons, hb, ← hbu]
        simp only [if_true, if_false, Bool.false_eq_true]
        omega) (spaced_middle.mpr ⟨hsl, hsr, fun c _ => .inr rfl, fun c _ => .inl rfl⟩)
    refine ⟨{ b with live := true }, _, _, by rw [add32_eq (by omega)], hgrant, hbu, ?_, ?_⟩
    · rw [liveBlocks_append, liveBlocks_append, liveBlocks_cons_free hb, liveBlocks_cons_live rfl]
      exact List.perm_middle
    · intro x hx
      unfold setNext setArenaUsed setArenaRover
      rw [h8, hC]
      simp (disch := omega) only [Function.update_of_ne]
  · -- the tail of the block
    rw [if_neg hexact]
    have hlt : unitsFor requested < b.units := by omega
    have hpos := unitsFor_pos requested
    rw [hsize, setSize_eq (by omega)]
    have hleft : Memory.size (Function.update m (b.address + 4) (b.units - unitsFor requested))
        b.address = b.units - unitsFor requested := by
      rw [size_eq (by omega), Function.update_self]
    dsimp only
    rw [hleft, blockAt_eq (by omega), setSize_eq (by omega)]
    obtain ⟨p, hp⟩ : ∃ p, p = b.address + 8 * (b.units - unitsFor requested) := ⟨_, rfl⟩
    rw [← hp]
    have hgrant := h.granted (p := p) (q := q) (u := unitsFor requested)
      (f := Function.update (Function.update m (b.address + 4) (b.units - unitsFor requested))
        (p + 4) (unitsFor requested))
      (fun x hx => by simp (disch := omega) only [Function.update_of_ne])
      (h.body.cut hb hpos hlt hp) (by omega) (by
        rw [freeList_append, ← List.cons_append]
        exact List.mem_append_left _ hqm) (by
        rw [liveUnits_append, liveUnits_append, liveUnits_cons, liveUnits_cons, liveUnits_cons]
        simp only [if_true, if_false, Bool.false_eq_true, hb]
        omega) (spaced_middle.mpr ⟨hsl, List.isChain_cons.mpr ⟨fun c _ => .inl rfl, hsr⟩,
          hbefore, by rintro c ⟨⟩; exact .inr rfl⟩)
    refine ⟨⟨p, unitsFor requested, true⟩, _, _, by rw [add32_eq (by omega)], hgrant, rfl, ?_, ?_⟩
    · rw [liveBlocks_append, liveBlocks_append, liveBlocks_cons_free hb,
        liveBlocks_cons_free (by exact hb), liveBlocks_cons_live rfl]
      exact List.perm_middle
    · intro x hx
      unfold setNext setArenaUsed setArenaRover
      rw [h8, hC]
      simp (disch := omega) only [Function.update_of_ne]

end Arena

end PS2Bios.Heaplib
