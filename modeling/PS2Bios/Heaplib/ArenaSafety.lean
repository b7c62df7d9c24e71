import PS2Bios.Heaplib.Release
import PS2Bios.Library.Run

/-!
# An arena and its client

The client of an arena calls `HeapAlloc` with any size, gives back, in any order, what it was
granted, and writes where it likes but in the arena's own words. `arena_stays_tiled` says what
holds after any run of such requests: the invariant `Arena`, with the allocated blocks just the
client's, so that the next call ends, and every pointer the client still has can be freed.
-/

namespace PS2Bios.Heaplib

/-- The memory, and the pointers the client was granted and has not given back. -/
structure Client where
  memory : Memory
  live : List ℕ

/-- A call of the arena, or a store by somebody who was given memory. -/
inductive Request
  | alloc (requested : ℕ)
  | free (ptr : ℕ)
  | write (address value : ℕ)

/-- The client may write to what lies outside the arena and to its own blocks. -/
def Client.MayWrite (c : Client) (arena size address : ℕ) : Prop :=
  address < arena ∨ arena + size ≤ address ∨
    ∃ ptr ∈ c.live, ptr ≤ address ∧ address < ptr - 8 + 8 * c.memory.size (ptr - 8)

instance (c : Client) (arena size address : ℕ) : Decidable (c.MayWrite arena size address) :=
  inferInstanceAs (Decidable (_ ∨ _ ∨ ∃ ptr ∈ c.live, _))

/-- One request, and what the client makes of the answer. -/
def Client.step (arena size : ℕ) (c : Client) : Request → Option Client
  | .alloc requested => (heapAlloc c.memory arena requested).map fun r =>
      ⟨r.2, if r.1 = 0 then c.live else r.1 :: c.live⟩
  | .free ptr =>
    if ptr ∈ c.live then
      (heapFree c.memory arena ptr).map fun r => ⟨r.2, c.live.erase ptr⟩
    else none
  | .write address value =>
    if c.MayWrite arena size address then
      some { c with memory := Function.update c.memory address value }
    else none

/-- The arena is in order, and its allocated blocks are the client's. -/
def Client.Owns (c : Client) (arena size : ℕ) (bs : List Block) : Prop :=
  Arena c.memory arena size bs ∧ c.live.Perm ((liveBlocks bs).map fun b => b.address + 8)

variable {m : Memory} {arena size : ℕ} {bs : List Block} {c d : Client}

/-- **HeapChunkSize** is the bytes of the free blocks. -/
theorem Arena.heapChunkSize (h : Arena m arena size bs) :
    heapChunkSize m arena = 8 * freeUnits bs := by
  have hfits := h.fits
  have hge := h.size_ge
  have hlt := h.size_lt
  obtain ⟨-, h4, h8, -⟩ := h.header
  have hsum := h.body.tiled.units_eq
  unfold sentinelOf at hsum
  unfold Heaplib.heapChunkSize Memory.arenaSize Memory.arenaUsed
  rw [h4, h8, h.sizeWord, h.used]
  unfold int32
  dsimp only
  rw [if_pos (by omega), if_pos (by omega)]
  omega

/-- **HeapIsEmpty** says whether any block is allocated. -/
theorem Arena.heapIsEmpty (h : Arena m arena size bs) :
    heapIsEmpty m arena = if liveBlocks bs = [] then 1 else 0 := by
  obtain ⟨-, -, h8, -⟩ := h.header
  have hzero : m.arenaUsed arena = 0 ↔ liveBlocks bs = [] := by
    unfold Memory.arenaUsed
    rw [h8, h.used, liveUnits]
    cases hlive : liveBlocks bs with
    | nil => exact iff_of_true rfl rfl
    | cons b l =>
      have hb : b ∈ liveBlocks bs := hlive ▸ List.mem_cons_self
      have hbb := h.body.tiled.bounds (mem_liveBlocks.mp hb).1
      rw [List.map_cons, List.sum_cons]
      exact iff_of_false (by omega) (List.cons_ne_nil _ _)
  unfold Heaplib.heapIsEmpty
  rw [if_neg (not_not_intro h.isValid)]
  simp only [hzero]

/-- A write of the client's is none to the arena's words. -/
theorem Arena.write (h : Arena m arena size bs) {address value : ℕ}
    (hw : Client.MayWrite ⟨m, (liveBlocks bs).map fun b => b.address + 8⟩ arena size address) :
    Arena (Function.update m address value) arena size bs := by
  have hfits := h.fits
  have hsb := h.sentinel_bounds
  have hne : ∀ x, arena ≤ x → x < arena + 0x10 → x ≠ address := by
    intro x hx hxa
    rcases hw with hlt | hge | ⟨ptr, hptr, hle, -⟩
    · omega
    · omega
    · obtain ⟨b, hb, rfl⟩ := List.mem_map.mp hptr
      have := h.body.tiled.bounds (mem_liveBlocks.mp hb).1
      omega
  have hheader : ∀ x, arena ≤ x → x < arena + 0x10 → Function.update m address value x = m x :=
    fun x hx hxa => Function.update_of_ne (hne x hx hxa) _ _
  refine h.of_body ?_ (hheader _ (by omega) (by omega)) (hheader _ (by omega) (by omega))
    ((hheader _ (by omega) (by omega)).trans h.used) ?_ h.spaced
  · rcases hw with hlt | hge | ⟨ptr, hptr, hle, hin⟩
    · exact h.body.congr fun x hx _ => Function.update_of_ne (by omega) _ _
    · exact h.body.congr fun x _ hx => Function.update_of_ne (by omega) _ _
    · obtain ⟨b, hb, rfl⟩ := List.mem_map.mp hptr
      obtain ⟨hbm, hbl⟩ := mem_liveBlocks.mp hb
      have hbb := h.body.tiled.bounds hbm
      have hbw := (h.body.written b hbm).1
      obtain ⟨l, r, rfl⟩ := List.append_of_mem hbm
      dsimp only at hle hin
      rw [Nat.add_sub_cancel, size_eq (by omega), hbw] at hin
      exact h.body.write hbl hle hin
  · rw [hheader _ (by omega) (by omega)]
    exact h.rover

/-- **One request** keeps the arena in order. -/
theorem Client.Owns.step (h : c.Owns arena size bs) {request : Request}
    (hs : c.step arena size request = some d) : ∃ bs', d.Owns arena size bs' := by
  obtain ⟨ha, hperm⟩ := h
  cases request with
  | alloc requested =>
    obtain ⟨r, hr, rfl⟩ := Option.map_eq_some_iff.mp hs
    rcases ha.heapAlloc requested with hnone | ⟨b, bs', m', hsome, ha', -, hlive, -⟩
    · obtain rfl := Option.some.inj (hnone.symm.trans hr)
      exact ⟨bs, ha, hperm⟩
    · obtain rfl := Option.some.inj (hsome.symm.trans hr)
      refine ⟨bs', ha', ?_⟩
      dsimp only
      rw [if_neg (Nat.succ_ne_zero _)]
      exact (hperm.cons _).trans (hlive.map fun b : Block => b.address + 8).symm
  | free ptr =>
    rw [Client.step] at hs
    split at hs
    · rename_i hptr
      obtain ⟨b, hb, rfl⟩ := List.mem_map.mp (hperm.mem_iff.mp hptr)
      obtain ⟨bs', m', hfree, ha', hlive, -⟩ := ha.heapFree hb
      rw [hfree] at hs
      obtain rfl := Option.some.inj hs
      refine ⟨bs', ha', ?_⟩
      have := (hperm.trans (hlive.map fun b : Block => b.address + 8)).erase (b.address + 8)
      rwa [List.map_cons, List.erase_cons_head] at this
    · cases hs
  | write address value =>
    rw [Client.step] at hs
    split at hs
    · rename_i hw
      obtain rfl := Option.some.inj hs
      refine ⟨bs, ha.write (hw.imp_right (Or.imp_right ?_)), hperm⟩
      rintro ⟨ptr, hptr, hin⟩
      exact ⟨ptr, hperm.mem_iff.mp hptr, hin⟩
    · cases hs

/-- **The arena stays tiled**: after any run of requests on an arena prepared by `heapPrepare`
the memory holds an arena, whose allocated blocks are the client's. Its free list, from below
and with the sentinel at its end, is in address order; a further `heapAlloc` ends, a `heapFree`
of a pointer of the client's answers 0, and `heapChunkSize` is the bytes of the free blocks. -/
theorem arena_stays_tiled (h : Extent arena size) (m : Memory) {requests : List Request}
    (hrun : Steps (fun c r d => Client.step arena size c r = some d)
      ⟨heapPrepare m arena size, []⟩ requests c) :
    ∃ bs, Arena c.memory arena size bs ∧
      c.live.Perm ((liveBlocks bs).map fun b => b.address + 8) ∧
      (freeList bs ++ [sentinelOf arena size]).Pairwise (· < ·) ∧
      (∀ requested, ∃ r, heapAlloc c.memory arena requested = some r) ∧
      (∀ ptr ∈ c.live, ∃ m', heapFree c.memory arena ptr = some (0, m')) ∧
      heapChunkSize c.memory arena = 8 * freeUnits bs := by
  have hinv : ∃ bs, c.Owns arena size bs :=
    hrun.invariant (I := fun c => ∃ bs, c.Owns arena size bs)
      (fun c r d ⟨bs, hc⟩ hs => hc.step hs) ⟨_, h.heapPrepare m, List.Perm.nil⟩
  obtain ⟨bs, ha, hperm⟩ := hinv
  refine ⟨bs, ha, hperm, ?_, fun requested => ?_, fun ptr hptr => ?_, ha.heapChunkSize⟩
  · refine List.pairwise_append.mpr ⟨ha.body.tiled.freeList_sorted,
      List.pairwise_singleton _ _, fun x hx y hy => ?_⟩
    have := ha.body.tiled.free_bounds hx
    rw [List.mem_singleton] at hy
    omega
  · rcases ha.heapAlloc requested with hnone | ⟨b, bs', m', hsome, -⟩
    · exact ⟨_, hnone⟩
    · exact ⟨_, hsome⟩
  · obtain ⟨b, hb, rfl⟩ := List.mem_map.mp (hperm.mem_iff.mp hptr)
    obtain ⟨bs', m', hfree, -⟩ := ha.heapFree hb
    exact ⟨m', hfree⟩

/-- Two blocks are taken from an arena, and a third by a request that wraps; the first two are
given back, the second joined to the first. -/
theorem arena_stays_tiled_joined : ∃ (c : Client) (bs : List Block),
    runList (Client.step 0x1000 0x100) ⟨heapPrepare (fun _ => 0) 0x1000 0x100, []⟩
      [.alloc 16, .alloc 24, .alloc 0xFFFFFFFF, .write 0x10E8 7, .free 0x10E8, .free 0x10C8] =
        some c ∧
      c.live = [0x10C0] ∧ Arena c.memory 0x1000 0x100 bs ∧
        heapChunkSize c.memory 0x1000 = 8 * freeUnits bs := by
  have hlive : (runList (Client.step 0x1000 0x100) ⟨heapPrepare (fun _ => 0) 0x1000 0x100, []⟩
      [.alloc 16, .alloc 24, .alloc 0xFFFFFFFF, .write 0x10E8 7, .free 0x10E8,
        .free 0x10C8]).map Client.live = some [0x10C0] := by
    decide +kernel
  obtain ⟨c, hc, hcl⟩ := Option.map_eq_some_iff.mp hlive
  obtain ⟨bs, ha, -, -, -, -, hchunk⟩ := arena_stays_tiled
    ⟨by decide, by decide, by decide, by decide, by decide⟩ _
    (Steps.of_runList (fun _ _ _ h => h) hc)
  exact ⟨c, bs, hc, hcl, ha, hchunk⟩

end PS2Bios.Heaplib
