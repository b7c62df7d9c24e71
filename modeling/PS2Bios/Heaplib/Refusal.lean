import Mathlib.Logic.Function.Iterate
import PS2Bios.Heaplib.ArenaSafety

/-!
# Pointers that HeapFree refuses

What `heapFree` can tell of a pointer is where its header would lie, whether the tag is there, and
how the header lies to the free blocks. A pointer is `Bad` when one of these is not as it is for
an allocated block: its header is out of the extent, or not at a multiple of four, or has no tag, or
lies within a free block, or the block it begins runs into a free one.

The search ends for every pointer, and it ends at the free blocks the header lies between, so that
a bad pointer is refused with the memory as it was. There are two exceptions (`Fails`). A header in
the extent that is not at a multiple of four is read with an address-error exception
(`Misaligned`). And the end of the block is reckoned in 32 bits, so that a size that takes it past
the end of the addresses brings it out below the free block that it runs over (`Wraps`).
-/

namespace PS2Bios.Heaplib

open Intrusive Memory Tiling

/-! ### What is wrong with a pointer -/

/-- A free block: the free list goes through it, and it is not the sentinel. -/
def FreeBlock (m : Memory) (arena f : ℕ) : Prop :=
  m.size f ≠ 0 ∧ ∃ n, m.next^[n] (m.arenaRover arena) = f

/-- The header is in the arena, behind the arena's own. -/
def InExtent (m : Memory) (arena bp : ℕ) : Prop :=
  firstBlockOf arena ≤ bp ∧ bp < add32 arena (m.arenaSize arena)

/-- The header starts on a free block's, or lies inside a free block. -/
def Within (m : Memory) (arena bp : ℕ) : Prop :=
  ∃ f, FreeBlock m arena f ∧ f ≤ bp ∧ bp < f + 8 * m.size f

/-- The block runs into the free block `f`. -/
def RunsInto (m : Memory) (arena bp f : ℕ) : Prop :=
  FreeBlock m arena f ∧ bp < f ∧ f < bp + 8 * m.size bp

/-- The pointer is not that of an allocated block. -/
def Bad (m : Memory) (arena ptr : ℕ) : Prop :=
  ptr = 0 ∨ ¬InExtent m arena (sub32 ptr 8) ∨ sub32 ptr 8 % 4 ≠ 0 ∨
    m.next (sub32 ptr 8) ≠ arena ∨ Within m arena (sub32 ptr 8) ∨
      ∃ f, RunsInto m arena (sub32 ptr 8) f

/-- The header is in the extent, but at no multiple of four: there is no word to read. -/
def Misaligned (m : Memory) (arena ptr : ℕ) : Prop :=
  ptr ≠ 0 ∧ InExtent m arena (sub32 ptr 8) ∧ sub32 ptr 8 % 4 ≠ 0

/-- The pointer has its tag and lies in no free block, and its block runs over the next one, past
the end of the addresses, to end below it again. -/
def Wraps (m : Memory) (arena ptr : ℕ) : Prop :=
  ptr ≠ 0 ∧ InExtent m arena (sub32 ptr 8) ∧ sub32 ptr 8 % 4 = 0 ∧
    m.next (sub32 ptr 8) = arena ∧ ¬Within m arena (sub32 ptr 8) ∧
      ∃ f, RunsInto m arena (sub32 ptr 8) f ∧
        (∀ g, FreeBlock m arena g → sub32 ptr 8 < g → f ≤ g) ∧
          blockAt (sub32 ptr 8) (m.size (sub32 ptr 8)) ≤ f

/-- The pointers that are not refused although they are bad. -/
def Fails (m : Memory) (arena ptr : ℕ) : Prop := Misaligned m arena ptr ∨ Wraps m arena ptr

/-- `heapFree` ends, answers a negative code and leaves the memory as it was. -/
def Refuses (m : Memory) (arena ptr : ℕ) : Prop :=
  ∃ code, code < 0 ∧ heapFree m arena ptr = some (code, m)

variable {m : Memory} {arena size first sentinel p q f bp ptr : ℕ} {bs : List Block} {b : Block}
  {c d : Client}

/-! ### The search, for any pointer -/

namespace Body

/-- What a free block leads to is not above any other free block above it. -/
theorem next_le (h : Body m arena first sentinel bs) (hq : q ∈ freeList bs)
    (hf : f ∈ freeList bs) (hlt : q < f) : m q ≤ f := by
  have hlinks := h.links
  have hsorted := h.tiled.freeList_sorted
  obtain ⟨x, y, hxy⟩ := List.append_of_mem hq
  rw [hxy, ← List.cons_append] at hlinks
  rw [hxy] at hf hsorted
  rw [(leads_append.mp hlinks).2.1]
  obtain ⟨-, hy, hapart⟩ := List.pairwise_append.mp hsorted
  rcases List.mem_append.mp hf with hfx | hfy
  · have := hapart f hfx q List.mem_cons_self
    omega
  have hfy : f ∈ y := (List.mem_cons.mp hfy).resolve_left (by omega)
  cases y with
  | nil => exact absurd hfy List.not_mem_nil
  | cons z zs =>
    rw [List.headD_cons]
    rcases List.mem_cons.mp hfy with rfl | hfz
    · exact le_rfl
    · exact Nat.le_of_lt
        (List.rel_of_pairwise_cons (List.pairwise_cons.mp hy).2 hfz)

/-- The sentinel leads to the lowest free block. -/
theorem sentinel_next_le (h : Body m arena first sentinel bs) (hf : f ∈ freeList bs) :
    m sentinel ≤ f := by
  have hlinks := h.links
  have hsorted := h.tiled.freeList_sorted
  cases hfl : freeList bs with
  | nil =>
    rw [hfl] at hf
    exact absurd hf List.not_mem_nil
  | cons z zs =>
    rw [hfl] at hlinks hf hsorted
    rw [hlinks.1, List.headD_cons]
    rcases List.mem_cons.mp hf with rfl | hf
    · exact le_rfl
    · exact Nat.le_of_lt (List.rel_of_pairwise_cons hsorted hf)

/-- Where the search passes below the sentinel, the free block it leads to is the next above. -/
theorem next_of_brackets (h : Body m arena first sentinel bs) (hq : q ∈ sentinel :: freeList bs)
    (hbr : Brackets m bp q) (hbp : bp < sentinel) :
    bp < m q ∧ ∀ f ∈ freeList bs, bp < f → m q ≤ f := by
  unfold Brackets at hbr
  rcases List.mem_cons.mp hq with rfl | hqf
  · have hle := h.tiled.node_bounds (h.ring.next_mem hq)
    rw [if_neg (by unfold Memory.next; omega)] at hbr
    unfold Memory.next at hbr
    exact ⟨by omega, fun f hf _ => h.sentinel_next_le hf⟩
  · have hup : q < m.next q := h.lt_next hqf
    rw [if_pos hup] at hbr
    exact ⟨hbr.2, fun f hf hlt => h.next_le hqf hf (by omega)⟩

/-- A header within a free block is in the way wherever the search passes. -/
theorem misplaced_of_brackets (h : Body m arena first sentinel bs) (hs : sentinel + 8 ≤ 2 ^ 32)
    (hb : b ∈ bs) (hfree : b.live = false) (hle : b.address ≤ bp)
    (hlt : bp < b.address + 8 * b.units) (hq : q ∈ sentinel :: freeList bs)
    (hbr : Brackets m bp q) : Misplaced m bp q := by
  have hbb := h.tiled.bounds hb
  have hbf : b.address ∈ freeList bs := mem_freeList.mpr ⟨b, hb, hfree, rfl⟩
  obtain ⟨hnext, hleast⟩ := h.next_of_brackets hq hbr (by omega)
  rcases List.mem_cons.mp hq with rfl | hqf
  · have := h.sentinel_next_le hbf
    omega
  obtain ⟨e, he, hef, rfl⟩ := mem_freeList.mp hqf
  have heb := h.tiled.bounds he
  have hup : e.address < m.next e.address := h.lt_next hqf
  have hebp : e.address < bp := by
    unfold Brackets at hbr
    rw [if_pos hup] at hbr
    exact hbr.1
  -- the free block that is passed is the one the header lies in
  rcases h.tiled.apart hb he with rfl | hbe | heb'
  · refine .inr ⟨hebp, ?_⟩
    rwa [size_eq (by omega), (h.written b hb).1, blockAt_eq (by omega)]
  · omega
  · have := h.next_le hqf hbf (by omega)
    omega

end Body

/-- A sorted list is cut in two by any bound. -/
theorem exists_cut {l : List ℕ} (hl : l.Pairwise (· < ·)) (n : ℕ) :
    ∃ l₁ l₂, l = l₁ ++ l₂ ∧ (∀ x ∈ l₁, x < n) ∧ ∀ x ∈ l₂, n ≤ x := by
  induction l with
  | nil => exact ⟨[], [], rfl, fun x hx => absurd hx List.not_mem_nil, fun x hx => absurd hx
      List.not_mem_nil⟩
  | cons y ys ih =>
    obtain ⟨hy, hys⟩ := List.pairwise_cons.mp hl
    by_cases hlt : y < n
    · obtain ⟨l₁, l₂, rfl, h₁, h₂⟩ := ih hys
      exact ⟨y :: l₁, l₂, rfl, List.forall_mem_cons.mpr ⟨hlt, h₁⟩, h₂⟩
    · refine ⟨[], y :: ys, rfl, fun x hx => absurd hx List.not_mem_nil,
        List.forall_mem_cons.mpr ⟨by omega, fun x hx => ?_⟩⟩
      have := hy x hx
      omega

/-- Some node of the ring is where the search ends. -/
theorem Body.exists_passes (h : Body m arena first sentinel bs) (bp : ℕ) :
    ∃ q ∈ sentinel :: freeList bs, Misplaced m bp q ∨ Brackets m bp q := by
  have hsn := h.tiled.node_bounds (h.ring.next_mem List.mem_cons_self)
  by_cases habove : sentinel < bp
  · refine ⟨sentinel, List.mem_cons_self, .inr ?_⟩
    unfold Brackets
    rw [if_neg (by unfold Memory.next; omega)]
    exact .inl habove
  obtain ⟨l₁, l₂, hcut, hlow, hhigh⟩ := exists_cut h.tiled.freeList_sorted bp
  obtain hnil | ⟨pre, q, hq⟩ := List.eq_nil_or_concat (sentinel :: l₁)
  · exact absurd hnil (List.cons_ne_nil _ _)
  rw [List.concat_eq_append] at hq
  have hqm : q ∈ sentinel :: l₁ := hq ▸ List.mem_append_right pre List.mem_cons_self
  have hnext : m.next q = l₂.headD sentinel := by
    have hlinks := h.links
    rw [hcut, ← List.cons_append, hq, List.append_assoc] at hlinks
    exact (leads_append.mp hlinks).2.1
  have hge : bp ≤ m.next q := by
    rw [hnext]
    cases l₂ with
    | nil => exact not_lt.mp habove
    | cons z zs => exact hhigh z List.mem_cons_self
  refine ⟨q, ?_, ?_⟩
  · rw [hcut, ← List.cons_append]
    exact List.mem_append_left _ hqm
  rcases Nat.eq_or_lt_of_le hge with heq | hlt
  · exact .inl (.inl (.inr heq))
  right
  unfold Brackets
  rcases List.mem_cons.mp hqm with rfl | hql
  · rw [if_neg (by unfold Memory.next; omega)]
    exact .inr hlt
  · have hbelow := hlow q hql
    rw [if_pos (by omega)]
    exact ⟨hbelow, hlt⟩

namespace Arena

/-- The arena's rover is the sentinel or one of the free blocks. -/
theorem mem_rover (h : Arena m arena size bs) :
    m.arenaRover arena ∈ sentinelOf arena size :: freeList bs := by
  obtain ⟨-, -, -, hC⟩ := h.header
  unfold arenaRover
  rw [hC]
  exact h.rover

/-- A block's size, as its header has it. -/
theorem size_of_mem (h : Arena m arena size bs) (hb : b ∈ bs) : m.size b.address = b.units := by
  have hfits := h.fits
  have hsb := h.sentinel_bounds
  have hbb := h.body.tiled.bounds hb
  exact (size_eq (by omega)).trans (h.body.written b hb).1

/-- The free blocks are those of the free list. -/
theorem freeBlock_iff (h : Arena m arena size bs) :
    FreeBlock m arena f ↔ ∃ b ∈ bs, b.live = false ∧ b.address = f := by
  have hfits := h.fits
  have hsb := h.sentinel_bounds
  constructor
  · rintro ⟨hne, n, rfl⟩
    rcases List.mem_cons.mp (h.body.ring.iterate_mem h.mem_rover n) with heq | hm
    · have hzero : m.size (sentinelOf arena size) = 0 :=
        (size_eq (by omega)).trans h.body.sentinelSize
      exact absurd (heq ▸ hzero) hne
    · exact mem_freeList.mp hm
  · rintro ⟨b, hb, hfree, rfl⟩
    have hbb := h.body.tiled.bounds hb
    refine ⟨by rw [h.size_of_mem hb]; omega, ?_⟩
    exact h.body.ring.exists_iterate h.mem_rover
      (List.mem_cons_of_mem _ (mem_freeList.mpr ⟨b, hb, hfree, rfl⟩))

/-- A pointer is within the free list exactly where it points into a free block. -/
theorem within_iff (h : Arena m arena size bs) :
    Within m arena bp ↔
      ∃ b ∈ bs, b.live = false ∧ b.address ≤ bp ∧ bp < b.address + 8 * b.units := by
  constructor
  · rintro ⟨f, hf, hle, hlt⟩
    obtain ⟨b, hb, hfree, rfl⟩ := h.freeBlock_iff.mp hf
    rw [h.size_of_mem hb] at hlt
    exact ⟨b, hb, hfree, hle, hlt⟩
  · rintro ⟨b, hb, hfree, hle, hlt⟩
    refine ⟨b.address, h.freeBlock_iff.mpr ⟨b, hb, hfree, rfl⟩, hle, ?_⟩
    rwa [h.size_of_mem hb]

/-- The search of `heapFree` ends, for any pointer. -/
theorem bracket_ends (h : Arena m arena size bs) (bp : ℕ) :
    ∃ q ∈ sentinelOf arena size :: freeList bs,
      (Misplaced m bp q ∨ Brackets m bp q) ∧
        Heaplib.bracket m bp kBlocks (m.arenaRover arena) =
          some (if Misplaced m bp q then none else some q) := by
  obtain ⟨p, hp, hpass⟩ := h.body.exists_passes bp
  obtain ⟨q, hq, hstop, hwalk⟩ := h.body.ring.walk (n := kBlocks)
    (g := fun q => decide (Misplaced m bp q ∨ Brackets m bp q)) h.mem_rover
    ⟨p, hp, decide_eq_true hpass⟩ h.length_le
  refine ⟨q, hq, of_decide_eq_true hstop, ?_⟩
  rw [bracket_eq_walk]
  exact congrArg _ hwalk

/-- A node in the way of a header below the sentinel has it within a free block. -/
theorem within_of_misplaced (h : Arena m arena size bs) (hbp : bp < sentinelOf arena size)
    (hq : q ∈ sentinelOf arena size :: freeList bs) (hm : Misplaced m bp q) :
    Within m arena bp := by
  have hfits := h.fits
  have hsb := h.sentinel_bounds
  -- a header on a node is on a free block's header
  have hon : ∀ x ∈ sentinelOf arena size :: freeList bs, bp = x → Within m arena bp := by
    rintro x hx rfl
    obtain ⟨b, hb, hfree, hba⟩ :=
      mem_freeList.mp ((List.mem_cons.mp hx).resolve_left (by omega))
    have hbb := h.body.tiled.bounds hb
    exact h.within_iff.mpr ⟨b, hb, hfree, by omega, by omega⟩
  rcases hm with (heq | heq) | ⟨hlt, hin⟩
  · exact hon q hq heq
  · exact hon _ (h.body.ring.next_mem hq) heq
  · obtain ⟨b, hb, hfree, rfl⟩ :=
      mem_freeList.mp ((List.mem_cons.mp hq).resolve_left (by omega))
    have hbb := h.body.tiled.bounds hb
    rw [h.size_of_mem hb, blockAt_eq (by omega)] at hin
    exact h.within_iff.mpr ⟨b, hb, hfree, by omega, hin⟩

/-- The search passes between free blocks: the block then goes back unless its end, as reckoned,
lies above the next free block. -/
theorem heapFree_of_tagged (h : Arena m arena size bs) (hne : ptr ≠ 0)
    (hin : InExtent m arena (sub32 ptr 8)) (haligned : sub32 ptr 8 % 4 = 0)
    (htag : m.next (sub32 ptr 8) = arena) :
    ∃ q ∈ sentinelOf arena size :: freeList bs,
      (Misplaced m (sub32 ptr 8) q ∧ Heaplib.heapFree m arena ptr = some (kCorrupted, m)) ∨
      (¬Misplaced m (sub32 ptr 8) q ∧ Brackets m (sub32 ptr 8) q ∧
        Heaplib.heapFree m arena ptr =
          if m.size (m.next q) ≠ 0 ∧
              m.next q < blockAt (sub32 ptr 8) (m.size (sub32 ptr 8)) then
            some (kCorrupted, m)
          else some (0, (coalesce (m.setArenaUsed arena
            (sub32 (m.arenaUsed arena) (m.size (sub32 ptr 8)))) q
              (sub32 ptr 8)).setArenaRover arena q)) := by
  obtain ⟨q, hq, hpass, hbracket⟩ := h.bracket_ends (sub32 ptr 8)
  have hout : ¬(sub32 ptr 8 < firstBlockOf arena ∨
      add32 arena (m.arenaSize arena) ≤ sub32 ptr 8) := by
    have := hin.1
    have := hin.2
    omega
  refine ⟨q, hq, ?_⟩
  unfold Heaplib.heapFree
  dsimp only
  rw [if_neg (not_not_intro h.isValid), if_neg hne, if_neg hout,
    if_neg (not_not_intro haligned), if_neg (not_not_intro htag), hbracket, Option.map_some]
  by_cases hm : Misplaced m (sub32 ptr 8) q
  · rw [if_pos hm]
    exact .inl ⟨hm, rfl⟩
  · rw [if_neg hm]
    refine .inr ⟨hm, hpass.resolve_left hm, ?_⟩
    dsimp only
    split <;> rfl

/-- A header that cannot be read is refused with no answer. -/
theorem heapFree_of_misaligned (h : Arena m arena size bs) (hmis : Misaligned m arena ptr) :
    Heaplib.heapFree m arena ptr = none := by
  obtain ⟨hne, hin, hmod⟩ := hmis
  have := hin.1
  have := hin.2
  unfold Heaplib.heapFree
  dsimp only
  rw [if_neg (not_not_intro h.isValid), if_neg hne, if_neg (by omega), if_pos hmod]

/-- **A bad pointer** is refused unless its header cannot be read or its block wraps. -/
theorem refuses_iff (h : Arena m arena size bs) (hbad : Bad m arena ptr) :
    Refuses m arena ptr ↔ ¬Fails m arena ptr := by
  have hfits := h.fits
  have hsb := h.sentinel_bounds
  constructor
  -- if it fails it does not refuse: it stops at a misaligned header, or answers 0
  · rintro ⟨code, hcode, hanswer⟩ (hmis |
      ⟨hne, hin, haligned, htag, hwithin, f, ⟨hfree, hbelow, -⟩, hleast, hend⟩)
    · rw [h.heapFree_of_misaligned hmis] at hanswer
      cases hanswer
    obtain ⟨b, hb, hbf, rfl⟩ := h.freeBlock_iff.mp hfree
    have hbb := h.body.tiled.bounds hb
    obtain ⟨q, hq, ⟨hm, -⟩ | ⟨-, hbr, hfreed⟩⟩ := h.heapFree_of_tagged hne hin haligned htag
    · exact hwithin (h.within_of_misplaced (by omega) hq hm)
    · obtain ⟨habove, hnext⟩ := h.body.next_of_brackets hq hbr (by omega)
      have hle : m.next q ≤ b.address :=
        hnext _ (mem_freeList.mpr ⟨b, hb, hbf, rfl⟩) hbelow
      have hge : b.address ≤ m.next q := by
        have hmem := (List.mem_cons.mp (h.body.ring.next_mem hq)).resolve_left (by
          unfold Memory.next at hle
          omega)
        exact hleast _ (h.freeBlock_iff.mpr (mem_freeList.mp hmem)) habove
      rw [if_neg (by omega)] at hfreed
      rw [hfreed] at hanswer
      have hzero : (0 : ℤ) = code := congrArg Prod.fst (Option.some.inj hanswer)
      omega
  -- if it does not fail, the first check that finds the pointer bad refuses it
  · intro hfails
    by_cases hne : ptr = 0
    · refine ⟨kOutOfRange, by decide, ?_⟩
      unfold Heaplib.heapFree
      dsimp only
      rw [if_neg (not_not_intro h.isValid), if_pos hne]
    by_cases hin : InExtent m arena (sub32 ptr 8)
    swap
    · refine ⟨kOutOfRange, by decide, ?_⟩
      unfold InExtent at hin
      unfold Heaplib.heapFree
      dsimp only
      rw [if_neg (not_not_intro h.isValid), if_neg hne, if_pos (by omega)]
    have haligned : sub32 ptr 8 % 4 = 0 := by
      by_contra hmod
      exact hfails (.inl ⟨hne, hin, hmod⟩)
    by_cases htag : m.next (sub32 ptr 8) = arena
    swap
    · refine ⟨kNotOwned, by decide, ?_⟩
      have := hin.1
      have := hin.2
      unfold Heaplib.heapFree
      dsimp only
      rw [if_neg (not_not_intro h.isValid), if_neg hne, if_neg (by omega),
        if_neg (not_not_intro haligned), if_pos htag]
    -- the walk ends at the free block in front of the header
    obtain ⟨q, hq, ⟨-, hfreed⟩ | ⟨hm, hbr, hfreed⟩⟩ := h.heapFree_of_tagged hne hin haligned htag
    · exact ⟨kCorrupted, by decide, hfreed⟩
    refine ⟨kCorrupted, by decide, hfreed.trans (if_pos ?_)⟩
    have hwithin : ¬Within m arena (sub32 ptr 8) := by
      intro hw
      obtain ⟨b, hb, hbf, hle, hlt⟩ := h.within_iff.mp hw
      exact hm (h.body.misplaced_of_brackets (by omega) hb hbf hle hlt hq hbr)
    -- there a bad pointer can only be one whose block runs into a free one
    obtain ⟨g, hrun⟩ : ∃ g, RunsInto m arena (sub32 ptr 8) g := by
      rcases hbad with hnull | hout | hmod | huntagged | hw | hruns
      · exact absurd hnull hne
      · exact absurd hin hout
      · exact absurd haligned hmod
      · exact absurd htag huntagged
      · exact absurd hw hwithin
      · exact hruns
    obtain ⟨hfree, hbelow, hover⟩ := id hrun
    obtain ⟨b, hb, hbf, rfl⟩ := h.freeBlock_iff.mp hfree
    have hbb := h.body.tiled.bounds hb
    obtain ⟨habove, hleast⟩ := h.body.next_of_brackets hq hbr (by omega)
    have hle : m.next q ≤ b.address := hleast _ (mem_freeList.mpr ⟨b, hb, hbf, rfl⟩) hbelow
    have hnext : FreeBlock m arena (m.next q) := by
      refine h.freeBlock_iff.mpr (mem_freeList.mp ?_)
      exact (List.mem_cons.mp (h.body.ring.next_mem hq)).resolve_left (by
        unfold Memory.next at hle
        omega)
    refine ⟨hnext.1, ?_⟩
    by_contra hend
    refine hfails (.inr ⟨hne, hin, haligned, htag, hwithin, m.next q,
      ⟨hnext, habove, by omega⟩, ?_, not_lt.mp hend⟩)
    intro g hg hlt
    exact hleast g (mem_freeList.mpr (h.freeBlock_iff.mp hg)) hlt

end Arena

/-! ### Every run -/

/-- A client that, besides what `Client.step` allows, hands in bad pointers. -/
inductive Client.Asks (arena size : ℕ) (c : Client) : Request → Client → Prop
  | granted {r : Request} {d : Client} : c.step arena size r = some d → c.Asks arena size r d
  | bad {ptr : ℕ} {answer : ℤ × Memory} : Bad c.memory arena ptr →
      heapFree c.memory arena ptr = some answer →
        c.Asks arena size (.free ptr) ⟨answer.2, c.live⟩

/-- No pointer is handed in that is not refused although it is bad. -/
def Client.Careful (arena : ℕ) (c : Client) : Request → Prop
  | .free ptr => ¬Fails c.memory arena ptr
  | _ => True

/-- A bad pointer that is refused leaves everything as it is. -/
theorem Client.Owns.asks {r : Request} (h : c.Owns arena size bs) (ha : c.Asks arena size r d)
    (hc : c.Careful arena r) : ∃ bs', d.Owns arena size bs' := by
  cases ha with
  | granted hs => exact h.step hs
  | bad hbad hanswer =>
    obtain ⟨code, -, hrefused⟩ := (h.1.refuses_iff hbad).mpr hc
    obtain rfl := Option.some.inj (hrefused.symm.trans hanswer)
    exact ⟨bs, h⟩

/-- A pointer of the client's runs into no free block. -/
theorem Client.Owns.not_runsInto (h : c.Owns arena size bs) (hptr : ptr ∈ c.live) :
    ¬RunsInto c.memory arena (sub32 ptr 8) f := by
  obtain ⟨ha, hperm⟩ := h
  have hfits := ha.fits
  have hsb := ha.sentinel_bounds
  obtain ⟨b, hb, rfl⟩ := List.mem_map.mp (hperm.mem_iff.mp hptr)
  obtain ⟨hbm, hbl⟩ := mem_liveBlocks.mp hb
  have hbb := ha.body.tiled.bounds hbm
  have hbp : sub32 (b.address + 8) 8 = b.address := by
    rw [sub32_eq (by omega) (by omega), Nat.add_sub_cancel]
  rw [hbp]
  rintro ⟨hfree, hlt, hover⟩
  obtain ⟨e, he, hef, rfl⟩ := ha.freeBlock_iff.mp hfree
  rw [ha.size_of_mem hbm] at hover
  rcases ha.body.tiled.apart hbm he with rfl | hbe | heb
  · omega
  · omega
  · omega

/-- A pointer of the client's has its header at a multiple of four. -/
theorem Client.Owns.aligned (h : c.Owns arena size bs) (hptr : ptr ∈ c.live) :
    sub32 ptr 8 % 4 = 0 := by
  obtain ⟨ha, hperm⟩ := h
  have hfits := ha.fits
  have hsb := ha.sentinel_bounds
  obtain ⟨b, hb, rfl⟩ := List.mem_map.mp (hperm.mem_iff.mp hptr)
  have hbm := (mem_liveBlocks.mp hb).1
  have hbb := ha.body.tiled.bounds hbm
  have hmod := ha.body.tiled.address_mod hbm
  have haligned := ha.aligned
  rw [sub32_eq (by omega) (by omega), Nat.add_sub_cancel]
  omega

/-- The client's own requests are careful ones. -/
theorem Client.Owns.careful (h : c.Owns arena size bs) {r : Request}
    (hs : c.step arena size r = some d) : c.Careful arena r := by
  cases r with
  | alloc requested => trivial
  | write address value => trivial
  | free ptr =>
    have hptr : ptr ∈ c.live := by
      by_contra hnot
      rw [Client.step, if_neg hnot] at hs
      cases hs
    rintro (⟨-, -, hmod⟩ | ⟨-, -, -, -, -, f, hruns, -⟩)
    · exact hmod (h.aligned hptr)
    · exact h.not_runsInto hptr hruns

/-- So a run of such requests is one that may go on with bad pointers. -/
theorem Client.Owns.asks_of_steps {requests : List Request} (h : c.Owns arena size bs)
    (hrun : Steps (fun c r d => Client.step arena size c r = some d) c requests d) :
    Steps (fun c r d => Client.Asks arena size c r d ∧ c.Careful arena r) c requests d := by
  have hsim : ∃ d', Steps (fun c r d => Client.Asks arena size c r d ∧ c.Careful arena r) c
      requests d' ∧ d = d' ∧ ∃ bs, d.Owns arena size bs := by
    refine hrun.simulation (R := fun c d => c = d ∧ ∃ bs, c.Owns arena size bs) ?_ ⟨rfl, bs, h⟩
    rintro c _ r d ⟨rfl, bs, hc⟩ hs
    exact ⟨d, ⟨.granted hs, hc.careful hs⟩, rfl, hc.step hs⟩
  obtain ⟨_, hsteps, rfl, -⟩ := hsim
  exact hsteps

/-- **HeapFree refuses bad pointers**: after any run of requests on a prepared arena, among them
bad pointers that are refused, a bad pointer is refused, with the memory as it was, exactly when its
header can be read and its block does not wrap. -/
theorem refuses_bad_pointers (h : Extent arena size) (m : Memory) {requests : List Request}
    (hrun : Steps (fun c r d => Client.Asks arena size c r d ∧ c.Careful arena r)
      ⟨heapPrepare m arena size, []⟩ requests c) (ptr : ℕ) (hbad : Bad c.memory arena ptr) :
    Refuses c.memory arena ptr ↔ ¬Fails c.memory arena ptr := by
  obtain ⟨bs, ha, -⟩ : ∃ bs, c.Owns arena size bs :=
    hrun.invariant (I := fun c => ∃ bs, c.Owns arena size bs)
      (fun c r d ⟨bs, hc⟩ hs => hc.asks hs.1 hs.2) ⟨_, h.heapPrepare m, List.Perm.nil⟩
  exact ha.refuses_iff hbad

/-- A block is given back with the tag in its middle, and then what the tag is on. -/
theorem refuses_pointer_into_free_block : ∃ c : Client,
    runList (Client.step 0x1000 0x100) ⟨heapPrepare (fun _ => 0) 0x1000 0x100, []⟩
      [.alloc 24, .write 0x10E8 0x1000, .free 0x10E0] = some c ∧
        c.memory.next 0x10E8 = 0x1000 ∧ Refuses c.memory 0x1000 0x10F0 := by
  have hextent : Extent 0x1000 0x100 := ⟨by decide, by decide, by decide, by decide, by decide⟩
  have hend : (runList (Client.step 0x1000 0x100) ⟨heapPrepare (fun _ => 0) 0x1000 0x100, []⟩
      [.alloc 24, .write 0x10E8 0x1000, .free 0x10E0]).map (fun c => (c.memory.next 0x10E8,
        c.memory.arenaRover 0x1000, c.memory.size 0x1010)) = some (0x1000, 0x1010, 0x1D) := by
    decide +kernel
  obtain ⟨c, hc, hwords⟩ := Option.map_eq_some_iff.mp hend
  obtain ⟨htag, hrover, hsize⟩ : c.memory.next 0x10E8 = 0x1000 ∧
      c.memory.arenaRover 0x1000 = 0x1010 ∧ c.memory.size 0x1010 = 0x1D := by
    simpa using hwords
  have hwithin : Within c.memory 0x1000 (sub32 0x10F0 8) := by
    refine ⟨0x1010, ⟨?_, 0, hrover⟩, by decide, ?_⟩
    · rw [hsize]
      decide
    · rw [hsize]
      decide
  have howns : Client.Owns ⟨heapPrepare (fun _ => 0) 0x1000 0x100, []⟩ 0x1000 0x100 _ :=
    ⟨hextent.heapPrepare _, List.Perm.nil⟩
  refine ⟨c, hc, htag, (refuses_bad_pointers hextent _ (howns.asks_of_steps
    (Steps.of_runList (fun _ _ _ h => h) hc)) 0x10F0
      (.inr (.inr (.inr (.inr (.inl hwithin)))))).mpr ?_⟩
  rintro (⟨-, -, hmod⟩ | ⟨-, -, -, -, hout, -⟩)
  · exact hmod (by decide)
  · exact hout hwithin

/-- The block below a free one is given a header of its owner's making, whose size is all the
addresses there are: handing it in is not refused. -/
theorem wraps_not_refused : ∃ (c : Client) (requests : List Request),
    Steps (fun c r d => Client.Asks 0x1000 0x100 c r d)
      ⟨heapPrepare (fun _ => 0) 0x1000 0x100, []⟩ requests c ∧
        c.memory.next (sub32 0x10D0 8) = 0x1000 ∧
          (∃ f, RunsInto c.memory 0x1000 (sub32 0x10D0 8) f) ∧ ¬Refuses c.memory 0x1000 0x10D0 := by
  have hend : (runList (Client.step 0x1000 0x100) ⟨heapPrepare (fun _ => 0) 0x1000 0x100, []⟩
      [.alloc 24, .alloc 16, .free 0x10E0, .write 0x10C8 0x1000, .write 0x10CC 0x20000000]).map
        (fun c => ((c.memory.next 0x10C8, c.memory.size 0x10C8, c.memory.size 0x10D8),
          c.memory.arenaRover 0x1000, c.memory.next 0x1010,
            (heapFree c.memory 0x1000 0x10D0).map Prod.fst)) =
          some ((0x1000, 0x20000000, 4), 0x1010, 0x10D8, some 0) := by
    decide +kernel
  obtain ⟨c, hc, hwords⟩ := Option.map_eq_some_iff.mp hend
  obtain ⟨⟨htag, hsize, hsize'⟩, hrover, hnext, hanswer⟩ : (c.memory.next 0x10C8 = 0x1000 ∧
      c.memory.size 0x10C8 = 0x20000000 ∧ c.memory.size 0x10D8 = 4) ∧
        c.memory.arenaRover 0x1000 = 0x1010 ∧ c.memory.next 0x1010 = 0x10D8 ∧
          (heapFree c.memory 0x1000 0x10D0).map Prod.fst = some 0 := by
    simpa using hwords
  refine ⟨c, _, Steps.of_runList (fun _ _ _ h => .granted h) hc, htag, ⟨0x10D8, ⟨?_, 1, ?_⟩,
    by decide, ?_⟩, ?_⟩
  · rw [hsize']
    decide
  · rw [Function.iterate_one, hrover, hnext]
  · change 0x10D8 < 0x10C8 + 8 * c.memory.size 0x10C8
    rw [hsize]
    decide
  · rintro ⟨code, hcode, hrefused⟩
    rw [hrefused, Option.map_some] at hanswer
    have hzero : code = 0 := Option.some.inj hanswer
    omega

end PS2Bios.Heaplib
