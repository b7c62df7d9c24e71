import Mathlib.Data.List.Chain
import PS2Bios.Heaplib.Arena
import PS2Bios.Library.Ring
import PS2Bios.Library.Tiling

/-!
# The blocks of an arena

`Body m arena first sentinel bs` says that the memory holds the blocks `bs`, tiling the range
from the first header to the sentinel: every header has its block's size, an allocated one the
ownership tag, and the free ones are threaded, in address order, on a ring that begins and ends
at the sentinel.

What an allocation or a release does to the memory is one or two edits of such a body. An
allocation takes a whole free block (`Body.take`) or the tail of one (`Body.cut`). A release
first lets go of the block's tag, alone or with the free block after it (`Body.loosen`,
`Body.loosenMerged`), which leaves it `Loose` between two parts of the free list, and then
fastens it there, alone or with the free block before it (`Loose.fasten`, `Loose.fastenMerged`).
-/

namespace PS2Bios.Heaplib

open Intrusive Tiling

/-- A block: where its header is, how many units it has with it, and whether it is allocated. -/
structure Block where
  address : ℕ
  units : ℕ
  live : Bool
deriving DecidableEq

/-- The end of a block. -/
def Block.stop (b : Block) : ℕ := b.address + 8 * b.units

/-- The blocks tile the range from `a` to `e`. -/
abbrev Tiled (a : ℕ) (bs : List Block) (e : ℕ) : Prop := Tiles Block.address Block.stop a bs e

/-- The free blocks' headers, in address order. -/
def freeList (bs : List Block) : List ℕ := (bs.filter fun b => !b.live).map Block.address

/-- The allocated blocks. -/
def liveBlocks (bs : List Block) : List Block := bs.filter fun b => b.live

/-- The units of the allocated blocks. -/
def liveUnits (bs : List Block) : ℕ := ((liveBlocks bs).map Block.units).sum

/-- The units of the free blocks. -/
def freeUnits (bs : List Block) : ℕ := ((bs.filter fun b => !b.live).map Block.units).sum

/-- No two free blocks are adjacent. -/
def Spaced (bs : List Block) : Prop := bs.IsChain fun b c => b.live = true ∨ c.live = true

/-- The header of the block is in the memory. -/
def Written (m : Memory) (arena : ℕ) (b : Block) : Prop :=
  m (b.address + 4) = b.units ∧ (b.live = true → m b.address = arena)

/-- The memory holds the blocks `bs`, from the first header to the sentinel. -/
structure Body (m : Memory) (arena first sentinel : ℕ) (bs : List Block) : Prop where
  tiled : Tiled first bs sentinel
  written : ∀ b ∈ bs, Written m arena b
  sentinelSize : m (sentinel + 4) = 0
  links : Leads m (sentinel :: freeList bs) sentinel

/-- The memory holds the blocks `l` and `r`, and between them `b`, which is on no list: it leads
to the first free block after it, and no block leads to it. -/
structure Loose (m : Memory) (arena first sentinel : ℕ) (l : List Block) (b : Block)
    (r : List Block) : Prop where
  tiled : Tiled first (l ++ b :: r) sentinel
  before : ∀ c ∈ l, Written m arena c
  after : ∀ c ∈ r, Written m arena c
  units : m (b.address + 4) = b.units
  next : m b.address = (freeList r).headD sentinel
  sentinelSize : m (sentinel + 4) = 0
  left : ∃ y, Leads m (sentinel :: freeList l) y
  right : Leads m (freeList r) sentinel

variable {m : Memory} {arena first sentinel x v q u : ℕ} {bs l r : List Block} {b c d : Block}
  {pre : List ℕ}

/-! ### Lists of blocks -/

@[simp] theorem freeList_nil : freeList [] = [] := rfl

@[simp] theorem freeList_append : freeList (l ++ r) = freeList l ++ freeList r := by
  simp [freeList]

theorem freeList_cons_free (hb : b.live = false) : freeList (b :: r) = b.address :: freeList r := by
  simp [freeList, hb]

theorem freeList_cons_live (hb : b.live = true) : freeList (b :: r) = freeList r := by
  simp [freeList, hb]

theorem mem_freeList : x ∈ freeList bs ↔ ∃ b ∈ bs, b.live = false ∧ b.address = x := by
  simp [freeList, and_assoc]

@[simp] theorem liveBlocks_append : liveBlocks (l ++ r) = liveBlocks l ++ liveBlocks r :=
  List.filter_append l r

theorem liveBlocks_cons_live (hb : b.live = true) : liveBlocks (b :: r) = b :: liveBlocks r :=
  List.filter_cons_of_pos hb

theorem liveBlocks_cons_free (hb : b.live = false) : liveBlocks (b :: r) = liveBlocks r :=
  List.filter_cons_of_neg (by simp [hb])

theorem mem_liveBlocks : b ∈ liveBlocks bs ↔ b ∈ bs ∧ b.live = true := List.mem_filter

@[simp] theorem liveUnits_append : liveUnits (l ++ r) = liveUnits l + liveUnits r := by
  simp [liveUnits]

theorem liveUnits_cons : liveUnits (b :: r) = (if b.live then b.units else 0) + liveUnits r := by
  cases hb : b.live <;> simp [liveUnits, liveBlocks, hb]

theorem freeUnits_cons : freeUnits (b :: r) = (if b.live then 0 else b.units) + freeUnits r := by
  cases hb : b.live <;> simp [freeUnits, hb]

/-- A list is spaced when both its parts are and the block between them has no free neighbour of its
own kind. -/
theorem spaced_middle : Spaced (l ++ b :: r) ↔ Spaced l ∧ Spaced r ∧
    (∀ c ∈ l.getLast?, c.live = true ∨ b.live = true) ∧
      ∀ c ∈ r.head?, b.live = true ∨ c.live = true := by
  unfold Spaced
  rw [List.isChain_append, List.isChain_cons]
  simp only [List.head?_cons, Option.mem_def, Option.some.injEq, forall_eq']
  tauto

/-- Blocks tile an extent when those in front end where the block begins and those behind begin
where it ends. -/
theorem tiled_middle : Tiled first (l ++ b :: r) sentinel ↔
    Tiled first l b.address ∧ 0 < b.units ∧ Tiled (b.address + 8 * b.units) r sentinel := by
  have hlt : b.address < b.stop ↔ 0 < b.units := by
    unfold Block.stop
    omega
  exact tiles_middle.trans (and_congr_right' (and_congr_left' hlt))

theorem Tiled.bounds (h : Tiled first bs sentinel) (hb : b ∈ bs) :
    first ≤ b.address ∧ 0 < b.units ∧ b.address + 8 * b.units ≤ sentinel := by
  obtain ⟨h₁, h₂, h₃⟩ := Tiles.bounds h hb
  unfold Block.stop at h₂ h₃
  omega

theorem Tiled.apart (h : Tiled first bs sentinel) (hb : b ∈ bs) (hc : c ∈ bs) :
    b = c ∨ b.address + 8 * b.units ≤ c.address ∨ c.address + 8 * c.units ≤ b.address :=
  Tiles.apart h hb hc

/-- A block is whole units away from where the range begins. -/
theorem Tiled.address_mod (h : Tiled first bs sentinel) (hb : b ∈ bs) :
    b.address % 8 = first % 8 := by
  induction bs generalizing first with
  | nil => cases hb
  | cons c bs ih =>
    obtain ⟨rfl, -, hbs⟩ := h
    rcases List.mem_cons.mp hb with rfl | hb
    · rfl
    · rw [ih hbs hb]
      unfold Block.stop
      omega

/-- The blocks take up the range. -/
theorem Tiled.units_eq (h : Tiled first bs sentinel) :
    first + 8 * (liveUnits bs + freeUnits bs) = sentinel := by
  induction bs generalizing first with
  | nil => exact h
  | cons b bs ih =>
    obtain ⟨rfl, -, hbs⟩ := h
    have := ih hbs
    rw [liveUnits_cons, freeUnits_cons]
    unfold Block.stop at this
    cases b.live <;> simp only [if_true, if_false, Bool.false_eq_true] <;> omega

theorem Tiled.free_bounds (h : Tiled first bs sentinel) (hx : x ∈ freeList bs) :
    first ≤ x ∧ x + 8 ≤ sentinel := by
  obtain ⟨b, hb, -, rfl⟩ := mem_freeList.mp hx
  have := h.bounds hb
  omega

/-- A node of the ring is the sentinel or lies below it. -/
theorem Tiled.node_bounds (h : Tiled first bs v) (hx : x ∈ sentinel :: freeList bs) :
    x = sentinel ∨ first ≤ x ∧ x + 8 ≤ v :=
  (List.mem_cons.mp hx).imp_right h.free_bounds

/-- The free list is in address order. -/
theorem Tiled.freeList_sorted (h : Tiled first bs sentinel) :
    (freeList bs).Pairwise (· < ·) := by
  refine List.pairwise_map.mpr (List.Pairwise.imp_of_mem ?_ (h.pairwise.filter _))
  intro b c hb _ hbc
  have := h.bounds (List.mem_of_mem_filter hb)
  unfold Block.stop at hbc
  omega

theorem Tiled.ring_nodup (h : Tiled first bs sentinel) : (sentinel :: freeList bs).Nodup := by
  refine List.nodup_cons.mpr ⟨fun hm => ?_, h.freeList_sorted.imp Nat.ne_of_lt⟩
  have := h.free_bounds hm
  omega

/-! ### Edits of the memory -/

theorem Written.congr {f : Memory} (h : Written m arena b)
    (hs : f (b.address + 4) = m (b.address + 4)) (ht : f b.address = m b.address) :
    Written f arena b :=
  ⟨hs.trans h.1, fun hl => ht.trans (h.2 hl)⟩

theorem Written.update (h : Written m arena b) (hs : b.address + 4 ≠ x)
    (ht : b.live = true → b.address ≠ x) : Written (Function.update m x v) arena b :=
  ⟨(Function.update_of_ne hs v m).trans h.1,
    fun hl => (Function.update_of_ne (ht hl) v m).trans (h.2 hl)⟩

/-- A link of the ring is in no allocated block's header, and in no block's size. -/
theorem Tiled.written_link (h : Tiled first bs sentinel) (hx : x ∈ sentinel :: freeList bs)
    (hc : c ∈ bs) (hw : Written m arena c) : Written (Function.update m x v) arena c := by
  have hcb := h.bounds hc
  rcases List.mem_cons.mp hx with rfl | hx
  · exact hw.update (by omega) fun _ => by omega
  · obtain ⟨d, hd, hdl, rfl⟩ := mem_freeList.mp hx
    have hdb := h.bounds hd
    rcases h.apart hc hd with rfl | hcd | hcd
    · exact hw.update (by omega) fun hl => absurd hl (by simp [hdl])
    · exact hw.update (by omega) fun _ => by omega
    · exact hw.update (by omega) fun _ => by omega

/-- The words of one block are in no other block's header. -/
theorem Tiled.written_within (h : Tiled first (l ++ b :: r) sentinel) (hx : b.address ≤ x)
    (hxb : x < b.address + 8 * b.units) (hc : c ∈ l ++ r) (hw : Written m arena c) :
    Written (Function.update m x v) arena c := by
  obtain ⟨hl, -, hr⟩ := tiled_middle.mp h
  have : c.address + 8 ≤ b.address ∨ b.address + 8 * b.units ≤ c.address := by
    rcases List.mem_append.mp hc with hc | hc
    · have := hl.bounds hc
      omega
    · exact .inr (hr.bounds hc).1
  exact hw.update (by omega) fun _ => by omega

/-- Lead from the last free block of `l`, or from the sentinel, to the list `fr`. -/
theorem relink {fr : List ℕ} {y : ℕ} (hn : (sentinel :: freeList l ++ fr).Nodup)
    (hq : sentinel :: freeList l = pre ++ [q]) (hl : Leads m (sentinel :: freeList l) y)
    (hr : Leads m fr sentinel) :
    Leads (Function.update m q (fr.headD sentinel)) (sentinel :: (freeList l ++ fr)) sentinel := by
  rw [hq] at hl hn
  rw [← List.cons_append, hq, List.append_assoc]
  obtain ⟨-, -, hdisj⟩ := List.nodup_append.mp hn
  obtain ⟨-, -, hpre⟩ := List.nodup_append.mp (List.nodup_append.mp hn).1
  refine Leads.relink hl hr (fun hm => ?_) fun hm => ?_
  · exact hpre q hm q List.mem_cons_self rfl
  · exact hdisj q (List.mem_append_right pre List.mem_cons_self) q hm rfl

namespace Body

/-- Only the words from the first header to the sentinel matter. -/
theorem congr {f : Memory} (h : Body m arena first sentinel bs)
    (hf : ∀ x, first ≤ x → x < sentinel + 8 → f x = m x) : Body f arena first sentinel bs where
  tiled := h.tiled
  written b hb := by
    have := h.tiled.bounds hb
    exact (h.written b hb).congr (hf _ (by omega) (by omega)) (hf _ (by omega) (by omega))
  sentinelSize := (hf _ (by have := h.tiled.le; omega) (by omega)).trans h.sentinelSize
  links := by
    refine h.links.congr fun x hx => ?_
    have hle := h.tiled.le
    rcases h.tiled.node_bounds hx with rfl | hx
    · exact hf _ hle (by omega)
    · exact hf _ (by omega) (by omega)

/-- What its owner does to the bytes of an allocated block leaves the body as it is. -/
theorem write (h : Body m arena first sentinel (l ++ b :: r)) (hl : b.live = true)
    (hx : b.address + 8 ≤ x) (hxb : x < b.address + 8 * b.units) :
    Body (Function.update m x v) arena first sentinel (l ++ b :: r) where
  tiled := h.tiled
  written c hc := by
    rcases List.mem_append.mp hc with hcl | hcr
    · exact h.tiled.written_within (by omega) hxb (List.mem_append_left r hcl) (h.written c hc)
    rcases List.mem_cons.mp hcr with rfl | hcr
    · exact (h.written c hc).update (by omega) fun _ => by omega
    · exact h.tiled.written_within (by omega) hxb (List.mem_append_right l hcr) (h.written c hc)
  sentinelSize := by
    have := h.tiled.bounds (List.mem_append_right l List.mem_cons_self)
    rw [Function.update_of_ne (by omega), h.sentinelSize]
  links := by
    obtain ⟨htl, -, htr⟩ := tiled_middle.mp h.tiled
    have hbb := h.tiled.bounds (List.mem_append_right l List.mem_cons_self)
    refine h.links.congr fun y hy => Function.update_of_ne ?_ v m
    rw [freeList_append, freeList_cons_live hl, List.mem_cons, List.mem_append] at hy
    rcases hy with rfl | hy | hy
    · omega
    · have := htl.free_bounds hy
      omega
    · have := htr.free_bounds hy
      omega

/-- The ring of the free list. -/
theorem ring (h : Body m arena first sentinel bs) : Ring m (sentinel :: freeList bs) :=
  ring_cons.mpr ⟨h.tiled.ring_nodup, h.links⟩

/-- A free block leads to the first free block after it. -/
theorem next_eq (h : Body m arena first sentinel (l ++ b :: r)) (hb : b.live = false) :
    m b.address = (freeList r).headD sentinel := by
  have hlinks := h.links
  rw [freeList_append, freeList_cons_free hb, ← List.cons_append] at hlinks
  exact (leads_append.mp hlinks).2.1

/-- The last free block of `l`, or the sentinel, leads to the first free block after `l`. -/
theorem next_prev (h : Body m arena first sentinel (l ++ r))
    (hq : sentinel :: freeList l = pre ++ [q]) : m q = (freeList r).headD sentinel := by
  have hlinks := h.links
  rw [freeList_append, ← List.cons_append, hq] at hlinks
  exact (leads_append.mp (leads_append.mp hlinks).1).2.1

/-- Take a whole free block. -/
theorem take (h : Body m arena first sentinel (l ++ b :: r)) (hb : b.live = false)
    (hq : sentinel :: freeList l = pre ++ [q]) :
    Body (Function.update (Function.update m q (m b.address)) b.address arena) arena first
      sentinel (l ++ { b with live := true } :: r) := by
  obtain ⟨hl, hpos, hr⟩ := tiled_middle.mp h.tiled
  have hbb := h.tiled.bounds (List.mem_append_right l List.mem_cons_self)
  have hqm : q ∈ sentinel :: freeList l := hq ▸ List.mem_append_right pre List.mem_cons_self
  have hqr : q ∈ sentinel :: freeList (l ++ b :: r) := by
    rw [freeList_append, ← List.cons_append]
    exact List.mem_append_left _ hqm
  have hqb := hl.node_bounds hqm
  -- a link and a tag are all that is written
  have hother : ∀ c ∈ l ++ r, Written (Function.update (Function.update m q (m b.address))
      b.address arena) arena c := by
    intro c hc
    have hcm : c ∈ l ++ b :: r := by
      simp only [List.mem_append, List.mem_cons] at hc ⊢
      tauto
    exact h.tiled.written_within le_rfl (by omega) hc
      (h.tiled.written_link hqr hcm (h.written c hcm))
  -- the ring passes the block by
  have hlinks : Leads (Function.update m q (m b.address)) (sentinel :: (freeList l ++ freeList r))
      sentinel := by
    have hring := h.links
    have hn := h.tiled.ring_nodup
    rw [h.next_eq hb]
    rw [freeList_append, freeList_cons_free hb, ← List.cons_append] at hring hn
    obtain ⟨hleft, hright⟩ := leads_append.mp hring
    exact relink (hn.sublist (List.Sublist.append_left (List.sublist_cons_self _ _) _)) hq hleft
      hright.2
  refine ⟨tiled_middle.mpr ⟨hl, hpos, hr⟩, fun c hc => ?_, ?_, ?_⟩
  · rcases List.mem_append.mp hc with hc | hc
    · exact hother c (List.mem_append_left r hc)
    rcases List.mem_cons.mp hc with rfl | hc
    · refine ⟨?_, fun _ => Function.update_self ..⟩
      dsimp only
      rw [Function.update_of_ne (by omega), Function.update_of_ne (by omega)]
      exact (h.written b (List.mem_append_right l List.mem_cons_self)).1
    · exact hother c (List.mem_append_right l hc)
  · rw [Function.update_of_ne (by omega), Function.update_of_ne (by omega), h.sentinelSize]
  · rw [freeList_append, freeList_cons_live rfl]
    refine hlinks.congr fun x hx => Function.update_of_ne ?_ _ _
    rw [List.mem_cons, List.mem_append] at hx
    rcases hx with rfl | hx | hx
    · omega
    · have := hl.free_bounds hx
      omega
    · have := hr.free_bounds hx
      omega

/-- Take the tail of a free block. -/
theorem cut (h : Body m arena first sentinel (l ++ b :: r)) (hb : b.live = false) (hu : 0 < u)
    (hub : u < b.units) (hx : x = b.address + 8 * (b.units - u)) :
    Body (Function.update (Function.update (Function.update m (b.address + 4) (b.units - u))
        (x + 4) u) x arena) arena first sentinel
      (l ++ { b with units := b.units - u } :: ⟨x, u, true⟩ :: r) := by
  obtain ⟨hl, hpos, hr⟩ := tiled_middle.mp h.tiled
  have hbb := h.tiled.bounds (List.mem_append_right l List.mem_cons_self)
  -- the three words written are in the block that is cut, or at its new end
  have hother : ∀ c ∈ l ++ r, Written (Function.update (Function.update (Function.update m
      (b.address + 4) (b.units - u)) (x + 4) u) x arena) arena c := by
    intro c hc
    have hcm : c ∈ l ++ b :: r := by
      simp only [List.mem_append, List.mem_cons] at hc ⊢
      tauto
    have h₁ := h.tiled.written_within (v := b.units - u) (Nat.le_add_right _ 4) (by omega) hc
      (h.written c hcm)
    have h₂ := h.tiled.written_within (v := u) (x := x + 4) (by omega) (by omega) hc h₁
    exact h.tiled.written_within (by omega) (by omega) hc h₂
  refine ⟨?_, fun c hc => ?_, ?_, ?_⟩
  · refine tiled_middle.mpr ⟨hl, by dsimp only; omega, hx.symm ▸ ?_⟩
    refine tiled_middle (l := []) |>.mpr ⟨rfl, hu, ?_⟩
    convert hr using 1
    dsimp only
    omega
  · rcases List.mem_append.mp hc with hc | hc
    · exact hother c (List.mem_append_left r hc)
    -- the part that stays free has its new size, and the part cut off is tagged
    rcases List.mem_cons.mp hc with rfl | hc
    · refine ⟨?_, fun hlive => absurd hlive (by simp [hb])⟩
      dsimp only
      rw [Function.update_of_ne (by omega), Function.update_of_ne (by omega),
        Function.update_self]
    rcases List.mem_cons.mp hc with rfl | hc
    · refine ⟨?_, fun _ => Function.update_self ..⟩
      dsimp only
      rw [Function.update_of_ne (by omega), Function.update_self]
    · exact hother c (List.mem_append_right l hc)
  · rw [Function.update_of_ne (by omega), Function.update_of_ne (by omega),
      Function.update_of_ne (by omega), h.sentinelSize]
  · have hlinks := h.links
    rw [freeList_append, freeList_cons_free hb] at hlinks
    have hfree : freeList (l ++ { b with units := b.units - u } :: ⟨x, u, true⟩ :: r) =
        freeList l ++ b.address :: freeList r := by
      rw [freeList_append, freeList_cons_free (by exact hb), freeList_cons_live rfl]
    rw [hfree]
    refine hlinks.congr fun y hy => ?_
    -- the link words of the ring are not among the words written
    have hy' : y = sentinel ∨ y + 8 ≤ b.address ∨ y = b.address ∨ b.address + 8 * b.units ≤ y := by
      rw [List.mem_cons, List.mem_append, List.mem_cons] at hy
      rcases hy with hy | hy | hy | hy
      · exact .inl hy
      · exact .inr (.inl (hl.free_bounds hy).2)
      · exact .inr (.inr (.inl hy))
      · exact .inr (.inr (.inr (hr.free_bounds hy).1))
    rw [Function.update_of_ne (by omega), Function.update_of_ne (by omega),
      Function.update_of_ne (by omega)]

/-- Let go of an allocated block. -/
theorem loosen (h : Body m arena first sentinel (l ++ b :: r)) (hb : b.live = true) :
    Loose (Function.update m b.address ((freeList r).headD sentinel)) arena first sentinel l
      { b with live := false } r := by
  obtain ⟨hl, hpos, hr⟩ := tiled_middle.mp h.tiled
  have hbb := h.tiled.bounds (List.mem_append_right l List.mem_cons_self)
  have hlinks := h.links
  rw [freeList_append, freeList_cons_live hb, ← List.cons_append] at hlinks
  obtain ⟨hleft, hright⟩ := leads_append.mp hlinks
  refine ⟨tiled_middle.mpr ⟨hl, hpos, hr⟩, fun c hc => ?_, fun c hc => ?_, ?_,
    Function.update_self .., ?_, ⟨_, hleft.congr fun x hx => Function.update_of_ne ?_ _ _⟩,
    hright.congr fun x hx => Function.update_of_ne ?_ _ _⟩
  · exact h.tiled.written_within le_rfl (by omega) (List.mem_append_left r hc)
      (h.written c (List.mem_append_left _ hc))
  · exact h.tiled.written_within le_rfl (by omega) (List.mem_append_right l hc)
      (h.written c (List.mem_append_right l (List.mem_cons_of_mem b hc)))
  · dsimp only
    rw [Function.update_of_ne (by omega)]
    exact (h.written b (List.mem_append_right l List.mem_cons_self)).1
  · rw [Function.update_of_ne (by omega), h.sentinelSize]
  · have := hl.node_bounds hx
    omega
  · have := hr.free_bounds hx
    omega

/-- Let go of an allocated block together with the free block after it. -/
theorem loosenMerged (h : Body m arena first sentinel (l ++ b :: d :: r)) (hb : b.live = true)
    (hd : d.live = false) :
    Loose (Function.update (Function.update m (b.address + 4) (b.units + d.units)) b.address
      (m d.address)) arena first sentinel l ⟨b.address, b.units + d.units, false⟩ r := by
  obtain ⟨hl, hpos, hdr⟩ := tiled_middle.mp h.tiled
  obtain ⟨hdb, hdpos, hr⟩ := tiled_middle (l := []).mp hdr
  have hbb := h.tiled.bounds (List.mem_append_right l List.mem_cons_self)
  have hdd := hdr.bounds List.mem_cons_self
  have hdb : b.address + 8 * b.units = d.address := hdb
  have hlinks := h.links
  rw [freeList_append, freeList_cons_live hb, freeList_cons_free hd, ← List.cons_append] at hlinks
  obtain ⟨hleft, hright⟩ := leads_append.mp hlinks
  have hother : ∀ c ∈ l ++ d :: r, Written (Function.update (Function.update m (b.address + 4)
      (b.units + d.units)) b.address (m d.address)) arena c := by
    intro c hc
    have hcm : c ∈ l ++ b :: d :: r := by
      simp only [List.mem_append, List.mem_cons] at hc ⊢
      tauto
    exact h.tiled.written_within le_rfl (by omega) hc
      (h.tiled.written_within (by omega) (by omega) hc (h.written c hcm))
  refine ⟨tiled_middle.mpr ⟨hl, by dsimp only; omega, ?_⟩,
    fun c hc => hother c (List.mem_append_left _ hc),
    fun c hc => hother c (List.mem_append_right l (List.mem_cons_of_mem d hc)), ?_,
    (Function.update_self ..).trans hright.1, ?_, ⟨_, hleft.congr fun x hx => ?_⟩,
    hright.2.congr fun x hx => ?_⟩
  · convert hr using 1
    dsimp only
    omega
  · dsimp only
    rw [Function.update_of_ne (by omega), Function.update_self]
  · rw [Function.update_of_ne (by omega), Function.update_of_ne (by omega), h.sentinelSize]
  · have := hl.node_bounds hx
    rw [Function.update_of_ne (by omega), Function.update_of_ne (by omega)]
  · have := hr.free_bounds hx
    rw [Function.update_of_ne (by omega), Function.update_of_ne (by omega)]

end Body

namespace Loose

/-- Put a loose block on the free list. -/
theorem fasten (h : Loose m arena first sentinel l b r) (hb : b.live = false)
    (hq : sentinel :: freeList l = pre ++ [q]) :
    Body (Function.update m q b.address) arena first sentinel (l ++ b :: r) := by
  obtain ⟨hl, hpos, hr⟩ := tiled_middle.mp h.tiled
  have hqm : q ∈ sentinel :: freeList l := hq ▸ List.mem_append_right pre List.mem_cons_self
  have hqr : q ∈ sentinel :: freeList (l ++ b :: r) := by
    rw [freeList_append, ← List.cons_append]
    exact List.mem_append_left _ hqm
  have hqb := hl.node_bounds hqm
  have hbb := h.tiled.bounds (List.mem_append_right l List.mem_cons_self)
  refine ⟨h.tiled, fun c hc => h.tiled.written_link hqr hc ?_, ?_, ?_⟩
  · rcases List.mem_append.mp hc with hc | hc
    · exact h.before c hc
    rcases List.mem_cons.mp hc with rfl | hc
    · exact ⟨h.units, fun hlive => absurd hlive (by simp [hb])⟩
    · exact h.after c hc
  · rw [Function.update_of_ne (by omega), h.sentinelSize]
  · obtain ⟨y, hleft⟩ := h.left
    have hn := h.tiled.ring_nodup
    rw [freeList_append, freeList_cons_free hb] at hn ⊢
    exact relink hn hq hleft ⟨h.next, h.right⟩

/-- Join a loose block to the free block before it. -/
theorem fastenMerged (h : Loose m arena first sentinel (l ++ [d]) b r) (hd : d.live = false) :
    Body (Function.update (Function.update m (d.address + 4) (d.units + b.units)) d.address
      (m b.address)) arena first sentinel (l ++ { d with units := d.units + b.units } :: r) := by
  obtain ⟨hld, hpos, hr⟩ := tiled_middle.mp h.tiled
  obtain ⟨hl, hdpos, hdb⟩ := tiled_middle.mp hld
  have hdb : d.address + 8 * d.units = b.address := hdb
  have hbb := h.tiled.bounds (List.mem_append_right _ List.mem_cons_self)
  have hdd := hld.bounds (List.mem_append_right l List.mem_cons_self)
  have htiled : Tiled first (l ++ { d with units := d.units + b.units } :: r) sentinel := by
    refine tiled_middle.mpr ⟨hl, by dsimp only; omega, ?_⟩
    convert hr using 1
    dsimp only
    omega
  -- only the block in front is written: its size, and its link
  have hother : ∀ c ∈ l ++ r, Written m arena c → Written (Function.update (Function.update m
      (d.address + 4) (d.units + b.units)) d.address (m b.address)) arena c := fun c hc hw =>
    htiled.written_within le_rfl (by dsimp only; omega) hc
      (htiled.written_within (Nat.le_add_right _ 4) (by dsimp only; omega) hc hw)
  refine ⟨htiled, fun c hc => ?_, ?_, ?_⟩
  · rcases List.mem_append.mp hc with hc | hc
    · exact hother c (List.mem_append_left r hc) (h.before c (List.mem_append_left _ hc))
    rcases List.mem_cons.mp hc with rfl | hc
    · refine ⟨?_, fun hlive => absurd hlive (by simp [hd])⟩
      dsimp only
      rw [Function.update_of_ne (by omega), Function.update_self]
    · exact hother c (List.mem_append_right l hc) (h.after c hc)
  · rw [Function.update_of_ne (by omega), Function.update_of_ne (by omega), h.sentinelSize]
  -- the ring passes the merged block by
  · obtain ⟨y, hleft⟩ := h.left
    have hn := htiled.ring_nodup
    have hlast : freeList (l ++ [d]) = freeList l ++ [d.address] := by
      rw [freeList_append, freeList_cons_free hd, freeList_nil]
    have hfree : freeList (l ++ { d with units := d.units + b.units } :: r) =
        freeList (l ++ [d]) ++ freeList r := by
      rw [freeList_append, freeList_cons_free (by exact hd), hlast, List.append_assoc,
        List.singleton_append]
    rw [hfree] at hn ⊢
    rw [h.next]
    have hq : sentinel :: freeList (l ++ [d]) = (sentinel :: freeList l) ++ [d.address] := by
      rw [hlast, List.cons_append]
    refine relink hn hq
      (hleft.congr fun x hx => Function.update_of_ne ?_ _ _)
      (h.right.congr fun x hx => Function.update_of_ne ?_ _ _)
    · rw [hlast, List.mem_cons, List.mem_append, List.mem_singleton] at hx
      rcases hx with rfl | hx | rfl
      · omega
      · have := hl.free_bounds hx
        omega
      · omega
    · have := hr.free_bounds hx
      omega

end Loose

end PS2Bios.Heaplib
