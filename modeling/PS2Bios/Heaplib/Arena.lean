import PS2Bios.Library.Word

/-!
# HEAPLIB's arenas

The arena primitives of `src/iop/heaplib.cpp`: `heapPrepare`, `heapAlloc`, `heapFree` and
`heapChunkSize`. Everything they know is in the caller's memory, so the state is that memory, by
the address of each word. A block header is two words, `next` and `size`; the size counts 8-byte
units, the header among them. An arena header is four words, and the first block follows it.

The two loops go along a list in memory, which may be anything. They are given a number of turns
no list of distinct blocks needs, and `none` says that these did not suffice. A header that is not
at a multiple of four is read with an address-error exception, and `none` is that as well; the
arenas themselves are taken to be at such addresses.
-/

namespace PS2Bios.Heaplib

/-- The words of the memory, by address. -/
abbrev Memory := ℕ → ℕ

/-- The answer of an arena whose magic is not its own. -/
def kBadArena : ℤ := -4

/-- The answer for a block whose header does not say that it is taken. -/
def kNotOwned : ℤ := -1

/-- The answer for a pointer outside the arena. -/
def kOutOfRange : ℤ := -2

/-- The answer where the free list does not bracket the block. -/
def kCorrupted : ℤ := -3

/-- As many blocks as 32-bit addresses tell apart. -/
def kBlocks : ℕ := 2 ^ 29

namespace Memory

/-- `block->next`. -/
def next (m : Memory) (block : ℕ) : ℕ := m block

/-- `block->size`. -/
def size (m : Memory) (block : ℕ) : ℕ := m (add32 block 4)

/-- The word that leads on stored. -/
def setNext (m : Memory) (block value : ℕ) : Memory := Function.update m block value

/-- The size of a block stored. -/
def setSize (m : Memory) (block value : ℕ) : Memory := Function.update m (add32 block 4) value

/-! The words of an arena header. -/

/-- The arena's magic word. -/
def arenaMagic (m : Memory) (arena : ℕ) : ℕ := m arena

/-- The arena's size. -/
def arenaSize (m : Memory) (arena : ℕ) : ℕ := m (add32 arena 4)

/-- How much of the arena is taken. -/
def arenaUsed (m : Memory) (arena : ℕ) : ℕ := m (add32 arena 8)

/-- The free block the arena was left at. -/
def arenaRover (m : Memory) (arena : ℕ) : ℕ := m (add32 arena 0xC)

/-- The magic word stored. -/
def setArenaMagic (m : Memory) (arena value : ℕ) : Memory := Function.update m arena value

/-- The size stored. -/
def setArenaSize (m : Memory) (arena value : ℕ) : Memory :=
  Function.update m (add32 arena 4) value

/-- The amount taken stored. -/
def setArenaUsed (m : Memory) (arena value : ℕ) : Memory :=
  Function.update m (add32 arena 8) value

/-- The free block to begin at stored. -/
def setArenaRover (m : Memory) (arena value : ℕ) : Memory :=
  Function.update m (add32 arena 0xC) value

end Memory

open Memory

/-- `block + n`, in units. -/
def blockAt (block n : ℕ) : ℕ := add32 block (8 * n)

/-- The magic word an arena has by its address. -/
def arenaMagicFor (arena : ℕ) : ℕ := sub32 arena 1

/-- The arena is there, and its magic is its own. -/
def isValidArena (m : Memory) (arena : ℕ) : Prop :=
  arena ≠ 0 ∧ m.arenaMagic arena = arenaMagicFor arena

instance (m : Memory) (arena : ℕ) : Decidable (isValidArena m arena) :=
  inferInstanceAs (Decidable (_ ∧ _))

/-- The first block, behind the arena's words. -/
def firstBlockOf (arena : ℕ) : ℕ := add32 arena 0x10

/-- Ordinal 11. -/
def heapPrepare (m : Memory) (memory : ℕ) (size : ℤ) : Memory :=
  if memory = 0 ∨ size < 0x29 then m
  else
    let units := sub32 (toWord size) 0x10 / 8
    let first := firstBlockOf memory
    let sentinel := blockAt first (sub32 units 1)
    let m := (m.setArenaMagic memory (arenaMagicFor memory)).setArenaSize memory (toWord size)
    let m := m.setArenaUsed memory 0
    let m := (m.setSize first (sub32 units 1)).setNext first sentinel
    let m := (m.setSize sentinel 0).setNext sentinel first
    m.setArenaRover memory first

/-- Ordinal 12. -/
def heapIsEmpty (m : Memory) (arena : ℕ) : ℤ :=
  if ¬isValidArena m arena then kBadArena else if m.arenaUsed arena = 0 then 1 else 0

/-- The units a request takes, with its header. -/
def unitsFor (requested : ℕ) : ℕ :=
  let n := if requested < 8 then 8 else requested
  add32 n 7 / 8 + 1

/-- The search of `heapAlloc`: the first block that fits, with the one before it; `some none`
after one circuit without a fit. -/
def search (m : Memory) (rover units : ℕ) : ℕ → ℕ → ℕ → Option (Option (ℕ × ℕ))
  | 0, _, _ => none
  | n + 1, prev, p =>
    if units ≤ m.size p then some (some (prev, p))
    else if p = rover then some none
    else search m rover units n p (m.next p)

/-- Ordinal 13. -/
def heapAlloc (m : Memory) (arena requested : ℕ) : Option (ℕ × Memory) :=
  if ¬isValidArena m arena then some (0, m)
  else
    let units := unitsFor requested
    let rover := m.arenaRover arena
    (search m rover units kBlocks rover (m.next rover)).map fun found =>
      match found with
      | none => (0, m)
      | some (prev, p) =>
        let r : ℕ × Memory :=
          if m.size p = units then (p, m.setNext prev (m.next p))
          else
            let m := m.setSize p (m.size p - units)
            let p := blockAt p (m.size p)
            (p, m.setSize p units)
        let p := r.1
        let m := r.2.setArenaRover arena prev
        let m := m.setArenaUsed arena (add32 (m.arenaUsed arena) units)
        (add32 p 8, m.setNext p arena)

/-- The search of `heapFree`: the free block before `bp`; `some none` when a free block is in
the way. -/
def bracket (m : Memory) (bp : ℕ) : ℕ → ℕ → Option (Option ℕ)
  | 0, _ => none
  | n + 1, p =>
    if bp = p ∨ bp = m.next p then some none
    else if p < bp ∧ bp < blockAt p (m.size p) then some none
    else if p < m.next p then
      if p < bp ∧ bp < m.next p then some (some p) else bracket m bp n (m.next p)
    else if p < bp ∨ bp < m.next p then some (some p)
    else bracket m bp n (m.next p)

/-! The end of `heapFree`: `bp` goes back between `p` and the free block after `p`. -/

/-- `bp` leads to the free block after it, or takes it in. -/
def linkFollowing (m : Memory) (p bp : ℕ) : Memory :=
  if m.size (m.next p) ≠ 0 ∧ blockAt bp (m.size bp) = m.next p then
    let m := m.setSize bp (add32 (m.size bp) (m.size (m.next p)))
    m.setNext bp (m.next (m.next p))
  else m.setNext bp (m.next p)

/-- `p` leads to `bp`, or takes it in. -/
def linkPreceding (m : Memory) (p bp : ℕ) : Memory :=
  if blockAt p (m.size p) = bp then
    let m := m.setSize p (add32 (m.size p) (m.size bp))
    m.setNext p (m.next bp)
  else m.setNext p bp

/-- `bp` goes back behind `p`, joined with the free blocks it touches. -/
def coalesce (m : Memory) (p bp : ℕ) : Memory := linkPreceding (linkFollowing m p bp) p bp

/-- Ordinal 14. -/
def heapFree (m : Memory) (arena ptr : ℕ) : Option (ℤ × Memory) :=
  if ¬isValidArena m arena then some (kBadArena, m)
  else
    let first := firstBlockOf arena
    let extentEnd := add32 arena (m.arenaSize arena)
    if ptr = 0 then some (kOutOfRange, m)
    else
      let bp := sub32 ptr 8
      if bp < first ∨ extentEnd ≤ bp then some (kOutOfRange, m)
      -- the load of `bp->next` is an address-error exception
      else if bp % 4 ≠ 0 then none
      else if m.next bp ≠ arena then some (kNotOwned, m)
      else
        (bracket m bp kBlocks (m.arenaRover arena)).map fun found =>
          match found with
          | none => (kCorrupted, m)
          | some p =>
            let following := m.next p
            if m.size following ≠ 0 ∧ following < blockAt bp (m.size bp) then (kCorrupted, m)
            else
              let m := m.setArenaUsed arena (sub32 (m.arenaUsed arena) (m.size bp))
              (0, (coalesce m p bp).setArenaRover arena p)

/-- Ordinal 15. -/
def heapChunkSize (m : Memory) (arena : ℕ) : ℤ :=
  let units := (int32 (m.arenaSize arena) - 0x10) / 8
  (units - int32 (m.arenaUsed arena) - 1) * 8

end PS2Bios.Heaplib
