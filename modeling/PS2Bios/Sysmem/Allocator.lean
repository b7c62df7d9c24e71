import Mathlib.Logic.Function.Basic
import PS2Bios.Library.Word

/-!
# SYSMEM: the allocator

The memory manager of `src/iop/sysmem.cpp`: ordinals 4 and 5 and the module entry.
It keeps one record per block handed out, in an array sorted by address, and finds free
memory as the gaps between records. Three modes search the gaps: `lowest` from the bottom,
`highest` from the top, `atAddress` the one gap the caller named.

The array is a function and a count, as the source has it; `shiftUp` and `shiftDown` are the
two loops that open and close a place in it. Words are natural numbers, with 32-bit
wrap-around written out where the source adds or subtracts (`PS2Bios.Library.Word`). The
caller's arguments are `UInt32`, so that "any size" means any 32-bit size.
-/

namespace PS2Bios.Sysmem

/-- Where the memory begins that is handed out. -/
def kHeapStart : ℕ := 0x00020000

/-- The size of the memory where the boot names none. -/
def kDefaultRamSize : ℕ := 0x00200000

/-- Where the memory ends that is handed out. -/
def kHeapEnd : ℕ := 0x001F0000

/-- What every block is aligned to and a multiple of. -/
def kAlignment : ℕ := 0x100

/-- The records of blocks there are. -/
def kMaxBlocks : ℕ := 256

/-- The three values of ordinal 4's `mode`; there is no fourth. -/
def lowest : UInt32 := 0

/-- The mode that takes from the top. -/
def highest : UInt32 := 1

/-- The mode that takes at an address. -/
def atAddress : UInt32 := 2

/-- One block handed out. -/
structure Block where
  start : ℕ
  size : ℕ
  deriving DecidableEq, Repr

/-- A free range, `[start, stop)`. -/
structure Gap where
  start : ℕ
  stop : ℕ
  deriving DecidableEq, Repr

/-- The module's variables. `heapLow` is zero until the entry has run, and stays zero when
the machine has too little memory for a heap. -/
structure State where
  heapLow : ℕ
  heapHigh : ℕ
  ramSize : ℕ
  blocks : ℕ → Block
  blockCount : ℕ

/-- The module entry: the heap is the fixed window, cut short by the RAM the machine has. -/
def moduleStart (ramSizeByte : UInt32) : State :=
  let ramTop := (ramSizeByte &&& ~~~0xFF).toNat
  let high := if ramTop ≠ 0 ∧ ramTop < kHeapEnd then ramTop else kHeapEnd
  { heapLow := if kHeapStart + kAlignment ≤ high then kHeapStart else 0
    heapHigh := high
    ramSize := if ramTop ≠ 0 then ramTop else kDefaultRamSize
    blocks := fun _ => ⟨0, 0⟩
    blockCount := 0 }

/-- The index of the first record starting at or after `address`. -/
def lowerBound (s : State) (address : ℕ) : ℕ :=
  ((List.range s.blockCount).find? fun i => address ≤ (s.blocks i).start).getD s.blockCount

/-- The gap `index` opens: from the end of the record before it to the start of the record at
it, clipped to the heap at both ends. -/
def gapBefore (s : State) (index : ℕ) : Gap where
  start := if index = 0 then s.heapLow
    else add32 (s.blocks (index - 1)).start (s.blocks (index - 1)).size
  stop := if index = s.blockCount then s.heapHigh else (s.blocks index).start

/-- `for (i = block_count; i > index; --i) blocks[i] = blocks[i - 1];` -/
def shiftUp (blocks : ℕ → Block) (index : ℕ) : ℕ → ℕ → Block
  | 0 => blocks
  | i + 1 =>
    if index < i + 1 then shiftUp (Function.update blocks (i + 1) (blocks i)) index i
    else blocks

/-- `for (; j + 1 < block_count; ++j) blocks[j] = blocks[j + 1];`, `n` turns of it. -/
def shiftDown (blocks : ℕ → Block) (j : ℕ) : ℕ → ℕ → Block
  | 0 => blocks
  | n + 1 => shiftDown (Function.update blocks j (blocks (j + 1))) (j + 1) n

/-- Open a place at `index` and put the block there; `none` when the array is full. -/
def insertBlock (s : State) (index start size : ℕ) : Option State :=
  if s.blockCount = kMaxBlocks then none
  else some { s with
    blocks := Function.update (shiftUp s.blocks index s.blockCount) index ⟨start, size⟩
    blockCount := s.blockCount + 1 }

/-- `(size + kAlignment - 1) & ~(kAlignment - 1)`, in 32 bits. -/
def rounded (size : UInt32) : ℕ := ((size + 0x100 - 1) &&& ~~~(0x100 - 1)).toNat

/-- Whether the gap at `index` holds `size` bytes. -/
def gapFits (s : State) (size index : ℕ) : Bool :=
  size ≤ sub32 (gapBefore s index).stop (gapBefore s index).start

/-- The `highest` search, from the last gap down. -/
def highestFit (s : State) (size : ℕ) : ℕ → Option ℕ
  | 0 => none
  | i + 1 => if gapFits s size i then some i else highestFit s size i

/-- What a successful or a refused insertion answers: the address, or 0 and no change. -/
def grant (s : State) (index start size : ℕ) : ℕ × State :=
  match insertBlock s index start size with
  | some s' => (start, s')
  | none => (0, s)

/-- Ordinal 4: `allocate(mode, size, address)`, the address granted or 0. -/
def allocate (s : State) (mode size address : UInt32) : ℕ × State :=
  if size = 0 ∨ s.heapLow = 0 then (0, s)
  else
    let need := rounded size
    if mode = atAddress then
      let target := address.toNat
      -- the third test keeps the subtraction of the fourth from wrapping
      if target % kAlignment ≠ 0 ∨ target < s.heapLow ∨ s.heapHigh ≤ target
          ∨ sub32 s.heapHigh target < need then (0, s)
      else
        let index := lowerBound s target
        let gap := gapBefore s index
        if target < gap.start ∨ sub32 gap.stop target < need then (0, s)
        else grant s index target need
    else if mode = lowest then
      match (List.range (s.blockCount + 1)).find? (gapFits s need) with
      | some i => grant s i (gapBefore s i).start need
      | none => (0, s)
    else if mode = highest then
      match highestFit s need (s.blockCount + 1) with
      | some i => grant s i (sub32 (gapBefore s i).stop need) need
      | none => (0, s)
    else (0, s)

/-- Ordinal 5: `release(address)`, 0 or -1. The record's own start is matched exactly. -/
def deallocate (s : State) (address : UInt32) : ℤ × State :=
  if address.toNat % kAlignment ≠ 0 then (-1, s)
  else
    match (List.range s.blockCount).find? fun i => (s.blocks i).start = address.toNat with
    | none => (-1, s)
    | some i =>
      (0, { s with
        blocks := shiftDown s.blocks i (s.blockCount - (i + 1))
        blockCount := s.blockCount - 1 })

/-- The calls a client makes. -/
inductive Call
  | allocate (mode size address : UInt32)
  | release (address : UInt32)
  deriving DecidableEq, Repr

/-- The state one call leaves. -/
def step (s : State) : Call → State
  | .allocate mode size address => (allocate s mode size address).2
  | .release address => (deallocate s address).2

end PS2Bios.Sysmem
