import PS2Bios.Mcman.Card

/-!
# MCMAN's view of a card

The superblock says how large a page is, how many make a cluster, and where the allocation table is;
`mount` copies that into the port's record. A cluster's successor is found through two indirections
(`nextCluster`), and a directory's entries lie two to a cluster along such a chain
(`directoryEntry`).

An array is read at places of its own only: `Block.byte` and its like are given the bound.
-/

namespace PS2Bios.Mcman

open Bytes

/-- The largest page there is a buffer for. -/
def kPageBytes : ℕ := 512

/-- The largest cluster there is a buffer for. -/
def kClusterBytes : ℕ := 1024

/-- The bytes of a directory entry. -/
def kEntryBytes : ℕ := 512

/-- The bytes of the superblock that are kept. -/
def kSuperblockCopy : ℕ := 0x150

/-- The answer of a card whose first page or root is not that of a formatted one. -/
def kNotFormatted : ℤ := -2

/-- The answer of a card that does not say how it is laid out. -/
def kNoGeometry : ℤ := -49

/-- The answer of a card whose first page cannot be read. -/
def kPageUnreadable : ℤ := -48

/-- The answer of a card whose spare block cannot be read. -/
def kNoRootTail : ℤ := -47

/-- The answer of a card whose root's second entry cannot be read. -/
def kNoRootSecond : ℤ := -45

/-- The answer of a card whose root's first entry cannot be read. -/
def kNoRootFirst : ℤ := -46

/-- The answer of a page whose errors cannot be corrected. -/
def kUncorrectable : ℤ := -2

namespace Block

variable {n : ℕ}

/-- `leWord`. -/
def word (b : Block n) (i : ℕ) (_ : i + 4 ≤ n) : UInt32 := UInt32.ofNat (readWord b.ram i)

/-- `leHalf`. -/
def half (b : Block n) (i : ℕ) (_ : i + 2 ≤ n) : UInt32 := UInt32.ofNat (readHalf b.ram i)

/-- The bytes of a block from `i`, which lie inside it. -/
def bytes (b : Block n) (i count : ℕ) (_ : i + count ≤ n) : List UInt8 := bytesAt b.ram i count

@[simp]
theorem length_bytes {b : Block n} {i count : ℕ} {h : i + count ≤ n} :
    (b.bytes i count h).length = count := length_bytesAt

end Block

/-- A port's record. -/
structure Port extends Layout where
  superblock : Block kSuperblockCopy
  type : UInt8
  mounted : Bool
  pages_per_cluster : UInt32
  first_cluster : UInt32
  /-- Read, but not used. -/
  root_cluster : UInt32
  spare_block : UInt32
  indirect : Fin 8 → UInt32

/-- The two arrays what is read from a card goes through. -/
structure Buffers where
  cluster_buffer : Block kClusterBytes
  entry_buffer : Block kEntryBytes

/-! ### Clusters -/

/-- The pages of a cluster, from page `k` on. -/
def readPages {n : ℕ} (state : Port) (port : Fin kPorts) (absolute : UInt32) :
    (left k : ℕ) → Block n → Driver (Bool × Block n)
  | 0, _, into => pure (true, into)
  | left + 1, k, into => do
    let (read, into) ← readPage state.toLayout port
      (absolute * state.pages_per_cluster + UInt32.ofNat k) into
      (UInt32.ofNat k * state.page_bytes).toNat
    if read ≠ kOk then return (false, into) else readPages state port absolute left (k + 1) into

/-- `readCluster`: the pages of one cluster, one behind the other. -/
def readCluster {n : ℕ} (state : Port) (port : Fin kPorts) (absolute : UInt32) (into : Block n) :
    Driver (Bool × Block n) :=
  readPages state port absolute state.pages_per_cluster.toNat 0 into

/-- The words of a cluster. -/
def per : UInt32 := UInt32.ofNat (kClusterBytes / 4)

theorem word_fits (x : UInt32) : (x % per).toNat * 4 + 4 ≤ kClusterBytes := by
  have hper : per.toNat = 256 := rfl
  rw [UInt32.toNat_mod, hper, kClusterBytes]
  omega

/-- `nextCluster`: through the indirect table, then through the table it leads to. -/
def nextCluster (state : Port) (port : Fin kPorts) (cluster : UInt32)
    (cluster_buffer : Block kClusterBytes) : Driver (Option UInt32 × Block kClusterBytes) :=
  let which := cluster / (per * per)
  if h : which.toNat < 8 then
    if state.indirect ⟨which.toNat, h⟩ = 0 then pure (none, cluster_buffer)
    else do
      let (good, cluster_buffer) ←
        readCluster state port (state.indirect ⟨which.toNat, h⟩) cluster_buffer
      if good then
        let table := cluster_buffer.word ((cluster / per % per).toNat * 4) (word_fits _)
        let (good, cluster_buffer) ← readCluster state port table cluster_buffer
        if good then
          let entry := cluster_buffer.word ((cluster % per).toNat * 4) (word_fits _)
          let next := entry &&& 0x7FFFFFFF
          if entry &&& 0x80000000 = 0 ∨ next = 0x7FFFFFFF then return (none, cluster_buffer)
          else return (some next, cluster_buffer)
        else
          return (none, cluster_buffer)
      else
        return (none, cluster_buffer)
  else pure (none, cluster_buffer)

/-! ### Directories -/

/-- The directory entries of one cluster. -/
def perCluster : UInt32 := UInt32.ofNat (kClusterBytes / kEntryBytes)

theorem entry_fits (index : UInt32) :
    (index % perCluster).toNat * kEntryBytes + kEntryBytes ≤ kClusterBytes := by
  have hper : perCluster.toNat = 2 := rfl
  rw [UInt32.toNat_mod, hper, kEntryBytes, kClusterBytes]
  omega

/-- So many clusters along a chain. -/
def walk (state : Port) (port : Fin kPorts) :
    ℕ → UInt32 → Block kClusterBytes → Driver (Option UInt32 × Block kClusterBytes)
  | 0, cluster, cluster_buffer => pure (some cluster, cluster_buffer)
  | steps + 1, cluster, cluster_buffer => do
    let (next, cluster_buffer) ← nextCluster state port cluster cluster_buffer
    match next with
    | none => return (none, cluster_buffer)
    | some next => walk state port steps next cluster_buffer

/-- `directoryEntry`: the cluster that holds the entry, then the entry in it. -/
def directoryEntry (state : Port) (port : Fin kPorts) (cluster index : UInt32) (b : Buffers) :
    Driver (Bool × Buffers) := do
  let (at?, cluster_buffer) ←
    walk state port (index / perCluster).toNat cluster b.cluster_buffer
  match at? with
  | none => return (false, { b with cluster_buffer })
  | some walk =>
    let (good, cluster_buffer) ←
      readCluster state port (walk + state.first_cluster) cluster_buffer
    if good then
      let entry_buffer ← b.entry_buffer.store 0
        (cluster_buffer.bytes ((index % perCluster).toNat * kEntryBytes) kEntryBytes
          (entry_fits index))
      return (true, { cluster_buffer, entry_buffer })
    else
      return (false, { b with cluster_buffer })

/-- The entry's name is this one. -/
def nameIs (entry : Block kEntryBytes) (want : List UInt8) (h : want.length ≤ 2) : Bool :=
  entry.bytes 0x40 (want.length + 1) (by unfold kEntryBytes; omega) = want ++ [0]

/-! ### Mounting -/

/-- The head of the identifier page 0 begins with. -/
def kIdentifierHead : List UInt8 := [0x53, 0x6F, 0x6E, 0x79, 0x20, 0x50, 0x53, 0x32]

/-- What `mount` copies from page 0, the copy of the page apart. -/
def Port.believe (state : Port) (page : Block kPageBytes) : Port :=
  { state with
    page_bytes := page.half 0x28 (by decide)
    pages_per_cluster := page.half 0x2A (by decide)
    first_cluster := page.word 0x34 (by decide)
    root_cluster := page.word 0x3C (by decide)
    spare_block := page.word 0x44 (by decide)
    indirect := fun i => page.word (0x50 + i * 4) (by unfold kPageBytes; omega) }

/-- The root's first two entries have the conventional names. -/
def mountRoot (state : Port) (port : Fin kPorts) (b : Buffers) : Driver (ℤ × Port × Buffers) := do
  let (found, b) ← directoryEntry state port 0 0 b
  if ¬found then
    return (kNoRootFirst, state, b)
  else if ¬nameIs b.entry_buffer [0x2E] (by decide) then
    return (kNotFormatted, state, b)
  else
    let (found, b) ← directoryEntry state port 0 1 b
    if ¬found then
      return (kNoRootSecond, state, b)
    else if ¬nameIs b.entry_buffer [0x2E, 0x2E] (by decide) then
      return (kNotFormatted, state, b)
    else
      return (kOk, { state with mounted := true, type := 2 }, b)

/-- The two pages of the second spare erase block can be read. -/
def mountJournal (state : Port) (port : Fin kPorts) (pages_per_block : UInt32) (b : Buffers) :
    Driver (ℤ × Port × Buffers) := do
  let journal : Block kPageBytes := ⟨← Prog.op Question.stack⟩
  let page := state.spare_block * pages_per_block
  let (read, journal) ← readPage state.toLayout port page journal 0
  if read ≠ kOk then
    return (kNoRootTail, state, b)
  else
    let (read, _) ← readPage state.toLayout port (page + 1) journal 0
    if read ≠ kOk then return (kNoRootTail, state, b) else mountRoot state port b

/-- Page 0 begins with the identifier; what else it says is believed. -/
def mountPage (state : Port) (port : Fin kPorts) (b : Buffers) : Driver (ℤ × Port × Buffers) := do
  let page : Block kPageBytes := ⟨← Prog.op Question.stack⟩
  let (read, page) ← readPage state.toLayout port 0 page 0
  if read = kUncorrectable then
    return (kNotFormatted, state, b)
  else if read ≠ kOk then
    return (kPageUnreadable, state, b)
  else if page.bytes 0 8 (by decide) ≠ kIdentifierHead then
    return (kNotFormatted, state, b)
  else
    let superblock ← state.superblock.store 0 (page.bytes 0 kSuperblockCopy (by decide))
    mountJournal ({ state with superblock }.believe page) port (page.half 0x2C (by decide)) b

/-- `mount`: the geometry, the first page, the spare block, the first two entries of the root. -/
def mount (state : Port) (port : Fin kPorts) (b : Buffers) : Driver (ℤ × Port × Buffers) := do
  let state := { state with mounted := false }
  match ← geometry port with
  | none => return (kNoGeometry, state, b)
  | some (geometry_flags, page_bytes) =>
    mountPage
      { state with
        geometry_flags
        page_bytes
        pages_per_cluster :=
          if page_bytes ≠ 0 then UInt32.ofNat kClusterBytes / page_bytes else 0 } port b

end PS2Bios.Mcman
