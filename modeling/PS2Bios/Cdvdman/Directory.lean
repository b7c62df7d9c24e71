import PS2Bios.Cdvdman.Files
import PS2Bios.Library.Reading
import PS2Bios.Library.Search

/-!
# Directories of the disc

`componentMatches`, `findInDirectory` and `resolvePath` of `cdvdman.cpp`. A sector comes out of the
cache's buffer, and a read of it is `none` when it is of a byte behind the buffer's `kSectorSize`;
then the whole search is. A sector that cannot be read has none.

The records of a sector lie one behind the other, each as long as its first byte says, up to a zero
or to one that would not end in the sector. A search is of the records of a directory's sectors in
order (`findInDirectory_eq`), as far as the sectors can be read.
-/

namespace PS2Bios.Cdvdman

/-- The sector of the volume descriptor. -/
def kPvdLba : ℕ := 16

/-- Where the root's record lies in it. -/
def kRootRecordOffset : ℕ := 156

/-- The components a path may have. -/
def kMaxLevel : ℕ := 8

/-- A sector's bytes, and what is behind it in memory. -/
abbrev Sector := ℕ → UInt8

/-- What `sectorCached` answers. -/
abbrev Sectors := ℕ → Option Sector

/-- A byte of a sector, `none` past its end. -/
def byteAt (sector : Sector) (i : ℕ) : Option UInt8 :=
  if i < kSectorSize then some (sector i) else none

/-- The word that four bytes are, the lowest first. -/
def le32 (a b c d : UInt8) : ℕ :=
  a.toNat ||| b.toNat <<< 8 ||| c.toNat <<< 16 ||| d.toNat <<< 24

/-- A word of a sector, `none` where it runs past the end. -/
def readLe32 (sector : Sector) (i : ℕ) : Option ℕ := do
  return le32 (← byteAt sector i) (← byteAt sector (i + 1)) (← byteAt sector (i + 2))
    (← byteAt sector (i + 3))

/-- The pointers are indices of the sector that is in the cache. -/
structure DirEntry where
  lba : ℕ
  size : ℕ
  isDirectory : Bool
  name : ℕ
  nameLength : ℕ
  date : ℕ
deriving DecidableEq, Repr

/-- The character in front of a version. -/
def kSemicolon : UInt8 := 0x3B

/-- The character between the components of a path. -/
def kBackslash : UInt8 := 0x5C

/-- The length of a name without its version: `left` bytes from the `k`-th on are looked at. -/
def baseLength (sector : Sector) (id : ℕ) : (left k : ℕ) → Option ℕ
  | 0, k => some k
  | left + 1, k => do
    if (← byteAt sector (id + k)) = kSemicolon then return k
    baseLength sector id left (k + 1)

/-- Whether the bytes from `id` on are those. -/
def sameBytes (sector : Sector) : (id : ℕ) → List UInt8 → Option Bool
  | _, [] => some true
  | id, c :: component => do
    if (← byteAt sector id) ≠ c then return false
    sameBytes sector (id + 1) component

/-- `componentMatches`: the version counts only where the component has one. -/
def componentMatches (sector : Sector) (id idLength : ℕ) (component : List UInt8) :
    Option Bool := do
  let compareLength ←
    if kSemicolon ∈ component then some idLength else baseLength sector id idLength 0
  if compareLength ≠ component.length then return false
  sameBytes sector id component

/-- What `findInDirectory` answers of a record. -/
def entryAt (sector : Sector) (pos idLength : ℕ) : Option DirEntry := do
  let lba ← readLe32 sector (pos + 2)
  let size ← readLe32 sector (pos + 10)
  let flags ← byteAt sector (pos + 25)
  return ⟨lba, size, flags &&& 2 ≠ 0, pos + 33, idLength, pos + 18⟩

/-- The records of a sector from `pos` on. -/
def scanSector (sector : Sector) (component : List UInt8) (pos : ℕ) :
    Option (Option DirEntry) :=
  if pos < kSectorSize then
    let length := (sector pos).toNat
    if _h : length = 0 ∨ pos + length > kSectorSize then some none
    else
      (byteAt sector (pos + 32)).bind fun idLength =>
        (componentMatches sector (pos + 33) idLength.toNat component).bind fun found =>
          if found then (entryAt sector pos idLength.toNat).map some
          else scanSector sector component (pos + length)
  else some none
termination_by kSectorSize - pos

/-- The sectors of a directory from the `s`-th on. -/
def scanSectors (sectors : Sectors) (lba : ℕ) (component : List UInt8) :
    (left s : ℕ) → Option (Option DirEntry)
  | 0, _ => some none
  | left + 1, s =>
    match sectors (add32 lba s) with
    | none => some none
    | some sector =>
      (scanSector sector component 0).bind fun found =>
        match found with
        | some entry => some (some entry)
        | none => scanSectors sectors lba component left (s + 1)

/-- `findInDirectory`: the directory's sectors in turn. -/
def findInDirectory (sectors : Sectors) (lba size : ℕ) (component : List UInt8) :
    Option (Option DirEntry) :=
  scanSectors sectors lba component (add32 size (kSectorSize - 1) / kSectorSize) 0

/-- A byte of a component: neither the end of the path nor a separator. -/
def isNameByte (c : UInt8) : Bool := c ≠ 0 && c ≠ kBackslash

/-- The levels of a path, `left` of them at most; `path` is a string, with its end where it has a
zero or where the list ends. -/
def resolveFrom (sectors : Sectors) : (left lba size : ℕ) → (path : List UInt8) →
    Option (Option DirEntry)
  | 0, _, _, _ => some none
  | left + 1, lba, size, path =>
    let component := path.takeWhile isNameByte
    let rest := path.dropWhile isNameByte
    if component.length = 0 then some none
    else
      (findInDirectory sectors lba size component).bind fun found =>
        match found with
        | none => some none
        | some entry =>
          if rest.headD 0 = 0 then some (if entry.isDirectory then none else some entry)
          else if !entry.isDirectory then some none
          else resolveFrom sectors left entry.lba entry.size (rest.drop 1)

/-- The five bytes behind the first of the volume descriptor. -/
def isPvd (pvd : Sector) : Prop :=
  pvd 1 = 0x43 ∧ pvd 2 = 0x44 ∧ pvd 3 = 0x30 ∧ pvd 4 = 0x30 ∧ pvd 5 = 0x31

instance (pvd : Sector) : Decidable (isPvd pvd) := inferInstanceAs (Decidable (_ ∧ _))

/-- `resolvePath`: from the root's record through the components. -/
def resolvePath (sectors : Sectors) (path : List UInt8) : Option (Option DirEntry) :=
  if path.headD 0 ≠ kBackslash then some none
  else
    match sectors kPvdLba with
    | none => some none
    | some pvd =>
      if isPvd pvd then do
        let lba ← readLe32 pvd (kRootRecordOffset + 2)
        let size ← readLe32 pvd (kRootRecordOffset + 10)
        resolveFrom sectors kMaxLevel lba size (path.drop 1)
      else some none

/-! ### Records -/

/-- Where a record is. -/
structure Record where
  sector : Sector
  pos : ℕ

namespace Record

/-- The record's length. -/
def length (r : Record) : ℕ := (r.sector r.pos).toNat

/-- The length of the record's name. -/
def idLength (r : Record) : ℕ := (r.sector (r.pos + 32)).toNat

/-- The name, as far as it lies; what of it is behind the buffer means nothing. -/
def id (r : Record) : List UInt8 := Bytes.readBytes r.sector (r.pos + 33) r.idLength

/-- A word of the record. -/
def word (r : Record) (i : ℕ) : ℕ :=
  le32 (r.sector (r.pos + i)) (r.sector (r.pos + i + 1)) (r.sector (r.pos + i + 2))
    (r.sector (r.pos + i + 3))

/-- The sector the record's file begins at. -/
def lba (r : Record) : ℕ := r.word 2

/-- The bytes of the record's file. -/
def size (r : Record) : ℕ := r.word 10

/-- The record's file is a directory. -/
def isDirectory (r : Record) : Bool := r.sector (r.pos + 25) &&& 2 ≠ 0

/-- What a search answers for the record. -/
def entry (r : Record) : DirEntry :=
  ⟨r.lba, r.size, r.isDirectory, r.pos + 33, r.idLength, r.pos + 18⟩

/-- A record is looked at for a component. -/
def examine (component : List UInt8) (r : Record) : Option Bool :=
  (byteAt r.sector (r.pos + 32)).bind fun idLength =>
    componentMatches r.sector (r.pos + 33) idLength.toNat component

theorem length_id {r : Record} : r.id.length = r.idLength := Bytes.length_readBytes

end Record

/-- The records of a sector from `pos` on. -/
def recordsFrom (sector : Sector) (pos : ℕ) : List Record :=
  if pos < kSectorSize then
    if _h : (sector pos).toNat = 0 ∨ pos + (sector pos).toNat > kSectorSize then []
    else ⟨sector, pos⟩ :: recordsFrom sector (pos + (sector pos).toNat)
  else []
termination_by kSectorSize - pos

/-- The records of `left` sectors from the `s`-th of a directory on. -/
def recordsOf (sectors : Sectors) (lba : ℕ) : (left s : ℕ) → List Record
  | 0, _ => []
  | left + 1, s =>
    match sectors (add32 lba s) with
    | none => []
    | some sector => recordsFrom sector 0 ++ recordsOf sectors lba left (s + 1)

/-- The records of a directory. -/
def records (sectors : Sectors) (lba size : ℕ) : List Record :=
  recordsOf sectors lba (add32 size (kSectorSize - 1) / kSectorSize) 0

variable {sector : Sector} {sectors : Sectors} {component : List UInt8} {pos i lba size : ℕ}
  {r : Record}

@[simp] theorem byteAt_eq_some (h : i < kSectorSize) : byteAt sector i = some (sector i) :=
  if_pos h

theorem byteAt_eq_none (h : kSectorSize ≤ i) : byteAt sector i = none :=
  if_neg (Nat.not_lt.mpr h)

theorem readLe32_eq (h : i + 3 < kSectorSize) : readLe32 sector i =
    some (le32 (sector i) (sector (i + 1)) (sector (i + 2)) (sector (i + 3))) := by
  rw [readLe32, byteAt_eq_some (by omega), byteAt_eq_some (by omega), byteAt_eq_some (by omega),
    byteAt_eq_some h]
  rfl

/-- With its name's length in the buffer, what is answered of a record is too. -/
theorem entryAt_eq (h : r.pos + 32 < kSectorSize) :
    entryAt r.sector r.pos (r.sector (r.pos + 32)).toNat = some r.entry := by
  rw [entryAt, readLe32_eq (by omega), readLe32_eq (by omega), byteAt_eq_some (by omega)]
  rfl

/-- A sector is searched record by record. -/
theorem scanSector_eq (sector : Sector) (component : List UInt8) (pos : ℕ) :
    scanSector sector component pos =
      ((recordsFrom sector pos).findM? (Record.examine component)).map
        (Option.map Record.entry) := by
  fun_induction recordsFrom sector pos with
  | case1 pos hpos h =>
    rw [scanSector, if_pos hpos]
    dsimp only
    rw [dif_pos h]
    rfl
  | case2 pos hpos h ih =>
    rw [scanSector, if_pos hpos]
    dsimp only
    rw [dif_neg h, ih]
    have hexamine : Record.examine component ⟨sector, pos⟩ = (byteAt sector (pos + 32)).bind
        fun idLength => componentMatches sector (pos + 33) idLength.toNat component := rfl
    rcases Nat.lt_or_ge (pos + 32) kSectorSize with hlt | hge
    · rw [byteAt_eq_some hlt] at hexamine ⊢
      rw [Option.bind_some] at hexamine ⊢
      cases hmatches : componentMatches sector (pos + 33) (sector (pos + 32)).toNat component with
      | none =>
        rw [Search.findM?_cons_none (hexamine.trans hmatches), Option.bind_none, Option.map_none]
      | some found =>
        rw [Option.bind_some]
        cases found with
        | false =>
          rw [Search.findM?_cons_false (hexamine.trans hmatches), if_neg Bool.false_ne_true]
        | true =>
          rw [Search.findM?_cons_true (hexamine.trans hmatches), if_pos rfl,
            entryAt_eq (r := ⟨sector, pos⟩) hlt]
          rfl
    · rw [byteAt_eq_none hge] at hexamine ⊢
      rw [Search.findM?_cons_none hexamine]
      rfl
  | case3 pos hpos =>
    rw [scanSector, if_neg hpos]
    rfl

/-- The scan is a search through the records of the directory, one after the other. -/
theorem scanSectors_eq (left s : ℕ) : scanSectors sectors lba component left s =
    ((recordsOf sectors lba left s).findM? (Record.examine component)).map
      (Option.map Record.entry) := by
  induction left generalizing s with
  | zero => rfl
  | succ left ih =>
    rw [scanSectors, recordsOf]
    cases sectors (add32 lba s) with
    | none => rfl
    | some sector =>
      dsimp only
      rw [scanSector_eq, Search.findM?_append]
      cases (recordsFrom sector 0).findM? (Record.examine component) with
      | none => rfl
      | some found =>
        cases found with
        | none => exact ih (s + 1)
        | some r => rfl

/-- A directory is searched record by record. -/
theorem findInDirectory_eq (sectors : Sectors) (lba size : ℕ) (component : List UInt8) :
    findInDirectory sectors lba size component =
      ((records sectors lba size).findM? (Record.examine component)).map
        (Option.map Record.entry) :=
  scanSectors_eq _ 0

end PS2Bios.Cdvdman
