import Mathlib.Data.Fin.Basic
import PS2Bios.Cdvdman.Drive
import PS2Bios.Library.Threads
import PS2Bios.Library.Word

/-!
# Files of the disc

`read` and `lseek` of `cdvdman.cpp`, over the handles, the sector cache and the semaphore
`sema_driver`, for any number of threads. What one thread does without looking at anything shared,
or with one look or one store, is one step, and so any other thread may come between two of them:
a read takes its length from the handle, waits for the semaphore, looks for the position again for
each sector, copies byte by byte, signals, and then loads the position and stores it behind what
was read.

`sectorCached` asks the drive when the sector is not the one in the cache. What comes of it is up
to the outside: the disc's sector, or a failure and anything in the cache's bytes.
-/

namespace PS2Bios.Cdvdman

/-- The bytes of a sector. -/
def kSectorSize : ℕ := 2048

/-- The files that can be open at once. -/
def kHandles : ℕ := 8

/-- The answer to a handle that is not open. -/
def kErrorBadHandle : ℤ := -9

/-- The answer to a seek from nowhere there is. -/
def kErrorBadWhence : ℤ := -22

/-- The bytes of a disc's sectors. -/
abbrev Disc := ℕ → ℕ → UInt8

/-- An open file: where it lies, its size, and where it is read next. -/
structure Handle where
  inUse : Bool
  lba : ℕ
  size : ℕ
  position : ℕ
deriving DecidableEq, Repr

/-- The sector that was read last. -/
structure SectorCache where
  lba : ℕ
  valid : Bool
  data : ℕ → UInt8

/-- The byte of a file at a position. -/
def Handle.byte (disc : Disc) (handle : Handle) (position : ℕ) : UInt8 :=
  disc (add32 handle.lba (position / kSectorSize)) (position % kSectorSize)

/-- What a call has answered. A read moved the position of its handle and stored bytes at offsets
of the caller's buffer. -/
inductive FileAnswer
  | refused (error : ℤ)
  | sought (k : Fin kHandles) (position : ℤ)
  | read (k : Fin kHandles) (before after : ℕ) (result : ℤ) (stored : List (ℕ × UInt8))
deriving DecidableEq, Repr

/-- What the threads share, and what their calls have answered. -/
structure Files where
  handles : Fin kHandles → Handle
  cache : SectorCache
  sema_driver : Sema
  answers : List FileAnswer

/-- A file's position changed. -/
def Files.moved (x : Files) (k : Fin kHandles) (position : ℕ) : Files :=
  { x with
    handles := Function.update x.handles k { x.handles k with position := position } }

/-- A call answered, noted in the order of the answers. -/
def Files.answered (x : Files) (a : FileAnswer) : Files := { x with answers := x.answers ++ [a] }

/-- `file->privdata`. -/
def handleOf (privdata : ℕ) (x : Files) : Option (Fin kHandles) :=
  if h : privdata < kHandles then
    if (x.handles ⟨privdata, h⟩).inUse then some ⟨privdata, h⟩ else none
  else none

/-- A call on an open file. -/
inductive FileCall
  | read (privdata : ℕ) (size : Int32)
  | lseek (privdata : ℕ) (offset whence : Int32)
deriving DecidableEq

/-- The variables of a read; `stored` is what it has stored in the caller's buffer. -/
structure Transfer where
  k : Fin kHandles
  length : ℕ
  done : ℕ
  stored : List (ℕ × UInt8)
deriving DecidableEq, Repr

/-- Where a thread is: before what is named. -/
inductive Place
  | idle
  | wait (r : Transfer)
  | loop (r : Transfer)
  | drive (r : Transfer) (sector offset : ℕ)
  | copy (r : Transfer) (offset chunk i : ℕ)
  | signal (r : Transfer)
  | load (r : Transfer)
  | store (r : Transfer) (position : ℕ)
  | seek (k : Fin kHandles) (position : ℤ)
deriving DecidableEq, Repr

/-- What a thread does next: a call, the next step of the one it is in, or what the drive has it
do. -/
inductive Act
  | call (c : FileCall)
  | go
  | sector
  | failed (data : ℕ → UInt8)

/-- A read is cut to what is left of the file. -/
def readLength (handle : Handle) (size : Int32) : ℕ :=
  let length := if size < 0 then 0 else toWord size.toInt
  if length > sub32 handle.size handle.position then sub32 handle.size handle.position else length

/-- Where an offset counts from. -/
def seekBase (handle : Handle) (whence : Int32) : Option ℤ :=
  if whence = 0 then some 0
  else if whence = 1 then some (int32 handle.position)
  else if whence = 2 then some (int32 handle.size)
  else none

/-- `int32_t position = base + offset;`, and the two comparisons behind it. -/
def seekPosition (handle : Handle) (base : ℤ) (offset : Int32) : ℤ :=
  let position := int32 (toWord (base + offset.toInt))
  let position := if position < 0 then 0 else position
  if position > int32 handle.size then int32 handle.size else position

/-- The beginning of a call. -/
def beginCall (x : Files) : FileCall → Files × Place
  | .read privdata size =>
    match handleOf privdata x with
    | none => (x.answered (.refused kErrorBadHandle), .idle)
    | some k => (x, .wait ⟨k, readLength (x.handles k) size, 0, []⟩)
  | .lseek privdata offset whence =>
    match handleOf privdata x with
    | none => (x.answered (.refused kErrorBadHandle), .idle)
    | some k =>
      match seekBase (x.handles k) whence with
      | none => (x.answered (.refused kErrorBadWhence), .idle)
      | some base => (x, .seek k (seekPosition (x.handles k) base offset))

/-- How much of a sector is copied. -/
def chunkOf (r : Transfer) (offset : ℕ) : ℕ :=
  if kSectorSize - offset > sub32 r.length r.done then sub32 r.length r.done
  else kSectorSize - offset

/-- The head of the read's loop, and the beginning of `sectorCached`. -/
def loopHead (x : Files) (r : Transfer) : Files × Place :=
  if r.done < r.length then
    let position := add32 (x.handles r.k).position r.done
    let sector := add32 (x.handles r.k).lba (position / kSectorSize)
    let offset := position % kSectorSize
    if x.cache.valid && x.cache.lba == sector then (x, .copy r offset (chunkOf r offset) 0)
    else ({ x with cache := { x.cache with valid := false } }, .drive r sector offset)
  else (x, .signal r)

/-- `to[done + k] = data[offset + k]`, or the end of the copying. -/
def copyByte (x : Files) (r : Transfer) (offset chunk i : ℕ) : Place :=
  if i < chunk then
    let stored := r.stored ++ [(add32 r.done i, x.cache.data (offset + i))]
    .copy { r with stored := stored } offset chunk (i + 1)
  else .loop { r with done := add32 r.done chunk }

/-- A step of a thread; `none` when it waits, or there is no such step here. -/
def next (disc : Disc) (x : Files) : Place → Act → Option (Files × Place)
  | .idle, .call c => some (beginCall x c)
  | .wait r, .go => x.sema_driver.poll.map fun sema => ({ x with sema_driver := sema }, .loop r)
  | .loop r, .go => some (loopHead x r)
  | .drive r sector offset, .sector =>
    some ({ x with cache := ⟨sector, true, disc sector⟩ }, .copy r offset (chunkOf r offset) 0)
  | .drive r _ _, .failed data =>
    some ({ x with cache := { x.cache with data := data } }, .signal r)
  | .copy r offset chunk i, .go => some (x, copyByte x r offset chunk i)
  | .signal r, .go => some ({ x with sema_driver := x.sema_driver.signal }, .load r)
  | .load r, .go => some (x, .store r (add32 (x.handles r.k).position r.done))
  | .store r position, .go =>
    some ((x.moved r.k position).answered
      (.read r.k (x.handles r.k).position position (int32 r.done) r.stored), .idle)
  | .seek k position, .go =>
    some ((x.moved k (toWord position)).answered (.sought k position), .idle)
  | _, _ => none

end PS2Bios.Cdvdman
