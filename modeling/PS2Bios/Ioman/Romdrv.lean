import PS2Bios.Ioman.Descriptors
import PS2Bios.Library.Reading
import PS2Bios.Rom.Readers

/-!
# `ROMDRV`

The files of an archive as a device of `IOMAN`'s. A file that is open has a handle, an entry of a
table of eight, whose index is what the file's record keeps. The images lie in the ROM window and
are only read; everything else in memory is `ram`.
-/

namespace PS2Bios.Ioman.Romdrv

open Bytes

/-- The images that can be mounted. -/
def kUnits : ℕ := 4

/-- The files that can be open at once. -/
def kHandles : ℕ := 8

/-- The answer where the image has no such file. -/
def kErrorNotFound : ℤ := -2

/-- The answer to a unit there is no image for. -/
def kErrorBadUnit : ℤ := -6

/-- The answer to a handle that is not open. -/
def kErrorBadHandle : ℤ := -9

/-- The answer where no handle is left. -/
def kErrorHandlesFull : ℤ := -12

/-- The answer to opening for anything but reading. -/
def kErrorBadFlags : ℤ := -13

/-- An open file: where its bytes lie, how many, and which is read next. -/
structure Handle where
  inUse : Bool
  bytes : ℕ
  size : ℕ
  position : ℕ
deriving DecidableEq, Repr

/-- What the drivers work on: `ROMDRV`'s handles, memory, and what other drivers have. -/
structure World (τ : Type) where
  handles : List Handle
  ram : Ram
  elsewhere : τ

/-- Another driver. It may leave something in its record's `privdata`. -/
structure Driver (τ : Type) where
  init : Ram × τ → ℤ × Ram × τ
  deinit : Ram × τ → ℤ × Ram × τ
  openFile : File → ℕ → UInt32 → Ram × τ → ℤ × UInt32 × Ram × τ
  closeFile : File → Ram × τ → ℤ × UInt32 × Ram × τ
  readFile : File → ℕ → ℤ → Ram × τ → ℤ × UInt32 × Ram × τ
  lseekFile : File → ℤ → ℤ → Ram × τ → ℤ × UInt32 × Ram × τ

/-- The ROM and the images that are bound, with enough fuel for their tables; `ROMDRV`'s device,
and the other drivers. -/
structure Machine (τ : Type) where
  rom : Ram
  images : ℕ → Rom.Romdrv.Image
  fuel : ℕ
  device : Device
  others : Device → Driver τ

variable {τ : Type}

/-! ### The operations -/

/-- The bytes of a name that `lookup` may compare. -/
def nameAt (m : Ram) (name : ℕ) : List UInt8 := (readBytes m name Rom.kNameLength).takeWhile (· ≠ 0)

namespace Machine

variable (M : Machine τ)

/-- The place of a file in a unit's image. -/
def lookup (unit : ℕ) (name : List UInt8) : Option Rom.Place :=
  (Rom.Romdrv.lookup M.rom (M.images unit) name M.fuel).getD none

/-- `openFile`: unit and flags are checked, then the name looked up, then a handle taken. -/
def openFile (file : File) (name : ℕ) (flags : UInt32) (w : World τ) : ℤ × File × World τ :=
  if kUnits ≤ file.unit.toNat then (kErrorBadUnit, file, w)
  else if flags ≠ 1 then (kErrorBadFlags, file, w)
  else
    match M.lookup file.unit.toNat (nameAt w.ram name) with
    | none => (kErrorNotFound, file, w)
    | some found =>
      match w.handles.findIdx? fun handle => !handle.inUse with
      | none => (kErrorHandlesFull, file, w)
      | some k =>
        (0, { file with privdata := UInt32.ofNat k },
          { w with handles := w.handles.set k ⟨true, found.address, found.size, 0⟩ })

end Machine

/-- The open handle a descriptor keeps the index of. -/
def handleOf (file : File) (handles : List Handle) : Option Handle :=
  handles[file.privdata.toNat]?.filter Handle.inUse

/-- `closeHandle`: the handle is free. -/
def closeHandle (file : File) (w : World τ) : ℤ × File × World τ :=
  match handleOf file w.handles with
  | none => (kErrorBadHandle, file, w)
  | some handle =>
    (0, file, { w with
      handles := w.handles.set file.privdata.toNat { handle with inUse := false } })

/-- How many bytes a read takes. -/
def readLength (handle : Handle) (size : ℤ) : ℕ :=
  min size.toNat (sub32 handle.size handle.position)

/-- `readHandle`: what is left of the file, at most as much as asked for. -/
def readHandle (rom : Ram) (file : File) (buffer : ℕ) (size : ℤ) (w : World τ) :
    ℤ × File × World τ :=
  match handleOf file w.handles with
  | none => (kErrorBadHandle, file, w)
  | some handle =>
    let length := readLength handle size
    (length, file, { w with
      handles := w.handles.set file.privdata.toNat
        { handle with position := add32 handle.position length }
      ram := write w.ram buffer (readBytes rom (handle.bytes + handle.position) length) })

/-- Where an offset counts from. -/
def seekBase (handle : Handle) (whence : ℤ) : Option ℤ :=
  if whence = 0 then some 0
  else if whence = 1 then some (int32 handle.position)
  else if whence = 2 then some (int32 handle.size)
  else none

/-- The two comparisons of `lseek`, with an `int32_t`. -/
def clamped (position : ℤ) (size : ℕ) : ℤ :=
  let position := if position < 0 then 0 else position
  if position > int32 size then int32 size else position

/-- `lseekHandle`: the position moves where the new one is not before the file. -/
def lseekHandle (file : File) (offset whence : ℤ) (w : World τ) : ℤ × File × World τ :=
  match handleOf file w.handles with
  | none => (kErrorBadHandle, file, w)
  | some handle =>
    match seekBase handle whence with
    | none => (kErrorBadWhence, file, w)
    | some base =>
      let position := clamped (int32 (toWord (base + offset))) handle.size
      (position, file, { w with
        handles := w.handles.set file.privdata.toNat
          { handle with position := toWord position } })

/-! ### Among the other drivers -/

/-- `init` and `deinit` answer 0. -/
def Machine.romdrv (M : Machine τ) : FileOperations (World τ) where
  init w := (0, w)
  deinit w := (0, w)
  openFile := M.openFile
  closeFile := closeHandle
  readFile := readHandle M.rom
  lseekFile := lseekHandle

/-- What another driver left: its record's word, memory, and what is its own. -/
def Driver.leave (file : File) (w : World τ) (r : ℤ × UInt32 × Ram × τ) : ℤ × File × World τ :=
  (r.1, { file with privdata := r.2.1 }, { w with ram := r.2.2.1, elsewhere := r.2.2.2 })

/-- A driver that is not ours, as it acts on the whole world. -/
def Driver.operations (driver : Driver τ) : FileOperations (World τ) where
  init w :=
    let r := driver.init (w.ram, w.elsewhere)
    (r.1, { w with ram := r.2.1, elsewhere := r.2.2 })
  deinit w :=
    let r := driver.deinit (w.ram, w.elsewhere)
    (r.1, { w with ram := r.2.1, elsewhere := r.2.2 })
  openFile file name flags w := leave file w (driver.openFile file name flags (w.ram, w.elsewhere))
  closeFile file w := leave file w (driver.closeFile file (w.ram, w.elsewhere))
  readFile file buffer size w :=
    leave file w (driver.readFile file buffer size (w.ram, w.elsewhere))
  lseekFile file offset whence w :=
    leave file w (driver.lseekFile file offset whence (w.ram, w.elsewhere))

namespace Machine

variable (M : Machine τ)

/-- A device's driver: `romdrv` for its own, any other for the rest. -/
def operations (device : Device) : FileOperations (World τ) :=
  if device = M.device then M.romdrv else (M.others device).operations

/-- A call, on this machine. -/
def call (c : FileCall) (s : State (World τ)) : ℤ × State (World τ) :=
  c.run M.operations World.ram s

/-- The state a sequence of calls leads to. -/
def calls (cs : List FileCall) (s : State (World τ)) : State (World τ) :=
  runFiles M.operations World.ram cs s

end Machine

end PS2Bios.Ioman.Romdrv
