import PS2Bios.Library.Threads
import PS2Bios.Modload.Ledger
import PS2Bios.Library.Reading

/-!
# MODLOAD

`LoadModule`, `LoadModuleBuffer` and `StartModule`, called by any number of threads. A load by path
reads its file through IOMAN, and the thread may block in each of those calls: `Phase` says in which
one it is, and threads take turns there. A start is told up to the entry of the module, from where
the thread may make calls again. The memory the callers keep their strings in is theirs, and may
change between any two steps.

SYSMEM is known by its answers, and so is what LOADCORE makes of an image (`Image`). A pointer into
the callers' memory is an address. Of a path or a name there is also the string it showed when the
call was made, which no step looks at; `origin` keeps it for each record.
-/

namespace PS2Bios.Modload

open Bytes Loadcore.CommandLine

/-- The answer of a module whose imports cannot be bound. -/
def kLinkError : ℤ := -200

/-- The answer of a file that is no module. -/
def kIllegalObject : ℤ := -201

/-- The answer of a path that cannot be opened. -/
def kNoFile : ℤ := -203

/-- The answer of a file that cannot be read. -/
def kFileError : ℤ := -204

/-- The answer where there is no memory for the module. -/
def kNoMemory : ℤ := -400

/-- The modules there is a record for. -/
def kLoadedMax : ℕ := 16

/-- The size of a `ModuleRecord`, which a module's place begins with. -/
def kRecordSize : UInt32 := 0x30

/-- Where the name is in a module's `.iopmod`. -/
def kIopmodName : ℕ := 26

/-- What the boot list holds at most. -/
def kBootListMax : UInt32 := 64

/-- What a file's module record says of it. -/
structure ExecutableInfo where
  type : UInt32
  entry : UInt32
  gp : UInt32
  memory_size : UInt32
  text_size : UInt32
  data_size : UInt32
  bss_size : UInt32
  base : UInt32

/-- A record, without the link to the one before it. -/
structure ModuleRecord where
  name : ℕ
  version : UInt16
  newflags : UInt16
  id : UInt16
  flags : UInt16
  entry : UInt32
  gp : UInt32
  text_start : UInt32
  text_size : UInt32
  data_size : UInt32
  bss_size : UInt32

/-- What LOADCORE answers about an image: where the headers put `.iopmod`, and what the probe, the
loading and the linking come to. -/
structure Image where
  iopmod_offset : Option ℕ
  probe : ℤ × ExecutableInfo
  load : ExecutableInfo → ℤ × ExecutableInfo
  link : ExecutableInfo → ℤ

/-- What the threads share: the hold list, LOADCORE's list of modules, its next id and the length of
the boot list, the blocks SYSMEM has granted and not been given back, and the callers' memory. -/
structure Shared where
  loaded : List (Option UInt32)
  record : UInt32 → ModuleRecord
  module_list : List UInt32
  next_module_id : UInt16
  bootListCount : UInt32
  held : List UInt32
  memory : Ram
  origin : UInt32 → Option (List UInt8)

/-- A pointer to a string, and the string. -/
structure Named where
  address : ℕ
  bytes : List UInt8

/-- The file of a load: its handle, the buffer and the length. -/
structure File where
  fd : ℤ
  block : UInt32
  length : ℤ

/-- The call a thread is in. -/
inductive Phase
  | idle
  | opening (path : Named)
  | sizing (path : Named) (fd : ℤ)
  | rewinding (path : Named) (file : File)
  | reading (path : Named) (file : File)
  | closing (path : Named) (file : File) (got : ℤ)
  /-- Closing the file of a load that has failed. -/
  | failing (fd error : ℤ) (negative : error < 0)

/-- The file buffer a thread's load has. -/
def Phase.buffer : Phase → Option UInt32
  | .rewinding _ file => some file.block
  | .reading _ file => some file.block
  | .closing _ file _ => some file.block
  | _ => none

/-- The arrays on the stack of a start. -/
structure Frame where
  copy : List UInt8
  argv : List (Option ℕ)
  copy_length : copy.length = kArgBytesMax
  argv_length : argv.length = kArgvMax

/-- A call a thread makes, or what IOMAN answers one, with SYSMEM's and LOADCORE's answers to what
the thread goes on to ask. -/
inductive Act
  | loadModule (path : Named)
  | loadModuleBuffer (buffer : ℕ) (image : Image) (block : UInt32)
  | startModule (id : ℤ) (name : Option Named) (arglen args : ℕ) (frame : Frame)
  | opened (fd : ℤ)
  | sized (length : ℤ) (block : UInt32)
  | rewound
  | got (n : ℤ)
  | closed (image : Image) (block : UInt32)

namespace Shared

/-- SYSMEM grants a block. -/
def allocated (s : Shared) (block : UInt32) : Shared := { s with held := block :: s.held }

/-- And is given one back. -/
def released (s : Shared) (block : UInt32) : Shared := { s with held := s.held.erase block }

/-- `registerModule`. -/
def registerModule (s : Shared) (block : UInt32) (record : ModuleRecord) : Shared :=
  let id := if s.next_module_id = 0 then (s.bootListCount + 1).toUInt16 else s.next_module_id
  { s with
    record := Function.update s.record block { record with id := id }
    module_list := block :: s.module_list
    next_module_id := id + 1 }

/-- `loadImage`. -/
def loadImage (s : Shared) (image : Image) (block : UInt32) (name : ℕ) :
    Except ℤ UInt32 × Shared :=
  let (answer, info) := image.probe
  if answer < 0 ∨ info.type < 1 ∨ 4 < info.type then (.error kIllegalObject, s)
  else if block = 0 then (.error kNoMemory, s)
  else
    let s := s.allocated block
    let (answer, info) := image.load { info with base := block + kRecordSize }
    if answer < 0 then (.error kIllegalObject, s.released block)
    else if image.link info < 0 then (.error kLinkError, s.released block)
    else
      (.ok block, s.registerModule block
        { name
          version := 0
          newflags := 0
          id := (s.record block).id
          flags := 0
          entry := info.entry
          gp := info.gp
          text_start := info.base
          text_size := info.text_size
          data_size := info.data_size
          bss_size := info.bss_size })

end Shared

/-- `canHold`. -/
def canHold (loaded : List (Option UInt32)) : Bool := loaded.any fun r => r.isNone

/-- `holdLoaded`. -/
def holdLoaded (record : UInt32) : List (Option UInt32) → List (Option UInt32)
  | [] => []
  | none :: l => some record :: l
  | some r :: l => some r :: holdLoaded record l

/-- The loop of `startModule`: the first record of the id, which leaves its slot. -/
def takeLoaded (record : UInt32 → ModuleRecord) (id : ℤ) :
    List (Option UInt32) → Option (UInt32 × List (Option UInt32))
  | [] => none
  | none :: l => (takeLoaded record id l).map fun found => (found.1, none :: found.2)
  | some r :: l =>
    if ((record r).id.toNat : ℤ) ≠ id then
      (takeLoaded record id l).map fun found => (found.1, some r :: found.2)
    else some (r, none :: l)

/-- More bytes than there are addresses. -/
def kTurns : ℕ := 2 ^ 32 + 1

/-- `baseName` of a pointer into the callers' memory. -/
def baseNameAt (memory : Ram) (path : ℕ) : Option ℕ :=
  (baseName (fun k => memory (path + k)) kTurns 0 0).map (path + ·)

/-- `isIllegalBootDevice`, which refuses no device. -/
def isIllegalBootDevice (_ : ℕ) : ℤ := 0

namespace Shared

/-- The module of a record. -/
def loadedAt (s : Shared) (record : UInt32) : Loaded where
  id := (s.record record).id
  record := record
  entry := (s.record record).entry
  gp := (s.record record).gp
  path := s.origin record

/-- What comes behind `loadImage`, which has released what it has to: the record is held and its id
answered. -/
def answered (s : Shared) (origin : Option (List UInt8)) (record : UInt32) : Seen × Shared :=
  let s := { s with
    loaded := holdLoaded record s.loaded
    origin := Function.update s.origin record origin }
  (.loaded (s.loadedAt record), s)

/-- `loadModule` behind the reading of the file: the rest of `loadFromPath`, and holding. -/
def loadFile (s : Shared) (path : Named) (file : File) (image : Image) (block : UInt32) :
    Option (Seen × Shared) := do
  let name ← baseNameAt s.memory path.address
  match s.loadImage image block name with
  | (.error error, s) => some (.failed error, s.released file.block)
  | (.ok record, s) => some ((s.released file.block).answered (some path.bytes) record)

/-- `LoadModuleBuffer`: the image lies in memory, so nothing is read in between. -/
def loadModuleBuffer (s : Shared) (buffer : ℕ) (image : Image) (block : UInt32) : Seen × Shared :=
  match image.iopmod_offset with
  | none => (.failed kIllegalObject, s)
  | some offset =>
    if canHold s.loaded then
      match s.loadImage image block (buffer + offset + kIopmodName) with
      | (.error error, s) => (.failed error, s)
      | (.ok record, s) => s.answered none record
    else (.failed kNoMemory, s)

/-- What `buildArguments` copies: the argument bytes, if there are any. -/
def argumentBytes (s : Shared) (arglen args : ℕ) : Option (List UInt8) :=
  if args = 0 then none else some (readBytes s.memory args arglen)

/-- The name a module is entered with. -/
def nameOf (s : Shared) (record : UInt32) : Option Named → Option ℕ
  | some name => baseNameAt s.memory name.address
  | none => some (s.record record).name

/-- `startModule`, up to the entry of the module. -/
def startModule (s : Shared) (id : ℤ) (name : Option Named) (arglen args : ℕ) (frame : Frame) :
    Option (Seen × Shared) :=
  match takeLoaded s.record id s.loaded with
  | none => some (.refused id, s)
  | some (record, loaded) => do
    let at_ ← s.nameOf record name
    let arguments ← buildArguments (fun k => s.memory (at_ + k)) arglen
      (s.argumentBytes arglen args) frame.copy frame.argv
    some (.started (s.loadedAt record) (name.map Named.bytes) arguments, { s with loaded })

end Shared

/-- A step of a thread: what is seen of it, the state it leaves and the call it is in then. -/
def next (s : Shared) : Phase → Act → Option (List Seen × Shared × Phase)
  | .idle, .loadModule path =>
    if canHold s.loaded then
      if isIllegalBootDevice path.address ≠ 0 then some ([.failed kIllegalObject], s, .idle)
      else some ([], s, .opening path)
    else some ([.failed kNoMemory], s, .idle)
  | .opening path, .opened fd =>
    if fd < 0 then some ([.failed kNoFile], s, .idle) else some ([], s, .sizing path fd)
  | .sizing path fd, .sized length block =>
    if length ≤ 0 then some ([], s, .failing fd kFileError (by decide))
    else if block = 0 then some ([], s, .failing fd kNoMemory (by decide))
    else some ([], s.allocated block, .rewinding path ⟨fd, block, length⟩)
  | .rewinding path file, .rewound => some ([], s, .reading path file)
  | .reading path file, .got n => some ([], s, .closing path file n)
  | .closing path file got, .closed image block =>
    if got ≠ file.length then
      some ([.failed kFileError], s.released file.block, .idle)
    else (s.loadFile path file image block).map fun r => ([r.1], r.2, .idle)
  | .failing _ error _, .closed _ _ => some ([.failed error], s, .idle)
  | .idle, .loadModuleBuffer buffer image block =>
    let r := s.loadModuleBuffer buffer image block
    some ([r.1], r.2, .idle)
  | .idle, .startModule id name arglen args frame =>
    (s.startModule id name arglen args frame).map fun r => ([r.1], r.2, .idle)
  | _, _ => none

/-- A step of a thread, or a change of the callers' memory. -/
inductive Label (ι : Type)
  | act (t : ι) (a : Act)
  | memory (m : Ram)

/-- The threads that load modules, and what they share. -/
abbrev Machine (ι : Type) := Threads ι Phase Shared

namespace Machine

variable {ι : Type} [DecidableEq ι]

/-- Nothing is held and no module loaded. -/
def start (bootListCount : UInt32) (memory : Ram) (record : UInt32 → ModuleRecord) :
    Machine ι where
  place _ := .idle
  shared :=
    { loaded := List.replicate kLoadedMax none
      record
      module_list := []
      next_module_id := 0
      bootListCount
      held := []
      memory
      origin := fun _ => none }

/-- One action of a thread, or a change of the memory by somebody else. -/
def step (s : Machine ι) : Label ι → Option (List Seen × Machine ι)
  | .act t a => (next s.shared (s.place t) a).map fun r => (r.1, s.go t r.2.2 r.2.1)
  | .memory m => some ([], ⟨s.place, { s.shared with memory := m }⟩)

end Machine

end PS2Bios.Modload
