import PS2Bios.Kernel.Thread
import PS2Bios.Library.Bytes

/-!
# Replacing the running program

Slots 0x06 and 0x07, which enter EELOAD or a program with arguments, and slot 0x3C, with which the
program's runtime collects them. Here memory matters: the arguments are packed into a buffer of
the kernel's and handed over from there. Memory is kept by physical address, the kernel's variables
apart from that buffer in `State`. A program's memory begins at `kProgramStart`; below, its
addresses are not mapped.

A string without a zero byte before the end of memory makes a call fault, which is `none`.
-/

namespace PS2Bios.Kernel

open Bytes

/-- The bytes of a file that are fetched at a time. -/
def kWindow : ℕ := 0x4000

/-- Where EELOAD is put. -/
def kEeloadAddress : ℕ := 0x00082000

/-- Where the memory ends that is cleared before it is fetched. -/
def kClearEnd : ℕ := 0x00200000

/-- The bytes the kernel keeps of all the argument strings. -/
def kArgumentBytes : ℕ := 256

/-- The strings it keeps. -/
def kArgumentsMax : ℕ := 16

/-- The pointers the argument block has room for. -/
def kArgvSlots : ℕ := 16

/-- Where the strings begin in that block. -/
def kStringsAt : ℕ := 4 + kArgvSlots * 4

/-- The bytes of the memory. -/
def kRamSize : ℕ := 0x02000000

/-- Where the memory begins that programs use. -/
def kProgramStart : ℕ := 0x00080000

/-- Where the linker put `argument_strings`, `bounce` and the three strings of the kernel's own
that are arguments, all in the kernel's part of memory; and what the boot found memory's size
to be. -/
structure Image where
  argumentStrings : ℕ
  bounce : ℕ
  eeloadName : ℕ
  rom0Osdsys : ℕ
  bootBrowser : ℕ
  memorySize : ℕ
  argumentStrings_pos : 0 < argumentStrings
  argumentStrings_le : argumentStrings + kArgumentBytes ≤ kProgramStart
  eeloadName_le : eeloadName + 7 ≤ kProgramStart
  eeloadName_apart : eeloadName + 7 ≤ argumentStrings ∨
    argumentStrings + kArgumentBytes ≤ eeloadName

/-- `"EELOAD"`. -/
def kEeloadName : List UInt8 := [0x45, 0x45, 0x4C, 0x4F, 0x41, 0x44]

/-- The kernel's state and the memory. -/
structure Machine where
  kernel : State
  ram : Ram

/-- An entry of the archive. The channel moves quadwords, so what it sends of the file's last one
goes on past the file, with bytes that `pad` tells. -/
structure ArchiveFile where
  bytes : List UInt8
  pad : ℕ → UInt8

/-- The length the archive's directory gives. -/
def ArchiveFile.size (f : ArchiveFile) : ℕ := f.bytes.length

/-- A byte that is sent for the file: past its end, what lies behind it. -/
def ArchiveFile.byte (f : ArchiveFile) (i : ℕ) : UInt8 :=
  if i < f.size then f.bytes.getD i 0 else f.pad i

/-- The bytes of whole quadwords that `count` bytes take. -/
def inQuadwords (count : ℕ) : ℕ := (count + 15) / 16 * 16

/-- `sifExchange` with the content verb: a window of the file comes to `destination`. -/
def sifExchange (f : ArchiveFile) (m : Ram) (destination offset length : ℕ) : Ram :=
  write m destination ((List.range (inQuadwords length)).map fun i => f.byte (offset + i))

/-- One window of a file: straight to an aligned target, through the bounce buffer to any other. -/
def fetchWindow (I : Image) (f : ArchiveFile) (target : ℕ) (m : Ram) (done : ℕ) : Ram :=
  let length := if f.size - done < kWindow then f.size - done else kWindow
  if target % 16 = 0 then sifExchange f m (target + done) done length
  else copy (sifExchange f m I.bounce done length) (target + done) I.bounce length

/-- All the windows of a file. -/
def fetchFile (I : Image) (f : ArchiveFile) (target : ℕ) (m : Ram) : Ram :=
  ((List.range ((f.size + kWindow - 1) / kWindow)).map (· * kWindow)).foldl
    (fetchWindow I f target) m

/-! ### The argument list -/

/-- The `k`th pointer of an array. -/
def pointers (argv : ℕ) (m : Ram) (k : ℕ) : ℕ := readWord m (argv + 4 * k)

/-- The loop of `storeArguments`: `n` strings to go, the next one the `k`th. Answers how many are
stored. -/
def packStrings (I : Image) (argv : Ram → ℕ → ℕ) : ℕ → ℕ → ℕ → ℕ → Ram → Option (ℕ × Ram)
  | 0, _, _, stored, m => some (stored, m)
  | n + 1, k, used, stored, m =>
    (cString m kRamSize (argv m k)).bind fun string =>
      let length := string.length + 1
      if kArgumentBytes < used + length then some (stored, m)
      else packStrings I argv n (k + 1) (used + length) (stored + 1)
        (copy m (I.argumentStrings + used) (argv m k) length)

/-- The thread's record keeps how many strings there are and where. -/
def setProgramArguments (s : State) (argc packed : ℕ) : State :=
  s.setThread s.currentThread fun t => { t with argc := argc, args := packed }

/-- The strings are packed into the kernel's own block, whose count and place go into the record. -/
def storeArguments (I : Image) (m : Machine) (argc : ℤ) (argv : Ram → ℕ → ℕ) : Option Machine :=
  (packStrings I argv argc.toNat 0 0 0 m.ram).map fun r =>
    ⟨setProgramArguments m.kernel r.1 I.argumentStrings, r.2⟩

/-- Every thread but the running one and the boot thread gives its record back. -/
def terminateOtherThreads (s : State) : State :=
  (List.range' 1 (kThreads - 1)).foldl (fun s id =>
    if id = s.currentThread ∨ (s.thread id).state = .free then s
    else (s.detach id).release id) s

/-- Where the exception returns to. -/
def setEpc (s : State) (address : ℕ) : State := { s with epc := address }

/-- User memory is cleared from EELOAD's address up. -/
def clearMemory (m : Ram) : Ram := fun a =>
  if kEeloadAddress ≤ a ∧ a < kClearEnd then 0 else m a

/-- Memory with EELOAD where it runs. -/
def staged (I : Image) (eeload : ArchiveFile) (m : Ram) : Ram :=
  fetchFile I eeload kEeloadAddress (clearMemory m)

/-- Answers the address to enter, or 0 when the archive has no EELOAD. -/
def stageEeload (I : Image) (eeload : ArchiveFile) (m : Machine) (argc : ℤ)
    (argv : Ram → ℕ → ℕ) : Option (ℕ × Machine) :=
  if eeload.size = 0 then some (0, m)
  else
    let loaded : Machine := ⟨terminateOtherThreads m.kernel, staged I eeload m.ram⟩
    (storeArguments I loaded argc argv).map fun m =>
      (kEeloadAddress, { m with kernel := setEpc m.kernel kEeloadAddress })

/-- The pointers of EELOAD's list. -/
def loadList (I : Image) (m : Ram) (path : ℕ) (argc : ℤ) (argv : Ram → ℕ → ℕ) : List ℕ :=
  I.eeloadName :: path :: (List.range (min argc.toNat (kArgumentsMax - 2))).map (argv m)

/-- Slot 0x06. -/
def sysLoadProgram (I : Image) (eeload : ArchiveFile) (m : Machine) (path : ℕ) (argc : ℤ)
    (argv : Ram → ℕ → ℕ) : Option (ℤ × Machine) :=
  let list := loadList I m.ram path argc argv
  (stageEeload I eeload m list.length fun _ k => list.getD k 0).map fun r =>
    (if r.1 = 0 then -1 else r.1, r.2)

/-- Slot 0x7B. -/
def sysLoadOsd (I : Image) (eeload : ArchiveFile) (m : Machine) (argc : ℤ) (argv : ℕ) :
    Option (ℤ × Machine) :=
  sysLoadProgram I eeload m I.rom0Osdsys argc (pointers argv)

/-- Slot 0x04. -/
def sysBootBrowser (I : Image) (eeload : ArchiveFile) (m : Machine) : Option (ℤ × Machine) :=
  sysLoadProgram I eeload m I.rom0Osdsys 1 fun _ _ => I.bootBrowser

/-- Slot 0x07. -/
def sysExecPs2 (I : Image) (m : Machine) (entry : ℕ) (argc : ℤ) (argv : ℕ) :
    Option (ℕ × Machine) :=
  (storeArguments I { m with kernel := terminateOtherThreads m.kernel } argc (pointers argv)).map
    fun m => (entry, { m with kernel := setEpc m.kernel entry })

/-! ### The argument block -/

/-- `do *target++ = *source; while (*source++)`. Answers both pointers. -/
def copyString : ℕ → Ram → ℕ → ℕ → Option (Ram × ℕ × ℕ)
  | 0, _, _, _ => none
  | n + 1, m, target, source =>
    let m' := Function.update m target (m source)
    if m' source ≠ 0 then copyString n m' (target + 1) (source + 1)
    else some (m', target + 1, source + 1)

/-- The loop of slot 0x3C: `n` strings to go, the next one the `k`th. -/
def fillBlock (args : ℕ) : ℕ → ℕ → Ram → ℕ → ℕ → Option Ram
  | 0, _, m, _, _ => some m
  | n + 1, k, m, strings, source =>
    let m := writeWord m (args + 4 * (1 + k)) strings
    if source ≠ 0 then
      (copyString kRamSize m strings source).bind fun r =>
        fillBlock args n (k + 1) r.1 r.2.1 r.2.2
    else fillBlock args n (k + 1) (Function.update m strings 0) (strings + 1) source

/-- The stack slot 0x3C sets up: `-1` asks for the top of memory. -/
def setupStack (I : Image) (stack stackSize : ℕ) : ℕ :=
  if stack = 0xFFFFFFFF then sub32 (sub32 I.memorySize 0x1000) stackSize else stack

/-- The frame under the top of a new stack. -/
def setupFrame (I : Image) (stack stackSize : ℕ) : ℕ :=
  sub32 (add32 (setupStack I stack stackSize) stackSize) kFrameBytes

/-- The words of the frame that slot 0x3C writes. -/
def writeFrame (I : Image) (m : Ram) (gp stack stackSize root : ℕ) : Ram :=
  let top := add32 (setupStack I stack stackSize) stackSize
  let frame := setupFrame I stack stackSize
  let m := writeWord m (frame + 4 * kSlotGp) gp
  let m := writeWord m (frame + 4 * kSlotSp) (sub32 top 0x20)
  let m := writeWord m (frame + 4 * kSlotFp) (sub32 top 0x20)
  writeWord m (frame + 4 * kSlotRa) root

/-- Slot 0x3C. Answers the frame. -/
def sysSetupThread (I : Image) (m : Machine) (gp stack stackSize args root : ℕ) :
    Option (ℕ × Machine) :=
  let ram := writeFrame I m.ram gp stack stackSize root
  let thread := m.kernel.current
  let filled :=
    if args ≠ 0 then
      fillBlock args (min thread.argc kArgvSlots) 0 (writeWord ram args thread.argc)
        (args + kStringsAt) thread.args
    else some ram
  filled.map fun ram => (setupFrame I stack stackSize,
    ⟨m.kernel.setThread m.kernel.currentThread fun t =>
      { t with
        context := setupFrame I stack stackSize
        gp := gp
        stack := setupStack I stack stackSize
        stackSize := stackSize
        root := root
        args := args }, ram⟩)

end PS2Bios.Kernel
