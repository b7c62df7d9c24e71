import PS2Bios.Library.Bytes
import PS2Bios.Library.Prog
import Mathlib.Data.Int.Notation

/-!
# MCMAN's frames

MCMAN asks a card in batches of frames and looks at what has come back. A batch it makes too long is
not sent: `addFrame` has no place for a twelfth frame, and `runBatch` refuses eleven. A page arrives
in chunks of 128 bytes, one a frame.

What the driver asks of its surroundings is a `Question`. Among them is a store outside an array:
nothing is replied to it, so what a program does after one is not defined.

Every caller of `readPage` passes a null `tail`, so none is here; the frame that fetches it is.
-/

namespace PS2Bios.Mcman

open Bytes

/-! ### Frames -/

/-- The card ports. -/
def kPorts : ℕ := 2

/-- The controllers own serial ports 0 and 1, the cards 2 and 3. -/
def serialPort (port : Fin kPorts) : UInt32 := UInt32.ofNat (port + 2)

/-- The frames a batch has room for. -/
def kMaxFrames : ℕ := 11

/-- The bits every frame's description has set. -/
def kRegdataTag : UInt32 := 0x70

/-- The bits of a batch's status that are its verdict. -/
def kStatusMask : UInt32 := 0xF000

/-- The verdict of a batch that went through. -/
def kStatusGood : UInt32 := 0x1000

/-- The byte a card acknowledges with. -/
def kAck : UInt8 := 0x5A

/-- The byte in the reply of a card that is not ready, or not there. -/
def kBusy : UInt8 := 0x66

/-- How often a batch is tried. -/
def kAttempts : ℕ := 5

/-- The bytes behind a page's data. -/
def kTailBytes : UInt32 := 16

/-- The bytes of a page that one frame reads. -/
def kChunkBytes : ℕ := 128

/-- The answer of a call that went through. -/
def kOk : ℤ := 0

/-- The answer of a page that could not be read. -/
def kReadFailed : ℤ := -1

/-- The commands of the read path. -/
inductive Frame
  | probe
  | setPage
  | geometry
  | setTerminator
  | presence
  | readChunk
  | readTail
  | endRead
  | reset
deriving Repr, DecidableEq

/-- `kCommands`: a command's byte, and the length of its frame. -/
def Frame.command : Frame → UInt8 × UInt32
  | .probe => (0x11, 4)
  | .setPage => (0x23, 9)
  | .geometry => (0x26, 13)
  | .setTerminator => (0x27, 5)
  | .presence => (0x28, 5)
  | .readChunk => (0x43, 134)
  | .readTail => (0x43, 6)
  | .endRead => (0x81, 4)
  | .reset => (0xF3, 5)

/-- A frame in its block: the payload is what `addFrame` has put there. -/
structure Sent where
  frame : Frame
  payload : List UInt8
  regdata : UInt32
deriving Repr, DecidableEq

/-- A frame as it is described to the interface: its command, its payload and its length. -/
def sentOf (port : Fin kPorts) (which : Frame) (payload : List UInt8) (extra : UInt32) : Sent :=
  let length := which.command.2 + extra
  ⟨which, payload, serialPort port ||| kRegdataTag ||| length <<< 8 ||| length <<< 18⟩

/-- `addFrame`: a batch that is full takes no more. -/
def addFrame (port : Fin kPorts) (which : Frame) (payload : List UInt8) (extra : UInt32)
    (frames : List Sent) : List Sent :=
  if kMaxFrames ≤ frames.length then frames else frames ++ [sentOf port which payload extra]

/-! ### Questions -/

/-- What a transfer leaves: the status, and a block for each frame. -/
structure Transferred where
  stat6c : UInt32
  rx : ℕ → Ram

/-- What the driver asks of the world outside it. -/
inductive Question
  | transfer (port : Fin kPorts) (frames : List Sent)
  | authCard (port : Fin kPorts) (slot : ℤ)
  /-- What an array on the stack holds before anything is stored in it. -/
  | stack
  | overrun
deriving DecidableEq

/-- What each question is replied with. -/
abbrev Reply : Question → Type
  | .transfer _ _ => Transferred
  | .authCard _ _ => ℤ
  | .stack => Ram
  | .overrun => Empty

/-- A program of the driver's. -/
abbrev Driver := Prog Reply

/-- An array of `n` bytes. -/
structure Block (n : ℕ) where
  ram : Ram

/-- Where the code would write past an array; there is no reply to go on with. -/
def overrun {α : Type} : Driver α := .ask .overrun nofun

/-- The loop that copies some bytes into an array. -/
def Block.store {n : ℕ} (b : Block n) (i : ℕ) (bytes : List UInt8) : Driver (Block n) :=
  if i + bytes.length ≤ n then pure ⟨write b.ram i bytes⟩ else overrun

theorem Block.store_eq {n i : ℕ} {b : Block n} {bytes : List UInt8} (h : i + bytes.length ≤ n) :
    b.store i bytes = pure ⟨write b.ram i bytes⟩ := if_pos h

/-! ### Batches -/

/-- The interface says that the batch went through. -/
def Transferred.Good (r : Transferred) : Prop := r.stat6c &&& kStatusMask = kStatusGood

instance (r : Transferred) : Decidable r.Good := inferInstanceAs (Decidable (_ = _))

/-- `none` is what `runBatch` answers `false` to. -/
def runBatch (port : Fin kPorts) (frames : List Sent) : Driver (Option Transferred) :=
  if frames.length = 0 ∨ kMaxFrames ≤ frames.length then pure none
  else do
    let r : Transferred ← Prog.op (Question.transfer port frames)
    return if r.Good then some r else none

/-- Up to so many batches, until one gets what it is for. -/
def attempt {α : Type} (port : Fin kPorts) (frames : List Sent) (hit : Transferred → Option α) :
    ℕ → Driver (Option α)
  | 0 => pure none
  | left + 1 => do
    match (← runBatch port frames).bind hit with
    | some a => return some a
    | none => attempt port frames hit left

/-- `exclusiveOr`. -/
def exclusiveOr (bytes : List UInt8) : UInt8 := bytes.foldl (· ^^^ ·) 0

/-- Some bytes of a memory. -/
def bytesAt (m : Ram) (a n : ℕ) : List UInt8 := (List.range n).map fun i => m (a + i)

@[simp]
theorem length_bytesAt {m : Ram} {a n : ℕ} : (bytesAt m a n).length = n := by
  rw [bytesAt, List.length_map, List.length_range]

/-- Bytes that have been copied. -/
theorem write_bytesAt {m r : Ram} {a b n i : ℕ} (hi : i < n) :
    write m b (bytesAt r a n) (b + i) = r (a + i) :=
  at_write i _ (by rw [bytesAt, List.getElem?_map, List.getElem?_range hi]; rfl)

theorem bytesAt_congr {m m' : Ram} {a b n : ℕ} (h : ∀ i < n, m (a + i) = m' (b + i)) :
    bytesAt m a n = bytesAt m' b n :=
  List.map_congr_left fun i hi => h i (List.mem_range.mp hi)

/-- `probe`: a card is there when the last byte is not that of a busy one. -/
def probe (port : Fin kPorts) : Driver Bool := do
  return (← attempt port (addFrame port .probe [] 0 [])
    (fun r => if r.rx 0 3 ≠ kBusy then some () else none) kAttempts).isSome

/-- `reset`: one batch, whose verdict is all that counts. -/
def reset (port : Fin kPorts) : Driver Bool := do
  return (← runBatch port (addFrame port .reset [] 0 [])).isSome

/-- The terminator the card is holding. -/
def presence (port : Fin kPorts) : Driver (Option UInt8) :=
  attempt port (addFrame port .presence [] 0 [])
    (fun r => if r.rx 0 4 ≠ kBusy then some (r.rx 0 3) else none) kAttempts

/-- `setTerminator`: the card has to take the byte it is to acknowledge with. -/
def setTerminator (port : Fin kPorts) : Driver Bool := do
  return (← attempt port (addFrame port .setTerminator [kAck] 0 [])
    (fun r => if r.rx 0 4 = kAck then some () else none) kAttempts).isSome

/-- What the reply to a geometry frame is believed to say: the flags, and the page's size. -/
def geometryOf (r : Transferred) : Option (UInt8 × UInt32) :=
  if r.rx 0 0xC ≠ kAck ∨ exclusiveOr (bytesAt (r.rx 0) 3 8) ≠ r.rx 0 0xB then none
  else some (r.rx 0 2, UInt32.ofNat (readHalf (r.rx 0) 3))

/-- `geometry`: the card's flags and the size of its pages. -/
def geometry (port : Fin kPorts) : Driver (Option (UInt8 × UInt32)) :=
  attempt port (addFrame port .geometry [] 0 []) geometryOf kAttempts

/-! ### Pages -/

/-- What of a port says how its pages are read. -/
structure Layout where
  geometry_flags : UInt8
  page_bytes : UInt32

/-- The chunks a page of this size is read in. -/
def chunksOf (page_bytes : UInt32) : ℕ := (page_bytes / UInt32.ofNat kChunkBytes).toNat

namespace Layout

/-- The chunks of a page of the layout. -/
def chunks (l : Layout) : ℕ := chunksOf l.page_bytes

/-- The card keeps bytes behind each page's data. -/
def hasTail (l : Layout) : Bool := l.geometry_flags &&& 1 ≠ 0

end Layout

/-- A page's number as a frame carries it, with its check byte. -/
def pageArgument (page : UInt32) : List UInt8 :=
  let argument := [page.toUInt8, (page >>> 8).toUInt8, (page >>> 16).toUInt8, (page >>> 24).toUInt8]
  argument ++ [exclusiveOr argument]

/-- The frames of a page read. -/
def pageBatch (l : Layout) (port : Fin kPorts) (page : UInt32) : List Sent :=
  let frames := addFrame port .setPage (pageArgument page) 0 []
  let frames := (List.replicate l.chunks ()).foldl
    (fun frames _ => addFrame port .readChunk [0x80] 0 frames) frames
  let frames :=
    if l.hasTail then addFrame port .readTail [kTailBytes.toUInt8] kTailBytes frames else frames
  addFrame port .endRead [] 0 frames

/-- The bytes of the chunk in a block. -/
def chunk (r : Transferred) (k : ℕ) : List UInt8 := bytesAt (r.rx (1 + k)) 4 kChunkBytes

/-- What a reply to a page read is checked for. -/
def accepts (chunks last : ℕ) (r : Transferred) : Bool :=
  r.rx 0 8 = kAck && r.rx last 3 = kAck &&
    (List.range chunks).all fun k => exclusiveOr (chunk r k) = r.rx (1 + k) (4 + kChunkBytes)

/-- The chunks of a page, one behind the other. -/
def storeChunks {n : ℕ} (r : Transferred) (offset : ℕ) : ℕ → Block n → Driver (Block n)
  | 0, b => pure b
  | k + 1, b => do
    let b ← storeChunks r offset k b
    b.store (offset + k * kChunkBytes) (chunk r k)

/-- Every attempt but the first is preceded by a probe. -/
def stillThere (port : Fin kPorts) (first : Bool) : Driver Bool :=
  if first then pure true else probe port

/-- The attempts `readPage` has left. -/
def readAttempts {n : ℕ} (l : Layout) (port : Fin kPorts) (page : UInt32) (into : Block n)
    (offset : ℕ) : Bool → ℕ → Driver (ℤ × Block n)
  | _, 0 => pure (kReadFailed, into)
  | first, left + 1 => do
    if ← stillThere port first then
      let frames := pageBatch l port page
      match ← runBatch port frames with
      | none => readAttempts l port page into offset false left
      | some r =>
        if accepts l.chunks (frames.length - 1) r then
          let into ← storeChunks r offset l.chunks into
          return (kOk, into)
        else
          readAttempts l port page into offset false left
    else
      readAttempts l port page into offset false left

/-- `readPage`: a page read into a buffer at an offset. -/
def readPage {n : ℕ} (l : Layout) (port : Fin kPorts) (page : UInt32) (into : Block n)
    (offset : ℕ) : Driver (ℤ × Block n) :=
  readAttempts l port page into offset true kAttempts

end PS2Bios.Mcman
