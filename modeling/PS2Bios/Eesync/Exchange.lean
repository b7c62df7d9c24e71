import PS2Bios.Library.Bytes
import PS2Bios.Library.Prog
import PS2Bios.Library.Run
import PS2Bios.Sif.Receive
import Mathlib.Data.Int.Notation

/-!
# The kernel's file exchange

The EE's kernel has files of the archive brought over by EESYNC. An exchange starts the receiving
channel, sends a request, and waits until the channel has stopped; EESYNC's handler answers with a
run that ends it. What a file is is asked first, then its bytes, a window at a time.

Requests and answers carry no number. The one an exchange has here, and what EE memory was when it
began, are for an observer.
-/

namespace PS2Bios.Eesync

open Sif

/-- The verb of a request that asks how big a file is. -/
def kVerbSize : UInt32 := 0

/-- The verb of a request that asks for its bytes. -/
def kVerbContent : UInt32 := 1

/-- The bytes a name has in the archive's directory. -/
def kNameLength : ℕ := 10

/-- The most that one answer carries. -/
def kPayloadBytes : ℕ := 4096 * 4

/-- The bytes of a file that are fetched at a time. -/
def kWindow : ℕ := 0x4000

/-- Where the memory ends that is cleared behind a fetch. -/
def kClearEnd : UInt32 := 0x00200000

/-- The address without its segment. -/
def physical (address : UInt32) : UInt32 := address &&& 0x1FFFFFFF

/-- What the kernel asks of the boot stub: a file, and what of it is to go where. -/
structure Request where
  name : List UInt8
  verb : UInt32
  destination : UInt32
  offset : UInt32
  length : UInt32

/-- What is where. -/
structure Site where
  /-- The file EESYNC's `lookup` finds under a name. -/
  lookup : List UInt8 → Option (List UInt8)
  /-- The archive is in a ROM of 4 MiB. -/
  small : ∀ name file, lookup name = some file → file.length ≤ 0x400000
  /-- The buffer in IOP memory that every answer is sent out of. -/
  payload : UInt32
  payload_physical : payload &&& 0x7FFFFFFF = payload
  /-- The EE memory the kernel has files brought to. -/
  buffers : UInt32 → Prop
  buffers_physical : ∀ a, buffers a → physical a = a
  sifReply : UInt32
  bounce : UInt32
  sifReply_buffers : ∀ k < 16, buffers (sifReply + UInt32.ofNat k)
  bounce_buffers : ∀ k < kWindow, buffers (bounce + UInt32.ofNat k)

variable (S : Site)

/-! ### EESYNC -/

/-- The bytes a window of a file puts into the payload, and how many words are sent. -/
def fillContent (file : Option (List UInt8)) (offset length : UInt32) : List UInt8 × ℕ :=
  match file with
  | none => (Bytes.wordBytes 0, 4)
  | some bytes =>
    if bytes.length ≤ offset.toNat then (Bytes.wordBytes 0, 4)
    else
      let available := bytes.length - offset.toNat
      let length :=
        if length = 0 ∨ available < length.toNat then available else length.toNat
      let length := min length kPayloadBytes
      ((bytes.drop offset.toNat).take length, (length + 3) / 4)

/-- What the stub answers with: the bytes, and how many words of the answer count. -/
def answerTo (r : Request) : List UInt8 × ℕ :=
  let file := S.lookup r.name
  if r.verb = kVerbSize then
    (Bytes.wordBytes (file.elim 0 List.length) ++ List.replicate 12 0, 4)
  else fillContent file r.offset r.length

/-- The transfer an answer is. -/
def answerTransfer (r : Request) : Transfer :=
  ⟨S.payload, r.destination, UInt32.ofNat ((answerTo S r).2 * 4), kAttrEndEe⟩

/-- The handler of a request, the `n`th. -/
def serveFile (l : Link ℕ) (n : ℕ) (r : Request) : Link ℕ :=
  ((l.store S.payload (answerTo S r).1).setDma n (answerTransfer S r)).2

/-! ### The kernel -/

/-- What a fetch does: an exchange with the IOP, and what it does to its own memory. -/
inductive Op
  | sifExchange (r : Request)
  | load (address : UInt32)
  | copyBytes (target source : UInt32) (n : ℕ)
  /-- Zeros from the first address up to the second. -/
  | clear (first last : UInt32)

/-- An exchange leaves EE memory as it leaves it. -/
def Op.Reply : Op → Type
  | .sifExchange _ => UInt32 → UInt8
  | .load _ => UInt32
  | .copyBytes _ _ _ => Unit
  | .clear _ _ => Unit

/-- A piece of the kernel's program. -/
abbrev Kernel (α : Type) := Prog Op.Reply α

/-- A name in its field: cut at its end, and filled up with zeros. -/
def nameField (name : List UInt8) : List UInt8 :=
  let name := (name.takeWhile (· ≠ 0)).take kNameLength
  name ++ List.replicate (kNameLength - name.length) 0

/-- `sifExchange`: the request goes out with the destination's physical address. -/
def sifExchange (name : List UInt8) (verb destination offset length : UInt32) : Kernel Unit := do
  let _ ← Prog.op (Op.sifExchange ⟨nameField name, verb, physical destination, offset, length⟩)

/-- A word of the kernel's memory. -/
def load (address : UInt32) : Kernel UInt32 := Prog.op (Op.load address)

/-- Bytes from one place of the memory to another. -/
def copyBytes (target source : UInt32) (n : ℕ) : Kernel Unit :=
  Prog.op (Op.copyBytes target source n)

/-- Zeros from the first address up to the second. -/
def clear (first last : UInt32) : Kernel Unit := Prog.op (Op.clear first last)

/-- The loop of `fetchFile`. -/
def fetchFile (name : List UInt8) (target : UInt32) (size done : ℕ) : Kernel Unit :=
  if done < size then do
    let length := if size - done < kWindow then size - done else kWindow
    if target &&& 15 = 0 then
      sifExchange name kVerbContent (target + UInt32.ofNat done) (UInt32.ofNat done)
        (UInt32.ofNat length)
    else
      sifExchange name kVerbContent S.bounce (UInt32.ofNat done) (UInt32.ofNat length)
      copyBytes (target + UInt32.ofNat done) S.bounce length
    fetchFile name target size (done + kWindow)
  else pure ()
termination_by size - done
decreasing_by
  have hwindow : kWindow = 0x4000 := rfl
  omega

/-- What `stageEeload` does to bring a file in. It answers the file's size, `0` for no file. -/
def stage (name : List UInt8) (target : UInt32) : Kernel UInt32 := do
  sifExchange name kVerbSize S.sifReply 0 0
  let size ← load S.sifReply
  if size = 0 then
    return 0
  clear target kClearEnd
  fetchFile S name target size.toNat 0
  return size

/-- Where the kernel is. -/
inductive Control
  /-- It is not fetching anything; a program may run. -/
  | idle
  | running (p : Kernel UInt32)
  /-- It is in its `n`th exchange, which began over the memory `before`. -/
  | waiting (n : ℕ) (r : Request) (before : UInt32 → UInt8) (k : (UInt32 → UInt8) → Kernel UInt32)
  /-- The file is there. -/
  | fetched (size : UInt32)

/-- The kernel's fetch and the two ends of the link under it. -/
structure State where
  receiver : Receiver ℕ
  /-- The requests that have been sent and not served. -/
  inFlight : List (ℕ × Request)
  control : Control
  /-- What is being fetched, and where to. -/
  name : List UInt8
  target : UInt32
  /-- How many exchanges there have been. -/
  asked : ℕ

/-- Before the first fetch. -/
def State.start (memory ee : UInt32 → UInt8) : State :=
  ⟨⟨.start memory, ee, false⟩, [], .idle, [], 0, 0⟩

namespace State

/-- The IOP's end of the link. -/
def link (s : State) : Link ℕ := s.receiver.link

/-- The kernel's memory. -/
def ee (s : State) : UInt32 → UInt8 := s.receiver.ee

/-- The IOP's end changed. -/
def setLink (s : State) (l : Link ℕ) : State := { s with receiver := { s.receiver with link := l } }

/-- The kernel's memory changed. -/
def setEe (s : State) (ee : UInt32 → UInt8) : State :=
  { s with receiver := { s.receiver with ee := ee } }

end State

/-- Bytes of memory, from an address on. -/
def slice (memory : UInt32 → UInt8) (address : UInt32) (n : ℕ) : List UInt8 :=
  (List.range n).map fun k => memory (address + UInt32.ofNat k)

/-- The word at an address, the lowest byte first. -/
def wordAt (memory : UInt32 → UInt8) (address : UInt32) : UInt32 :=
  UInt32.ofNat ((memory address).toNat + 256 * (memory (address + 1)).toNat +
    65536 * (memory (address + 2)).toNat + 16777216 * (memory (address + 3)).toNat)

/-- Zeros in the memory from the first address up to the second. -/
def cleared (memory : UInt32 → UInt8) (first last : UInt32) : UInt32 → UInt8 := fun a =>
  if first ≤ a ∧ a < last then 0 else memory a

/-- How many bytes a transfer lands. -/
def landing (r : Request) : ℕ := 16 * (answerTransfer S r).block.quads

/-- A file may be brought there: what lands stays within the kernel's buffers, and off `bounce`. -/
def Roomy (name : List UInt8) (target : UInt32) : Prop :=
  ∀ file, S.lookup (nameField name) = some file → ∀ k < (file.length + 15) / 16 * 16,
    S.buffers (target + UInt32.ofNat k) ∧
      ∀ j < kWindow, target + UInt32.ofNat k ≠ S.bounce + UInt32.ofNat j

/-- What can happen next. -/
inductive Event
  /-- The kernel is to fetch a file. -/
  | fetch (name : List UInt8) (target : UInt32)
  /-- The kernel goes on. -/
  | run
  /-- The kernel is done with the fetch, and a program runs. -/
  | leave
  /-- The program starts the receiving channel, or stops it. -/
  | chain (start : Bool)
  /-- The program writes EE memory. -/
  | poke (address : UInt32) (value : UInt8)
  /-- EESYNC's handler is given a request. -/
  | serve
  /-- Another module of the IOP's hands over a run. -/
  | send (list : ℕ → Transfer) (count function arg : UInt32)
  /-- IOP memory other than the payload changes. -/
  | write (address : UInt32) (value : UInt8)
  | move
  | deliver
  | interrupt

/-- What can happen next, to either end. -/
inductive Step : State → Event → State → Prop
  | fetch (s : State) (name : List UInt8) (target : UInt32) (h : s.control = .idle)
      (hroomy : Roomy S name target) :
      Step s (.fetch name target)
        { s with control := .running (stage S name target), name := name, target := target }
  | ask (s : State) {r : Request} {k : (UInt32 → UInt8) → Kernel UInt32}
      (h : s.control = .running (.ask (.sifExchange r) k)) :
      Step s .run
        { s with
          receiver := { s.receiver with armed := true }
          inFlight := s.inFlight ++ [(s.asked, r)]
          control := .waiting s.asked r s.ee k
          asked := s.asked + 1 }
  | returns (s : State) {n : ℕ} {r : Request} {before : UInt32 → UInt8}
      {k : (UInt32 → UInt8) → Kernel UInt32} (h : s.control = .waiting n r before k)
      (hstopped : s.receiver.armed = false) :
      Step s .run { s with control := .running (k s.ee) }
  | load (s : State) {address : UInt32} {k : UInt32 → Kernel UInt32}
      (h : s.control = .running (.ask (.load address) k)) :
      Step s .run { s with control := .running (k (wordAt s.ee address)) }
  | copyBytes (s : State) {target source : UInt32} {n : ℕ} {k : Unit → Kernel UInt32}
      (h : s.control = .running (.ask (.copyBytes target source n) k)) :
      Step s .run
        { s.setEe (put s.ee target (slice s.ee source n)) with control := .running (k ()) }
  | clear (s : State) {first last : UInt32} {k : Unit → Kernel UInt32}
      (h : s.control = .running (.ask (.clear first last) k)) :
      Step s .run { s.setEe (cleared s.ee first last) with control := .running (k ()) }
  | done (s : State) {size : UInt32} (h : s.control = .running (.ret size)) :
      Step s .run { s with control := .fetched size }
  | leave (s : State) {size : UInt32} (h : s.control = .fetched size) :
      Step s .leave { s with control := .idle }
  | chain (s : State) (start : Bool) (h : s.control = .idle) :
      Step s (.chain start) { s with receiver := { s.receiver with armed := start } }
  | poke (s : State) (address : UInt32) (value : UInt8) (h : s.control = .idle) :
      Step s (.poke address value) (s.setEe (put s.ee address [value]))
  | serve (s : State) {n : ℕ} {r : Request} {rest : List (ℕ × Request)}
      (h : s.inFlight = (n, r) :: rest) :
      Step s .serve { s.setLink (serveFile S s.link n r) with inFlight := rest }
  | send (s : State) (list : ℕ → Transfer) (count function arg : UInt32) :
      Step s (.send list count function arg)
        (s.setLink (s.link.queue list count function arg none).2)
  | write (s : State) (address : UInt32) (value : UInt8)
      (h : ∀ k < kPayloadBytes, address ≠ S.payload + UInt32.ofNat k) :
      Step s (.write address value) (s.setLink (s.link.store address [value]))
  | move (s : State) {t : Receiver ℕ} (h : s.receiver.move = some t) :
      Step s .move { s with receiver := t }
  | deliver (s : State) {t : Receiver ℕ} (h : s.receiver.deliver = some t) :
      Step s .deliver { s with receiver := t }
  | interrupt (s : State) {l : Link ℕ} (h : s.link.interrupt = some l) :
      Step s .interrupt (s.setLink l)

/-- A run with a block that stops the receiving channel. -/
def Ends (run : Run) : Prop := ∃ block ∈ run.blocks, block.tag &&& kTagEnd ≠ 0

/-- A run that lands nothing in the kernel's buffers. -/
def Avoids (run : Run) : Prop :=
  ∀ block ∈ run.blocks, ∀ k < 16 * block.quads, ¬S.buffers (block.destination + UInt32.ofNat k)

/-- The answer to the `n`th request has not been accepted. -/
def Unanswered (s : State) (n : ℕ) : Prop := ∀ p ∈ s.link.sent, p.owner ≠ n

/-- A step that the exchange does not go wrong in. When an exchange starts the channel, nothing that
would stop it is queued, and no run is half way. Until its answer is queued, no other run that
would stop the channel is. And as long as a file is fetched, no other run lands in the kernel's
buffers. -/
def Fits (s : State) : Event → Prop
  | .fetch _ _ => ∀ x ∈ s.link.ahead, Avoids S x.1
  | .run => ∀ r k, s.control = .running (.ask (.sifExchange r) k) →
      s.link.moved = 0 ∧ ∀ x ∈ s.link.ahead, ¬Ends x.1
  | .send list count function arg =>
    ¬(count = 0 ∨ kTransfersMax < count ∨ s.link.sifman.sendQueued = kSendGroups) →
      (s.control ≠ .idle → Avoids S (Run.asked list count function arg)) ∧
        ∀ n r before k, s.control = .waiting n r before k → Unanswered s n →
          ¬Ends (Run.asked list count function arg)
  | _ => True

/-- The answer to this exchange's own request has landed whole, at its destination. -/
def Answered (s : State) (n : ℕ) (r : Request) : Prop :=
  ∃ p ∈ s.link.sent, p.owner = n ∧ p.transfer = answerTransfer S r ∧
    (∃ before after, s.link.arrived = before ++ p.quads ++ after) ∧
    ∀ k x, (answerTo S r).1[k]? = some x → s.ee (r.destination + UInt32.ofNat k) = x

/-- The file that was asked for is in EE memory, or there is none. -/
def Fetched (s : State) (size : UInt32) : Prop :=
  size.toNat = (S.lookup (nameField s.name)).elim 0 List.length ∧
    ∀ file, S.lookup (nameField s.name) = some file → ∀ k x, file[k]? = some x →
      s.ee (s.target + UInt32.ofNat k) = x

end PS2Bios.Eesync
