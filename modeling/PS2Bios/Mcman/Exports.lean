import PS2Bios.Mcman.Volume

/-!
# MCMAN's exports

`detect` tells what is in a slot, and mounts it when it has not seen it before. `getDir` lists the
root directory: a mode of zero starts a listing, any other goes on with it, and where it is kept for
each port. The records it writes are listed here in the order it writes them.
-/

namespace PS2Bios.Mcman

open Bytes

/-- The answer of a card that is good but was not there before. -/
def kCardChanged : ℤ := -1

/-- The answer of a port that did not take the reset. -/
def kNoReset : ℤ := -11

/-- The answer of a port where no card answers the probe. -/
def kNoPresence : ℤ := -12

/-- The answer of a card that refused the terminator. -/
def kNoTerminator : ℤ := -13

/-- The answer of a card that was not let in. -/
def kNoAuth : ℤ := -90

/-- What every answer of the ladder below the card's own is replaced by. -/
def kNothingThere : ℤ := -11

/-- The driver's variables. -/
structure State where
  ports : Fin kPorts → Port
  buffers : Buffers
  listing_position : Fin kPorts → UInt32
  listing_bound : Fin kPorts → UInt32

/-- The record of one port replaced. -/
def State.setPort (s : State) (port : Fin kPorts) (state : Port) : State :=
  { s with ports := Function.update s.ports port state }

@[simp]
theorem State.setPort_self (s : State) (port : Fin kPorts) (state : Port) :
    (s.setPort port state).ports port = state := Function.update_self ..

theorem State.setPort_of_ne (s : State) {p port : Fin kPorts} (h : p ≠ port) (state : Port) :
    (s.setPort port state).ports p = s.ports p := Function.update_of_ne h ..

/-! ### Detection -/

/-- The end of the ladder. -/
def remount (s : State) (port : Fin kPorts) : Driver (ℤ × State) := do
  let (mounted, state, buffers) ← mount (s.ports port) port s.buffers
  return (if mounted = kOk then kCardChanged else mounted, { s.setPort port state with buffers })

/-- The ladder from the presence frame on. -/
def ladderFrom (s : State) (port : Fin kPorts) (slot : ℤ) (authenticated : Bool) :
    Driver (ℤ × State) := do
  match ← presence port with
  | none => return (kNoPresence, s)
  | some terminator =>
    if terminator = kAck then
      if (s.ports port).mounted then return (kOk, s) else remount s port
    else if authenticated then
      if ← setTerminator port then remount s port else return (kNoTerminator, s)
    else
      let allowed ← Prog.op (Question.authCard port slot)
      if allowed = (0 : ℤ) then
        return (kNoAuth, s)
      else
        if ← setTerminator port then remount s port else return (kNoTerminator, s)

/-- `detectLadder`: probe, or reset and authenticate, before the card is mounted. -/
def detectLadder (s : State) (port : Fin kPorts) (slot : ℤ) : Driver (ℤ × State) := do
  if ← probe port then
    ladderFrom s port slot false
  else
    if ← reset port then
      let allowed ← Prog.op (Question.authCard port slot)
      if allowed = (0 : ℤ) then return (kNoAuth, s) else ladderFrom s port slot true
    else
      return (kNoReset, s)

/-- What export 5 makes of the ladder's answer. -/
def masked (s : State) (port : Fin kPorts) (answer : ℤ) : ℤ × State :=
  if kCardChanged ≤ answer then (answer, s.setPort port { s.ports port with type := 2 })
  else if answer = kNotFormatted then
    (kNotFormatted, s.setPort port { s.ports port with type := 2 })
  else (kNothingThere, s.setPort port { s.ports port with type := 0, mounted := false })

/-- The port a caller means. -/
def portOf (port : ℤ) : Option (Fin kPorts) :=
  if h : 0 ≤ port ∧ port < kPorts then some ⟨port.toNat, by omega⟩ else none

/-- `detect`: the ladder, with its finer answers masked. -/
def detect (s : State) (port slot : ℤ) : Driver (ℤ × State) :=
  match portOf port with
  | none => pure (kNothingThere, s)
  | some index => do
    let (answer, s) ← detectLadder s index slot
    return masked s index answer

/-- `cardType`: what the last detection made of the port. -/
def cardType (s : State) (port : ℤ) : UInt8 := ((portOf port).map fun p => (s.ports p).type).getD 0

/-! ### Listing -/

/-- Export 12's record. -/
structure Listing where
  created : List UInt8
  modified : List UInt8
  length : UInt32
  mode : UInt16
  spare : UInt16
  attributes : UInt32
  pad : List UInt8
  name : List UInt8
deriving Repr, DecidableEq

/-- Bit 15. -/
def kEntryInUse : UInt32 := 0x8000

/-- The entry is that of a file or directory that exists. -/
def inUse (entry : Block kEntryBytes) : Bool := entry.word 0 (by decide) &&& kEntryInUse ≠ 0

/-- The record that is answered for a directory entry. -/
def listingOf (entry : Block kEntryBytes) : Listing where
  created := entry.bytes 8 8 (by decide)
  modified := entry.bytes 0x18 8 (by decide)
  length := entry.word 4 (by decide)
  mode := (entry.word 0 (by decide)).toUInt16
  spare := (entry.half 2 (by decide)).toUInt16
  attributes := entry.word 0x20 (by decide)
  pad := List.replicate 4 0
  name := entry.bytes 0x40 32 (by decide)

/-- Each entry brings a listing nearer to its bound. -/
theorem bound_falls {position bound : UInt32} (h : position < bound) :
    bound.toNat - (position + 1).toNat < bound.toNat - position.toNat := by
  have hlt := UInt32.lt_iff_toNat_lt.mp h
  have hbound := bound.toNat_lt
  have hone : (1 : UInt32).toNat = 1 := rfl
  rw [UInt32.toNat_add, hone]
  omega

/-- The loop of `getDir`: the records, where the listing is then, and the arrays. -/
def listFrom (state : Port) (port : Fin kPorts) (max : ℤ) (bound position : UInt32) (b : Buffers)
    (records : List Listing) : Driver (List Listing × UInt32 × Buffers) :=
  if (records.length : ℤ) < max then
    if _ : position < bound then do
      let (found, b) ← directoryEntry state port 0 position b
      if found then
        listFrom state port max bound (position + 1) b
          (if inUse b.entry_buffer then records ++ [listingOf b.entry_buffer] else records)
      else
        return (records, position, b)
    else pure (records, position, b)
  else pure (records, position, b)
termination_by bound.toNat - position.toNat
decreasing_by exact bound_falls ‹_›

/-- Where a listing begins and ends: behind the two conventional entries, and at the length the
directory itself gives. -/
def startListing (state : Port) (port : Fin kPorts) (b : Buffers) : Driver (UInt32 × Buffers) := do
  let (found, b) ← directoryEntry state port 0 0 b
  return (if found then b.entry_buffer.word 4 (by decide) else 0, b)

/-- One piece of a listing. -/
def listPiece (s : State) (port : Fin kPorts) (max : ℤ) : Driver (ℤ × List Listing × State) := do
  let (records, position, buffers) ← listFrom (s.ports port) port max (s.listing_bound port)
    (s.listing_position port) s.buffers []
  return (records.length, records,
    { s with
      listing_position := Function.update s.listing_position port position
      buffers })

/-- `getDir`: the next entries of the root that match, at most as many as there is room for. -/
def getDir (s : State) (port slot : ℤ) (path : Option (List UInt8)) (mode : UInt32) (max : ℤ) :
    Driver (ℤ × List Listing × State) :=
  match portOf port with
  | none => pure (0, [], s)
  | some index =>
    if max ≤ 0 then pure (0, [], s)
    else do
      let (found, s) ← detect s port slot
      if found < kCardChanged then
        return (0, [], s)
      else if (path.bind List.head?) ≠ some 0x2F then
        return (0, [], s)
      else if mode = 0 then
        let (bound, buffers) ← startListing (s.ports index) index s.buffers
        listPiece
          { s with
            listing_position := Function.update s.listing_position index 2
            listing_bound := Function.update s.listing_bound index bound
            buffers } index max
      else
        listPiece s index max

/-! ### Calls -/

/-- A call of an export. -/
inductive Call
  | detect (port slot : ℤ)
  | cardType (port : ℤ)
  | getDir (port slot : ℤ) (path : Option (List UInt8)) (mode : UInt32) (max : ℤ)

/-- What a call answers, and the records it writes. -/
def serve (s : State) : Call → Driver ((ℤ × List Listing) × State)
  | .detect port slot => do
    let (answer, s) ← Mcman.detect s port slot
    return ((answer, []), s)
  | .cardType port => pure (((Mcman.cardType s port).toNat, []), s)
  | .getDir port slot path mode max => do
    let (answer, records, s) ← Mcman.getDir s port slot path mode max
    return ((answer, records), s)

/-- Calls one after another. -/
def serveAll : State → List Call → Driver (List (ℤ × List Listing) × State)
  | s, [] => pure ([], s)
  | s, c :: cs => do
    let (answer, s) ← serve s c
    let (answers, s) ← serveAll s cs
    return (answer :: answers, s)

/-- What the loader has put there. -/
def started : State where
  ports _ := ⟨⟨0, 0⟩, ⟨fun _ => 0⟩, 0, false, 0, 0, 0, 0, fun _ => 0⟩
  buffers := ⟨⟨fun _ => 0⟩, ⟨fun _ => 0⟩⟩
  listing_position _ := 0
  listing_bound _ := 0

/-- What is around the driver: what the cards reply, what the authentication answers, and what is
on the stack, all of it by how much the driver has asked before. -/
structure Slots where
  transfer : ℕ → Fin kPorts → List Sent → Transferred
  authCard : ℕ → Fin kPorts → ℤ → ℤ
  stack : ℕ → Ram

/-- A store outside an array is not answered. -/
def Slots.answer (w : Slots) (n : ℕ) : (o : Question) → Option (Reply o)
  | .transfer port frames => some (w.transfer n port frames)
  | .authCard port slot => some (w.authCard n port slot)
  | .stack => some (w.stack n)
  | .overrun => none

end PS2Bios.Mcman
