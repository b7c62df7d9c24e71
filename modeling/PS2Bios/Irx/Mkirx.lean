import Mathlib.Logic.Function.Basic
import PS2Bios.Library.Bytes

/-!
# The fixups of a module

`mkirx.py` keeps the fixups of a linked module and puts them in an order that a loader with room
for one `HI16` can apply: each `HI16` is followed by a `LO16` of the address it resolves to. It
reads that address off the object writer's order, in which a run of `HI16` belongs to the next
`LO16`, and then gives each `HI16` a `LO16` of its own, the first of its address that is free.

A module it exits over is `none`.
-/

namespace PS2Bios.Irx

open Bytes

/-- The type of an entry for a word. -/
def rMips32 : ℕ := 2

/-- The type of an entry for a jump's target. -/
def rMips26 : ℕ := 4

/-- The type of an entry for an upper half. -/
def rMipsHi16 : ℕ := 5

/-- The type of an entry for a lower half. -/
def rMipsLo16 : ℕ := 6

/-- The type of a section of relocations. -/
def shtRel : ℕ := 9

/-- The flag of a section that takes memory. -/
def shfAlloc : ℕ := 2

/-- A `REL` entry of a file. -/
structure Rel where
  offset : ℕ
  info : ℕ
deriving DecidableEq, Repr

/-- A section of the linked module: what the pass reads of its header, and its `REL` entries. -/
structure Section where
  type : ℕ
  flags : ℕ
  info : ℕ
  entries : List Rel
deriving Repr

/-- What the fixups of one address have in common: the symbol and the low half. -/
structure Address where
  symbol : ℕ
  low : ℕ
deriving DecidableEq, Repr

/-- A fixup, with the low half that its instruction has in the image. -/
structure Fixup where
  offset : ℕ
  kind : ℕ
  symbol : ℕ
  low : ℕ
deriving DecidableEq, Repr

/-- The address the fixup is for. -/
def Fixup.address (f : Fixup) : Address := ⟨f.symbol, f.low⟩

/-- The entry that is written for a fixup: the symbol is dropped. -/
def Fixup.entry (f : Fixup) : Rel := ⟨f.offset, f.kind⟩

namespace Mkirx

/-- `ALLOWED_RELOCATIONS`. -/
def allowedRelocations : List ℕ := [rMips32, rMips26, rMipsHi16, rMipsLo16]

/-- A tuple of `parsed`; unpacking beyond the end of the image raises an error. -/
def parse (image : List UInt8) (entry : Rel) : Option Fixup :=
  let kind := entry.info % 256
  if kind ∉ allowedRelocations then none
  else if kind = rMipsHi16 ∨ kind = rMipsLo16 then
    if image.length < entry.offset + 2 then none
    else some ⟨entry.offset, kind, entry.info / 256, readHalf (image.getD · 0) entry.offset⟩
  else some ⟨entry.offset, kind, entry.info / 256, 0⟩

/-- The loop that fills `wanted`, over the fixups from `index` on, with the `HI16`s of the run and
their indices. -/
def wantedFrom : List Fixup → ℕ → List (Fixup × ℕ) → (ℕ → Option Address) →
    Option (ℕ → Option Address)
  | [], _, [], wanted => some wanted
  | [], _, _ :: _, _ => none
  | f :: rest, index, run, wanted =>
    if f.kind = rMipsHi16 then wantedFrom rest (index + 1) (run ++ [(f, index)]) wanted
    else if f.kind = rMipsLo16 ∧ run ≠ [] then
      if ∀ hi ∈ run, hi.1.symbol = f.symbol then
        wantedFrom rest (index + 1) []
          (run.foldl (fun w hi => Function.update w hi.2 (some f.address)) wanted)
      else none
    else if run ≠ [] then none
    else wantedFrom rest (index + 1) [] wanted

/-- `free`: the indices of the `LO16`s of an address, from `index` on. -/
def freeFrom : List Fixup → ℕ → Address → List ℕ
  | [], _, _ => []
  | f :: rest, index, a =>
    if f.kind = rMipsLo16 ∧ f.address = a then index :: freeFrom rest (index + 1) a
    else freeFrom rest (index + 1) a

/-- What the `LO16`s are given out to: the partner of each `HI16`, the `LO16`s that are taken, and
the addresses that have a pair. -/
structure Partners where
  partner : ℕ → Option ℕ
  taken : List ℕ
  paired : List Address

/-- The loop that gives each `HI16` a `LO16`. -/
def partnersFrom (wanted : ℕ → Option Address) :
    List Fixup → ℕ → (Address → List ℕ) → Partners → Option Partners
  | [], _, _, st => some st
  | f :: rest, index, free, st =>
    if f.kind ≠ rMipsHi16 then partnersFrom wanted rest (index + 1) free st
    else
      (wanted index).bind fun a =>
        match free a with
        | [] => none
        | chosen :: more =>
          partnersFrom wanted rest (index + 1) (Function.update free a more)
            ⟨Function.update st.partner index (some chosen), chosen :: st.taken, a :: st.paired⟩

/-- What the emitting loop writes for one index. -/
def emitAt (parsed : List Fixup) (st : Partners) (index : ℕ) : List Rel :=
  if index ∈ st.taken then []
  else
    match parsed[index]? with
    | none => []
    | some f =>
      if f.kind = rMipsHi16 then
        match (st.partner index).bind (parsed[·]?) with
        | none => [f.entry]
        | some mate => [f.entry, ⟨mate.offset, rMipsLo16⟩]
      else [f.entry]

/-- The address of a `LO16` that no `HI16` has taken. -/
def unpairedAt (parsed : List Fixup) (st : Partners) (index : ℕ) : Option Address :=
  if index ∈ st.taken then none
  else (parsed[index]?).bind fun f => if f.kind = rMipsLo16 then some f.address else none

/-- What is kept of one `REL` section. -/
structure Emitted where
  out : List Rel
  paired : List Address
  unpaired : List Address
deriving Repr

/-- The passes over the fixups of one section. -/
def arrange (parsed : List Fixup) : Option Emitted :=
  (wantedFrom parsed 0 [] fun _ => none).bind fun wanted =>
    (partnersFrom wanted parsed 0 (freeFrom parsed 0) ⟨fun _ => none, [], []⟩).map fun st =>
      ⟨(List.range parsed.length).flatMap (emitAt parsed st), st.paired,
        (List.range parsed.length).filterMap (unpairedAt parsed st)⟩

/-- Whether a section's fixups are the module's business. -/
def isLoaded (sections : List Section) (s : Section) : Option Bool :=
  if s.type ≠ shtRel then some false
  else (sections[s.info]?).map fun target => decide (target.flags &&& shfAlloc ≠ 0)

/-- The `REL` sections whose fixups go into the image. -/
def loadedFrom (sections : List Section) : List Section → Option (List (List Rel))
  | [] => some []
  | s :: rest =>
    (isLoaded sections s).bind fun loaded =>
      (loadedFrom sections rest).map fun kept => if loaded then s.entries :: kept else kept

/-- The fixups of the module, section by section. -/
def fixupsOf (image : List UInt8) (sections : List Section) : Option (List (List Fixup)) :=
  (loadedFrom sections sections).bind fun loaded =>
    loaded.mapM fun entries => entries.mapM (parse image)

/-- `readRelocations`: the entries of the module's one `REL` section. -/
def readRelocations (image : List UInt8) (sections : List Section) : Option (List Rel) :=
  (fixupsOf image sections).bind fun parsed =>
    (parsed.mapM arrange).bind fun emitted =>
      if ∀ a ∈ emitted.flatMap Emitted.unpaired, a ∈ emitted.flatMap Emitted.paired then
        some (emitted.flatMap Emitted.out)
      else none

end Mkirx

end PS2Bios.Irx
