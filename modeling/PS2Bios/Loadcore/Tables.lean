import Mathlib.Data.Int.Notation
import PS2Bios.Library.Fuel
import PS2Bios.Library.LinkedList

/-!
# Library tables: registration, binding, supersession

The registry of `src/iop/loadcore.cpp` and the binder of `src/iop/loader.hpp` both use. Export
and import tables share a twenty-byte header; an export table's word at `+4` heads the list of the
tables bound against it, chained through each importer's own word at `+4`. The registry is a
chain through the exporters' words at `+0`, which hold a magic until the table is registered.

Memory is seen as the tables in it: `Registry.table a` is the table whose header is at `a`. Two
tables that are there at once lie apart, so a write to one is no write to another. The `entries`
of an export table and the `stubs` of an import table are its words behind the header, up to the
zero that ends them. A null pointer is `0`.

Every walk along a chain takes a fuel, and gives `none` when that runs out.
-/

namespace PS2Bios.Loadcore

/-- The word at `+0` of an export table that is not registered yet. -/
def kExportMagic : ℕ := 0x41C00000

/-- The word at `+0` of an import table. -/
def kImportMagic : ℕ := 0x41E00000

/-- IOP RAM: every table is in it. -/
def kRamSize : ℕ := 0x200000

/-- One at least as new is registered. -/
def kErrorLibraryFound : ℤ := -212

/-- Not an export table, or registered already. -/
def kErrorIllegalLibrary : ℤ := -214

/-- Eight bytes of an import table: two instructions. -/
structure Stub where
  /-- The word the binder rewrites. -/
  first : UInt32
  /-- `addiu`, with the ordinal in its low half. -/
  second : UInt32
deriving DecidableEq, Repr

/-- An export or import table. -/
structure LibraryTable where
  /-- `+0`: the magic, and the registry link once an export table is registered. -/
  link : ℕ
  /-- `+4`: the head of an exporter's client list, or an importer's link in one. -/
  clients : ℕ
  version : UInt16
  flags : UInt16
  tag : UInt32 × UInt32
  entries : List UInt32
  stubs : List Stub
deriving DecidableEq, Repr

namespace LibraryTable

/-- The high byte of the version, part of a library's identity. -/
def major (t : LibraryTable) : ℕ := t.version.toNat / 256

/-- The low byte of the version, the generation. -/
def minor (t : LibraryTable) : ℕ := t.version.toNat % 256

/-- Flags bit 0: on an exporter, registered with ordinal 10; on an importer, supersession may
not take it. -/
def Pinned (t : LibraryTable) : Prop := t.flags &&& 1 ≠ 0

instance (t : LibraryTable) : Decidable t.Pinned := by
  unfold Pinned
  exact inferInstance

/-- The same tag and the same major version. -/
def SameLibrary (t u : LibraryTable) : Prop := t.tag = u.tag ∧ t.major = u.major

instance (t u : LibraryTable) : Decidable (t.SameLibrary u) := by
  unfold SameLibrary
  exact inferInstance

end LibraryTable

/-- The registry head and the tables in memory. -/
structure Registry where
  head : ℕ
  table : ℕ → LibraryTable

namespace Registry

variable (s : Registry)

/-- Write one table. -/
def setTable (a : ℕ) (t : LibraryTable) : Registry :=
  { s with table := Function.update s.table a t }

/-- The word at `+4` of the table at `a`. -/
def clientNext (a : ℕ) : ℕ := (s.table a).clients

/-- The head of a table's clients changed. -/
def setClientNext (a next : ℕ) : Registry :=
  s.setTable a { s.table a with clients := next }

end Registry

/-! ### The binder -/

/-- A bound stub's first word: a `j` to the entry. -/
def jumpTo (target : UInt32) : UInt32 :=
  (0x08000000 : UInt32) ||| ((target >>> 2) &&& 0x03FFFFFF)

/-- `jr $ra`. -/
def kReturn : UInt32 := 0x03E00008

/-- A stub's ordinal. -/
def Stub.ordinal (stub : Stub) : ℕ := (stub.second &&& 0xFFFF).toNat

/-- A stub whose second word is an `addiu`. -/
def Stub.IsAddiu (stub : Stub) : Prop := stub.second >>> 26 = 9

instance (stub : Stub) : Decidable stub.IsAddiu := by
  unfold Stub.IsAddiu
  exact inferInstance

/-- One turn of `bindTable`'s loop. -/
def bindStub (entries : List UInt32) (stub : Stub) : Stub :=
  if ¬stub.IsAddiu then stub
  else
    match entries[stub.ordinal]? with
    | some target => { stub with first := jumpTo target }
    | none => { stub with first := kReturn }

/-- `bindTable`: rewrite the stubs of one import table against one export table. -/
def Registry.bindTable (s : Registry) (importTable exportTable : ℕ) : Registry :=
  s.setTable importTable
    { s.table importTable with
      stubs := (s.table importTable).stubs.map (bindStub (s.table exportTable).entries) }

/-- What the binder looks for: the importer's library, not registered with ordinal 10. -/
def Registry.Serves (s : Registry) (importTable exporter : ℕ) : Prop :=
  (s.table exporter).SameLibrary (s.table importTable) ∧ ¬(s.table exporter).Pinned

instance (s : Registry) (importTable exporter : ℕ) :
    Decidable (s.Serves importTable exporter) := by
  unfold Registry.Serves
  exact inferInstance

/-- The walk of `bind` along the registry, from `exporter`. Its answer is `0` when no table
serves. -/
def findExporter (s : Registry) (importTable : ℕ) : ℕ → ℕ → Option ℕ
  | 0, _ => none
  | fuel + 1, exporter =>
    if exporter = 0 then some 0
    else if s.Serves importTable exporter then some exporter
    else findExporter s importTable fuel (s.table exporter).link

/-- Bind one import table and put it in front of its exporter's client list. -/
def Registry.join (s : Registry) (importTable exporter : ℕ) : Registry :=
  let bound := s.bindTable importTable exporter
  let pushed := bound.setClientNext importTable (bound.clientNext exporter)
  pushed.setClientNext exporter importTable

/-- An import table the binder takes up: the magic, and none of the low three flag bits. -/
def LibraryTable.Imports (t : LibraryTable) : Prop :=
  t.link = kImportMagic ∧ t.flags &&& 7 = 0

instance (t : LibraryTable) : Decidable t.Imports := by
  unfold LibraryTable.Imports
  exact inferInstance

/-- The scan of `bind`, over `words` words from `at`, with the number of import tables that
found no exporter so far. -/
def bindFrom (fuel : ℕ) : ℕ → ℕ → ℕ → Registry → Option (ℕ × Registry)
  | 0, _, unbound, s => some (unbound, s)
  | words + 1, address, unbound, s =>
    if ¬(s.table address).Imports then bindFrom fuel words (address + 4) unbound s
    else
      (findExporter s address fuel s.head).bind fun exporter =>
        if exporter = 0 then bindFrom fuel words (address + 4) (unbound + 1) s
        else bindFrom fuel words (address + 4) unbound (s.join address exporter)

/-- `bind(start, end)`: the number of import tables that found no exporter. -/
def bind (fuel start stop : ℕ) (s : Registry) : Option (ℕ × Registry) :=
  bindFrom fuel ((stop - start + 3) / 4) start 0 s

/-! ### Registration -/

/-- `registerAccept`: link the table in at the registry head. -/
def Registry.registerAccept (s : Registry) (table : ℕ) : Registry :=
  { s.setTable table { s.table table with link := s.head } with head := table }

/-- The loop of `detachUnpinnedClients`. -/
def detachLoop : ℕ → ℕ → ℕ → ℕ → Registry → Option (ℕ × Registry)
  | 0, _, _, _, _ => none
  | fuel + 1, client, keptTail, taken, s =>
    if client = 0 then some (taken, s)
    else
      let next := s.clientNext client
      if (s.table client).Pinned then
        detachLoop fuel next client taken ((s.setClientNext keptTail client).setClientNext client 0)
      else detachLoop fuel next keptTail client (s.setClientNext client taken)

/-- `detachUnpinnedClients`: take the unpinned clients off `old`; the answer heads them. -/
def detachUnpinnedClients (fuel old : ℕ) (s : Registry) : Option (ℕ × Registry) :=
  detachLoop fuel (s.clientNext old) old 0 (s.setClientNext old 0)

/-- The inner loop of `registerVersioned`: hang `taken` behind the last of `fromThis`. -/
def joinTaken (fromThis : ℕ) : ℕ → ℕ → ℕ → Registry → Option (ℕ × Registry)
  | 0, _, _, _ => none
  | fuel + 1, last, taken, s =>
    if last = 0 then some (taken, s)
    else if s.clientNext last = 0 then some (fromThis, s.setClientNext last taken)
    else joinTaken fromThis fuel (s.clientNext last) taken s

/-- The walk of `registerVersioned` along the registry: `none` inside when the registration is
refused, else the clients taken. -/
def takeClients (table : ℕ) : ℕ → ℕ → ℕ → Registry → Option (Option ℕ × Registry)
  | 0, _, _, _ => none
  | fuel + 1, walk, taken, s =>
    if walk = 0 then some (some taken, s)
    else if ¬(s.table walk).SameLibrary (s.table table) then
      takeClients table fuel (s.table walk).link taken s
    else if (s.table table).minor ≤ (s.table walk).minor then some (none, s)
    else
      (detachUnpinnedClients fuel walk s).bind fun (fromThis, s) =>
        (joinTaken fromThis fuel fromThis taken s).bind fun (taken, s) =>
          takeClients table fuel (s.table walk).link taken s

/-- `adoptClients`: bind each taken client against the new table and put it on its list. -/
def adoptClients (table : ℕ) : ℕ → ℕ → Registry → Option Registry
  | 0, _, _ => none
  | fuel + 1, taken, s =>
    if taken = 0 then some s
    else
      let next := s.clientNext taken
      adoptClients table fuel next (s.join taken table)

/-- Ordinal 6. -/
def registerVersioned (fuel table : ℕ) (s : Registry) : Option (ℤ × Registry) :=
  if table = 0 ∨ (s.table table).link ≠ kExportMagic then some (kErrorIllegalLibrary, s)
  else
    (takeClients table fuel s.head 0 s).bind fun
      | (none, s) => some (kErrorLibraryFound, s)
      | (some taken, s) =>
        (adoptClients table fuel taken s).map fun s => (0, s.registerAccept table)

/-- Ordinal 10. -/
def registerPinned (table : ℕ) (s : Registry) : ℤ × Registry :=
  if table = 0 ∨ (s.table table).link ≠ kExportMagic then (kErrorIllegalLibrary, s)
  else
    let pinned := s.setTable table { s.table table with flags := (s.table table).flags ||| 1 }
    (0, pinned.registerAccept table)

/-- Ordinal 8, `linkLibraryEntries`: bind the whole image of `memorySize` bytes. -/
def linkLibraryEntries (fuel base memorySize : ℕ) (s : Registry) : Option (ℤ × Registry) :=
  (bind fuel base (base + memorySize) s).map fun (unbound, s) =>
    (if unbound = 0 then 0 else -1, s)

end PS2Bios.Loadcore
