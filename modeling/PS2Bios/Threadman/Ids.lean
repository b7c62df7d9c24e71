import Mathlib.Data.List.Range
import Mathlib.Logic.Function.Basic
import PS2Bios.Library.Run

/-!
# THREADMAN's ids

Threads, event flags, semaphores and message boxes are records of four fixed pools, and an id names
a slot of its pool and the generation the slot had when the object was made. Nothing in an id says
of which pool.

`Pools` is what the four pools hold of that. `World` is a client's view of a run: the ids that the
create calls have answered, and which of those it has deleted. `ids_name_undeleted_objects` relates
the two for every run: a call takes an id exactly when its own kind of object has it, which at the
start the idle thread and the boot have though no create call answered theirs, and an id deleted
is refused from then on.
-/

namespace PS2Bios.Threadman

/-- The slots of the thread pool. -/
def kThreads : ℕ := 48

/-- The slots of the event flag pool. -/
def kEvents : ℕ := 48

/-- The slots of the semaphore pool. -/
def kSemaphores : ℕ := 48

/-- The slots of the mailbox pool. -/
def kMailboxes : ℕ := 32

/-- The answer of a service that did what it was asked. -/
def kOk : ℤ := 0

/-- The service was called by a handler where it needs a thread, or the other way round. -/
def kIllegalContext : ℤ := -100

/-- No slot, or no memory, is left. -/
def kNoMemory : ℤ := -400

/-- An attribute bit outside the mask of the object's kind. -/
def kIllegalAttr : ℤ := -401

/-- A thread's entry that is null or not aligned. -/
def kIllegalEntry : ℤ := -402

/-- A priority outside the range a thread may have. -/
def kIllegalPriority : ℤ := -403

/-- A thread's stack below the least size. -/
def kIllegalStackSize : ℤ := -404

/-- The thread id nought, or the caller's own where it may not be. -/
def kIllegalThid : ℤ := -406

/-- No live thread has the id. -/
def kUnknownThid : ℤ := -407

/-- No live semaphore has the id. -/
def kUnknownSemid : ℤ := -408

/-- No live event flag has the id. -/
def kUnknownEvfid : ℤ := -409

/-- No live mailbox has the id. -/
def kUnknownMbxid : ℤ := -410

/-- The thread is started already. -/
def kNotDormant : ℤ := -414

/-- The attribute bits a thread may have. -/
def kAttrMask : UInt32 := 0xE3000008

/-- The attribute bit that lets several threads wait on one event flag. -/
def kEventMulti : UInt32 := 2

/-- The attribute bits a semaphore may have. -/
def kSemaAttrMask : UInt32 := 0x101

/-- The attribute bits a mailbox may have. -/
def kMbxAttrMask : UInt32 := 0x5

/-- The four kinds of object that have an id. -/
inductive Kind
  | thread | event | semaphore | mailbox
deriving DecidableEq, Repr

/-- The size of each kind's pool. -/
def Kind.slots : Kind → ℕ
  | .thread => kThreads
  | .event => kEvents
  | .semaphore => kSemaphores
  | .mailbox => kMailboxes

/-- The part of a record that its id is about. -/
structure Slot where
  inUse : Bool
  generation : UInt8
deriving DecidableEq, Repr

/-- The slots of the four pools. -/
abbrev Pools := Kind → ℕ → Slot

/-- `makeId`: one more than the slot above the byte of the generation. -/
def makeId (index : ℕ) (generation : UInt8) : UInt32 :=
  ((UInt32.ofNat index + 1) <<< 8) ||| generation.toUInt32

/-- The slot that an id names. -/
def slotOf (id : UInt32) : ℕ := ((id >>> 8) - 1).toNat

/-- The body of `threadOf` and its three siblings. -/
def lookup (kind : Kind) (p : Pools) (id : UInt32) : Option ℕ :=
  let index := slotOf id
  if id = 0 ∨ kind.slots ≤ index ∨ (p kind index).inUse = false ∨
      (p kind index).generation.toUInt32 ≠ id &&& 0xFF then none
  else some index

/-- `threadOf`: the slot of a live thread's id. -/
def threadOf : Pools → UInt32 → Option ℕ := lookup .thread

/-- `eventOf`: the slot of a live event flag's id. -/
def eventOf : Pools → UInt32 → Option ℕ := lookup .event

/-- `mailboxOf`: the slot of a live mailbox's id. -/
def mailboxOf : Pools → UInt32 → Option ℕ := lookup .mailbox

/-- `semaphoreOf`: the slot of a live semaphore's id. -/
def semaphoreOf : Pools → UInt32 → Option ℕ := lookup .semaphore

/-! ### The calls that take an id -/

/-- The exports with an id among their arguments. The two forms of a call with one body are one
here. -/
inductive Call
  | deleteThread | startThread | terminateThread | changeThreadPriority | releaseWaitThread
  | referThreadStatus | wakeupThread | cancelWakeupThread
  | deleteEventFlag | setEventFlag | clearEventFlag | waitEventFlag | referEventFlagStatus
  | deleteSema | signalSema | waitSema | pollSema | referSemaStatus
  | deleteMbx | sendMbx | receiveMbx | pollMbx | referMbxStatus
deriving DecidableEq, Repr

/-- The pool a service looks its id up in. -/
def Call.kind : Call → Kind
  | deleteThread | startThread | terminateThread | changeThreadPriority | releaseWaitThread
  | referThreadStatus | wakeupThread | cancelWakeupThread => .thread
  | deleteEventFlag | setEventFlag | clearEventFlag | waitEventFlag | referEventFlagStatus => .event
  | deleteSema | signalSema | waitSema | pollSema | referSemaStatus => .semaphore
  | deleteMbx | sendMbx | receiveMbx | pollMbx | referMbxStatus => .mailbox

/-- The calls for which 0 is the caller. -/
def Call.TakesSelf (c : Call) : Prop :=
  c = changeThreadPriority ∨ c = referThreadStatus ∨ c = cancelWakeupThread

instance (c : Call) : Decidable c.TakesSelf := inferInstanceAs (Decidable (_ ∨ _ ∨ _))

/-- The record a search found, or the error for none. -/
def known (code : ℤ) : Option ℕ → Except ℤ ℕ
  | none => .error code
  | some index => .ok index

/-- What a call does with its id: the record that it goes on to work on, or the error it answers
with. What it finds in the record (`terminateThread` refuses the thread that runs, with
`kIllegalThid` again) comes after that. -/
def Call.find (c : Call) (p : Pools) (current : ℕ) (id : UInt32) : Except ℤ ℕ :=
  match c with
  | deleteThread | startThread => known kUnknownThid (threadOf p id)
  | terminateThread | releaseWaitThread | wakeupThread =>
    if id = 0 then .error kIllegalThid else known kUnknownThid (threadOf p id)
  | changeThreadPriority | referThreadStatus | cancelWakeupThread =>
    if id = 0 then .ok current else known kUnknownThid (threadOf p id)
  | deleteEventFlag | setEventFlag | clearEventFlag | waitEventFlag | referEventFlagStatus =>
    known kUnknownEvfid (eventOf p id)
  | deleteSema | signalSema | waitSema | pollSema | referSemaStatus =>
    known kUnknownSemid (semaphoreOf p id)
  | deleteMbx | sendMbx | receiveMbx | pollMbx | referMbxStatus =>
    known kUnknownMbxid (mailboxOf p id)

/-- The call does not refuse the id. -/
def Call.Accepts (c : Call) (p : Pools) (current : ℕ) (id : UInt32) : Prop :=
  ∃ index, c.find p current id = .ok index

/-! ### Creation and deletion -/

/-- The search of the create calls. -/
def freeSlot (kind : Kind) (p : Pools) : Option ℕ :=
  (List.range kind.slots).find? fun k => !(p kind k).inUse

/-- Write one slot. -/
def Pools.set (p : Pools) (kind : Kind) (k : ℕ) (slot : Slot) : Pools :=
  Function.update p kind (Function.update (p kind) k slot)

/-- A slot is taken for a new object, whose id is the answer. -/
def occupy (kind : Kind) (p : Pools) (k : ℕ) : Except ℤ UInt32 × Pools :=
  let generation := (p kind k).generation + 1
  (.ok (makeId k generation), p.set kind k ⟨true, generation⟩)

/-- What `createThread` checks of its parameters. -/
structure ThreadParameters where
  attr : UInt32
  entry : UInt32
  stackSize : UInt32
  priority : UInt32
deriving DecidableEq, Repr

/-- `stack` is what SYSMEM answers to the request for the stack. -/
def createThread (interrupt : Bool) (a : ThreadParameters) (stack : UInt32) (p : Pools) :
    Except ℤ UInt32 × Pools :=
  if interrupt then (.error kIllegalContext, p)
  else if a.attr &&& ~~~kAttrMask ≠ 0 then (.error kIllegalAttr, p)
  else if a.priority < 1 ∨ 126 < a.priority then (.error kIllegalPriority, p)
  else if a.entry &&& 3 ≠ 0 then (.error kIllegalEntry, p)
  else if a.stackSize < 0x130 then (.error kIllegalStackSize, p)
  else match freeSlot .thread p with
    | none => (.error kNoMemory, p)
    | some k => if stack = 0 then (.error kNoMemory, p) else occupy .thread p k

/-- The body of the other three create calls, which allow the attributes of `mask`. -/
def create (kind : Kind) (mask : UInt32) (interrupt : Bool) (attr : UInt32) (p : Pools) :
    Except ℤ UInt32 × Pools :=
  if interrupt then (.error kIllegalContext, p)
  else if attr &&& ~~~mask ≠ 0 then (.error kIllegalAttr, p)
  else match freeSlot kind p with
    | none => (.error kNoMemory, p)
    | some k => occupy kind p k

/-- The part of `createEventFlag` that takes a slot and makes the id. -/
def createEventFlag := create .event kEventMulti

/-- The part of `createSema` that takes a slot and makes the id. -/
def createSema := create .semaphore kSemaAttrMask

/-- The part of `createMbx` that takes a slot and makes the id. -/
def createMbx := create .mailbox kMbxAttrMask

/-- The end of a delete call that found its object. -/
def vacate (kind : Kind) (p : Pools) (k : ℕ) : Pools :=
  p.set kind k { p kind k with inUse := false }

/-- `dormant`: the thread, if the id is one's, is. -/
def deleteThread (interrupt dormant : Bool) (id : UInt32) (p : Pools) : ℤ × Pools :=
  if interrupt then (kIllegalContext, p)
  else match threadOf p id with
    | none => (kUnknownThid, p)
    | some k => if dormant then (kOk, vacate .thread p k) else (kNotDormant, p)

/-- The body of the other three delete calls. -/
def delete (kind : Kind) (unknown : ℤ) (interrupt : Bool) (id : UInt32) (p : Pools) : ℤ × Pools :=
  if interrupt then (kIllegalContext, p)
  else match lookup kind p id with
    | none => (unknown, p)
    | some k => (kOk, vacate kind p k)

/-- The part of `deleteEventFlag` that gives the slot back. -/
def deleteEventFlag := delete .event kUnknownEvfid

/-- The part of `deleteSema` that gives the slot back. -/
def deleteSema := delete .semaphore kUnknownSemid

/-- The part of `deleteMbx` that gives the slot back. -/
def deleteMbx := delete .mailbox kUnknownMbxid

/-! ### Runs -/

/-- An object a client knows of. -/
structure Object where
  kind : Kind
  id : UInt32
  live : Bool
deriving DecidableEq, Repr

/-- The pools, the objects there have been, and how many of them were created in each slot. -/
structure World where
  pools : Pools
  objects : List Object
  creations : Kind → ℕ → ℕ

/-- The create and delete calls. -/
inductive Request
  | createThread (interrupt : Bool) (a : ThreadParameters) (stack : UInt32)
  | createEventFlag (interrupt : Bool) (attr : UInt32)
  | createSema (interrupt : Bool) (attr : UInt32)
  | createMbx (interrupt : Bool) (attr : UInt32)
  | deleteThread (interrupt dormant : Bool) (id : UInt32)
  | deleteEventFlag (interrupt : Bool) (id : UInt32)
  | deleteSema (interrupt : Bool) (id : UInt32)
  | deleteMbx (interrupt : Bool) (id : UInt32)
deriving Repr

namespace World

/-- A create call has answered. -/
def created (w : World) (kind : Kind) (r : Except ℤ UInt32 × Pools) : World :=
  match r.1 with
  | .error _ => { w with pools := r.2 }
  | .ok id =>
    { pools := r.2
      objects := w.objects ++ [⟨kind, id, true⟩]
      creations := fun kind' k =>
        w.creations kind' k + if kind' = kind ∧ k = slotOf id then 1 else 0 }

/-- The objects once the one with this id is deleted. -/
def buried (kind : Kind) (id : UInt32) (o : Object) : Object :=
  if o.kind = kind ∧ o.id = id then { o with live := false } else o

/-- A delete call has answered. -/
def deleted (w : World) (kind : Kind) (id : UInt32) (r : ℤ × Pools) : World :=
  if r.1 = kOk then { w with pools := r.2, objects := w.objects.map (buried kind id) }
  else { w with pools := r.2 }

/-- A request carried out on the pools, with what it answered noted beside them. -/
def step (w : World) : Request → World
  | .createThread interrupt a stack =>
    w.created .thread (Threadman.createThread interrupt a stack w.pools)
  | .createEventFlag interrupt attr =>
    w.created .event (Threadman.createEventFlag interrupt attr w.pools)
  | .createSema interrupt attr => w.created .semaphore (Threadman.createSema interrupt attr w.pools)
  | .createMbx interrupt attr => w.created .mailbox (Threadman.createMbx interrupt attr w.pools)
  | .deleteThread interrupt dormant id =>
    w.deleted .thread id (Threadman.deleteThread interrupt dormant id w.pools)
  | .deleteEventFlag interrupt id =>
    w.deleted .event id (Threadman.deleteEventFlag interrupt id w.pools)
  | .deleteSema interrupt id => w.deleted .semaphore id (Threadman.deleteSema interrupt id w.pools)
  | .deleteMbx interrupt id => w.deleted .mailbox id (Threadman.deleteMbx interrupt id w.pools)

/-- What the entry of the module leaves: the records of the idle thread and of the boot. -/
def started : World where
  pools := fun kind k => if kind = .thread ∧ k < 2 then ⟨true, 1⟩ else ⟨false, 0⟩
  objects := [⟨.thread, makeId 0 1, true⟩, ⟨.thread, makeId 1 1, true⟩]
  creations := fun _ _ => 0

/-- After the entry of the module and these requests. -/
def run (l : List Request) : World := l.foldl step started

end World

/-! ### An id is a slot and a generation -/

theorem Kind.slots_le (kind : Kind) : kind.slots ≤ 48 := by cases kind <;> decide

/-- The number an id is. -/
theorem toNat_makeId {k : ℕ} (hk : k < 48) (g : UInt8) :
    (makeId k g).toNat = (k + 1) * 256 + g.toNat := by
  have hg := g.toNat_lt
  have hone : UInt32.toNat 1 = 1 := rfl
  have height : UInt32.toNat 8 % 32 = 8 := rfl
  have hslot : (UInt32.ofNat k + 1).toNat = k + 1 := by
    rw [UInt32.toNat_add, UInt32.toNat_ofNat', hone]
    omega
  have hshift : (k + 1) <<< 8 % 2 ^ 32 = 2 ^ 8 * (k + 1) := by
    rw [Nat.shiftLeft_eq]
    omega
  rw [makeId, UInt32.toNat_or, UInt32.toNat_shiftLeft, hslot, UInt8.toNat_toUInt32, height, hshift,
    ← Nat.two_pow_add_eq_or_of_lt hg]
  omega

theorem toNat_low (id : UInt32) : (id &&& 0xFF).toNat = id.toNat % 256 := by
  rw [UInt32.toNat_and]
  exact Nat.and_two_pow_sub_one_eq_mod id.toNat 8

/-- The slot that an id names. -/
theorem slotOf_eq_iff {id : UInt32} {k : ℕ} (hk : k < 48) :
    slotOf id = k ↔ id.toNat / 256 = k + 1 := by
  have hlt := id.toNat_lt
  have hone : UInt32.toNat 1 = 1 := rfl
  have hshift : (id >>> 8).toNat = id.toNat / 256 := by
    rw [UInt32.toNat_shiftRight, Nat.shiftRight_eq_div_pow]
    rfl
  rw [slotOf, UInt32.toNat_sub, hshift, hone]
  omega

/-- An id has the slot and the generation it is made of, and is made of those it has. -/
theorem eq_makeId_iff {id : UInt32} {k : ℕ} (hk : k < 48) {g : UInt8} :
    id = makeId k g ↔ slotOf id = k ∧ g.toUInt32 = id &&& 0xFF := by
  have hg := g.toNat_lt
  rw [slotOf_eq_iff hk, ← UInt32.toNat_inj, ← UInt32.toNat_inj, toNat_makeId hk, toNat_low,
    UInt8.toNat_toUInt32]
  omega

theorem slotOf_makeId {k : ℕ} (hk : k < 48) (g : UInt8) : slotOf (makeId k g) = k :=
  ((eq_makeId_iff hk).mp rfl).1

/-- An id tells its slot and its generation. -/
theorem makeId_inj {k k' : ℕ} (hk : k < 48) (hk' : k' < 48) {g g' : UInt8}
    (h : makeId k g = makeId k' g') : k = k' ∧ g = g' := by
  have hid := congrArg UInt32.toNat h
  have hg := g.toNat_lt
  have hg' := g'.toNat_lt
  rw [toNat_makeId hk, toNat_makeId hk'] at hid
  refine ⟨by omega, UInt8.toNat_inj.mp ?_⟩
  omega

/-- No id is nought. -/
theorem makeId_ne_zero {k : ℕ} (hk : k < 48) (g : UInt8) : makeId k g ≠ 0 := by
  intro h
  have hid := congrArg UInt32.toNat h
  rw [toNat_makeId hk] at hid
  have hzero : UInt32.toNat 0 = 0 := rfl
  omega

/-- **The check of an id**: its slot is in use, and the id is the one made of it now. -/
theorem lookup_eq_some {kind : Kind} {p : Pools} {id : UInt32} {k : ℕ} :
    lookup kind p id = some k ↔
      k < kind.slots ∧ (p kind k).inUse = true ∧ id = makeId k (p kind k).generation := by
  rw [lookup]
  constructor
  · intro h
    split at h
    · cases h
    · next hno =>
      obtain rfl := Option.some.inj h
      simp only [not_or, not_le, Bool.not_eq_false, not_not] at hno
      obtain ⟨-, hk, hin, hg⟩ := hno
      exact ⟨hk, hin, (eq_makeId_iff (hk.trans_le kind.slots_le)).mpr ⟨rfl, hg⟩⟩
  · rintro ⟨hk, hin, hid⟩
    have hk' := hk.trans_le kind.slots_le
    obtain ⟨hslot, hg⟩ := (eq_makeId_iff hk').mp hid
    have hzero : id ≠ 0 := hid ▸ makeId_ne_zero hk' _
    rw [hslot, if_neg]
    simp only [not_or, not_le, Bool.not_eq_false, not_not]
    exact ⟨hzero, hk, hin, hg⟩

theorem known_eq_ok {code : ℤ} {r : Option ℕ} {k : ℕ} : known code r = .ok k ↔ r = some k := by
  cases r <;> simp [known]

/-- A call accepts what the search of its kind finds, and some accept 0. -/
theorem Call.accepts_iff {c : Call} {p : Pools} {current : ℕ} {id : UInt32} :
    c.Accepts p current id ↔
      (∃ k, lookup c.kind p id = some k) ∨ (c.TakesSelf ∧ id = 0) := by
  have hzero : ∀ k, lookup c.kind p 0 ≠ some k := by
    intro k h
    obtain ⟨hk, -, hid⟩ := lookup_eq_some.mp h
    exact makeId_ne_zero (hk.trans_le c.kind.slots_le) _ hid.symm
  -- one case a call; what differs is only whether 0 is looked at first
  rcases eq_or_ne id 0 with rfl | hne
  · cases c <;>
      simp_all [Call.Accepts, Call.find, Call.kind, Call.TakesSelf, known_eq_ok, threadOf, eventOf,
        semaphoreOf, mailboxOf]
  · cases c <;>
      simp [Call.Accepts, Call.find, Call.kind, hne, known_eq_ok, threadOf, eventOf, semaphoreOf,
        mailboxOf]

/-! ### What a request does -/

section Requests

variable {kind : Kind} {p : Pools} {interrupt dormant : Bool} {id : UInt32} {k : ℕ}

/-- A slot that is stored is the only one to change. -/
@[simp] theorem Pools.set_apply (p : Pools) (kind kind' : Kind) (k k' : ℕ) (slot : Slot) :
    p.set kind k slot kind' k' = if kind' = kind ∧ k' = k then slot else p kind' k' := by
  rw [Pools.set]
  rcases eq_or_ne kind' kind with rfl | hkind
  · rcases eq_or_ne k' k with rfl | hk
    · simp
    · simp [hk]
  · simp [hkind]

theorem freeSlot_eq_some (h : freeSlot kind p = some k) :
    k < kind.slots ∧ (p kind k).inUse = false :=
  ⟨List.mem_range.mp (List.mem_of_find?_eq_some h), by simpa using List.find?_some h⟩

/-- A property of both branches. -/
theorem ite_cases {α : Type} {c : Prop} [Decidable c] {P : α → Prop} {a b : α} (ha : P a)
    (hb : P b) : P (if c then a else b) := by
  split
  · exact ha
  · exact hb

/-- What a create call may do: refuse, or take a free slot. -/
def Creates (kind : Kind) (p : Pools) (r : Except ℤ UInt32 × Pools) : Prop :=
  (∃ code, r = (.error code, p)) ∨
    ∃ k, k < kind.slots ∧ (p kind k).inUse = false ∧ r = occupy kind p k

/-- A thread that is created takes a free slot, or the pools are as before. -/
theorem creates_createThread (a : ThreadParameters) (stack : UInt32) :
    Creates .thread p (createThread interrupt a stack p) := by
  have hrefused : ∀ code, Creates .thread p (.error code, p) := fun code => .inl ⟨code, rfl⟩
  rw [createThread]
  iterate 5 refine ite_cases (hrefused _) ?_
  split
  · exact hrefused _
  · next k hk =>
    exact ite_cases (hrefused _) (.inr ⟨k, (freeSlot_eq_some hk).1, (freeSlot_eq_some hk).2, rfl⟩)

/-- An object that is created takes a free slot, or the pools are as before. -/
theorem creates_create (mask attr : UInt32) :
    Creates kind p (create kind mask interrupt attr p) := by
  rw [create]
  iterate 2 refine ite_cases (.inl ⟨_, rfl⟩) ?_
  split
  · exact .inl ⟨_, rfl⟩
  · next k hk => exact .inr ⟨k, (freeSlot_eq_some hk).1, (freeSlot_eq_some hk).2, rfl⟩

/-- What a delete call may do: refuse, or give up the slot its id names. -/
def Deletes (kind : Kind) (p : Pools) (id : UInt32) (r : ℤ × Pools) : Prop :=
  (∃ code, code ≠ kOk ∧ r = (code, p)) ∨
    ∃ k, lookup kind p id = some k ∧ r = (kOk, vacate kind p k)

/-- A thread that is deleted frees its slot, or the pools are as before. -/
theorem deletes_deleteThread : Deletes .thread p id (deleteThread interrupt dormant id p) := by
  rw [deleteThread]
  refine ite_cases (.inl ⟨_, by decide, rfl⟩) ?_
  split
  · exact .inl ⟨_, by decide, rfl⟩
  · next k hk => exact ite_cases (.inr ⟨k, hk, rfl⟩) (.inl ⟨_, by decide, rfl⟩)

/-- An object that is deleted frees its slot, or the pools are as before. -/
theorem deletes_delete {unknown : ℤ} (hu : unknown ≠ kOk) :
    Deletes kind p id (delete kind unknown interrupt id p) := by
  rw [delete]
  refine ite_cases (.inl ⟨_, by decide, rfl⟩) ?_
  split
  · exact .inl ⟨_, hu, rfl⟩
  · next k hk => exact .inr ⟨k, hk, rfl⟩

end Requests

/-! ### The objects and the slots -/

namespace World

variable {w w' : World} {kind : Kind} {k : ℕ} {id : UInt32}

/-- How many objects a slot has had, with those that the entry of the module made. -/
def serial (w : World) (kind : Kind) (k : ℕ) : ℕ :=
  (if kind = .thread ∧ k < 2 then 1 else 0) + w.creations kind k

/-- The object is the `n`th of its slot, and live if the slot is in use by it. -/
def Names (w : World) (o : Object) (k n : ℕ) : Prop :=
  k < o.kind.slots ∧ 1 ≤ n ∧ n ≤ w.serial o.kind k ∧ o.id = makeId k (UInt8.ofNat n) ∧
    (o.live = true ↔ (w.pools o.kind k).inUse = true ∧ n = w.serial o.kind k)

/-- The slots count their objects, and the objects are those that the slots have had. -/
structure Tracked (w : World) : Prop where
  generation : ∀ kind k, (w.pools kind k).generation = UInt8.ofNat (w.serial kind k)
  object : ∀ o ∈ w.objects, ∃ k n, w.Names o k n
  held : ∀ kind k, k < kind.slots → (w.pools kind k).inUse = true →
    ⟨kind, makeId k (w.pools kind k).generation, true⟩ ∈ w.objects

/-- At the start the count of creations is kept. -/
theorem tracked_started : started.Tracked where
  generation kind k := by
    simp only [started, serial]
    split <;> rfl
  object o ho := by
    simp only [started, List.mem_cons, List.not_mem_nil, or_false] at ho
    rcases ho with rfl | rfl
    · exact ⟨0, 1, by decide, le_rfl, by decide, by decide, by decide⟩
    · exact ⟨1, 1, by decide, le_rfl, by decide, by decide, by decide⟩
  held kind k hk hin := by
    have hboth : kind = .thread ∧ k < 2 := by
      by_contra hno
      have hfree : (started.pools kind k).inUse = false :=
        congrArg Slot.inUse (if_neg hno)
      rw [hfree] at hin
      exact Bool.false_ne_true hin
    obtain ⟨rfl, hk⟩ := hboth
    obtain rfl | rfl : k = 0 ∨ k = 1 := by omega
    · decide
    · decide

/-- An object is added to a free slot. -/
theorem Tracked.occupy (h : w.Tracked) (hk : k < kind.slots)
    (hfree : (w.pools kind k).inUse = false) :
    (w.created kind (Threadman.occupy kind w.pools k)).Tracked := by
  have hslot : slotOf (makeId k ((w.pools kind k).generation + 1)) = k :=
    slotOf_makeId (hk.trans_le kind.slots_le) _
  have hnext : (w.pools kind k).generation + 1 = UInt8.ofNat (w.serial kind k + 1) := by
    rw [h.generation, UInt8.ofNat_add]
    rfl
  set w' := w.created kind (Threadman.occupy kind w.pools k) with hw'
  have hpools : ∀ kind' k', w'.pools kind' k' =
      if kind' = kind ∧ k' = k then ⟨true, (w.pools kind k).generation + 1⟩
      else w.pools kind' k' := fun kind' k' => Pools.set_apply _ _ _ _ _ _
  have hserial : ∀ kind' k', w'.serial kind' k' =
      w.serial kind' k' + if kind' = kind ∧ k' = k then 1 else 0 := by
    intro kind' k'
    simp only [serial, hw', created, Threadman.occupy, hslot]
    omega
  have hobjects : w'.objects =
    w.objects ++ [⟨kind, makeId k ((w.pools kind k).generation + 1), true⟩] := rfl
  refine ⟨fun kind' k' => ?_, fun o ho => ?_, fun kind' k' hk' hin => ?_⟩
  · rw [hpools, hserial]
    split
    · next heq =>
      obtain ⟨rfl, rfl⟩ := heq
      exact hnext
    · exact h.generation kind' k'
  · rw [hobjects, List.mem_append, List.mem_singleton] at ho
    rcases ho with ho | rfl
    · -- an older object of this slot was dead, and is not the last one now
      obtain ⟨k', n, hk', hn, hle, hid, hlive⟩ := h.object o ho
      refine ⟨k', n, hk', hn, by rw [hserial]; omega, hid, ?_⟩
      rw [hlive, hpools, hserial]
      by_cases heq : o.kind = kind ∧ k' = k
      · obtain ⟨rfl, rfl⟩ := heq
        simp only [hfree, and_self, if_true, Bool.false_eq_true, false_and, true_and, false_iff]
        omega
      · simp [heq]
    · refine ⟨k, w.serial kind k + 1, hk, by omega, ?_, ?_, ?_⟩
      · simp [hserial]
      · rw [hnext]
      · simp [hpools, hserial]
  · rw [hobjects, List.mem_append, List.mem_singleton]
    rw [hpools] at hin ⊢
    split
    · next heq =>
      obtain ⟨rfl, rfl⟩ := heq
      exact .inr rfl
    · next hne =>
      rw [if_neg hne] at hin
      exact .inl (h.held kind' k' hk' hin)

/-- The object of a slot in use is deleted. -/
theorem Tracked.vacate (h : w.Tracked) (hid : lookup kind w.pools id = some k) :
    (w.deleted kind id (kOk, Threadman.vacate kind w.pools k)).Tracked := by
  obtain ⟨hk, hin, rfl⟩ := lookup_eq_some.mp hid
  set g := (w.pools kind k).generation with hg
  set w' := w.deleted kind (makeId k g) (kOk, Threadman.vacate kind w.pools k) with hw'
  have hw : w' = { w with
      pools := Threadman.vacate kind w.pools k
      objects := w.objects.map (buried kind (makeId k g)) } := if_pos rfl
  have hpools : ∀ kind' k', w'.pools kind' k' =
      if kind' = kind ∧ k' = k then { w.pools kind k with inUse := false }
      else w.pools kind' k' := fun kind' k' => by
    rw [hw]
    exact Pools.set_apply _ _ _ _ _ _
  have hserial : ∀ kind' k', w'.serial kind' k' = w.serial kind' k' := fun kind' k' => by
    rw [hw]
    rfl
  have hobjects : w'.objects = w.objects.map (buried kind (makeId k g)) := by rw [hw]
  refine ⟨fun kind' k' => ?_, fun o ho => ?_, fun kind' k' hk' hin' => ?_⟩
  · rw [hpools, hserial, ← h.generation kind' k']
    split
    · next heq =>
      obtain ⟨rfl, rfl⟩ := heq
      rfl
    · rfl
  · rw [hobjects, List.mem_map] at ho
    obtain ⟨o, ho, rfl⟩ := ho
    obtain ⟨k', n, hk', hn, hle, hid', hlive⟩ := h.object o ho
    have hsame : (buried kind (makeId k g) o).kind = o.kind ∧
        (buried kind (makeId k g) o).id = o.id := by
      rw [buried]
      split <;> exact ⟨rfl, rfl⟩
    refine ⟨k', n, ?_, hn, ?_, ?_, ?_⟩
    · rw [hsame.1]
      exact hk'
    · rw [hsame.1, hserial]
      exact hle
    · rw [hsame.2]
      exact hid'
    · rw [hsame.1, hpools, hserial, buried]
      by_cases heq : o.kind = kind ∧ k' = k
      · -- every object of the slot is dead now, whether its id was this one or another
        obtain ⟨rfl, rfl⟩ := heq
        simp only [and_self, if_true, Bool.false_eq_true, false_and, iff_false]
        split
        · simp
        · next hne =>
          intro hl
          obtain ⟨-, rfl⟩ := hlive.mp hl
          rw [← h.generation] at hid'
          exact hne ⟨trivial, hid'⟩
      · rw [if_neg heq]
        split
        · next heq' =>
          rw [hid', hg] at heq'
          exact absurd ⟨heq'.1, (makeId_inj (hk'.trans_le o.kind.slots_le)
            (hk.trans_le kind.slots_le) heq'.2).1⟩ heq
        · exact hlive
  · rw [hpools] at hin' ⊢
    rw [hobjects]
    split at hin'
    · cases hin'
    · next hne =>
      rw [if_neg hne]
      refine List.mem_map.mpr ⟨_, h.held kind' k' hk' hin', if_neg ?_⟩
      rintro ⟨rfl, heq⟩
      exact hne ⟨rfl, (makeId_inj (hk'.trans_le kind'.slots_le) (hk.trans_le kind'.slots_le) heq).1⟩

theorem Tracked.created {r : Except ℤ UInt32 × Pools} (h : w.Tracked)
    (hr : Creates kind w.pools r) : (w.created kind r).Tracked := by
  obtain ⟨code, rfl⟩ | ⟨k, hk, hfree, rfl⟩ := hr
  · exact h
  · exact h.occupy hk hfree

/-- A deletion keeps the count of creations. -/
theorem Tracked.deleted {r : ℤ × Pools} (h : w.Tracked) (hr : Deletes kind w.pools id r) :
    (w.deleted kind id r).Tracked := by
  obtain ⟨code, hcode, rfl⟩ | ⟨k, hk, rfl⟩ := hr
  · rw [World.deleted, if_neg hcode]
    exact h
  · exact h.vacate hk

/-- **A step lemma**: every request keeps the objects and the slots in step. -/
theorem Tracked.step {q : Request} (h : w.Tracked) : (w.step q).Tracked := by
  cases q with
  | createThread interrupt a stack => exact h.created (creates_createThread a stack)
  | createEventFlag interrupt attr => exact h.created (creates_create _ _)
  | createSema interrupt attr => exact h.created (creates_create _ _)
  | createMbx interrupt attr => exact h.created (creates_create _ _)
  | deleteThread interrupt dormant id => exact h.deleted deletes_deleteThread
  | deleteEventFlag interrupt id => exact h.deleted (deletes_delete (by decide))
  | deleteSema interrupt id => exact h.deleted (deletes_delete (by decide))
  | deleteMbx interrupt id => exact h.deleted (deletes_delete (by decide))

/-- A search finds an object's slot by the object's id while it is live, and by no other id. -/
theorem Tracked.lookup_iff (h : w.Tracked) :
    (∃ k, lookup kind w.pools id = some k) ↔
      ∃ o ∈ w.objects, o.kind = kind ∧ o.id = id ∧ o.live = true := by
  constructor
  · rintro ⟨k, hfound⟩
    obtain ⟨hk, hin, rfl⟩ := lookup_eq_some.mp hfound
    exact ⟨_, h.held kind k hk hin, rfl, rfl, rfl⟩
  · rintro ⟨o, ho, rfl, rfl, hlive⟩
    obtain ⟨k, n, hk, -, -, hid, hiff⟩ := h.object o ho
    obtain ⟨hin, rfl⟩ := hiff.mp hlive
    rw [← h.generation] at hid
    exact ⟨k, lookup_eq_some.mpr ⟨hk, hin, hid⟩⟩

/-- While no slot has had 256 objects created in it, no search finds anything by the id of a dead
object. -/
theorem Tracked.lookup_dead (h : w.Tracked) (hfew : ∀ kind k, w.creations kind k < 256)
    {o : Object} (ho : o ∈ w.objects) (hdead : o.live = false) :
    ¬ ∃ k, lookup o.kind w.pools o.id = some k := by
  rintro ⟨k', hk'⟩
  obtain ⟨hk', hin, hid'⟩ := lookup_eq_some.mp hk'
  obtain ⟨k, n, hk, hn, hle, hid, hiff⟩ := h.object o ho
  rw [hid, h.generation] at hid'
  obtain ⟨rfl, hgen⟩ := makeId_inj (hk.trans_le o.kind.slots_le)
    (hk'.trans_le o.kind.slots_le) hid'
  -- the generations are those of two serials from 1 to 256
  have hmod : n % 256 = w.serial o.kind k % 256 := by simpa using congrArg UInt8.toNat hgen
  have hmost : w.serial o.kind k ≤ 256 := by
    have hfew' := hfew o.kind k
    rw [serial]
    split <;> omega
  have hsame : n = w.serial o.kind k := by omega
  rw [hiff.mpr ⟨hin, hsame⟩] at hdead
  cases hdead

theorem tracked_run (l : List Request) : (run l).Tracked :=
  Steps.invariant (fun _ _ _ h hs => hs ▸ Tracked.step h) (Steps.foldl step started l)
    tracked_started

/-- **A call takes the ids of the live objects of its kind.** In every run of create and delete
calls: a call accepts an id exactly when it is the id of an object of the call's kind, one of the
two that the entry of the module made or one that the kind's create call has answered, which has
not been deleted, or is 0 in the calls that take 0 for the caller. With fewer than 256 creations in
each slot, the id of a deleted object is not the id of a live one of its kind. -/
theorem ids_name_undeleted_objects (l : List Request)
    (hfew : ∀ kind k, (run l).creations kind k < 256) :
    (∀ (c : Call) (current : ℕ) (id : UInt32), c.Accepts (run l).pools current id ↔
      (∃ o ∈ (run l).objects, o.kind = c.kind ∧ o.id = id ∧ o.live = true) ∨
        (c.TakesSelf ∧ id = 0)) ∧
    ∀ (c : Call) (current : ℕ), ∀ o ∈ (run l).objects, o.kind = c.kind → o.live = false →
      ¬ c.Accepts (run l).pools current o.id := by
  have h := tracked_run l
  refine ⟨fun c current id => ?_, fun c current o ho hkind hdead hacc => ?_⟩
  · rw [Call.accepts_iff, h.lookup_iff]
  · rcases Call.accepts_iff.mp hacc with hfound | ⟨-, hzero⟩
    · rw [← hkind] at hfound
      exact h.lookup_dead hfew ho hdead hfound
    · obtain ⟨k, n, hk, -, -, hid, -⟩ := h.object o ho
      exact makeId_ne_zero (hk.trans_le o.kind.slots_le) _ (hid.symm.trans hzero)

/-- A request creates at most one object. -/
theorem creations_step (w : World) (q : Request) (kind : Kind) (k : ℕ) :
    (w.step q).creations kind k ≤ w.creations kind k + 1 := by
  have hcreated : ∀ kind' r, (w.created kind' r).creations kind k ≤ w.creations kind k + 1 := by
    intro kind' r
    rw [World.created]
    split
    · exact Nat.le_succ _
    · dsimp only
      split <;> omega
  have hdeleted : ∀ kind' id r, (w.deleted kind' id r).creations kind k ≤
      w.creations kind k + 1 := by
    intro kind' id r
    rw [World.deleted]
    split <;> exact Nat.le_succ _
  cases q <;> first | exact hcreated _ _ | exact hdeleted _ _ _

/-- There are no more creations than requests. -/
theorem creations_run_le (l : List Request) (kind : Kind) (k : ℕ) :
    (run l).creations kind k ≤ l.length := by
  have hrun : ∀ (l : List Request) (w : World),
      (l.foldl step w).creations kind k ≤ w.creations kind k + l.length := by
    intro l
    induction l with
    | nil => exact fun w => Nat.le_add_right _ _
    | cons q l ih =>
      intro w
      have hq := creations_step w q kind k
      have hl := ih (w.step q)
      rw [List.foldl_cons, List.length_cons]
      omega
  exact (hrun l started).trans (Nat.zero_add _).le

/-- An event flag is made, deleted, and made again in the same slot: `0x101` and then `0x102`. -/
theorem ids_of_one_slot :
    ¬ Call.setEventFlag.Accepts (run [.createEventFlag false 0, .deleteEventFlag false 0x101,
        .createEventFlag false 0]).pools 1 0x101 ∧
      Call.setEventFlag.Accepts (run [.createEventFlag false 0, .deleteEventFlag false 0x101,
        .createEventFlag false 0]).pools 1 0x102 := by
  have h := ids_name_undeleted_objects _ fun kind k =>
    (creations_run_le [.createEventFlag false 0, .deleteEventFlag false 0x101,
      .createEventFlag false 0] kind k).trans_lt (by decide)
  exact ⟨h.2 .setEventFlag 1 ⟨.event, 0x101, false⟩ (by decide) rfl rfl,
    (h.1 .setEventFlag 1 0x102).mpr (.inl ⟨⟨.event, 0x102, true⟩, by decide, rfl, rfl, rfl⟩)⟩

/-- Calls take ids that no create call has answered, before any has been made: the idle thread's,
and 0. And the first event flag and the first semaphore have one id between them. -/
theorem ids_not_from_create :
    (¬ ∀ l : List Request, (∀ kind k, (run l).creations kind k < 256) →
      ∀ (c : Call) (current : ℕ) (id : UInt32), c.Accepts (run l).pools current id ↔
        ∃ o ∈ (run l).objects.drop 2, o.kind = c.kind ∧ o.id = id ∧ o.live = true) ∧
    (run [.createEventFlag false 0, .createSema false 0]).objects.drop 2 =
      [⟨.event, 0x101, true⟩, ⟨.semaphore, 0x101, true⟩] := by
  refine ⟨fun h => ?_, by decide⟩
  have hidle : Call.startThread.Accepts (run []).pools 1 0x101 := ⟨0, by decide⟩
  have hfew : ∀ kind k, (run []).creations kind k < 256 := fun _ _ => Nat.zero_lt_succ 255
  obtain ⟨o, ho, -⟩ := (h [] hfew .startThread 1 0x101).mp hidle
  exact List.not_mem_nil ho

end World

end PS2Bios.Threadman
