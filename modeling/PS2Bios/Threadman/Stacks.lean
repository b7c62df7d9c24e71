import Mathlib.Data.List.Perm.Basic
import PS2Bios.Library.Run
import PS2Bios.Sysmem.Exclusive
import PS2Bios.Threadman.Slots

/-!
# The stacks of THREADMAN's threads

What the calls of `Services` do to the stacks, over a SYSMEM that is known by its answers: a block
it grants has at least the size asked for and is apart from those it has out. `Stacks.Owned` says
that THREADMAN holds one block for each thread it has created and not deleted, that the block is as
large as the caller of `createThread` asked, and that the frame primed for the thread lies inside.

`deleteThread` gives no block back, so `stacks_are_owned` is about runs in which the threads that
are deleted are the two that have none: the idle thread and the boot, whose stacks are THREADMAN's
own.
-/

namespace PS2Bios.Threadman

open Sysmem (Block Apart)

/-- `context::kBytes`. -/
def kContextBytes : UInt32 := 0x98

/-- The size `createThread` asks SYSMEM for. -/
def roundStack (n : UInt32) : UInt32 := (n + 0xFF) &&& ~~~0xFF

/-- Where `primeFrame` puts the frame. -/
def frameAt (stack stackSize : UInt32) : UInt32 := ((stack + stackSize) &&& ~~~15) - kContextBytes

/-- THREADMAN with the stacks in its records. Of each record there is also what its thread was
created with: the size asked for, and the block granted. `held` is what SYSMEM has granted and not
been given back. -/
structure Stacks where
  machine : Processor
  stack : ℕ → UInt32
  stackSize : ℕ → UInt32
  frame : ℕ → Option UInt32
  asked : ℕ → UInt32
  block : ℕ → Option Block
  held : List Block

/-- What SYSMEM may answer to a request for `n` bytes while it has `held` out. -/
def Grants (held : List Block) (n : UInt32) (b : Block) : Prop :=
  n.toNat ≤ b.size ∧ b.start + b.size ≤ 2 ^ 32 ∧ ∀ g ∈ held, Apart b g

namespace Stacks

/-- The pools of the scheduler under the stacks. -/
def pools (w : Stacks) : Pools := w.machine.sched.pools

/-- What `createThread` writes of the stack into its record. -/
def created (w : Stacks) (k : ℕ) (a : ThreadParameters) (b : Block) : Stacks :=
  { w with
    stack := Function.update w.stack k (UInt32.ofNat b.start)
    stackSize := Function.update w.stackSize k (roundStack a.stackSize)
    frame := Function.update w.frame k none
    asked := Function.update w.asked k a.stackSize
    block := Function.update w.block k (some b)
    held := b :: w.held }

/-- What `startThread` writes. -/
def primed (w : Stacks) (k : ℕ) : Stacks :=
  { w with frame := Function.update w.frame k (some (frameAt (w.stack k) (w.stackSize k))) }

/-- What an act does to the stacks, `size` being that of the block granted. -/
def noted (w : Stacks) (size : ℕ) : Act → Stacks
  | .call (.createThread a stack) =>
    match Threadman.createThread false a stack w.pools with
    | (.error _, _) => w
    | (.ok id, _) => w.created (slotOf id) a ⟨stack.toNat, size⟩
  | .call (.startThread id) =>
    match threadOf w.pools id with
    | none => w
    | some k => if (w.machine.sched.threads k).state = .dormant then w.primed k else w
  | _ => w

/-- SYSMEM keeps to its law. -/
def Lawful (w : Stacks) (size : ℕ) : Act → Prop
  | .call (.createThread a stack) =>
    ∀ id p, Threadman.createThread false a stack w.pools = (.ok id, p) →
      Grants w.held (roundStack a.stackSize) ⟨stack.toNat, size⟩
  | _ => True

/-- A step of the processor together with the heap: what it freed or took is noted. -/
def Step (w : Stacks) (l : Act × ℕ) (w' : Stacks) : Prop :=
  w.Lawful l.2 l.1 ∧ ∃ told m, w.machine.step l.1 = some (told, m) ∧
    w' = { w.noted l.2 l.1 with machine := m }

/-- No block is lost, and SYSMEM is asked for a size that holds what the caller asked for. -/
def Careful (w : Stacks) : Act → Prop
  | .call (.createThread a stack) =>
    ∀ id p, Threadman.createThread false a stack w.pools = (.ok id, p) →
      a.stackSize ≤ 0xFFFFFF00
  | .call (.deleteThread id) =>
    ∀ k, threadOf w.pools id = some k → (w.machine.sched.threads k).state = .dormant →
      w.block k = none
  | _ => True

/-- A step of the machine with stacks whose caller was careful. -/
def CarefulStep (w : Stacks) (l : Act × ℕ) (w' : Stacks) : Prop := w.Careful l.1 ∧ w.Step l w'

/-- The block of a record, if it is in use and `createThread` has taken it. -/
def blockOf (w : Stacks) (k : ℕ) : Option Block :=
  if (w.pools .thread k).inUse then w.block k else none

/-- A thread's stack is its own memory. -/
structure Owned (w : Stacks) : Prop where
  held : w.held.Perm ((List.range kThreads).filterMap w.blockOf)
  apart : w.held.Pairwise Apart
  large : ∀ k b, w.blockOf k = some b → (w.asked k).toNat ≤ b.size
  frame : ∀ k b f, w.blockOf k = some b → w.frame k = some f →
    b.start ≤ f.toNat ∧ f.toNat + kContextBytes.toNat ≤ b.start + b.size

/-- What a record says of its block. -/
structure Backed (stack stackSize asked : UInt32) (b : Block) : Prop where
  start : b.start = stack.toNat
  stop : b.start + b.size ≤ 2 ^ 32
  rounded : stackSize = roundStack asked
  enough : (roundStack asked).toNat ≤ b.size
  least : 0x130 ≤ asked.toNat
  most : asked.toNat ≤ 0xFFFFFF00

/-- And the invariant of the runs. -/
structure Kept (w : Stacks) : Prop extends Owned w where
  backed : ∀ k b, w.blockOf k = some b → Backed (w.stack k) (w.stackSize k) (w.asked k) b

end Stacks

/-! ### The arithmetic -/

section Words

variable {stack asked : UInt32} {b : Block}

theorem toNat_roundStack (n : UInt32) :
    (roundStack n).toNat = (n.toNat + 255) % 2 ^ 32 / 256 * 256 := by
  rw [roundStack, UInt32.toNat_and_not_mask (k := 8) _ _ (by decide) (by decide), UInt32.toNat_add]
  rfl

theorem toNat_frameAt (stack stackSize : UInt32) : (frameAt stack stackSize).toNat =
    (2 ^ 32 - 0x98 + (stack.toNat + stackSize.toNat) % 2 ^ 32 / 16 * 16) % 2 ^ 32 := by
  rw [frameAt, UInt32.toNat_sub, UInt32.toNat_and_not_mask (k := 4) _ _ (by decide) (by decide),
    UInt32.toNat_add]
  rfl

/-- A frame goes below the end of the stack, at most 15 bytes lower than it could. -/
theorem Stacks.Backed.frame {stackSize : UInt32} (h : Stacks.Backed stack stackSize asked b) :
    b.start ≤ (frameAt stack stackSize).toNat ∧
      (frameAt stack stackSize).toNat + kContextBytes.toNat ≤ b.start + b.size := by
  obtain ⟨hstart, hstop, rfl, henough, hleast, hmost⟩ := h
  have hround := toNat_roundStack asked
  have hlt := stack.toNat_lt
  have hbytes : kContextBytes.toNat = 0x98 := rfl
  rw [toNat_frameAt, hbytes]
  omega

/-- The block of a stack is as large as was asked for. -/
theorem Stacks.Backed.large {stackSize : UInt32} (h : Stacks.Backed stack stackSize asked b) :
    asked.toNat ≤ b.size := by
  have henough := h.enough
  have hmost := h.most
  rw [toNat_roundStack] at henough
  omega

end Words

/-! ### The records in use -/

/-- An entry that had nothing gets something. -/
theorem filterMap_update_perm {ι κ : Type} [DecidableEq ι] {f : ι → Option κ} {i : ι} {a : κ}
    (hf : f i = none) {l : List ι} (hl : l.Nodup) (hi : i ∈ l) :
    (l.filterMap (Function.update f i (some a))).Perm (a :: l.filterMap f) := by
  induction l with
  | nil => cases hi
  | cons j l ih =>
    obtain ⟨hj, hl⟩ := List.nodup_cons.mp hl
    rcases List.mem_cons.mp hi with rfl | hi
    · have hsame : l.filterMap (Function.update f i (some a)) = l.filterMap f :=
        List.filterMap_congr fun j hjl =>
          Function.update_of_ne (fun h : j = i => hj (h ▸ hjl)) _ _
      rw [List.filterMap_cons_some (Function.update_self ..), List.filterMap_cons_none hf, hsame]
    · have hne : j ≠ i := fun h => hj (h ▸ hi)
      cases hfj : f j with
      | none =>
        rw [List.filterMap_cons_none ((Function.update_of_ne hne _ _).trans hfj),
          List.filterMap_cons_none hfj]
        exact ih hl hi
      | some c =>
        rw [List.filterMap_cons_some ((Function.update_of_ne hne _ _).trans hfj),
          List.filterMap_cons_some hfj]
        exact ((ih hl hi).cons c).trans (.swap a c _)

namespace Stacks

variable {w w' : Stacks} {k size : ℕ}

/-- A creation that succeeds had a stack that is large enough, and took a free slot. -/
theorem createThread_ok {a : ThreadParameters} {stack id : UInt32} {p p' : Pools}
    (h : Threadman.createThread false a stack p = (.ok id, p')) :
    0x130 ≤ a.stackSize ∧ ∃ k < kThreads, (p .thread k).inUse = false ∧ slotOf id = k ∧
      p' .thread = Function.update (p .thread) k ⟨true, (p .thread k).generation + 1⟩ := by
  have hsize : 0x130 ≤ a.stackSize := by
    by_contra hsmall
    rw [createThread, if_neg Bool.false_ne_true, if_pos (UInt32.not_le.mp hsmall)] at h
    iterate 3
      split at h
      · cases h
    cases h
  refine ⟨hsize, ?_⟩
  have hcreates : Creates .thread p (Threadman.createThread false a stack p) :=
    creates_createThread a stack
  rcases hcreates with ⟨code, hcode⟩ | ⟨k, hk, hin, hok⟩
  · rw [h] at hcode
    cases hcode
  · rw [h, occupy] at hok
    cases hok
    exact ⟨k, hk, hin, slotOf_makeId hk _, Function.update_self ..⟩

/-- The machine goes on, and the records have the blocks they had. -/
theorem Kept.of_blockOf (h : w.Kept) {m : Processor}
    (hblock : blockOf { w with machine := m } = w.blockOf) : Kept { w with machine := m } := by
  refine ⟨⟨?_, h.apart, fun k b hb => ?_, fun k b f hb => ?_⟩, fun k b hb => ?_⟩
  · rw [hblock]
    exact h.held
  · exact h.large k b (hblock ▸ hb)
  · exact h.frame k b f (hblock ▸ hb)
  · exact h.backed k b (hblock ▸ hb)

/-- The records in use stay the same. -/
theorem Kept.of_slots (h : w.Kept) {m : Processor}
    (hm : m.sched.pools .thread = w.pools .thread) : Kept { w with machine := m } := by
  refine h.of_blockOf (funext fun k => ?_)
  rw [blockOf, blockOf, pools, hm]

/-- A record is taken for a thread, with the block SYSMEM granted. -/
theorem Kept.created (h : w.Kept) {m : Processor} {a : ThreadParameters} {stack : UInt32}
    (hk : k < kThreads) (hin : (w.pools .thread k).inUse = false) {generation : UInt8}
    (hm : m.sched.pools .thread = Function.update (w.pools .thread) k ⟨true, generation⟩)
    (hleast : 0x130 ≤ a.stackSize) (hmost : a.stackSize ≤ 0xFFFFFF00)
    (hgrants : Grants w.held (roundStack a.stackSize) ⟨stack.toNat, size⟩) :
    Kept { w.created k a ⟨stack.toNat, size⟩ with machine := m } := by
  obtain ⟨hlarge, hstop, hapart⟩ := hgrants
  have hnone : w.blockOf k = none := by
    rw [blockOf, hin]
    rfl
  have hblock : blockOf { w.created k a ⟨stack.toNat, size⟩ with machine := m } =
      Function.update w.blockOf k (some ⟨stack.toNat, size⟩) := by
    funext j
    rw [blockOf, pools, hm]
    dsimp only [Stacks.created]
    rcases eq_or_ne j k with rfl | hj
    · rw [Function.update_self, Function.update_self, Function.update_self]
      rfl
    · rw [Function.update_of_ne hj, Function.update_of_ne hj, Function.update_of_ne hj, blockOf]
  have hbacked : Backed (UInt32.ofNat stack.toNat) (roundStack a.stackSize) a.stackSize
      ⟨stack.toNat, size⟩ := by
    rw [UInt32.ofNat_toNat]
    exact ⟨rfl, hstop, rfl, hlarge, hleast, hmost⟩
  -- what is said of one record is said of the new one, and of the others as before
  have hrecord {P : UInt32 → UInt32 → Option UInt32 → UInt32 → Block → Prop}
      (hnew : P (UInt32.ofNat stack.toNat) (roundStack a.stackSize) none a.stackSize
        ⟨stack.toNat, size⟩)
      (hold : ∀ j b, w.blockOf j = some b →
        P (w.stack j) (w.stackSize j) (w.frame j) (w.asked j) b) (j : ℕ) (b : Block)
      (hb : blockOf { w.created k a ⟨stack.toNat, size⟩ with machine := m } j = some b) :
      P ((w.created k a ⟨stack.toNat, size⟩).stack j)
        ((w.created k a ⟨stack.toNat, size⟩).stackSize j)
        ((w.created k a ⟨stack.toNat, size⟩).frame j)
        ((w.created k a ⟨stack.toNat, size⟩).asked j) b := by
    rw [hblock] at hb
    dsimp only [Stacks.created]
    rcases eq_or_ne j k with rfl | hj
    · rw [Function.update_self] at hb
      cases hb
      simp only [Function.update_self]
      exact hnew
    · rw [Function.update_of_ne hj] at hb
      simp only [Function.update_of_ne hj]
      exact hold j b hb
  constructor
  · constructor
    · rw [hblock]
      exact (h.held.cons _).trans
        (filterMap_update_perm hnone List.nodup_range (List.mem_range.mpr hk)).symm
    · exact List.pairwise_cons.mpr ⟨hapart, h.apart⟩
    · exact hrecord (P := fun _ _ _ n b => n.toNat ≤ b.size) hbacked.large h.large
    · intro j b f hb
      exact hrecord (P := fun _ _ frame _ b => frame = some f →
        b.start ≤ f.toNat ∧ f.toNat + kContextBytes.toNat ≤ b.start + b.size) nofun
        (fun j b hb hf => h.frame j b f hb hf) j b hb
  · exact hrecord (P := fun stack stackSize _ n b => Backed stack stackSize n b) hbacked h.backed

/-- A frame is primed. -/
theorem Kept.primed (h : w.Kept) (k : ℕ) : (w.primed k).Kept := by
  refine ⟨⟨h.held, h.apart, h.large, fun j b f hb hf => ?_⟩, h.backed⟩
  have hf' : Function.update w.frame k (some (frameAt (w.stack k) (w.stackSize k))) j = some f := hf
  rcases eq_or_ne j k with rfl | hj
  · rw [Function.update_self] at hf'
    cases hf'
    exact (h.backed j b hb).frame
  · rw [Function.update_of_ne hj] at hf'
    exact h.frame j b f hb hf'

/-- A record that has no block is given up. -/
theorem Kept.vacated (h : w.Kept) {m : Processor} (hk : w.block k = none)
    (hm : m.sched.pools .thread = vacate .thread w.pools k .thread) :
    Kept { w with machine := m } := by
  refine h.of_blockOf (funext fun j => ?_)
  rw [blockOf, blockOf, pools, hm, vacate, Pools.set, Function.update_self]
  rcases eq_or_ne j k with rfl | hj
  · rw [Function.update_self, hk]
    simp
  · rw [Function.update_of_ne hj]

/-! ### Steps -/

/-- The slots after a call are those its service left. -/
theorem step_call {m m' : Processor} {told : Processor.Told} {c : Service}
    (h : m.step (.call c) = some (told, m')) :
    ∃ r, m.sched.perform false c = some r ∧ m'.sched.pools = r.1.pools := by
  rw [Processor.step] at h
  split at h
  · cases h
  · obtain ⟨r, hr, hreplied⟩ := Option.bind_eq_some_iff.mp h
    exact ⟨r, hr, Processor.pools_replied hreplied⟩

/-- A creation takes a block for its stack. -/
theorem Kept.createThread (h : w.Kept) {a : ThreadParameters} {stack : UInt32}
    (hs : w.CarefulStep (.call (.createThread a stack), size) w') : w'.Kept := by
  obtain ⟨hcareful, hlawful, told, m, hstep, rfl⟩ := hs
  obtain ⟨r, hr, hpools⟩ := step_call hstep
  obtain rfl := Option.some.inj hr
  dsimp only [noted]
  cases hcreate : Threadman.createThread false a stack w.pools with
  | mk result p =>
    rw [Sched.createThread, ← pools, hcreate] at hpools
    cases result with
    | error code => exact h.of_slots (congrFun hpools .thread)
    | ok id =>
      obtain ⟨hleast, k, hk, hin, rfl, hp⟩ := createThread_ok hcreate
      exact h.created hk hin ((congrFun hpools .thread).trans hp) hleast
        (hcareful id p hcreate) (hlawful id p hcreate)

/-- A deletion leaves the blocks as they are. -/
theorem Kept.deleteThread (h : w.Kept) {id : UInt32}
    (hs : w.CarefulStep (.call (.deleteThread id), size) w') : w'.Kept := by
  obtain ⟨hcareful, -, told, m, hstep, rfl⟩ := hs
  obtain ⟨r, hr, hpools⟩ := step_call hstep
  obtain rfl := Option.some.inj hr
  rw [Sched.deleteThread, ← pools, Threadman.deleteThread, if_neg Bool.false_ne_true] at hpools
  cases hid : threadOf w.pools id with
  | none =>
    rw [hid] at hpools
    exact h.of_slots (congrFun hpools .thread)
  | some k =>
    obtain ⟨hk, -, hmake⟩ := lookup_eq_some.mp hid
    have hslot : slotOf id = k := hmake ▸ slotOf_makeId hk _
    rw [hid, hslot] at hpools
    by_cases hdormant : (w.machine.sched.threads k).state = .dormant
    · rw [decide_eq_true hdormant] at hpools
      exact h.vacated (hcareful k hid hdormant) (congrFun hpools .thread)
    · rw [decide_eq_false hdormant] at hpools
      exact h.of_slots (congrFun hpools .thread)

/-- Each careful step keeps every stack in a block of its own. -/
theorem Kept.step (h : w.Kept) {l : Act × ℕ} (hs : w.CarefulStep l w') : w'.Kept := by
  obtain ⟨act, size⟩ := l
  by_cases hact : Processor.writesSlots act
  · cases act with
    | call c =>
      cases c with
      | createThread a stack => exact h.createThread hs
      | deleteThread id => exact h.deleteThread hs
      | _ => cases hact
    | _ => cases hact
  obtain ⟨-, -, told, m, hstep, rfl⟩ := hs
  have hslots := Processor.step_slots hact hstep
  have hnoted : (w.noted size act).Kept ∧ (w.noted size act).pools = w.pools := by
    cases act with
    | call c =>
      cases c with
      | startThread id =>
        rw [noted]
        split
        · exact ⟨h, rfl⟩
        · split
          · exact ⟨h.primed _, rfl⟩
          · exact ⟨h, rfl⟩
      | createThread a stack => exact absurd trivial hact
      | _ => exact ⟨h, rfl⟩
    | _ => exact ⟨h, rfl⟩
  exact hnoted.1.of_slots (hslots.trans (congrFun hnoted.2 .thread).symm)

/-! ### Runs -/

/-- After the entry of the module: the idle thread has a stack among the module's variables, and
the boot the page its stack pointer is in. -/
def started (messages : ℕ → Message) (out : ℕ → ℕ) (idleStack sp : UInt32) : Stacks where
  machine := Processor.started messages out
  stack k := if k = 0 then idleStack else if k = 1 then sp &&& ~~~0xFFF else 0
  stackSize k := if k = 0 then 0x200 else if k = 1 then 0x1000 else 0
  frame k := if k = 0 then some (frameAt idleStack 0x200) else none
  asked _ := 0
  block _ := none
  held := []

/-- At the start the idle thread's stack is in a block of its own. -/
theorem kept_started (messages : ℕ → Message) (out : ℕ → ℕ) (idleStack sp : UInt32) :
    (started messages out idleStack sp).Kept := by
  have hnone : ∀ k, (started messages out idleStack sp).blockOf k = none := fun k => ite_self none
  refine ⟨⟨?_, .nil, fun k b hb => ?_, fun k b f hb => ?_⟩, fun k b hb => ?_⟩
  · rw [List.filterMap_eq_nil_iff.mpr fun k _ => hnone k]
    exact .nil
  · exact absurd hb (by simp [hnone k])
  · exact absurd hb (by simp [hnone k])
  · exact absurd hb (by simp [hnone k])

/-- **A thread's stack is its own memory**, in every state of a run that deletes no thread with a
block. -/
theorem stacks_are_owned (messages : ℕ → Message) (out : ℕ → ℕ) (idleStack sp : UInt32)
    (acts : List (Act × ℕ)) (w : Stacks)
    (h : Steps CarefulStep (started messages out idleStack sp) acts w) : w.Owned :=
  (h.invariant (fun _ _ _ hw hs => Kept.step hw hs)
    (kept_started messages out idleStack sp)).toOwned

/-- The steps as a function. -/
def next (w : Stacks) (l : Act × ℕ) : Option Stacks :=
  (w.machine.step l.1).map fun r => { w.noted l.2 l.1 with machine := r.2 }

theorem step_of_next {l : Act × ℕ} (hlawful : w.Lawful l.2 l.1) (h : w.next l = some w') :
    w.Step l w' := by
  obtain ⟨⟨told, m⟩, hstep, rfl⟩ := Option.map_eq_some_iff.mp h
  exact ⟨hlawful, told, m, hstep, rfl⟩

/-- A thread with a stack of 0x300 bytes is created, and SYSMEM grants them at 1 MiB. -/
def creation : Act × ℕ := (.call (.createThread ⟨0x02000000, 0x1000, 0x300, 20⟩ 0x100000), 0x300)

theorem careful_creation (w : Stacks) : w.Careful creation.1 := fun _ _ _ =>
  show (0x300 : UInt32) ≤ 0xFFFFFF00 by decide

theorem lawful_creation (hw : w.held = []) : w.Lawful creation.2 creation.1 := by
  intro id p _
  rw [hw]
  exact ⟨by decide, by decide, nofun⟩

/-- The boot with its stack at the end of the memory. -/
def booted : Stacks := started (fun _ => ⟨0, fun _ => 0⟩) (fun _ => 0) 0x8000 0x1F0000

/-- A second one, with 0x200 bytes behind those. -/
def secondCreation : Act × ℕ :=
  (.call (.createThread ⟨0x02000000, 0x2000, 0x200, 30⟩ 0x100300), 0x200)

/-- The boot creates two threads and starts them. -/
theorem stacks_are_owned_started : ∃ w,
    runList next booted [creation, secondCreation, (.call (.startThread 0x301), 0),
      (.call (.startThread 0x401), 0)] = some w ∧
      w.held = [⟨0x100300, 0x200⟩, ⟨0x100000, 0x300⟩] ∧ w.frame 2 = some 0x100268 ∧
      w.frame 3 = some 0x100468 ∧ w.Owned := by
  have h : (runList next booted [creation, secondCreation, (.call (.startThread 0x301), 0),
      (.call (.startThread 0x401), 0)]).map (fun w => (w.held, w.frame 2, w.frame 3)) =
        some ([⟨0x100300, 0x200⟩, ⟨0x100000, 0x300⟩], some 0x100268, some 0x100468) := by
    decide +kernel
  have hfirst : (runList next booted [creation]).map (fun w => w.held) =
      some [⟨0x100000, 0x300⟩] := by
    decide +kernel
  obtain ⟨w, hrun, hw⟩ := Option.map_eq_some_iff.mp h
  obtain ⟨hheld, hframes⟩ := Prod.mk.inj hw
  obtain ⟨hframe, hframe'⟩ := Prod.mk.inj hframes
  refine ⟨w, hrun, hheld, hframe, hframe', ?_⟩
  obtain ⟨u, hcreate, hrest⟩ := Option.bind_eq_some_iff.mp hrun
  obtain ⟨v, hsecond, hrest⟩ := Option.bind_eq_some_iff.mp hrest
  obtain ⟨x, hstart, hrest⟩ := Option.bind_eq_some_iff.mp hrest
  obtain ⟨y, hstart', hnil⟩ := Option.bind_eq_some_iff.mp hrest
  obtain rfl := Option.some.inj hnil
  have hu : u.held = [⟨0x100000, 0x300⟩] := by
    simp only [runList, hcreate, Option.bind_some, Option.map_some] at hfirst
    exact Option.some.inj hfirst
  -- the second block is apart from the first
  have hlawful : u.Lawful secondCreation.2 secondCreation.1 := by
    intro id p _
    rw [hu]
    refine ⟨by decide, by decide, fun b hb => ?_⟩
    obtain rfl := List.mem_singleton.mp hb
    exact .inr (by decide)
  have hcreate' : CarefulStep booted creation u :=
    ⟨careful_creation _, step_of_next (lawful_creation rfl) hcreate⟩
  have hsecond' : CarefulStep u secondCreation v :=
    ⟨fun _ _ _ => show (0x200 : UInt32) ≤ 0xFFFFFF00 by decide, step_of_next hlawful hsecond⟩
  have hstarted : CarefulStep v (.call (.startThread 0x301), 0) x :=
    ⟨trivial, step_of_next trivial hstart⟩
  have hstarted' : CarefulStep x (.call (.startThread 0x401), 0) y :=
    ⟨trivial, step_of_next trivial hstart'⟩
  exact stacks_are_owned _ _ _ _ _ y
    (.cons hcreate' (.cons hsecond' (.cons hstarted (.cons hstarted' (.nil y)))))

/-- The boot creates a thread and deletes it: its block stays with THREADMAN. -/
theorem deleteThread_keeps_block : ¬∀ acts w, Steps Step booted acts w → w.Owned := by
  intro hall
  have h : (runList next booted [creation, (.call (.deleteThread 0x301), 0)]).map
      (fun w => (w.held, (List.range kThreads).filterMap w.blockOf)) =
        some ([⟨0x100000, 0x300⟩], []) := by
    decide +kernel
  obtain ⟨w, hrun, hw⟩ := Option.map_eq_some_iff.mp h
  obtain ⟨hheld, hblocks⟩ := Prod.mk.inj hw
  obtain ⟨u, hcreate, hrest⟩ := Option.bind_eq_some_iff.mp hrun
  obtain ⟨v, hdelete, hnil⟩ := Option.bind_eq_some_iff.mp hrest
  obtain rfl := Option.some.inj hnil
  have hcreate' : Step booted creation u := step_of_next (lawful_creation rfl) hcreate
  have hdelete' : Step u (.call (.deleteThread 0x301), 0) v := step_of_next trivial hdelete
  have hperm := (hall _ v (.cons hcreate' (.cons hdelete' (.nil v)))).held
  rw [hheld, hblocks] at hperm
  exact absurd hperm.length_eq (by decide)

end Stacks

end PS2Bios.Threadman
