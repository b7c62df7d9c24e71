import PS2Bios.Threadman.Services

/-!
# Who writes the pool of thread records

Of all calls `createThread` takes a record and `deleteThread` gives one up. The others leave the
pool of the threads alone (`perform_slots`), and so does whatever an interrupt does
(`step_slots`).
-/

namespace PS2Bios.Threadman

open Intrusive

namespace Sched

variable {s : Sched} {k : ℕ}

/-! ### The queues and the switch -/

section Pools

@[simp] theorem pools_setThread (f : Thread → Thread) : (s.setThread k f).pools = s.pools := rfl
@[simp] theorem pools_setQueue (p : Place) (r : Links ℕ × Queue ℕ) :
    (s.setQueue p r).pools = s.pools := rfl
@[simp] theorem pools_setBit (b : Bool) : (s.setBit k b).pools = s.pools := rfl
@[simp] theorem pools_setCount (kind : Kind) (n : ℕ) : (s.setCount kind k n).pools = s.pools := rfl
@[simp] theorem pools_setPending : (s.setPending k).pools = s.pools := rfl
@[simp] theorem pools_enqueue (p : Place) : (s.enqueue p k).pools = s.pools := rfl
@[simp] theorem pools_unlink (p : Place) : (s.unlink p k).pools = s.pools := rfl
@[simp] theorem pools_makeReady : (s.makeReady k).pools = s.pools := rfl
@[simp] theorem pools_makeReadyFirst : (s.makeReadyFirst k).pools = s.pools := rfl
@[simp] theorem pools_setAnswer (v : ℤ) : (s.setAnswer k v).pools = s.pools := rfl
@[simp] theorem pools_primeFrame : (s.primeFrame k).pools = s.pools := rfl

theorem pools_ite {c : Prop} [Decidable c] {t u : Sched} {p : Pools} (ht : t.pools = p)
    (hu : u.pools = p) : (if c then t else u).pools = p := by
  split
  · exact ht
  · exact hu

theorem pools_enqueueByPriority {t : Sched} {p : Place}
    (h : s.enqueueByPriority p k = some t) : t.pools = s.pools := by
  rw [enqueueByPriority] at h
  obtain ⟨at_, -, rfl⟩ := Option.map_eq_some_iff.mp h
  split <;> rfl

@[simp] theorem pools_popFront (p : Place) : (s.popFront p).2.pools = s.pools := by
  rw [popFront]
  split <;> rfl

@[simp] theorem pools_clearIfEmpty : (s.clearIfEmpty k).pools = s.pools := by
  rw [clearIfEmpty]
  split <;> rfl

@[simp] theorem pools_takeOffReady : (s.takeOffReady k).pools = s.pools := by
  rw [takeOffReady, pools_clearIfEmpty, pools_unlink]

@[simp] theorem pools_pick : s.pick.2.pools = s.pools := by
  rw [pick]
  split
  · rfl
  · dsimp only
    rw [pools_clearIfEmpty, pools_popFront]

@[simp] theorem pools_leaveWait : (s.leaveWait k).pools = s.pools := by
  rw [leaveWait, pools_setThread]
  split <;> rfl

@[simp] theorem pools_resolve : s.resolve.pools = s.pools := by
  rw [resolve]
  split
  · dsimp only
    rw [pools_setPending, pools_pick]
  · rfl

@[simp] theorem pools_newContext (frame : Frame) : (s.newContext frame).pools = s.pools := by
  rw [newContext, pools_setThread, pools_resolve]
  split <;> rfl

@[simp] theorem pools_blockCurrent (waitType : WaitType) (waitId : UInt32) :
    (s.blockCurrent waitType waitId).pools = s.pools := by
  rw [blockCurrent, pools_setPending, pools_pick, pools_setThread]

@[simp] theorem pools_handOffIfBetter : (s.handOffIfBetter k).1.pools = s.pools := by
  rw [handOffIfBetter]
  split
  · rfl
  · dsimp only
    rw [pools_setPending, pools_takeOffReady]
    rfl

@[simp] theorem pools_stage : (s.stage k).pools = s.pools := by
  rw [stage, pools_setPending, pools_takeOffReady]
  split <;> rfl

/-- Waking a thread changes no slot. -/
@[simp] theorem pools_wake (v : ℤ) (interrupt : Bool) :
    (s.wake k v interrupt).1.pools = s.pools := by
  rw [wake]
  split
  · split <;> simp
  · simp

end Pools

/-! ### The calls -/

/-- The pool of the thread records is as it was. -/
def SameSlots (s : Sched) (r : Sched × Reply) : Prop := r.1.pools .thread = s.pools .thread

theorem sameSlots_of_pools {r : Sched × Reply} (h : r.1.pools = s.pools) : s.SameSlots r :=
  congrFun h .thread

theorem sameSlots_of_ite {c : Prop} [Decidable c] {r r' : Sched × Reply} (h : s.SameSlots r)
    (h' : s.SameSlots r') : s.SameSlots (if c then r else r') := by
  split
  · exact h
  · exact h'

theorem sameSlots_refused (v : ℤ) : s.SameSlots (s, .returns v) := rfl

/-- A start changes no slot. -/
theorem sameSlots_startThread (interrupt : Bool) (id : UInt32) :
    s.SameSlots (s.startThread interrupt id) := by
  rw [startThread]
  refine sameSlots_of_ite (sameSlots_refused _) ?_
  split
  · exact sameSlots_refused _
  · refine sameSlots_of_ite (sameSlots_refused _) (sameSlots_of_pools ?_)
    simp [andReturn]

theorem sameSlots_exitThread : s.SameSlots s.exitThread := sameSlots_of_pools (by simp [exitThread])

/-- A thread's end changes no slot: its record stays its own until it is deleted. -/
theorem sameSlots_terminateThread (id : UInt32) : s.SameSlots (s.terminateThread id) := by
  rw [terminateThread]
  refine sameSlots_of_ite (sameSlots_refused _) ?_
  split
  · exact sameSlots_refused _
  · next k _ =>
    refine sameSlots_of_ite (sameSlots_refused _) (sameSlots_of_ite (sameSlots_refused _) ?_)
    refine sameSlots_of_pools ?_
    dsimp only
    rw [pools_setThread]
    have hout : (if (s.threads k).state = .ready then s.takeOffReady k
        else if (s.threads k).state = .wait then s.leaveWait k else s).pools = s.pools :=
      pools_ite pools_takeOffReady (pools_ite pools_leaveWait rfl)
    exact pools_ite hout hout

/-- A change of priority changes no slot. -/
theorem sameSlots_changeThreadPriority (interrupt : Bool) (id priority : UInt32) :
    s.SameSlots (s.changeThreadPriority interrupt id priority) := by
  rw [changeThreadPriority]
  refine sameSlots_of_ite (sameSlots_refused _) ?_
  split
  · exact sameSlots_refused _
  · refine sameSlots_of_ite (sameSlots_refused _) (sameSlots_of_ite (sameSlots_of_pools ?_) ?_)
    · rw [requeue]
      split <;> simp [andReturn, setPriority]
    · refine sameSlots_of_ite (sameSlots_of_pools ?_) (sameSlots_of_pools rfl)
      rw [yieldIfWorse]
      dsimp only
      split
      · simp [setPriority]
      · split <;> simp [setPriority]

theorem sameSlots_rotateThreadReadyQueue (interrupt : Bool) (priority : UInt32) :
    s.SameSlots (s.rotateThreadReadyQueue interrupt priority) := by
  rw [rotateThreadReadyQueue]
  refine sameSlots_of_ite (sameSlots_refused _) (sameSlots_of_ite (sameSlots_of_pools ?_)
    (sameSlots_of_pools ?_))
  · simp
  · exact pools_ite (pools_popFront _) (pools_popFront _)

/-- A release changes no slot. -/
theorem sameSlots_releaseWaitThread (interrupt : Bool) (id : UInt32) :
    s.SameSlots (s.releaseWaitThread interrupt id) := by
  rw [releaseWaitThread]
  refine sameSlots_of_ite (sameSlots_refused _) ?_
  split
  · exact sameSlots_refused _
  · exact sameSlots_of_ite (sameSlots_refused _)
      (sameSlots_of_ite (sameSlots_refused _) (sameSlots_of_pools (pools_wake _ _)))

theorem sameSlots_sleepThread (interrupt : Bool) : s.SameSlots (s.sleepThread interrupt) := by
  rw [sleepThread]
  exact sameSlots_of_ite (sameSlots_refused _)
    (sameSlots_of_ite rfl (sameSlots_of_pools (pools_blockCurrent _ _)))

theorem sameSlots_wakeupThread (interrupt : Bool) (id : UInt32) :
    s.SameSlots (s.wakeupThread interrupt id) := by
  rw [wakeupThread]
  refine sameSlots_of_ite (sameSlots_refused _) ?_
  split
  · exact sameSlots_refused _
  · exact sameSlots_of_ite (sameSlots_refused _)
      (sameSlots_of_ite (sameSlots_of_pools (pools_wake _ _)) rfl)

theorem sameSlots_cancelWakeupThread (id : UInt32) : s.SameSlots (s.cancelWakeupThread id) := by
  rw [cancelWakeupThread]
  split <;> rfl

theorem sameSlots_delayThread (interrupt : Bool) (added : ℤ) :
    s.SameSlots (s.delayThread interrupt added) := by
  rw [delayThread]
  exact sameSlots_of_ite (sameSlots_refused _)
    (sameSlots_of_ite (sameSlots_refused _) (sameSlots_of_pools (pools_blockCurrent _ _)))

/-! ### The calls of the objects -/

/-- The records of another kind are taken and given up. -/
theorem pools_set_thread (p : Pools) {kind : Kind} (hkind : kind ≠ .thread) (slot : Slot) :
    p.set kind k slot .thread = p .thread := by
  funext j
  rw [Pools.set_apply, if_neg fun h => hkind h.1.symm]

/-- An object that is created changes no thread's slot. -/
theorem sameSlots_createObject {kind : Kind} (hkind : kind ≠ .thread)
    {r : Except ℤ UInt32 × Pools} (hr : Creates kind s.pools r) (fill : ℕ → Sched → Sched)
    (hfill : ∀ k t, (fill k t).pools = t.pools) : s.SameSlots (s.createObject kind r fill) := by
  rcases hr with ⟨code, rfl⟩ | ⟨k, -, -, rfl⟩
  · rfl
  · refine (congrFun (hfill _ _) .thread).trans ?_
    exact pools_set_thread _ hkind _

/-- Waking all the waiters changes no slot. -/
theorem pools_wakeAll {kind : Kind} {n : ℕ} {t : Sched} (h : wakeAll kind k n s = some t) :
    t.pools = s.pools := by
  induction n generalizing s with
  | zero => cases h
  | succ n ih =>
    rw [wakeAll] at h
    split at h
    · cases h
      rfl
    · rw [ih h, pools_wake]

/-- An object that is deleted changes no thread's slot. -/
theorem sameSlots_deleteObject {kind : Kind} (hkind : kind ≠ .thread) {interrupt : Bool}
    {unknown : ℤ} {id : UInt32} {r : Sched × Reply}
    (h : s.deleteObject interrupt kind unknown id = some r) : s.SameSlots r := by
  rw [deleteObject] at h
  split at h
  · cases h
    rfl
  · split at h
    · cases h
      rfl
    · obtain ⟨t, ht, rfl⟩ := Option.map_eq_some_iff.mp h
      rw [SameSlots, vacate]
      dsimp only
      rw [pools_set_thread _ hkind, pools_wakeAll ht]

theorem pools_blockOn {kind : Kind} {waitType : WaitType} {id : UInt32} {byPriority : Bool}
    {r : Sched × Reply} (h : s.blockOn kind waitType k id byPriority = some r) :
    r.1.pools = s.pools := by
  obtain ⟨t, ht, rfl⟩ := Option.map_eq_some_iff.mp h
  dsimp only
  rw [pools_blockCurrent, pools_setCount]
  split at ht
  · exact pools_enqueueByPriority ht
  · cases ht
    rfl

@[simp] theorem pools_writeOut (result v : ℕ) : (s.writeOut result v).pools = s.pools := by
  rw [writeOut]
  split <;> rfl

@[simp] theorem pools_takeBits (result : ℕ) (mode : UInt32) :
    (s.takeBits k result mode).pools = s.pools := by
  rw [takeBits]
  split
  · exact pools_writeOut _ _
  · exact pools_writeOut _ _

/-- The walk over a flag's waiters changes no slot. -/
theorem pools_setLoop {interrupt : Bool} {n at_ : ℕ} {r : Sched × Reply}
    (h : setLoop interrupt k n at_ s = some r) : r.1.pools = s.pools := by
  induction n generalizing s at_ with
  | zero => cases h
  | succ n ih =>
    rw [setLoop] at h
    split at h
    · cases h
      rfl
    · dsimp only at h
      split at h
      · split at h
        · cases h
          simp
        · rw [ih h]
          simp
      · exact ih h

theorem sameSlots_setEventFlag {interrupt : Bool} {id bits : UInt32} {r : Sched × Reply}
    (h : s.setEventFlag interrupt id bits = some r) : s.SameSlots r := by
  rw [setEventFlag] at h
  split at h
  · cases h
    rfl
  · split at h
    · cases h
      rfl
    · exact sameSlots_of_pools ((pools_setLoop h).trans rfl)

theorem sameSlots_waitEventFlag {interrupt poll : Bool} {id bits mode : UInt32} {result : ℕ}
    {r : Sched × Reply} (h : s.waitEventFlag interrupt id bits mode result poll = some r) :
    s.SameSlots r := by
  rw [waitEventFlag] at h
  iterate 3
    split at h
    · cases h
      rfl
  split at h
  · cases h
    rfl
  · split at h
    · cases h
      rfl
    · split at h
      · cases h
        exact sameSlots_of_pools (pools_takeBits _ _)
      · split at h
        · cases h
          rfl
        · exact sameSlots_of_pools ((pools_blockOn h).trans rfl)

theorem sameSlots_signalSema (interrupt : Bool) (id : UInt32) :
    s.SameSlots (s.signalSema interrupt id) := by
  rw [signalSema]
  split
  · rfl
  · exact sameSlots_of_ite (sameSlots_of_pools (pools_wake _ _)) (sameSlots_of_ite rfl rfl)

theorem sameSlots_waitSema {interrupt : Bool} {id : UInt32} {r : Sched × Reply}
    (h : s.waitSema interrupt id = some r) : s.SameSlots r := by
  rw [waitSema] at h
  split at h
  · cases h
    rfl
  · split at h
    · cases h
      rfl
    · split at h
      · cases h
        rfl
      · exact sameSlots_of_pools (pools_blockOn h)

/-- A message that is queued changes no slot. -/
theorem pools_queueMessage (message : ℕ) : (s.queueMessage k message).pools = s.pools := by
  rw [queueMessage]
  dsimp only
  split
  · rfl
  · split
    · rfl
    · split <;> rfl

theorem pools_takeMessage (received : ℕ) : (s.takeMessage k received).1.pools = s.pools := by
  rw [takeMessage, dequeueMessage]
  dsimp only
  split <;> rfl

theorem sameSlots_sendMbx (interrupt iForm : Bool) (id : UInt32) (message : ℕ) :
    s.SameSlots (s.sendMbx interrupt iForm id message) := by
  rw [sendMbx]
  refine sameSlots_of_ite (sameSlots_refused _) ?_
  split
  · rfl
  · refine sameSlots_of_ite (sameSlots_of_pools ?_) (sameSlots_of_pools (pools_queueMessage _))
    simp [andReturn]

theorem sameSlots_receiveMbx {interrupt : Bool} {id : UInt32} {received : ℕ} {r : Sched × Reply}
    (h : s.receiveMbx interrupt received id = some r) : s.SameSlots r := by
  rw [receiveMbx] at h
  split at h
  · cases h
    rfl
  · split at h
    · cases h
      rfl
    · split at h
      · cases h
        exact sameSlots_of_pools (pools_takeMessage _)
      · exact sameSlots_of_pools ((pools_blockOn h).trans rfl)

theorem sameSlots_pollMbx (received : ℕ) (id : UInt32) : s.SameSlots (s.pollMbx received id) := by
  rw [pollMbx]
  split
  · rfl
  · exact sameSlots_of_ite rfl (sameSlots_of_pools (pools_takeMessage _))

/-- The calls that take and give up thread records. -/
def writesSlots : Service → Prop
  | .createThread _ _ | .deleteThread _ => True
  | _ => False

/-- A service that neither creates nor deletes a thread changes no thread's slot. -/
theorem perform_slots {interrupt : Bool} {c : Service} (hc : ¬writesSlots c) {r : Sched × Reply}
    (h : s.perform interrupt c = some r) : s.SameSlots r := by
  have hsome {r' : Sched × Reply} (h' : some r' = some r) (hsame : s.SameSlots r') :
      s.SameSlots r := Option.some.inj h' ▸ hsame
  have hevent : Kind.event ≠ .thread := by decide
  have hsema : Kind.semaphore ≠ .thread := by decide
  have hmbx : Kind.mailbox ≠ .thread := by decide
  -- the three calls that give a thread its slot or its stack are left out; each other one has its
  -- lemma
  cases c with
  | createThread a stack => exact absurd trivial hc
  | deleteThread id => exact absurd trivial hc
  | startThread id => exact hsome h (sameSlots_startThread _ _)
  | exitThread => exact hsome h sameSlots_exitThread
  | terminateThread id => exact hsome h (sameSlots_terminateThread _)
  | changeThreadPriority id priority => exact hsome h (sameSlots_changeThreadPriority _ _ _)
  | rotateThreadReadyQueue priority => exact hsome h (sameSlots_rotateThreadReadyQueue _ _)
  | releaseWaitThread id => exact hsome h (sameSlots_releaseWaitThread _ _)
  | sleepThread => exact hsome h (sameSlots_sleepThread _)
  | wakeupThread id => exact hsome h (sameSlots_wakeupThread _ _)
  | cancelWakeupThread id => exact hsome h (sameSlots_cancelWakeupThread _)
  | delayThread added => exact hsome h (sameSlots_delayThread _ _)
  | createEventFlag attr bits =>
    refine hsome h ?_
    rw [createEventFlag]
    exact sameSlots_createObject hevent (creates_create _ _) _ fun _ _ => rfl
  | deleteEventFlag id => exact sameSlots_deleteObject hevent h
  | setEventFlag id bits => exact sameSlots_setEventFlag h
  | clearEventFlag id keep =>
    refine hsome h ?_
    rw [clearEventFlag]
    split <;> rfl
  | waitEventFlag id bits mode result poll => exact sameSlots_waitEventFlag h
  | createSema attr initial max =>
    refine hsome h ?_
    rw [createSema]
    exact sameSlots_createObject hsema (creates_create _ _) _ fun _ _ => rfl
  | deleteSema id => exact sameSlots_deleteObject hsema h
  | signalSema id => exact hsome h (sameSlots_signalSema _ _)
  | waitSema id => exact sameSlots_waitSema h
  | pollSema id =>
    refine hsome h ?_
    rw [pollSema]
    split
    · rfl
    · exact sameSlots_of_ite rfl rfl
  | createMbx attr =>
    refine hsome h ?_
    rw [createMbx]
    exact sameSlots_createObject hmbx (creates_create _ _) _ fun _ _ => rfl
  | deleteMbx id => exact sameSlots_deleteObject hmbx h
  | sendMbx iForm id message => exact hsome h (sameSlots_sendMbx _ _ _ _)
  | receiveMbx received id => exact sameSlots_receiveMbx h
  | pollMbx received id => exact hsome h (sameSlots_pollMbx _ _)

end Sched

/-! ### The processor -/

namespace Processor

open Sched

variable {s : Sched} {m m' : Processor} {told : Told}

theorem pools_resumed (h : resumed s = some (told, m')) : m'.sched.pools = s.pools := by
  rw [resumed] at h
  split at h
  · cases h
  · split at h <;> cases h <;> rfl

/-- What follows on a service changes no slot. -/
theorem pools_replied {r : Sched × Reply} (h : replied r = some (told, m')) :
    m'.sched.pools = r.1.pools := by
  obtain ⟨t, reply⟩ := r
  cases reply with
  | returns v =>
    cases h
    rfl
  | traps resume => rw [pools_resumed h, pools_newContext]

/-- The acts in which a thread takes or gives up a record. -/
def writesSlots : Act → Prop
  | .call c => Sched.writesSlots c
  | _ => False

/-- A handler is refused these calls. -/
theorem handler_slots {c : Service} {r : Sched × Reply} (h : s.perform true c = some r) :
    s.SameSlots r := by
  by_cases hc : Sched.writesSlots c
  · cases c with
    | createThread a stack =>
      cases h
      rfl
    | deleteThread id =>
      cases h
      rfl
    | _ => cases hc
  · exact perform_slots hc h

/-- An act that neither creates nor deletes a thread changes no thread's slot. -/
theorem step_slots {act : Act} (hact : ¬writesSlots act) (h : m.step act = some (told, m')) :
    m'.sched.pools .thread = m.sched.pools .thread := by
  cases act with
  | call c =>
    rw [step] at h
    split at h
    · cases h
    · obtain ⟨r, hr, hreplied⟩ := Option.bind_eq_some_iff.mp h
      rw [pools_replied hreplied]
      exact perform_slots hact hr
  | goOn =>
    obtain ⟨g, -, hloop⟩ := Option.bind_eq_some_iff.mp h
    obtain ⟨r, hr, hreplied⟩ := Option.bind_eq_some_iff.mp hloop
    rw [pools_replied hreplied, pools_setLoop hr]
  | enter =>
    rw [step] at h
    split at h <;> cases h
    rfl
  | handler c =>
    rw [step] at h
    split at h
    · cases h
    · obtain ⟨r, hr, hreply⟩ := Option.bind_eq_some_iff.mp h
      split at hreply <;> cases hreply
      exact handler_slots hr
  | expire k =>
    rw [step] at h
    split at h
    · cases h
    · cases h
      dsimp only
      rw [delayExpired]
      split
      · rw [pools_wake]
      · rfl
  | leave v0 =>
    rw [step] at h
    split at h
    · cases h
    · split at h
      · rw [pools_resumed h, pools_newContext]
      · cases h
        rfl

end Processor

end PS2Bios.Threadman
