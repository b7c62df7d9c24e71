import PS2Bios.Threadman.Waiters

/-!
# What the calls leave alone

Making threads ready, waking them and blocking the caller writes nothing of the objects, the
messages and the results, nor of where threads want theirs (`Leaves`). So a call writes only the
objects of the kind that it is about, and results only if these are flags or boxes
(`perform_writes`).
-/

namespace PS2Bios.Threadman

open Intrusive Sched

section Same

variable (s : Sched) (k : ℕ)

theorem same_unlink (p : Place) : Same s (s.unlink p k) := ⟨rfl, rfl, rfl, rfl, rfl, rfl⟩

theorem same_clearIfEmpty (priority : ℕ) : Same s (s.clearIfEmpty priority) := by
  rw [clearIfEmpty]
  split <;> exact ⟨rfl, rfl, rfl, rfl, rfl, rfl⟩

theorem same_popFront (p : Place) : Same s (s.popFront p).2 := by
  unfold Sched.popFront
  dsimp only
  split
  · exact same_unlink s _ p
  · exact .refl s

theorem same_pick : Same s s.pick.2 := by
  rw [pick]
  cases (List.range kPriorities).find? s.readyBits with
  | none => exact .refl s
  | some priority => exact (same_popFront s (.ready priority)).trans (same_clearIfEmpty _ priority)

theorem same_handOffIfBetter : Same s (s.handOffIfBetter k).1 := by
  rw [handOffIfBetter_eq]
  split
  · exact .refl s
  · have hback : Same s s.stepBack := ⟨rfl, rfl, rfl, rfl, rfl, rfl⟩
    exact (hback.trans (same_takeOffReady _ k)).trans (same_setPending _ k)

theorem same_stage : Same s (s.stage k) := by
  rw [stage]
  split
  · exact ((same_makeReadyFirst s _).trans (same_takeOffReady _ k)).trans (same_setPending _ k)
  · exact ((same_makeReady s _).trans (same_takeOffReady _ k)).trans (same_setPending _ k)

theorem same_wake (answer : ℤ) (interrupt : Bool) : Same s (s.wake k answer interrupt).1 := by
  rw [wake_eq]
  split
  · split
    · exact (same_woken s k answer).trans (same_stage _ k)
    · exact same_woken s k answer
  · exact (same_woken s k answer).trans (same_handOffIfBetter _ k)

theorem same_blockCurrent (waitType : WaitType) (waitId : UInt32) :
    Same s (s.blockCurrent waitType waitId) := by
  rw [blockCurrent]
  exact ((same_setThread s _ _).trans (same_pick _)).trans (same_setPending _ _)

theorem same_andReturn (r : Sched × Bool) (v : ℤ) (h : Same s r.1) : Same s (andReturn r v).1 := h

end Same

section Loops

variable {s s' : Sched} {kind : Kind} {k n : ℕ}

theorem same_wakeAll (h : wakeAll kind k n s = some s') : Same s s' := by
  induction n generalizing s with
  | zero => cases h
  | succ n ih =>
    rw [wakeAll] at h
    split at h
    · obtain rfl := Option.some.inj h
      exact .refl s
    · exact (same_wake s _ _ _).trans (ih h)

theorem same_blockOn {w : WaitType} {id : UInt32} {b : Bool} {r : Sched × Reply}
    (h : s.blockOn kind w k id b = some r) : Same s r.1 := by
  obtain ⟨s₁, hq, rfl⟩ := Option.map_eq_some_iff.mp h
  have hsame : Same s s₁ := by
    split at hq
    · obtain ⟨at_, -, rfl⟩ := Option.map_eq_some_iff.mp hq
      split
      · exact ⟨rfl, rfl, rfl, rfl, rfl, rfl⟩
      · exact ⟨rfl, rfl, rfl, rfl, rfl, rfl⟩
    · obtain rfl := Option.some.inj hq
      exact ⟨rfl, rfl, rfl, rfl, rfl, rfl⟩
  have hcount : Same s₁ (s₁.setCount kind k (s₁.waiterCount kind k + 1)) :=
    ⟨rfl, rfl, rfl, rfl, rfl, rfl⟩
  exact (hsame.trans hcount).trans (same_blockCurrent _ _ _)

end Loops

/-- The objects, the messages and the results are what they were, and where threads want theirs. -/
structure Leaves (s s' : Sched) : Prop where
  events : s'.events = s.events
  semaphores : s'.semaphores = s.semaphores
  mailboxes : s'.mailboxes = s.mailboxes
  messages : s'.messages = s.messages
  out : s'.out = s.out
  waitOut : ∀ t, (s'.threads t).waitOut = (s.threads t).waitOut

section Leaves

variable {s s' s'' : Sched} {k n : ℕ} {kind : Kind}

theorem Leaves.refl (s : Sched) : Leaves s s := ⟨rfl, rfl, rfl, rfl, rfl, fun _ => rfl⟩

theorem Leaves.trans (h : Leaves s s') (h' : Leaves s' s'') : Leaves s s'' :=
  ⟨h'.events.trans h.events, h'.semaphores.trans h.semaphores, h'.mailboxes.trans h.mailboxes,
    h'.messages.trans h.messages, h'.out.trans h.out, fun t => (h'.waitOut t).trans (h.waitOut t)⟩

theorem Leaves.of_same (h : Same s s') (hw : ∀ t, (s'.threads t).waitOut = (s.threads t).waitOut) :
    Leaves s s' :=
  ⟨h.events, h.semaphores, h.mailboxes, h.messages, h.out, hw⟩

theorem Leaves.of_threads (h : Same s s') (hthreads : s'.threads = s.threads) : Leaves s s' :=
  .of_same h fun t => by rw [hthreads]

/-- A record that is stored leaves everything else, if it says the same of the answer's place. -/
theorem leaves_setThread {f : Thread → Thread} (s : Sched) (k : ℕ)
    (hf : ∀ t, (f t).waitOut = t.waitOut) : Leaves s (s.setThread k f) :=
  .of_same (same_setThread s k f) fun t => by
    rw [setThread_threads]
    split
    · next ht => rw [hf, ht]
    · rfl

theorem leaves_makeReady (s : Sched) (k : ℕ) : Leaves s (s.makeReady k) :=
  .of_same (same_makeReady s k) fun t => by
    rw [makeReady_threads]
    split
    · next ht => rw [ht]
    · rfl

theorem leaves_makeReadyFirst (s : Sched) (k : ℕ) : Leaves s (s.makeReadyFirst k) :=
  .of_same (same_makeReadyFirst s k) fun t => by
    rw [makeReadyFirst_threads]
    split
    · next ht => rw [ht]
    · rfl

theorem leaves_takeOffReady (s : Sched) (k : ℕ) : Leaves s (s.takeOffReady k) :=
  .of_threads (same_takeOffReady s k) (takeOffReady_threads s k)

theorem leaves_setPending (s : Sched) (k : ℕ) : Leaves s (s.setPending k) :=
  .of_threads (same_setPending s k) rfl

theorem leaves_leaveWait (s : Sched) (k : ℕ) : Leaves s (s.leaveWait k) :=
  .of_same (same_leaveWait s k) fun t => by
    rw [leaveWait_threads]
    split
    · next ht => rw [ht]
    · rfl

theorem leaves_popFront (s : Sched) (p : Place) : Leaves s (s.popFront p).2 :=
  .of_threads (same_popFront s p) (by
    unfold Sched.popFront
    dsimp only
    split <;> rfl)

theorem leaves_clearIfEmpty (s : Sched) (priority : ℕ) : Leaves s (s.clearIfEmpty priority) :=
  .of_threads (same_clearIfEmpty s priority) (by
    rw [clearIfEmpty]
    split <;> rfl)

theorem leaves_pick (s : Sched) : Leaves s s.pick.2 := by
  rw [pick]
  cases (List.range kPriorities).find? s.readyBits with
  | none => exact .refl s
  | some priority =>
    exact (leaves_popFront s (.ready priority)).trans (leaves_clearIfEmpty _ priority)

theorem leaves_handOffIfBetter (s : Sched) (k : ℕ) : Leaves s (s.handOffIfBetter k).1 := by
  rw [handOffIfBetter_eq]
  split
  · exact .refl s
  · have hback : Leaves s s.stepBack :=
      .of_same ⟨rfl, rfl, rfl, rfl, rfl, rfl⟩ fun t => by
        rw [stepBack_threads]
        split
        · next ht => rw [ht]
        · rfl
    exact (hback.trans (leaves_takeOffReady _ k)).trans (leaves_setPending _ k)

theorem leaves_wake (s : Sched) (k : ℕ) (answer : ℤ) (interrupt : Bool) :
    Leaves s (s.wake k answer interrupt).1 := by
  have hwoken : Leaves s (s.woken k answer) :=
    .of_same (same_woken s k answer) fun t => by
      rw [woken_threads]
      split
      · next ht => rw [ht]
      · rfl
  have hstage : ∀ s : Sched, Leaves s (s.stage k) := fun s => by
    rw [stage]
    split
    · exact ((leaves_makeReadyFirst s _).trans (leaves_takeOffReady _ k)).trans
        (leaves_setPending _ k)
    · exact ((leaves_makeReady s _).trans (leaves_takeOffReady _ k)).trans (leaves_setPending _ k)
  rw [wake_eq]
  split
  · split
    · exact hwoken.trans (hstage _)
    · exact hwoken
  · exact hwoken.trans (leaves_handOffIfBetter _ k)

theorem leaves_blockCurrent (s : Sched) (w : WaitType) (id : UInt32) :
    Leaves s (s.blockCurrent w id) := by
  rw [blockCurrent]
  exact ((leaves_setThread s s.current (by intro t; rfl)).trans (leaves_pick _)).trans
    (leaves_setPending _ _)

theorem leaves_wakeAll (h : wakeAll kind k n s = some s') : Leaves s s' := by
  induction n generalizing s with
  | zero => cases h
  | succ n ih =>
    rw [wakeAll] at h
    split at h
    · obtain rfl := Option.some.inj h
      exact .refl s
    · exact (leaves_wake s _ _ _).trans (ih h)

theorem leaves_blockOn {w : WaitType} {id : UInt32} {b : Bool} {r : Sched × Reply}
    (h : s.blockOn kind w k id b = some r) : Leaves s r.1 := by
  have hsame := same_blockOn h
  obtain ⟨s₁, hq, rfl⟩ := Option.map_eq_some_iff.mp h
  have hthreads : s₁.threads = s.threads := by
    split at hq
    · obtain ⟨at_, -, rfl⟩ := Option.map_eq_some_iff.mp hq
      split <;> rfl
    · obtain rfl := Option.some.inj hq
      rfl
  refine .of_same hsame fun t => ?_
  have hblocked := (leaves_blockCurrent
    (s₁.setCount kind k (s₁.waiterCount kind k + 1)) w id).waitOut t
  exact hblocked.trans (by rw [← hthreads]; rfl)

/-! ### The calls -/

theorem leaves_createThread (s : Sched) (interrupt : Bool) (a : ThreadParameters)
    (stack : UInt32) : Leaves s (s.createThread interrupt a stack).1 := by
  rw [Sched.createThread]
  split
  · exact .refl s
  · dsimp only
    refine Leaves.trans ?_ (leaves_setThread _ _ ?_)
    · exact ⟨rfl, rfl, rfl, rfl, rfl, fun _ => rfl⟩
    intro t
    rfl

theorem leaves_deleteThread (s : Sched) (interrupt : Bool) (id : UInt32) :
    Leaves s (s.deleteThread interrupt id).1 := by
  rw [Sched.deleteThread]
  dsimp only
  split
  · dsimp only
    refine Leaves.trans ?_ (leaves_setThread _ _ ?_)
    · exact ⟨rfl, rfl, rfl, rfl, rfl, fun _ => rfl⟩
    intro t
    rfl
  · exact .refl s

theorem leaves_startThread (s : Sched) (interrupt : Bool) (id : UInt32) :
    Leaves s (s.startThread interrupt id).1 := by
  rw [Sched.startThread]
  split
  · exact .refl s
  · split
    · exact .refl s
    · next k hk =>
      split
      · exact .refl s
      · have hactive : Leaves s (s.activate k) :=
          ((leaves_setThread s k (by intro t; rfl)).trans
            (leaves_setThread _ k (by intro t; rfl))).trans (leaves_makeReady _ k)
        exact hactive.trans (leaves_handOffIfBetter _ k)

theorem leaves_exitThread (s : Sched) : Leaves s s.exitThread.1 := by
  rw [Sched.exitThread]
  exact ((leaves_setThread s s.current (by intro t; rfl)).trans (leaves_pick _)).trans
    (leaves_setPending _ _)

theorem leaves_terminateThread (s : Sched) (id : UInt32) : Leaves s (s.terminateThread id).1 := by
  have hwithdraw : ∀ k, Leaves s (s.withdraw k) := fun k => by
    rw [withdraw]
    split
    · exact leaves_takeOffReady s k
    · split
      · exact leaves_leaveWait s k
      · exact .refl s
  rw [Sched.terminateThread]
  split
  · exact .refl s
  · split
    · exact .refl s
    · next k hk =>
      split
      · exact .refl s
      · split
        · exact .refl s
        · dsimp only
          refine Leaves.trans ?_ (leaves_setThread _ k ?_)
          swap
          · intro t
            rfl
          rw [← withdraw]
          split
          · exact (hwithdraw k).trans (leaves_setPending _ _)
          · exact hwithdraw k

theorem leaves_changeThreadPriority (s : Sched) (interrupt : Bool) (id priority : UInt32) :
    Leaves s (s.changeThreadPriority interrupt id priority).1 := by
  have hset : ∀ (s : Sched) (k p : ℕ), Leaves s (s.setPriority k p) := fun s k p =>
    leaves_setThread s k (by intro t; rfl)
  rw [Sched.changeThreadPriority]
  split
  · exact .refl s
  · split
    · exact .refl s
    · next k hk =>
      split
      · exact .refl s
      · dsimp only
        split
        · have hrequeue :
              Leaves s (((s.takeOffReady k).setPriority k priority.toNat).makeReady k) :=
            ((leaves_takeOffReady s k).trans (hset _ k _)).trans (leaves_makeReady _ k)
          rw [Sched.requeue]
          split
          · exact hrequeue
          · exact hrequeue.trans (leaves_handOffIfBetter _ k)
        · split
          · have hpick := (hset s k priority.toNat).trans (leaves_pick _)
            rw [Sched.yieldIfWorse]
            dsimp only
            split
            · exact hpick
            · split
              · exact (hpick.trans (leaves_makeReady _ k)).trans (leaves_setPending _ _)
              · exact hpick.trans (leaves_makeReady _ _)
          · exact hset s k _

theorem leaves_rotateThreadReadyQueue (s : Sched) (interrupt : Bool) (priority : UInt32) :
    Leaves s (s.rotateThreadReadyQueue interrupt priority).1 := by
  rw [Sched.rotateThreadReadyQueue]
  split
  · exact .refl s
  · dsimp only
    generalize (if priority = 0 then s.priorityOf s.current else priority.toNat) = p
    split
    · exact ((leaves_makeReady s s.current).trans (leaves_pick _)).trans (leaves_setPending _ _)
    · dsimp only
      split
      · exact (leaves_popFront s _).trans ⟨rfl, rfl, rfl, rfl, rfl, fun _ => rfl⟩
      · exact leaves_popFront s _

theorem leaves_releaseWaitThread (s : Sched) (interrupt : Bool) (id : UInt32) :
    Leaves s (s.releaseWaitThread interrupt id).1 := by
  rw [Sched.releaseWaitThread]
  split
  · exact .refl s
  · split
    · exact .refl s
    · split
      · exact .refl s
      · split
        · exact .refl s
        · exact leaves_wake s _ _ _

theorem leaves_wakeupThread (s : Sched) (interrupt : Bool) (id : UInt32) :
    Leaves s (s.wakeupThread interrupt id).1 := by
  rw [Sched.wakeupThread]
  split
  · exact .refl s
  · split
    · exact .refl s
    · split
      · exact .refl s
      · split
        · exact leaves_wake s _ _ _
        · dsimp only
          refine leaves_setThread s _ ?_
          intro t
          rfl

theorem leaves_sleepThread (s : Sched) (interrupt : Bool) :
    Leaves s (s.sleepThread interrupt).1 := by
  rw [Sched.sleepThread]
  split
  · exact .refl s
  · split
    · dsimp only
      refine leaves_setThread s _ ?_
      intro t
      rfl
    · exact leaves_blockCurrent s _ _

theorem leaves_delayThread (s : Sched) (interrupt : Bool) (added : ℤ) :
    Leaves s (s.delayThread interrupt added).1 := by
  rw [Sched.delayThread]
  split
  · exact .refl s
  · split
    · exact .refl s
    · exact leaves_blockCurrent s _ _

theorem leaves_cancelWakeupThread (s : Sched) (id : UInt32) :
    Leaves s (s.cancelWakeupThread id).1 := by
  rw [Sched.cancelWakeupThread]
  split
  · exact .refl s
  · dsimp only
    refine leaves_setThread s _ ?_
    intro t
    rfl

end Leaves

/-! ### The calls about objects -/

/-- The kind of object that a call is about. -/
def Service.about : Service → Option Kind
  | .createEventFlag _ _ | .deleteEventFlag _ | .setEventFlag _ _ | .clearEventFlag _ _
  | .waitEventFlag _ _ _ _ _ => some .event
  | .createSema _ _ _ | .deleteSema _ | .signalSema _ | .waitSema _ | .pollSema _ =>
    some .semaphore
  | .createMbx _ | .deleteMbx _ | .sendMbx _ _ _ | .receiveMbx _ _ | .pollMbx _ _ => some .mailbox
  | _ => none

/-- What code about a kind of object may write, for the thread `who`: of a message no more than its
first word. -/
structure Writes (about : Option Kind) (who : ℕ) (s s' : Sched) : Prop where
  events : about ≠ some .event → s'.events = s.events
  semaphores : about ≠ some .semaphore → s'.semaphores = s.semaphores
  mailboxes : about ≠ some .mailbox → s'.mailboxes = s.mailboxes
  messages : about ≠ some .mailbox → s'.messages = s.messages
  out : about ≠ some .event → about ≠ some .mailbox → s'.out = s.out
  waitOut : ∀ t, t ≠ who → (s'.threads t).waitOut = (s.threads t).waitOut
  rest : ∀ message, (s'.messages message).rest = (s.messages message).rest

section Writes

variable {s s' s'' : Sched} {about : Option Kind} {kind : Kind} {who k : ℕ} {interrupt : Bool}
  {id : UInt32} {r : Sched × Reply}

/-- Two steps write no more than each does. -/
theorem Writes.trans (h : Writes about who s s') (h' : Writes about who s' s'') :
    Writes about who s s'' :=
  ⟨fun ha => (h'.events ha).trans (h.events ha),
    fun ha => (h'.semaphores ha).trans (h.semaphores ha),
    fun ha => (h'.mailboxes ha).trans (h.mailboxes ha),
    fun ha => (h'.messages ha).trans (h.messages ha),
    fun ha hb => (h'.out ha hb).trans (h.out ha hb),
    fun t ht => (h'.waitOut t ht).trans (h.waitOut t ht),
    fun x => (h'.rest x).trans (h.rest x)⟩

theorem Leaves.writes (h : Leaves s s') (about : Option Kind) (who : ℕ) :
    Writes about who s s' :=
  ⟨fun _ => h.events, fun _ => h.semaphores, fun _ => h.mailboxes, fun _ => h.messages,
    fun _ _ => h.out, fun t _ => h.waitOut t, fun x => by rw [h.messages]⟩

theorem writes_setEvent (s : Sched) (k : ℕ) (f : EventFlag → EventFlag) (who : ℕ) :
    Writes (some .event) who s (s.setEvent k f) :=
  ⟨fun ha => absurd rfl ha, fun _ => rfl, fun _ => rfl, fun _ => rfl, fun _ _ => rfl,
    fun _ _ => rfl, fun _ => rfl⟩

theorem writes_setSemaphore (s : Sched) (k : ℕ) (f : Semaphore → Semaphore) (who : ℕ) :
    Writes (some .semaphore) who s (s.setSemaphore k f) :=
  ⟨fun _ => rfl, fun ha => absurd rfl ha, fun _ => rfl, fun _ => rfl, fun _ _ => rfl,
    fun _ _ => rfl, fun _ => rfl⟩

theorem writes_setMailbox (s : Sched) (k : ℕ) (f : Mailbox → Mailbox) (who : ℕ) :
    Writes (some .mailbox) who s (s.setMailbox k f) :=
  ⟨fun _ => rfl, fun _ => rfl, fun ha => absurd rfl ha, fun _ => rfl, fun _ _ => rfl,
    fun _ _ => rfl, fun _ => rfl⟩

theorem writes_setNext (s : Sched) (message next who : ℕ) :
    Writes (some .mailbox) who s (s.setNext message next) :=
  ⟨fun _ => rfl, fun _ => rfl, fun _ => rfl, fun ha => absurd rfl ha, fun _ _ => rfl,
    fun _ _ => rfl, fun x => by
      simp only [Sched.setNext, Function.update_apply]
      split
      · next hx => rw [hx]
      · rfl⟩

/-- The place of a result is written by a service about flags or boxes only. -/
theorem writes_writeOut (s : Sched) (result v : ℕ) (hkind : kind = .event ∨ kind = .mailbox)
    (who : ℕ) : Writes (some kind) who s (s.writeOut result v) := by
  rw [writeOut]
  split
  · exact (Leaves.refl s).writes _ who
  · refine ⟨fun _ => rfl, fun _ => rfl, fun _ => rfl, fun _ => rfl, fun hevent hmailbox => ?_,
      fun _ _ => rfl, fun _ => rfl⟩
    rcases hkind with rfl | rfl
    · exact absurd rfl hevent
    · exact absurd rfl hmailbox

/-- The caller says what it waits for. -/
theorem writes_setThread (s : Sched) (f : Thread → Thread) (about : Option Kind) :
    Writes about s.current s (s.setThread s.current f) :=
  ⟨fun _ => rfl, fun _ => rfl, fun _ => rfl, fun _ => rfl, fun _ _ => rfl,
    fun t ht => by rw [setThread_ne _ _ _ ht], fun _ => rfl⟩

/-- A creation writes what it fills the object with. -/
theorem writes_createObject {q : Except ℤ UInt32 × Pools} {fill : ℕ → Sched → Sched}
    (hfill : ∀ k s, Writes about who s (fill k s)) :
    Writes about who s (s.createObject kind q fill).1 := by
  obtain ⟨id | id, pools⟩ := q
  · exact (Leaves.refl s).writes about who
  · refine Writes.trans ?_ (hfill (slotOf id) _)
    exact ⟨fun _ => rfl, fun _ => rfl, fun _ => rfl, fun _ => rfl, fun _ _ => rfl, fun _ _ => rfl,
      fun _ => rfl⟩

theorem leaves_deleteObject {unknown : ℤ} (h : s.deleteObject interrupt kind unknown id = some r) :
    Leaves s r.1 := by
  rw [Sched.deleteObject] at h
  split at h
  · obtain rfl := Option.some.inj h
    exact .refl s
  · split at h
    · obtain rfl := Option.some.inj h
      exact .refl s
    · next k hk =>
      obtain ⟨s₁, hall, rfl⟩ := Option.map_eq_some_iff.mp h
      have hvacated : Leaves s₁ { s₁ with pools := vacate kind s₁.pools k } :=
        ⟨rfl, rfl, rfl, rfl, rfl, fun _ => rfl⟩
      exact (leaves_wakeAll hall).trans hvacated

/-! ### Flags -/

theorem writes_takeBits (s : Sched) (k result : ℕ) (mode : UInt32) (who : ℕ) :
    Writes (some .event) who s (s.takeBits k result mode) := by
  have hout := writes_writeOut s result (s.events k).bits.toNat (.inl rfl) who
  rw [takeBits]
  split
  · exact hout.trans (writes_setEvent _ k _ who)
  · exact hout

theorem writes_setLoop {n at_ : ℕ} (h : setLoop interrupt k n at_ s = some r) (who : ℕ) :
    Writes (some .event) who s r.1 := by
  induction n generalizing at_ s with
  | zero => cases h
  | succ n ih =>
    rw [setLoop] at h
    dsimp only at h
    split at h
    · obtain rfl := Option.some.inj h
      exact (Leaves.refl s).writes _ who
    · split at h
      · have hwoken := (writes_takeBits s k (s.threads at_).waitOut (s.threads at_).waitMode
          who).trans ((leaves_wake _ at_ kOk interrupt).writes _ who)
        split at h
        · obtain rfl := Option.some.inj h
          exact hwoken
        · exact hwoken.trans (ih h)
      · exact ih h

theorem writes_setEventFlag {bits : UInt32} (h : s.setEventFlag interrupt id bits = some r)
    (who : ℕ) : Writes (some .event) who s r.1 := by
  rw [Sched.setEventFlag] at h
  split at h
  · obtain rfl := Option.some.inj h
    exact (Leaves.refl s).writes _ who
  · split at h
    · obtain rfl := Option.some.inj h
      exact (Leaves.refl s).writes _ who
    · exact (writes_setEvent s _ _ who).trans (writes_setLoop h who)

theorem writes_clearEventFlag (s : Sched) (id keep : UInt32) (who : ℕ) :
    Writes (some .event) who s (s.clearEventFlag id keep).1 := by
  rw [Sched.clearEventFlag]
  split
  · exact (Leaves.refl s).writes _ who
  · dsimp only
    exact writes_setEvent s _ _ who

theorem writes_waitEventFlag {bits mode : UInt32} {result : ℕ} {poll : Bool}
    (h : s.waitEventFlag interrupt id bits mode result poll = some r) :
    Writes (some .event) s.current s r.1 := by
  have hrefl := (Leaves.refl s).writes (some .event) s.current
  rw [Sched.waitEventFlag] at h
  split at h
  · obtain rfl := Option.some.inj h
    exact hrefl
  split at h
  · obtain rfl := Option.some.inj h
    exact hrefl
  split at h
  · obtain rfl := Option.some.inj h
    exact hrefl
  split at h
  · obtain rfl := Option.some.inj h
    exact hrefl
  split at h
  · obtain rfl := Option.some.inj h
    exact hrefl
  split at h
  · obtain rfl := Option.some.inj h
    exact writes_takeBits s _ _ _ _
  split at h
  · obtain rfl := Option.some.inj h
    exact hrefl
  · exact (writes_setThread s _ _).trans ((leaves_blockOn h).writes _ _)

/-! ### Semaphores -/

theorem writes_signalSema (s : Sched) (interrupt : Bool) (id : UInt32) (who : ℕ) :
    Writes (some .semaphore) who s (s.signalSema interrupt id).1 := by
  rw [Sched.signalSema]
  split
  · exact (Leaves.refl s).writes _ who
  · dsimp only
    split
    · exact (leaves_wake s _ kOk interrupt).writes _ who
    · split
      · dsimp only
        exact writes_setSemaphore s _ _ who
      · exact (Leaves.refl s).writes _ who

theorem writes_waitSema (h : s.waitSema interrupt id = some r) (who : ℕ) :
    Writes (some .semaphore) who s r.1 := by
  rw [Sched.waitSema] at h
  split at h
  · obtain rfl := Option.some.inj h
    exact (Leaves.refl s).writes _ who
  split at h
  · obtain rfl := Option.some.inj h
    exact (Leaves.refl s).writes _ who
  split at h
  · obtain rfl := Option.some.inj h
    dsimp only
    exact writes_setSemaphore s _ _ who
  · exact (leaves_blockOn h).writes _ who

theorem writes_pollSema (s : Sched) (id : UInt32) (who : ℕ) :
    Writes (some .semaphore) who s (s.pollSema id).1 := by
  rw [Sched.pollSema]
  split
  · exact (Leaves.refl s).writes _ who
  · split
    · dsimp only
      exact writes_setSemaphore s _ _ who
    · exact (Leaves.refl s).writes _ who

/-! ### Mailboxes -/

theorem writes_queueMessage (s : Sched) (k message who : ℕ) :
    Writes (some .mailbox) who s (s.queueMessage k message) := by
  rw [queueMessage]
  dsimp only
  split
  · exact (writes_setNext s _ _ who).trans (writes_setMailbox _ k _ who)
  · split
    · exact ((writes_setNext s _ _ who).trans (writes_setNext _ _ _ who)).trans
        (writes_setMailbox _ k _ who)
    · split
      · exact ((writes_setNext s _ _ who).trans (writes_setNext _ _ _ who)).trans
          (writes_setMailbox _ k _ who)
      · exact (writes_setNext s _ _ who).trans (writes_setNext _ _ _ who)

/-- A message that is taken changes its box and the place it is stored at. -/
theorem writes_takeMessage (s : Sched) (k received who : ℕ) :
    Writes (some .mailbox) who s (s.takeMessage k received).1 := by
  have hdequeue : Writes (some .mailbox) who s (s.dequeueMessage k).2 := by
    rw [dequeueMessage]
    dsimp only
    split
    · exact (writes_setMailbox s k _ who).trans (writes_setMailbox _ k _ who)
    · exact (writes_setNext s _ _ who).trans (writes_setMailbox _ k _ who)
  refine hdequeue.trans ?_
  exact ⟨fun _ => rfl, fun _ => rfl, fun _ => rfl, fun _ => rfl, fun _ ha => absurd rfl ha,
    fun _ _ => rfl, fun _ => rfl⟩

theorem writes_sendMbx (s : Sched) (interrupt iForm : Bool) (id : UInt32) (message who : ℕ) :
    Writes (some .mailbox) who s (s.sendMbx interrupt iForm id message).1 := by
  rw [Sched.sendMbx]
  split
  · exact (Leaves.refl s).writes _ who
  · split
    · exact (Leaves.refl s).writes _ who
    · dsimp only
      split
      · exact (writes_writeOut s _ message (.inr rfl) who).trans
          ((leaves_wake _ _ kOk iForm).writes _ who)
      · dsimp only
        exact (writes_queueMessage s _ message who).trans (writes_setMailbox _ _ _ who)

theorem writes_receiveMbx {received : ℕ} (h : s.receiveMbx interrupt received id = some r) :
    Writes (some .mailbox) s.current s r.1 := by
  rw [Sched.receiveMbx] at h
  split at h
  · obtain rfl := Option.some.inj h
    exact (Leaves.refl s).writes _ _
  split at h
  · obtain rfl := Option.some.inj h
    exact (Leaves.refl s).writes _ _
  split at h
  · obtain rfl := Option.some.inj h
    exact writes_takeMessage s _ _ _
  · exact (writes_setThread s _ _).trans ((leaves_blockOn h).writes _ _)

theorem writes_pollMbx (s : Sched) (received : ℕ) (id : UInt32) (who : ℕ) :
    Writes (some .mailbox) who s (s.pollMbx received id).1 := by
  rw [Sched.pollMbx]
  split
  · exact (Leaves.refl s).writes _ who
  · split
    · exact (Leaves.refl s).writes _ who
    · exact writes_takeMessage s _ _ who

/-- **A call writes only the objects of the kind that it is about.** -/
theorem perform_writes {c : Service} (h : s.perform interrupt c = some r) :
    Writes c.about s.current s r.1 := by
  have hleaves : ∀ {q : Sched × Reply} {about : Option Kind}, some q = some r → Leaves s q.1 →
      Writes about s.current s r.1 := fun hq hleaves => by
    obtain rfl := Option.some.inj hq
    exact hleaves.writes _ _
  cases c with
  | createThread a stack => exact hleaves h (leaves_createThread s interrupt a stack)
  | deleteThread id => exact hleaves h (leaves_deleteThread s interrupt id)
  | startThread id => exact hleaves h (leaves_startThread s interrupt id)
  | exitThread => exact hleaves h (leaves_exitThread s)
  | terminateThread id => exact hleaves h (leaves_terminateThread s id)
  | changeThreadPriority id priority =>
    exact hleaves h (leaves_changeThreadPriority s interrupt id priority)
  | rotateThreadReadyQueue priority =>
    exact hleaves h (leaves_rotateThreadReadyQueue s interrupt priority)
  | releaseWaitThread id => exact hleaves h (leaves_releaseWaitThread s interrupt id)
  | sleepThread => exact hleaves h (leaves_sleepThread s interrupt)
  | wakeupThread id => exact hleaves h (leaves_wakeupThread s interrupt id)
  | cancelWakeupThread id => exact hleaves h (leaves_cancelWakeupThread s id)
  | delayThread added => exact hleaves h (leaves_delayThread s interrupt added)
  | createEventFlag attr bits =>
    obtain rfl := Option.some.inj h
    exact writes_createObject fun k s => writes_setEvent s k _ _
  | deleteEventFlag id => exact (leaves_deleteObject h).writes _ _
  | setEventFlag id bits => exact writes_setEventFlag h _
  | clearEventFlag id keep =>
    obtain rfl := Option.some.inj h
    exact writes_clearEventFlag s id keep _
  | waitEventFlag id bits mode result poll => exact writes_waitEventFlag h
  | createSema attr initial max =>
    obtain rfl := Option.some.inj h
    exact writes_createObject fun k s => writes_setSemaphore s k _ _
  | deleteSema id => exact (leaves_deleteObject h).writes _ _
  | signalSema id =>
    obtain rfl := Option.some.inj h
    exact writes_signalSema s interrupt id _
  | waitSema id => exact writes_waitSema h _
  | pollSema id =>
    obtain rfl := Option.some.inj h
    exact writes_pollSema s id _
  | createMbx attr =>
    obtain rfl := Option.some.inj h
    exact writes_createObject fun k s => writes_setMailbox s k _ _
  | deleteMbx id => exact (leaves_deleteObject h).writes _ _
  | sendMbx iForm id message =>
    obtain rfl := Option.some.inj h
    exact writes_sendMbx s interrupt iForm id message _
  | receiveMbx received id => exact writes_receiveMbx h
  | pollMbx received id =>
    obtain rfl := Option.some.inj h
    exact writes_pollMbx s received id _

end Writes

end PS2Bios.Threadman
