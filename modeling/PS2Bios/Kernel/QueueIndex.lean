import Mathlib.Data.List.Find
import PS2Bios.Kernel.Scheduler

/-!
# The index of the EE kernel's ready queues

`queueOf` is a record's priority, and slot 0x20 writes whatever priority is in the creation block.
A step is `Confined` if it would go the same way with any other words behind the 130 queues, and
leaves those words as they were: it indexes the queues in range. `queues_indexed_in_range` says so
of every step, as long as the priorities in the creation blocks are numbers of queues; a run may
otherwise be as it likes, also one whose queues are no longer consistent.
-/

namespace PS2Bios.Kernel

open Intrusive State

/-- The words of the queues, and behind them others. -/
def overlay (queues r : ℕ → Queue ℕ) : ℕ → Queue ℕ := fun queue =>
  if queue < kQueues then queues queue else r queue

/-- The same state with other words behind the queues. -/
def State.behind (s : State) (r : ℕ → Queue ℕ) : State :=
  { s with readyQueue := overlay s.readyQueue r }

/-- What lies behind the queues makes no difference to a step, and the step leaves it alone. -/
def Confined {α : Type} (f : State → Option (α × State)) (s : State) : Prop :=
  ∀ r, f (s.behind r) = (f s).map fun p => (p.1, p.2.behind r)

/-- Both priorities of the record are numbers of queues. -/
def ThreadRecord.Ranged (t : ThreadRecord) : Prop :=
  t.initialPriority < kQueues ∧ t.currentPriority < kQueues

/-- Every thread's priority is one there is a queue for. -/
def State.Ranged (s : State) : Prop := ∀ id, (s.thread id).Ranged

/-- A step that is confined, and keeps the priorities. -/
structure Stays {α : Type} (f : State → Option (α × State)) (s : State) : Prop where
  confined : Confined f s
  ranged : ∀ p, f s = some p → p.2.Ranged

section Primitives

variable {s : State} {id queue : ℕ} {r : ℕ → Queue ℕ}

/-- A store to a queue of the array goes to the array, whatever lies behind it. -/
theorem overlay_update (queues r : ℕ → Queue ℕ) (hq : queue < kQueues) (q : Queue ℕ) :
    Function.update (overlay queues r) queue q = overlay (Function.update queues queue q) r := by
  funext queue'
  rcases eq_or_ne queue' queue with rfl | hne
  · simp [overlay, hq]
  · simp [overlay, hne]

theorem overlay_apply {queues : ℕ → Queue ℕ} (hq : queue < kQueues) :
    overlay queues r queue = queues queue := if_pos hq

theorem behind_readyQueue (hq : queue < kQueues) :
    (s.behind r).readyQueue queue = s.readyQueue queue := overlay_apply hq

/-! What does not look at the queues commutes with what is behind them. -/

@[simp] theorem behind_thread : (s.behind r).thread = s.thread := rfl
@[simp] theorem behind_semaphore : (s.behind r).semaphore = s.semaphore := rfl
@[simp] theorem behind_frame : (s.behind r).frame = s.frame := rfl
@[simp] theorem behind_currentThread : (s.behind r).currentThread = s.currentThread := rfl
@[simp] theorem behind_current : (s.behind r).current = s.current := rfl
@[simp] theorem behind_validOther : (s.behind r).validOther id ↔ s.validOther id := Iff.rfl
@[simp] theorem behind_allocated : allocated (s.behind r) id ↔ allocated s id := Iff.rfl

@[simp] theorem behind_setThread (f : ThreadRecord → ThreadRecord) :
    (s.behind r).setThread id f = (s.setThread id f).behind r := rfl

@[simp] theorem behind_setSemaphore (f : Semaphore → Semaphore) :
    (s.behind r).setSemaphore id f = (s.setSemaphore id f).behind r := rfl

@[simp] theorem behind_setResumeValue (v : ℕ) :
    (s.behind r).setResumeValue id v = (s.setResumeValue id v).behind r := rfl

@[simp] theorem behind_unlinkWaiter (sema : ℕ) :
    (s.behind r).unlinkWaiter sema id = (s.unlinkWaiter sema id).behind r := rfl

/-- Leaving a wait list does not look behind the queues. -/
@[simp] theorem behind_leaveWaitList :
    (s.behind r).leaveWaitList id = (s.leaveWaitList id).behind r := by
  rw [leaveWaitList, leaveWaitList, behind_thread]
  by_cases hw : (s.thread id).waitType = .onSemaphore ∧ (s.thread id).waitId < kSemaphores
  · rw [if_pos hw, if_pos hw]
    rfl
  · rw [if_neg hw, if_neg hw]
    rfl

@[simp] theorem behind_resetToDormant :
    (s.behind r).resetToDormant id = (s.resetToDormant id).behind r := rfl

/-! ### The priorities -/

theorem ranged_iff_of_thread {s' : State} (h : s'.thread = s.thread) : s'.Ranged ↔ s.Ranged := by
  rw [State.Ranged, State.Ranged, h]

/-- A record may be written so that its priorities stay numbers of queues. -/
theorem State.Ranged.setThread (h : s.Ranged) (id : ℕ) (f : ThreadRecord → ThreadRecord)
    (hf : (s.thread id).Ranged → (f (s.thread id)).Ranged) : (s.setThread id f).Ranged := by
  intro id'
  rw [setThread_thread]
  split
  · next heq => exact heq ▸ hf (h id)
  · exact h id'

theorem State.Ranged.queueOf_lt (h : s.Ranged) (id : ℕ) : s.queueOf id < kQueues := by
  rw [queueOf]
  split
  · decide
  · exact (h id).2

theorem State.Ranged.leaveWaitList (h : s.Ranged) : (s.leaveWaitList id).Ranged := by
  rw [State.leaveWaitList]
  refine State.Ranged.setThread ?_ _ _ fun ht => ht
  split
  · exact h
  · exact h

theorem State.Ranged.makeReady (h : s.Ranged) : (s.makeReady id).Ranged :=
  (h.setThread _ _ fun ht => ht : (s.setThread id fun t => { t with state := .ready }).Ranged)

theorem State.Ranged.resetToDormant (h : s.Ranged) (id : ℕ) : (s.resetToDormant id).Ranged := by
  have hreset : (s.setThread id fun t =>
      { t with
        state := .dormant
        resumePc := t.entry
        currentPriority := t.initialPriority
        waitType := .notWaiting
        wakeupCount := 0 }).Ranged := h.setThread _ _ fun ht => ⟨ht.1, ht.1⟩
  have hprime := fun top => hreset.setThread id (fun t => { t with context := top }) fun ht => ht
  exact (ranged_iff_of_thread rfl).mpr (hprime _)

theorem State.Ranged.release (h : s.Ranged) (id : ℕ) : (s.release id).Ranged :=
  (ranged_iff_of_thread rfl).mpr
    (h.setThread id (fun t => { t with state := .free }) fun ht => ht)

theorem State.Ranged.resume (h : s.Ranged) : (s.resume id).2.Ranged :=
  (ranged_iff_of_thread rfl).mpr
    (h.setThread id (fun t => { t with state := .run }) fun ht => ht)

theorem State.Ranged.saveCaller (h : s.Ranged) : s.saveCaller.Ranged :=
  (ranged_iff_of_thread rfl).mpr (h.setThread s.currentThread (fun t =>
    { t with resumePc := s.epc, context := sub32 (s.syscallContext kSlotSp) kFramePush })
    fun ht => ht)

/-! ### The queue operations -/

/-- A thread whose priority is in range is linked into a queue of the array. -/
theorem linkReady_behind (h : s.Ranged) :
    (s.behind r).linkReady id = (s.linkReady id).behind r := by
  have hq := h.queueOf_lt id
  have hqueue : (s.behind r).readyQueue (s.queueOf id) = s.readyQueue (s.queueOf id) :=
    behind_readyQueue hq
  have hupdate := overlay_update s.readyQueue r hq
  rw [linkReady, linkReady]
  simp only [State.queueOf, behind_thread] at hqueue hupdate ⊢
  simp only [hqueue]
  simp only [State.behind, hupdate]
  rfl

/-- A thread whose priority is in range is taken off a queue of the array. -/
theorem takeOffReadyQueue_behind (h : s.Ranged) :
    (s.behind r).takeOffReadyQueue id = (s.takeOffReadyQueue id).behind r := by
  have hq := h.queueOf_lt id
  have hqueue : (s.behind r).readyQueue (s.queueOf id) = s.readyQueue (s.queueOf id) :=
    behind_readyQueue hq
  have hupdate := overlay_update s.readyQueue r hq
  rw [takeOffReadyQueue, takeOffReadyQueue]
  simp only [State.queueOf, behind_thread] at hqueue hupdate ⊢
  simp only [hqueue]
  simp only [State.behind, hupdate]

theorem makeReady_behind (h : s.Ranged) :
    (s.behind r).makeReady id = (s.makeReady id).behind r :=
  linkReady_behind (s := s.setThread id fun t => { t with state := .ready })
    (h.setThread _ _ fun ht => ht)

/-- A thread whose priority is in range is detached without looking behind the queues. -/
theorem detach_behind (h : s.Ranged) : (s.behind r).detach id = (s.detach id).behind r := by
  rw [detach, detach, behind_thread]
  split
  · exact takeOffReadyQueue_behind h
  · exact takeOffReadyQueue_behind h
  · exact behind_leaveWaitList
  · exact behind_leaveWaitList
  · rfl

theorem State.Ranged.detach (h : s.Ranged) : (s.detach id).Ranged := by
  rw [State.detach]
  split
  · exact h
  · exact h
  · exact h.leaveWaitList
  · exact h.leaveWaitList
  · exact h

/-- The scan ends behind the last queue. -/
theorem pickNext_behind :
    pickNext (s.behind r) =
      match (List.range' s.lowestReady (kQueues - s.lowestReady)).find? fun queue =>
          ((s.behind r).readyQueue queue).head ≠ kNone with
      | some queue => some (((s.behind r).readyQueue queue).head,
          { s.behind r with lowestReady := queue })
      | none => none := rfl

/-- The search for the next thread stays in the array. -/
theorem pickNext_confined : Confined pickNext s := by
  intro r
  have hlt : ∀ queue ∈ List.range' s.lowestReady (kQueues - s.lowestReady), queue < kQueues := by
    intro queue hqueue
    have hrange := List.mem_range'_1.mp hqueue
    omega
  have hfind : ((List.range' s.lowestReady (kQueues - s.lowestReady)).find? fun queue =>
      ((s.behind r).readyQueue queue).head ≠ kNone) =
      (List.range' s.lowestReady (kQueues - s.lowestReady)).find? fun queue =>
        (s.readyQueue queue).head ≠ kNone :=
    List.find?_congr fun queue hqueue =>
      decide_eq_decide.mpr (by rw [behind_readyQueue (hlt queue hqueue)])
  rw [pickNext_behind, hfind, pickNext]
  cases hsome : (List.range' s.lowestReady (kQueues - s.lowestReady)).find? fun queue =>
      (s.readyQueue queue).head ≠ kNone with
  | none => rfl
  | some queue =>
    dsimp only
    rw [behind_readyQueue (hlt queue (List.mem_of_find?_eq_some hsome))]
    rfl

theorem pickNext_thread {p : ℕ × State} (hp : s.pickNext = some p) : p.2.thread = s.thread := by
  rw [pickNext] at hp
  split at hp <;> cases hp
  rfl

/-! ### Steps that stay -/

/-- Two steps that stay in the array do so one after the other. -/
theorem Stays.bind {α β : Type} {f : State → Option (α × State)}
    {g : α → State → Option (β × State)} (hf : Stays f s)
    (hg : ∀ p, f s = some p → p.2.Ranged → Stays (g p.1) p.2) :
    Stays (fun s => (f s).bind fun p => g p.1 p.2) s where
  confined r := by
    dsimp only
    rw [hf.confined r]
    cases hs : f s with
    | none => rfl
    | some p => exact (hg p hs (hf.ranged p hs)).confined r
  ranged q hq := by
    obtain ⟨p, hp, hg'⟩ := Option.bind_eq_some_iff.mp hq
    exact (hg p hp (hf.ranged p hp)).ranged q hg'

/-- A step that stays in the array does so with something else done at its end. -/
theorem Stays.map {α β : Type} {f : State → Option (α × State)} {g : α × State → β × State}
    (hf : Stays f s) (hg : ∀ a t r, g (a, t.behind r) = ((g (a, t)).1, (g (a, t)).2.behind r))
    (hranged : ∀ a t, t.Ranged → (g (a, t)).2.Ranged) : Stays (fun s => (f s).map g) s where
  confined r := by
    dsimp only
    rw [hf.confined r]
    cases f s with
    | none => rfl
    | some p => exact congrArg some (hg p.1 p.2 r)
  ranged q hq := by
    obtain ⟨p, hp, rfl⟩ := Option.map_eq_some_iff.mp hq
    exact hranged p.1 p.2 (hf.ranged p hp)

/-- A step is read in front of another one that commutes. -/
theorem Stays.comp {α : Type} {f : State → Option (α × State)} {g : State → State}
    (hg : ∀ r, g (s.behind r) = (g s).behind r) (hf : Stays f (g s)) :
    Stays (fun s => f (g s)) s where
  confined r := by
    dsimp only
    rw [hg r]
    exact hf.confined r
  ranged := hf.ranged

theorem pickNext_stays (h : s.Ranged) : Stays pickNext s where
  confined := pickNext_confined
  ranged _ hp := (ranged_iff_of_thread (pickNext_thread hp)).mpr h

theorem resumeNext_stays (h : s.Ranged) : Stays resumeNext s :=
  (pickNext_stays h).map (fun _ _ _ => rfl) fun _ _ ht => ht.resume

theorem behind_parked (v : ℕ) : (s.behind r).parked v = (s.parked v).behind r := rfl

theorem State.Ranged.parked (h : s.Ranged) (v : ℕ) : (s.parked v).Ranged :=
  State.Ranged.setThread (s := s.saveCaller.setResumeValue s.currentThread v)
    ((ranged_iff_of_thread rfl).mpr h.saveCaller) _ _ fun ht => ht

/-- Giving the processor up stays in the array. -/
theorem yield_stays (h : s.Ranged) (v : ℕ) : Stays (fun s => s.yield v) s where
  confined r := by
    dsimp only
    rw [yield_eq, yield_eq, behind_parked]
    exact (resumeNext_stays (h.parked v)).confined r
  ranged := (resumeNext_stays (h.parked v)).ranged

/-- A call that may give the processor up at its end stays in the array when its own part does. -/
theorem thenYield_stays {f : Direct} (hf : Stays f s) : Stays (thenYield f) s := by
  refine Stays.bind (g := fun a s => if a < 0 then some (toWord a, s) else s.yield (toWord a)) hf
    fun p _ hp => ?_
  by_cases hneg : p.1 < 0
  · simp only [if_pos hneg]
    exact ⟨fun _ => rfl, fun q hq => by cases hq; exact hp⟩
  · simp only [if_neg hneg]
    exact yield_stays hp _

/-! ### The direct forms -/

/-- A step that does the same whatever lies behind the queues stays in the array. -/
theorem Stays.of_some {α : Type} {f : State → Option (α × State)} {a : α} {t : State}
    (hs : f s = some (a, t)) (hb : ∀ r, f (s.behind r) = some (a, t.behind r)) (ht : t.Ranged) :
    Stays f s where
  confined r := by
    rw [hb r, hs]
    rfl
  ranged p hp := by
    cases hs.symm.trans hp
    exact ht

/-- A thread that is created in range stays in the array of queues. -/
theorem createThread_stays (h : s.Ranged) {p : ThreadParam}
    (hp : p.initialPriority % 2 ^ 16 < kQueues) : Stays (sysCreateThread p) s := by
  by_cases hfree : s.freeThread = kNone
  · exact .of_some (if_pos hfree) (fun _ => if_pos hfree) h
  · refine .of_some (if_neg hfree) (fun _ => if_neg hfree) (State.Ranged.resetToDormant ?_ _)
    exact State.Ranged.setThread ((ranged_iff_of_thread rfl).mpr h) _ _ fun _ => ⟨hp, hp⟩

theorem deleteThread_stays (h : s.Ranged) : Stays (sysDeleteThread id) s := by
  by_cases hno : ¬s.validOther id ∨ (s.thread id).state ≠ .dormant
  · exact .of_some (if_pos hno) (fun _ => if_pos hno) h
  · exact .of_some (if_neg hno) (fun _ => if_neg hno) (h.release id)

theorem terminateThread_stays (h : s.Ranged) : Stays (terminateThread id) s := by
  by_cases hid : id < 1 ∨ kThreads ≤ id
  · exact .of_some (if_pos hid) (fun _ => if_pos hid) h
  by_cases hst : (s.thread id).state = .free ∨ (s.thread id).state = .dormant
  · exact .of_some ((if_neg hid).trans (if_pos hst)) (fun _ => (if_neg hid).trans (if_pos hst)) h
  · refine .of_some ((if_neg hid).trans (if_neg hst)) (fun r => ?_) (h.detach.resetToDormant id)
    refine ((if_neg hid).trans (if_neg hst)).trans ?_
    rw [detach_behind h, behind_resetToDormant]

theorem changeThreadPriority_stays (h : s.Ranged) (priority : ℕ) :
    Stays (changeThreadPriority id priority) s := by
  let i := if id = 0 then s.currentThread else id
  by_cases hid : kThreads ≤ i ∨ 128 ≤ priority
  · exact .of_some (if_pos hid) (fun _ => if_pos hid) h
  by_cases hst : (s.thread i).state = .free ∨ (s.thread i).state = .dormant
  · exact .of_some ((if_neg hid).trans (if_pos hst)) (fun _ => (if_neg hid).trans (if_pos hst)) h
  have hpriority : priority < kQueues := by
    unfold kQueues kPriorities
    omega
  have hset {u : State} (hu : u.Ranged) :
      (u.setThread i fun t => { t with currentPriority := priority }).Ranged :=
    hu.setThread _ _ fun ht => ⟨ht.1, hpriority⟩
  by_cases hrun : (s.thread i).state = .run ∨ (s.thread i).state = .ready
  · refine .of_some (((if_neg hid).trans (if_neg hst)).trans (if_pos hrun)) (fun r => ?_)
      (hset (u := s.takeOffReadyQueue i) h)
    refine (((if_neg hid).trans (if_neg hst)).trans (if_pos hrun)).trans ?_
    have htake : (s.behind r).takeOffReadyQueue i = (s.takeOffReadyQueue i).behind r :=
      takeOffReadyQueue_behind h
    have hlink := (linkReady_behind (hset (u := s.takeOffReadyQueue i) h) :
      (State.behind _ r).linkReady i = _)
    rw [← behind_setThread, ← htake] at hlink
    exact congrArg (fun u => some (int16 (s.thread i).currentPriority, u)) hlink
  · exact .of_some (((if_neg hid).trans (if_neg hst)).trans (if_neg hrun))
      (fun _ => ((if_neg hid).trans (if_neg hst)).trans (if_neg hrun)) (hset h)

theorem rotateReadyQueue_stays (h : s.Ranged) (priority : ℕ) :
    Stays (rotateReadyQueue priority) s := by
  by_cases hlarge : 128 ≤ priority
  · exact .of_some (if_pos hlarge) (fun _ => if_pos hlarge) h
  have hq : priority < kQueues := by
    unfold kQueues kPriorities
    omega
  have hpop (r : ℕ → Queue ℕ) :
      popFront kNone (s.behind r).links ((s.behind r).readyQueue priority) =
        popFront kNone s.links (s.readyQueue priority) :=
    congrArg (popFront kNone s.links) (behind_readyQueue hq)
  by_cases hhead : (popFront kNone s.links (s.readyQueue priority)).1 ≠ kNone
  · refine .of_some ((if_neg hlarge).trans (if_pos hhead)) (fun r => ?_)
      ((ranged_iff_of_thread rfl).mpr h)
    have hhead' :
        (popFront kNone (s.behind r).links ((s.behind r).readyQueue priority)).1 ≠ kNone :=
      hpop r ▸ hhead
    refine ((if_neg hlarge).trans (if_pos hhead')).trans ?_
    rw [hpop r]
    dsimp only [State.behind]
    rw [overlay_update _ _ hq, overlay_apply hq, overlay_update _ _ hq]
  · refine .of_some ((if_neg hlarge).trans (if_neg hhead)) (fun r => ?_)
      ((ranged_iff_of_thread rfl).mpr h)
    have hhead' :
        ¬ (popFront kNone (s.behind r).links ((s.behind r).readyQueue priority)).1 ≠ kNone :=
      hpop r ▸ hhead
    refine ((if_neg hlarge).trans (if_neg hhead')).trans ?_
    rw [hpop r]
    dsimp only [State.behind]
    rw [overlay_update _ _ hq]

theorem releaseWaitThread_stays (h : s.Ranged) : Stays (releaseWaitThread id) s := by
  by_cases hid : id < 1 ∨ kThreads ≤ id
  · exact .of_some (if_pos hid) (fun _ => if_pos hid) h
  have hleft {u : State} (hu : u.Ranged) (v : ℕ) :
      ((u.leaveWaitList id).setResumeValue id v).Ranged :=
    (ranged_iff_of_thread rfl).mpr hu.leaveWaitList
  cases hst : (s.thread id).state with
  | wait =>
    refine .of_some (a := id) (by rw [releaseWaitThread, if_neg hid, hst]) (fun r => ?_)
      (hleft h (toWord (-1))).makeReady
    rw [releaseWaitThread, if_neg hid, behind_thread, hst]
    dsimp only
    rw [behind_leaveWaitList, behind_setResumeValue, makeReady_behind (hleft h _)]
  | waitSuspend =>
    refine .of_some (a := id) (by rw [releaseWaitThread, if_neg hid, hst]) (fun r => ?_)
      ((hleft h (toWord (-1))).setThread id (fun t => { t with state := .suspend }) fun ht => ht)
    rw [releaseWaitThread, if_neg hid, behind_thread, hst]
    dsimp only
    rw [behind_leaveWaitList]
    rfl
  | _ =>
    refine .of_some (by rw [releaseWaitThread, if_neg hid, hst]) (fun r => ?_) h
    rw [releaseWaitThread, if_neg hid, behind_thread, hst]

theorem wakeupThread_stays (h : s.Ranged) : Stays (wakeupThread id) s := by
  by_cases hid : kThreads ≤ id
  · exact .of_some (if_pos hid) (fun _ => if_pos hid) h
  have hcount : (countWakeup s id).Ranged := h.setThread _ _ fun ht => ht
  have hwoken : (s.setThread id fun t => { t with waitType := .notWaiting }).Ranged :=
    h.setThread _ _ fun ht => ht
  cases hst : (s.thread id).state with
  | wait =>
    by_cases hsleep : (s.thread id).waitType = .sleeping
    · refine .of_some (a := id) (by rw [wakeupThread, if_neg hid, hst]; exact if_pos hsleep)
        (fun r => ?_) hwoken.makeReady
      rw [wakeupThread, if_neg hid, behind_thread, hst]
      refine (if_pos hsleep).trans ?_
      rw [behind_setThread, makeReady_behind hwoken]
    · refine .of_some (a := id) (by rw [wakeupThread, if_neg hid, hst]; exact if_neg hsleep)
        (fun r => ?_) hcount
      rw [wakeupThread, if_neg hid, behind_thread, hst]
      exact if_neg hsleep
  | waitSuspend =>
    by_cases hsleep : (s.thread id).waitType = .sleeping
    · refine .of_some (a := id) (by rw [wakeupThread, if_neg hid, hst]; exact if_pos hsleep)
        (fun r => ?_) (h.setThread _ _ fun ht => ht)
      rw [wakeupThread, if_neg hid, behind_thread, hst]
      exact if_pos hsleep
    · refine .of_some (a := id) (by rw [wakeupThread, if_neg hid, hst]; exact if_neg hsleep)
        (fun r => ?_) hcount
      rw [wakeupThread, if_neg hid, behind_thread, hst]
      exact if_neg hsleep
  | ready | suspend =>
    refine .of_some (a := id) (by rw [wakeupThread, if_neg hid, hst]) (fun r => ?_) hcount
    rw [wakeupThread, if_neg hid, behind_thread, hst]
    rfl
  | _ =>
    refine .of_some (by rw [wakeupThread, if_neg hid, hst]) (fun r => ?_) h
    rw [wakeupThread, if_neg hid, behind_thread, hst]

theorem suspendThread_stays (h : s.Ranged) : Stays (sysSuspendThread id) s := by
  by_cases hid : id < 1 ∨ kThreads ≤ id
  · exact .of_some (if_pos hid) (fun _ => if_pos hid) h
  cases hst : (s.thread id).state with
  | run | ready =>
    refine .of_some (a := id) (by rw [sysSuspendThread, if_neg hid, hst]) (fun r => ?_)
      (State.Ranged.setThread (s := s.takeOffReadyQueue id) h id _ fun ht => ht)
    rw [sysSuspendThread, if_neg hid, behind_thread, hst]
    dsimp only
    rw [takeOffReadyQueue_behind h]
    rfl
  | wait =>
    refine .of_some (a := id) (by rw [sysSuspendThread, if_neg hid, hst]) (fun r => ?_)
      (h.setThread id _ fun ht => ht)
    rw [sysSuspendThread, if_neg hid, behind_thread, hst]
    rfl
  | _ =>
    refine .of_some (by rw [sysSuspendThread, if_neg hid, hst]) (fun r => ?_) h
    rw [sysSuspendThread, if_neg hid, behind_thread, hst]

theorem resumeThread_stays (h : s.Ranged) : Stays (resumeThread id) s := by
  by_cases hid : ¬s.validOther id
  · exact .of_some (if_pos hid) (fun _ => if_pos hid) h
  cases hst : (s.thread id).state with
  | suspend =>
    refine .of_some (a := id) (by rw [resumeThread, if_neg hid, hst]) (fun r => ?_) h.makeReady
    refine (if_neg hid).trans ?_
    rw [behind_thread, hst]
    dsimp only
    rw [makeReady_behind h]
  | waitSuspend =>
    refine .of_some (a := id) (by rw [resumeThread, if_neg hid, hst]) (fun r => ?_)
      (h.setThread id _ fun ht => ht)
    refine (if_neg hid).trans ?_
    rw [behind_thread, hst]
    rfl
  | _ =>
    refine .of_some (by rw [resumeThread, if_neg hid, hst]) (fun r => ?_) h
    refine (if_neg hid).trans ?_
    rw [behind_thread, hst]

theorem cancelWakeupThread_stays (h : s.Ranged) : Stays (sysCancelWakeupThread id) s := by
  by_cases hid : kThreads ≤ id
  · exact .of_some (if_pos hid) (fun _ => if_pos hid) h
  · exact .of_some (if_neg hid) (fun _ => if_neg hid) (h.setThread id _ fun ht => ht)

theorem createSema_stays (h : s.Ranged) (p : SemaParam) : Stays (sysCreateSema p) s := by
  by_cases hfree : s.freeSemaphore = kNone
  · exact .of_some (if_pos hfree) (fun _ => if_pos hfree) h
  by_cases hcount : int32 p.initCount < 0
  · exact .of_some ((if_neg hfree).trans (if_pos hcount))
      (fun _ => (if_neg hfree).trans (if_pos hcount)) h
  · exact .of_some ((if_neg hfree).trans (if_neg hcount))
      (fun _ => (if_neg hfree).trans (if_neg hcount)) ((ranged_iff_of_thread rfl).mpr h)

theorem pollSema_stays (h : s.Ranged) : Stays (sysPollSema id) s := by
  by_cases hno : ¬allocated s id ∨ (s.semaphore id).count ≤ 0
  · exact .of_some (if_pos hno) (fun _ => if_pos hno) h
  · exact .of_some (if_neg hno) (fun _ => if_neg hno) ((ranged_iff_of_thread rfl).mpr h)

/-- A thread that has left the wait queue goes on as its state has it. -/
theorem roused_behind (h : s.Ranged) (id : ℕ) :
    (match (s.thread id).state with
      | .wait => (s.behind r).makeReady id
      | .waitSuspend => (s.behind r).setThread id fun t => { t with state := .suspend }
      | _ => s.behind r) =
      (match (s.thread id).state with
      | .wait => s.makeReady id
      | .waitSuspend => s.setThread id fun t => { t with state := .suspend }
      | _ => s).behind r ∧
      (match (s.thread id).state with
      | .wait => s.makeReady id
      | .waitSuspend => s.setThread id fun t => { t with state := .suspend }
      | _ => s).Ranged := by
  cases (s.thread id).state with
  | wait => exact ⟨makeReady_behind h, h.makeReady⟩
  | waitSuspend => exact ⟨rfl, h.setThread id _ fun ht => ht⟩
  | _ => exact ⟨rfl, h⟩

theorem wakeWaiter_behind (h : s.Ranged) (sema id : ℕ) :
    wakeWaiter (s.behind r) sema id = (wakeWaiter s sema id).behind r ∧
      (wakeWaiter s sema id).Ranged :=
  roused_behind (State.Ranged.setThread (s := s.unlinkWaiter sema id) h id
    (fun t => { t with waitType := .notWaiting }) fun ht => ht) id

/-- Every waiter that is handed back stays in the queues. -/
theorem releaseWaiters_behind (sema n : ℕ) (h : s.Ranged) :
    releaseWaiters sema n (s.behind r) = (releaseWaiters sema n s).map (·.behind r) ∧
      ∀ t, releaseWaiters sema n s = some t → t.Ranged := by
  induction n generalizing s with
  | zero =>
    rw [releaseWaiters, releaseWaiters, behind_semaphore]
    split
    · exact ⟨rfl, fun t ht => by cases ht; exact h⟩
    · exact ⟨rfl, fun t ht => by cases ht⟩
  | succ n ih =>
    rw [releaseWaiters, releaseWaiters, behind_semaphore]
    split
    · exact ⟨rfl, fun t ht => by cases ht; exact h⟩
    · have hreply : (s.setResumeValue (s.semaphore sema).waitHead (toWord (-1))).Ranged :=
        (ranged_iff_of_thread rfl).mpr h
      obtain ⟨hbehind, hranged⟩ := wakeWaiter_behind (r := r) hreply sema
        (s.semaphore sema).waitHead
      rw [behind_setResumeValue, hbehind]
      exact ih hranged

theorem deleteSema_stays (h : s.Ranged) : Stays (deleteSema id) s := by
  by_cases hno : ¬allocated s id
  · exact .of_some (if_pos hno) (fun _ => if_pos hno) h
  refine ⟨fun r => ?_, fun p hp => ?_⟩
  · refine (if_neg hno).trans ?_
    rw [(releaseWaiters_behind id kThreads h).1, deleteSema, if_neg hno]
    cases releaseWaiters id kThreads s with
    | none => rfl
    | some t => rfl
  · obtain ⟨t, ht, rfl⟩ := Option.map_eq_some_iff.mp ((if_neg hno).symm.trans hp)
    exact (ranged_iff_of_thread rfl).mpr
      ((releaseWaiters_behind (r := s.readyQueue) id kThreads h).2 t ht)

theorem signalSema_stays (h : s.Ranged) : Stays (signalSema id) s := by
  by_cases hno : ¬allocated s id
  · exact .of_some (if_pos hno) (fun _ => if_pos hno) h
  by_cases hhead : (s.semaphore id).waitHead = kNone
  · exact .of_some ((if_neg hno).trans (if_pos hhead))
      (fun _ => (if_neg hno).trans (if_pos hhead)) ((ranged_iff_of_thread rfl).mpr h)
  · have hreply : (s.setResumeValue (s.semaphore id).waitHead id).Ranged :=
      (ranged_iff_of_thread rfl).mpr h
    refine .of_some ((if_neg hno).trans (if_neg hhead)) (fun r => ?_)
      (wakeWaiter_behind (r := s.readyQueue) hreply id _).2
    refine ((if_neg hno).trans (if_neg hhead)).trans ?_
    rw [behind_semaphore]
    dsimp only
    rw [behind_setResumeValue, (wakeWaiter_behind hreply id _).1]

/-- The creation block, if the call has one, has a priority that is the number of a queue. -/
def DirectCall.ranged (c : DirectCall) : Prop := ∀ priority ∈ c.newPriority, priority < kQueues

instance : DecidablePred DirectCall.ranged := fun c =>
  inferInstanceAs (Decidable (∀ priority ∈ c.newPriority, priority < kQueues))

/-- Each call that answers at once stays in the array. -/
theorem DirectCall.stays (h : s.Ranged) {c : DirectCall} (hc : c.ranged) : Stays c.run s := by
  cases c with
  | createThread p => exact createThread_stays h (hc _ rfl)
  | deleteThread id => exact deleteThread_stays h
  | terminateThread id => exact terminateThread_stays h
  | changeThreadPriority id priority => exact changeThreadPriority_stays h priority
  | rotateReadyQueue priority => exact rotateReadyQueue_stays h priority
  | releaseWaitThread id => exact releaseWaitThread_stays h
  | getThreadId => exact .of_some rfl (fun _ => rfl) h
  | referThreadStatus id => exact .of_some rfl (fun _ => rfl) h
  | wakeupThread id => exact wakeupThread_stays h
  | cancelWakeupThread id => exact cancelWakeupThread_stays h
  | suspendThread id => exact suspendThread_stays h
  | resumeThread id => exact resumeThread_stays h
  | createSema p => exact createSema_stays h p
  | deleteSema id => exact deleteSema_stays h
  | signalSema id => exact signalSema_stays h
  | pollSema id => exact pollSema_stays h
  | referSemaStatus id => exact .of_some rfl (fun _ => rfl) h

/-! ### The calls of the running thread -/

/-- Blocking the caller stays in the array. -/
theorem block_stays (h : s.Ranged) (type : WaitType) (waitId answer : ℕ) :
    Stays (fun s => s.block type waitId answer) s := by
  have hsaved : (s.saveCaller.setResumeValue s.currentThread answer).Ranged :=
    (ranged_iff_of_thread rfl).mpr h.saveCaller
  have hblocked : (s.blocked type waitId answer).Ranged :=
    State.Ranged.setThread (s := (s.saveCaller.setResumeValue s.currentThread
      answer).takeOffReadyQueue s.currentThread) hsaved _ _ fun ht => ht
  have hbehind (r : ℕ → Queue ℕ) :
      (s.behind r).blocked type waitId answer = (s.blocked type waitId answer).behind r :=
    congrArg (fun u => u.setThread s.currentThread fun t =>
      { t with state := .wait, waitType := type, waitId := waitId })
      (takeOffReadyQueue_behind hsaved)
  refine ⟨fun r => ?_, (resumeNext_stays hblocked).ranged⟩
  rw [block_eq, block_eq, hbehind r]
  exact (resumeNext_stays hblocked).confined r

theorem startThread_stays (h : s.Ranged) (arg : ℕ) : Stays (sysStartThread id arg) s := by
  by_cases hno : ¬s.validOther id ∨ (s.thread id).state ≠ .dormant
  · exact .of_some (if_pos hno) (fun _ => if_pos hno) h
  let u := { s with
    frame := Function.update s.frame id (Function.update (s.frame id) kSlotA0 arg) }.setThread id
      fun t => { t with startArg := arg, resumePc := t.entry }
  have hu : u.Ranged := (ranged_iff_of_thread rfl).mpr
    (h.setThread id (fun t => { t with startArg := arg, resumePc := t.entry }) fun ht => ht)
  have hyield := yield_stays hu.makeReady (s := u.makeReady id) id
  refine ⟨fun r => ?_, fun p hp => hyield.ranged p ((if_neg hno).symm.trans hp)⟩
  have hrun : sysStartThread id arg (s.behind r) = ((u.behind r).makeReady id).yield id :=
    if_neg hno
  have hrun' : sysStartThread id arg s = (u.makeReady id).yield id := if_neg hno
  rw [hrun, hrun', makeReady_behind hu]
  exact hyield.confined r

theorem exitThread_stays (h : s.Ranged) : Stays sysExitThread s := by
  have hleft : (s.takeOffReadyQueue s.currentThread).Ranged := h
  have hnext := resumeNext_stays (hleft.resetToDormant s.currentThread)
  refine ⟨fun r => ?_, hnext.ranged⟩
  rw [sysExitThread, sysExitThread, behind_currentThread, takeOffReadyQueue_behind h,
    behind_resetToDormant]
  exact hnext.confined r

theorem exitDeleteThread_stays (h : s.Ranged) : Stays sysExitDeleteThread s := by
  have hleft : (s.takeOffReadyQueue s.currentThread).Ranged := h
  have hnext := resumeNext_stays (hleft.release s.currentThread)
  refine ⟨fun r => ?_, hnext.ranged⟩
  rw [sysExitDeleteThread, sysExitDeleteThread, behind_currentThread, takeOffReadyQueue_behind h]
  exact hnext.confined r

theorem sysTerminateThread_stays (h : s.Ranged) : Stays (sysTerminateThread id) s := by
  refine Stays.bind (g := fun a s => if a < 0 then some (toWord a, s)
    else if id = s.currentThread then s.resumeNext else s.yield (toWord a))
    (terminateThread_stays h) fun p _ hp => ?_
  by_cases hneg : p.1 < 0
  · simp only [if_pos hneg]
    exact .of_some rfl (fun _ => rfl) hp
  by_cases hself : id = p.2.currentThread
  · refine ⟨fun r => ?_, fun q hq => ?_⟩
    · exact ((if_neg hneg).trans (if_pos hself)).trans (((resumeNext_stays hp).confined r).trans
        (congrArg _ ((if_neg hneg).trans (if_pos hself)).symm))
    · exact (resumeNext_stays hp).ranged q (((if_neg hneg).trans (if_pos hself)).symm.trans hq)
  · refine ⟨fun r => ?_, fun q hq => ?_⟩
    · exact ((if_neg hneg).trans (if_neg hself)).trans (((yield_stays hp _).confined r).trans
        (congrArg _ ((if_neg hneg).trans (if_neg hself)).symm))
    · exact (yield_stays hp _).ranged q (((if_neg hneg).trans (if_neg hself)).symm.trans hq)

theorem sleepThread_stays (h : s.Ranged) : Stays sysSleepThread s := by
  by_cases hcounted : 0 < s.current.wakeupCount
  · exact .of_some (if_pos hcounted) (fun _ => if_pos hcounted) (h.setThread _ _ fun ht => ht)
  · have hblock := block_stays h .sleeping 0 s.currentThread
    exact ⟨fun r => (if_neg hcounted).trans ((hblock.confined r).trans
      (congrArg _ (if_neg hcounted).symm)),
      fun p hp => hblock.ranged p ((if_neg hcounted).symm.trans hp)⟩

theorem waitSema_stays (h : s.Ranged) : Stays (sysWaitSema id) s := by
  by_cases hno : ¬allocated s id
  · exact .of_some (if_pos hno) (fun _ => if_pos hno) h
  by_cases hcount : 0 < (s.semaphore id).count
  · exact .of_some ((if_neg hno).trans (if_pos hcount))
      (fun _ => (if_neg hno).trans (if_pos hcount)) ((ranged_iff_of_thread rfl).mpr h)
  let q := enqueue kNone s.links ⟨(s.semaphore id).waitHead, (s.semaphore id).waitTail⟩
    s.currentThread
  let u := { s with links := q.1 }.setSemaphore id fun m =>
    { m with waitHead := q.2.head, waitTail := q.2.tail, waitCount := add32 m.waitCount 1 }
  have hblock := block_stays (s := u) h .onSemaphore id id
  exact ⟨fun r => ((if_neg hno).trans (if_neg hcount)).trans ((hblock.confined r).trans
    (congrArg _ ((if_neg hno).trans (if_neg hcount)).symm)),
    fun p hp => hblock.ranged p (((if_neg hno).trans (if_neg hcount)).symm.trans hp)⟩

/-- The direct form of the call, if it has one, is a `DirectCall.ranged`. -/
def Call.ranged (c : Call) : Prop := ∀ d ∈ c.directForm, d.ranged

/-- Each call stays in the array, when the priorities it names are in range. -/
theorem Call.stays (h : s.Ranged) {c : Call} (hc : c.ranged) : Stays c.run s := by
  cases hyields : c.yielding with
  | some d =>
    rw [Call.run_of_yielding hyields]
    exact thenYield_stays (DirectCall.stays h (hc d (Call.directForm_of_yielding hyields)))
  | none =>
    cases c with
    | direct c =>
      exact (DirectCall.stays h (hc c rfl)).map (fun _ _ _ => rfl) fun _ _ ht => ht
    | startThread id arg => exact startThread_stays h arg
    | exitThread => exact exitThread_stays h
    | exitDeleteThread => exact exitDeleteThread_stays h
    | terminateThread id => exact sysTerminateThread_stays h
    | sleepThread => exact sleepThread_stays h
    | waitSema id => exact waitSema_stays h
    | _ => cases hyields

/-! ### The machine -/

/-- The reschedule at an interrupt's end stays in the array. -/
theorem interruptReschedule_stays (h : s.Ranged) (frame : Block) :
    Stays (fun s => s.interruptReschedule frame) s := by
  by_cases hno : s.rescheduleRequested = false
  · exact .of_some (if_pos hno) (fun _ => if_pos hno) h
  let u := { s with rescheduleRequested := false }.parkCurrent frame (frame 0) true
  let next (r : ℕ × State) : State :=
    { r.2 with currentThread := r.1 }.setThread r.1 fun t => { t with state := .run }
  have hparked : u.Ranged := (ranged_iff_of_thread rfl).mpr (h.setThread s.currentThread (fun t =>
    { t with resumePc := frame 0, context := sub32 (frame kSlotSp) kFramePush }) fun ht => ht)
  have hnext := (pickNext_stays (hparked.setThread s.currentThread
    (fun t => { t with state := .ready }) fun ht => ht)).map
    (g := fun r => (some (Function.update (Function.update ((next r).frame r.1) kWordStatus
      (frame kWordStatus)) 0 ((next r).thread r.1).resumePc), next r))
    (fun _ _ _ => rfl) fun _ _ ht => ht.resume
  exact ⟨fun r => (if_neg hno).trans ((hnext.confined r).trans (congrArg _ (if_neg hno).symm)),
    fun p hp => hnext.ranged p ((if_neg hno).symm.trans hp)⟩

/-- Every creation block has a priority that is the number of a queue. -/
def Event.ranged (e : Event) : Prop := ∀ c ∈ e.direct, c.ranged

instance : DecidablePred Event.ranged := fun e =>
  inferInstanceAs (Decidable (∀ c ∈ e.direct, c.ranged))

/-- Each event stays in the array, when the priorities it names are in range. -/
theorem Event.stays (h : s.Ranged) {e : Event} (he : e.ranged) : Stays e.run s := by
  cases e with
  | syscall c block epc =>
    have hcall : Stays c.run { s with syscallContext := block, epc := epc } :=
      Call.stays (s := { s with syscallContext := block, epc := epc }) h he
    exact ⟨hcall.confined, hcall.ranged⟩
  | handler c => exact (DirectCall.stays h (he c rfl)).map (fun _ _ _ => rfl) fun _ _ ht => ht
  | interruptEntry => exact .of_some rfl (fun _ => rfl) ((ranged_iff_of_thread rfl).mpr h)
  | interruptExit frame =>
    exact (interruptReschedule_stays h frame).map (fun _ _ _ => rfl) fun _ _ ht => ht

end Primitives

/-! ### Runs -/

/-- The steps of the machine, whatever is in a creation block. -/
def AnyStep (s : State) (e : Event) (s' : State) : Prop := ∃ v, e.run s = some (v, s')

/-- The steps with creation blocks whose priorities are numbers of queues. -/
def RangedStep (s : State) (e : Event) (s' : State) : Prop := e.ranged ∧ AnyStep s e s'

theorem ranged_freeThreads {s : State} (h : s.Ranged) (n : ℕ) : (freeThreads s n).Ranged := by
  induction n generalizing s with
  | zero => exact h
  | succ k ih => exact ih (h.release _)

theorem ranged_freeSemaphores {s : State} (h : s.Ranged) (n : ℕ) : (freeSemaphores s n).Ranged := by
  induction n generalizing s with
  | zero => exact h
  | succ k ih => exact ih ((ranged_iff_of_thread rfl).mpr h)

theorem kBootPriority_lt : kBootPriority < kQueues := by decide

/-- The boot thread's priority is in range. -/
theorem ranged_queueBootThread {s : State} (h : s.Ranged) : (queueBootThread s).Ranged :=
  (ranged_iff_of_thread rfl).mpr (h.setThread 0 (fun t =>
    { t with
      state := .ready
      initialPriority := kBootPriority
      currentPriority := kBootPriority }) fun _ => ⟨kBootPriority_lt, kBootPriority_lt⟩)

/-- The first program's priority is in range. -/
theorem ranged_startProgramThread {s : State} (h : s.Ranged) (gp entry idleLoop idleStackTop : ℕ) :
    (startProgramThread s gp entry idleLoop idleStackTop).Ranged := by
  have hidle := h.setThread 0 (fun t => { t with resumePc := idleLoop, state := .ready })
    fun ht => ht
  exact (ranged_iff_of_thread rfl).mpr (hidle.setThread s.freeThread
    (fun _ => { zeroRecord with
      state := .run
      resumePc := entry
      entry := entry
      gp := gp
      initialPriority := kBootPriority
      currentPriority := kBootPriority }) fun _ => ⟨kBootPriority_lt, kBootPriority_lt⟩)

/-- The priorities of the state after the boot are in range. -/
theorem ranged_boot (threadRoot gp entry idleLoop idleStackTop : ℕ) :
    (boot threadRoot gp entry idleLoop idleStackTop).Ranged := by
  have hzero : zeroRecord.Ranged := ⟨by decide, by decide⟩
  have hempty : (emptyTables threadRoot).Ranged := fun _ => hzero
  exact ranged_startProgramThread (ranged_freeSemaphores
    (ranged_queueBootThread (ranged_freeThreads hempty _)) _) _ _ _ _

/-- **The index of the ready queues is always in range**, in a run with such creation blocks:
whatever the next step is, what lies behind the 130 queues is neither read nor written by it. -/
theorem queues_indexed_in_range (threadRoot gp entry idleLoop idleStackTop : ℕ)
    (events : List Event) (s : State)
    (h : Steps RangedStep (boot threadRoot gp entry idleLoop idleStackTop) events s) (e : Event)
    (he : e.ranged) : Confined e.run s :=
  (Event.stays (h.invariant (fun _ _ _ hs hstep => hstep.2.elim fun _ hrun =>
    (Event.stays hs hstep.1).ranged _ hrun) (ranged_boot _ _ _ _ _)) he).confined

/-- The machine as a function, whatever is in a creation block. -/
def anyNext (s : State) (e : Event) : Option State := (e.run s).map Prod.snd

theorem anyStep_of_anyNext {s t : State} {e : Event} (h : anyNext s e = some t) :
    AnyStep s e t := by
  obtain ⟨⟨v, u⟩, hrun, rfl⟩ := Option.map_eq_some_iff.mp h
  exact ⟨v, hrun⟩

/-- A thread of the boot thread's own priority is created and started, and ends. -/
theorem queues_indexed_in_range_started :
    ∃ s, runList anyNext (boot 0 0 0 0 0) [.by (.direct (.createThread ⟨0, 0, 0, 0, 128, 0, 0⟩)),
        .by (.startThread 2 0)] = some s ∧ Confined (Event.by .exitThread).run s := by
  have h : (runList anyNext (boot 0 0 0 0 0)
      [.by (.direct (.createThread ⟨0, 0, 0, 0, 128, 0, 0⟩)), .by (.startThread 2 0)]).isSome := by
    decide +kernel
  obtain ⟨s, hs⟩ := Option.isSome_iff_exists.mp h
  refine ⟨s, hs, ?_⟩
  obtain ⟨u, hcreate, hrest⟩ := Option.bind_eq_some_iff.mp hs
  obtain ⟨v, hstart, hnil⟩ := Option.bind_eq_some_iff.mp hrest
  obtain rfl := Option.some.inj hnil
  exact queues_indexed_in_range 0 0 0 0 0 _ v
    (.cons ⟨by decide, anyStep_of_anyNext hcreate⟩
      (.cons ⟨by decide, anyStep_of_anyNext hstart⟩ (.nil v))) (.by .exitThread) (by decide)

/-- A thread of priority 200 is created and started: it is linked into words behind the queues. -/
theorem startThread_links_behind :
    ¬∀ events s (e : Event), Steps AnyStep (boot 0 0 0 0 0) events s → Confined e.run s := by
  intro hall
  have h : (runList anyNext (boot 0 0 0 0 0)
      [.by (.direct (.createThread ⟨0, 0, 0, 0, 200, 0, 0⟩))]).bind (fun s =>
        ((Event.by (.startThread 2 0)).run s).map fun p =>
          ((s.readyQueue 200).head, (p.2.readyQueue 200).head)) = some (kNone, 2) := by
    decide +kernel
  obtain ⟨s, hs, hp⟩ := Option.bind_eq_some_iff.mp h
  obtain ⟨p, hrun, heads⟩ := Option.map_eq_some_iff.mp hp
  have hconfined := hall _ s (.by (.startThread 2 0))
    (.of_runList (fun _ _ _ => anyStep_of_anyNext) hs) s.readyQueue
  -- with the same words behind the queues it is the same state
  have hsame : s.behind s.readyQueue = s := by
    have : overlay s.readyQueue s.readyQueue = s.readyQueue := funext fun _ => ite_self _
    rw [State.behind, this]
  rw [hsame, hrun] at hconfined
  have hword : p.2.readyQueue 200 = s.readyQueue 200 :=
    congrArg (fun q : ℕ × State => q.2.readyQueue 200) (Option.some.inj hconfined)
  rw [hword, Prod.mk.injEq] at heads
  exact absurd (heads.1.symm.trans heads.2) (by decide)

end PS2Bios.Kernel
