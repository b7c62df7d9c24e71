import PS2Bios.Library.Run
import PS2Bios.Kernel.Boot

/-!
# The EE scheduler's representation invariant

`Consistent` is the invariant in full: what each ready queue, each wait list and the free list
hold, as a function of the thread records alone. The code does not keep it over every run. A
caller of slot 0x44 is put on the wait list while it is still linked in its ready queue, and
the one pair of link fields then says it is alone in both, so `block` empties the ready queue;
and a caller that has suspended or terminated itself and runs on is marked ready, or taken off
its queue, without being in it.

`Sound` says of each step, by its arguments and the state before it, that it does neither.
`runs_stay_consistent` is the invariant for every run of such steps, and
`waitSema_drops_a_thread` a run of six calls that loses a ready thread.
-/

namespace PS2Bios.Kernel

open Intrusive State

/-- The scheduler's representation invariant: the ready queues are the lists `ready`, the wait lists
the lists `waiting`, the free list is `free`; nobody waits for a semaphore that is not there. -/
structure Consistent (s : State) (ready waiting : ℕ → List ℕ) (free : List ℕ) : Prop where
  readyQueue : ∀ queue < kQueues, IsQueue kNone s.links (s.readyQueue queue) (ready queue)
  waitList : ∀ m, allocated s m →
    IsQueue kNone s.links ⟨(s.semaphore m).waitHead, (s.semaphore m).waitTail⟩ (waiting m)
  unallocated : ∀ m, ¬allocated s m → waiting m = []
  ready_iff : ∀ queue id, id ∈ ready queue ↔
    id < kThreads ∧ runnable (s.thread id) ∧ s.queueOf id = queue
  waiting_iff : ∀ m id, id ∈ waiting m ↔ id < kThreads ∧ waitsOn (s.thread id) m
  waitCount : ∀ m, allocated s m → (s.semaphore m).waitCount = (waiting m).length
  freeList : Chain kNone s.links.next s.freeThread free ∧ free.Nodup
  free_iff : ∀ id, id ∈ free ↔ id < kThreads ∧ (s.thread id).state = .free
  lowestReady : ∀ queue, ready queue ≠ [] → s.lowestReady ≤ queue

/-- The invariant of the proofs gives the one of the main result. -/
theorem Linked.consistent {s : State} {L : Lists} (h : Linked s L none) :
    Consistent s (fun queue => L.queued (.ready queue)) L.waiting L.free where
  readyQueue queue hq := h.family.queue (.ready queue) hq
  waitList m hm := h.family.queue (.waitList m) hm
  unallocated m hm := h.family.off (.waitList m) hm
  ready_iff queue id := (h.mem_iff id (.ready queue)).trans (by simp [belongs])
  waiting_iff m id := (h.mem_iff id (.waitList m)).trans (by simp [belongs])
  waitCount := h.waitCount
  freeList := ⟨h.freeChain, h.freeNodup⟩
  free_iff id := (h.mem_free id).trans (by simp)
  lowestReady := h.lowest

/-! ### The steps that keep it -/

/-- The rescheduling calls that answer -1 and change nothing. -/
def State.refuses (s : State) : Call → Prop
  | .startThread id _ => ¬s.validOther id ∨ (s.thread id).state ≠ .dormant
  | .terminateThread id =>
    id < 1 ∨ kThreads ≤ id ∨ (s.thread id).state = .free ∨ (s.thread id).state = .dormant
  | .changeThreadPriority id priority =>
    let id := if id = 0 then s.currentThread else id
    kThreads ≤ id ∨ 128 ≤ priority ∨ (s.thread id).state = .free ∨ (s.thread id).state = .dormant
  | .rotateReadyQueue priority => 128 ≤ priority
  | .releaseWaitThread id => id < 1 ∨ kThreads ≤ id ∨ (s.thread id).state = .free
  | .wakeupThread id => kThreads ≤ id ∨ (s.thread id).state = .free ∨
    (s.thread id).state = .run ∨ (s.thread id).state = .dormant
  | .resumeThread id => ¬s.validOther id ∨
    ((s.thread id).state ≠ .suspend ∧ (s.thread id).state ≠ .waitSuspend)
  | .deleteSema id | .signalSema id => ¬allocated s id
  | _ => False

/-- A call after which its caller is still what its record says. -/
def SoundCall (s : State) : Call → Prop
  | .direct _ => True
  | .exitThread | .exitDeleteThread => MayLeave s
  | .sleepThread => 0 < s.current.wakeupCount ∨ MayLeave s
  | .waitSema id => allocated s id → (s.semaphore id).count ≤ 0 →
    CallerAlone s ∧ (s.semaphore id).waitHead = kNone
  | .terminateThread id =>
    s.refuses (.terminateThread id) ∨ id = s.currentThread ∨ runnable s.current
  | c => s.refuses c ∨ runnable s.current

/-- A step after which the running thread is still what its record says. -/
def Sound (s : State) : Event → Prop
  | .syscall c _ _ => SoundCall s c
  | .handler _ | .interruptEntry => True
  | .interruptExit _ => s.rescheduleRequested = true → runnable s.current

/-- The priority a call creates a thread with. -/
def DirectCall.newPriority : DirectCall → Option ℕ
  | .createThread p => some (p.initialPriority % 2 ^ 16)
  | _ => none

/-- Threads are created with priorities 0 to 127. -/
def DirectCall.inRange (c : DirectCall) : Prop := ∀ priority ∈ c.newPriority, priority < 128

instance : DecidablePred DirectCall.inRange := fun c =>
  inferInstanceAs (Decidable (∀ priority ∈ c.newPriority, priority < 128))

/-- Threads are created with priorities 0 to 127. -/
def Event.inRange (e : Event) : Prop := ∀ c ∈ e.direct, c.inRange

instance : DecidablePred Event.inRange := fun e =>
  inferInstanceAs (Decidable (∀ c ∈ e.direct, c.inRange))

/-- The machine's steps. -/
def Step (s : State) (e : Event) (s' : State) : Prop := e.inRange ∧ ∃ v, e.run s = some (v, s')

/-- The steps of the invariant's runs. -/
def SoundStep (s : State) (e : Event) (s' : State) : Prop :=
  e.inRange ∧ Sound s e ∧ ∃ v, e.run s = some (v, s')

section Steps

variable {s : State} {L : Lists} {id : ℕ}

/-- The queues after a direct-form call that keeps its caller. -/
theorem Keeps.scheduled {s' : State} {w : ℕ → List ℕ} (h : Scheduled s L) (hk : Keeps s s' w) :
    ∃ L', Scheduled s' L' ∧ L'.waiting = w := by
  obtain ⟨L', hl, hw⟩ := hk.linked
  refine ⟨L', ⟨hl, ?_⟩, hw⟩
  have hrun := h.running
  unfold Running runnable at hrun ⊢
  rw [hk.state]
  exact hrun

/-- A direct-form call keeps the queues, and its caller runs on. -/
theorem Scheduled.directCall (h : Scheduled s L) {c : DirectCall} (hc : c.inRange)
    {r : ℤ × State} (hr : c.run s = some r) :
    (∃ L', Scheduled r.2 L') ∧ r.2.currentThread = s.currentThread := by
  have hkeeps : ∀ {w}, Keeps s r.2 w →
      (∃ L', Scheduled r.2 L') ∧ r.2.currentThread = s.currentThread := fun hk => by
    obtain ⟨L', hs, -⟩ := hk.scheduled h
    exact ⟨⟨L', hs⟩, hk.currentThread⟩
  have hself : r.2 = s → (∃ L', Scheduled r.2 L') ∧ r.2.currentThread = s.currentThread :=
    fun he => by
      rw [he]
      exact ⟨⟨L, h⟩, rfl⟩
  cases c with
  | createThread p => exact hkeeps (h.createThread (lt_trans (hc _ rfl) (by decide)) hr)
  | deleteThread id => exact hkeeps (h.deleteThread hr)
  | terminateThread id =>
    -- who ends or suspends another thread may leave itself to be switched away
    rcases h.terminateThread hr with he | ⟨⟨L', hl, -⟩, hcur, hst⟩
    · exact hself he
    · refine ⟨⟨L', hl, ?_⟩, hcur⟩
      split at hst
      · exact .inr (.inr hst)
      · have hrun := h.running
        unfold Running runnable at hrun ⊢
        rwa [hst]
  | changeThreadPriority id priority => exact hkeeps (h.changeThreadPriority hr)
  | rotateReadyQueue priority => exact hkeeps (h.rotateReadyQueue hr)
  | releaseWaitThread id => exact (h.releaseWaitThread hr).elim hself hkeeps
  | getThreadId | referThreadStatus | referSemaStatus =>
    cases hr
    exact hself rfl
  | wakeupThread id => exact hkeeps (h.wakeupThread hr)
  | cancelWakeupThread id => exact hkeeps (h.cancelWakeupThread hr)
  | suspendThread id =>
    rcases h.suspendThread hr with he | ⟨⟨L', hl, -⟩, hcur, hst⟩
    · exact hself he
    · refine ⟨⟨L', hl, ?_⟩, hcur⟩
      split at hst
      · exact .inr (.inl hst)
      · have hrun := h.running
        unfold Running runnable at hrun ⊢
        rwa [hst]
  | resumeThread id => exact hkeeps (h.resumeThread hr)
  | createSema p => exact hkeeps (h.createSema hr)
  | deleteSema id => exact hkeeps (h.deleteSema hr)
  | signalSema id => exact hkeeps (h.signalSema hr)
  | pollSema id => exact hkeeps (h.pollSema hr)

/-- Yielding keeps the queues. -/
theorem Scheduled.yield (h : Scheduled s L) (hrun : runnable s.current) {v : ℕ}
    {r : ℕ × State} (hr : s.yield v = some r) : ∃ id, Resumed (s.parked v) L r id :=
  (h.linked.parked hrun v).resumeNext hr

/-- What a rescheduling form does when it is sound: it answers like its direct form, or it
yields. -/
theorem thenYield_cases {f : Direct}
    (hs : (∀ r, f s = some r → r = (-1, s)) ∨ runnable s.current) {r : ℕ × State}
    (hr : thenYield f s = some r) :
    ∃ r₁, f s = some r₁ ∧ (r = (toWord r₁.1, r₁.2) ∨
      (runnable s.current ∧ r₁.2.yield (toWord r₁.1) = some r)) := by
  obtain ⟨r₁, hf, hr⟩ := Option.bind_eq_some_iff.mp hr
  refine ⟨r₁, hf, ?_⟩
  split at hr
  · exact .inl (Option.some.inj hr).symm
  · rename_i hneg
    refine .inr ⟨hs.resolve_left fun hs => ?_, hr⟩
    rw [hs r₁ hf] at hneg
    exact absurd (show (-1 : ℤ) < 0 by decide) hneg

/-- What a call leaves that has picked the thread to run on. -/
def Switched (r : ℕ × State) : Prop := ∃ s L id, Resumed s L r id

theorem Switched.scheduled {r : ℕ × State} (h : Switched r) : ∃ L, Scheduled r.2 L := by
  obtain ⟨s, L, id, hres⟩ := h
  exact ⟨L, hres.scheduled⟩

theorem Linked.switched (h : Linked s L none) {r : ℕ × State} (hr : s.resumeNext = some r) :
    Switched r := by
  obtain ⟨id, hres⟩ := h.resumeNext hr
  exact ⟨s, L, id, hres⟩

theorem Scheduled.switched (h : Scheduled s L) (hrun : runnable s.current) {v : ℕ} {r : ℕ × State}
    (hr : s.yield v = some r) : Switched r :=
  (h.linked.parked hrun v).switched hr

/-- What slot 0x22 makes of a dormant thread before it yields. -/
def State.started (s : State) (id arg : ℕ) : State :=
  let frame := Function.update s.frame id (Function.update (s.frame id) kSlotA0 arg)
  ({ s with frame := frame }.setThread id fun t =>
    { t with startArg := arg, resumePc := t.entry }).makeReady id

/-- A dormant thread that is started goes into its queue. -/
theorem Scheduled.started (h : Scheduled s L) (hid : s.validOther id)
    (hst : (s.thread id).state = .dormant) (arg : ℕ) : Keeps s (s.started id arg) L.waiting := by
  have h₁ := ((h.linked.open_of_state rfl (.inr hst)).registers s.rescheduleRequested
    s.parkedByInterrupt (Function.update s.frame id (Function.update (s.frame id) kSlotA0 arg))
    s.syscallContext s.syscallRestoreFull s.epc).setThread_shape (i := id)
      (fun t => { t with startArg := arg, resumePc := t.entry }) ⟨rfl, rfl, rfl, rfl, rfl⟩
  refine ⟨sameCurrent_of rfl ?_, _, h₁.makeReady hid.2.1, by simp⟩
  simp [State.started, Ne.symm hid.2.2]

/-- A start that is not refused may switch to the thread. -/
theorem Scheduled.startThread (h : Scheduled s L) {arg : ℕ}
    (hs : s.refuses (.startThread id arg) ∨ runnable s.current) {r : ℕ × State}
    (hr : sysStartThread id arg s = some r) :
    (s.refuses (.startThread id arg) ∧ r.2 = s) ∨
      (¬s.refuses (.startThread id arg) ∧ Switched r) := by
  unfold sysStartThread at hr
  split at hr
  · rename_i hno
    cases hr
    exact .inl ⟨hno, rfl⟩
  rename_i hok
  refine .inr ⟨hok, ?_⟩
  have hrun := hs.resolve_left hok
  rw [not_or, not_not, not_not] at hok
  have hk := h.started hok.1 hok.2 arg
  obtain ⟨L', hs', -⟩ := hk.scheduled h
  have hrun' : runnable (s.started id arg).current := by
    unfold runnable at hrun ⊢
    rwa [hk.state]
  exact hs'.switched hrun' hr

theorem Scheduled.exitThread (h : Scheduled s L) (hs : MayLeave s) {r : ℕ × State}
    (hr : sysExitThread s = some r) : Switched r :=
  (h.takeOffCurrent hs).resetToDormant.switched hr

theorem Scheduled.exitDeleteThread (h : Scheduled s L) (hs : MayLeave s) {r : ℕ × State}
    (hr : sysExitDeleteThread s = some r) : Switched r :=
  ((h.takeOffCurrent hs).giveBack h.linked.current).switched hr

/-- What slot 0x26 does. -/
theorem terminateThread_cases {r : ℤ × State} (hr : terminateThread id s = some r) :
    (s.refuses (.terminateThread id) ∧ r = (-1, s)) ∨
      (¬s.refuses (.terminateThread id) ∧ r = ((id : ℤ), (s.detach id).resetToDormant id)) := by
  unfold Kernel.terminateThread at hr
  split at hr
  · rename_i hc
    cases hr
    exact .inl ⟨hc.elim .inl fun hc => .inr (.inl hc), rfl⟩
  · rename_i hc
    split at hr <;> cases hr
    · rename_i hst
      exact .inl ⟨.inr (.inr hst), rfl⟩
    · rename_i hst
      refine .inr ⟨?_, rfl⟩
      rintro (h | h | h)
      · exact hc (.inl h)
      · exact hc (.inr h)
      · exact hst h

/-- What slot 0x25 does when it is sound: it refuses, or its caller is gone, or it yields. -/
theorem sysTerminateThread_cases {r : ℕ × State} (hs : SoundCall s (.terminateThread id))
    (hr : sysTerminateThread id s = some r) :
    ∃ r₁, Kernel.terminateThread id s = some r₁ ∧ r₁.2.currentThread = s.currentThread ∧
      ((r₁ = (-1, s) ∧ r = (toWord (-1), s)) ∨
        (id = s.currentThread ∧ r₁.2.resumeNext = some r) ∨
        (runnable r₁.2.current ∧ r₁.2.yield (toWord r₁.1) = some r)) := by
  obtain ⟨r₁, hf, hr⟩ := Option.bind_eq_some_iff.mp hr
  refine ⟨r₁, hf, ?_⟩
  rcases terminateThread_cases hf with ⟨-, rfl⟩ | ⟨hok, rfl⟩
  · cases hr
    exact ⟨rfl, .inl ⟨rfl, rfl⟩⟩
  · have hcur : ((s.detach id).resetToDormant id).currentThread = s.currentThread := by simp
    refine ⟨hcur, .inr ?_⟩
    dsimp only at hr ⊢
    rw [if_neg (by omega), hcur] at hr
    split at hr
    · rename_i heq
      exact .inl ⟨heq, hr⟩
    · rename_i hne
      refine .inr ⟨?_, hr⟩
      have hrun := (hs.resolve_left hok).resolve_left hne
      unfold runnable at hrun ⊢
      rw [State.current, hcur, resetToDormant_state, if_neg (Ne.symm hne), detach_thread_state]
      exact hrun

/-- A thread's end that is not refused may switch to another. -/
theorem Scheduled.sysTerminateThread (h : Scheduled s L) (hs : SoundCall s (.terminateThread id))
    {r : ℕ × State} (hr : sysTerminateThread id s = some r) :
    (s.refuses (.terminateThread id) ∧ r.2 = s) ∨
      (¬s.refuses (.terminateThread id) ∧ Switched r) := by
  have hrun := hr
  obtain ⟨r₁, hf, hcur, hr⟩ := sysTerminateThread_cases hs hr
  rcases terminateThread_cases hf with ⟨hno, rfl⟩ | ⟨hok, rfl⟩
  · refine .inl ⟨hno, ?_⟩
    unfold Kernel.sysTerminateThread at hrun
    rw [hf] at hrun
    cases hrun
    rfl
  · refine .inr ⟨hok, ?_⟩
    rcases h.terminateThread hf with he | ⟨⟨L', hl, -⟩, -, -⟩
    · -- a refusal is the only way to change nothing
      have hself := congrArg (fun s => (s.thread id).state) he
      simp only [resetToDormant_state, if_true] at hself
      exact absurd (.inr (.inr (.inr hself.symm))) hok
    · rcases hr with ⟨he, -⟩ | ⟨-, hr⟩ | ⟨hrun, hr⟩
      · exact absurd (congrArg Prod.fst he) (by dsimp only; omega)
      · exact hl.switched hr
      · exact Scheduled.switched ⟨hl, .inl hrun⟩ hrun hr

/-- A wakeup kept from before is used up, or the caller sleeps and another thread runs. -/
theorem Scheduled.sleepThread (h : Scheduled s L)
    (hs : 0 < s.current.wakeupCount ∨ MayLeave s) {r : ℕ × State}
    (hr : sysSleepThread s = some r) :
    (0 < s.current.wakeupCount ∧ r.2 = s.setThread s.currentThread fun t =>
      { t with wakeupCount := t.wakeupCount - 1 }) ∨
        (¬0 < s.current.wakeupCount ∧ Switched r) := by
  unfold sysSleepThread at hr
  split at hr
  · rename_i hpos
    cases hr
    exact .inl ⟨hpos, rfl⟩
  · rename_i hno
    rw [block_eq] at hr
    exact .inr ⟨hno, (h.blocked_sleeping (hs.resolve_left hno) _).switched hr⟩

/-- The count goes down, or the caller waits and another thread runs. -/
theorem Scheduled.waitSema (h : Scheduled s L)
    (hs : allocated s id → (s.semaphore id).count ≤ 0 →
      CallerAlone s ∧ (s.semaphore id).waitHead = kNone)
    {r : ℕ × State} (hr : sysWaitSema id s = some r) :
    (¬allocated s id ∧ r.2 = s) ∨
      (0 < (s.semaphore id).count ∧ r.2 = s.setSemaphore id fun m =>
        { m with count := m.count - 1 }) ∨
      (¬(¬allocated s id ∨ 0 < (s.semaphore id).count) ∧ Switched r) := by
  unfold sysWaitSema at hr
  split at hr
  · rename_i hno
    cases hr
    exact .inl ⟨hno, rfl⟩
  rename_i hal
  rw [not_not] at hal
  split at hr
  · rename_i hpos
    cases hr
    exact .inr (.inl ⟨hpos, rfl⟩)
  · rename_i hpos
    obtain ⟨ha, hnil⟩ := hs hal (by omega)
    refine .inr (.inr ⟨?_, (h.blocked_onSemaphore ha hal hnil id).switched hr⟩)
    exact not_or.mpr ⟨not_not_intro hal, hpos⟩

/-- A direct form whose rescheduling form yields keeps the queues. -/
theorem Scheduled.keeps (h : Scheduled s L) {c : Call} {d : DirectCall} (hd : c.yielding = some d)
    {r : ℤ × State} (hr : d.run s = some r) : r.2 = s ∨ ∃ w, Keeps s r.2 w := by
  cases c <;> cases hd
  case changeThreadPriority => exact .inr ⟨_, h.changeThreadPriority hr⟩
  case rotateReadyQueue => exact .inr ⟨_, h.rotateReadyQueue hr⟩
  case releaseWaitThread => exact (h.releaseWaitThread hr).imp_right fun hk => ⟨_, hk⟩
  case wakeupThread => exact .inr ⟨_, h.wakeupThread hr⟩
  case resumeThread => exact .inr ⟨_, h.resumeThread hr⟩
  case deleteSema => exact .inr ⟨_, h.deleteSema hr⟩
  case signalSema => exact .inr ⟨_, h.signalSema hr⟩

/-- And its caller may yield if it could before. -/
theorem Scheduled.runnable_keeps (h : Scheduled s L) {c : Call} {d : DirectCall}
    (hd : c.yielding = some d) {r : ℤ × State} (hr : d.run s = some r) (hrun : runnable s.current) :
    runnable r.2.current := by
  rcases h.keeps hd hr with he | ⟨w, hk⟩
  · rwa [he]
  · unfold runnable at hrun ⊢
    rwa [hk.state]

/-- A refused call answers -1 and changes nothing. -/
theorem refused_run {c : Call} {d : DirectCall} (hd : c.yielding = some d) (hc : s.refuses c) :
    d.run s = some (-1, s) := by
  cases c <;> cases hd
  case changeThreadPriority id priority =>
    rcases hc with hc | hc | hc
    · simp only [DirectCall.run, Kernel.changeThreadPriority, if_pos (Or.inl hc)]
    · simp only [DirectCall.run, Kernel.changeThreadPriority, if_pos (Or.inr hc)]
    · simp only [DirectCall.run, Kernel.changeThreadPriority, if_pos hc, ite_self]
  case rotateReadyQueue priority => exact if_pos hc
  case releaseWaitThread id =>
    rcases hc with hc | hc | hc
    · exact if_pos (.inl hc)
    · exact if_pos (.inr hc)
    · simp only [DirectCall.run, Kernel.releaseWaitThread, hc, ite_self]
  case wakeupThread id =>
    rcases hc with hc | hc | hc | hc
    · exact if_pos hc
    all_goals simp only [DirectCall.run, Kernel.wakeupThread, hc, ite_self]
  case resumeThread id =>
    rcases hc with hc | ⟨h₁, h₂⟩
    · exact if_pos hc
    · unfold DirectCall.run Kernel.resumeThread
      dsimp only
      split
      · rfl
      · split
        · rename_i hc
          exact absurd hc h₁
        · rename_i hc
          exact absurd hc h₂
        · rfl
  case deleteSema id => exact if_pos hc
  case signalSema id => exact if_pos hc

/-- A sound call that yields is refused, or its caller may yield. -/
theorem SoundCall.yielding {c : Call} {d : DirectCall} (hd : c.yielding = some d)
    (hs : SoundCall s c) : (∀ r, d.run s = some r → r = (-1, s)) ∨ runnable s.current := by
  have hs : s.refuses c ∨ runnable s.current := by
    cases c <;> cases hd <;> exact hs
  refine hs.imp_left fun hc r hr => ?_
  rw [refused_run hd hc] at hr
  exact (Option.some.inj hr).symm

/-- A call that is not refused answers what it found, which is not negative. -/
theorem Linked.accepted (h : Linked s L none) {c : Call} {d : DirectCall}
    (hd : c.yielding = some d) (hc : ¬s.refuses c) {r : ℤ × State} (hr : d.run s = some r) :
    0 ≤ r.1 := by
  -- the answer is an id or 0 where the call is not refused
  cases c <;> cases hd
  case changeThreadPriority id priority =>
    unfold DirectCall.run Kernel.changeThreadPriority at hr
    dsimp only at hr
    generalize hx : (if id = 0 then s.currentThread else id) = x at hr
    have hlt : kThreads ≤ x ∨ 0 ≤ int16 (s.thread x).currentPriority := by
      refine (Nat.lt_or_ge x kThreads).symm.imp_right fun hlt => ?_
      have := (h.priorities x hlt).2
      unfold kPriorities at this
      unfold int16
      split <;> omega
    unfold State.refuses at hc
    dsimp only at hc
    rw [hx] at hc
    split at hr
    · rename_i hno
      exact absurd (hno.imp_right .inl) hc
    split at hr
    · rename_i hno
      exact absurd (.inr (.inr hno)) hc
    have hpos := hlt.resolve_left fun hge => hc (.inl hge)
    split at hr <;> cases hr <;> exact hpos
  case rotateReadyQueue priority =>
    have hc : ¬128 ≤ priority := hc
    have hr : Kernel.rotateReadyQueue priority s = some r := hr
    unfold Kernel.rotateReadyQueue at hr
    rw [if_neg hc] at hr
    dsimp only at hr
    split at hr <;> cases hr <;> exact Int.natCast_nonneg _
  case releaseWaitThread id =>
    have hr : Kernel.releaseWaitThread id s = some r := hr
    unfold Kernel.releaseWaitThread at hr
    split at hr
    · rename_i hno
      exact absurd (hno.imp_right .inl) hc
    split at hr <;> cases hr
    · rename_i hno
      exact absurd (.inr (.inr hno)) hc
    all_goals exact Int.natCast_nonneg _
  case wakeupThread id =>
    have hr : Kernel.wakeupThread id s = some r := hr
    unfold Kernel.wakeupThread at hr
    split at hr
    · rename_i hno
      exact absurd (.inl hno) hc
    split at hr
    case h_5 hw hr' hs hws =>
      refine absurd ?_ hc
      unfold State.refuses
      cases hst : (s.thread id).state <;> simp_all
    all_goals first
      | (split at hr <;> cases hr <;> exact Int.natCast_nonneg _)
      | (cases hr; exact Int.natCast_nonneg _)
  case resumeThread id =>
    have hr : Kernel.resumeThread id s = some r := hr
    unfold Kernel.resumeThread at hr
    split at hr
    · rename_i hno
      exact absurd (.inl hno) hc
    split at hr <;> cases hr
    · exact Int.natCast_nonneg _
    · exact Int.natCast_nonneg _
    · rename_i h₁ h₂
      exact absurd (.inr ⟨h₁, h₂⟩) hc
  case deleteSema id =>
    have hc : ¬¬allocated s id := hc
    have hr : Kernel.deleteSema id s = some r := hr
    unfold Kernel.deleteSema at hr
    rw [if_neg hc] at hr
    obtain ⟨s₁, -, rfl⟩ := Option.map_eq_some_iff.mp hr
    exact Int.natCast_nonneg _
  case signalSema id =>
    have hc : ¬¬allocated s id := hc
    have hr : Kernel.signalSema id s = some r := hr
    unfold Kernel.signalSema at hr
    rw [if_neg hc] at hr
    dsimp only at hr
    split at hr <;> cases hr <;> exact Int.natCast_nonneg _

/-- A call that yields is refused, and changes nothing, or switches. -/
theorem Scheduled.yielding (h : Scheduled s L) {c : Call} {d : DirectCall}
    (hd : c.yielding = some d) (hs : SoundCall s c) {r : ℕ × State} (hr : c.run s = some r) :
    (s.refuses c ∧ r.2 = s) ∨ (¬s.refuses c ∧ Switched r) := by
  have hs : s.refuses c ∨ runnable s.current := by
    cases c <;> cases hd <;> exact hs
  rw [Call.run_of_yielding hd] at hr
  obtain ⟨r₁, hf, hr⟩ := Option.bind_eq_some_iff.mp hr
  by_cases hc : s.refuses c
  · obtain rfl := Option.some.inj ((refused_run hd hc).symm.trans hf)
    cases hr
    exact .inl ⟨hc, rfl⟩
  · rw [if_neg (Int.not_lt.mpr (h.linked.accepted hd hc hf))] at hr
    have hrun := h.runnable_keeps hd hf (hs.resolve_left hc)
    have hsame : ∃ L', Scheduled r₁.2 L' := by
      rcases h.keeps hd hf with he | ⟨w, hk⟩
      · exact ⟨L, by rwa [he]⟩
      · obtain ⟨L', hs', -⟩ := hk.scheduled h
        exact ⟨L', hs'⟩
    obtain ⟨L', hs'⟩ := hsame
    exact .inr ⟨hc, hs'.switched hrun hr⟩

/-- The calls that are answered at once: the direct forms, a call that is refused, a sleep that
takes a counted wake-up, and a wait that takes a unit or finds no semaphore. -/
def State.answersAtOnce (s : State) : Call → Prop
  | .direct _ => True
  | .sleepThread => 0 < s.current.wakeupCount
  | .waitSema id => ¬allocated s id ∨ 0 < (s.semaphore id).count
  | c => s.refuses c

/-- The same thread is running, and the ready queues are the same. -/
structure SameReady (s s' : State) : Prop where
  currentThread : s'.currentThread = s.currentThread
  readyQueue : s'.readyQueue = s.readyQueue

theorem SameReady.refl (s : State) : SameReady s s := ⟨rfl, rfl⟩

/-- A rescheduling call that is sound is answered at once and leaves the ready queues as they
are, or switches. -/
theorem Scheduled.reschedules (h : Scheduled s L) {c : Call} (hd : ∀ d, c ≠ .direct d)
    (hs : SoundCall s c) {r : ℕ × State} (hr : c.run s = some r) :
    (s.answersAtOnce c ∧ SameReady s r.2 ∧ ∃ L', Scheduled r.2 L') ∨
      (¬s.answersAtOnce c ∧ Switched r) := by
  have hself : r.2 = s → SameReady s r.2 ∧ ∃ L', Scheduled r.2 L' := fun he => by
    rw [he]
    exact ⟨.refl s, L, h⟩
  cases hy : c.yielding with
  | some d =>
    have honce : s.answersAtOnce c ↔ s.refuses c := by cases c <;> cases hy <;> rfl
    rw [honce]
    exact (h.yielding hy hs hr).imp_left fun ⟨hc, he⟩ => ⟨hc, hself he⟩
  | none =>
    cases c with
    | direct d => exact absurd rfl (hd d)
    | startThread id arg => exact (h.startThread hs hr).imp_left fun ⟨hc, he⟩ => ⟨hc, hself he⟩
    | exitThread => exact .inr ⟨id, h.exitThread hs hr⟩
    | exitDeleteThread => exact .inr ⟨id, h.exitDeleteThread hs hr⟩
    | terminateThread id =>
      exact (h.sysTerminateThread hs hr).imp_left fun ⟨hc, he⟩ => ⟨hc, hself he⟩
    | sleepThread =>
      refine (h.sleepThread hs hr).imp_left fun ⟨hc, he⟩ => ⟨hc, ?_⟩
      rw [he]
      have hk : Keeps s (s.setThread s.currentThread fun t =>
          { t with wakeupCount := t.wakeupCount - 1 }) L.waiting :=
        ⟨sameCurrent_setThread _ fun _ => rfl, L,
          h.linked.setThread_shape _ ⟨rfl, rfl, rfl, rfl, rfl⟩, rfl⟩
      obtain ⟨L', hs', -⟩ := hk.scheduled h
      exact ⟨⟨rfl, rfl⟩, L', hs'⟩
    | waitSema id =>
      rcases h.waitSema hs hr with ⟨hc, he⟩ | ⟨hc, he⟩ | hsw
      · exact .inl ⟨.inl hc, hself he⟩
      · rw [he]
        obtain ⟨L', hs', -⟩ := (h.takeOne hc).scheduled h
        exact .inl ⟨.inr hc, ⟨rfl, rfl⟩, L', hs'⟩
      · exact .inr hsw
    | _ => cases hy

/-- **One system call keeps the queues**, if it is sound. -/
theorem Scheduled.call (h : Scheduled s L) {c : Call}
    (hc : ∀ d ∈ c.directForm, d.inRange) (hs : SoundCall s c) {r : ℕ × State}
    (hr : c.run s = some r) : ∃ L', Scheduled r.2 L' := by
  by_cases hd : ∃ d, c = .direct d
  · obtain ⟨d, rfl⟩ := hd
    obtain ⟨⟨a, s₁⟩, hd, rfl⟩ := Option.map_eq_some_iff.mp hr
    exact (h.directCall (hc d rfl) hd).1
  · rcases h.reschedules (fun d hcd => hd ⟨d, hcd⟩) hs hr with ⟨-, -, hsame⟩ | ⟨-, hsw⟩
    · exact hsame
    · exact hsw.scheduled

/-- **One step keeps the queues**, if it is sound. -/
theorem Scheduled.step {e : Event} {s' : State} (h : Scheduled s L) (he : SoundStep s e s') :
    ∃ L', Scheduled s' L' := by
  obtain ⟨hrange, hs, v, hr⟩ := he
  cases e with
  | syscall c block epc =>
    have h₁ : Scheduled { s with syscallContext := block, epc := epc } L :=
      ⟨h.linked.registers _ _ _ _ _ _, h.running⟩
    refine h₁.call hrange ?_ hr
    · -- what a call's soundness looks at is not in the registers
      cases c <;> exact hs
  | handler c =>
    obtain ⟨⟨a, s₁⟩, hd, hv⟩ := Option.map_eq_some_iff.mp hr
    obtain rfl : s₁ = s' := congrArg Prod.snd hv
    exact (h.directCall (hrange c rfl) hd).1
  | interruptEntry =>
    cases hr
    exact ⟨L, h.linked.registers _ _ _ _ _ _, h.running⟩
  | interruptExit frame =>
    obtain ⟨⟨f, s₁⟩, hd, hv⟩ := Option.map_eq_some_iff.mp hr
    obtain rfl : s₁ = s' := congrArg Prod.snd hv
    rcases h.linked.interruptReschedule hs hd with ⟨-, heq⟩ | ⟨-, id, hres⟩
    · obtain rfl : s₁ = s := congrArg Prod.snd heq
      exact ⟨L, h⟩
    · exact ⟨L, hres.scheduled⟩

end Steps

/-! ### Runs -/

/-- **The queues are consistent in every state of a run of sound steps.** -/
theorem runs_stay_consistent (threadRoot gp entry idleLoop idleStackTop : ℕ) (events : List Event)
    (s : State) (h : Steps SoundStep (boot threadRoot gp entry idleLoop idleStackTop) events s) :
    ∃ ready waiting free, Consistent s ready waiting free := by
  obtain ⟨L₀, hboot, -⟩ := Scheduled.boot threadRoot gp entry idleLoop idleStackTop
  obtain ⟨L, hs⟩ := h.invariant (I := fun s => ∃ L, Scheduled s L)
    (fun _ _ _ hI hstep => hI.elim fun _ hs => hs.step hstep) ⟨L₀, hboot⟩
  exact ⟨_, _, _, hs.linked.consistent⟩

/-! Soundness can be computed, so runs can be tried. -/

instance (s : State) : DecidablePred s.refuses
  | .startThread _ _ | .resumeThread _ => inferInstanceAs (Decidable (_ ∨ _))
  | .terminateThread _ | .changeThreadPriority _ _ | .releaseWaitThread _ | .wakeupThread _ =>
    inferInstanceAs (Decidable (_ ∨ _))
  | .rotateReadyQueue _ => inferInstanceAs (Decidable (_ ≤ _))
  | .deleteSema _ | .signalSema _ => inferInstanceAs (Decidable (¬_))
  | .direct _ | .exitThread | .exitDeleteThread | .sleepThread | .waitSema _ =>
    inferInstanceAs (Decidable False)

instance (s : State) : DecidablePred (SoundCall s)
  | .direct _ => inferInstanceAs (Decidable True)
  | .exitThread | .exitDeleteThread => inferInstanceAs (Decidable (MayLeave s))
  | .sleepThread => inferInstanceAs (Decidable (_ ∨ _))
  | .waitSema _ => inferInstanceAs (Decidable (_ → _ → _ ∧ _))
  | .terminateThread _ => inferInstanceAs (Decidable (_ ∨ _ ∨ _))
  | .startThread _ _ | .changeThreadPriority _ _ | .rotateReadyQueue _ | .releaseWaitThread _
  | .wakeupThread _ | .resumeThread _ | .deleteSema _ | .signalSema _ =>
    inferInstanceAs (Decidable (_ ∨ _))

instance (s : State) : DecidablePred (Sound s)
  | .syscall c _ _ => inferInstanceAs (Decidable (SoundCall s c))
  | .handler _ | .interruptEntry => inferInstanceAs (Decidable True)
  | .interruptExit _ => inferInstanceAs (Decidable (_ → _))

/-- The machine as a function. -/
def next (s : State) (e : Event) : Option State :=
  if e.inRange then (e.run s).map Prod.snd else none

/-- The machine as a function that stops before an unsound step. -/
def soundNext (s : State) (e : Event) : Option State := if Sound s e then next s e else none

/-- What `next` computes is a step. -/
theorem step_of_next {s t : State} {e : Event} (h : next s e = some t) : Step s e t := by
  unfold next at h
  split at h
  · rename_i hrange
    obtain ⟨⟨v, s₁⟩, hrun, rfl⟩ := Option.map_eq_some_iff.mp h
    exact ⟨hrange, v, hrun⟩
  · cases h

/-- What `soundNext` computes is a sound step. -/
theorem soundStep_of_soundNext {s t : State} {e : Event} (h : soundNext s e = some t) :
    SoundStep s e t := by
  unfold soundNext at h
  split at h
  · rename_i hs
    obtain ⟨hrange, hrun⟩ := step_of_next h
    exact ⟨hrange, hs, hrun⟩
  · cases h

/-- A call with all registers 0. -/
def Event.by (c : Call) : Event := .syscall c (fun _ => 0) 0

/-- The first program's thread starts a second one, which waits for a semaphore, is handed a
signal by an interrupt's handler, and is brought in by the interrupt's exit. -/
theorem runs_stay_consistent_signalled :
    let events : List Event :=
      [.by (.direct (.createThread ⟨0, 0, 0, 0, 10, 0, 0⟩)), .by (.startThread 2 0),
        .by (.direct (.createSema ⟨1, 0, 0, 0⟩)), .by (.waitSema 0), .interruptEntry,
        .handler (.signalSema 0), .interruptExit fun _ => 0]
    ∃ s, runList soundNext (boot 0 0 0 0 0) events = some s ∧ s.currentThread = 2 ∧
      ∃ ready waiting free, Consistent s ready waiting free := by
  intro events
  have h : (runList soundNext (boot 0 0 0 0 0) events).map State.currentThread = some 2 := by
    decide +kernel
  obtain ⟨s, hrun, hcur⟩ := Option.map_eq_some_iff.mp h
  exact ⟨s, hrun, hcur, runs_stay_consistent 0 0 0 0 0 events s
    (.of_runList (fun _ _ _ => soundStep_of_soundNext) hrun)⟩

/-- Two threads of one priority are ready, and the running one waits for a semaphore: the other
is ready and in no queue. -/
theorem waitSema_drops_a_thread :
    ∃ events s, Steps Step (boot 0 0 0 0 0) events s ∧
      ¬∃ ready waiting free, Consistent s ready waiting free := by
  have h : (runList next (boot 0 0 0 0 0)
      [.by (.direct (.createThread ⟨0, 0, 0, 0, 10, 0, 0⟩)),
        .by (.direct (.createThread ⟨0, 0, 0, 0, 10, 0, 0⟩)), .by (.startThread 2 0),
        .by (.startThread 3 0), .by (.direct (.createSema ⟨1, 0, 0, 0⟩)), .by (.waitSema 0)]).map
      (fun s => ((s.thread 3).state, s.queueOf 3, (s.readyQueue 10).head)) =
        some (.ready, 10, kNone) := by
    decide +kernel
  obtain ⟨s, hrun, hs⟩ := Option.map_eq_some_iff.mp h
  simp only [Prod.mk.injEq] at hs
  obtain ⟨hstate, hqueue, hhead⟩ := hs
  refine ⟨_, s, .of_runList (fun _ _ _ => step_of_next) hrun, ?_⟩
  rintro ⟨ready, waiting, free, hc⟩
  have hmem : 3 ∈ ready 10 := (hc.ready_iff 10 3).mpr ⟨by decide, .inr hstate, hqueue⟩
  rw [(hc.readyQueue 10 (by decide)).head_eq_nil_iff.mp hhead] at hmem
  exact List.not_mem_nil hmem

end PS2Bios.Kernel
