import PS2Bios.Kernel.Scheduler

/-!
# The EE scheduler's pick

The rule is that the running thread is the head of the lowest-numbered non-empty ready queue
(`Picked`). Every switch establishes it, because the switch is the pick. A call that is answered
at once does not pick, and neither does an interrupt exit that finds no request: the kernel asks
for a switch at the exit when a thread is linked in a better queue than the running one's, and
at no other time. So handlers' calls keep the rule up to a request (`Due`), unless they take the
running thread itself from the head of its queue (`State.displaces`).
-/

namespace PS2Bios.Kernel

open Intrusive State

/-- The running thread is the head of the lowest-numbered non-empty ready queue. -/
def Picked (s : State) : Prop :=
  ∃ queue < kQueues, (s.readyQueue queue).head = s.currentThread ∧
    ∀ queue' < queue, (s.readyQueue queue').head = kNone

instance : DecidablePred Picked := fun s =>
  inferInstanceAs (Decidable (∃ queue < kQueues, (s.readyQueue queue).head = s.currentThread ∧
    ∀ queue' < queue, (s.readyQueue queue').head = kNone))

/-- The direct-form calls that take the running thread from the head of its queue. -/
def State.displaces (s : State) : DirectCall → Prop
  | .terminateThread id | .suspendThread id => id = s.currentThread
  | .changeThreadPriority id _ => id = 0 ∨ id = s.currentThread
  | .rotateReadyQueue priority => priority = s.queueOf s.currentThread
  | _ => False

instance (s : State) : DecidablePred s.displaces
  | .terminateThread _ | .suspendThread _ => inferInstanceAs (Decidable (_ = _))
  | .changeThreadPriority _ _ => inferInstanceAs (Decidable (_ ∨ _))
  | .rotateReadyQueue _ => inferInstanceAs (Decidable (_ = _))
  | .createThread _ | .deleteThread _ | .releaseWaitThread _ | .getThreadId | .referThreadStatus _
  | .wakeupThread _ | .cancelWakeupThread _ | .resumeThread _ | .createSema _ | .deleteSema _
  | .signalSema _ | .pollSema _ | .referSemaStatus _ => inferInstanceAs (Decidable False)

/-- The rule, read at the running thread's own queue. -/
structure Ahead (s : State) : Prop where
  head : (s.readyQueue (s.queueOf s.currentThread)).head = s.currentThread
  tail : (s.readyQueue (s.queueOf s.currentThread)).tail ≠ kNone
  before : ∀ queue < s.queueOf s.currentThread, (s.readyQueue queue).head = kNone

/-- The rule holds, or the interrupt exit will see to it. -/
def Due (s : State) : Prop := s.rescheduleRequested = true ∨ Ahead s

section Pick

variable {s t : State} {L : Lists} {id m : ℕ}

/-- The head of a ready queue, by its contents. -/
theorem Linked.head_eq (h : Linked s L none) {queue : ℕ} (hq : queue < kQueues) :
    (s.readyQueue queue).head = (L.queued (.ready queue)).headD kNone :=
  (h.family.queue (.ready queue) hq).head

/-- A switch brings in the pick. -/
theorem Switched.picked {r : ℕ × State} (h : Switched r) : Picked r.2 := by
  obtain ⟨s, L, id, hres⟩ := h
  obtain ⟨queue, xs, hl, hmin⟩ := hres.head
  have hmem : id ∈ L.queued (.ready queue) := by
    rw [hl]
    exact List.mem_cons_self
  obtain ⟨-, hid, -, rfl⟩ := (hres.linked.mem_iff id (.ready queue)).mp hmem
  have hq := queueOf_lt (hres.linked.priorities id hid).2
  refine ⟨_, hq, ?_, fun queue' hlt => ?_⟩
  · rw [hres.linked.head_eq hq, hl, hres.currentThread]
    rfl
  · rw [hres.linked.head_eq (hlt.trans hq)]
    by_contra hne
    have hne' : L.queued (.ready queue') ≠ [] := by
      intro hnil
      rw [hnil] at hne
      exact hne rfl
    have := hmin queue' hne'
    omega

/-- A thread that was picked is ahead of every ready one. -/
theorem Picked.ahead (h : Picked s) (hs : Linked s L none) : Ahead s := by
  obtain ⟨queue, hq, hhead, hbefore⟩ := h
  have hl : s.currentThread ∈ L.queued (.ready queue) := by
    rw [hs.head_eq hq] at hhead
    cases hlist : L.queued (.ready queue) with
    | nil =>
      rw [hlist] at hhead
      exact absurd hhead.symm (ne_kNone_of_lt hs.current)
    | cons x xs =>
      rw [hlist] at hhead
      exact List.mem_cons.mpr (.inl hhead.symm)
  obtain ⟨-, -, -, rfl⟩ := (hs.mem_iff _ (.ready queue)).mp hl
  refine ⟨hhead, fun htail => ?_, hbefore⟩
  have hnil : L.queued (.ready (s.queueOf s.currentThread)) = [] :=
    (hs.family.queue (.ready _) hq).tail_eq_nil_iff.mp htail
  rw [hnil] at hl
  exact List.not_mem_nil hl

theorem Ahead.picked (h : Ahead s) (hs : Linked s L none) : Picked s :=
  ⟨_, queueOf_lt (hs.priorities _ hs.current).2, h.head, h.before⟩

/-- Only the ready queues and the running thread's place in them matter. -/
theorem Ahead.congr (h : Ahead s) (hq : t.readyQueue = s.readyQueue)
    (hc : t.currentThread = s.currentThread)
    (hp : t.queueOf s.currentThread = s.queueOf s.currentThread) : Ahead t := by
  refine ⟨?_, ?_, ?_⟩ <;> rw [hc, hq, hp]
  · exact h.head
  · exact h.tail
  · exact h.before

theorem Due.congr (h : Due s) (hr : t.rescheduleRequested = s.rescheduleRequested)
    (hq : t.readyQueue = s.readyQueue) (hc : t.currentThread = s.currentThread)
    (hp : t.queueOf s.currentThread = s.queueOf s.currentThread) : Due t :=
  h.imp (fun h => hr.trans h) fun h => h.congr hq hc hp

/-- Another thread's queue is what its priority says. -/
theorem queueOf_congr (hp : (t.thread id).currentPriority = (s.thread id).currentPriority) :
    t.queueOf id = s.queueOf id := by
  unfold State.queueOf
  rw [hp]

/-- Writing a record that keeps its priority, or is not the running thread's. -/
theorem Due.setThread (h : Due s) (f : ThreadRecord → ThreadRecord)
    (hf : id = s.currentThread → (f (s.thread id)).currentPriority =
      (s.thread id).currentPriority) : Due (s.setThread id f) := by
  refine h.congr rfl rfl rfl (queueOf_congr ?_)
  rw [setThread_thread]
  split
  · rename_i hid
    rw [hf hid.symm, hid]
  · rfl

/-- **Linking a thread** behind the running one keeps the rule, and linking it in front asks for
a switch. -/
theorem Due.linkReady (h : Due s) (hid : id ≠ kNone) : Due (s.linkReady id) := by
  rcases h with h | h
  · exact .inl (by simp [State.linkReady, h])
  rcases Nat.lt_or_ge (s.queueOf id) (s.queueOf s.currentThread) with hlt | hge
  · exact .inl (by simp [State.linkReady, hlt])
  right
  have hqueue : (s.linkReady id).queueOf s.currentThread = s.queueOf s.currentThread := rfl
  have hother : ∀ queue ≠ s.queueOf id, (s.linkReady id).readyQueue queue = s.readyQueue queue :=
    fun queue hne => Function.update_of_ne hne _ _
  have hself : (s.linkReady id).readyQueue (s.queueOf id) =
      (enqueue kNone s.links (s.readyQueue (s.queueOf id)) id).2 := Function.update_self ..
  refine ⟨?_, ?_, fun queue hlt => ?_⟩
  · rw [linkReady_currentThread, hqueue]
    by_cases heq : s.queueOf s.currentThread = s.queueOf id
    · rw [heq, hself, ← heq]
      unfold enqueue
      rw [if_neg h.tail]
      exact h.head
    · rw [hother _ heq]
      exact h.head
  · rw [linkReady_currentThread, hqueue]
    by_cases heq : s.queueOf s.currentThread = s.queueOf id
    · rw [heq, hself, ← heq]
      unfold enqueue
      rw [if_neg h.tail]
      exact hid
    · rw [hother _ heq]
      exact h.tail
  · rw [linkReady_currentThread, hqueue] at hlt
    rw [hother _ (by omega)]
    exact h.before queue hlt

theorem Due.makeReady (h : Due s) (hid : id ≠ kNone) : Due (s.makeReady id) :=
  (h.setThread (fun t => { t with state := .ready }) fun _ => rfl).linkReady hid

/-- Another thread leaves its ready queue: the running thread stays the head of its own. -/
theorem Due.takeOffReadyQueue (h : Due s) (hs : Linked s L none) (hid : id < kThreads)
    (hrun : runnable (s.thread id)) (hne : id ≠ s.currentThread) :
    Due (s.takeOffReadyQueue id) := by
  refine h.imp_right fun h => ?_
  have hoff := hs.takeOffReadyQueue hid hrun
  have hq := queueOf_lt (hs.priorities _ hs.current).2
  have hcur : (s.takeOffReadyQueue id).queueOf s.currentThread = s.queueOf s.currentThread := rfl
  have hqueue := hoff.family.queue (.ready (s.queueOf s.currentThread)) hq
  have hlist : ∃ xs, (L.remove (.ready (s.queueOf id)) id).queued
      (.ready (s.queueOf s.currentThread)) = s.currentThread :: xs := by
    have hhead := hs.head_eq hq
    rw [h.head] at hhead
    cases hl : L.queued (.ready (s.queueOf s.currentThread)) with
    | nil =>
      rw [hl] at hhead
      exact absurd hhead (ne_kNone_of_lt hs.current)
    | cons x xs =>
      rw [hl] at hhead
      obtain rfl : s.currentThread = x := hhead
      rw [Lists.remove_queued]
      split
      · rename_i heq
        rw [← heq, hl, List.erase_cons_tail (by simpa using Ne.symm hne)]
        exact ⟨_, rfl⟩
      · exact ⟨xs, hl⟩
  obtain ⟨xs, hxs⟩ := hlist
  refine ⟨?_, fun htail => ?_, fun queue hlt => ?_⟩
  · have hhead := hqueue.head
    rw [hxs] at hhead
    exact hhead
  · have hnil := hqueue.tail_eq_nil_iff.mp htail
    rw [hxs] at hnil
    exact List.cons_ne_nil _ _ hnil
  · have hlt : queue < s.queueOf s.currentThread := hlt
    have hempty := h.before queue hlt
    have hne' : queue ≠ s.queueOf id := by
      rintro rfl
      have hm := hs.mem_ready hid hrun
      have hnil := (hs.family.queue (.ready (s.queueOf id)) (hlt.trans hq)).head_eq_nil_iff.mp
        hempty
      rw [hnil] at hm
      exact List.not_mem_nil hm
    exact (congrArg Queue.head (Function.update_of_ne hne' _ _)).trans hempty

/-- Leaving a wait list, and what is found in `$v0`, say nothing about the ready queues. -/
theorem Due.unlinkWaiter (h : Due s) : Due (s.unlinkWaiter m id) := h.congr rfl rfl rfl rfl

theorem Due.setResumeValue (h : Due s) (v : ℕ) : Due (s.setResumeValue id v) :=
  h.congr rfl rfl rfl rfl

/-- Leaving a wait list makes nobody ready. -/
theorem Due.leaveWaitList (h : Due s) : Due (s.leaveWaitList id) := by
  unfold State.leaveWaitList
  refine Due.setThread ?_ _ fun _ => rfl
  split
  · exact h.unlinkWaiter
  · exact h

/-- A waiter that is woken makes a reschedule due if it is better. -/
theorem Due.wakeWaiter (h : Due s) (hid : id ≠ kNone) : Due (wakeWaiter s m id) := by
  have h₁ : Due ((s.unlinkWaiter m id).setThread id fun t => { t with waitType := .notWaiting }) :=
    h.unlinkWaiter.setThread _ fun _ => rfl
  unfold Kernel.wakeWaiter
  dsimp only
  split
  · exact h₁.makeReady hid
  · exact h₁.setThread _ fun _ => rfl
  · exact h₁

/-- The waiters of a semaphore that is deleted make a reschedule due if one is better. -/
theorem Due.releaseWaiters {n : ℕ} (h : Due s) (hr : releaseWaiters m n s = some t) : Due t := by
  induction n generalizing s with
  | zero =>
    unfold Kernel.releaseWaiters at hr
    split at hr <;> cases hr
    exact h
  | succ n ih =>
    unfold Kernel.releaseWaiters at hr
    dsimp only at hr
    split at hr
    · cases hr
      exact h
    · rename_i hne
      exact ih ((h.setResumeValue _).wakeWaiter hne) hr

/-- Another thread goes back to dormant. -/
theorem Due.resetToDormant (h : Due s) (hne : id ≠ s.currentThread) :
    Due (s.resetToDormant id) := by
  refine h.congr rfl rfl rfl (queueOf_congr ?_)
  simp [State.resetToDormant, State.primeFrame, Ne.symm hne]

/-- Taking another thread from where it is makes nobody ready. -/
theorem Due.detach (h : Due s) (hs : Linked s L none) (hid : id < kThreads)
    (hne : id ≠ s.currentThread) : Due (s.detach id) := by
  unfold State.detach
  split
  · rename_i hst
    exact h.takeOffReadyQueue hs hid (.inl hst) hne
  · rename_i hst
    exact h.takeOffReadyQueue hs hid (.inr hst) hne
  · exact h.leaveWaitList
  · exact h.leaveWaitList
  · exact h

/-- A new thread is dormant, so nothing new is due. -/
theorem Due.createThread (h : Due s) (hs : Scheduled s L) {p : ThreadParam} {r : ℤ × State}
    (hr : sysCreateThread p s = some r) : Due r.2 := by
  unfold sysCreateThread at hr
  split at hr <;> cases hr
  · exact h
  · rename_i hne
    have hcur := hs.ne_current (.inr (.inr (hs.linked.freeThread_mem hne).2))
    refine Due.resetToDormant (h.congr rfl rfl rfl (queueOf_congr ?_)) (Ne.symm hcur)
    simp [hcur]

/-- Another thread's end makes nobody ready. -/
theorem Due.terminateThread (h : Due s) (hs : Linked s L none) (hne : id ≠ s.currentThread)
    {r : ℤ × State} (hr : terminateThread id s = some r) : Due r.2 := by
  rcases terminateThread_cases hr with ⟨-, rfl⟩ | ⟨hok, rfl⟩
  · exact h
  · have hid : id < kThreads := by
      by_contra hge
      exact hok (.inr (.inl (Nat.le_of_not_lt hge)))
    refine (h.detach hs hid hne).resetToDormant ?_
    rwa [detach_currentThread]

/-- Another thread's new priority makes a reschedule due if it is a better one. -/
theorem Due.changeThreadPriority (h : Due s) (hs : Linked s L none) {priority : ℕ}
    (hne : ¬(id = 0 ∨ id = s.currentThread)) {r : ℤ × State}
    (hr : changeThreadPriority id priority s = some r) : Due r.2 := by
  rw [not_or] at hne
  unfold Kernel.changeThreadPriority at hr
  dsimp only at hr
  rw [if_neg hne.1] at hr
  split at hr
  · cases hr
    exact h
  rename_i hrange
  split at hr
  · cases hr
    exact h
  have hid : id < kThreads := by omega
  split at hr <;> cases hr
  · rename_i hrun
    have h₁ := h.takeOffReadyQueue hs hid hrun hne.2
    exact (h₁.setThread _ fun heq => absurd heq hne.2).linkReady (ne_kNone_of_lt hid)
  · exact h.setThread _ fun heq => absurd heq hne.2

/-- A queue that the current thread is not of changes nothing that is due. -/
theorem Due.rotateReadyQueue (h : Due s) {priority : ℕ}
    (hne : priority ≠ s.queueOf s.currentThread) {r : ℤ × State}
    (hr : rotateReadyQueue priority s = some r) : Due r.2 := by
  -- whatever is done to the queue, it is not the running thread's, and not an empty one
  have hkeep : ∀ (q : Queue ℕ) (links : Links ℕ), (s.readyQueue priority).head ≠ kNone →
      Due { s with links := links, readyQueue := Function.update s.readyQueue priority q } := by
    intro q links hhead
    refine h.imp_right fun h => ?_
    have hself : Function.update s.readyQueue priority q (s.queueOf s.currentThread) =
        s.readyQueue (s.queueOf s.currentThread) := Function.update_of_ne (Ne.symm hne) _ _
    refine ⟨(congrArg Queue.head hself).trans h.head, fun ht => h.tail ?_, fun queue hlt => ?_⟩
    · exact (congrArg Queue.tail hself).symm.trans ht
    · have hqueue : queue ≠ priority := by
        rintro rfl
        exact hhead (h.before queue hlt)
      exact (congrArg Queue.head (Function.update_of_ne hqueue _ _)).trans (h.before queue hlt)
  unfold Kernel.rotateReadyQueue at hr
  split at hr
  · cases hr
    exact h
  by_cases hhead : (s.readyQueue priority).head = kNone
  · simp only [popFront, if_pos hhead, Function.update_eq_self, ne_eq, not_true_eq_false,
      if_false] at hr
    cases hr
    exact h
  · simp only [popFront, if_neg hhead] at hr
    rw [if_pos hhead] at hr
    cases hr
    rw [Function.update_idem]
    exact hkeep _ _ hhead

/-- Suspending another thread makes nobody ready. -/
theorem Due.suspendThread (h : Due s) (hs : Linked s L none) (hne : id ≠ s.currentThread)
    {r : ℤ × State} (hr : sysSuspendThread id s = some r) : Due r.2 := by
  unfold sysSuspendThread at hr
  split at hr
  · cases hr
    exact h
  rename_i hrange
  have hid : id < kThreads := by omega
  split at hr <;> cases hr
  · rename_i hst
    exact (h.takeOffReadyQueue hs hid (.inl hst) hne).setThread _ fun _ => rfl
  · rename_i hst
    exact (h.takeOffReadyQueue hs hid (.inr hst) hne).setThread _ fun _ => rfl
  · exact h.setThread _ fun _ => rfl
  · exact h

theorem Due.releaseWaitThread (h : Due s) {r : ℤ × State}
    (hr : releaseWaitThread id s = some r) : Due r.2 := by
  unfold Kernel.releaseWaitThread at hr
  split at hr
  · cases hr
    exact h
  rename_i hrange
  have hid : id ≠ kNone := ne_kNone_of_lt (by omega)
  have h₁ : Due ((s.leaveWaitList id).setResumeValue id (toWord (-1))) :=
    h.leaveWaitList.setResumeValue _
  split at hr <;> cases hr
  · exact h
  · exact h₁.makeReady hid
  · exact h₁.setThread _ fun _ => rfl
  · exact h

theorem Due.wakeupThread (h : Due s) {r : ℤ × State} (hr : wakeupThread id s = some r) :
    Due r.2 := by
  unfold Kernel.wakeupThread at hr
  split at hr
  · cases hr
    exact h
  rename_i hrange
  have hid : id ≠ kNone := ne_kNone_of_lt (by omega)
  have hcount : Due (countWakeup s id) := h.setThread _ fun _ => rfl
  split at hr
  · split at hr <;> cases hr
    · exact (h.setThread _ fun _ => rfl).makeReady hid
    · exact hcount
  · cases hr
    exact hcount
  · cases hr
    exact hcount
  · split at hr <;> cases hr
    · exact h.setThread _ fun _ => rfl
    · exact hcount
  · cases hr
    exact h

/-- A thread that is resumed makes a reschedule due if it is better. -/
theorem Due.resumeThread (h : Due s) {r : ℤ × State} (hr : resumeThread id s = some r) :
    Due r.2 := by
  unfold Kernel.resumeThread at hr
  split at hr
  · cases hr
    exact h
  rename_i hok
  rw [not_not] at hok
  split at hr <;> cases hr
  · exact h.makeReady (ne_kNone_of_lt hok.2.1)
  · exact h.setThread _ fun _ => rfl
  · exact h

/-- **A direct form that leaves the running thread in its place** keeps the rule, or asks for a
switch. -/
theorem Due.directCall (h : Due s) (hs : Scheduled s L) {c : DirectCall} (hc : ¬s.displaces c)
    {r : ℤ × State} (hr : c.run s = some r) : Due r.2 := by
  cases c with
  | createThread p => exact h.createThread hs hr
  | deleteThread id =>
    have hr : sysDeleteThread id s = some r := hr
    unfold sysDeleteThread at hr
    split at hr <;> cases hr
    · exact h
    · refine h.congr rfl rfl rfl (queueOf_congr ?_)
      rw [release_thread]
      split
      · rename_i heq
        rw [heq]
      · rfl
  | terminateThread id => exact h.terminateThread hs.linked hc hr
  | changeThreadPriority id priority => exact h.changeThreadPriority hs.linked hc hr
  | rotateReadyQueue priority => exact h.rotateReadyQueue hc hr
  | releaseWaitThread id => exact h.releaseWaitThread hr
  | getThreadId | referThreadStatus | referSemaStatus =>
    cases hr
    exact h
  | wakeupThread id => exact h.wakeupThread hr
  | cancelWakeupThread id =>
    have hr : sysCancelWakeupThread id s = some r := hr
    unfold sysCancelWakeupThread at hr
    split at hr <;> cases hr
    · exact h
    · exact h.setThread _ fun _ => rfl
  | suspendThread id => exact h.suspendThread hs.linked hc hr
  | resumeThread id => exact h.resumeThread hr
  | createSema p =>
    have hr : sysCreateSema p s = some r := hr
    unfold sysCreateSema at hr
    split at hr
    · cases hr
      exact h
    · split at hr <;> cases hr
      · exact h
      · exact h.congr rfl rfl rfl rfl
  | deleteSema id =>
    have hr : deleteSema id s = some r := hr
    unfold Kernel.deleteSema at hr
    split at hr
    · cases hr
      exact h
    · obtain ⟨s₁, hs₁, rfl⟩ := Option.map_eq_some_iff.mp hr
      exact (h.releaseWaiters hs₁).congr rfl rfl rfl rfl
  | signalSema id =>
    have hr : signalSema id s = some r := hr
    unfold Kernel.signalSema at hr
    dsimp only at hr
    split at hr
    · cases hr
      exact h
    · split at hr <;> cases hr
      · exact h.congr rfl rfl rfl rfl
      · rename_i hne
        exact (h.setResumeValue id).wakeWaiter hne
  | pollSema id =>
    have hr : sysPollSema id s = some r := hr
    unfold sysPollSema at hr
    split at hr <;> cases hr
    · exact h
    · exact h.congr rfl rfl rfl rfl

end Pick

/-! ### Runs -/

/-- The points the rule is about: the return of a rescheduling call, and the exit of an outermost
interrupt. -/
def Event.returns : Event → Prop
  | .syscall c _ _ => ∀ d, c ≠ .direct d
  | .interruptExit _ => True
  | .handler _ | .interruptEntry => False

/-- Whether the step picks a thread: the call is not answered at once, the exit finds a request. -/
def State.switches (s : State) : Event → Prop
  | .syscall c _ _ => ¬s.answersAtOnce c
  | .interruptExit _ => s.rescheduleRequested = true
  | .handler _ | .interruptEntry => False

/-- A step whose handlers leave the running thread in its place. -/
def PlacedStep (s : State) (e : Event) (t : State) : Prop :=
  (∀ c, e = .handler c → ¬s.displaces c) ∧ SoundStep s e t

section Runs

variable {s t : State} {L : Lists} {e : Event}

/-- A return picks, or leaves the running thread and the ready queues as they are. -/
theorem Scheduled.returns (h : Scheduled s L) (he : e.returns) (hst : SoundStep s e t) :
    (s.switches e ∧ Picked t) ∨ (¬s.switches e ∧ SameReady s t) := by
  obtain ⟨-, hs, v, hr⟩ := hst
  cases e with
  | syscall c block epc =>
    have h₁ : Scheduled { s with syscallContext := block, epc := epc } L :=
      ⟨h.linked.registers _ _ _ _ _ _, h.running⟩
    have hs₁ : SoundCall { s with syscallContext := block, epc := epc } c := by
      cases c <;> exact hs
    have honce : State.answersAtOnce { s with syscallContext := block, epc := epc } c ↔
        s.answersAtOnce c := by
      cases c <;> rfl
    rcases h₁.reschedules he hs₁ hr with ⟨hc, hsame, -⟩ | ⟨hc, hsw⟩
    · exact .inr ⟨not_not_intro (honce.mp hc), hsame.currentThread, hsame.readyQueue⟩
    · exact .inl ⟨fun ho => hc (honce.mpr ho), hsw.picked⟩
  | interruptExit frame =>
    obtain ⟨⟨f, s₁⟩, hd, hv⟩ := Option.map_eq_some_iff.mp hr
    obtain rfl : s₁ = t := congrArg Prod.snd hv
    rcases h.linked.interruptReschedule hs hd with ⟨hno, heq⟩ | ⟨hreq, id, hres⟩
    · obtain rfl : s₁ = s := congrArg Prod.snd heq
      refine .inr ⟨fun hreq => ?_, .refl s₁⟩
      exact Bool.false_ne_true (hno.symm.trans hreq)
    · exact .inl ⟨hreq, Switched.picked ⟨_, L, id, hres⟩⟩
  | handler c => exact absurd he id
  | interruptEntry => exact absurd he id

/-- The same running thread and the same ready queues: the rule holds as it did. -/
theorem SameReady.picked (h : SameReady s t) : Picked t ↔ Picked s := by
  unfold Picked
  rw [h.currentThread, h.readyQueue]

/-- The handlers of an interrupt keep the rule, up to a request. -/
theorem Due.handlers {calls : List DirectCall} (h : Due s) (hs : Scheduled s L)
    (hrun : Steps PlacedStep s (calls.map .handler) t) : Due t ∧ ∃ L', Scheduled t L' := by
  induction calls generalizing s L with
  | nil =>
    obtain rfl := Steps.nil_iff.mp hrun
    exact ⟨h, L, hs⟩
  | cons c calls ih =>
    obtain ⟨u, ⟨hplaced, hstep⟩, hrest⟩ := Steps.cons_iff.mp hrun
    obtain ⟨L', hs'⟩ := hs.step hstep
    obtain ⟨-, -, v, hv⟩ := hstep
    obtain ⟨r, hd, hv⟩ := Option.map_eq_some_iff.mp hv
    obtain rfl : r.2 = u := congrArg Prod.snd hv
    exact ih (h.directCall hs (hplaced c rfl) hd) hs' hrest

/-- **An interrupt entered under the rule is left under it**, when its handlers leave the running
thread in its place. -/
theorem Scheduled.interrupt (h : Scheduled s L) (hp : Picked s) {calls : List DirectCall}
    {frame : Block} (hrun : Steps PlacedStep s
      (.interruptEntry :: (calls.map .handler ++ [.interruptExit frame])) t) : Picked t := by
  obtain ⟨s₁, ⟨-, hentry⟩, hrest⟩ := Steps.cons_iff.mp hrun
  obtain ⟨L₁, h₁⟩ := h.step hentry
  obtain ⟨-, -, v, hv⟩ := hentry
  cases hv
  have hdue : Due s.clearRescheduleRequest :=
    .inr ((hp.ahead h.linked).congr rfl rfl rfl)
  obtain ⟨u, hcalls, hexit⟩ : ∃ u, Steps PlacedStep s.clearRescheduleRequest
      (calls.map .handler) u ∧ Steps PlacedStep u [.interruptExit frame] t :=
    Steps.append_iff.mp hrest
  obtain ⟨hdue', L', h'⟩ := hdue.handlers h₁ hcalls
  obtain ⟨w, ⟨-, hlast⟩, hnil⟩ := Steps.cons_iff.mp hexit
  obtain rfl := Steps.nil_iff.mp hnil
  rcases h'.returns (e := .interruptExit frame) trivial hlast with ⟨-, hpicked⟩ | ⟨hno, hsame⟩
  · exact hpicked
  · exact hsame.picked.mpr ((hdue'.resolve_left hno).picked h'.linked)

end Runs

/-- **The running thread is the pick** after every step that picks: at every state of a run of
sound steps, a rescheduling call that is not answered at once and an interrupt exit that finds a
request leave the head of the lowest-numbered non-empty ready queue running; the other
rescheduling calls and exits leave the running thread and the ready queues as they are; and an
interrupt whose handlers leave the running thread in its place keeps the rule. -/
theorem running_thread_is_the_pick (threadRoot gp entry idleLoop idleStackTop : ℕ)
    (events : List Event) (s : State)
    (h : Steps SoundStep (boot threadRoot gp entry idleLoop idleStackTop) events s) :
    (∀ e t, e.returns → SoundStep s e t → s.switches e → Picked t) ∧
      (∀ e t, e.returns → SoundStep s e t → ¬s.switches e → SameReady s t) ∧
      ∀ (calls : List DirectCall) (frame : Block) (t : State), Picked s → Steps PlacedStep s
        (.interruptEntry :: (calls.map .handler ++ [.interruptExit frame])) t → Picked t := by
  obtain ⟨L₀, hboot, -⟩ := Scheduled.boot threadRoot gp entry idleLoop idleStackTop
  obtain ⟨L, hs⟩ := h.invariant (I := fun s => ∃ L, Scheduled s L)
    (fun _ _ _ hI hstep => hI.elim fun _ hs => hs.step hstep) ⟨L₀, hboot⟩
  refine ⟨fun e t he hst hsw => ?_, fun e t he hst hsw => ?_, fun calls frame t hp hrun => ?_⟩
  · exact ((hs.returns he hst).resolve_right fun hno => hno.1 hsw).2
  · exact ((hs.returns he hst).resolve_left fun hyes => hsw hyes.1).2
  · exact hs.interrupt hp hrun

/-- A thread waits for a semaphore, a handler signals it, and the exit picks the thread. -/
theorem running_thread_is_the_pick_signalled :
    ∃ s t frame, SoundStep s (.interruptExit frame) t ∧ t.currentThread = 2 ∧ Picked t := by
  have h : (runList soundNext (boot 0 0 0 0 0)
      [.by (.direct (.createThread ⟨0, 0, 0, 0, 10, 0, 0⟩)), .by (.startThread 2 0),
        .by (.direct (.createSema ⟨1, 0, 0, 0⟩)), .by (.waitSema 0), .interruptEntry,
        .handler (.signalSema 0)]).bind (fun s =>
          (soundNext s (.interruptExit fun _ => 0)).map fun t =>
            (s.rescheduleRequested, t.currentThread)) = some (true, 2) := by
    decide +kernel
  obtain ⟨s, hrun, hs⟩ := Option.bind_eq_some_iff.mp h
  obtain ⟨t, ht, hst⟩ := Option.map_eq_some_iff.mp hs
  simp only [Prod.mk.injEq] at hst
  have hstep := soundStep_of_soundNext ht
  exact ⟨s, t, _, hstep, hst.2, (running_thread_is_the_pick 0 0 0 0 0 _ s
    (.of_runList (fun _ _ _ => soundStep_of_soundNext) hrun)).1
      (.interruptExit fun _ => 0) t trivial hstep hst.1⟩

/-- A handler that rotates the running thread's queue makes no request, and the thread that was
its head runs on. -/
theorem rotation_is_not_picked :
    ¬∀ events e s, e.returns → Steps Step (boot 0 0 0 0 0) (events ++ [e]) s → Picked s := by
  have h : (runList next (boot 0 0 0 0 0) ([.by (.direct (.createThread ⟨0, 0, 0, 0, 10, 0, 0⟩)),
      .by (.direct (.createThread ⟨0, 0, 0, 0, 10, 0, 0⟩)), .by (.startThread 2 0),
      .by (.startThread 3 0), .interruptEntry, .handler (.rotateReadyQueue 10)] ++
        [.interruptExit fun _ => 0])).map (fun s => decide (Picked s)) = some false := by
    decide +kernel
  obtain ⟨s, hrun, hs⟩ := Option.map_eq_some_iff.mp h
  intro hclaim
  exact of_decide_eq_false hs (hclaim _ (.interruptExit fun _ => 0) s trivial
    (.of_runList (fun _ _ _ => step_of_next) hrun))

end PS2Bios.Kernel
