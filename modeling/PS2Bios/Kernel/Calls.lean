import Mathlib.Data.List.Perm.Basic
import PS2Bios.Kernel.Linked

/-!
# The EE kernel's calls keep the queues

One lemma for each helper of `src/kernel/thread.cpp` that moves a thread, and then one for each
direct-form call. Each says that the queues are `Linked` afterwards, and what has become of the
wait lists; the ready queues and the free list follow from the records.

`Scheduled` adds what a run needs besides: the running thread is not waiting and not free. It
may be suspended or dormant, because slots 0x37 and 0x26 do that to their caller and go on.
-/

namespace PS2Bios.Kernel

open Intrusive State

/-- The wait lists. -/
def Lists.waiting (L : Lists) : ℕ → List ℕ := fun m => L.queued (.waitList m)

@[simp] theorem Lists.append_ready_waiting (L : Lists) (queue id : ℕ) :
    (L.append (.ready queue) id).waiting = L.waiting := by
  funext m
  simp [waiting, append_queued]

@[simp] theorem Lists.remove_ready_waiting (L : Lists) (queue id : ℕ) :
    (L.remove (.ready queue) id).waiting = L.waiting := by
  funext m
  simp [waiting, remove_queued]

theorem Lists.remove_waitList_waiting (L : Lists) (m id : ℕ) :
    (L.remove (.waitList m) id).waiting =
      Function.update L.waiting m ((L.waiting m).erase id) := by
  funext m'
  simp only [waiting, remove_queued, Place.waitList.injEq, Function.update_apply]

/-! ### What the helpers leave alone -/

section Frame

variable (s : State) (id m : ℕ)

@[simp] theorem linkReady_thread : (s.linkReady id).thread = s.thread := rfl
@[simp] theorem linkReady_semaphore : (s.linkReady id).semaphore = s.semaphore := rfl
@[simp] theorem linkReady_frame : (s.linkReady id).frame = s.frame := rfl
@[simp] theorem linkReady_currentThread : (s.linkReady id).currentThread = s.currentThread := rfl

@[simp] theorem makeReady_thread (x : ℕ) : (s.makeReady id).thread x =
    if x = id then { s.thread id with state := .ready } else s.thread x := by
  simp [makeReady]

@[simp] theorem makeReady_semaphore : (s.makeReady id).semaphore = s.semaphore := rfl
@[simp] theorem makeReady_frame : (s.makeReady id).frame = s.frame := rfl
@[simp] theorem makeReady_currentThread : (s.makeReady id).currentThread = s.currentThread := rfl

@[simp] theorem takeOffReadyQueue_thread : (s.takeOffReadyQueue id).thread = s.thread := rfl
@[simp] theorem takeOffReadyQueue_semaphore :
    (s.takeOffReadyQueue id).semaphore = s.semaphore := rfl
@[simp] theorem takeOffReadyQueue_frame : (s.takeOffReadyQueue id).frame = s.frame := rfl
@[simp] theorem takeOffReadyQueue_currentThread :
    (s.takeOffReadyQueue id).currentThread = s.currentThread := rfl

@[simp] theorem unlinkWaiter_thread : (s.unlinkWaiter m id).thread = s.thread := rfl
@[simp] theorem unlinkWaiter_frame : (s.unlinkWaiter m id).frame = s.frame := rfl
@[simp] theorem unlinkWaiter_currentThread :
    (s.unlinkWaiter m id).currentThread = s.currentThread := rfl

/-- Taking a waiter off changes no semaphore's count. -/
@[simp] theorem unlinkWaiter_count (x : ℕ) :
    ((s.unlinkWaiter m id).semaphore x).count = (s.semaphore x).count := by
  simp only [unlinkWaiter, setSemaphore_semaphore]
  split
  · rename_i hx
    rw [hx]
  · rfl

@[simp] theorem leaveWaitList_thread (x : ℕ) : (s.leaveWaitList id).thread x =
    if x = id then { s.thread id with waitType := .notWaiting } else s.thread x := by
  unfold leaveWaitList
  dsimp only
  split <;> simp

@[simp] theorem leaveWaitList_frame : (s.leaveWaitList id).frame = s.frame := by
  unfold leaveWaitList
  dsimp only
  split <;> rfl

@[simp] theorem leaveWaitList_currentThread :
    (s.leaveWaitList id).currentThread = s.currentThread := by
  unfold leaveWaitList
  dsimp only
  split <;> rfl

/-- Leaving a wait list changes no semaphore's count. -/
@[simp] theorem leaveWaitList_count (x : ℕ) :
    ((s.leaveWaitList id).semaphore x).count = (s.semaphore x).count := by
  unfold leaveWaitList
  dsimp only
  split
  · rw [setThread_semaphore, unlinkWaiter_count]
  · rfl

@[simp] theorem setResumeValue_thread (v : ℕ) : (s.setResumeValue id v).thread = s.thread := rfl
@[simp] theorem setResumeValue_semaphore (v : ℕ) :
    (s.setResumeValue id v).semaphore = s.semaphore := rfl
@[simp] theorem setResumeValue_currentThread (v : ℕ) :
    (s.setResumeValue id v).currentThread = s.currentThread := rfl

@[simp] theorem setResumeValue_frame (v x : ℕ) : (s.setResumeValue id v).frame x kSlotV0 =
    if x = id then v else s.frame x kSlotV0 := by
  simp only [setResumeValue, Function.update_apply]
  split <;> simp

@[simp] theorem resetToDormant_semaphore : (s.resetToDormant id).semaphore = s.semaphore := rfl
@[simp] theorem resetToDormant_currentThread :
    (s.resetToDormant id).currentThread = s.currentThread := rfl

@[simp] theorem resetToDormant_state (x : ℕ) : ((s.resetToDormant id).thread x).state =
    if x = id then .dormant else (s.thread x).state := by
  simp only [resetToDormant, primeFrame, setThread_thread]
  split <;> rfl

@[simp] theorem takeFreeThread_thread : s.takeFreeThread.thread = s.thread := rfl

@[simp] theorem release_thread (x : ℕ) : (s.release id).thread x =
    if x = id then { s.thread id with state := .free } else s.thread x := by
  simp only [release, setThread_thread]

theorem resetToDormant_frame (x : ℕ) (hx : x ≠ id) : (s.resetToDormant id).frame x = s.frame x := by
  simp [resetToDormant, primeFrame, hx]

/-- A thread that is detached keeps its state until it is given another. -/
@[simp] theorem detach_thread_state (x : ℕ) :
    ((s.detach id).thread x).state = (s.thread x).state := by
  unfold detach
  split <;> try rfl
  all_goals
    rw [leaveWaitList_thread]
    split
    · rename_i hx
      rw [hx]
    · rfl

@[simp] theorem detach_frame : (s.detach id).frame = s.frame := by
  unfold detach
  split <;> first | rfl | exact leaveWaitList_frame s id

@[simp] theorem detach_currentThread : (s.detach id).currentThread = s.currentThread := by
  unfold detach
  split <;> first | rfl | exact leaveWaitList_currentThread s id

@[simp] theorem detach_count (x : ℕ) :
    ((s.detach id).semaphore x).count = (s.semaphore x).count := by
  unfold detach
  split <;> first | rfl | exact leaveWaitList_count s id x

end Frame

/-! ### The helpers -/

section Helpers

variable {s : State} {L : Lists} {out : Option ℕ} {id m : ℕ}

/-- A runnable thread is in its ready queue. -/
theorem Linked.mem_ready (h : Linked s L none) (hid : id < kThreads)
    (hr : runnable (s.thread id)) : id ∈ L.queued (.ready (s.queueOf id)) :=
  (h.mem_iff id _).mpr ⟨by simp, hid, hr, rfl⟩

/-- A thread waiting on a semaphore is on that semaphore's list. -/
theorem Linked.mem_waiting (h : Linked s L none) (hid : id < kThreads)
    (hw : waitsOn (s.thread id) m) : id ∈ L.waiting m :=
  (h.mem_iff id (.waitList m)).mpr ⟨by simp, hid, hw⟩

/-- What is on a semaphore's list is waiting on it. -/
theorem Linked.waitsOn_of_mem (h : Linked s L out) (hm : id ∈ L.waiting m) :
    id < kThreads ∧ waitsOn (s.thread id) m :=
  ((h.mem_iff id (.waitList m)).mp hm).2

/-- Only a semaphore in use has waiters. -/
theorem Linked.allocated_of_mem (h : Linked s L out) (hm : id ∈ L.waiting m) : allocated s m := by
  have hm : id ∈ L.queued (.waitList m) := hm
  exact h.family.on_of_mem hm

theorem Linked.takeOffReadyQueue (h : Linked s L none) (hid : id < kThreads)
    (hr : runnable (s.thread id)) :
    Linked (s.takeOffReadyQueue id) (L.remove (.ready (s.queueOf id)) id) (some id) :=
  h.unlink (n := 0) (h.mem_ready hid hr) (by rintro _ ⟨⟩)

/-- A runnable thread that is in no queue goes to the end of its own. -/
theorem Linked.linkReady (h : Linked s L (some id)) (hid : id < kThreads)
    (hr : runnable (s.thread id)) :
    Linked (s.linkReady id) (L.append (.ready (s.queueOf id)) id) none := by
  have hlow : ∀ queue, L.queued (.ready queue) ≠ [] →
      (if s.queueOf id < s.lowestReady then s.queueOf id else s.lowestReady) ≤ queue := by
    intro queue hne
    have := h.lowest queue hne
    split <;> omega
  have hq := ((h.lowestReady _ hlow).enqueue (p := .ready (s.queueOf id)) (n := 0) hid
    (queueOf_lt (h.priorities id hid).2) ⟨hr, rfl⟩ ?_ (by rintro _ ⟨⟩))
  · exact hq.registers _ _ _ _ _ _
  · rintro _ ⟨⟩
    dsimp only
    split <;> omega

/-- A thread that is in no queue is made ready in its own. -/
theorem Linked.makeReady (h : Linked s L (some id)) (hid : id < kThreads) :
    Linked (s.makeReady id) (L.append (.ready (s.queueOf id)) id) none := by
  have h₁ := h.setThread_out (fun t => { t with state := .ready }) fun hid => h.priorities id hid
  have h₂ := h₁.linkReady hid (.inr (by simp))
  have hq : (s.setThread id fun t => { t with state := .ready }).queueOf id = s.queueOf id := by
    simp [queueOf]
  rwa [hq] at h₂

/-- A waiter taken off its semaphore's list is in no queue. -/
theorem Linked.unlinkWaiter (h : Linked s L none) (hm : id ∈ L.waiting m) :
    Linked (s.unlinkWaiter m id) (L.remove (.waitList m) id) (some id) := by
  refine h.unlink (p := .waitList m) hm ?_
  rintro _ ⟨⟩
  have hal := h.allocated_of_mem hm
  have hpos := List.length_pos_of_mem hm
  rw [h.waitCount m hal]
  exact if_pos hpos

/-- The wait lists without a thread. -/
def Lists.without (L : Lists) (id : ℕ) : ℕ → List ℕ := fun m => (L.waiting m).erase id

/-- A thread is on one wait list at most. -/
theorem Linked.without_eq (h : Linked s L none) (hm : id ∈ L.waiting m) :
    (L.remove (.waitList m) id).waiting = L.without id := by
  funext m'
  rw [Lists.remove_waitList_waiting, Function.update_apply]
  split
  · rename_i heq
    rw [heq]
    rfl
  · rename_i hne
    refine (List.erase_of_not_mem fun hm' => hne ?_).symm
    exact Place.waitList.inj (h.family.disjoint (.waitList m') (.waitList m) id hm' hm)

/-- A thread that waits on no semaphore is on no wait list. -/
theorem Linked.without_eq_self (h : Linked s L none) (hw : ∀ m, ¬waitsOn (s.thread id) m) :
    L.without id = L.waiting := by
  funext m
  exact List.erase_of_not_mem fun hm => hw m (h.waitsOn_of_mem hm).2

/-- A waiting thread leaves whatever list it is on. -/
theorem Linked.leaveWaitList (h : Linked s L none) (hid : id < kThreads)
    (hst : (s.thread id).state = .wait ∨ (s.thread id).state = .waitSuspend) :
    ∃ L', Linked (s.leaveWaitList id) L' (some id) ∧ L'.waiting = L.without id := by
  by_cases hw : (s.thread id).waitType = .onSemaphore
  · have hm := h.mem_waiting hid ⟨hst, hw, rfl⟩
    have hlt := (h.allocated_of_mem hm).1
    refine ⟨_, ?_, h.without_eq hm⟩
    have h₁ := (h.unlinkWaiter hm).setThread_out (fun t => { t with waitType := .notWaiting })
      fun hid => h.priorities id hid
    unfold State.leaveWaitList
    dsimp only
    rwa [if_pos ⟨hw, hlt⟩]
  · have hno : ∀ m, ¬waitsOn (s.thread id) m := fun m hm => hw hm.2.1
    refine ⟨L, ?_, (h.without_eq_self hno).symm⟩
    have hb : ∀ p, ¬s.belongs id p := by
      rintro (queue | m)
      · rintro ⟨hr | hr, -⟩ <;> rcases hst with hst | hst <;> simp [hr] at hst
      · exact hno m
    have hfree : (s.thread id).state ≠ .free := by
      rcases hst with hst | hst <;> simp [hst]
    have h₁ := (h.open hb hfree).setThread_out (fun t => { t with waitType := .notWaiting })
      fun hid => h.priorities id hid
    unfold State.leaveWaitList
    dsimp only
    rwa [if_neg fun hc => hw hc.1]

/-- A thread that is neither runnable nor waiting nor free is out. -/
theorem Linked.open_of_state (h : Linked s L out) (hout : out = none)
    (hst : (s.thread id).state = .suspend ∨ (s.thread id).state = .dormant) :
    Linked s L (some id) := by
  subst hout
  refine h.open ?_ ?_
  · rintro (queue | m) ⟨hr | hr, -⟩ <;> rcases hst with hst | hst <;> simp [hr] at hst
  · rcases hst with hst | hst <;> simp [hst]

/-- And may stay out. -/
theorem Linked.close_of_state (h : Linked s L (some id))
    (hst : (s.thread id).state = .suspend ∨ (s.thread id).state = .dormant) :
    Linked s L none := by
  refine h.close ?_ ?_
  · rintro (queue | m) ⟨hr | hr, -⟩ <;> rcases hst with hst | hst <;> simp [hr] at hst
  · rcases hst with hst | hst <;> simp [hst]

/-- `detach` takes any thread in use out of whatever it is in. -/
theorem Linked.detach {i : ℕ} (h : Linked s L none) (hid : i < kThreads)
    (hfree : (s.thread i).state ≠ .free) :
    ∃ L', Linked (s.detach i) L' (some i) ∧ L'.waiting = L.without i := by
  have hno : (∀ m, ¬waitsOn (s.thread i) m) ∨ (s.thread i).state = .wait ∨
      (s.thread i).state = .waitSuspend := by
    by_cases hw : (s.thread i).state = .wait ∨ (s.thread i).state = .waitSuspend
    · exact .inr hw
    · exact .inl fun m hm => hw hm.1
  unfold State.detach
  cases hst : (s.thread i).state with
  | free => exact absurd hst hfree
  | run =>
    refine ⟨_, h.takeOffReadyQueue hid (.inl hst), ?_⟩
    rw [Lists.remove_ready_waiting, h.without_eq_self (hno.resolve_right (by simp [hst]))]
  | ready =>
    refine ⟨_, h.takeOffReadyQueue hid (.inr hst), ?_⟩
    rw [Lists.remove_ready_waiting, h.without_eq_self (hno.resolve_right (by simp [hst]))]
  | wait => exact h.leaveWaitList hid (.inl hst)
  | waitSuspend => exact h.leaveWaitList hid (.inr hst)
  | suspend =>
    exact ⟨L, h.open_of_state rfl (.inl hst),
      (h.without_eq_self (hno.resolve_right (by simp [hst]))).symm⟩
  | dormant =>
    exact ⟨L, h.open_of_state rfl (.inr hst),
      (h.without_eq_self (hno.resolve_right (by simp [hst]))).symm⟩

theorem Linked.primeFrame {i : ℕ} (h : Linked s L out) : Linked (s.primeFrame i) L out := by
  unfold State.primeFrame
  exact (h.registers _ _ _ _ _ _).setThread_shape _ ⟨rfl, rfl, rfl, rfl, rfl⟩

/-- A thread that is in no queue may go dormant. -/
theorem Linked.resetToDormant (h : Linked s L (some id)) : Linked (s.resetToDormant id) L none := by
  have h₁ := h.setThread_out (fun t =>
    { t with
      state := .dormant
      resumePc := t.entry
      currentPriority := t.initialPriority
      waitType := .notWaiting
      wakeupCount := 0 }) fun hid => ⟨(h.priorities id hid).1, (h.priorities id hid).1⟩
  refine Linked.close_of_state (h₁.primeFrame (i := id)) (.inr ?_)
  exact (resetToDormant_state s id id).trans (if_pos rfl)

theorem Linked.setResumeValue {i : ℕ} (h : Linked s L out) (v : ℕ) :
    Linked (s.setResumeValue i v) L out :=
  h.registers _ _ _ _ _ _

end Helpers

/-! ### The direct forms -/

/-- The running thread is not waiting, and its record is in use. -/
def Running (s : State) : Prop :=
  runnable s.current ∨ s.current.state = .suspend ∨ s.current.state = .dormant

/-- What holds between any two calls. -/
structure Scheduled (s : State) (L : Lists) : Prop where
  linked : Linked s L none
  running : Running s

/-- The same thread is running, in the same state. -/
structure SameCurrent (s s' : State) : Prop where
  currentThread : s'.currentThread = s.currentThread
  state : s'.current.state = s.current.state

/-- What a direct-form call leaves: queues that are linked, wait lists `waiting`, the same
running thread in the same state. -/
structure Keeps (s s' : State) (waiting : ℕ → List ℕ) : Prop extends SameCurrent s s' where
  linked : ∃ L', Linked s' L' none ∧ L'.waiting = waiting

section Direct

variable {s : State} {L : Lists} {id m : ℕ} {r : ℤ × State}

/-- The running thread's state is read off its record. -/
theorem sameCurrent_of {s' : State} (hc : s'.currentThread = s.currentThread)
    (hst : (s'.thread s.currentThread).state = (s.thread s.currentThread).state) :
    SameCurrent s s' :=
  ⟨hc, by rw [current, hc]; exact hst⟩

theorem SameCurrent.refl (s : State) : SameCurrent s s := ⟨rfl, rfl⟩

theorem SameCurrent.trans {s t u : State} (h₁ : SameCurrent s t) (h₂ : SameCurrent t u) :
    SameCurrent s u :=
  ⟨h₂.currentThread.trans h₁.currentThread, h₂.state.trans h₁.state⟩

/-- Writing a record keeps the running thread's state, if it is another's or keeps its own. -/
theorem sameCurrent_setThread (f : ThreadRecord → ThreadRecord)
    (hf : s.currentThread = id → (f (s.thread id)).state = (s.thread id).state) :
    SameCurrent s (s.setThread id f) := by
  refine sameCurrent_of rfl ?_
  rw [setThread_thread]
  split
  · rename_i hcur
    rw [hf hcur, hcur]
  · rfl

theorem Keeps.refl (h : Linked s L none) : Keeps s s L.waiting := ⟨.refl s, L, h, rfl⟩

/-- A thread with another state is another thread. -/
theorem Scheduled.ne_current {i : ℕ} (h : Scheduled s L)
    (hst : (s.thread i).state = .wait ∨ (s.thread i).state = .waitSuspend ∨
      (s.thread i).state = .free) : s.currentThread ≠ i := by
  rintro rfl
  rcases h.running with (hr | hr) | hr | hr <;> rw [current] at hr <;> simp [hr] at hst

/-- A new thread is dormant, and nothing else is touched. -/
theorem Scheduled.createThread (h : Scheduled s L) {p : ThreadParam}
    (hp : p.initialPriority % 2 ^ 16 < kPriorities) (hr : sysCreateThread p s = some r) :
    Keeps s r.2 L.waiting := by
  unfold sysCreateThread at hr
  split at hr <;> cases hr
  · exact .refl h.linked
  · rename_i hne
    obtain ⟨hid, hst⟩ := h.linked.freeThread_mem hne
    have hcur := h.ne_current (.inr (.inr hst))
    have h₁ := (h.linked.takeFree hne).registers s.rescheduleRequested
      (Function.update s.parkedByInterrupt s.freeThread false) s.frame s.syscallContext
      s.syscallRestoreFull s.epc
    refine ⟨sameCurrent_of rfl ?_, _,
      (h₁.setThread_out (p.fill _ _) fun _ => ⟨hp, hp⟩).resetToDormant, rfl⟩
    simp [hcur]

/-- A dormant thread's record is free again, and nothing else is touched. -/
theorem Scheduled.deleteThread (h : Scheduled s L) (hr : sysDeleteThread id s = some r) :
    Keeps s r.2 L.waiting := by
  unfold sysDeleteThread at hr
  split at hr <;> cases hr
  · exact .refl h.linked
  · rename_i hc
    rw [not_or, not_not, not_not] at hc
    obtain ⟨⟨-, hid, hcur⟩, hst⟩ := hc
    refine ⟨sameCurrent_of rfl ?_, _, (h.linked.open_of_state rfl (.inr hst)).giveBack hid, rfl⟩
    simp [Ne.symm hcur]

/-- A direct terminate of another thread. The caller may name itself: then it is dormant, and
goes on running. -/
theorem Scheduled.terminateThread (h : Scheduled s L) (hr : terminateThread id s = some r) :
    r.2 = s ∨ ((∃ L', Linked r.2 L' none ∧ L'.waiting = L.without id) ∧
      r.2.currentThread = s.currentThread ∧
      r.2.current.state = if s.currentThread = id then .dormant else s.current.state) := by
  unfold Kernel.terminateThread at hr
  split at hr
  · cases hr
    exact .inl rfl
  rename_i hrange
  split at hr <;> cases hr
  · exact .inl rfl
  rename_i hst
  rw [not_or] at hst
  obtain ⟨L', h₁, hw⟩ := h.linked.detach (i := id) (by omega) hst.1
  refine .inr ⟨⟨L', h₁.resetToDormant, hw⟩, by simp, ?_⟩
  refine (resetToDormant_state _ _ _).trans ?_
  simp [current]

/-- A ready thread moves to the queue of its new priority. -/
theorem Scheduled.changeThreadPriority (h : Scheduled s L) {priority : ℕ}
    (hr : changeThreadPriority id priority s = some r) : Keeps s r.2 L.waiting := by
  unfold Kernel.changeThreadPriority at hr
  generalize hid' : (if id = 0 then s.currentThread else id) = x at hr
  dsimp only at hr
  split at hr
  · cases hr
    exact .refl h.linked
  rename_i hrange
  split at hr
  · cases hr
    exact .refl h.linked
  have hx : x < kThreads := by omega
  have hprio : priority < kPriorities := by
    unfold kPriorities
    omega
  split at hr <;> cases hr
  · -- off one ready queue and onto another
    rename_i hrun
    have h₁ := (h.linked.takeOffReadyQueue hx hrun).setThread_out
      (fun t => { t with currentPriority := priority }) fun hx =>
        ⟨(h.linked.priorities x hx).1, hprio⟩
    have hrun' : runnable (((s.takeOffReadyQueue x).setThread x fun t =>
        { t with currentPriority := priority }).thread x) := by
      rw [setThread_thread, if_pos rfl]
      exact hrun
    refine ⟨sameCurrent_of rfl ?_, _, h₁.linkReady hx hrun', by simp⟩
    simp only [linkReady_thread, setThread_thread, takeOffReadyQueue_thread]
    split <;> simp_all
  · -- the priority says nothing while the thread is not runnable
    rename_i hrun
    have h₁ : Linked (s.setThread x fun t => { t with currentPriority := priority }) L none := by
      refine h.linked.setThread _ (.inr fun p => ?_) (.inr Iff.rfl) fun hx =>
        ⟨(h.linked.priorities x hx).1, hprio⟩
      cases p with
      | ready queue =>
        have hno : ¬runnable (s.thread x) := hrun
        simp [belongs, runnable] at hno ⊢
        tauto
      | waitList m => simp [belongs, waitsOn]
    exact ⟨sameCurrent_setThread (fun t => { t with currentPriority := priority }) fun _ => rfl, L,
      h₁, rfl⟩

/-- The first thread of a queue goes to its end. -/
theorem Scheduled.rotateReadyQueue (h : Scheduled s L) {priority : ℕ}
    (hr : rotateReadyQueue priority s = some r) : Keeps s r.2 L.waiting := by
  unfold Kernel.rotateReadyQueue at hr
  split at hr
  · cases hr
    exact .refl h.linked
  rename_i hrange
  have hon : s.isOn (.ready priority) := by
    have hlt : 128 < kQueues := by decide
    exact (show priority < kQueues by omega)
  have hq : IsQueue kNone s.links (s.readyQueue priority) (L.queued (.ready priority)) :=
    h.linked.family.queue (.ready priority) hon
  by_cases hhead : (s.readyQueue priority).head = kNone
  · -- nothing to rotate
    simp only [popFront, if_pos hhead, Function.update_eq_self, ne_eq, not_true_eq_false,
      if_false] at hr
    cases hr
    exact .refl h.linked
  simp only [popFront, if_neg hhead] at hr
  rw [if_pos hhead] at hr
  cases hr
  have hne : L.queued (.ready priority) ≠ [] := fun hnil => hhead (hq.head_eq_nil_iff.mpr hnil)
  have hm : (s.readyQueue priority).head ∈ L.queued (.ready priority) := by
    rw [hq.head]
    cases hl : L.queued (.ready priority) with
    | nil => exact absurd hl hne
    | cons x xs => exact List.mem_cons_self
  have h₁ := h.linked.unlink (n := 0) hm (by rintro _ ⟨⟩)
  have hb := ((h.linked.mem_iff _ _).mp hm).2.2
  have h₂ := h₁.enqueue (p := .ready priority) (n := 0) (h.linked.lt_of_mem hm)
    ((setQueue_isOn _ _ _ _ _).mpr hon) ((setQueue_belongs _ _ _ _ _ _).mpr hb)
    (fun queue hqueue => by
      cases hqueue
      exact h.linked.lowest priority hne)
    (by rintro _ ⟨⟩)
  exact ⟨⟨rfl, rfl⟩, _, h₂, by simp⟩

/-- A thread that is out is suspended. -/
theorem Linked.suspend (h : Linked s L (some id)) :
    Linked (s.setThread id fun t => { t with state := .suspend }) L none := by
  refine (h.setThread_out (fun t => { t with state := .suspend }) fun hid =>
    h.priorities id hid).close_of_state (.inl ?_)
  simp

/-- A call that is not refused takes the thread off the list it waits in. -/
theorem Scheduled.releaseWaitThread (h : Scheduled s L)
    (hr : releaseWaitThread id s = some r) : r.2 = s ∨ Keeps s r.2 (L.without id) := by
  unfold Kernel.releaseWaitThread at hr
  split at hr
  · cases hr
    exact .inl rfl
  rename_i hrange
  have hid : id < kThreads := by omega
  cases hst : (s.thread id).state with
  | wait =>
    simp only [hst] at hr
    cases hr
    have hcur := h.ne_current (i := id) (.inl hst)
    obtain ⟨L', h₁, hw⟩ := h.linked.leaveWaitList hid (.inl hst)
    refine .inr ⟨sameCurrent_of (by simp) ?_, _, (h₁.setResumeValue _).makeReady hid,
      by simpa using hw⟩
    simp [hcur]
  | waitSuspend =>
    simp only [hst] at hr
    cases hr
    have hcur := h.ne_current (i := id) (.inr (.inl hst))
    obtain ⟨L', h₁, hw⟩ := h.linked.leaveWaitList hid (.inr hst)
    refine .inr ⟨sameCurrent_of (by simp) ?_, L', (h₁.setResumeValue _).suspend, hw⟩
    simp [hcur]
  | _ =>
    simp only [hst] at hr
    cases hr
    exact .inl rfl

/-- A sleeping thread is made ready; no waiting one is touched. -/
theorem Scheduled.wakeupThread (h : Scheduled s L) (hr : wakeupThread id s = some r) :
    Keeps s r.2 L.waiting := by
  unfold Kernel.wakeupThread at hr
  split at hr
  · cases hr
    exact .refl h.linked
  rename_i hrange
  have hid : id < kThreads := by omega
  have hcount : Keeps s (countWakeup s id) L.waiting :=
    ⟨sameCurrent_setThread (fun t => { t with wakeupCount := add32 t.wakeupCount 1 })
      fun _ => rfl, L, h.linked.setThread_shape _ ⟨rfl, rfl, rfl, rfl, rfl⟩, rfl⟩
  -- a sleeping thread is on no list
  have hopen : (s.thread id).state = .wait ∨ (s.thread id).state = .waitSuspend →
      (s.thread id).waitType = .sleeping → Linked s L (some id) := by
    intro hst hw
    refine h.linked.open ?_ ?_
    · rintro (queue | m)
      · rintro ⟨hrun | hrun, -⟩ <;> rcases hst with hst | hst <;> simp [hrun] at hst
      · rintro ⟨-, hw', -⟩
        simp [hw] at hw'
    · rcases hst with hst | hst <;> simp [hst]
  cases hst : (s.thread id).state with
  | wait =>
    simp only [hst] at hr
    split at hr <;> cases hr
    · rename_i hw
      have hcur := h.ne_current (i := id) (.inl hst)
      have h₁ := (hopen (.inl hst) hw).setThread_out (fun t => { t with waitType := .notWaiting })
        fun hid => h.linked.priorities id hid
      exact ⟨sameCurrent_of rfl (by simp [hcur]), _, h₁.makeReady hid, by simp⟩
    · exact hcount
  | waitSuspend =>
    simp only [hst] at hr
    split at hr <;> cases hr
    · rename_i hw
      have hcur := h.ne_current (i := id) (.inr (.inl hst))
      refine ⟨sameCurrent_of rfl (by simp [hcur]), L, ?_, rfl⟩
      refine ((hopen (.inr hst) hw).setThread_out
        (fun t => { t with waitType := .notWaiting, state := .suspend }) fun hid =>
          h.linked.priorities id hid).close_of_state (.inl ?_)
      simp
    · exact hcount
  | ready | suspend =>
    simp only [hst] at hr
    cases hr
    exact hcount
  | _ =>
    simp only [hst] at hr
    cases hr
    exact .refl h.linked

/-- The wakeups kept are forgotten, and nothing else is touched. -/
theorem Scheduled.cancelWakeupThread (h : Scheduled s L)
    (hr : sysCancelWakeupThread id s = some r) : Keeps s r.2 L.waiting := by
  unfold sysCancelWakeupThread at hr
  split at hr <;> cases hr
  · exact .refl h.linked
  · dsimp only
    exact ⟨sameCurrent_setThread _ fun _ => rfl, L,
      h.linked.setThread_shape _ ⟨rfl, rfl, rfl, rfl, rfl⟩, rfl⟩

/-- A suspend. The caller may name itself: then it is suspended, and goes on running. -/
theorem Scheduled.suspendThread (h : Scheduled s L) (hr : sysSuspendThread id s = some r) :
    r.2 = s ∨ ((∃ L', Linked r.2 L' none ∧ L'.waiting = L.waiting) ∧
      r.2.currentThread = s.currentThread ∧
      r.2.current.state = if s.currentThread = id then .suspend else s.current.state) := by
  unfold sysSuspendThread at hr
  split at hr
  · cases hr
    exact .inl rfl
  rename_i hrange
  have hid : id < kThreads := by omega
  have hoff : runnable (s.thread id) →
      (∃ L', Linked ((s.takeOffReadyQueue id).setThread id fun t => { t with state := .suspend })
        L' none ∧ L'.waiting = L.waiting) ∧
      ((s.takeOffReadyQueue id).setThread id fun t => { t with state := .suspend }).current.state =
        if s.currentThread = id then .suspend else s.current.state := by
    intro hrun
    refine ⟨⟨_, (h.linked.takeOffReadyQueue hid hrun).suspend, by simp⟩, ?_⟩
    simp only [current, setThread_currentThread, takeOffReadyQueue_currentThread, setThread_thread,
      takeOffReadyQueue_thread]
    split <;> rfl
  cases hst : (s.thread id).state with
  | run =>
    simp only [hst] at hr
    cases hr
    obtain ⟨hl, hc⟩ := hoff (.inl hst)
    exact .inr ⟨hl, rfl, hc⟩
  | ready =>
    simp only [hst] at hr
    cases hr
    obtain ⟨hl, hc⟩ := hoff (.inr hst)
    exact .inr ⟨hl, rfl, hc⟩
  | wait =>
    simp only [hst] at hr
    cases hr
    have hcur := h.ne_current (i := id) (.inl hst)
    refine .inr ⟨⟨L, h.linked.setThread (fun t => { t with state := .waitSuspend })
      (.inr fun p => ?_) (.inr (by simp [hst])) fun hid => h.linked.priorities id hid, rfl⟩,
      rfl, ?_⟩
    · cases p <;> simp [belongs, runnable, waitsOn, hst]
    · simp [current, hcur]
  | _ =>
    simp only [hst] at hr
    cases hr
    exact .inl rfl

/-- A suspended thread goes back to waiting or to its queue. -/
theorem Scheduled.resumeThread (h : Scheduled s L) (hr : resumeThread id s = some r) :
    Keeps s r.2 L.waiting := by
  unfold Kernel.resumeThread at hr
  split at hr
  · cases hr
    exact .refl h.linked
  rename_i hvalid
  obtain ⟨-, hid, hcur⟩ := not_not.mp hvalid
  cases hst : (s.thread id).state with
  | suspend =>
    simp only [hst] at hr
    cases hr
    exact ⟨sameCurrent_of rfl (by simp [Ne.symm hcur]), _,
      (h.linked.open_of_state rfl (.inl hst)).makeReady hid, by simp⟩
  | waitSuspend =>
    simp only [hst] at hr
    cases hr
    refine ⟨sameCurrent_of rfl (by simp [Ne.symm hcur]), L,
      h.linked.setThread (fun t => { t with state := .wait }) (.inr fun p => ?_)
      (.inr (by simp [hst])) fun hid => h.linked.priorities id hid, rfl⟩
    cases p <;> simp [belongs, runnable, waitsOn, hst]
  | _ =>
    simp only [hst] at hr
    cases hr
    exact .refl h.linked

/-- A new semaphore has no waiters. -/
theorem Scheduled.createSema (h : Scheduled s L) {p : SemaParam}
    (hr : sysCreateSema p s = some r) : Keeps s r.2 L.waiting := by
  unfold sysCreateSema at hr
  split at hr
  · cases hr
    exact .refl h.linked
  rename_i hne
  split at hr <;> cases hr
  · exact .refl h.linked
  · dsimp only
    exact ⟨⟨rfl, rfl⟩, _, h.linked.takeSemaphore hne _ fun _ => ⟨rfl, rfl, rfl, rfl⟩, rfl⟩

/-- Taking one from a positive count. -/
theorem Scheduled.takeOne (h : Scheduled s L) (hpos : 0 < (s.semaphore m).count) :
    Keeps s (s.setSemaphore m fun m => { m with count := m.count - 1 }) L.waiting := by
  refine ⟨⟨rfl, rfl⟩, L, h.linked.setSemaphore _ ⟨⟨rfl, rfl, rfl⟩, rfl⟩
    (fun _ => show 0 ≤ (s.semaphore m).count by omega) fun _ => .inl ?_, rfl⟩
  show 0 ≤ (s.semaphore m).count - 1
  omega

/-- A poll changes a count at most. -/
theorem Scheduled.pollSema (h : Scheduled s L) (hr : sysPollSema m s = some r) :
    Keeps s r.2 L.waiting := by
  unfold sysPollSema at hr
  split at hr <;> cases hr
  · exact .refl h.linked
  · rename_i hc
    rw [not_or, not_not] at hc
    exact h.takeOne (by omega)

/-- Handing a thread on a semaphore's list back. -/
theorem Scheduled.wakeWaiter (h : Scheduled s L) (hm : id ∈ L.waiting m) :
    Keeps s (wakeWaiter s m id) (L.without id) := by
  obtain ⟨hid, hst, -, -⟩ := h.linked.waitsOn_of_mem hm
  have hcur : s.currentThread ≠ id := h.ne_current (hst.imp_right .inl)
  have h₁ := (h.linked.unlinkWaiter hm).setThread_out
    (fun t => { t with waitType := .notWaiting }) fun hid => h.linked.priorities id hid
  have hw := h.linked.without_eq hm
  unfold Kernel.wakeWaiter
  dsimp only
  have hstate : (((s.unlinkWaiter m id).setThread id fun t =>
      { t with waitType := .notWaiting }).thread id).state = (s.thread id).state := by simp
  rw [hstate]
  rcases hst with hst | hst <;> simp only [hst]
  · exact ⟨sameCurrent_of rfl (by simp [hcur]), _, h₁.makeReady hid, by simpa using hw⟩
  · exact ⟨sameCurrent_of rfl (by simp [hcur]), _, h₁.suspend, hw⟩

/-- The head of a wait list is on it. -/
theorem Linked.waitHead_mem (h : Linked s L none) (hm : allocated s m)
    (hne : (s.semaphore m).waitHead ≠ kNone) :
    ∃ xs, L.waiting m = (s.semaphore m).waitHead :: xs := by
  have hq : IsQueue kNone s.links ⟨(s.semaphore m).waitHead, (s.semaphore m).waitTail⟩
      (L.waiting m) := h.family.queue (.waitList m) hm
  have hhead := hq.head
  cases hl : L.waiting m with
  | nil =>
    rw [hl] at hhead
    exact absurd hhead hne
  | cons x xs =>
    rw [hl] at hhead
    exact ⟨xs, by rw [show (s.semaphore m).waitHead = x from hhead]⟩

/-- An empty wait list has no head. -/
theorem Linked.waiting_eq_nil (h : Linked s L none) (hm : allocated s m)
    (hnil : (s.semaphore m).waitHead = kNone) : L.waiting m = [] :=
  (IsQueue.head_eq_nil_iff (h.family.queue (.waitList m) hm)).mp hnil

/-- A signal takes the first waiter off, if there is one. -/
theorem Scheduled.signalSema (h : Scheduled s L) (hr : signalSema m s = some r) :
    Keeps s r.2 (if allocated s m then Function.update L.waiting m (L.waiting m).tail
      else L.waiting) := by
  unfold Kernel.signalSema at hr
  split at hr
  · rename_i hno
    cases hr
    rw [if_neg hno]
    exact .refl h.linked
  rename_i hal
  rw [not_not] at hal
  rw [if_pos hal]
  split at hr <;> cases hr
  · rename_i hnil
    have hw := h.linked.waiting_eq_nil hal hnil
    have htail : Function.update L.waiting m (L.waiting m).tail = L.waiting := by
      rw [hw, List.tail_nil, ← hw, Function.update_eq_self]
    rw [htail]
    dsimp only
    exact ⟨⟨rfl, rfl⟩, L, h.linked.setSemaphore _ ⟨⟨rfl, rfl, rfl⟩, rfl⟩ (fun _ => hal.2)
      fun _ => .inr hw, rfl⟩
  · rename_i hne
    obtain ⟨xs, hxs⟩ := h.linked.waitHead_mem hal hne
    have hm : (s.semaphore m).waitHead ∈ L.waiting m := by
      rw [hxs]
      exact List.mem_cons_self
    have hs : Scheduled (s.setResumeValue (s.semaphore m).waitHead m) L :=
      ⟨h.linked.setResumeValue _, h.running⟩
    have hk := hs.wakeWaiter hm
    have hwithout : L.without (s.semaphore m).waitHead =
        Function.update L.waiting m (L.waiting m).tail := by
      rw [← h.linked.without_eq hm, Lists.remove_waitList_waiting, hxs, List.erase_cons_head,
        List.tail_cons]
    rw [hwithout] at hk
    exact ⟨⟨hk.currentThread, hk.state⟩, hk.linked⟩

/-- There are no more waiters than threads. -/
theorem Linked.waiting_length_le (h : Linked s L out) (m : ℕ) :
    (L.waiting m).length ≤ kThreads := by
  have hnd : (L.waiting m).Nodup := by
    by_cases hm : allocated s m
    · exact (h.family.queue (.waitList m) hm).nodup
    · have : L.waiting m = [] := h.family.off (.waitList m) hm
      simp [this]
  have hsub : L.waiting m ⊆ List.range kThreads := fun x hx =>
    List.mem_range.mpr (h.waitsOn_of_mem hx).1
  simpa using (List.subperm_of_subset hnd hsub).length_le

/-- The threads `l` were handed the answer `v`: they are off their lists, ready or suspended,
and find `v` in `$v0`. The others keep their state and their `$v0`. -/
structure Handed (s s' : State) (l : List ℕ) (v : ℕ) : Prop where
  count : ∀ x, (s'.semaphore x).count = (s.semaphore x).count
  handed : ∀ x ∈ l, ((s'.thread x).state = .ready ∨ (s'.thread x).state = .suspend) ∧
    s'.frame x kSlotV0 = v
  others : ∀ x ∉ l, (s'.thread x).state = (s.thread x).state ∧
    s'.frame x kSlotV0 = s.frame x kSlotV0

/-- Waking one waiter hands it its answer. -/
theorem handed_wakeWaiter (hst : (s.thread id).state = .wait ∨ (s.thread id).state = .waitSuspend)
    (v : ℕ) : Handed s (wakeWaiter (s.setResumeValue id v) m id) [id] v := by
  have hstate : ((((s.setResumeValue id v).unlinkWaiter m id).setThread id fun t =>
      { t with waitType := .notWaiting }).thread id).state = (s.thread id).state := by simp
  unfold Kernel.wakeWaiter
  dsimp only
  rw [hstate]
  rcases hst with hst | hst <;> simp only [hst]
  · refine ⟨fun x => by simp, fun x hx => ?_, fun x hx => ?_⟩
    · obtain rfl := List.mem_singleton.mp hx
      simp
    · rw [List.mem_singleton] at hx
      simp [hx]
  · refine ⟨fun x => by simp, fun x hx => ?_, fun x hx => ?_⟩
    · obtain rfl := List.mem_singleton.mp hx
      simp
    · rw [List.mem_singleton] at hx
      simp [hx]

/-- The loop of slot 0x41 ends, hands -1 to every waiter and leaves the list empty. -/
theorem Scheduled.releaseWaiters {n : ℕ} (h : Scheduled s L) (hm : allocated s m)
    (hn : (L.waiting m).length ≤ n) :
    ∃ s', releaseWaiters m n s = some s' ∧ Keeps s s' (Function.update L.waiting m []) ∧
      Handed s s' (L.waiting m) (toWord (-1)) := by
  induction n generalizing s L with
  | zero =>
    have hnil : L.waiting m = [] := List.length_eq_zero_iff.mp (by omega)
    have hhead : (s.semaphore m).waitHead = kNone :=
      (IsQueue.head_eq_nil_iff (h.linked.family.queue (.waitList m) hm)).mpr hnil
    refine ⟨s, by rw [Kernel.releaseWaiters, if_pos hhead], ?_, ?_⟩
    · rw [← hnil, Function.update_eq_self]
      exact .refl h.linked
    · rw [hnil]
      exact ⟨fun _ => rfl, by simp, fun _ _ => ⟨rfl, rfl⟩⟩
  | succ n ih =>
    by_cases hhead : (s.semaphore m).waitHead = kNone
    · have hnil := h.linked.waiting_eq_nil hm hhead
      refine ⟨s, by rw [Kernel.releaseWaiters, if_pos hhead], ?_, ?_⟩
      · rw [← hnil, Function.update_eq_self]
        exact .refl h.linked
      · rw [hnil]
        exact ⟨fun _ => rfl, by simp, fun _ _ => ⟨rfl, rfl⟩⟩
    · obtain ⟨xs, hxs⟩ := h.linked.waitHead_mem hm hhead
      set w := (s.semaphore m).waitHead with hw
      have hmem : w ∈ L.waiting m := by
        rw [hxs]
        exact List.mem_cons_self
      have hnd : (w :: xs).Nodup := hxs ▸ (h.linked.family.queue (.waitList m) hm).nodup
      -- one turn of the loop
      have hs : Scheduled (s.setResumeValue w (toWord (-1))) L :=
        ⟨h.linked.setResumeValue _, h.running⟩
      have hk := hs.wakeWaiter hmem
      have hh := handed_wakeWaiter (m := m) (h.linked.waitsOn_of_mem hmem).2.1 (toWord (-1))
      obtain ⟨L₁, hl₁, hw₁⟩ := hk.linked
      have hrun₁ : Running (Kernel.wakeWaiter (s.setResumeValue w (toWord (-1))) m w) := by
        unfold Running runnable
        rw [hk.state]
        exact h.running
      have hxs₁ : L₁.waiting m = xs := by
        rw [hw₁, Lists.without, hxs, List.erase_cons_head]
      -- and the rest of them
      obtain ⟨s', hrest, hkeep, hhand⟩ := ih ⟨hl₁, hrun₁⟩ ⟨hm.1, by rw [hh.count]; exact hm.2⟩
        (by rw [hxs₁]; rw [hxs, List.length_cons] at hn; omega)
      refine ⟨s', ?_, ⟨⟨?_, ?_⟩, ?_⟩, ?_⟩
      · rw [Kernel.releaseWaiters, if_neg hhead]
        exact hrest
      · exact hkeep.currentThread.trans hk.currentThread
      · exact hkeep.state.trans hk.state
      · obtain ⟨L', hl', hw'⟩ := hkeep.linked
        refine ⟨L', hl', hw'.trans ?_⟩
        rw [hw₁, ← h.linked.without_eq hmem, Lists.remove_waitList_waiting, Function.update_idem]
      · rw [hxs₁] at hhand
        refine ⟨fun x => (hhand.count x).trans (hh.count x), fun x hx => ?_, fun x hx => ?_⟩
        · rw [hxs] at hx
          rcases List.mem_cons.mp hx with rfl | hx
          · have hout := hhand.others w (List.nodup_cons.mp hnd).1
            rw [hout.1, hout.2]
            exact hh.handed w (List.mem_singleton_self w)
          · exact hhand.handed x hx
        · rw [hxs, List.mem_cons, not_or] at hx
          have hout := hhand.others x hx.2
          have hout' := hh.others x (by simpa using hx.1)
          exact ⟨hout.1.trans hout'.1, hout.2.trans hout'.2⟩

/-- A semaphore that is deleted loses all its waiters. -/
theorem Scheduled.deleteSema (h : Scheduled s L) (hr : deleteSema m s = some r) :
    Keeps s r.2 (if allocated s m then Function.update L.waiting m [] else L.waiting) := by
  unfold Kernel.deleteSema at hr
  split at hr
  · rename_i hno
    cases hr
    rw [if_neg hno]
    exact .refl h.linked
  · rename_i hal
    rw [not_not] at hal
    rw [if_pos hal]
    obtain ⟨s', hs', hk, hh⟩ := h.releaseWaiters hal (h.linked.waiting_length_le m)
    rw [hs', Option.map_some, Option.some.injEq] at hr
    subst hr
    obtain ⟨L', hl, hw⟩ := hk.linked
    refine ⟨⟨hk.currentThread, hk.state⟩, _, hl.giveSemaphore ⟨hal.1, ?_⟩ ?_, hw⟩
    · rw [hh.count]
      exact hal.2
    · exact (congrFun hw m).trans (Function.update_self ..)

end Direct

end PS2Bios.Kernel
