import PS2Bios.Threadman.Calls

/-!
# Threads terminated, priorities changed, and rotations

What a thread or a handler does to a thread that does not wait for it. `Reranks` and `Rotates` say
how a change of a priority and a rotation go; with the moves that each call is permitted
(`Sched.permits`) they make up all that a call can do (`Effect`).
-/

namespace PS2Bios.Threadman

open Intrusive Sched

/-! ### Threads terminated -/

/-- A thread leaves the queue that it is in, if it is in one. -/
def Sched.withdraw (s : Sched) (k : ℕ) : Sched :=
  if (s.threads k).state = .ready then s.takeOffReady k
  else if (s.threads k).state = .wait then s.leaveWait k
  else s

/-- Where the thread is taken from before its priority changes: its ready queue or its waiters. -/
def Lists.withdraw (s : Sched) (L : Lists) (k : ℕ) : Lists :=
  if (s.threads k).state = .ready then L.remove (.ready (s.priorityOf k)) k
  else if (s.threads k).state = .wait then Lists.leave s L k
  else L

section Terminations

variable {s : Sched} {L : Lists} {k : ℕ}

/-- Withdrawing a thread changes no other record. -/
theorem withdraw_threads (s : Sched) (k j : ℕ) (hne : j ≠ k) :
    (s.withdraw k).threads j = s.threads j := by
  rw [withdraw]
  split
  · rw [takeOffReady_threads]
  · split
    · rw [leaveWait_threads, if_neg hne]
    · rfl

/-- Withdrawing a thread changes no object. -/
theorem same_withdraw (s : Sched) (k : ℕ) : Same s (s.withdraw k) := by
  rw [withdraw]
  split
  · exact same_takeOffReady s k
  · split
    · exact same_leaveWait s k
    · exact Same.refl s

/-- Withdrawing a thread changes nothing of who runs. -/
@[simp] theorem withdraw_current (s : Sched) (k : ℕ) : (s.withdraw k).current = s.current := by
  rw [withdraw]
  split
  · exact takeOffReady_current s k
  · split
    · exact leaveWait_current s k
    · rfl

/-- Withdrawing a thread changes nothing of who is to run. -/
@[simp] theorem withdraw_pending (s : Sched) (k : ℕ) : (s.withdraw k).pending = s.pending := by
  rw [withdraw]
  split
  · exact takeOffReady_pending s k
  · split
    · exact leaveWait_pending s k
    · rfl

/-- A thread that is withdrawn is in no queue. -/
theorem Sound.linked_withdraw (h : Sound s L) (hv : s.Valid k) (hpend : k ≠ s.pending) :
    Linked (s.withdraw k) (Lists.withdraw s L k) [k, s.pending] := by
  have hout : k ∉ [s.pending] := by simpa using hpend
  rw [withdraw, Lists.withdraw]
  split
  · next hs =>
    exact h.linked.takeOffReady ((h.linked.mem_iff k _).mpr ⟨hout, hv, hs, rfl⟩)
  · next hr =>
    split
    · next hs => exact h.linked.leaveWait hv hout hs
    · next hw => exact h.linked.open fun p => not_belongs hr hw

/-- A thread that is withdrawn may go dormant. -/
theorem Sound.terminate (h : Sound s L) (hv : s.Valid k) (hcur : k ≠ s.current)
    (hpend : k ≠ s.pending) :
    Sound ((s.withdraw k).setThread k fun t => { t with state := .dormant })
      (Lists.withdraw s L k) := by
  have hlinked := h.linked_withdraw hv hpend
  have hdormant : Linked ((s.withdraw k).setThread k fun t => { t with state := .dormant })
      (Lists.withdraw s L k) [k, s.pending] :=
    hlinked.setThread (.inl List.mem_cons_self) (hlinked.priorities k) fun hno => by cases hno
  have hclose := hdormant.close fun p => not_belongs (by simp) (by simp)
  have hsettled : ((s.withdraw k).setThread k fun t => { t with state := .dormant }).Settled ↔
      s.Settled := by simp [Settled]
  have hthreads : ∀ j, j ≠ k → ((s.withdraw k).setThread k fun t =>
      { t with state := .dormant }).threads j = s.threads j := fun j hj => by
    rw [setThread_ne _ _ _ hj, withdraw_threads s k j hj]
  refine ⟨by simpa using hclose, ?_, ?_, fun hset => ?_, fun hset => ?_, fun j hj hrun => ?_⟩
  · simpa using (same_withdraw s k).valid.mpr h.current
  · simpa using (same_withdraw s k).valid.mpr h.pending
  · simpa [hthreads _ hpend.symm] using h.settled (hsettled.mp hset)
  · simpa [hthreads _ hpend.symm] using h.staged (mt hsettled.mpr hset)
  · rcases eq_or_ne j k with rfl | hne
    · simp at hrun
    · rw [hthreads j hne] at hrun
      obtain ⟨heq, hset⟩ := h.running j ((same_withdraw s k).valid.mp hj) hrun
      exact ⟨by simpa using heq, hsettled.mpr hset⟩

end Terminations

/-! ### Priorities changed -/

/-- A ready thread is put into the queue of another priority. -/
def Sched.rerank (s : Sched) (k priority : ℕ) : Sched :=
  ((s.takeOffReady k).setPriority k priority).makeReady k

/-- A ready thread goes to the end of the queue of its new priority. -/
def Lists.rerank (s : Sched) (L : Lists) (k priority : ℕ) : Lists :=
  (L.remove (.ready (s.priorityOf k)) k).append (.ready priority) k

/-- What a change of the priority of `k` does. -/
inductive Reranks (s : Sched) (L : Lists) (k priority : ℕ) : Bool → Sched → Lists → Prop
  | requeued (hk : k ∈ L (.ready (s.priorityOf k))) :
      Reranks s L k priority true (s.rerank k priority) (Lists.rerank s L k priority)
  | decided {s' : Sched} {L' : Lists} (hk : k ∈ L (.ready (s.priorityOf k)))
      (hd : Decides (s.rerank k priority) (Lists.rerank s L k priority) k false s' L') :
      Reranks s L k priority false s' L'
  | written {interrupt : Bool} (hs : (s.threads k).state ≠ .ready)
      (h : k = s.current → interrupt = false → ∀ p, L (.ready p) = []) :
      Reranks s L k priority interrupt (s.setPriority k priority) L
  | kept {best : ℕ} {s₂ : Sched} {L₂ : Lists} (hset : s.Settled) (hk : k = s.current)
      (hpick : Picked (s.setPriority k priority) L s₂ best L₂)
      (hle : priority ≤ s.priorityOf best) :
      Reranks s L k priority false (s₂.makeReady best)
        (L₂.append (.ready (s.priorityOf best)) best)
  | yields {best : ℕ} {s₂ : Sched} {L₂ : Lists} (hset : s.Settled) (hk : k = s.current)
      (hpick : Picked (s.setPriority k priority) L s₂ best L₂)
      (hlt : s.priorityOf best < priority) :
      Reranks s L k priority false ((s₂.makeReady k).setPending best)
        (L₂.append (.ready priority) k)

/-- With the invariant behind it. -/
structure Reranked (s : Sched) (L : Lists) (k priority : ℕ) (interrupt : Bool) (s' : Sched)
    (L' : Lists) : Prop where
  reranks : Reranks s L k priority interrupt s' L'
  sound : Sound s' L'

section Priorities

variable {s : Sched} {L : Lists} {interrupt : Bool} {k priority : ℕ}

/-- The record of a thread whose priority changes. -/
theorem rerank_threads (s : Sched) (k priority j : ℕ) : (s.rerank k priority).threads j =
    if j = k then { s.threads k with
      state := .ready
      waitType := .notWaiting
      currentPriority := priority } else s.threads j := by
  rw [rerank, makeReady_threads]
  split
  · next hj => simp [setPriority]
  · next hj => simp [setPriority, setThread_threads, hj]

@[simp] theorem rerank_current (s : Sched) (k priority : ℕ) :
    (s.rerank k priority).current = s.current := by
  simp [rerank, setPriority]

@[simp] theorem rerank_pending (s : Sched) (k priority : ℕ) :
    (s.rerank k priority).pending = s.pending := by
  simp [rerank, setPriority]

theorem same_rerank (s : Sched) (k priority : ℕ) : Same s (s.rerank k priority) :=
  ((same_takeOffReady s k).trans (same_setThread _ k _)).trans (same_makeReady _ k)

theorem setPriority_priorityOf (s : Sched) (k priority j : ℕ) :
    (s.setPriority k priority).priorityOf j = if j = k then priority else s.priorityOf j := by
  rw [priorityOf, setPriority, setThread_threads, priorityOf]
  split <;> rfl

/-- A ready thread goes to the queue of its new priority. -/
theorem Sound.rerank (h : Sound s L) (hk : k ∈ L (.ready (s.priorityOf k)))
    (hp : priority < kPriorities) :
    Sound (s.rerank k priority) (Lists.rerank s L k priority) := by
  have hv := h.linked.valid_of_mem hk
  have hpend := h.ne_of_mem hk
  have hlinked : Linked ((s.takeOffReady k).setPriority k priority)
      (L.remove (.ready (s.priorityOf k)) k) [k, s.pending] :=
    (h.linked.takeOffReady hk).setThread (.inl List.mem_cons_self) (fun _ =>
      ⟨hp, by simpa using (h.linked.priorities k hv).2⟩) fun hs hw => by
        have hready := ((h.linked.mem_iff k _).mp hk).2.2.1
        rw [takeOffReady_threads] at hs
        exact absurd (hready.symm.trans hs) (by decide)
  have hready := hlinked.makeReady (by simpa using hpend)
    ((same_takeOffReady s k).valid.mpr hv)
  have hpriority : ((s.takeOffReady k).setPriority k priority).priorityOf k = priority := by
    rw [setPriority_priorityOf, if_pos rfl]
  rw [hpriority] at hready
  have hsettled : (s.rerank k priority).Settled ↔ s.Settled := by simp [Settled]
  refine ⟨by rwa [rerank_pending], ?_, ?_, fun hset => ?_, fun hset => ?_, fun j hj hrun => ?_⟩
  · rw [rerank_current]
    exact (same_rerank s k priority).valid.mpr h.current
  · rw [rerank_pending]
    exact (same_rerank s k priority).valid.mpr h.pending
  · rw [rerank_pending, rerank_threads, if_neg hpend.symm]
    exact h.settled (hsettled.mp hset)
  · rw [rerank_pending, rerank_threads, if_neg hpend.symm]
    exact h.staged (mt hsettled.mpr hset)
  · rw [rerank_threads] at hrun
    split at hrun
    · cases hrun
    · obtain ⟨hcur, hset⟩ := h.running j ((same_rerank s k priority).valid.mp hj) hrun
      exact ⟨by rw [rerank_current, hcur], hsettled.mpr hset⟩

/-- A priority that is stored changes no state. -/
theorem setPriority_state (s : Sched) (k priority j : ℕ) :
    ((s.setPriority k priority).threads j).state = (s.threads j).state := by
  rw [setPriority, setThread_threads]
  split
  · next hj => rw [hj]
  · rfl

/-- The priority of a thread that is in no ready queue and not staged. -/
theorem Sound.setPriority (h : Sound s L) (hv : s.Valid k) (hs : (s.threads k).state ≠ .ready)
    (hp : priority < kPriorities) : Sound (s.setPriority k priority) L := by
  have hstate := setPriority_state s k priority
  refine ⟨?_, h.current, h.pending, fun hset => ?_, fun hset => ?_, fun j hj hrun => ?_⟩
  · refine h.linked.setThread (.inr fun p => ?_) (fun hv => ⟨hp, (h.linked.priorities k hv).2⟩)
      fun hw hkind => ?_
    · cases p with
      | ready priority' => simp [belongs, hs]
      | waiters kind index => simp [belongs, waitObjectOf_eq]
    · exact h.linked.waits k hv hw hkind
  · exact (hstate _).trans (h.settled hset)
  · exact (hstate _).trans (h.staged hset)
  · exact h.running j hj ((hstate j).symm.trans hrun)

/-- Nothing of it depends on the priority of a thread that runs. -/
theorem setPriority_settled (s : Sched) (k priority : ℕ) :
    (s.setPriority k priority).Settled ↔ s.Settled := Iff.rfl

/-- **The running thread's priority is changed**, and it goes on unless a ready thread is better. -/
theorem Sound.yieldIfWorse (h : Sound s L) (hset : s.Settled) (hp : priority < kPriorities)
    (previous : ℤ) :
    ∃ L', Outcome (Reranked s L s.current priority false) false
      ((s.setPriority s.current priority).yieldIfWorse s.current previous) L' := by
  -- the caller runs, so the change of its priority moves it in no queue
  have hrun : (s.threads s.current).state = .run := by
    have hrun := h.settled hset
    rwa [show s.pending = s.current from hset] at hrun
  have hnr : (s.threads s.current).state ≠ .ready := by
    rw [hrun]
    decide
  have h₁ := h.setPriority h.current hnr hp
  rw [Sched.yieldIfWorse]
  -- nobody is ready, or the best of those who are is compared with it
  rcases h₁.linked.pick with ⟨hnone, hempty⟩ | ⟨best, s₂, L₂, heq, hpicked, hlinked⟩
  · rw [hnone]
    dsimp only
    rw [if_pos rfl]
    have hwritten : Reranked s L s.current priority false (s.setPriority s.current priority) L :=
      ⟨.written hnr fun _ _ => hempty, h₁⟩
    exact ⟨L, .of_returns hwritten (Settled.poised hset) (fun _ => hset) _⟩
  · rw [heq]
    dsimp only
    obtain ⟨r, n, hs₂⟩ := hpicked.same
    have hbest : best ≠ s.current := fun hbest => h₁.ne_of_mem hpicked.mem (hbest.trans hset.symm)
    have hpend : s₂.pending = s.current := by
      rw [hs₂, put_pending]
      exact hset
    have hcur : s₂.current = s.current := by
      rw [hs₂, put_current]
      rfl
    have hpri : ∀ j, s₂.priorityOf j = if j = s.current then priority else s.priorityOf j :=
      fun j => by rw [← setPriority_priorityOf, hs₂, priorityOf, put_threads, priorityOf]
    rw [if_neg (ne_kNone_of_lt hpicked.valid.1), hpri, hpri, if_neg hbest, if_pos rfl]
    have hsame : Same s s₂ := by
      rw [hs₂]
      exact (same_setThread s _ _).trans (same_put _ n _ r)
    have hstate : ∀ j, (s₂.threads j).state = (s.threads j).state := fun j => by
      rw [hs₂, put_threads, setPriority_state]
    rw [show (s.setPriority s.current priority).pending = s.current from hset] at hlinked
    -- a better one is handed over to, and the caller goes to the back of its queue
    split
    · next hlt =>
      have hback := hlinked.swap.makeReady (by simpa using hbest.symm) (hsame.valid.mpr h.current)
      rw [hpri, if_pos rfl] at hback
      have hset' : ¬ ((s₂.makeReady s.current).setPending best).Settled := by
        rw [Settled, setPending_pending, setPending_current, makeReady_current, hcur]
        exact hbest
      refine ⟨_, .of_traps (Reranked.mk (.yields hset rfl hpicked hlt) ?_) rfl hset' _⟩
      exact
        { linked := hback.setPending best
          current := by
            rw [setPending_current, makeReady_current, hcur]
            exact hsame.valid.mpr h.current
          pending := hsame.valid.mpr (h₁.linked.valid_of_mem hpicked.mem)
          settled := fun hno => absurd hno hset'
          staged := fun _ => by
            rw [setPending_pending, setPending_threads, makeReady_threads, if_neg hbest, hs₂,
              put_threads]
            exact hpicked.state
          running := fun j hj hs => by
            rw [setPending_threads, makeReady_threads] at hs
            split at hs
            · cases hs
            · next hne =>
              rw [hstate] at hs
              exact absurd (h.running j (hsame.valid.mp hj) hs).1 hne }
    -- otherwise the one picked goes back to the end of its queue
    · next hle =>
      have hback := hlinked.makeReady (by simpa using hbest) (hsame.valid.mpr
        (h₁.linked.valid_of_mem hpicked.mem))
      rw [hpri, if_neg hbest] at hback
      have hset' : (s₂.makeReady best).Settled := by
        rw [Settled, makeReady_pending, makeReady_current, hpend, hcur]
      refine ⟨_, .of_returns (Reranked.mk (.kept hset rfl hpicked (not_lt.mp hle)) ?_)
        hset'.poised (fun _ => hset') _⟩
      exact
        { linked := by
            rw [makeReady_pending, hpend]
            exact hback
          current := by
            rw [makeReady_current, hcur]
            exact hsame.valid.mpr h.current
          pending := by
            rw [makeReady_pending, hpend]
            exact hsame.valid.mpr h.current
          settled := fun _ => by
            rw [makeReady_pending, hpend, makeReady_threads, if_neg hbest.symm, hstate]
            exact hrun
          staged := fun hno => absurd hset' hno
          running := fun j hj hs => by
            rw [makeReady_threads] at hs
            split at hs
            · cases hs
            · rw [hstate] at hs
              exact ⟨(h.running j (hsame.valid.mp hj) hs).1.trans hcur.symm, hset'⟩ }

/-- An id that names a thread names one there is. -/
theorem valid_of_threadOrSelf (h : Sound s L) {id : UInt32} (hk : s.threadOrSelf id = some k) :
    s.Valid k := by
  rw [threadOrSelf] at hk
  split at hk
  · obtain rfl := Option.some.inj hk
    exact h.current
  · exact valid_of_threadOf hk

/-- A ready thread, of which nothing is staged, is requeued. -/
theorem Called.requeue (h : Called s L interrupt) (hk : k ∈ L (.ready (s.priorityOf k)))
    (hp : priority < kPriorities) (previous : ℤ) :
    ∃ L', Outcome (Reranked s L k priority interrupt) interrupt
      (s.requeue interrupt k priority previous) L' := by
  have hsound := h.sound.rerank hk hp
  have hsettled : (s.rerank k priority).Settled ↔ s.Settled := by simp [Settled]
  rw [Sched.requeue, ← Sched.rerank]
  cases interrupt with
  | true =>
    rw [if_pos rfl]
    have hpoised : (s.rerank k priority).Poised := fun hno => by
      rw [rerank_current, rerank_threads]
      split
      · rfl
      · exact h.poised (mt hsettled.mpr hno)
    have hre : Reranked s L k priority true (s.rerank k priority) (Lists.rerank s L k priority) :=
      ⟨.requeued hk, hsound⟩
    exact ⟨_, .of_returns hre hpoised (fun hi => by cases hi) _⟩
  | false =>
    rw [if_neg Bool.false_ne_true]
    have hset := hsettled.mpr (h.settled rfl)
    have hmem : k ∈ Lists.rerank s L k priority (.ready ((s.rerank k priority).priorityOf k)) := by
      rw [priorityOf, rerank_threads, if_pos rfl, Lists.rerank, Lists.append_apply, if_pos rfl]
      exact List.mem_append_right _ (List.mem_singleton_self k)
    obtain ⟨L', hd, hsound', htrap⟩ := hsound.handOffIfBetter hset hmem
    have hre : Reranked s L k priority false ((s.rerank k priority).handOffIfBetter k).1 L' :=
      ⟨.decided hk hd, hsound'⟩
    exact ⟨L', .andReturn hre (fun _ => htrap) (fun hi => by cases hi) _⟩

end Priorities

/-! ### Rotations -/

/-- What a rotation of the ready queue of a priority does. -/
inductive Rotates (s : Sched) (L : Lists) : Bool → Sched → Lists → Prop
  | yields {best : ℕ} {s₂ : Sched} {L₂ : Lists} (hset : s.Settled)
      (hpick : Picked (s.makeReady s.current)
        (L.append (.ready (s.priorityOf s.current)) s.current) s₂ best L₂) :
      Rotates s L false (s₂.setPending best) L₂
  | turns {interrupt : Bool} {priority k : ℕ} {l : List ℕ} (hl : L (.ready priority) = k :: l) :
      Rotates s L interrupt ((s.unlink (.ready priority) k).enqueue (.ready priority) k)
        (Function.update L (.ready priority) (l ++ [k]))

/-- Whom the loop of `setEventFlag` wakes of a list of waiters: who is satisfied by the bits, which
go with the first of them that waits to clear them. -/
def satisfiedBy (threads : ℕ → Thread) : UInt32 → List ℕ → List ℕ
  | _, [] => []
  | bits, j :: l =>
    if eventSatisfied bits (threads j).waitBits (threads j).waitMode then
      j :: satisfiedBy threads (if (threads j).waitMode &&& kWaitClear ≠ 0 then 0 else bits) l
    else satisfiedBy threads bits l

theorem mem_of_mem_satisfiedBy {threads : ℕ → Thread} {bits : UInt32} {l : List ℕ} {j : ℕ}
    (h : j ∈ satisfiedBy threads bits l) : j ∈ l := by
  induction l generalizing bits with
  | nil => exact h
  | cons i l ih =>
    rw [satisfiedBy] at h
    split at h
    · rcases List.mem_cons.mp h with rfl | h
      · exact List.mem_cons_self
      · exact List.mem_cons_of_mem i (ih h)
    · exact List.mem_cons_of_mem i (ih h)

/-- It depends on what each of them waits for. -/
theorem satisfiedBy_congr {threads threads' : ℕ → Thread} (bits : UInt32) (l : List ℕ)
    (h : ∀ j, (threads' j).waitBits = (threads j).waitBits ∧
      (threads' j).waitMode = (threads j).waitMode) :
    satisfiedBy threads' bits l = satisfiedBy threads bits l := by
  induction l generalizing bits with
  | nil => rfl
  | cons j l ih => rw [satisfiedBy, satisfiedBy, (h j).1, (h j).2, ih, ih]

/-- Whom a call may wake, and with what: the thread that it names, the first of those that wait on
the object that it names, those that its bits satisfy, or all. Three calls let their caller join a
list, and the calls that make and delete objects write the records of those. -/
def Sched.permits (s : Sched) (c : Service) : Permit where
  wakes k answer := match c with
    | .releaseWaitThread id => threadOf s.pools id = some k ∧ answer = kReleaseWait
    | .wakeupThread id =>
      threadOf s.pools id = some k ∧ (s.threads k).waitType = .sleep ∧ answer = kOk
    | .setEventFlag id bits =>
      (∃ i, eventOf s.pools id = some i ∧ s.belongs k (.waiters .event i) ∧ bits ≠ 0 ∧
        ∃ l, IsQueue kNone s.links (s.queues (.waiters .event i)) l ∧
          k ∈ satisfiedBy s.threads ((s.events i).bits ||| bits) l) ∧ answer = kOk
    | .signalSema id =>
      (∃ i, semaphoreOf s.pools id = some i ∧ s.belongs k (.waiters .semaphore i) ∧
        k = (s.queues (.waiters .semaphore i)).head) ∧ answer = kOk
    | .sendMbx _ id _ =>
      (∃ i, mailboxOf s.pools id = some i ∧ s.belongs k (.waiters .mailbox i) ∧
        k = (s.queues (.waiters .mailbox i)).head) ∧ answer = kOk
    | .deleteEventFlag id =>
      (∃ i, eventOf s.pools id = some i ∧ s.belongs k (.waiters .event i)) ∧ answer = kWaitDelete
    | .deleteSema id =>
      (∃ i, semaphoreOf s.pools id = some i ∧ s.belongs k (.waiters .semaphore i)) ∧
        answer = kWaitDelete
    | .deleteMbx id =>
      (∃ i, mailboxOf s.pools id = some i ∧ s.belongs k (.waiters .mailbox i)) ∧
        answer = kWaitDelete
    | _ => False
  joins kind index byPriority := match c with
    | .waitSema id => kind = .semaphore ∧ semaphoreOf s.pools id = some index ∧
      byPriority = ((s.semaphores index).attr &&& kSemaPriority != 0)
    | .waitEventFlag id _ _ _ _ => kind = .event ∧ eventOf s.pools id = some index ∧
      byPriority = false
    | .receiveMbx _ id => kind = .mailbox ∧ mailboxOf s.pools id = some index ∧
      byPriority = ((s.mailboxes index).attr &&& kMbxThreadPriority != 0)
    | _ => False
  remakes kind k := match c with
    | .createEventFlag _ _ => kind = .event
    | .createSema _ _ _ => kind = .semaphore
    | .createMbx _ => kind = .mailbox
    | .deleteEventFlag id => kind = .event ∧ eventOf s.pools id = some k
    | .deleteSema id => kind = .semaphore ∧ semaphoreOf s.pools id = some k
    | .deleteMbx id => kind = .mailbox ∧ mailboxOf s.pools id = some k
    | _ => False

/-- What a call can do. -/
inductive Effect (s : Sched) (L : Lists) (interrupt : Bool) : Service → Sched → Lists → Prop
  | moves {c : Service} {s' : Sched} {L' : Lists} (h : Moves (s.permits c) s L s' L') :
      Effect s L interrupt c s' L'
  | terminates {id : UInt32} {k : ℕ} (hk : threadOf s.pools id = some k) (hcur : k ≠ s.current)
      (hpend : k ≠ s.pending)
      (hs : Sound ((s.withdraw k).setThread k fun t => { t with state := .dormant })
        (Lists.withdraw s L k)) :
      Effect s L interrupt (.terminateThread id)
        ((s.withdraw k).setThread k fun t => { t with state := .dormant }) (Lists.withdraw s L k)
  | reranks {id priority : UInt32} {k : ℕ} {s' : Sched} {L' : Lists}
      (hp : 1 ≤ priority ∧ priority ≤ 126) (hk : s.threadOrSelf id = some k)
      (hs : (s.threads k).state ≠ .dormant)
      (h : Reranked s L k priority.toNat interrupt s' L') :
      Effect s L interrupt (.changeThreadPriority id priority) s' L'
  | rotates {priority : UInt32} {s' : Sched} {L' : Lists} (h : Rotates s L interrupt s' L')
      (hs : Sound s' L') : Effect s L interrupt (.rotateThreadReadyQueue priority) s' L'

section Effects

variable {s : Sched} {L : Lists} {out : List ℕ} {interrupt : Bool} {k : ℕ}

/-- Each service leaves the scheduler sound. -/
theorem Effect.sound {c : Service} {s' : Sched} {L' : Lists} (h : Effect s L interrupt c s' L') :
    Sound s' L' := by
  cases h with
  | moves h => exact h.sound
  | terminates _ _ _ hs => exact hs
  | reranks _ _ _ h => exact h.sound
  | rotates _ hs => exact hs

theorem Outcome.mono {E E' : Sched → Lists → Prop} {r : Sched × Reply} {L' : Lists}
    (h : Outcome E interrupt r L') (hE : E r.1 L' → E' r.1 L') : Outcome E' interrupt r L' :=
  ⟨hE h.effect, h.thread, h.handler⟩

/-- A call that is made of moves. -/
theorem Outcome.effect_of_moves {r : Sched × Reply} {L' : Lists}
    (h : Performed (s.permits c) s L interrupt r L')  :
    Outcome (Effect s L interrupt c) interrupt r L' :=
  h.mono .moves

/-- A thread's end leaves the queues in order. -/
theorem Called.terminateThread (h : Called s L interrupt) (id : UInt32)
    (hcareful : threadOf s.pools id = some s.pending → s.Settled) :
    ∃ L', Outcome (Effect s L interrupt (.terminateThread id)) interrupt (s.terminateThread id)
      L' := by
  have hrefuses : ∀ v, ∃ L', Outcome (Effect s L interrupt (.terminateThread id)) interrupt
      (s, .returns v) L' := fun v => (h.refuses v).imp fun _ hr => hr.effect_of_moves
  rw [Sched.terminateThread]
  split
  · exact hrefuses _
  · cases hfound : threadOf s.pools id with
    | none => exact hrefuses _
    | some k =>
      dsimp only
      split
      · exact hrefuses _
      · next hcur =>
        split
        · exact hrefuses _
        · have hv := valid_of_threadOf hfound
          have hpend : k ≠ s.pending := by
            rintro rfl
            exact hcur (hcareful hfound)
          have hpending : ¬ (s.withdraw k).pending = k := by
            rw [withdraw_pending]
            exact hpend.symm
          rw [← withdraw, if_neg hpending]
          have heffect : Effect s L interrupt (.terminateThread id)
              ((s.withdraw k).setThread k fun t => { t with state := .dormant })
              (Lists.withdraw s L k) :=
            .terminates hfound hcur hpend (h.sound.terminate hv hcur hpend)
          refine ⟨_, .of_returns heffect (fun hset => ?_) (fun hi => ?_) _⟩
          · have hne : s.current ≠ k := Ne.symm hcur
            have hset' : ¬ s.Settled := by simpa [Settled] using hset
            have hthread : ((s.withdraw k).setThread k fun t =>
                { t with state := .dormant }).threads s.current = s.threads s.current := by
              rw [setThread_ne _ _ _ hne, withdraw_threads s k _ hne]
            simpa [hthread] using h.poised hset'
          · simpa [Settled] using h.settled hi

/-- A change of priority leaves the queues in order. -/
theorem Called.changeThreadPriority (h : Called s L interrupt) (id priority : UInt32)
    (hcareful : 1 ≤ priority → priority ≤ 126 → s.threadOrSelf id = some s.pending → s.Settled) :
    ∃ L', Outcome (Effect s L interrupt (.changeThreadPriority id priority)) interrupt
      (s.changeThreadPriority interrupt id priority) L' := by
  have hrefuses : ∀ v, ∃ L', Outcome (Effect s L interrupt (.changeThreadPriority id priority))
      interrupt (s, .returns v) L' := fun v =>
    (h.refuses v).imp fun _ hr => hr.effect_of_moves
  rw [Sched.changeThreadPriority]
  split
  · exact hrefuses _
  · next hlegal =>
    have hp : 1 ≤ priority ∧ priority ≤ 126 :=
      (not_or.mp hlegal).imp UInt32.not_lt.mp UInt32.not_lt.mp
    have hlt := lt_of_legal hp
    cases hfound : s.threadOrSelf id with
    | none => exact hrefuses _
    | some k =>
      dsimp only
      have hv := valid_of_threadOrSelf h.sound hfound
      -- a dormant thread keeps its priority; a ready one moves to another queue; the caller may
      -- yield
      split
      · exact hrefuses _
      · next hdormant =>
        split
        · next hready =>
          have hpend : k ≠ s.pending := by
            rintro rfl
            have hrun := h.sound.settled (hcareful hp.1 hp.2 hfound)
            exact absurd (hready.symm.trans hrun) (by decide)
          have hmem : k ∈ L (.ready (s.priorityOf k)) :=
            (h.sound.linked.mem_iff k _).mpr ⟨by simpa using hpend, hv, hready, rfl⟩
          obtain ⟨L', hout⟩ := h.requeue hmem hlt (s.priorityOf k)
          exact ⟨L', hout.mono (.reranks hp hfound hdormant)⟩
        · next hready =>
          split
          · next hself =>
            obtain rfl : k = s.current := hself.1
            obtain rfl := hself.2
            obtain ⟨L', hout⟩ :=
              h.sound.yieldIfWorse (h.settled rfl) hlt (s.priorityOf s.current)
            exact ⟨L', hout.mono (.reranks hp hfound hdormant)⟩
          -- a thread that waits has its priority written, and that is all
          · next hother =>
            have hwritten : Reranked s L k priority.toNat interrupt
                (s.setPriority k priority.toNat) L :=
              ⟨.written hready fun hk hi => absurd ⟨hk, hi⟩ hother,
                h.sound.setPriority hv hready hlt⟩
            have heffect : Effect s L interrupt (.changeThreadPriority id priority)
                (s.setPriority k priority.toNat) L := .reranks hp hfound hdormant hwritten
            refine ⟨L, .of_returns heffect (fun hno => ?_) (fun hi => h.settled hi) _⟩
            exact (setPriority_state s k priority.toNat s.current).trans (h.poised hno)

theorem Linked.head (h : Linked s L out) {p : Place} (hp : s.isOn p) :
    (s.queues p).head = (L p).headD kNone := (h.family.queue p hp).head

/-- The caller goes behind its peers, and the best thread is staged. -/
theorem Sound.rotate (h : Sound s L) (hset : s.Settled)
    (hpeer : (s.queues (.ready (s.priorityOf s.current))).head ≠ kNone) :
    ∃ L', Rotates s L false
        ((s.makeReady s.current).pick.2.setPending (s.makeReady s.current).pick.1) L' ∧
      Sound ((s.makeReady s.current).pick.2.setPending (s.makeReady s.current).pick.1) L' ∧
      ¬ ((s.makeReady s.current).pick.2.setPending (s.makeReady s.current).pick.1).Settled := by
  have hlinked := h.linked
  rw [show s.pending = s.current from hset] at hlinked
  have hback := hlinked.makeReady List.not_mem_nil h.current
  have hrun : ∀ j, (s.makeReady s.current).Valid j →
      ((s.makeReady s.current).threads j).state ≠ .run := by
    intro j hj hs
    rw [makeReady_threads] at hs
    split at hs
    · cases hs
    · next hne => exact hne (h.running j hj hs).1
  rcases hback.stageBest h.current hrun with ⟨-, hempty⟩ | ⟨best, s₂, L₂, heq, hpicked, hsound⟩
  · have hno := hempty (s.priorityOf s.current)
    rw [Lists.append_apply, if_pos rfl] at hno
    exact absurd hno (List.append_ne_nil_of_right_ne_nil _ (List.cons_ne_nil _ _))
  · have hne : best ≠ (s.makeReady s.current).current := by
      rintro rfl
      obtain ⟨l, hl, -⟩ := hpicked.head
      have hpri : (s.makeReady s.current).priorityOf (s.makeReady s.current).current =
          s.priorityOf s.current := by
        rw [makeReady_current, priorityOf, makeReady_threads, if_pos rfl, priorityOf]
      rw [hpri, Lists.append_apply, if_pos rfl, makeReady_current] at hl
      -- another thread is ahead of it
      rw [hlinked.head (p := .ready _) trivial] at hpeer
      cases hqueue : L (.ready (s.priorityOf s.current)) with
      | nil =>
        rw [hqueue] at hpeer
        exact hpeer rfl
      | cons x l' =>
        rw [hqueue] at hl
        obtain rfl := (List.cons.inj hl).1
        exact hlinked.not_mem (.ready (s.priorityOf s.current)) (hqueue ▸ List.mem_cons_self)
    obtain ⟨r, n, hs₂⟩ := hpicked.same
    rw [heq]
    refine ⟨L₂, .yields hset hpicked, hsound hne, fun hno => ?_⟩
    rw [Settled, setPending_pending, setPending_current, hs₂, put_current] at hno
    exact hne hno

/-- The first thread of a ready queue becomes its last. -/
theorem Linked.turnReady {l : List ℕ} {priority : ℕ} (h : Linked s L out)
    (hl : L (.ready priority) = k :: l) :
    Linked ((s.unlink (.ready priority) k).enqueue (.ready priority) k)
      (Function.update L (.ready priority) (l ++ [k])) out := by
  have hk : k ∈ L (.ready priority) := hl ▸ List.mem_cons_self
  obtain ⟨hout, hv, hb⟩ := (h.mem_iff k _).mp hk
  have hbit : s.readyBits priority = true := (h.bits priority).mpr (List.ne_nil_of_mem hk)
  have hback := (h.unlink hk).enqueue hout (by simpa using hv) (by simpa using hb)
  have hlists : (L.remove (.ready priority) k).append (.ready priority) k =
      Function.update L (.ready priority) (l ++ [k]) := by
    rw [Lists.append, Lists.remove, Function.update_self, Function.update_idem, hl,
      List.erase_cons_head]
  rw [hlists] at hback
  refine (congrArg (Linked · _ out) ?_).mp hback
  -- the bit of the queue is set before and after
  simp [Sched.put, Sched.unlink, Sched.enqueue, setQueue, setBit, ← hbit]

/-- A turned queue is no matter of who runs. -/
theorem Sound.turnReady {l : List ℕ} {priority : ℕ} (h : Sound s L)
    (hl : L (.ready priority) = k :: l) :
    Sound ((s.unlink (.ready priority) k).enqueue (.ready priority) k)
      (Function.update L (.ready priority) (l ++ [k])) :=
  ⟨h.linked.turnReady hl, h.current, h.pending, h.settled, h.staged, h.running⟩

/-- A rotation leaves the queues in order. -/
theorem Called.rotateThreadReadyQueue (h : Called s L interrupt) (priority : UInt32) :
    ∃ L', Outcome (Effect s L interrupt (.rotateThreadReadyQueue priority)) interrupt
      (s.rotateThreadReadyQueue interrupt priority) L' := by
  rw [Sched.rotateThreadReadyQueue]
  split
  · exact (h.refuses _).imp fun _ hr => hr.effect_of_moves
  · dsimp only
    set p := if priority = 0 then s.priorityOf s.current else priority.toNat
    split
    · next hyield =>
      obtain ⟨rfl, -, hpriority, hpeer⟩ := hyield
      rw [← hpriority] at hpeer
      obtain ⟨L', hr, hsound, hset⟩ := h.sound.rotate (h.settled rfl) hpeer
      have heffect : Effect s L false (.rotateThreadReadyQueue priority) _ L' :=
        .rotates hr hsound
      exact ⟨L', .of_traps heffect rfl hset _⟩
    · rw [Sched.popFront]
      dsimp only
      split
      · next hhead =>
        have hne : L (.ready p) ≠ [] := fun hnil => hhead (by
          rw [h.sound.linked.head (p := .ready p) trivial, hnil]
          rfl)
        obtain ⟨k, l, hl⟩ := List.exists_cons_of_ne_nil hne
        have hk : (s.queues (.ready p)).head = k := by
          rw [h.sound.linked.head (p := .ready p) trivial, hl]
          rfl
        rw [hk]
        have heffect : Effect s L interrupt (.rotateThreadReadyQueue priority)
            ((s.unlink (.ready p) k).enqueue (.ready p) k) _ :=
          .rotates (.turns hl) (h.sound.turnReady hl)
        exact ⟨_, .of_returns heffect h.poised h.settled _⟩
      · exact (h.refuses _).imp fun _ hr => hr.effect_of_moves

end Effects

end PS2Bios.Threadman
