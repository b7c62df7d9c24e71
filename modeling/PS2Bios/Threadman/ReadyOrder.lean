import PS2Bios.Threadman.Preemption
import PS2Bios.Threadman.Waiters

/-!
# The order of the ready

The threads that are ready at one priority stand in a line: the staged one, if it is one of them,
and then the queue (`Sched.line`). A call may put others behind them or in front of them, and may
take some away, but those that are ready before and after it stand as they stood. Besides rotations
there are three exceptions. A staged thread that a better one displaces goes behind its peers; a
ready thread that is given the priority it has does so as well; and when the running thread changes
its own priority and nobody beats it, the first of the best queue is looked at and put back behind
its peers. `Sched.Stays` asks that there be no peers to be put behind.

Moves only make lines longer, at their ends or in front (`Kept`); what else a call does is looked at
for two threads at a time.
-/

namespace PS2Bios.Threadman

open Intrusive Sched

/-- The staged thread, if it is ready at a priority. -/
def Sched.stagedAt (s : Sched) (p : ℕ) : List ℕ :=
  if ¬ s.Settled ∧ s.priorityOf s.pending = p then [s.pending] else []

/-- The ready threads of a priority in their order. -/
def Sched.line (s : Sched) (L : Lists) (p : ℕ) : List ℕ := s.stagedAt p ++ L (.ready p)

/-- A thread is ready at a priority. -/
def Sched.ReadyAt (s : Sched) (p k : ℕ) : Prop :=
  s.Valid k ∧ (s.threads k).state = .ready ∧ s.priorityOf k = p

section Lines

variable {s s' : Sched} {L L' : Lists} {k p x y : ℕ}

/-- While nothing is staged, nobody is staged at a priority. -/
theorem stagedAt_settled (h : s.Settled) (p : ℕ) : s.stagedAt p = [] := by
  simp [stagedAt, h]

/-- While nothing is staged, the line is the queue. -/
theorem line_settled (h : s.Settled) (L : Lists) (p : ℕ) : s.line L p = L (.ready p) := by
  rw [line, stagedAt_settled h, List.nil_append]

theorem mem_stagedAt : k ∈ s.stagedAt p ↔ k = s.pending ∧ ¬ s.Settled ∧ s.priorityOf k = p := by
  rw [stagedAt]
  split
  · next h =>
    rw [List.mem_singleton]
    refine ⟨?_, fun hk => hk.1⟩
    rintro rfl
    exact ⟨rfl, h⟩
  · next h =>
    refine ⟨fun hk => absurd hk List.not_mem_nil, ?_⟩
    rintro ⟨rfl, hk⟩
    exact absurd hk h

/-- **The line of a priority has the threads that are ready at it**, and each of them once. -/
theorem Sound.mem_line (h : Sound s L) : k ∈ s.line L p ↔ s.ReadyAt p k := by
  rw [line, List.mem_append, mem_stagedAt, h.linked.mem_iff]
  constructor
  · rintro (⟨rfl, hset, hp⟩ | ⟨-, hv, hb⟩)
    · exact ⟨h.pending, h.staged hset, hp⟩
    · exact ⟨hv, hb⟩
  · rintro ⟨hv, hs, hp⟩
    by_cases hk : k = s.pending
    · subst hk
      refine .inl ⟨rfl, fun hset => ?_, hp⟩
      rw [h.settled hset] at hs
      cases hs
    · exact .inr ⟨by simpa using hk, hv, hs, hp⟩

/-- Nobody stands twice in a line. -/
theorem Sound.nodup_line (h : Sound s L) : (s.line L p).Nodup := by
  rw [line, List.nodup_append']
  refine ⟨?_, h.linked.nodup (p := .ready p) trivial, fun j hj hmem => ?_⟩
  · rw [stagedAt]
    split <;> simp
  · exact h.ne_of_mem hmem (mem_stagedAt.mp hj).1

/-- The staged thread is in no queue: whoever stands in one stands as in the line. -/
theorem Sound.pair_queue (h : Sound s L) (hxy : [x, y].Sublist (s.line L p))
    (hx : x ∈ L (.ready p)) : [x, y].Sublist (L (.ready p)) := by
  rw [line, stagedAt] at hxy
  split at hxy
  · rcases List.sublist_cons_iff.mp hxy with hxy | ⟨l, heq, -⟩
    · exact hxy
    · exact absurd (List.cons.inj heq).1 (h.ne_of_mem hx)
  · exact hxy

/-- Two threads stand as they stood when another leaves. -/
theorem pair_erase {l : List ℕ} (hxy : [x, y].Sublist l) (hx : x ≠ k) (hy : y ≠ k) :
    [x, y].Sublist (l.erase k) := by
  have h := hxy.erase k
  rwa [List.erase_of_not_mem (by simp [hx.symm, hy.symm])] at h

end Lines

/-! ### Moves -/

/-- Whoever is staged has no peers, where a better thread may be woken that displaces it. -/
def Sched.StagedAlone (s : Sched) (P : Permit) : Prop :=
  ¬ s.Settled → ∀ k answer, P.wakes k answer → (s.threads k).state = .wait →
    s.priorityOf k < s.priorityOf s.current → s.priorityOf k < s.priorityOf s.pending →
      (s.queues (.ready (s.priorityOf s.pending))).head = kNone

/-- The thread that was staged at first is staged still. -/
structure Unmoved (s₀ : Sched) (L₀ : Lists) (s : Sched) (L : Lists) : Prop where
  staged : ¬ s₀.Settled
  current : s.current = s₀.current
  pending : s.pending = s₀.pending
  priority : ∀ j, (s.threads j).state ≠ .dormant → (s.threads j).state ≠ .free →
    s.priorityOf j = s₀.priorityOf j
  waiting : ∀ j, (s.threads j).state = .wait → (s₀.threads j).state = .wait
  queue : ∀ p, (L₀ (.ready p)).Sublist (L (.ready p))

/-- What moves keep of the lines that the threads stood in at first: nobody leaves one, and
whoever may be displaced is not in one, or was staged already. -/
structure Kept (s₀ : Sched) (L₀ : Lists) (s : Sched) (L : Lists) : Prop where
  line : ∀ p, (s₀.line L₀ p).Sublist (s.line L p)
  displaced : ¬ s.Settled → (s.threads s.current).state = .ready →
    (∀ p, (s₀.line L₀ p).Sublist (L (.ready p))) ∨ Unmoved s₀ L₀ s L

section Moves

variable {P : Permit} {s₀ s s' : Sched} {L₀ L L' : Lists} {interrupt : Bool} {k : ℕ}

/-- At first the lines are as they are. -/
theorem Kept.refl (s : Sched) (L : Lists) : Kept s L s L :=
  ⟨fun _ => .refl _, fun hset _ => .inr ⟨hset, rfl, rfl, fun _ _ _ => rfl, fun _ h => h,
    fun _ => .refl _⟩⟩

/-- Lines that are in the queues are kept. -/
theorem Kept.of_queues (h : ∀ p, (s₀.line L₀ p).Sublist (L (.ready p))) : Kept s₀ L₀ s L :=
  ⟨fun p => (h p).trans (List.sublist_append_right ..), fun _ _ => .inl h⟩

/-- While nothing is staged the lines are the queues. -/
theorem Kept.queues (h : Kept s₀ L₀ s L) (hset : s.Settled) (p : ℕ) :
    (s₀.line L₀ p).Sublist (L (.ready p)) := by
  rw [← line_settled hset L]
  exact h.line p

/-- A list that does not have `k` stays in a queue that another joins and `k` leaves. -/
theorem Lists.sublist_append_remove {l : List ℕ} {x : ℕ} {p p₁ p₂ : Place} (h : l.Sublist (L p))
    (hk : k ∉ l) : l.Sublist (((L.append p₁ x).remove p₂ k) p) := by
  have happend : l.Sublist ((L.append p₁ x) p) := by
    rw [Lists.append_apply]
    split
    · next hp => exact hp ▸ h.trans (List.sublist_append_left ..)
    · exact h
  rw [Lists.remove_apply]
  split
  · next hp =>
    rw [← List.erase_of_not_mem hk]
    exact hp ▸ happend.erase k
  · exact happend

/-- So it does in a queue that another joins in front. -/
theorem Lists.sublist_push_remove {l : List ℕ} {x : ℕ} {p p₁ p₂ : Place} (h : l.Sublist (L p))
    (hk : k ∉ l) : l.Sublist (((L.push p₁ x).remove p₂ k) p) := by
  have hpush : l.Sublist ((L.push p₁ x) p) := by
    rw [Lists.push_apply]
    split
    · next hp => exact hp ▸ h.trans (List.sublist_cons_self ..)
    · exact h
  rw [Lists.remove_apply]
  split
  · next hp =>
    rw [← List.erase_of_not_mem hk]
    exact hp ▸ hpush.erase k
  · exact hpush

/-- **A decision about `k` moves nobody else** that stands in a queue. -/
theorem Decides.sublist (h : Decides s L k interrupt s' L') {l : List ℕ} {p : ℕ}
    (hl : l.Sublist (L (.ready p))) (hk : k ∉ l) : l.Sublist (L' (.ready p)) := by
  cases h with
  | queued _ _ => exact hl
  | left _ _ _ => exact hl
  | handOff _ _ _ => exact Lists.sublist_append_remove hl hk
  | first _ _ _ => exact Lists.sublist_push_remove hl hk
  | replaces _ _ _ _ _ _ => exact Lists.sublist_append_remove hl hk

/-- Waking puts a thread behind the others. -/
theorem sublist_wake (s : Sched) (L : Lists) (k p : ℕ) :
    (L (.ready p)).Sublist (Lists.wake s L k (.ready p)) := by
  rw [Lists.wake, Lists.append_apply]
  split
  · next hp =>
    rw [← hp, leave_ready]
    exact List.sublist_append_left ..
  · rw [leave_ready]

/-- A thread that is not ready is in no line. -/
theorem Sound.not_mem_ready (hs : Sound s L) (hk : (s.threads k).state ≠ .ready) (p : ℕ) :
    k ∉ L (.ready p) := fun hmem => hk ((hs.linked.mem_iff k _).mp hmem).2.2.1

/-- Waking somebody leaves the staged thread where it is. -/
theorem stagedAt_woken (s : Sched) (k p : ℕ) (answer : ℤ) :
    (s.woken k answer).stagedAt p = s.stagedAt p := by
  simp only [stagedAt, woken_settled, woken_pending, woken_priorityOf]

/-- The staged thread is displaced, and had no peers. -/
theorem Unmoved.replaces (h : Unmoved s₀ L₀ s L) (hs₀ : Sound s₀ L₀) (hs : Sound s L)
    (halone : s₀.StagedAlone P) {answer : ℤ} (hw : (s.threads k).state = .wait)
    (hcurrent : (s.threads s.current).state = .ready)
    (hwakes : P.wakes k answer) (hbetter : s.priorityOf k < s.priorityOf s.current)
    (hpending : s.priorityOf k < s.priorityOf s.pending) (p : ℕ) :
    (s₀.line L₀ p).Sublist (((Lists.wake s L k).append (.ready (s.priorityOf s.pending))
      s.pending).remove (.ready (s.priorityOf k)) k (.ready p)) := by
  have hset : ¬ s.Settled := by
    rw [Settled, h.pending, h.current]
    exact h.staged
  have hk := h.priority k (by rw [hw]; decide) (by rw [hw]; decide)
  have hc := h.priority s.current (by rw [hcurrent]; decide) (by rw [hcurrent]; decide)
  have hp := h.priority s.pending (by rw [hs.staged hset]; decide) (by rw [hs.staged hset]; decide)
  have hnone := hs.not_mem_ready (k := k) (by rw [hw]; decide)
  have hpriority : s.priorityOf s.pending = s₀.priorityOf s₀.pending := hp.trans (by rw [h.pending])
  -- the queue of the staged thread's priority was empty
  have hhead := halone h.staged k answer hwakes (h.waiting k hw)
    (by rwa [← hk, ← h.current, ← hc]) (by rwa [← hk, ← hpriority])
  have hempty : L₀ (.ready (s₀.priorityOf s₀.pending)) = [] := by
    rw [hs₀.linked.head (p := .ready _) trivial] at hhead
    cases hl : L₀ (.ready (s₀.priorityOf s₀.pending)) with
    | nil => rfl
    | cons j l =>
      rw [hl] at hhead
      have hv := hs₀.linked.valid_of_mem (hl ▸ List.mem_cons_self)
      exact absurd hhead (ne_kNone_of_lt hv.1)
  by_cases hpp : s₀.priorityOf s₀.pending = p
  · -- so it stood alone, and is in the queue now
    subst hpp
    have hne : k ≠ s₀.pending := by
      rw [← h.pending]
      exact hs.ready_ne hw
    rw [line, stagedAt, if_pos ⟨h.staged, rfl⟩, hempty, List.append_nil, List.singleton_sublist,
      Lists.remove_apply, if_neg, Lists.append_apply, if_pos (by rw [hpriority]), h.pending]
    · exact List.mem_append_right _ (List.mem_singleton_self _)
    · intro heq
      rw [← hpriority] at heq
      exact hpending.ne' (Place.ready.inj heq)
  · rw [line, stagedAt, if_neg fun hno => hpp hno.2, List.nil_append]
    refine Lists.sublist_append_remove ((h.queue p).trans (sublist_wake s L k p)) fun hmem => ?_
    exact hnone p ((h.queue p).subset hmem)

/-- A thread that has been made ready behind the others is decided about. -/
theorem Kept.decides {s₁ : Sched} {L₁ : Lists} (h : Kept s₀ L₀ s L) (hset : s.Settled)
    (hlists : ∀ p, (L (.ready p)).Sublist (L₁ (.ready p))) (hk : ∀ p, k ∉ L (.ready p))
    (hd : Decides s₁ L₁ k interrupt s' L') : Kept s₀ L₀ s' L' :=
  .of_queues fun p => hd.sublist ((h.queues hset p).trans (hlists p)) fun hmem =>
    hk p ((h.queues hset p).subset hmem)

/-- A thread decides while nothing is staged. -/
theorem Decides.settled (h : Decides s L k false s' L') : s.Settled := by
  cases h with
  | queued hset _ => exact hset
  | handOff hset _ _ => exact hset

/-- A handler finds a thread staged, which is displaced or not. -/
theorem Decides.staged (h : Decides s L k interrupt s' L') (hset : ¬ s.Settled) :
    s.Poised ∧ k ≠ s.current ∧ (s' = s ∧ L' = L ∨
      s.priorityOf k < s.priorityOf s.current ∧ s.priorityOf k < s.priorityOf s.pending ∧
        L' = (L.append (.ready (s.priorityOf s.pending)) s.pending).remove
          (.ready (s.priorityOf k)) k) := by
  cases h with
  | queued hsettled _ => exact absurd hsettled hset
  | left hp hne _ => exact ⟨hp, hne, .inl ⟨rfl, rfl⟩⟩
  | handOff hsettled _ _ => exact absurd hsettled hset
  | first hsettled _ _ => exact absurd hsettled hset
  | replaces _ hp _ hne hbetter hpending => exact ⟨hp, hne, .inr ⟨hbetter, hpending, rfl⟩⟩

/-- A thread is woken. -/
theorem Kept.wake (h : Kept s₀ L₀ s L) (hs₀ : Sound s₀ L₀) (hs : Sound s L)
    (halone : s₀.StagedAlone P) {answer : ℤ} (hw : (s.threads k).state = .wait)
    (hwakes : P.wakes k answer)
    (hd : Decides (s.woken k answer) (Lists.wake s L k) k interrupt s' L') :
    Kept s₀ L₀ s' L' := by
  have hnone := hs.not_mem_ready (k := k) (by rw [hw]; decide)
  by_cases hset : s.Settled
  · exact h.decides hset (sublist_wake s L k) hnone hd
  · -- another thread is staged, so a handler wakes, and the interrupted thread is ready
    have hset' : ¬ (s.woken k answer).Settled := mt (woken_settled s k answer).mp hset
    obtain ⟨hp, hne, hcases⟩ := hd.staged hset'
    rw [woken_current] at hne
    have hcurrent : (s.threads s.current).state = .ready := by
      have hready := hp hset'
      rwa [woken_current, woken_threads, if_neg hne.symm] at hready
    rcases hcases with ⟨rfl, rfl⟩ | ⟨hbetter, hpending, rfl⟩
    · -- the thread stays behind the others
      refine ⟨fun p => ?_, fun _ _ => ?_⟩
      · have hline : (s.woken k answer).line (Lists.wake s L k) p =
            s.stagedAt p ++ Lists.wake s L k (.ready p) := by rw [Sched.line, stagedAt_woken]
        rw [hline]
        exact (h.line p).trans ((sublist_wake s L k p).append_left _)
      · rcases h.displaced hset hcurrent with hqueues | hun
        · exact .inl fun p => (hqueues p).trans (sublist_wake s L k p)
        · refine .inr ⟨hun.staged, by rw [woken_current, hun.current],
            by rw [woken_pending, hun.pending], fun j hd hf => ?_, fun j hj => ?_,
            fun p => (hun.queue p).trans (sublist_wake s L k p)⟩
          · rw [woken_priorityOf]
            rcases eq_or_ne j k with rfl | hjk
            · exact hun.priority j (by rw [hw]; decide) (by rw [hw]; decide)
            · rw [woken_threads, if_neg hjk] at hd hf
              exact hun.priority j hd hf
          · rcases eq_or_ne j k with rfl | hjk
            · exact hun.waiting j hw
            · rw [woken_threads, if_neg hjk] at hj
              exact hun.waiting j hj
    · -- or displaces the one that is staged
      rw [woken_priorityOf, woken_current, woken_priorityOf] at hbetter
      rw [woken_priorityOf, woken_pending, woken_priorityOf] at hpending
      refine .of_queues fun p => ?_
      rw [woken_priorityOf, woken_pending, woken_priorityOf]
      rcases h.displaced hset hcurrent with hqueues | hun
      · refine Lists.sublist_append_remove ((hqueues p).trans (sublist_wake s L k p)) fun hmem => ?_
        exact hnone p ((hqueues p).subset hmem)
      · exact hun.replaces hs₀ hs halone hw hcurrent hwakes hbetter hpending p

/-- Stopping moves nobody who is ready. -/
theorem Stops.ready {s₁ : Sched} {L₁ : Lists} (h : Stops P s L s₁ L₁) (p : ℕ) :
    L₁ (.ready p) = L (.ready p) := by
  cases h with
  | waits _ _ => rfl
  | joins _ _ _ _ => exact Function.update_of_ne (by simp) _ _
  | ends => rfl

/-- The best thread is staged where it stood. -/
theorem line_picked {best : ℕ} {s₂ : Sched} {L₂ : Lists} (h : Picked s L s₂ best L₂)
    (hne : best ≠ s.current) (p : ℕ) : (s₂.setPending best).line L₂ p = L (.ready p) := by
  obtain ⟨r, n, hput⟩ := h.same
  have hset : ¬ (s₂.setPending best).Settled := by
    rw [Settled, setPending_pending, setPending_current, hput, put_current]
    exact hne
  have hpri : (s₂.setPending best).priorityOf best = s.priorityOf best := h.priorityOf best
  obtain ⟨l, hl, rfl⟩ := h.head
  rw [line, stagedAt, setPending_pending, hpri]
  by_cases hp : s.priorityOf best = p
  · subst hp
    rw [if_pos ⟨hset, rfl⟩, Function.update_self, hl, List.singleton_append]
  · rw [if_neg fun hno => hp hno.2, List.nil_append, Function.update_of_ne]
    exact fun heq => hp (Place.ready.inj heq).symm

/-- **Every move keeps the lines.** -/
theorem Move.kept (hm : Move P s L s' L') (h : Kept s₀ L₀ s L) (hs₀ : Sound s₀ L₀)
    (hs : Sound s L) (halone : s₀.StagedAlone P) : Kept s₀ L₀ s' L' := by
  cases hm with
  | quiet hq =>
    refine ⟨fun p => ?_, fun hset hcurrent => ?_⟩
    · have hline : s'.line L p = s.line L p := by
        simp only [line, stagedAt, hq.settled, hq.priority, hq.pending]
      rw [hline]
      exact h.line p
    · rw [hq.current, hq.state] at hcurrent
      rcases h.displaced (mt hq.settled.mpr hset) hcurrent with hqueues | hun
      · exact .inl hqueues
      · refine .inr ⟨hun.staged, hq.current.trans hun.current, hq.pending.trans hun.pending,
          fun j hd hf => ?_, fun j hj => hun.waiting j (by rwa [hq.state] at hj), hun.queue⟩
        rw [hq.state] at hd hf
        exact (hq.priority j).trans (hun.priority j hd hf)
  | wake answer hv hw hwakes hd => exact h.wake hs₀ hs halone hw hwakes hd
  | @start k _ _ hv hdormant hd =>
    have hset : s.Settled := hd.settled
    refine h.decides hset (fun p => ?_) (hs.not_mem_ready (by rw [hdormant]; decide)) hd
    rw [Lists.append_apply]
    split
    · next hp => exact hp ▸ List.sublist_append_left ..
    · exact .refl _
  | @stop s₁ s₂ L₁ L₂ best hset _ hstop hpick hne =>
    have hstopped := hstop.stopped
    rw [← hstopped.current] at hne
    refine ⟨fun p => ?_, fun _ hcurrent => ?_⟩
    · rw [line_picked hpick hne, hstop.ready]
      exact h.queues hset p
    · -- the thread that has stopped is not ready
      obtain ⟨r, n, hput⟩ := hpick.same
      have hcur : s₂.current = s.current := by
        rw [hput, put_current, hstopped.current]
      rw [setPending_current, setPending_threads, hcur, hpick.threads] at hcurrent
      rcases hstopped.state with hst | hst <;> exact absurd (hst.symm.trans hcurrent) (by decide)
  | @thread k slot links f _ hcur hpend _ hstate =>
    set s' := { s.setSlot .thread k slot with links := links }.setThread k f with hs'
    have hthreads : ∀ j, j ≠ k → s'.threads j = s.threads j := fun j hj => setThread_ne _ _ _ hj
    have hsame : ∀ j, (s'.threads j).state ≠ .dormant → (s'.threads j).state ≠ .free →
        s'.threads j = s.threads j := fun j hd hf => by
      refine hthreads j ?_
      rintro rfl
      have hj : s'.threads j = f (s.threads j) := by simp [hs', setSlot]
      rw [hj] at hd hf
      exact hstate.elim hd hf
    have hpri : s'.priorityOf s'.pending = s.priorityOf s.pending :=
      congrArg Thread.currentPriority (hthreads s.pending hpend.symm)
    refine ⟨fun p => ?_, fun hset hcurrent => ?_⟩
    · have hline : s'.line L p = s.line L p := by
        rw [Sched.line, stagedAt, hpri, Sched.line, stagedAt]
        rfl
      rw [hline]
      exact h.line p
    · rw [show s'.threads s'.current = s.threads s.current from hthreads _ hcur.symm] at hcurrent
      rcases h.displaced hset hcurrent with hqueues | hun
      · exact .inl hqueues
      · refine .inr ⟨hun.staged, hun.current, hun.pending, fun j hd hf => ?_, fun j hj => ?_,
          hun.queue⟩
        · have hj := hsame j hd hf
          rw [hj] at hd hf
          rw [priorityOf, hj]
          exact hun.priority j hd hf
        · rw [hsame j (by rw [hj]; decide) (by rw [hj]; decide)] at hj
          exact hun.waiting j hj
  | object _ _ _ => exact ⟨h.line, fun hset hcurrent => (h.displaced hset hcurrent).imp_right
      fun hun => ⟨hun.staged, hun.current, hun.pending, hun.priority, hun.waiting, hun.queue⟩⟩

/-- **Moves keep the order**, where nobody who is staged is put behind its peers. -/
theorem Moves.line (hm : Moves P s L s' L') (hs : Sound s L) (halone : s.StagedAlone P) (p : ℕ) :
    (s.line L p).Sublist (s'.line L' p) :=
  (hm.invariant (I := Kept s L) (fun _ _ _ _ hs' h hmove _ => hmove.kept h hs hs' halone)
    (Kept.refl s L)).line p

end Moves

/-! ### Priorities changed, and threads terminated -/

/-- The ready threads of a priority once a call is over: a thread that is staged by another runs
then, one that is staged by a handler is ready still. -/
def Sched.after (interrupt : Bool) (s : Sched) (L : Lists) (p : ℕ) : List ℕ :=
  if interrupt then s.line L p else L (.ready p)

section Effects

variable {s s' : Sched} {L L' : Lists} {interrupt : Bool} {k p x y : ℕ}

/-- Who stands in the line once a call is over stands as in the line before the switch. -/
theorem Sound.pair_after (h : Sound s L) (hxy : [x, y].Sublist (s.line L p))
    (hx : x ∈ s.after interrupt L p) : [x, y].Sublist (s.after interrupt L p) := by
  rw [after] at hx ⊢
  split
  · exact hxy
  · next hi =>
    rw [if_neg hi] at hx
    exact h.pair_queue hxy hx

/-- Who stands there is ready. -/
theorem Sound.ready_of_after (h : Sound s L) (hx : x ∈ s.after interrupt L p) : s.ReadyAt p x := by
  refine h.mem_line.mp ?_
  rw [after] at hx
  split at hx
  · exact hx
  · exact List.mem_append_right _ hx

/-- A thread that is not staged leaves its queue. -/
theorem line_erase (hk : k ≠ s.pending) (L : Lists) (p : ℕ) :
    (s.line L p).erase k = s.stagedAt p ++ (L (.ready p)).erase k :=
  List.erase_append_right _ fun hmem => hk (mem_stagedAt.mp hmem).1

/-- Whoever is staged is at the same priority. -/
theorem stagedAt_congr (hset : s'.Settled ↔ s.Settled) (hpend : s'.pending = s.pending)
    (hpri : ¬ s.Settled → s'.priorityOf s.pending = s.priorityOf s.pending) (p : ℕ) :
    s'.stagedAt p = s.stagedAt p := by
  by_cases h : s.Settled
  · rw [stagedAt_settled h, stagedAt_settled (hset.mpr h)]
  · simp only [stagedAt, hset, hpend, hpri h]

/-- A thread that goes to the end of a queue leaves the others as they stood. -/
theorem sublist_rerank (s : Sched) (L : Lists) (k priority p : ℕ) :
    ((L (.ready p)).erase k).Sublist (Lists.rerank s L k priority (.ready p)) := by
  have hremove : ((L (.ready p)).erase k).Sublist
      (L.remove (.ready (s.priorityOf k)) k (.ready p)) := by
    rw [Lists.remove_apply]
    split
    · next hp => rw [hp]
    · exact List.erase_sublist
  rw [Lists.rerank, Lists.append_apply]
  split
  · next hp => exact hp ▸ hremove.trans (List.sublist_append_left ..)
  · exact hremove

/-- The last of a queue goes to its end. -/
theorem Sound.rerank_last (hs : Sound s L) (hk : k ∈ L (.ready (s.priorityOf k)))
    (htail : (s.queues (.ready (s.priorityOf k))).tail = k) :
    Lists.rerank s L k (s.priorityOf k) (.ready (s.priorityOf k)) =
      L (.ready (s.priorityOf k)) := by
  have hqueue := hs.linked.family.queue (.ready (s.priorityOf k)) trivial
  rw [hqueue.tail] at htail
  have hnodup := hqueue.nodup
  rw [Lists.rerank, Lists.append_apply, if_pos rfl, Lists.remove_apply, if_pos rfl]
  generalize L (.ready (s.priorityOf k)) = l at *
  rcases List.eq_nil_or_concat l with rfl | ⟨l, j, rfl⟩
  · cases hk
  · rw [List.concat_eq_append] at *
    obtain rfl : j = k := by simpa using htail
    have hj : j ∉ l := fun hmem => by
      rw [List.nodup_append'] at hnodup
      exact hnodup.2.2 hmem (List.mem_singleton_self j)
    rw [List.erase_append_right _ hj, List.erase_cons_head, List.append_nil]

/-- **A change of a priority leaves the others as they stood.** -/
theorem Reranks.order {priority : ℕ} (h : Reranks s L k priority interrupt s' L') (hs : Sound s L)
    (hs' : Sound s' L') (hpriority : priority < kPriorities)
    (hsame : priority = s.priorityOf k → (s.threads k).state = .ready →
      interrupt = false ∧ priority < s.priorityOf s.current ∨
        (s.queues (.ready (s.priorityOf k))).tail = k)
    (hown : interrupt = false → k = s.current → ∀ p, priority ≤ p →
      (∀ q < p, (s.queues (.ready q)).head = kNone) →
        (s.queues (.ready p)).head = (s.queues (.ready p)).tail)
    (hxy : [x, y].Sublist (s.line L p)) (hx : x ∈ s'.after interrupt L' p)
    (hy : y ∈ s'.after interrupt L' p) : [x, y].Sublist (s'.after interrupt L' p) := by
  have hrx := hs'.ready_of_after hx
  have hry := hs'.ready_of_after hy
  have hbefore : x = k ∨ y = k → s.ReadyAt p k := by
    rintro (rfl | rfl)
    · exact hs.mem_line.mp (hxy.subset List.mem_cons_self)
    · exact hs.mem_line.mp (hxy.subset (List.mem_cons_of_mem _ List.mem_cons_self))
  have hafter : x = k ∨ y = k → s'.ReadyAt p k := by
    rintro (rfl | rfl)
    · exact hrx
    · exact hry
  cases h with
  | requeued hk =>
    have hne : k ≠ s.pending := hs.ne_of_mem hk
    have hstaged : (s.rerank k priority).stagedAt p = s.stagedAt p := by
      refine stagedAt_congr (by simp [Settled]) (rerank_pending ..) (fun _ => ?_) p
      rw [priorityOf, rerank_threads, if_neg hne.symm, priorityOf]
    rw [after, if_pos rfl, Sched.line, hstaged]
    by_cases hmoved : x = k ∨ y = k
    · -- it had this priority before, and was the last
      obtain ⟨-, hready, rfl⟩ := hbefore hmoved
      have hpri := (hafter hmoved).2.2
      rw [priorityOf, rerank_threads, if_pos rfl] at hpri
      obtain rfl : priority = s.priorityOf k := hpri
      rcases hsame rfl hready with ⟨hi, -⟩ | htail
      · cases hi
      · rw [hs.rerank_last hk htail]
        exact hxy
    · have herase := pair_erase hxy (fun hx => hmoved (.inl hx)) fun hy => hmoved (.inr hy)
      rw [line_erase hne] at herase
      exact herase.trans ((sublist_rerank s L k priority p).append_left _)
  | decided hk hd =>
    have hset : s.Settled := by simpa [Settled] using hd.settled
    rw [after, if_neg Bool.false_ne_true] at hx hy ⊢
    rw [line_settled hset] at hxy
    by_cases hmoved : x = k ∨ y = k
    · obtain ⟨-, hready, rfl⟩ := hbefore hmoved
      have hpri := (hafter hmoved).2.2
      rw [hd.priorityOf (hs.rerank hk hpriority), priorityOf, rerank_threads, if_pos rfl] at hpri
      obtain rfl : priority = s.priorityOf k := hpri
      cases hd with
      | queued _ hle =>
        -- it had this priority before, and was the last
        have hne : s.current ≠ k := by
          rw [← show s.pending = s.current from hset]
          exact (hs.ne_of_mem hk).symm
        rw [rerank_current, priorityOf, rerank_threads, if_neg hne, priorityOf, rerank_threads,
          if_pos rfl] at hle
        rcases hsame rfl hready with ⟨-, hlt⟩ | htail
        · exact absurd hle (not_le.mpr hlt)
        · rw [hs.rerank_last hk htail]
          exact hxy
      | handOff _ _ _ =>
        -- it runs
        rcases hmoved with rfl | rfl
        · exact absurd rfl (hs'.ne_of_mem hx)
        · exact absurd rfl (hs'.ne_of_mem hy)
    · have herase := pair_erase hxy (fun hx => hmoved (.inl hx)) fun hy => hmoved (.inr hy)
      refine hd.sublist (herase.trans (sublist_rerank s L k priority p)) fun hmem => hmoved ?_
      rcases List.mem_cons.mp hmem with heq | hmem
      · exact .inl heq.symm
      · exact .inr (List.mem_singleton.mp hmem).symm
  | written hready _ =>
    refine hs'.pair_after ?_ hx
    have hstaged : (s.setPriority k priority).stagedAt p = s.stagedAt p := by
      refine stagedAt_congr (show (s.setPriority k priority).Settled ↔ s.Settled from Iff.rfl) rfl
        (fun hset => ?_) p
      rw [setPriority_priorityOf, if_neg]
      rintro rfl
      exact hready (hs.staged hset)
    rwa [Sched.line, hstaged]
  | @kept best s₂ L₂ hset hk hpick hle =>
    -- the best of the others is alone at its priority
    have hbest := hs.picked_ne hset hk hpick
    have hpri : (s.setPriority k priority).priorityOf best = s.priorityOf best := by
      rw [setPriority_priorityOf, if_neg hbest]
    obtain ⟨l, hl, hL₂⟩ := hpick.head
    rw [hpri] at hl hL₂
    have halone : l = [] := by
      have hqueue := hs.linked.family.queue (.ready (s.priorityOf best)) trivial
      have hends := hown rfl hk (s.priorityOf best) hle fun q hq => by
        rw [hs.linked.head (p := .ready q) trivial, hpick.best q (by rwa [hpri])]
        rfl
      have hnodup := hqueue.nodup
      rw [hqueue.head, hqueue.tail, hl] at hends
      rw [hl] at hnodup
      cases l with
      | nil => rfl
      | cons j l =>
        refine absurd ?_ (List.nodup_cons.mp hnodup).1
        rw [List.headD_cons] at hends
        rw [hends, List.getLastD_cons, List.getLastD_cons]
        exact List.getLastD_mem_cons
    have hlists : L₂.append (.ready (s.priorityOf best)) best (.ready p) = L (.ready p) := by
      rw [Lists.append_apply, hL₂, halone]
      split
      · next hp => rw [hp, Function.update_self, hl, halone, List.nil_append]
      · next hp => exact Function.update_of_ne hp _ _
    rw [after, if_neg Bool.false_ne_true, hlists]
    rwa [line_settled hset] at hxy
  | @yields best s₂ L₂ hset hk hpick hlt =>
    -- the best runs, and the running thread goes behind its peers
    have hbest := hs.picked_ne hset hk hpick
    rw [after, if_neg Bool.false_ne_true] at hx hy ⊢
    rw [line_settled hset] at hxy
    have herase := pair_erase hxy (hs'.ne_of_mem hx) (hs'.ne_of_mem hy)
    rw [setPending_pending] at herase
    obtain ⟨l, hl, hL₂⟩ := hpick.head
    have hsublist : ((L (.ready p)).erase best).Sublist (L₂ (.ready p)) := by
      rw [hL₂, Function.update_apply]
      split
      · next hp => rw [hp, hl, List.erase_cons_head]
      · exact List.erase_sublist
    rw [Lists.append_apply]
    split
    · next hp => exact hp ▸ (herase.trans hsublist).trans (List.sublist_append_left ..)
    · exact herase.trans hsublist

/-- **A termination leaves the others as they stood.** -/
theorem order_terminate (hpend : k ≠ s.pending) (hxy : [x, y].Sublist (s.line L p))
    (hx : ((s.withdraw k).setThread k fun t => { t with state := .dormant }).ReadyAt p x)
    (hy : ((s.withdraw k).setThread k fun t => { t with state := .dormant }).ReadyAt p y) :
    [x, y].Sublist (((s.withdraw k).setThread k fun t => { t with state := .dormant }).line
      (Lists.withdraw s L k) p) := by
  set s' := (s.withdraw k).setThread k fun t => { t with state := .dormant } with hs''
  have hne : ∀ {j}, s'.ReadyAt p j → j ≠ k := by
    rintro j ⟨-, hready, -⟩ rfl
    simp [hs''] at hready
  have hpending : s'.pending = s.pending := withdraw_pending s k
  have hstaged : s'.stagedAt p = s.stagedAt p := by
    refine stagedAt_congr ?_ hpending (fun _ => ?_) p
    · rw [Settled, Settled, hpending, show s'.current = s.current from withdraw_current s k]
    · rw [priorityOf, setThread_ne _ _ _ hpend.symm, withdraw_threads s k _ hpend.symm, priorityOf]
  have herase := pair_erase hxy (hne hx) (hne hy)
  rw [line_erase hpend] at herase
  rw [Sched.line, hstaged]
  refine herase.trans (List.Sublist.append_left ?_ _)
  rw [Lists.withdraw]
  split
  · rw [Lists.remove_apply]
    split
    · next hp => rw [hp]
    · exact List.erase_sublist
  · split
    · rw [leave_ready]
      exact List.erase_sublist
    · exact List.erase_sublist

/-- A call that is refused because of who makes it. -/
def Service.refused (interrupt : Bool) : Service → Bool
  | .sendMbx iForm _ _ => interrupt != iForm
  | .deleteEventFlag _ | .deleteSema _ | .deleteMbx _ => interrupt
  | _ => false

/-- Such a call changes nothing. -/
theorem perform_refused {c : Service} {reply : Reply} (hc : c.refused interrupt = true)
    (h : s.perform interrupt c = some (s', reply)) : s' = s := by
  cases c <;> try cases hc
  case sendMbx iForm id message =>
    have hne : interrupt ≠ iForm := by simpa [Service.refused] using hc
    have heq := Option.some.inj h
    rw [sendMbx, if_pos hne] at heq
    exact (Prod.mk.inj heq).1.symm
  all_goals exact (Prod.mk.inj (Option.some.inj h)).1.symm

/-- A call that puts nobody behind its peers. -/
structure Sched.Stays (s : Sched) (interrupt : Bool) (c : Service) : Prop where
  turns : ∀ priority, c ≠ .rotateThreadReadyQueue priority
  staged : c.refused interrupt = false → s.StagedAlone (s.permits c)
  same : ∀ k, s.promotes c = some (k, s.priorityOf k) → (s.threads k).state = .ready →
    interrupt = false ∧ s.priorityOf k < s.priorityOf s.current ∨
      (s.queues (.ready (s.priorityOf k))).tail = k
  own : interrupt = false → ∀ priority, s.promotes c = some (s.current, priority) →
    ∀ p, priority ≤ p → (∀ q < p, (s.queues (.ready q)).head = kNone) →
      (s.queues (.ready p)).head = (s.queues (.ready p)).tail

/-- **Each call leaves the others as they stood.** -/
theorem Effect.order {c : Service} {reply : Reply} (h : Effect s L interrupt c s' L')
    (hr : s.perform interrupt c = some (s', reply)) (hs : Sound s L)
    (hstays : s.Stays interrupt c) (hxy : [x, y].Sublist (s.line L p))
    (hx : x ∈ s'.after interrupt L' p) (hy : y ∈ s'.after interrupt L' p) :
    [x, y].Sublist (s'.after interrupt L' p) := by
  have hs' := h.sound
  cases h with
  | moves hm =>
    refine hs'.pair_after ?_ hx
    cases hrefused : c.refused interrupt with
    | true =>
      obtain rfl := perform_refused hrefused hr
      rwa [← hs.unique hs']
    | false => exact hxy.trans (hm.line hs (hstays.staged hrefused) p)
  | terminates _ _ hpend _ =>
    exact hs'.pair_after (order_terminate hpend hxy (hs'.ready_of_after hx)
      (hs'.ready_of_after hy)) hx
  | @reranks id priority k _ _ hp hk hdormant hre =>
    have hpromotes : s.promotes (.changeThreadPriority id priority) = some (k, priority.toNat) :=
      Option.map_eq_some_iff.mpr ⟨k, (if_pos hp).trans hk, rfl⟩
    refine hre.reranks.order hs hs' (lt_of_legal hp) (fun heq hready => ?_) (fun hi hcur => ?_)
      hxy hx hy
    · rw [heq] at hpromotes ⊢
      exact hstays.same k hpromotes hready
    · subst hcur
      exact hstays.own hi _ hpromotes
  | @rotates priority _ _ _ _ => exact absurd rfl (hstays.turns priority)

end Effects

end PS2Bios.Threadman
