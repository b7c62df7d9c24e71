import PS2Bios.Threadman.Moves

/-!
# Who runs once a thread is ready, and once one stops

A thread that has been made ready is handed over to if it is better than the one that runs, or
staged if that has been interrupted (`Sound.handOffIfBetter`, `Sound.stage`), and a thread that
stops leaves the processor to the best in the queues (`Sound.stop`). Each of these is a decision or
a move of the last module, and keeps `Sound`.
-/

namespace PS2Bios.Threadman

open Intrusive Sched

@[simp] theorem stepBack_current (s : Sched) : s.stepBack.current = s.current := rfl

section Decisions

variable {P : Permit} {s : Sched} {L : Lists} {k : ℕ}

theorem Sched.Settled.poised (h : s.Settled) : s.Poised := fun hno => absurd h hno

/-- A waiting thread is not the one that runs. -/
theorem Sound.ne_current (h : Sound s L) (hp : s.Poised) (hs : (s.threads k).state = .wait) :
    k ≠ s.current := by
  rintro rfl
  by_cases hset : s.Settled
  · have hrun := h.settled hset
    rw [show s.pending = s.current from hset, hs] at hrun
    cases hrun
  · exact absurd (hs.symm.trans (hp hset)) (by decide)

theorem Sound.current_ne_kNone (h : Sound s L) : s.current ≠ kNone := ne_kNone_of_lt h.current.1

theorem Sound.pending_ne_kNone (h : Sound s L) : s.pending ≠ kNone := ne_kNone_of_lt h.pending.1

/-- **The decision of the running thread** about one that it has made ready. -/
theorem Sound.handOffIfBetter (h : Sound s L) (hset : s.Settled)
    (hk : k ∈ L (.ready (s.priorityOf k))) :
    ∃ L', Decides s L k false (s.handOffIfBetter k).1 L' ∧ Sound (s.handOffIfBetter k).1 L' ∧
      ((s.handOffIfBetter k).2 = false ↔ (s.handOffIfBetter k).1.Settled) := by
  rw [handOffIfBetter_eq]
  split
  · next hno =>
    have hle := hno.resolve_left h.current_ne_kNone
    exact ⟨L, .queued hset hle, h, by simpa using hset⟩
  · next hno =>
    have hlt := not_le.mp (not_or.mp hno).2
    have hne : k ≠ s.current := fun heq => h.ne_of_mem hk (heq.trans hset.symm)
    refine ⟨_, .handOff hset hk hlt, h.handOff hset hk, ?_⟩
    simpa [Settled] using hne

/-- **The decision on an interrupt's behalf** about a thread that has been woken. -/
theorem Sound.stage (h : Sound s L) (hp : s.Poised) (hk : k ∈ L (.ready (s.priorityOf k)))
    (hne : k ≠ s.current)
    (hbetter : s.priorityOf k < s.priorityOf s.current ∧
      (s.Settled ∨ s.priorityOf k < s.priorityOf s.pending)) :
    ∃ L', Decides s L k true (s.stage k) L' ∧ Sound (s.stage k) L' ∧ (s.stage k).Poised := by
  rw [Sched.stage]
  by_cases hset : s.Settled
  · have hsettled : s.pending = s.current := hset
    rw [if_pos (.inr hsettled)]
    refine ⟨_, .first hset hk hbetter.1, h.stageFirst hset hk, fun _ => ?_⟩
    simp
  · have hstaged : s.pending ≠ s.current := hset
    rw [if_neg (not_or.mpr ⟨h.pending_ne_kNone, hstaged⟩)]
    have hlt := hbetter.2.resolve_left hset
    refine ⟨_, .replaces hset hp hk hne hbetter.1 hlt, h.stageOver hset hk hne, fun _ => ?_⟩
    simpa [hstaged.symm] using hp hset

/-- Waking is done first, and who is to run is decided afterwards. -/
theorem wake_eq (s : Sched) (k : ℕ) (answer : ℤ) (interrupt : Bool) :
    s.wake k answer interrupt =
      if interrupt then
        if (s.woken k answer).current ≠ kNone ∧
            (s.woken k answer).priorityOf k < (s.woken k answer).priorityOf
              (s.woken k answer).current ∧
            ((s.woken k answer).pending = kNone ∨
              (s.woken k answer).pending = (s.woken k answer).current ∨
              (s.woken k answer).priorityOf k < (s.woken k answer).priorityOf
                (s.woken k answer).pending) then
          ((s.woken k answer).stage k, false)
        else (s.woken k answer, false)
      else (s.woken k answer).handOffIfBetter k := rfl

/-- A woken thread is in its ready queue. -/
theorem mem_wake (s : Sched) (L : Lists) (k : ℕ) (answer : ℤ) :
    k ∈ Lists.wake s L k (.ready ((s.woken k answer).priorityOf k)) := by
  rw [woken_priorityOf, Lists.wake, Lists.append_apply, if_pos rfl]
  exact List.mem_append_right _ (List.mem_singleton_self k)

/-- What `woken` leaves of who is staged. -/
theorem woken_settled (s : Sched) (k : ℕ) (answer : ℤ) :
    (s.woken k answer).Settled ↔ s.Settled := by
  rw [Settled, woken_pending, woken_current, Settled]

theorem Sched.Poised.woken (hp : s.Poised) (hne : k ≠ s.current) (answer : ℤ) :
    (s.woken k answer).Poised := by
  intro hno
  rw [woken_current, woken_threads, if_neg hne.symm]
  exact hp (mt (woken_settled s k answer).mpr hno)

/-- **Waking a thread** from the running one. -/
theorem Sound.wake_thread (h : Sound s L) (hset : s.Settled) (hv : s.Valid k)
    (hs : (s.threads k).state = .wait) (answer : ℤ) :
    ∃ L', Decides (s.woken k answer) (Lists.wake s L k) k false (s.wake k answer false).1 L' ∧
      Sound (s.wake k answer false).1 L' ∧
      ((s.wake k answer false).2 = false ↔ (s.wake k answer false).1.Settled) :=
  (h.woken hv hs answer).handOffIfBetter ((woken_settled s k answer).mpr hset)
    (mem_wake s L k answer)

/-- **Waking a thread** on an interrupt's behalf. -/
theorem Sound.wake_interrupt (h : Sound s L) (hp : s.Poised) (hv : s.Valid k)
    (hs : (s.threads k).state = .wait) (answer : ℤ) :
    ∃ L', Decides (s.woken k answer) (Lists.wake s L k) k true (s.wake k answer true).1 L' ∧
      Sound (s.wake k answer true).1 L' ∧ (s.wake k answer true).1.Poised ∧
      (s.wake k answer true).2 = false := by
  have hne := h.ne_current hp hs
  have hwoken := h.woken hv hs answer
  have hpoised := hp.woken hne answer
  have hmem := mem_wake s L k answer
  rw [wake_eq, if_pos rfl]
  split
  · next hyes =>
    obtain ⟨-, hlt, hor⟩ := hyes
    have hbetter := hor.resolve_left hwoken.pending_ne_kNone
    obtain ⟨L', hd, hsound, hp'⟩ :=
      hwoken.stage hpoised hmem (by rwa [woken_current]) ⟨hlt, hbetter⟩
    exact ⟨L', hd, hsound, hp', rfl⟩
  · next hno =>
    refine ⟨_, .left hpoised (by rwa [woken_current]) fun hlt => ?_, hwoken, hpoised, rfl⟩
    simp only [not_and, not_or, not_lt] at hno
    exact (hno hwoken.current_ne_kNone hlt).2

/-- A woken thread that is no better than the running one is left in its queue. -/
theorem Sound.wake_worse (h : Sound s L) (hp : s.Poised) (hv : s.Valid k)
    (hs : (s.threads k).state = .wait) (hle : s.priorityOf s.current ≤ s.priorityOf k)
    {answer : ℤ} (hP : P.wakes k answer) :
    (s.wake k answer true).1 = s.woken k answer ∧
      Move P s L (s.woken k answer) (Lists.wake s L k) ∧
      Sound (s.woken k answer) (Lists.wake s L k) := by
  have hno : ¬ (s.woken k answer).priorityOf k <
      (s.woken k answer).priorityOf (s.woken k answer).current := by
    rw [woken_current, woken_priorityOf, woken_priorityOf]
    exact not_lt.mpr hle
  have hne := h.ne_current hp hs
  refine ⟨?_, .wake answer hv hs hP (.left (hp.woken hne answer) (by rwa [woken_current])
    fun hlt => absurd hlt hno), h.woken hv hs answer⟩
  rw [wake_eq, if_pos rfl, if_neg fun hyes => hno hyes.2.1]

end Decisions

/-! ### The end of a thread's turn -/

section Stopping

variable {P : Permit} {s s₁ : Sched} {L L₁ : Lists} {k : ℕ}

/-- What stopping leaves alone. -/
structure Stopped (s s₁ : Sched) : Prop where
  same : Same s s₁
  current : s₁.current = s.current
  threads : ∀ j, j ≠ s.current → s₁.threads j = s.threads j
  state : (s₁.threads s.current).state = .wait ∨ (s₁.threads s.current).state = .dormant
  priority : (s₁.threads s.current).currentPriority = (s.threads s.current).currentPriority

/-- Stopping leaves everything alone but who runs. -/
theorem Stops.stopped (h : Stops P s L s₁ L₁) : Stopped s s₁ := by
  cases h with
  | waits waitId hkind =>
    exact ⟨same_setThread s _ _, rfl, fun j hj => setThread_ne s _ _ hj, .inl (by simp [suspend]),
      by simp [suspend]⟩
  | @joins kind index r l₁ l₂ waitType waitId byPriority hkind hjoins hindex hl =>
    have hput : (s.setQueue (.waiters kind index) r).setCount kind index
        (s.waiterCount kind index + 1) =
          s.put (.waiters kind index) r (s.waiterCount kind index + 1) := rfl
    rw [hput]
    exact ⟨(same_put s _ _ r).trans (same_setThread _ _ _), rfl,
      fun j hj => setThread_ne _ _ _ hj, .inl (by simp [suspend, Sched.put, setCount, setQueue]),
      by simp [suspend, Sched.put, setCount, setQueue]⟩
  | ends =>
    exact ⟨same_setThread s _ _, rfl, fun j hj => setThread_ne s _ _ hj, .inr (by simp), by simp⟩

theorem Picked.waiters {s' : Sched} {L' : Lists} {best : ℕ} (h : Picked s L s' best L')
    (kind : Kind) (i : ℕ) : L' (.waiters kind i) = L (.waiters kind i) := by
  obtain ⟨l, -, rfl⟩ := h.head
  exact Function.update_of_ne (by simp) _ _

/-- **The running thread stops**, while another is ready, and the best of those is staged. -/
theorem Sound.stop (h : Sound s L) (hset : s.Settled) (hidle : s.current ≠ 0)
    (hstop : Stops P s L s₁ L₁) (hlinked : Linked s₁ L₁ [])
    (hready : ∃ j, s.Valid j ∧ (s.threads j).state = .ready) :
    ∃ L', Move P s L (s₁.pick.2.setPending s₁.pick.1) L' ∧
      Sound (s₁.pick.2.setPending s₁.pick.1) L' ∧ ¬ (s₁.pick.2.setPending s₁.pick.1).Settled ∧
      ∀ kind i, L' (.waiters kind i) = L₁ (.waiters kind i) := by
  have hst := hstop.stopped
  have hcur : s₁.Valid s₁.current := by
    rw [hst.current]
    exact hst.same.valid.mpr h.current
  have hrun : ∀ j, s₁.Valid j → (s₁.threads j).state ≠ .run := by
    intro j hj hs
    rcases eq_or_ne j s.current with rfl | hne
    · rcases hst.state with hw | hd
      · exact absurd (hw.symm.trans hs) (by decide)
      · exact absurd (hd.symm.trans hs) (by decide)
    · rw [hst.threads j hne] at hs
      exact hne (h.running j (hst.same.valid.mp hj) hs).1
  rcases hlinked.stageBest hcur hrun with ⟨-, hempty⟩ | ⟨best, s₂, L', heq, hpicked, hsound⟩
  · -- another thread is ready, and in its queue still
    obtain ⟨j, hj, hs⟩ := hready
    have hne : j ≠ s.current := by
      rintro rfl
      have hrunning := h.settled hset
      rw [show s.pending = s.current from hset, hs] at hrunning
      cases hrunning
    have hmem : j ∈ L₁ (.ready (s.priorityOf j)) := by
      refine (hlinked.mem_iff j _).mpr ⟨List.not_mem_nil, hst.same.valid.mpr hj, ?_, ?_⟩
      · rw [hst.threads j hne, hs]
      · rw [priorityOf, hst.threads j hne, priorityOf]
    rw [hempty] at hmem
    exact absurd hmem List.not_mem_nil
  · have hne : best ≠ s₁.current := by
      rintro rfl
      have hbest := hpicked.state
      rw [hst.current] at hbest
      rcases hst.state with hw | hd
      · exact absurd (hw.symm.trans hbest) (by decide)
      · exact absurd (hd.symm.trans hbest) (by decide)
    obtain ⟨r, n, hs₂⟩ := hpicked.same
    rw [heq]
    refine ⟨L', .stop hset hidle hstop hpicked (hst.current ▸ hne), hsound hne, fun hno => ?_,
      hpicked.waiters⟩
    rw [Settled, setPending_pending, setPending_current, hs₂, put_current] at hno
    exact hne hno

/-- A thread that waits on no object. -/
theorem Sound.linked_suspend (h : Sound s L) (hset : s.Settled) {waitType : WaitType}
    (hkind : waitType.kind = none) (waitId : UInt32) : Linked (s.suspend waitType waitId) L [] := by
  have hlinked := h.linked
  rw [show s.pending = s.current from hset] at hlinked
  have hw : Linked (s.suspend waitType waitId) L [s.current] :=
    hlinked.setThread (.inl List.mem_cons_self) (hlinked.priorities _) fun _ hno => absurd hkind hno
  refine hw.close fun p => ?_
  cases p with
  | ready priority => simp [belongs, suspend]
  | waiters kind index => simp [belongs, suspend, waitObjectOf_eq, hkind]

/-- A thread that has ended. -/
theorem Sound.linked_end (h : Sound s L) (hset : s.Settled) :
    Linked (s.setThread s.current fun t =>
      { t with state := .dormant, waitType := .notWaiting }) L [] := by
  have hlinked := h.linked
  rw [show s.pending = s.current from hset] at hlinked
  have hw : Linked (s.setThread s.current fun t =>
      { t with state := .dormant, waitType := .notWaiting }) L [s.current] :=
    hlinked.setThread (.inl List.mem_cons_self) (hlinked.priorities _) fun hno => by cases hno
  exact hw.close fun p => not_belongs (by simp) (by simp)

end Stopping

end PS2Bios.Threadman
