import PS2Bios.Threadman.Wakes

/-!
# Calls about threads

A call finds the variables in order (`Called`), with nothing staged unless a handler makes it, and
its outcome is a number of moves (`Performed`), after which a thread goes on exactly if nothing is
staged. Here are the calls that make, start and end threads, and those that put them to sleep and
wake them.
-/

namespace PS2Bios.Threadman

open Intrusive Sched

/-- The state that a call finds. -/
structure Called (s : Sched) (L : Lists) (interrupt : Bool) : Prop where
  sound : Sound s L
  poised : s.Poised
  settled : interrupt = false → s.Settled

/-- What a call has done: its effect on the queues, after which a thread traps exactly if another is
staged, and a handler goes on. -/
structure Outcome (E : Sched → Lists → Prop) (interrupt : Bool) (r : Sched × Reply) (L' : Lists) :
    Prop where
  effect : E r.1 L'
  thread : interrupt = false → (r.1.Settled ↔ ∃ v, r.2 = .returns v)
  handler : interrupt = true → r.1.Poised ∧ ∃ v, r.2 = .returns v

/-- The call is a number of moves. -/
abbrev Performed (P : Permit) (s : Sched) (L : Lists) : Bool → Sched × Reply → Lists → Prop :=
  Outcome (Moves P s L)

section Calls

variable {P : Permit} {s s' s'' : Sched} {L L' : Lists} {interrupt : Bool} {k : ℕ} {v : ℤ}
  {id : UInt32}

/-- A call that returns with as much staged as before. -/
theorem Outcome.of_returns {E : Sched → Lists → Prop} (he : E s' L') (hp : s'.Poised)
    (hset : interrupt = false → s'.Settled) (v : ℤ) : Outcome E interrupt (s', .returns v) L' :=
  ⟨he, fun hi => iff_of_true (hset hi) ⟨v, rfl⟩, fun _ => ⟨hp, v, rfl⟩⟩

theorem Outcome.of_traps {E : Sched → Lists → Prop} (he : E s' L') (hi : interrupt = false)
    (hset : ¬ s'.Settled) (resume : Resume) : Outcome E interrupt (s', .traps resume) L' :=
  ⟨he, fun _ => iff_of_false hset (by rintro ⟨v, hv⟩; cases hv), fun hi' => by
    rw [hi] at hi'
    cases hi'⟩

/-- More moves before a call. -/
theorem Moves.before {r : Sched × Reply} {L'' : Lists} (hm : Moves P s L s' L')
    (h : Performed P s' L' interrupt r L'') : Performed P s L interrupt r L'' :=
  ⟨hm.trans h.effect, h.thread, h.handler⟩

theorem Quiet.poised (hq : Quiet s s') (hp : s.Poised) : s'.Poised := fun hno => by
  rw [hq.current, hq.state]
  exact hp (mt hq.settled.mpr hno)

/-- Writes that the scheduler does not depend on. -/
theorem Called.quiet (h : Called s L interrupt) (hq : Quiet s s') :
    Moves P s L s' L ∧ Called s' L interrupt :=
  ⟨(Move.quiet hq).moves h.sound (hq.sound h.sound), hq.sound h.sound, hq.poised h.poised,
    fun hi => hq.settled.mpr (h.settled hi)⟩

/-- A call that changes nothing the scheduler depends on. -/
theorem Called.returns (h : Called s L interrupt) (hq : Quiet s s') (v : ℤ) :
    ∃ L', Performed P s L interrupt (s', .returns v) L' := by
  obtain ⟨hmoves, hcalled⟩ := h.quiet (P := P) hq
  exact ⟨L, .of_returns hmoves hcalled.poised hcalled.settled v⟩

/-- A call that refuses. -/
theorem Called.refuses (h : Called s L interrupt) (v : ℤ) :
    ∃ L', Performed P s L interrupt (s, .returns v) L' :=
  h.returns (Quiet.refl s) v

/-- Such a call, where another might not end. -/
theorem Called.refuses_some (h : Called s L interrupt) (v : ℤ) :
    ∃ r L', some (s, Reply.returns v) = some r ∧ Performed P s L interrupt r L' :=
  (h.refuses v).elim fun L' hr => ⟨_, L', rfl, hr⟩

/-- **A call that wakes a thread**, in either form. -/
theorem Called.wake (h : Called s L interrupt) (hv : s.Valid k) (hs : (s.threads k).state = .wait)
    (answer : ℤ) : ∃ L', Decides (s.woken k answer) (Lists.wake s L k) k interrupt
        (s.wake k answer interrupt).1 L' ∧
      Sound (s.wake k answer interrupt).1 L' ∧
      (interrupt = false → ((s.wake k answer interrupt).2 = false ↔
        (s.wake k answer interrupt).1.Settled)) ∧
      (interrupt = true → (s.wake k answer interrupt).1.Poised ∧
        (s.wake k answer interrupt).2 = false) := by
  cases interrupt with
  | false =>
    obtain ⟨L', hm, hsound, htrap⟩ := h.sound.wake_thread (h.settled rfl) hv hs answer
    exact ⟨L', hm, hsound, fun _ => htrap, nofun⟩
  | true =>
    obtain ⟨L', hm, hsound, hp, htrap⟩ := h.sound.wake_interrupt h.poised hv hs answer
    exact ⟨L', hm, hsound, nofun, fun _ => ⟨hp, htrap⟩⟩

/-- The end of a call that may hand over. -/
theorem Outcome.andReturn {E : Sched → Lists → Prop} {r : Sched × Bool} (he : E r.1 L')
    (hthread : interrupt = false → (r.2 = false ↔ r.1.Settled))
    (hhandler : interrupt = true → r.1.Poised ∧ r.2 = false) (v : ℤ) :
    Outcome E interrupt (andReturn r v) L' := by
  obtain ⟨s', trapped⟩ := r
  cases interrupt with
  | false =>
    cases trapped with
    | false => exact .of_returns he ((hthread rfl).mp rfl).poised (fun _ => (hthread rfl).mp rfl) v
    | true => exact .of_traps he rfl (fun hset => by cases (hthread rfl).mpr hset) _
  | true =>
    obtain ⟨hp, htrapped⟩ := hhandler rfl
    obtain rfl : trapped = false := htrapped
    exact .of_returns he hp (fun hi => by cases hi) v

theorem Called.wakes (h : Called s L interrupt) (hv : s.Valid k)
    (hs : (s.threads k).state = .wait) {answer : ℤ} (hP : P.wakes k answer) (v : ℤ) :
    ∃ L', Performed P s L interrupt (Sched.andReturn (s.wake k answer interrupt) v) L' := by
  obtain ⟨L', hd, hsound, hthread, hhandler⟩ := h.wake hv hs answer
  exact ⟨L', .andReturn ((Move.wake answer hv hs hP hd).moves h.sound hsound) hthread hhandler v⟩

theorem valid_of_threadOf (h : threadOf s.pools id = some k) : s.Valid k := by
  obtain ⟨hk, hin, -⟩ := lookup_eq_some.mp h
  exact ⟨hk, hin⟩

/-- A thread that is neither ready nor waiting is in no queue. -/
theorem Sound.not_mem_of_state (h : Sound s L) (hr : (s.threads k).state ≠ .ready)
    (hw : (s.threads k).state ≠ .wait) (p : Place) : k ∉ L p := fun hk =>
  not_belongs hr hw ((h.linked.mem_iff k p).mp hk).2.2

/-- The current and the pending thread are not dormant. -/
theorem Called.ne_of_dormant (h : Called s L interrupt) (hs : (s.threads k).state = .dormant) :
    k ≠ s.current ∧ k ≠ s.pending := by
  by_cases hset : s.Settled
  · have hrun := h.sound.settled hset
    have hne : k ≠ s.pending := by
      rintro rfl
      exact absurd (hs.symm.trans hrun) (by decide)
    exact ⟨fun heq => hne (heq.trans (show s.pending = s.current from hset).symm), hne⟩
  · constructor
    · rintro rfl
      exact absurd (hs.symm.trans (h.poised hset)) (by decide)
    · rintro rfl
      exact absurd (hs.symm.trans (h.sound.staged hset)) (by decide)

/-! ### Threads made and deleted -/

theorem lt_of_legal {priority : UInt32} (hp : 1 ≤ priority ∧ priority ≤ 126) :
    priority.toNat < kPriorities := by
  have hle : priority.toNat ≤ 126 := UInt32.le_iff_toNat_le.mp hp.2
  rw [kPriorities]
  omega

/-- A thread is created at a priority there is a queue for. -/
theorem createThread_priority {a : ThreadParameters} {stack : UInt32} {p p' : Pools}
    (h : Threadman.createThread interrupt a stack p = (.ok id, p')) :
    a.priority.toNat < kPriorities := by
  rw [Threadman.createThread] at h
  split at h
  · cases h
  · split at h
    · cases h
    · split at h
      · cases h
      · next hrange =>
        exact lt_of_legal ((not_or.mp hrange).imp UInt32.not_lt.mp UInt32.not_lt.mp)

/-- A creation leaves the queues in order. -/
theorem Called.createThread (h : Called s L interrupt) (a : ThreadParameters) (stack : UInt32) :
    ∃ L', Performed P s L interrupt (s.createThread interrupt a stack) L' := by
  rw [Sched.createThread]
  have hcreates : Creates .thread s.pools (Threadman.createThread interrupt a stack s.pools) :=
    creates_createThread a stack
  rcases hcreates with ⟨code, heq⟩ | ⟨k, hk, hfree, heq⟩
  · rw [heq]
    exact h.refuses code
  · have hpri := createThread_priority (heq.trans rfl)
    rw [heq]
    have hslot : slotOf (makeId k ((s.pools .thread k).generation + 1)) = k :=
      slotOf_makeId (hk.trans_le (Kind.slots_le .thread)) _
    have hinvalid : ¬ s.Valid k := fun hv => Bool.false_ne_true (hfree.symm.trans hv.2)
    have hno : ∀ p, k ∉ L p := fun p hmem => hinvalid (h.sound.linked.valid_of_mem hmem)
    have hcur : k ≠ s.current := fun heq => hinvalid (heq ▸ h.sound.current)
    have hpend : k ≠ s.pending := fun heq => hinvalid (heq ▸ h.sound.pending)
    dsimp only [occupy]
    rw [hslot]
    set f : Thread → Thread := fun t =>
      { t with state := .dormant, waitType := .notWaiting, initialPriority := a.priority.toNat,
               currentPriority := a.priority.toNat, frame := none, wakeupCount := 0 } with hf
    set s' := { s.setSlot .thread k ⟨true, (s.pools .thread k).generation + 1⟩ with
        links := (s.links.setNext k kNone).setPrev k kNone }.setThread k f
    have hmove : Move P s L s' L := .thread hno hcur hpend (.inl hinvalid) (.inl rfl)
    have hsound : Sound s' L := h.sound.setThreadSlot hno hcur hpend
      (fun j hj => by simp [hj]) (.inl rfl) ⟨hpri, hpri⟩
    refine ⟨L, .of_returns (hmove.moves h.sound hsound) (fun hset => ?_) (fun hi => h.settled hi) _⟩
    exact (congrArg Thread.state (setThread_ne _ _ _ hcur.symm)).trans (h.poised hset)

/-- A deletion leaves the queues in order. -/
theorem Called.deleteThread (h : Called s L interrupt) (id : UInt32) :
    ∃ L', Performed P s L interrupt (s.deleteThread interrupt id) L' := by
  rw [Sched.deleteThread, Threadman.deleteThread]
  dsimp only
  cases interrupt with
  | true => exact h.refuses _
  | false =>
    rw [if_neg Bool.false_ne_true]
    cases hfound : threadOf s.pools id with
    | none => exact h.refuses _
    | some k =>
      obtain ⟨hk, hin, hid⟩ := lookup_eq_some.mp hfound
      have hslot : slotOf id = k := hid ▸ slotOf_makeId (hk.trans_le (Kind.slots_le .thread)) _
      rw [hslot]
      by_cases hs : (s.threads k).state = .dormant
      · have hno := h.sound.not_mem_of_state (k := k) (by rw [hs]; decide) (by rw [hs]; decide)
        obtain ⟨hcur, hpend⟩ := h.ne_of_dormant hs
        have hmove : Move P s L ({ s.setSlot .thread k { s.pools .thread k with inUse := false }
            with links := s.links }.setThread k fun t => { t with state := .free }) L :=
          .thread hno hcur hpend (.inr hs) (.inr rfl)
        have hsound : Sound ({ s.setSlot .thread k { s.pools .thread k with inUse := false }
            with links := s.links }.setThread k fun t => { t with state := .free }) L :=
          h.sound.setThreadSlot hno hcur hpend (fun _ _ => ⟨rfl, rfl⟩) (.inr rfl)
            (h.sound.linked.priorities k ⟨hk, hin⟩)
        simp only [hs, decide_true, if_true]
        exact ⟨L, .of_returns (hmove.moves h.sound hsound) (Settled.poised (h.settled rfl))
          (fun hi => h.settled hi) _⟩
      · have hcode : kNotDormant ≠ kOk := by decide
        simp only [hs, decide_false, Bool.false_eq_true, if_false, hcode]
        exact h.refuses _

/-! ### Threads started and ended -/

/-- The record of a thread that is started. -/
theorem activate_threads (s : Sched) (k j : ℕ) : (s.activate k).threads j =
    if j = k then { s.threads k with
      state := .ready
      waitType := .notWaiting
      currentPriority := (s.threads k).initialPriority
      frame := some ⟨0, .own⟩ } else s.threads j := by
  rw [activate, makeReady_threads]
  split
  · next hj => simp [primeFrame]
  · next hj => simp [primeFrame, setThread_threads, hj]

/-- A dormant thread is made ready, behind the others of its initial priority. -/
theorem Sound.activate (h : Sound s L) (hv : s.Valid k) (hs : (s.threads k).state = .dormant)
    (hpend : k ≠ s.pending) :
    Sound (s.activate k) (L.append (.ready (s.threads k).initialPriority) k) := by
  have hnone : ∀ p, ¬ s.belongs k p := fun p =>
    not_belongs (by rw [hs]; decide) (by rw [hs]; decide)
  have hopen := h.linked.open hnone
  have hpri : Linked (s.setThread k fun t => { t with currentPriority := t.initialPriority }) L
      [k, s.pending] :=
    hopen.setThread (.inl List.mem_cons_self) (fun _ =>
      ⟨(h.linked.priorities k hv).2, (h.linked.priorities k hv).2⟩) fun hno => by
        rw [hs] at hno
        cases hno
  have hprime : Linked ((s.setThread k fun t =>
      { t with currentPriority := t.initialPriority }).primeFrame k) L [k, s.pending] :=
    hpri.setThread (.inl List.mem_cons_self) (hpri.priorities k) fun hno => by
      simp [hs] at hno
  have hready := hprime.makeReady (by simpa using hpend) hv
  have hpriority : ((s.setThread k fun t =>
      { t with currentPriority := t.initialPriority }).primeFrame k).priorityOf k =
        (s.threads k).initialPriority := by simp [priorityOf, primeFrame]
  rw [hpriority] at hready
  have hsettled : (s.activate k).Settled ↔ s.Settled := Iff.rfl
  exact
    { linked := hready
      current := h.current
      pending := h.pending
      settled := fun hset => by
        change ((s.activate k).threads s.pending).state = .run
        rw [activate_threads, if_neg hpend.symm]
        exact h.settled (hsettled.mp hset)
      staged := fun hset => by
        change ((s.activate k).threads s.pending).state = .ready
        rw [activate_threads, if_neg hpend.symm]
        exact h.staged (mt hsettled.mpr hset)
      running := fun j hj hrun => by
        rw [activate_threads] at hrun
        split at hrun
        · cases hrun
        · exact h.running j hj hrun }

/-- A start leaves the queues in order, whoever runs afterwards. -/
theorem Called.startThread (h : Called s L interrupt) (id : UInt32) :
    ∃ L', Performed P s L interrupt (s.startThread interrupt id) L' := by
  rw [Sched.startThread]
  cases interrupt with
  | true => exact h.refuses _
  | false =>
    rw [if_neg Bool.false_ne_true]
    cases hfound : threadOf s.pools id with
    | none => exact h.refuses _
    | some k =>
      dsimp only
      split
      · exact h.refuses _
      · next hs =>
        have hs : (s.threads k).state = .dormant := not_not.mp hs
        have hv := valid_of_threadOf hfound
        obtain ⟨-, hpend⟩ := h.ne_of_dormant hs
        have hsound := h.sound.activate hv hs hpend
        have hmem : k ∈ (L.append (.ready (s.threads k).initialPriority) k)
            (.ready ((s.activate k).priorityOf k)) := by
          rw [priorityOf, activate_threads, if_pos rfl, Lists.append_apply, if_pos rfl]
          exact List.mem_append_right _ (List.mem_singleton_self k)
        obtain ⟨L', hd, hsound', htrap⟩ := hsound.handOffIfBetter (h.settled rfl) hmem
        exact ⟨L', .andReturn ((Move.start hv hs hd).moves h.sound hsound') (fun _ => htrap)
          (fun hi => by cases hi) _⟩

/-- The running thread may stop: it is not the idle thread, which is the first record, and another
is ready. -/
def Sched.MayStop (s : Sched) : Prop :=
  s.current ≠ 0 ∧ ∃ j, s.Valid j ∧ (s.threads j).state = .ready

/-- The running thread stops, and traps. -/
theorem Called.stops {s₁ : Sched} {L₁ : Lists} (h : Called s L false) (hready : s.MayStop)
    (hstop : Stops P s L s₁ L₁) (hlinked : Linked s₁ L₁ []) (resume : Resume) :
    ∃ L', Performed P s L false (s₁.pick.2.setPending s₁.pick.1, .traps resume) L' ∧
      ∀ kind i, L' (.waiters kind i) = L₁ (.waiters kind i) := by
  obtain ⟨L', hm, hsound, hset, hlists⟩ :=
    h.sound.stop (h.settled rfl) hready.1 hstop hlinked hready.2
  exact ⟨L', .of_traps (hm.moves h.sound hsound) rfl hset resume, hlists⟩

theorem Called.exitThread (h : Called s L false) (hready : s.MayStop) :
    ∃ L', Performed P s L false s.exitThread L' :=
  (h.stops hready .ends (h.sound.linked_end (h.settled rfl)) .endless).imp fun _ hr => hr.1

/-- A sleep leaves the queues in order where the caller may stop. -/
theorem Called.sleepThread (h : Called s L interrupt)
    (hready : interrupt = false → (s.threads s.current).wakeupCount = 0 → s.MayStop) :
    ∃ L', Performed P s L interrupt (s.sleepThread interrupt) L' := by
  rw [Sched.sleepThread]
  cases interrupt with
  | true => exact h.refuses _
  | false =>
    rw [if_neg Bool.false_ne_true]
    split
    · refine h.returns ?_ _
      exact quiet_setThread s _ fun _ => ⟨rfl, rfl, rfl, rfl, rfl, rfl⟩
    · next hcount =>
      exact (h.stops (hready rfl (Nat.eq_zero_of_not_pos hcount)) (.waits 0 rfl)
        (h.sound.linked_suspend (h.settled rfl) rfl 0) .answer).imp fun _ hr => hr.1

/-- A delay leaves the queues in order where the caller may stop. -/
theorem Called.delayThread (h : Called s L interrupt) (added : ℤ)
    (hready : interrupt = false → added = kOk → s.MayStop) :
    ∃ L', Performed P s L interrupt (s.delayThread interrupt added) L' := by
  rw [Sched.delayThread]
  cases interrupt with
  | true => exact h.refuses _
  | false =>
    rw [if_neg Bool.false_ne_true]
    split
    · exact h.refuses _
    · next hadded =>
      exact (h.stops (hready rfl (not_not.mp hadded)) (.waits 0 rfl)
        (h.sound.linked_suspend (h.settled rfl) rfl 0) .answer).imp fun _ hr => hr.1

/-! ### Threads woken -/

/-- A release wakes one waiter and leaves the queues in order. -/
theorem Called.releaseWaitThread (h : Called s L interrupt) (id : UInt32)
    (hP : ∀ k, threadOf s.pools id = some k → P.wakes k kReleaseWait) :
    ∃ L', Performed P s L interrupt (s.releaseWaitThread interrupt id) L' := by
  rw [Sched.releaseWaitThread]
  split
  · exact h.refuses _
  · cases hfound : threadOf s.pools id with
    | none => exact h.refuses _
    | some k =>
      dsimp only
      split
      · exact h.refuses _
      · split
        · exact h.refuses _
        · next hs => exact h.wakes (valid_of_threadOf hfound) (not_not.mp hs) (hP k hfound) _

/-- A wakeup wakes one sleeper and leaves the queues in order. -/
theorem Called.wakeupThread (h : Called s L interrupt) (id : UInt32)
    (hP : ∀ k, threadOf s.pools id = some k → (s.threads k).waitType = .sleep → P.wakes k kOk) :
    ∃ L', Performed P s L interrupt (s.wakeupThread interrupt id) L' := by
  rw [Sched.wakeupThread]
  split
  · exact h.refuses _
  · cases hfound : threadOf s.pools id with
    | none => exact h.refuses _
    | some k =>
      dsimp only
      split
      · exact h.refuses _
      · split
        · next hs => exact h.wakes (valid_of_threadOf hfound) hs.1 (hP k hfound hs.2) _
        · refine h.returns ?_ _
          exact quiet_setThread s _ fun _ => ⟨rfl, rfl, rfl, rfl, rfl, rfl⟩

/-- Forgetting wakeups leaves the queues in order. -/
theorem Called.cancelWakeupThread (h : Called s L interrupt) (id : UInt32) :
    ∃ L', Performed P s L interrupt (s.cancelWakeupThread id) L' := by
  rw [Sched.cancelWakeupThread]
  cases hfound : s.threadOrSelf id with
  | none => exact h.refuses _
  | some k =>
    refine h.returns ?_ _
    exact quiet_setThread s _ fun _ => ⟨rfl, rfl, rfl, rfl, rfl, rfl⟩

/-- The callback of a delay's alarm, which runs in an interrupt. -/
theorem Called.delayExpired (h : Called s L true)
    (hP : (s.threads k).waitType = .delay → P.wakes k kOk)
    (hfree : ∀ j, ¬ s.Valid j → (s.threads j).state ≠ .wait) :
    ∃ L', Moves P s L (s.delayExpired k) L' ∧ (s.delayExpired k).Poised := by
  rw [Sched.delayExpired]
  split
  · next hs =>
    have hv : s.Valid k := by
      by_contra hno
      exact hfree k hno hs.1
    obtain ⟨L', hd, hsound, hp, -⟩ := h.sound.wake_interrupt h.poised hv hs.1 kOk
    exact ⟨L', (Move.wake kOk hv hs.1 (hP hs.2) hd).moves h.sound hsound, hp⟩
  · exact ⟨L, .refl h.sound, h.poised⟩

end Calls

end PS2Bios.Threadman
