import PS2Bios.Threadman.Perform

/-!
# What a call does to the record of a thread

`Changes` is every way a call has of writing the state and the frame of one thread: a thread begins
to wait only by its own calls, it is made ready with the answer of whoever wakes it in its frame,
and its frame is replaced only while it is dormant. The invariants of the records are read off it:
that who waits exists, that the idle thread is ready whenever it does not run, and that every thread
that can be switched to has a frame to go on from (`Peopled`).
-/

namespace PS2Bios.Threadman

open Intrusive Sched

/-- The ways in which a record can change, from `s` to `t`. -/
inductive Sched.Changes (s : Sched) (j : ℕ) (t : Thread) : Prop
  | kept (hs : t.state = (s.threads j).state) (hf : t.frame = (s.threads j).frame)
  | readied (hj : j = s.pending) (hs : t.state = .ready) (hf : t.frame = (s.threads j).frame)
  | woken (answer : ℤ) (hv : s.Valid j) (hw : (s.threads j).state = .wait) (hs : t.state = .ready)
      (hf : t.frame = (s.threads j).frame.map fun f => { f with v0 := answer })
  | started (hv : s.Valid j) (hw : (s.threads j).state = .dormant) (hs : t.state = .ready)
      (hf : t.frame = some ⟨0, .own⟩)
  | stopped (hj : j = s.current) (hidle : s.current ≠ 0)
      (hs : t.state = .wait ∨ t.state = .dormant)
  | gone (hold : ¬ s.Valid j ∨ (s.threads j).state = .dormant)
      (hs : t.state = .dormant ∨ t.state = .free)
  | ended (hidle : j ≠ 0) (hj : j ≠ s.current) (hs : t.state = .dormant)

/-- The record says what it said, but that a pending thread may be ready now. -/
def Sched.Holds (s : Sched) (j : ℕ) (t : Thread) : Prop :=
  t.frame = (s.threads j).frame ∧
    (t.state = (s.threads j).state ∨ j = s.pending ∧ t.state = .ready)

theorem Sched.Holds.changes {s : Sched} {j : ℕ} {t : Thread} (h : s.Holds j t) : s.Changes j t := by
  obtain ⟨hf, hs | ⟨hj, hs⟩⟩ := h
  · exact .kept hs hf
  · exact .readied hj hs hf

section Changes

variable {P : Permit} {s s' : Sched} {L L' : Lists} {interrupt : Bool} {k : ℕ}

theorem Decides.current (h : Decides s L k interrupt s' L') : s'.current = s.current := by
  cases h <;> simp

/-- A decision changes the record of the thread that was to run, and no other. -/
theorem Decides.threads (h : Decides s L k interrupt s' L') (hs : Sound s L) (j : ℕ) :
    s'.threads j = s.threads j ∨ j = s.pending ∧ j ≠ k ∧
      ∃ w, s'.threads j = { s.threads j with state := .ready, waitType := w } := by
  cases h with
  | queued _ _ => exact .inl rfl
  | left _ _ _ => exact .inl rfl
  | handOff hset hk _ =>
    rw [setPending_threads, takeOffReady_threads, stepBack_threads]
    split
    · next hj =>
      have hj : j = s.pending := hj.trans hset.symm
      exact .inr ⟨hj, by rw [hj]; exact (hs.ne_of_mem hk).symm, _, by rw [hj, ← hset]⟩
    · exact .inl rfl
  | first hset hk _ =>
    rw [setPending_threads, takeOffReady_threads, makeReadyFirst_threads]
    split
    · next hj =>
      have hj : j = s.pending := hj.trans hset.symm
      exact .inr ⟨hj, by rw [hj]; exact (hs.ne_of_mem hk).symm, _, by rw [hj, ← hset]⟩
    · exact .inl rfl
  | replaces _ _ hk _ _ _ =>
    rw [setPending_threads, takeOffReady_threads, makeReady_threads]
    split
    · next hj => exact .inr ⟨hj, by rw [hj]; exact (hs.ne_of_mem hk).symm, _, by rw [hj]⟩
    · exact .inl rfl

/-- A decision leaves every record holding what it should. -/
theorem Decides.holds (h : Decides s L k interrupt s' L') (hs : Sound s L) (j : ℕ) :
    s.Holds j (s'.threads j) := by
  rcases h.threads hs j with heq | ⟨hj, -, w, heq⟩
  · rw [heq]
    exact ⟨rfl, .inl rfl⟩
  · rw [heq]
    exact ⟨rfl, .inr ⟨hj, rfl⟩⟩

theorem Decides.priorityOf (h : Decides s L k interrupt s' L') (hs : Sound s L) (j : ℕ) :
    s'.priorityOf j = s.priorityOf j := by
  rcases h.threads hs j with heq | ⟨-, -, w, heq⟩ <;> rw [Sched.priorityOf, heq] <;> rfl

theorem Picked.threads {best : ℕ} (h : Picked s L s' best L') : s'.threads = s.threads := by
  obtain ⟨r, n, rfl⟩ := h.same
  exact put_threads s _ r n

theorem Picked.current {best : ℕ} (h : Picked s L s' best L') : s'.current = s.current := by
  obtain ⟨r, n, rfl⟩ := h.same
  exact put_current s _ r n

theorem same_activate (s : Sched) (k : ℕ) : Same s (s.activate k) := ⟨rfl, rfl, rfl, rfl, rfl, rfl⟩

/-- A move changes nothing of who runs. -/
theorem Move.current (h : Move P s L s' L') : s'.current = s.current := by
  cases h with
  | quiet h => exact h.current
  | wake answer _ _ _ h => exact h.current.trans (woken_current s _ answer)
  | start _ _ h => exact h.current
  | stop _ _ hstop hpick _ => exact hpick.current.trans hstop.stopped.current
  | thread _ _ _ _ _ => rfl
  | object _ _ _ => rfl

/-- **What a move does to a record.** -/
theorem Move.changes (h : Move P s L s' L') (hs : Sound s L) (j : ℕ) :
    s.Changes j (s'.threads j) := by
  cases h with
  | quiet h => exact .kept (h.state j) (h.frame j)
  | @wake k interrupt _ _ answer hv hw _ h =>
    rcases h.threads (hs.woken hv hw answer) j with heq | ⟨hj, hjk, w, heq⟩
    · rw [heq, woken_threads]
      split
      · next hjk =>
        subst hjk
        exact .woken answer hv hw rfl rfl
      · exact .kept rfl rfl
    · rw [woken_threads, if_neg hjk] at heq
      rw [woken_pending] at hj
      exact .readied hj (by rw [heq]) (by rw [heq])
  | @start k _ _ hv hw h =>
    have hpend : k ≠ s.pending := by
      rintro rfl
      by_cases hset : s.Settled
      · exact absurd (hw.symm.trans (hs.settled hset)) (by decide)
      · exact absurd (hw.symm.trans (hs.staged hset)) (by decide)
    rcases h.threads (hs.activate hv hw hpend) j with heq | ⟨hj, hjk, w, heq⟩
    · rw [heq, activate_threads]
      split
      · next hjk =>
        subst hjk
        exact .started hv hw rfl rfl
      · exact .kept rfl rfl
    · rw [activate_threads, if_neg hjk] at heq
      exact .readied hj (by rw [heq]) (by rw [heq])
  | stop _ hidle hstop hpick _ =>
    rw [setPending_threads, hpick.threads]
    rcases eq_or_ne j s.current with rfl | hj
    · exact .stopped rfl hidle hstop.stopped.state
    · rw [hstop.stopped.threads j hj]
      exact .kept rfl rfl
  | @thread k slot links f _ _ _ hold hstate =>
    rcases eq_or_ne j k with rfl | hj
    · refine .gone hold ?_
      rw [setThread_same]
      exact hstate
    · rw [setThread_ne _ _ _ hj]
      exact .kept rfl rfl
  | object _ _ _ => exact .kept rfl rfl

/-- Only the record of a thread that does not exist or is dormant is taken or given up. -/
def Sched.Keeps (s s' : Sched) (j : ℕ) : Prop :=
  (s'.Valid j ↔ s.Valid j) ∨
    (¬ s.Valid j ∨ (s.threads j).state = .dormant) ∧
      ((s'.threads j).state = .dormant ∨ (s'.threads j).state = .free)

theorem Same.keeps (h : Same s s') (j : ℕ) : s.Keeps s' j := .inl h.valid

/-- A move keeps what every record holds. -/
theorem Move.keeps (h : Move P s L s' L') (j : ℕ) : s.Keeps s' j := by
  cases h with
  | quiet h => exact .inl h.valid
  | wake answer _ _ _ h => exact ((same_woken s _ answer).trans h.same).keeps j
  | start _ _ h => exact ((same_activate s _).trans h.same).keeps j
  | stop _ _ hstop hpick _ =>
    obtain ⟨r, n, rfl⟩ := hpick.same
    exact ((hstop.stopped.same.trans (same_put _ n _ r)).trans (same_setPending _ _)).keeps j
  | @thread k slot links f _ _ _ hold hstate =>
    rcases eq_or_ne j k with rfl | hj
    · refine .inr ⟨hold, ?_⟩
      rw [setThread_same]
      exact hstate
    · left
      change j < kThreads ∧ ((s.pools.set .thread k slot) .thread j).inUse = true ↔ _
      rw [Pools.set_apply, if_neg fun hc => hj hc.2]
      rfl
  | @object kind k slot r n hkind _ _ =>
    left
    change j < kThreads ∧ ((s.pools.set kind k slot) .thread j).inUse = true ↔ _
    rw [Pools.set_apply, if_neg fun hc => hkind hc.1.symm]
    rfl

/-! ### What is apart -/

/-- A change of priority changes nothing of who runs. -/
theorem Reranks.current {priority : ℕ} (h : Reranks s L k priority interrupt s' L') :
    s'.current = s.current := by
  cases h with
  | requeued _ => exact rerank_current s k priority
  | decided _ hd => exact hd.current.trans (rerank_current s k priority)
  | written _ _ => rfl
  | kept _ _ hpick _ => exact hpick.current
  | yields _ _ hpick _ => exact hpick.current

/-- A change of priority changes no object. -/
theorem Reranks.same {priority : ℕ} (h : Reranks s L k priority interrupt s' L') : Same s s' := by
  cases h with
  | requeued _ => exact same_rerank s k priority
  | decided _ hd => exact (same_rerank s k priority).trans hd.same
  | written _ _ => exact same_setThread s k _
  | kept _ _ hpick _ =>
    obtain ⟨r, n, rfl⟩ := hpick.same
    exact ((same_setThread s k _).trans (same_put _ n _ r)).trans (same_makeReady _ _)
  | yields _ _ hpick _ =>
    obtain ⟨r, n, rfl⟩ := hpick.same
    exact (((same_setThread s k _).trans (same_put _ n _ r)).trans (same_makeReady _ _)).trans
      (same_setPending _ _)

/-- A priority that is stored changes no frame. -/
theorem setPriority_frame (s : Sched) (k priority j : ℕ) :
    ((s.setPriority k priority).threads j).frame = (s.threads j).frame := by
  rw [setPriority, setThread_threads]
  split
  · next hj => rw [hj]
  · rfl

/-- A change of priority leaves every record holding what it should. -/
theorem Reranks.holds {priority : ℕ} (h : Reranks s L k priority interrupt s' L')
    (hs : Sound s L) (hp : priority < kPriorities) (j : ℕ) : s.Holds j (s'.threads j) := by
  have hpri : ∀ j, s.Holds j ((s.setPriority k priority).threads j) := fun j =>
    ⟨setPriority_frame s k priority j, .inl (setPriority_state s k priority j)⟩
  have hrerank : k ∈ L (.ready (s.priorityOf k)) →
      s.Holds j ((s.rerank k priority).threads j) := fun hk => by
    rw [rerank_threads]
    split
    · next hj => exact ⟨by rw [hj], .inl (hj ▸ ((hs.linked.mem_iff k _).mp hk).2.2.1.symm)⟩
    · exact ⟨rfl, .inl rfl⟩
  cases h with
  | requeued hk => exact hrerank hk
  | decided hk hd =>
    obtain ⟨hf, hst⟩ := hrerank hk
    obtain ⟨hf', hst'⟩ := hd.holds (hs.rerank hk hp) j
    rw [rerank_pending] at hst'
    refine ⟨hf'.trans hf, ?_⟩
    rcases hst' with hst' | hst'
    · rwa [hst']
    · exact .inr hst'
  | written _ _ => exact hpri j
  | @kept best _ _ _ _ hpick _ =>
    rw [makeReady_threads, hpick.threads]
    split
    · next hj =>
      have hready := hpick.state
      rw [setPriority_state] at hready
      exact ⟨by rw [hj]; exact (hpri best).1, .inl (hj ▸ hready.symm)⟩
    · exact hpri j
  | yields hset hk hpick _ =>
    rw [setPending_threads, makeReady_threads, hpick.threads]
    split
    · next hj =>
      exact ⟨by rw [hj]; exact (hpri k).1, .inr ⟨(hj.trans hk).trans hset.symm, rfl⟩⟩
    · exact hpri j

theorem Rotates.current (h : Rotates s L interrupt s' L') : s'.current = s.current := by
  cases h with
  | yields _ hpick => exact hpick.current
  | turns _ => rfl

/-- A rotation changes no object. -/
theorem Rotates.same (h : Rotates s L interrupt s' L') : Same s s' := by
  cases h with
  | yields _ hpick =>
    obtain ⟨r, n, rfl⟩ := hpick.same
    exact ((same_makeReady s _).trans (same_put _ n _ r)).trans (same_setPending _ _)
  | turns _ => exact ⟨rfl, rfl, rfl, rfl, rfl, rfl⟩

/-- A rotation leaves every record holding what it should. -/
theorem Rotates.holds (h : Rotates s L interrupt s' L') (j : ℕ) : s.Holds j (s'.threads j) := by
  cases h with
  | yields hset hpick =>
    rw [setPending_threads, hpick.threads, makeReady_threads]
    split
    · next hj => exact ⟨by rw [hj], .inr ⟨hj.trans hset.symm, rfl⟩⟩
    · exact ⟨rfl, .inl rfl⟩
  | turns _ => exact ⟨rfl, .inl rfl⟩

end Changes

/-! ### The invariants of the records -/

/-- The frame of a thread that can go on. -/
def Thread.Framed (t : Thread) : Prop :=
  ∃ v0 resume, t.frame = some ⟨v0, resume⟩ ∧ resume ≠ .endless

/-- Who waits exists, the idle thread, which is the first record, is ready or runs, and who is
ready or waits has a frame to go on from. -/
structure Peopled (s : Sched) : Prop where
  exists_of_wait : ∀ j, (s.threads j).state = .wait → s.Valid j
  idle : s.Valid 0 ∧ ((s.threads 0).state = .ready ∨ (s.threads 0).state = .run)
  framed : ∀ j, s.Valid j → j ≠ s.current →
    (s.threads j).state = .ready ∨ (s.threads j).state = .wait → (s.threads j).Framed

section Peopled

variable {P : Permit} {s s' : Sched} {L L' : Lists} {interrupt : Bool}

/-- The pending thread is ready or runs. -/
theorem Sound.pending_state (h : Sound s L) :
    (s.threads s.pending).state = .ready ∨ (s.threads s.pending).state = .run := by
  by_cases hset : s.Settled
  · exact .inr (h.settled hset)
  · exact .inl (h.staged hset)

/-- **What each record keeps, when it changes.** -/
theorem Peopled.of_changes (h : Peopled s) (hs : Sound s L) (hcur : s'.current = s.current)
    (hkeeps : ∀ j, s.Keeps s' j) (hchanges : ∀ j, s.Changes j (s'.threads j)) : Peopled s' where
  -- who waits was in the table before, whatever has changed its record
  exists_of_wait j hw := by
    rcases hkeeps j with hv | ⟨-, hg | hg⟩
    · rw [hv]
      cases hchanges j with
      | kept hs _ => exact h.exists_of_wait j (hs ▸ hw)
      | readied _ hr _ => exact absurd (hw.symm.trans hr) (by decide)
      | woken _ hv _ _ _ => exact hv
      | started hv _ _ _ => exact hv
      | stopped hj _ _ => exact hj ▸ hs.current
      | gone _ hg => rcases hg with hg | hg <;> exact absurd (hw.symm.trans hg) (by decide)
      | ended _ _ hd => exact absurd (hw.symm.trans hd) (by decide)
    · exact absurd (hw.symm.trans hg) (by decide)
    · exact absurd (hw.symm.trans hg) (by decide)
  idle := by
    obtain ⟨hv, hstate⟩ := h.idle
    -- the idle thread is never ended, and never waits
    have hnot : ¬ (¬ s.Valid 0 ∨ (s.threads 0).state = .dormant) := by
      rintro (hno | hd)
      · exact hno hv
      · simp [hd] at hstate
    refine ⟨((hkeeps 0).resolve_right fun hg => hnot hg.1).mpr hv, ?_⟩
    cases hchanges 0 with
    | kept hs _ => exact hs ▸ hstate
    | readied _ hr _ => exact .inl hr
    | woken _ _ _ hr _ => exact .inl hr
    | started _ _ hr _ => exact .inl hr
    | stopped hj hidle _ => exact absurd hj.symm hidle
    | gone hold _ => exact absurd hold hnot
    | ended hidle _ _ => exact absurd rfl hidle
  framed j hv hj hstate := by
    rw [hcur] at hj
    have hnot : ¬ ((s'.threads j).state = .dormant ∨ (s'.threads j).state = .free) := by
      rcases hstate with hs | hs <;> simp [hs]
    have hold : (s.threads j).state = .ready ∨ (s.threads j).state = .wait →
        (s.threads j).Framed := by
      exact h.framed j (((hkeeps j).resolve_right fun hg => hnot hg.2).mp hv) hj
    -- a frame is written by whoever wakes the thread, and made when it starts
    cases hchanges j with
    | kept hs' hf =>
      rw [Thread.Framed, hf]
      exact hold (hs' ▸ hstate)
    | readied hj' _ hf =>
      rw [Thread.Framed, hf]
      subst hj'
      exact hold (.inl (hs.staged hj))
    | woken answer _ hw _ hf =>
      obtain ⟨v0, resume, hframe, hne⟩ := hold (.inr hw)
      exact ⟨answer, resume, by rw [hf, hframe]; rfl, hne⟩
    | started _ _ _ hf => exact ⟨0, .own, hf, by decide⟩
    | stopped hj' _ _ => exact absurd hj' hj
    | gone _ hg => exact absurd hg hnot
    | ended _ _ hd => exact absurd (.inl hd) hnot

theorem Peopled.moves (h : Peopled s) (hm : Moves P s L s' L') : Peopled s' :=
  hm.invariant (I := fun s _ => Peopled s) (fun _ _ _ _ hs h hmove _ =>
    h.of_changes hs hmove.current hmove.keeps (hmove.changes hs)) h

/-- **What a call keeps**, if it does not end the idle thread. -/
theorem Peopled.effect (h : Peopled s) (hs : Sound s L) {c : Service}
    (he : Effect s L interrupt c s' L')
    (hidle : ∀ id, c = .terminateThread id → threadOf s.pools id ≠ some 0) : Peopled s' := by
  cases he with
  | moves hm => exact h.moves hm
  | @terminates id k hk hcur hpend _ =>
    have hk0 : k ≠ 0 := fun hk0 => hidle id rfl (hk0 ▸ hk)
    have hcurrent : ((s.withdraw k).setThread k fun t => { t with state := .dormant }).current =
        s.current := withdraw_current s k
    refine h.of_changes hs hcurrent ((same_withdraw s k).trans (same_setThread _ k _)).keeps
      fun j => ?_
    rcases eq_or_ne j k with rfl | hj
    · exact .ended hk0 hcur (by simp)
    · rw [setThread_ne _ _ _ hj, withdraw_threads s k j hj]
      exact .kept rfl rfl
  | @reranks id priority k _ _ hp hk hdormant hre =>
    have hlt := lt_of_legal hp
    exact h.of_changes hs hre.reranks.current hre.reranks.same.keeps
      fun j => (hre.reranks.holds hs hlt j).changes
  | rotates hr _ => exact h.of_changes hs hr.current hr.same.keeps fun j => (hr.holds j).changes

end Peopled

end PS2Bios.Threadman
