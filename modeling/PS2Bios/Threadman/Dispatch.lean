import PS2Bios.Threadman.Linked

/-!
# Who runs next

`Sound s L` is the invariant of THREADMAN's variables between the steps of a call: the queues are
linked, the pending thread is in none of them, and it is either the thread that runs or a ready
one that is staged to run. Where the two are the same, nothing is staged (`Sched.Settled`).

A thread is woken, or made ready, and then either handed over to, or staged, or left in its queue;
a thread that blocks, or ends, stages the best thread there is. One lemma for each says what the
queues are then. The switch at the end runs the staged thread (`Sound.newContext`).
-/

namespace PS2Bios.Threadman

open Intrusive Sched

/-- Nothing is staged. -/
def Sched.Settled (s : Sched) : Prop := s.pending = s.current

instance (s : Sched) : Decidable s.Settled := inferInstanceAs (Decidable (_ = _))

/-- The scheduler between two calls: its queues hold the lists `L`, one thread is current, and the
pending one is either it or a thread taken off its queue to run next. -/
structure Sound (s : Sched) (L : Lists) : Prop where
  linked : Linked s L [s.pending]
  current : s.Valid s.current
  pending : s.Valid s.pending
  settled : s.Settled → (s.threads s.pending).state = .run
  staged : ¬ s.Settled → (s.threads s.pending).state = .ready
  running : ∀ k, s.Valid k → (s.threads k).state = .run → k = s.current ∧ s.Settled

/-- The variables that the queues do not depend on. -/
structure Same (s s' : Sched) : Prop where
  pools : s'.pools = s.pools
  events : s'.events = s.events
  semaphores : s'.semaphores = s.semaphores
  mailboxes : s'.mailboxes = s.mailboxes
  messages : s'.messages = s.messages
  out : s'.out = s.out

theorem Same.refl (s : Sched) : Same s s := ⟨rfl, rfl, rfl, rfl, rfl, rfl⟩

theorem Same.trans {s s' s'' : Sched} (h : Same s s') (h' : Same s' s'') : Same s s'' :=
  ⟨h'.pools.trans h.pools, h'.events.trans h.events, h'.semaphores.trans h.semaphores,
    h'.mailboxes.trans h.mailboxes, h'.messages.trans h.messages, h'.out.trans h.out⟩

theorem Same.valid {s s' : Sched} (h : Same s s') {k : ℕ} : s'.Valid k ↔ s.Valid k := by
  rw [Valid, Valid, h.pools]

/-! ### What the operations leave alone -/

section Frame

variable (s : Sched) (k j v : ℕ) (p : Place) (r : Links ℕ × Queue ℕ) (f : Thread → Thread)

theorem same_put : Same s (s.put p r v) := by
  cases p <;> exact ⟨rfl, rfl, rfl, rfl, rfl, rfl⟩

theorem same_setThread : Same s (s.setThread k f) := ⟨rfl, rfl, rfl, rfl, rfl, rfl⟩

theorem same_makeReady : Same s (s.makeReady k) := ⟨rfl, rfl, rfl, rfl, rfl, rfl⟩

theorem same_makeReadyFirst : Same s (s.makeReadyFirst k) := ⟨rfl, rfl, rfl, rfl, rfl, rfl⟩

theorem same_takeOffReady : Same s (s.takeOffReady k) := by
  rw [takeOffReady, clearIfEmpty]
  split <;> exact ⟨rfl, rfl, rfl, rfl, rfl, rfl⟩

theorem same_leaveWait : Same s (s.leaveWait k) := by
  rw [leaveWait]
  cases s.waitObjectOf (s.threads k) <;> exact ⟨rfl, rfl, rfl, rfl, rfl, rfl⟩

@[simp] theorem makeReady_current : (s.makeReady k).current = s.current := rfl
@[simp] theorem makeReady_pending : (s.makeReady k).pending = s.pending := rfl
@[simp] theorem makeReadyFirst_current : (s.makeReadyFirst k).current = s.current := rfl
@[simp] theorem makeReadyFirst_pending : (s.makeReadyFirst k).pending = s.pending := rfl

@[simp] theorem makeReady_threads : (s.makeReady k).threads j =
    if j = k then { s.threads k with state := .ready, waitType := .notWaiting }
    else s.threads j :=
  setThread_threads s k (fun t => { t with state := .ready, waitType := .notWaiting }) j

@[simp] theorem makeReadyFirst_threads : (s.makeReadyFirst k).threads j =
    if j = k then { s.threads k with state := .ready, waitType := .notWaiting }
    else s.threads j :=
  setThread_threads s k (fun t => { t with state := .ready, waitType := .notWaiting }) j

@[simp] theorem takeOffReady_threads : (s.takeOffReady k).threads = s.threads := by
  rw [takeOffReady, clearIfEmpty]
  split <;> rfl

@[simp] theorem takeOffReady_current : (s.takeOffReady k).current = s.current := by
  rw [takeOffReady, clearIfEmpty]
  split <;> rfl

@[simp] theorem takeOffReady_pending : (s.takeOffReady k).pending = s.pending := by
  rw [takeOffReady, clearIfEmpty]
  split <;> rfl

@[simp] theorem leaveWait_threads : (s.leaveWait k).threads j =
    if j = k then { s.threads k with waitType := .notWaiting } else s.threads j := by
  rw [leaveWait]
  cases s.waitObjectOf (s.threads k) <;> exact setThread_threads _ _ _ _

@[simp] theorem leaveWait_current : (s.leaveWait k).current = s.current := by
  rw [leaveWait]
  cases s.waitObjectOf (s.threads k) <;> rfl

@[simp] theorem leaveWait_pending : (s.leaveWait k).pending = s.pending := by
  rw [leaveWait]
  cases s.waitObjectOf (s.threads k) <;> rfl

@[simp] theorem setPending_current : (s.setPending k).current = s.current := rfl
@[simp] theorem setPending_pending : (s.setPending k).pending = k := rfl
@[simp] theorem setPending_threads : (s.setPending k).threads = s.threads := rfl

theorem same_setPending : Same s (s.setPending k) := ⟨rfl, rfl, rfl, rfl, rfl, rfl⟩

/-- Who is pending changes no queue. -/
theorem Linked.setPending {s : Sched} {L : Lists} {out : List ℕ} (h : Linked s L out) (k : ℕ) :
    Linked (s.setPending k) L out :=
  ⟨h.family.turn (fun p' hp' hno => absurd (by cases p' <;> exact hp') hno)
    fun p' hp' hno => absurd (by cases p' <;> exact hp') hno,
    fun j p => (h.mem_iff j p).trans (by cases p <;> rfl), h.bits,
    fun kind index hon => h.counts kind index hon, h.priorities, h.waits⟩

end Frame

section Sound

variable {s : Sched} {L : Lists} {k : ℕ}

theorem Sound.ready_ne (h : Sound s L) (hk : (s.threads k).state = .wait) : k ≠ s.pending := by
  rintro rfl
  by_cases hs : s.Settled
  · exact absurd (hk.symm.trans (h.settled hs)) (by decide)
  · exact absurd (hk.symm.trans (h.staged hs)) (by decide)

/-- A thread in a queue is not the pending one. -/
theorem Sound.ne_of_mem (h : Sound s L) {p : Place} (hk : k ∈ L p) : k ≠ s.pending := by
  rintro rfl
  exact h.linked.not_mem p hk

/-! ### Waking -/

/-- A woken thread before anything is decided. -/
def Sched.woken (s : Sched) (k : ℕ) (answer : ℤ) : Sched :=
  ((s.leaveWait k).setAnswer k answer).makeReady k

/-- The record of a thread that is woken. -/
theorem woken_threads (s : Sched) (k j : ℕ) (answer : ℤ) : (s.woken k answer).threads j =
    if j = k then { s.threads k with
      state := .ready
      waitType := .notWaiting
      frame := (s.threads k).frame.map fun f => { f with v0 := answer } } else s.threads j := by
  rw [woken, makeReady_threads]
  split
  · next hj => simp [setAnswer]
  · next hj => simp [setAnswer, setThread_threads, hj]

theorem same_woken (s : Sched) (k : ℕ) (answer : ℤ) : Same s (s.woken k answer) :=
  ((same_leaveWait s k).trans (same_setThread _ k _)).trans (same_makeReady _ k)

@[simp] theorem woken_current (s : Sched) (k : ℕ) (answer : ℤ) :
    (s.woken k answer).current = s.current := leaveWait_current s k

@[simp] theorem woken_pending (s : Sched) (k : ℕ) (answer : ℤ) :
    (s.woken k answer).pending = s.pending := leaveWait_pending s k

/-- Waking changes nobody's priority. -/
@[simp] theorem woken_priorityOf (s : Sched) (k j : ℕ) (answer : ℤ) :
    (s.woken k answer).priorityOf j = s.priorityOf j := by
  rw [priorityOf, woken_threads, priorityOf]
  split
  · next hj => rw [hj]
  · rfl

/-- The lists once a waiting thread has been made ready. -/
def Lists.wake (s : Sched) (L : Lists) (k : ℕ) : Lists :=
  (Lists.leave s L k).append (.ready (s.priorityOf k)) k

/-- A waiting thread that is woken is in its ready queue. -/
theorem Sound.woken (h : Sound s L) (hv : s.Valid k) (hs : (s.threads k).state = .wait)
    (answer : ℤ) : Sound (s.woken k answer) (Lists.wake s L k) where
  linked := by
    have hne := h.ready_ne hs
    have hout : k ∉ [s.pending] := by simpa using hne
    have hleft := h.linked.leaveWait hv hout hs
    have hanswer : Linked ((s.leaveWait k).setAnswer k answer) (Lists.leave s L k)
        [k, s.pending] :=
      hleft.setThread (.inl List.mem_cons_self) (hleft.priorities k) fun _ hkind =>
        absurd hkind (by simp [WaitType.kind])
    have hvalid : ((s.leaveWait k).setAnswer k answer).Valid k :=
      (same_setThread _ k _).valid.mpr ((same_leaveWait s k).valid.mpr hv)
    have hpri : ((s.leaveWait k).setAnswer k answer).priorityOf k = s.priorityOf k := by
      simp [setAnswer, priorityOf]
    have hready := hanswer.makeReady hout hvalid
    rw [hpri] at hready
    rw [woken_pending]
    exact hready
  current := by
    rw [woken_current]
    exact (same_woken s k answer).valid.mpr h.current
  pending := by
    rw [woken_pending]
    exact (same_woken s k answer).valid.mpr h.pending
  settled hset := by
    rw [woken_pending, woken_threads, if_neg (h.ready_ne hs).symm]
    exact h.settled (by simpa [Settled] using hset)
  staged hset := by
    rw [woken_pending, woken_threads, if_neg (h.ready_ne hs).symm]
    exact h.staged (by simpa [Settled] using hset)
  running j hj hrun := by
    rw [woken_threads] at hrun
    split at hrun
    · cases hrun
    · have hrunning := h.running j ((same_woken s k answer).valid.mp hj) hrun
      simpa [Settled] using hrunning

/-! ### Staging -/

/-- The first half of a hand-over: the thread that runs goes behind its peers. -/
def Sched.stepBack (s : Sched) : Sched :=
  ((s.setThread s.current fun t => { t with state := .ready }).enqueue
    (.ready (s.priorityOf s.current)) s.current).setBit (s.priorityOf s.current) true

theorem handOffIfBetter_eq (s : Sched) (k : ℕ) : s.handOffIfBetter k =
    if s.current = kNone ∨ s.priorityOf s.current ≤ s.priorityOf k then (s, false)
    else ((s.stepBack.takeOffReady k).setPending k, true) := rfl

theorem stepBack_threads (s : Sched) (j : ℕ) : s.stepBack.threads j =
    if j = s.current then { s.threads s.current with state := .ready } else s.threads j :=
  setThread_threads s s.current (fun t => { t with state := .ready }) j

/-- Stepping back changes nobody's priority. -/
@[simp] theorem stepBack_priorityOf (s : Sched) (j : ℕ) :
    s.stepBack.priorityOf j = s.priorityOf j := by
  rw [priorityOf, stepBack_threads, priorityOf]
  split
  · next hj => rw [hj]
  · rfl

/-- A thread of a ready queue is staged, when no other is and the one that ran has been put into a
queue. -/
theorem Linked.stage (h : Linked s L []) (hcur : s.Valid s.current)
    (hrun : ∀ j, s.Valid j → (s.threads j).state ≠ .run) (hk : k ∈ L (.ready (s.priorityOf k)))
    (hne : k ≠ s.current) :
    Sound ((s.takeOffReady k).setPending k) (L.remove (.ready (s.priorityOf k)) k) where
  linked := (h.takeOffReady hk).setPending k
  current := by
    rw [setPending_current, takeOffReady_current]
    exact (same_takeOffReady s k).valid.mpr hcur
  pending := (same_takeOffReady s k).valid.mpr (h.valid_of_mem hk)
  settled hset := by
    rw [Settled, setPending_pending, setPending_current, takeOffReady_current] at hset
    exact absurd hset hne
  staged _ := by
    rw [setPending_pending, setPending_threads, takeOffReady_threads]
    exact ((h.mem_iff k _).mp hk).2.2.1
  running j hj hs := by
    rw [setPending_threads, takeOffReady_threads] at hs
    exact absurd hs (hrun j ((same_takeOffReady s k).valid.mp hj))

/-- The thread that runs goes behind its peers. -/
theorem Sound.stepBack (h : Sound s L) (hset : s.Settled) :
    Linked s.stepBack (L.append (.ready (s.priorityOf s.current)) s.current) [] := by
  have hlinked := h.linked
  rw [show s.pending = s.current from hset] at hlinked
  have hmark : Linked (s.setThread s.current fun t => { t with state := .ready }) L [s.current] :=
    hlinked.setThread (.inl List.mem_cons_self) (hlinked.priorities _) fun hs => by cases hs
  have hb : (s.setThread s.current fun t => { t with state := .ready }).belongs s.current
      (.ready (s.priorityOf s.current)) := by simp [belongs, priorityOf]
  exact hmark.enqueue List.not_mem_nil h.current hb

/-- **A hand-over** to a ready thread: the thread that runs goes behind its peers, and the other
is staged. -/
theorem Sound.handOff (h : Sound s L) (hset : s.Settled) (hk : k ∈ L (.ready (s.priorityOf k))) :
    Sound ((s.stepBack.takeOffReady k).setPending k)
      ((L.append (.ready (s.priorityOf s.current)) s.current).remove
        (.ready (s.priorityOf k)) k) := by
  have hne : k ≠ s.current := fun heq => h.ne_of_mem hk (heq.trans hset.symm)
  have hmem : k ∈ (L.append (.ready (s.priorityOf s.current)) s.current)
      (.ready (s.stepBack.priorityOf k)) := by
    rw [stepBack_priorityOf, Lists.append_apply]
    split
    · next heq => exact List.mem_append_left _ (heq ▸ hk)
    · exact hk
  have hrun : ∀ j, s.stepBack.Valid j → (s.stepBack.threads j).state ≠ .run := by
    intro j hj hs
    rw [stepBack_threads] at hs
    split at hs
    · cases hs
    · next hj' => exact hj' (h.running j hj hs).1
  have hstage := (h.stepBack hset).stage (k := k) h.current hrun hmem hne
  rw [stepBack_priorityOf] at hstage
  exact hstage

/-- **Staging for an interrupt** with nothing staged yet: the thread that runs goes ahead of its
peers. -/
theorem Sound.stageFirst (h : Sound s L) (hset : s.Settled)
    (hk : k ∈ L (.ready (s.priorityOf k))) :
    Sound (((s.makeReadyFirst s.current).takeOffReady k).setPending k)
      ((L.push (.ready (s.priorityOf s.current)) s.current).remove
        (.ready (s.priorityOf k)) k) := by
  have hne : k ≠ s.current := fun heq => h.ne_of_mem hk (heq.trans hset.symm)
  have hlinked := h.linked
  rw [show s.pending = s.current from hset] at hlinked
  have hpri : (s.makeReadyFirst s.current).priorityOf k = s.priorityOf k := by
    rw [priorityOf, makeReadyFirst_threads, if_neg hne, priorityOf]
  have hmem : k ∈ (L.push (.ready (s.priorityOf s.current)) s.current)
      (.ready ((s.makeReadyFirst s.current).priorityOf k)) := by
    rw [hpri, Lists.push_apply]
    split
    · next heq => exact List.mem_cons_of_mem _ (heq ▸ hk)
    · exact hk
  have hrun : ∀ j, (s.makeReadyFirst s.current).Valid j →
      ((s.makeReadyFirst s.current).threads j).state ≠ .run := by
    intro j hj hs
    rw [makeReadyFirst_threads] at hs
    split at hs
    · cases hs
    · next hj' => exact hj' (h.running j hj hs).1
  have hstage := (hlinked.makeReadyFirst List.not_mem_nil h.current).stage (k := k)
    h.current hrun hmem hne
  rw [hpri] at hstage
  exact hstage

/-- **Staging for an interrupt** in the place of another thread, which goes behind its peers. -/
theorem Sound.stageOver (h : Sound s L) (hset : ¬ s.Settled)
    (hk : k ∈ L (.ready (s.priorityOf k))) (hne : k ≠ s.current) :
    Sound (((s.makeReady s.pending).takeOffReady k).setPending k)
      ((L.append (.ready (s.priorityOf s.pending)) s.pending).remove
        (.ready (s.priorityOf k)) k) := by
  have hpri : (s.makeReady s.pending).priorityOf k = s.priorityOf k := by
    rw [priorityOf, makeReady_threads, if_neg (h.ne_of_mem hk), priorityOf]
  have hmem : k ∈ (L.append (.ready (s.priorityOf s.pending)) s.pending)
      (.ready ((s.makeReady s.pending).priorityOf k)) := by
    rw [hpri, Lists.append_apply]
    split
    · next heq => exact List.mem_append_left _ (heq ▸ hk)
    · exact hk
  have hrun : ∀ j, (s.makeReady s.pending).Valid j →
      ((s.makeReady s.pending).threads j).state ≠ .run := by
    intro j hj hs
    rw [makeReady_threads] at hs
    split at hs
    · cases hs
    · exact hset (h.running j hj hs).2
  have hstage := (h.linked.makeReady List.not_mem_nil h.pending).stage (k := k)
    h.current hrun hmem hne
  rw [hpri] at hstage
  exact hstage

/-- **Staging the best thread there is**, when the one that ran is in a queue or waits or has
ended. -/
theorem Linked.stageBest (h : Linked s L []) (hcur : s.Valid s.current)
    (hrun : ∀ j, s.Valid j → (s.threads j).state ≠ .run) :
    (s.pick = (kNone, s) ∧ ∀ priority, L (.ready priority) = []) ∨
      ∃ best s' L', s.pick = (best, s') ∧ Picked s L s' best L' ∧
        (best ≠ s.current → Sound (s'.setPending best) L') := by
  rcases h.pick with hnone | ⟨best, s', L', heq, hpicked, hlinked⟩
  · exact .inl hnone
  · refine .inr ⟨best, s', L', heq, hpicked, fun hne => ?_⟩
    obtain ⟨r, n, rfl⟩ := hpicked.same
    have hsame := (same_put s n (.ready (s.priorityOf best)) r).trans (same_setPending _ best)
    exact
      { linked := hlinked.setPending best
        current := by
          rw [setPending_current, put_current]
          exact hsame.valid.mpr hcur
        pending := hsame.valid.mpr hpicked.valid
        settled := fun hset => absurd (by simpa [Settled] using hset) hne
        staged := fun _ => by simpa using hpicked.state
        running := fun j hj hs => absurd (by simpa using hs) (hrun j (hsame.valid.mp hj)) }

/-! ### The switch -/

/-- A switch saves the frame of the one and marks the other as running. -/
theorem newContext_staged (s : Sched) (frame : Frame) (hcur : s.current ≠ kNone)
    (hpend : s.pending ≠ kNone) (hset : ¬ s.Settled) : s.newContext frame =
      { s.setThread s.current (fun t => { t with frame := some frame }) with
        current := s.pending }.setThread s.pending fun t => { t with state := .run } := by
  have hresolve : (s.setThread s.current fun t => { t with frame := some frame }).resolve =
      s.setThread s.current fun t => { t with frame := some frame } :=
    if_neg (not_or.mpr ⟨hpend, hset⟩)
  rw [newContext, if_pos hcur, hresolve]
  rfl

/-- **The switch** runs the staged thread. -/
theorem Sound.newContext (h : Sound s L) (hset : ¬ s.Settled) (frame : Frame) :
    Sound (s.newContext frame) L := by
  rw [newContext_staged s frame (ne_kNone_of_lt h.current.1) (ne_kNone_of_lt h.pending.1) hset]
  have hframe : Linked (s.setThread s.current fun t => { t with frame := some frame }) L
      [s.pending] :=
    h.linked.setThread_quiet (fun _ => rfl) (fun _ => rfl) (fun _ => rfl) fun _ _ => ⟨rfl, rfl⟩
  set s₁ := s.setThread s.current fun t => { t with frame := some frame } with hs₁
  -- who is current is no matter of the queues
  have hcur : Linked { s₁ with current := s.pending } L [s.pending] :=
    ⟨hframe.family.turn (fun p' hp' hno => absurd (by cases p' <;> exact hp') hno)
      fun p' hp' hno => absurd (by cases p' <;> exact hp') hno,
      fun j p => (hframe.mem_iff j p).trans (by cases p <;> rfl), hframe.bits,
      fun kind index hon => hframe.counts kind index hon, hframe.priorities, hframe.waits⟩
  exact
    { linked := hcur.setThread (.inl List.mem_cons_self) (hcur.priorities _) fun hs => by cases hs
      current := h.pending
      pending := h.pending
      settled := fun _ => by
        change ((({ s₁ with current := s.pending } : Sched).setThread s.pending
          fun t => { t with state := .run }).threads s.pending).state = .run
        rw [setThread_same]
      staged := fun hno => absurd rfl hno
      running := fun j hj hs => by
        refine ⟨?_, rfl⟩
        by_contra hne
        have hne' : j ≠ s.pending := hne
        rw [setThread_ne _ _ _ hne'] at hs
        have hstate : (s₁.threads j).state = (s.threads j).state := by
          rw [hs₁, setThread_threads]
          split
          · next heq => rw [heq]
          · rfl
        exact hset (h.running j hj (hstate.symm.trans hs)).2 }

/-- After a switch the pending thread is the current one. -/
theorem newContext_settles (hpend : s.pending ≠ kNone) (hset : ¬ s.Settled) (frame : Frame) :
    (s.newContext frame).Settled ∧ (s.newContext frame).current = s.pending := by
  have hresolve : ∀ f, (s.setThread s.current f).resolve = s.setThread s.current f := fun f =>
    if_neg (not_or.mpr ⟨hpend, hset⟩)
  have hresolve' : s.resolve = s := if_neg (not_or.mpr ⟨hpend, hset⟩)
  rw [Sched.newContext]
  split
  · rw [hresolve]
    exact ⟨rfl, rfl⟩
  · rw [hresolve']
    exact ⟨rfl, rfl⟩

end Sound

end PS2Bios.Threadman
