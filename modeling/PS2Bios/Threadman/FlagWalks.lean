import PS2Bios.Threadman.Representation

/-!
# The walk of SetEventFlag

`setEventFlag` goes along the waiters of a flag and wakes those that the bits satisfy. `Walks` is
what is wanted of such a walk: at each thread that it visits the thread waits on this flag; one that
is not satisfied is left alone; one that is satisfied is answered 0, has its result, and is taken
from the waiters (`Satisfies`); and where that thread is better than the caller, the walk stops with
the rest of the waiters noted. `Called.walks` says that the loop is such a walk, from any one of the
waiters on.
-/

namespace PS2Bios.Threadman

open Intrusive Sched

/-! ### Along the waiters -/

/-- The threads from `at_` on, by their links. -/
def Sched.linkedFrom (s : Sched) : ℕ → ℕ → List ℕ
  | 0, _ => []
  | n + 1, at_ => if at_ = kNone then [] else at_ :: s.linkedFrom n (s.links.next at_)

/-- The threads from `at_` on, as far as a loop along a queue gets. -/
def Sched.onward (s : Sched) (at_ : ℕ) : List ℕ := s.linkedFrom kQueueTurns at_

/-- The waiters of a flag, as they are queued. -/
def Sched.flagWaiters (s : Sched) (k : ℕ) : List ℕ := s.onward (s.queues (.waiters .event k)).head

/-- The thread waits on the flag in the slot `k` whose id is `id`. -/
def Sched.WaitsFor (s : Sched) (k : ℕ) (id : UInt32) (j : ℕ) : Prop :=
  s.Valid j ∧ s.belongs j (.waiters .event k) ∧ (s.threads j).waitId = id

instance (s : Sched) (k : ℕ) (id : UInt32) : DecidablePred (s.WaitsFor k id) :=
  fun _ => inferInstanceAs (Decidable (_ ∧ _ ∧ _))

/-- The bits that the flag in the slot `k` has satisfy the thread. -/
abbrev Sched.Satisfied (s : Sched) (k j : ℕ) : Prop :=
  eventSatisfied (s.events k).bits (s.threads j).waitBits (s.threads j).waitMode = true

/-- A waiter is woken with the bits of the flag. -/
structure Sched.Satisfies (s : Sched) (k j : ℕ) (s' : Sched) : Prop where
  /-- It is ready, and its call will answer 0. -/
  answered : s'.threads j = { s.threads j with
    state := .ready
    waitType := .notWaiting
    frame := (s.threads j).frame.map fun f => { f with v0 := kOk } }
  /-- The bits are written where its call wants them. -/
  result : s'.out = if (s.threads j).waitOut = 0 then s.out else
    Function.update s.out (s.threads j).waitOut (s.events k).bits.toNat
  /-- If it waits to clear them, they are cleared. -/
  bits : (s'.events k).bits =
    if (s.threads j).waitMode &&& kWaitClear ≠ 0 then 0 else (s.events k).bits
  /-- The other waiters of the flag stay as they were queued. -/
  waiters : s'.flagWaiters k = (s.flagWaiters k).erase j
  /-- Nobody else is written but the caller, and who is staged already. -/
  others : ∀ i, i ≠ j → i ≠ s.current → i ≠ s.pending → s'.threads i = s.threads i
  /-- Of these two it is whether they run. -/
  states : ∀ i, i ≠ j → s'.threads i = { s.threads i with
    state := (s'.threads i).state, waitType := (s'.threads i).waitType }

/-- A walk along waiters: from `s` it visits the threads `visited`, of which it wakes `woken`, and
ends with the reply `r`, at the end of the waiters or with `rest` of them noted. -/
inductive Sched.Walks (interrupt : Bool) (k : ℕ) (id : UInt32) :
    Sched → List ℕ → List ℕ → List ℕ → Sched × Reply → Prop
  | done (s : Sched) : Walks interrupt k id s [] [] [] (s, .returns kOk)
  | passes {s : Sched} {j : ℕ} {visited woken rest : List ℕ} {r : Sched × Reply}
      (hwaits : s.WaitsFor k id j) (hno : ¬ s.Satisfied k j)
      (h : Walks interrupt k id s visited woken rest r) :
      Walks interrupt k id s (j :: visited) woken rest r
  | wakes {s s' : Sched} {j : ℕ} {visited woken rest : List ℕ} {r : Sched × Reply}
      (hwaits : s.WaitsFor k id j) (hsatisfied : s.Satisfied k j) (hs : s.Satisfies k j s')
      (h : Walks interrupt k id s' visited woken rest r) :
      Walks interrupt k id s (j :: visited) (j :: woken) rest r
  | hands {s s' : Sched} {j : ℕ} {rest : List ℕ} (hwaits : s.WaitsFor k id j)
      (hsatisfied : s.Satisfied k j) (hs : s.Satisfies k j s') (hthread : interrupt = false)
      (hbetter : s.priorityOf j < s.priorityOf s.current) (hstaged : s'.pending = j) :
      Walks interrupt k id s [j] [j] rest (s', .traps (.setting k (rest.headD kNone)))

/-- The waiters that a walk has noted when it traps. -/
def noted : Sched × Reply → List ℕ
  | (s, .traps (.setting _ following)) => s.onward following
  | _ => []

/-- A call, or the rest of one, goes along the waiters `ahead` as it should: it visits them up to
the ones it notes, and wakes just those that the bits satisfy. -/
def Sched.GoesAlong (s : Sched) (interrupt : Bool) (k : ℕ) (id : UInt32) (ahead : List ℕ)
    (o : Option (Sched × Reply)) : Prop :=
  ∃ r visited, o = some r ∧ ahead = visited ++ noted r ∧
    s.Walks interrupt k id visited (satisfiedBy s.threads (s.events k).bits visited) (noted r) r

section Walks

variable {s s' : Sched} {L L' : Lists} {interrupt : Bool} {k j n at_ : ℕ} {id : UInt32}
  {l l₁ l₂ visited woken rest : List ℕ} {r : Sched × Reply}

/-- A walk along the links sees what is linked. -/
theorem linkedFrom_eq (h : Chain kNone s.links.next at_ l) (hn : l.length ≤ n) :
    s.linkedFrom n at_ = l := by
  induction l generalizing n at_ with
  | nil =>
    obtain rfl : at_ = kNone := h
    cases n with
    | zero => rfl
    | succ n => exact if_pos rfl
  | cons j l ih =>
    obtain ⟨rfl, hne, hrest⟩ := h
    obtain ⟨n, rfl⟩ : ∃ i, n = i + 1 := ⟨n - 1, by rw [List.length_cons] at hn; omega⟩
    rw [Sched.linkedFrom, if_neg hne, ih hrest (Nat.le_of_succ_le_succ hn)]

/-- From one of the waiters on, the rest of the waiters. -/
theorem Linked.onward {out : List ℕ} (h : Linked s L out) (hon : s.isOn (.waiters .event k))
    (hl : L (.waiters .event k) = l₁ ++ l₂) : s.onward (l₂.headD kNone) = l₂ := by
  have hlength := h.length_le hon
  have hchain := (h.family.queue _ hon).chain
  rw [hl] at hchain
  have hle : l₂.length ≤ kQueueTurns := by
    refine Nat.le_succ_of_le (le_trans ?_ hlength)
    rw [hl, List.length_append]
    exact Nat.le_add_left _ _
  cases l₂ with
  | nil => exact linkedFrom_eq (l := []) rfl (Nat.zero_le _)
  | cons j l =>
    obtain ⟨hne, hrest⟩ := hchain.behind
    exact linkedFrom_eq (l := j :: l) ⟨rfl, hne, hrest⟩ hle

/-- The waiters of a flag are the list that its queue holds. -/
theorem Linked.flagWaiters {out : List ℕ} (h : Linked s L out)
    (hon : s.isOn (.waiters .event k)) : s.flagWaiters k = L (.waiters .event k) := by
  rw [Sched.flagWaiters, h.head hon]
  exact h.onward hon (List.nil_append _).symm

/-- The decision about a ready thread writes the records of the caller and of who is staged. -/
theorem Decides.threads_of_ne (h : Decides s L k interrupt s' L') (hc : j ≠ s.current)
    (hp : j ≠ s.pending) : s'.threads j = s.threads j := by
  cases h with
  | queued _ _ => rfl
  | left _ _ _ => rfl
  | handOff _ _ _ =>
    rw [setPending_threads, takeOffReady_threads, stepBack_threads, if_neg hc]
  | first _ _ _ =>
    rw [setPending_threads, takeOffReady_threads, makeReadyFirst_threads, if_neg hc]
  | replaces _ _ _ _ _ _ =>
    rw [setPending_threads, takeOffReady_threads, makeReady_threads, if_neg hp]

/-- Of these records it writes whether the threads run. -/
theorem Decides.states (h : Decides s L k interrupt s' L') (j : ℕ) :
    s'.threads j = { s.threads j with
      state := (s'.threads j).state, waitType := (s'.threads j).waitType } := by
  cases h with
  | queued _ _ => rfl
  | left _ _ _ => rfl
  | handOff _ _ _ =>
    rw [setPending_threads, takeOffReady_threads, stepBack_threads]
    split
    · next hj => rw [hj]
    · rfl
  | first _ _ _ =>
    rw [setPending_threads, takeOffReady_threads, makeReadyFirst_threads]
    split
    · next hj => rw [hj]
    · rfl
  | replaces _ _ _ _ _ _ =>
    rw [setPending_threads, takeOffReady_threads, makeReady_threads]
    split
    · next hj => rw [hj]
    · rfl

/-- A thread that waits is neither the caller nor staged. -/
theorem Called.ne_of_wait (h : Called s L interrupt) (hs : (s.threads j).state = .wait) :
    j ≠ s.current ∧ j ≠ s.pending := by
  have hpending := h.sound.ready_ne hs
  refine ⟨?_, hpending⟩
  rintro rfl
  by_cases hset : s.Settled
  · exact hpending hset.symm
  · exact absurd (hs.symm.trans (h.poised hset)) (by decide)

/-- What a satisfied waiter is given. -/
theorem takeBits_out (s : Sched) (k result : ℕ) (mode : UInt32) : (s.takeBits k result mode).out =
    if result = 0 then s.out else Function.update s.out result (s.events k).bits.toNat := by
  rw [takeBits, writeOut]
  split <;> split <;> rfl

/-- **A waiter is woken**, and the walk goes on, or the waiter is handed over to. -/
theorem Called.satisfies (h : Called s L interrupt) (hv : s.Valid j)
    (hb : s.belongs j (.waiters .event k)) (hl : L (.waiters .event k) = l₁ ++ j :: l₂) :
    ∃ s' trapped L', (s.takeBits k (s.threads j).waitOut (s.threads j).waitMode).wake j kOk
        interrupt = (s', trapped) ∧ s.Satisfies k j s' ∧ s'.pools = s.pools ∧ Sound s' L' ∧
      L' (.waiters .event k) = l₁ ++ l₂ ∧ (trapped = false → Called s' L' interrupt) ∧
      (trapped = true → interrupt = false ∧ s.priorityOf j < s.priorityOf s.current ∧
        s'.pending = j) := by
  have hon := isOn_of_belongs hb
  obtain ⟨hcur, hpend⟩ := h.ne_of_wait hb.1
  set s₁ := s.takeBits k (s.threads j).waitOut (s.threads j).waitMode with hs₁
  have hq : Quiet s s₁ := quiet_takeBits s k _ _
  have hthreads : s₁.threads = s.threads := takeBits_threads s k _ _
  obtain ⟨-, hcalled⟩ := h.quiet (P := s.setting k) hq
  obtain ⟨L', hd, hsound, hthread, hhandler⟩ :=
    hcalled.wake (hq.valid.mpr hv) ((hq.state j).trans hb.1) kOk
  have hsame := (same_woken s₁ j kOk).trans hd.same
  have hwaiters : L' (.waiters .event k) = l₁ ++ l₂ :=
    (hd.waiters .event k).trans (wake_waiters hcalled.sound.linked hl)
  have hwoken : ∀ i, i ≠ j → (s₁.woken j kOk).threads i = s.threads i := fun i hi => by
    rw [woken_threads, if_neg hi, hthreads]
  have hon' : (s₁.wake j kOk interrupt).1.isOn (.waiters .event k) :=
    (hsame.isOn _).mpr ((hq.isOn _).mpr hon)
  have hcur' : (s₁.woken j kOk).current = s.current := (woken_current s₁ j kOk).trans hq.current
  have hpend' : (s₁.woken j kOk).pending = s.pending := (woken_pending s₁ j kOk).trans hq.pending
  refine ⟨(s₁.wake j kOk interrupt).1, (s₁.wake j kOk interrupt).2, L', rfl, ?_,
    hsame.pools.trans hq.pools, hsound, hwaiters, fun htrap => ?_, fun htrap => ?_⟩
  · exact
      { answered := by
          rw [hd.threads_of_ne (hcur'.symm ▸ hcur) (hpend'.symm ▸ hpend), woken_threads, if_pos rfl,
            hthreads]
        result := by rw [hsame.out, hs₁, takeBits_out]
        bits := by rw [hsame.events, hs₁, takeBits_bits]
        waiters := by
          have hnodup := h.sound.linked.nodup hon
          rw [hsound.linked.flagWaiters hon', h.sound.linked.flagWaiters hon, hwaiters, hl]
          rw [hl, List.nodup_append'] at hnodup
          have hbefore : j ∉ l₁ := fun hj => hnodup.2.2 hj List.mem_cons_self
          rw [List.erase_append_right _ hbefore, List.erase_cons_head]
        others := fun i hi hic hip => by
          rw [hd.threads_of_ne (hcur'.symm ▸ hic) (hpend'.symm ▸ hip), hwoken i hi]
        states := fun i hi => by
          rw [hd.states i, hwoken i hi] }
  · refine ⟨hsound, ?_, fun hi => ((hthread hi).mp htrap)⟩
    cases interrupt with
    | true => exact (hhandler rfl).1
    | false => exact ((hthread rfl).mp htrap).poised
  · have hi : interrupt = false := by
      cases interrupt with
      | true => exact absurd (htrap.symm.trans (hhandler rfl).2) (by decide)
      | false => rfl
    subst hi
    have hset : ¬ (s₁.wake j kOk false).1.Settled := fun hset =>
      absurd (htrap.symm.trans ((hthread rfl).mpr hset)) (by decide)
    have hdecided : ∀ {s' L''}, Decides (s₁.woken j kOk) (Lists.wake s₁ L j) j false s' L'' →
        ¬ s'.Settled → (s₁.woken j kOk).priorityOf j <
          (s₁.woken j kOk).priorityOf (s₁.woken j kOk).current ∧ s'.pending = j := by
      intro s' L'' hd hset
      cases hd with
      | queued hset' _ => exact absurd hset' hset
      | handOff _ _ hbetter => exact ⟨hbetter, rfl⟩
    obtain ⟨hbetter, hstaged⟩ := hdecided hd hset
    rw [woken_priorityOf, woken_priorityOf, hcur', hq.priority, hq.priority] at hbetter
    exact ⟨rfl, hbetter, hstaged⟩

/-- Who is satisfied by the bits is woken. -/
theorem Sched.Walks.woken_eq (h : s.Walks interrupt k id visited woken rest r) :
    woken = satisfiedBy s.threads (s.events k).bits visited := by
  induction h with
  | done => rfl
  | passes _ hno _ ih => rw [satisfiedBy, if_neg hno, ← ih]
  | @wakes s s' j visited woken rest r _ hsatisfied hs _ ih =>
    rw [satisfiedBy, if_pos hsatisfied, ← hs.bits, ih]
    refine congrArg _ (satisfiedBy_congr _ _ fun i => ?_)
    by_cases hi : i = j
    · rw [hi, hs.answered]
      exact ⟨rfl, rfl⟩
    · rw [hs.states i hi]
      exact ⟨rfl, rfl⟩
  | hands _ hsatisfied _ _ _ _ => rw [satisfiedBy, if_pos hsatisfied, satisfiedBy]

/-- Who waits on a flag waits on one that exists. -/
theorem lookup_of_belongs (hb : s.belongs j (.waiters .event k)) :
    eventOf s.pools (s.threads j).waitId = some k := by
  have hobject := hb.2
  rw [waitObjectOf_eq] at hobject
  obtain ⟨kind, -, hobject⟩ := Option.bind_eq_some_iff.mp hobject
  obtain ⟨index, hindex, heq⟩ := Option.map_eq_some_iff.mp hobject
  obtain ⟨rfl, rfl⟩ := Prod.mk.inj heq
  exact hindex

/-- Who waits on a flag waits on the one of its slot's present id. -/
theorem waitId_of_belongs (hb : s.belongs j (.waiters .event k))
    (hid : eventOf s.pools id = some k) : (s.threads j).waitId = id :=
  (lookup_eq_some.mp (lookup_of_belongs hb)).2.2.trans (lookup_eq_some.mp hid).2.2.symm

/-- **The loop of `setEventFlag`** is a walk along the waiters from any one of them on. -/
theorem Called.walks (h : Called s L interrupt) (hid : eventOf s.pools id = some k) (l₁ : List ℕ)
    (hl : L (.waiters .event k) = l₁ ++ l₂) (hn : l₂.length < n) :
    s.GoesAlong interrupt k id l₂ (Sched.setLoop interrupt k n (l₂.headD kNone) s) := by
  suffices hwalk : ∃ r visited woken, Sched.setLoop interrupt k n (l₂.headD kNone) s = some r ∧
      l₂ = visited ++ noted r ∧ s.Walks interrupt k id visited woken (noted r) r by
    obtain ⟨r, visited, woken, hr, hvisited, hw⟩ := hwalk
    exact ⟨r, visited, hr, hvisited, hw.woken_eq ▸ hw⟩
  have hon := isOn_of_lookup (by decide) hid
  induction n generalizing s L l₁ l₂ with
  | zero => exact absurd hn (Nat.not_lt_zero _)
  | succ n ih =>
    rw [Sched.setLoop]
    cases l₂ with
    | nil => exact ⟨_, [], [], if_pos rfl, rfl, .done s⟩
    | cons j l =>
      have hj : j ∈ L (.waiters .event k) := hl ▸ List.mem_append_right _ List.mem_cons_self
      obtain ⟨-, hv, hb⟩ := (h.sound.linked.mem_iff j _).mp hj
      have hwaits : s.WaitsFor k id j := ⟨hv, hb, waitId_of_belongs hb hid⟩
      have hchain := (h.sound.linked.family.queue _ hon).chain
      rw [hl] at hchain
      have hnext : s.links.next j = l.headD kNone := hchain.behind.2.eq_headD
      have hlt : l.length < n := Nat.lt_of_succ_lt_succ hn
      rw [List.headD_cons, if_neg (ne_kNone_of_lt hv.1), hnext]
      dsimp only
      by_cases hsatisfied : s.Satisfied k j
      · -- the waiter is woken
        rw [if_pos hsatisfied]
        obtain ⟨s', trapped, L', hwake, hs, hpools, hsound, hl', hgoes, htraps⟩ :=
          h.satisfies hv hb hl
        rw [hwake]
        dsimp only
        have hid' : eventOf s'.pools id = some k := hpools ▸ hid
        cases trapped with
        | true =>
          obtain ⟨hi, hbetter, hstaged⟩ := htraps rfl
          rw [if_pos rfl]
          have hrest : noted (s', .traps (.setting k (l.headD kNone))) = l :=
            hsound.linked.onward (isOn_of_lookup (by decide) hid') hl'
          refine ⟨_, [j], [j], rfl, ?_, ?_⟩
          · rw [hrest]
            rfl
          · rw [hrest]
            exact .hands hwaits hsatisfied hs hi hbetter hstaged
        | false =>
          rw [if_neg Bool.false_ne_true]
          obtain ⟨r, visited, woken, hr, hvisited, hw⟩ :=
            ih (hgoes rfl) hid' l₁ hl' hlt (isOn_of_lookup (by decide) hid')
          exact ⟨r, j :: visited, j :: woken, hr, congrArg _ hvisited,
            .wakes hwaits hsatisfied hs hw⟩
      · -- or left, and the next one is looked at
        rw [if_neg hsatisfied]
        rw [List.append_cons] at hl
        obtain ⟨r, visited, woken, hr, hvisited, hw⟩ := ih h hid _ hl hlt hon
        exact ⟨r, j :: visited, woken, hr, congrArg _ hvisited, .passes hwaits hsatisfied hw⟩

end Walks

end PS2Bios.Threadman
