import PS2Bios.Threadman.Representation

/-!
# The best thread runs

`Fair s L` says that no thread in a ready queue is better than the pending one. It survives a
wake-up whichever way it is decided: a better thread is staged, and what it displaces was no worse
than the rest of the queues. It survives the end of a thread's turn, since the best thread is picked
then, and every change of a priority made by a thread. A handler's change of a priority decides
nothing (`Orderly` asks that there be nothing to decide). So in a run that is careful and orderly no
ready thread is better than the one that runs, whenever thread code does.
-/

namespace PS2Bios.Threadman

open Intrusive Sched

/-- No thread in a ready queue is better than the pending one. -/
def Sched.Fair (s : Sched) (L : Lists) : Prop :=
  ∀ j p, j ∈ L (.ready p) → s.priorityOf s.pending ≤ p

section Fair

variable {P : Permit} {s s' : Sched} {L L' : Lists} {interrupt : Bool} {k : ℕ}

/-- While another thread is staged, the one that runs is in its queue. -/
theorem Sched.Poised.mem (hp : s.Poised) (hs : Sound s L) (hset : ¬ s.Settled) :
    s.current ∈ L (.ready (s.priorityOf s.current)) := by
  refine (hs.linked.mem_iff _ _).mpr ⟨?_, hs.current, hp hset, rfl⟩
  have hne : s.current ≠ s.pending := fun heq => hset heq.symm
  simpa using hne

/-- A ready queue is one of a priority. -/
theorem Sound.priority_of_mem (hs : Sound s L) {p : ℕ} (hk : k ∈ L (.ready p)) :
    s.priorityOf k = p := ((hs.linked.mem_iff k _).mp hk).2.2.2

/-- Who is in a queue after a move to the end of one was in it before, or is who moved. -/
theorem Lists.mem_of_append_remove {x j : ℕ} {p p₁ p₂ : Place}
    (hj : j ∈ ((L.append p₁ x).remove p₂ k) p) : j = x ∧ p = p₁ ∨ j ∈ L p := by
  have hj' : j ∈ (L.append p₁ x) p := by
    rw [Lists.remove_apply] at hj
    split at hj
    · next hp => exact hp ▸ List.mem_of_mem_erase hj
    · exact hj
  rw [Lists.append_apply] at hj'
  split at hj'
  · next hp =>
    rcases List.mem_append.mp hj' with hj | hj
    · exact .inr (hp ▸ hj)
    · exact .inl ⟨List.mem_singleton.mp hj, hp⟩
  · exact .inr hj'

/-- Who is in a queue after a move to the front of one was in it before, or is who moved. -/
theorem Lists.mem_of_push_remove {x j : ℕ} {p p₁ p₂ : Place}
    (hj : j ∈ ((L.push p₁ x).remove p₂ k) p) : j = x ∧ p = p₁ ∨ j ∈ L p := by
  have hj' : j ∈ (L.push p₁ x) p := by
    rw [Lists.remove_apply] at hj
    split at hj
    · next hp => exact hp ▸ List.mem_of_mem_erase hj
    · exact hj
  rw [Lists.push_apply] at hj'
  split at hj'
  · next hp =>
    rcases List.mem_cons.mp hj' with hj | hj
    · exact .inl ⟨hj, hp⟩
    · exact .inr (hp ▸ hj)
  · exact .inr hj'

/-- **A decision is fair**, if only the thread it is about may be better than the pending one. -/
theorem Decides.fair (h : Decides s L k interrupt s' L') (hs : Sound s L) (hs' : Sound s' L')
    (hf : ∀ j p, j ∈ L (.ready p) → j ≠ k → s.priorityOf s.pending ≤ p) : s'.Fair L' := by
  intro j p hj
  rw [h.priorityOf hs]
  cases h with
  | queued hset hle =>
    rcases eq_or_ne j k with rfl | hjk
    · rw [← hs.priority_of_mem hj, show s.pending = s.current from hset]
      exact hle
    · exact hf j p hj hjk
  | left hp hne hle =>
    rcases eq_or_ne j k with rfl | hjk
    · rw [← hs.priority_of_mem hj]
      rcases lt_or_ge (s.priorityOf j) (s.priorityOf s.current) with hlt | hge
      · exact (hle hlt).2
      · by_cases hset : s.Settled
        · rwa [show s.pending = s.current from hset]
        · exact (hf _ _ (hp.mem hs hset) hne.symm).trans hge
    · exact hf j p hj hjk
  | handOff hset hk hlt =>
    have hjk : j ≠ k := hs'.ne_of_mem hj
    have hpend : s.pending = s.current := hset
    rw [setPending_pending]
    rcases Lists.mem_of_append_remove hj with ⟨-, hp⟩ | hj
    · rw [Place.ready.inj hp]
      exact hlt.le
    · exact (hlt.le.trans (hpend ▸ le_rfl)).trans (hf j p hj hjk)
  | first hset hk hlt =>
    have hjk : j ≠ k := hs'.ne_of_mem hj
    have hpend : s.pending = s.current := hset
    rw [setPending_pending]
    rcases Lists.mem_of_push_remove hj with ⟨-, hp⟩ | hj
    · rw [Place.ready.inj hp]
      exact hlt.le
    · exact (hlt.le.trans (hpend ▸ le_rfl)).trans (hf j p hj hjk)
  | replaces hset hp hk hne _ hlt =>
    have hjk : j ≠ k := hs'.ne_of_mem hj
    rw [setPending_pending]
    rcases Lists.mem_of_append_remove hj with ⟨-, hp⟩ | hj
    · rw [Place.ready.inj hp]
      exact hlt.le
    · exact hlt.le.trans (hf j p hj hjk)

/-- The best thread has been picked. -/
theorem Picked.le {best j p : ℕ} (h : Picked s L s' best L') (hj : j ∈ L' (.ready p)) :
    s.priorityOf best ≤ p := by
  obtain ⟨l, hl, rfl⟩ := h.head
  by_contra hlt
  have hempty := h.best p (not_le.mp hlt)
  have hne : Place.ready p ≠ .ready (s.priorityOf best) := fun heq =>
    hlt (Place.ready.inj heq).ge
  rw [Function.update_of_ne hne, hempty] at hj
  exact List.not_mem_nil hj

theorem Picked.priorityOf {best : ℕ} (h : Picked s L s' best L') (j : ℕ) :
    s'.priorityOf j = s.priorityOf j := by
  rw [Sched.priorityOf, h.threads, Sched.priorityOf]

theorem Picked.fair {best : ℕ} (h : Picked s L s' best L') : (s'.setPending best).Fair L' :=
  fun _ _ hj => (h.priorityOf best).le.trans (h.le hj)

/-- What a thread stops waiting in is no ready queue. -/
theorem leave_ready (s : Sched) (L : Lists) (k p : ℕ) :
    Lists.leave s L k (.ready p) = L (.ready p) := by
  rw [Lists.leave]
  cases s.waitObjectOf (s.threads k) with
  | none => rfl
  | some object => exact (Lists.remove_apply ..).trans (if_neg (by simp))

/-- Waking makes nobody else ready. -/
theorem mem_wake_ready {j p : ℕ} (hj : j ∈ Lists.wake s L k (.ready p)) (hjk : j ≠ k) :
    j ∈ L (.ready p) := by
  rw [Lists.wake, Lists.append_apply] at hj
  split at hj
  · next hp =>
    rcases List.mem_append.mp hj with hj | hj
    · rwa [← hp, leave_ready] at hj
    · exact absurd (List.mem_singleton.mp hj) hjk
  · rwa [leave_ready] at hj

/-- A move leaves the best thread running. -/
theorem Move.fair (h : Move P s L s' L') (hs : Sound s L) (hs' : Sound s' L') (hf : s.Fair L) :
    s'.Fair L' := by
  cases h with
  | quiet h =>
    intro j p hj
    rw [h.priority, h.pending]
    exact hf j p hj
  | wake answer hv hw _ h =>
    refine h.fair (hs.woken hv hw answer) hs' fun j p hj hjk => ?_
    rw [woken_priorityOf, woken_pending]
    exact hf j p (mem_wake_ready hj hjk)
  | @start k _ _ hv hw h =>
    have hpend : k ≠ s.pending := by
      rintro rfl
      rcases hs.pending_state with hst | hst <;> exact absurd (hw.symm.trans hst) (by decide)
    refine h.fair (hs.activate hv hw hpend) hs' fun j p hj hjk => ?_
    have hpri : (s.activate k).priorityOf (s.activate k).pending = s.priorityOf s.pending := by
      change (s.activate k).priorityOf s.pending = _
      rw [priorityOf, activate_threads, if_neg hpend.symm, priorityOf]
    rw [hpri]
    refine hf j p ?_
    rw [Lists.append_apply] at hj
    split at hj
    · next hp =>
      rcases List.mem_append.mp hj with hj | hj
      · exact hp ▸ hj
      · exact absurd (List.mem_singleton.mp hj) hjk
    · exact hj
  | stop _ _ _ hpick _ => exact hpick.fair
  | @thread k slot links f _ _ hpend _ _ =>
    intro j p hj
    change ((({ s.setSlot .thread k slot with links := links }.setThread k f).threads
      s.pending).currentPriority) ≤ p
    rw [setThread_ne _ _ _ hpend.symm]
    exact hf j p hj
  | object _ _ _ => exact hf

theorem Moves.fair (h : Moves P s L s' L') (hf : s.Fair L) : s'.Fair L' :=
  h.invariant (I := fun s L => s.Fair L) (fun _ _ _ _ hs hf hm hs' => hm.fair hs hs' hf) hf

theorem Sched.Fair.newContext (hf : s.Fair L) (hs : Sound s L) (hset : ¬ s.Settled)
    (frame : Frame) : (s.newContext frame).Fair L := fun j p hj => by
  rw [newContext_pending hs hset, newContext_priorityOf hs hset]
  exact hf j p hj

/-! ### Priorities changed -/

/-- A new priority of `k` that leaves nothing to decide. -/
def Sched.Undisturbed (s : Sched) (k priority : ℕ) : Prop :=
  ((s.threads k).state = .ready → s.priorityOf s.pending ≤ priority) ∧
    (k = s.pending → ∀ j < kThreads, s.Valid j → (s.threads j).state = .ready →
      priority ≤ s.priorityOf j)

/-- The thread that runs is not the one picked. -/
theorem Sound.picked_ne {best priority : ℕ} {s₂ : Sched} {L₂ : Lists} (hs : Sound s L)
    (hset : s.Settled) (hk : k = s.current)
    (hpick : Picked (s.setPriority k priority) L s₂ best L₂) : best ≠ k := by
  rintro rfl
  have hready := hpick.state
  have hrun := hs.settled hset
  rw [setPriority_state, hk] at hready
  rw [show s.pending = s.current from hset, hready] at hrun
  cases hrun

/-- A change of priority leaves the best thread running where nothing was to be decided. -/
theorem Reranks.fair {priority : ℕ} (h : Reranks s L k priority interrupt s' L') (hs : Sound s L)
    (hs' : Sound s' L') (hp : priority < kPriorities) (hf : s.Fair L)
    (hquiet : interrupt = true → s.Undisturbed k priority) : s'.Fair L' := by
  have hrerank : ∀ j p, j ∈ Lists.rerank s L k priority (.ready p) → j ≠ k → j ∈ L (.ready p) := by
    intro j p hj hjk
    rw [Lists.rerank, Lists.append_apply] at hj
    split at hj
    · next heq =>
      rcases List.mem_append.mp hj with hj | hj
      · rw [← heq, Lists.remove_apply] at hj
        split at hj
        · next heq' => exact heq' ▸ List.mem_of_mem_erase hj
        · exact hj
      · exact absurd (List.mem_singleton.mp hj) hjk
    · rw [Lists.remove_apply] at hj
      split at hj
      · next heq' => exact heq' ▸ List.mem_of_mem_erase hj
      · exact hj
  have hpriority : k ∈ L (.ready (s.priorityOf k)) →
      (s.rerank k priority).priorityOf (s.rerank k priority).pending = s.priorityOf s.pending :=
    fun hk => by
      rw [rerank_pending, priorityOf, rerank_threads, if_neg (hs.ne_of_mem hk).symm, priorityOf]
  cases h with
  | requeued hk =>
    intro j p hj
    rw [hpriority hk]
    rcases eq_or_ne j k with rfl | hjk
    · have hnew := hs'.priority_of_mem hj
      rw [priorityOf, rerank_threads, if_pos rfl] at hnew
      rw [← show priority = p from hnew]
      exact (hquiet rfl).1 ((hs.linked.mem_iff j _).mp hk).2.2.1
    · exact hf j p (hrerank j p hj hjk)
  | decided hk hd =>
    refine hd.fair (hs.rerank hk hp) hs' fun j p hj hjk => ?_
    rw [hpriority hk]
    exact hf j p (hrerank j p hj hjk)
  | written hready hempty =>
    intro j p hj
    have hne : j ≠ s.pending := hs.ne_of_mem hj
    change (s.setPriority k priority).priorityOf s.pending ≤ p
    rw [setPriority_priorityOf]
    split
    · next hk =>
      have hset : s.Settled := by
        by_contra hno
        exact hready (hk ▸ hs.staged hno)
      cases interrupt with
      | false =>
        rw [hempty (hk.symm.trans hset) rfl p] at hj
        exact absurd hj List.not_mem_nil
      | true =>
        obtain ⟨-, hv, hb⟩ := (hs.linked.mem_iff j _).mp hj
        rw [← hb.2]
        exact (hquiet rfl).2 hk.symm j hv.1 hv hb.1
    · exact hf j p hj
  | @kept best s₂ L₂ hset hk hpick hle =>
    have hbest := hs.picked_ne hset hk hpick
    have hpend : s₂.pending = k := by
      obtain ⟨r, n, rfl⟩ := hpick.same
      rw [put_pending, hk]
      exact hset
    have hpri : (s₂.makeReady best).priorityOf (s₂.makeReady best).pending = priority := by
      rw [makeReady_pending, hpend, priorityOf, makeReady_threads, if_neg hbest.symm, ← priorityOf,
        hpick.priorityOf, setPriority_priorityOf, if_pos rfl]
    intro j p hj
    rw [hpri]
    rw [Lists.append_apply] at hj
    split at hj
    · next heq =>
      rw [Place.ready.inj heq]
      exact hle
    · have hb := hpick.le hj
      rw [setPriority_priorityOf, if_neg hbest] at hb
      exact hle.trans hb
  | @yields best s₂ L₂ hset hk hpick hlt =>
    have hbest := hs.picked_ne hset hk hpick
    have hpri : ((s₂.makeReady k).setPending best).priorityOf best = s.priorityOf best := by
      rw [priorityOf, setPending_threads, makeReady_threads, if_neg hbest, ← priorityOf,
        hpick.priorityOf, setPriority_priorityOf, if_neg hbest]
    intro j p hj
    rw [setPending_pending, hpri]
    rw [Lists.append_apply] at hj
    split at hj
    · next heq =>
      rw [Place.ready.inj heq]
      exact hlt.le
    · have hb := hpick.le hj
      rwa [setPriority_priorityOf, if_neg hbest] at hb

/-- A rotation leaves the best thread running. -/
theorem Rotates.fair (h : Rotates s L interrupt s' L') (hf : s.Fair L) : s'.Fair L' := by
  cases h with
  | yields _ hpick => exact hpick.fair
  | @turns _ priority k l hl =>
    intro j p hj
    refine hf j p ?_
    rw [Function.update_apply] at hj
    split at hj
    · next heq =>
      rw [heq, hl]
      simpa [or_comm] using hj
    · exact hj

/-- The thread whose priority a call changes, and the new priority. -/
def Sched.promotes (s : Sched) : Service → Option (ℕ × ℕ)
  | .changeThreadPriority id priority =>
    (s.aims (.changeThreadPriority id priority)).map fun k => (k, priority.toNat)
  | _ => none

/-- What a handler's call must not do. -/
def Sched.Orderly (s : Sched) (c : Service) : Prop :=
  ∀ r ∈ s.promotes c, s.Undisturbed r.1 r.2

instance (s : Sched) (k priority : ℕ) : Decidable (s.Undisturbed k priority) :=
  inferInstanceAs (Decidable ((_ → _) ∧ (_ → ∀ j < kThreads, _ → _ → _)))

instance (s : Sched) (c : Service) : Decidable (s.Orderly c) :=
  inferInstanceAs (Decidable (∀ r ∈ s.promotes c, _))

/-- Each service leaves the best thread running, from a handler where it decides no priority. -/
theorem Effect.fair {c : Service} (h : Effect s L interrupt c s' L') (hs : Sound s L)
    (hf : s.Fair L) (hquiet : interrupt = true → s.Orderly c) : s'.Fair L' := by
  cases h with
  | moves hm => exact hm.fair hf
  | @terminates id k hk hcur hpend hs' =>
    intro j p hj
    have hpri : ((s.withdraw k).setThread k fun t => { t with state := .dormant }).priorityOf
        ((s.withdraw k).setThread k fun t => { t with state := .dormant }).pending =
          s.priorityOf s.pending := by
      change ((s.withdraw k).setThread k _).priorityOf (s.withdraw k).pending = _
      rw [withdraw_pending, priorityOf, setThread_ne _ _ _ hpend.symm,
        withdraw_threads s k _ hpend.symm, priorityOf]
    rw [hpri]
    have hv : s.Valid k := valid_of_threadOf hk
    have hmem : j ∈ L (.ready p) := by
      rw [Lists.withdraw] at hj
      split at hj
      · rw [Lists.remove_apply] at hj
        split at hj
        · next heq => exact heq ▸ List.mem_of_mem_erase hj
        · exact hj
      · split at hj
        · rwa [leave_ready] at hj
        · exact hj
    exact hf j p hmem
  | @reranks id priority k _ _ hp hk hdormant hre =>
    refine hre.reranks.fair hs hre.sound (lt_of_legal hp) hf fun hi => hquiet hi (k, _) ?_
    exact Option.mem_map_of_mem _ ((if_pos hp).trans hk)
  | rotates hr _ => exact hr.fair hf

end Fair

/-! ### Runs -/

namespace Processor

/-- No handler changes a priority so that there would be something to decide. -/
def Orderly (m : Processor) : Act → Prop
  | .handler c => m.sched.Orderly c
  | _ => True

instance (m : Processor) (a : Act) : Decidable (m.Orderly a) :=
  match a with
  | .handler c => inferInstanceAs (Decidable (m.sched.Orderly c))
  | .call _ | .goOn | .enter | .expire _ | .leave _ => inferInstanceAs (Decidable True)

/-- A careful step in which no handler decides a priority. -/
def OrderlyStep (m : Processor) (a : Act) (m' : Processor) : Prop :=
  m.Orderly a ∧ m.CarefulStep a m'

variable {messages : ℕ → Message} {out : ℕ → ℕ} {acts : List Act} {m : Processor}

/-- Each orderly act leaves the best thread running. -/
theorem Does.fair {L L' : Lists} {a : Act} {s' : Sched} (h : m.Does L a s' L') (hm : m.Good L)
    (horderly : m.Orderly a) (hf : m.sched.Fair L) : s'.Fair L' := by
  have hs := hm.called.sound
  cases h with
  | call _ he => exact he.fair hs hf fun hi => by cases hi
  | goOn _ _ hmoves => exact hmoves.fair hf
  | enter => exact hf
  | handler _ he => exact he.fair hs hf fun _ => horderly
  | expire hmoves => exact hmoves.fair hf
  | leave => exact hf

/-- **Priority scheduling**: whenever thread code runs, no ready thread is better than the one that
runs. -/
theorem best_runs (h : Steps OrderlyStep (started messages out) acts m)
    (hthread : m.interrupt = false) {k : ℕ} (hk : m.sched.Valid k)
    (hready : (m.sched.threads k).state = .ready) :
    m.sched.priorityOf m.sched.current ≤ m.sched.priorityOf k := by
  have hstart : (started messages out).sched.Fair Lists.started := by
    intro j p hj
    simp only [Lists.started, Lists.append_apply, List.nil_append] at hj
    split at hj
    · next hp =>
      rw [Place.ready.inj hp]
      exact (by decide : kBootPriority ≤ kIdlePriority)
    · exact absurd hj List.not_mem_nil
  obtain ⟨L, hm, hf⟩ := Good.run (P := Orderly) (I := fun s L => s.Fair L)
    (fun m L a s' L' hm hP hI hd _ => hd.fair hm hP hI)
    (fun s L frame hs hset hf => hf.newContext hs hset frame) h (started_good messages out) hstart
  have hset : m.sched.pending = m.sched.current := hm.called.settled hthread
  have hrep := hm.called.sound.represented hset
  have hmem := (hrep.ready k (m.sched.priorityOf k)).mpr ⟨hk, hready, rfl⟩
  have hle := hf k _ hmem
  rwa [hset] at hle

/-- Take orderly acts, as long as they are orderly. -/
def orderly (m : Processor) (a : Act) : Option Processor :=
  if m.Orderly a then m.carefully a else none

/-- What `orderly` computes is a run of orderly steps. -/
theorem steps_of_orderly {m m' : Processor} {acts : List Act}
    (h : runList orderly m acts = some m') : Steps OrderlyStep m acts m' :=
  Steps.of_runList (fun m a m' hm => by
    rw [orderly] at hm
    split at hm
    · next horderly => exact ⟨horderly, carefulStep_of_carefully hm⟩
    · cases hm) h

/-- At the end of the run a better thread runs than the one whose delay ran out. -/
theorem best_runs_handedOver : ∃ m, Steps OrderlyStep nothing handedOver m ∧
    (m.sched.threads 2).state = .ready ∧
      m.sched.priorityOf m.sched.current ≤ m.sched.priorityOf 2 := by
  have hrun : (runList orderly nothing handedOver).map (fun m => (m.interrupt,
      decide (m.sched.Valid 2), (m.sched.threads 2).state)) = some (false, true, .ready) := by
    decide +kernel
  obtain ⟨m, hm, heq⟩ := Option.map_eq_some_iff.mp hrun
  obtain ⟨hi, heq⟩ := Prod.mk.inj heq
  obtain ⟨hv, hready⟩ := Prod.mk.inj heq
  have hsteps := steps_of_orderly hm
  exact ⟨m, hsteps, hready, best_runs hsteps hi (of_decide_eq_true hv) hready⟩

/-- A handler that changes a priority may leave a better thread waiting for the processor. -/
theorem worse_runs : ∃ acts m, Steps CarefulStep nothing acts m ∧ m.interrupt = false ∧
    m.sched.Valid 2 ∧ (m.sched.threads 2).state = .ready ∧
      m.sched.priorityOf 2 < m.sched.priorityOf m.sched.current := by
  let acts : List Act := [.call (.changeThreadPriority 0 50),
    .call (.createThread ⟨0x02000000, 0x1000, 0x400, 60⟩ 0x8000),
    .call (.startThread (makeId 2 1)), .enter,
    .handler (.changeThreadPriority (makeId 2 1) 10), .leave 0]
  have hrun : (runList carefully nothing acts).map (fun m => (m.interrupt,
      decide (m.sched.Valid 2), (m.sched.threads 2).state,
        decide (m.sched.priorityOf 2 < m.sched.priorityOf m.sched.current))) =
      some (false, true, .ready, true) := by decide +kernel
  obtain ⟨m, hm, heq⟩ := Option.map_eq_some_iff.mp hrun
  obtain ⟨hi, heq⟩ := Prod.mk.inj heq
  obtain ⟨hv, heq⟩ := Prod.mk.inj heq
  obtain ⟨hready, hlt⟩ := Prod.mk.inj heq
  exact ⟨acts, m, steps_of_carefully hm, hi, of_decide_eq_true hv, hready, of_decide_eq_true hlt⟩

end Processor

end PS2Bios.Threadman
