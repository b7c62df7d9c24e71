import PS2Bios.Threadman.Running

/-!
# What a call does to those who wait

`Passes P s L s' L'` is what the moves of a call with the permit `P` do to threads that wait on
objects, and to those that are ready. A waiter stays where it is, or it is woken with an answer that
the call may give, which is then in its frame; the list of an object that the caller may not join
loses its woken threads and nothing else; a ready thread stays ready, and its frame as it is.

The lists are determined by the variables (`Sound.unique`), so that what is known of the lists after
a call from different sides is known of the same lists.
-/

namespace PS2Bios.Threadman

open Intrusive Sched

section Unique

variable {s : Sched} {L L' : Lists}

/-- **The lists are what the links say.** -/
theorem Sound.unique (h : Sound s L) (h' : Sound s L') : L = L' := by
  funext p
  by_cases hp : s.isOn p
  · exact (h.linked.family.queue p hp).chain.unique (h'.linked.family.queue p hp).chain
  · rw [h.linked.family.off p hp, h'.linked.family.off p hp]

end Unique

/-- A thread that waited has been woken. -/
def Sched.Woken (P : Permit) (s s' : Sched) (t : ℕ) : Prop :=
  ∃ answer, P.wakes t answer ∧ s'.Valid t ∧ (s'.threads t).state = .ready ∧
    (s'.threads t).frame = (s.threads t).frame.map fun f => { f with v0 := answer }

/-- From `s` to `s'` a waiter stays where it is and is told nothing, or it was woken; what else may
happen is what the permit `P` allows. -/
structure Passes (P : Permit) (s : Sched) (L : Lists) (s' : Sched) (L' : Lists) : Prop where
  current : s'.current = s.current
  slot : ∀ kind k, kind ≠ .thread → ¬ P.remakes kind k → s'.pools kind k = s.pools kind k
  waiter : ∀ t kind i, t ∈ L (.waiters kind i) → t ≠ s.current →
    t ∈ L' (.waiters kind i) ∧ (s'.threads t).frame = (s.threads t).frame ∨ s.Woken P s' t
  list : ∀ kind i, (∀ b, ¬ P.joins kind i b) →
    (L' (.waiters kind i)).Sublist (L (.waiters kind i))
  ready : ∀ t, s.Valid t → (s.threads t).state = .ready → t ≠ s.current →
    s'.Valid t ∧ (s'.threads t).state = .ready ∧ (s'.threads t).frame = (s.threads t).frame

section Passes

variable {P : Permit} {s s' s'' : Sched} {L L' L'' : Lists} {interrupt : Bool} {k : ℕ}

theorem Passes.refl : Passes P s L s L :=
  ⟨rfl, fun _ _ _ _ => rfl, fun _ _ _ ht _ => .inl ⟨ht, rfl⟩, fun _ _ _ => List.Sublist.refl _,
    fun _ hv hs _ => ⟨hv, hs, rfl⟩⟩

/-- What two steps do to the waiters, they do together. -/
theorem Passes.trans (h : Passes P s L s' L') (h' : Passes P s' L' s'' L'') :
    Passes P s L s'' L'' where
  current := h'.current.trans h.current
  slot kind k hkind hno := (h'.slot kind k hkind hno).trans (h.slot kind k hkind hno)
  waiter t kind i ht hcur := by
    have hcur' : t ≠ s'.current := by rwa [h.current]
    rcases h.waiter t kind i ht hcur with ⟨ht', hf⟩ | ⟨answer, hP, hv, hs, hf⟩
    · rcases h'.waiter t kind i ht' hcur' with ⟨ht'', hf'⟩ | ⟨answer, hP, hv, hs, hf'⟩
      · exact .inl ⟨ht'', hf'.trans hf⟩
      · exact .inr ⟨answer, hP, hv, hs, by rw [hf', hf]⟩
    · obtain ⟨hv', hs', hf'⟩ := h'.ready t hv hs hcur'
      exact .inr ⟨answer, hP, hv', hs', hf'.trans hf⟩
  list kind i hno := (h'.list kind i hno).trans (h.list kind i hno)
  ready t hv hs hcur := by
    obtain ⟨hv', hs', hf⟩ := h.ready t hv hs hcur
    obtain ⟨hv'', hs'', hf'⟩ := h'.ready t hv' hs' (by rwa [h.current])
    exact ⟨hv'', hs'', hf'.trans hf⟩

/-- The lists of objects once a waiting thread has been made ready. -/
theorem wake_waiters_eq (s : Sched) (L : Lists) (k : ℕ) (kind : Kind) (i : ℕ) :
    Lists.wake s L k (.waiters kind i) = if s.waitObjectOf (s.threads k) = some (kind, i) then
      (L (.waiters kind i)).erase k else L (.waiters kind i) := by
  rw [Lists.wake, Lists.append_apply, if_neg (by simp), Lists.leave]
  cases hobject : s.waitObjectOf (s.threads k) with
  | none => simp
  | some object =>
    obtain ⟨kind', i'⟩ := object
    dsimp only
    rw [Lists.remove_apply]
    by_cases heq : kind = kind' ∧ i = i'
    · obtain ⟨rfl, rfl⟩ := heq
      simp
    · rw [if_neg fun hc => heq (Place.waiters.inj hc), if_neg fun hc => heq ?_]
      obtain ⟨rfl, rfl⟩ := Prod.mk.inj (Option.some.inj hc)
      exact ⟨rfl, rfl⟩

theorem Same.slot (h : Same s s') (kind : Kind) (k : ℕ) : s'.pools kind k = s.pools kind k := by
  rw [h.pools]

/-- A new waiter comes between the others. -/
theorem Joins.eq {byPriority : Bool} {l l₁ l₂ : List ℕ} (h : Joins s k byPriority l l₁ l₂) :
    l = l₁ ++ l₂ := by
  rw [Joins] at h
  split at h
  · exact h.1
  · rw [h.1, h.2, List.append_nil]

/-- The lists of objects once the running thread has stopped: it is in one more, if any. -/
theorem Stops.waiters (h : Stops P s L s' L') (kind : Kind) (i : ℕ) :
    L' (.waiters kind i) = L (.waiters kind i) ∨ ∃ b l₁ l₂, P.joins kind i b ∧
      Joins s s.current b (L (.waiters kind i)) l₁ l₂ ∧
      L' (.waiters kind i) = l₁ ++ s.current :: l₂ := by
  cases h with
  | waits _ _ => exact .inl rfl
  | @joins kind' index _ l₁ l₂ _ _ b hkind hjoins hindex hl =>
    by_cases heq : kind = kind' ∧ i = index
    · obtain ⟨rfl, rfl⟩ := heq
      exact .inr ⟨b, l₁, l₂, hjoins, hl, Function.update_self ..⟩
    · exact .inl (Function.update_of_ne (fun hc => heq (Place.waiters.inj hc)) _ _)
  | ends => exact .inl rfl

theorem Picked.same_put {best : ℕ} (h : Picked s L s' best L') : Same s s' := by
  obtain ⟨r, n, rfl⟩ := h.same
  exact PS2Bios.Threadman.same_put s n _ r

/-- A move passes the waiters by, but for those it wakes and the one that joins. -/
theorem Move.passes (h : Move P s L s' L') (hs : Sound s L) : Passes P s L s' L' := by
  cases h with
  | quiet h =>
    exact ⟨h.current, fun kind k _ _ => by rw [h.pools], fun t _ _ ht _ => .inl ⟨ht, h.frame t⟩,
      fun _ _ _ => List.Sublist.refl _,
      fun t hv hr _ => ⟨h.valid.mpr hv, (h.state t).trans hr, h.frame t⟩⟩
  -- who is woken is taken from the object's waiters, with the answer in its frame
  | @wake k _ _ _ answer hv hw hP h =>
    have hs₁ := hs.woken hv hw answer
    have hsame := (same_woken s k answer).trans h.same
    have hlist : ∀ kind i, L' (.waiters kind i) = if s.waitObjectOf (s.threads k) = some (kind, i)
        then (L (.waiters kind i)).erase k else L (.waiters kind i) := fun kind i =>
      (h.waiters kind i).trans (wake_waiters_eq s L k kind i)
    refine ⟨h.current.trans (woken_current s k answer), fun kind k _ _ => hsame.slot kind k,
      fun t kind i ht _ => ?_, fun kind i _ => ?_, fun t hv' hr _ => ?_⟩
    · rcases eq_or_ne t k with rfl | htk
      · refine .inr ⟨answer, hP, hsame.valid.mpr hv, ?_, ?_⟩
        · rcases (h.holds hs₁ t).2 with hst | ⟨-, hst⟩
          · rw [hst, woken_threads, if_pos rfl]
          · exact hst
        · rw [(h.holds hs₁ t).1, woken_threads, if_pos rfl]
      · left
        rw [hlist, (h.holds hs₁ t).1, woken_threads, if_neg htk]
        refine ⟨?_, rfl⟩
        split
        · exact (List.mem_erase_of_ne htk).mpr ht
        · exact ht
    · rw [hlist]
      split
      · exact List.erase_sublist
      · exact List.Sublist.refl _
    · have htk : t ≠ k := by
        rintro rfl
        exact absurd (hr.symm.trans hw) (by decide)
      refine ⟨hsame.valid.mpr hv', ?_, ?_⟩
      · rcases (h.holds hs₁ t).2 with hst | ⟨-, hst⟩
        · rwa [hst, woken_threads, if_neg htk]
        · exact hst
      · rw [(h.holds hs₁ t).1, woken_threads, if_neg htk]
  -- a thread that is started waited nowhere
  | @start k _ _ hv hw h =>
    have hpend : k ≠ s.pending := by
      rintro rfl
      rcases hs.pending_state with hst | hst <;> exact absurd (hw.symm.trans hst) (by decide)
    have hs₁ := hs.activate hv hw hpend
    have hsame := (same_activate s k).trans h.same
    have hlist : ∀ kind i, L' (.waiters kind i) = L (.waiters kind i) := fun kind i =>
      (h.waiters kind i).trans ((Lists.append_apply ..).trans (if_neg (by simp)))
    have hne : ∀ t, (s.threads t).state ≠ .dormant → t ≠ k := by
      rintro t hst rfl
      exact hst hw
    refine ⟨h.current, fun kind k _ _ => hsame.slot kind k, fun t kind i ht _ => .inl ?_,
      fun kind i _ => by rw [hlist], fun t hv' hr _ => ?_⟩
    · have hwait := ((hs.linked.mem_iff t _).mp ht).2.2.1
      rw [hlist, (h.holds hs₁ t).1, activate_threads, if_neg (hne t (by rw [hwait]; decide))]
      exact ⟨ht, rfl⟩
    · have htk := hne t (by rw [hr]; decide)
      refine ⟨hsame.valid.mpr hv', ?_, ?_⟩
      · rcases (h.holds hs₁ t).2 with hst | ⟨-, hst⟩
        · rwa [hst, activate_threads, if_neg htk]
        · exact hst
      · rw [(h.holds hs₁ t).1, activate_threads, if_neg htk]
  -- who stops is the caller
  | @stop s₁ s₂ L₁ L₂ best hset hidle hstop hpick hne =>
    have hst := hstop.stopped
    have hsame := (hst.same.trans hpick.same_put).trans (same_setPending s₂ best)
    have hthreads : ∀ t, t ≠ s.current → (s₂.setPending best).threads t = s.threads t :=
      fun t ht => by rw [setPending_threads, hpick.threads, hst.threads t ht]
    refine ⟨hpick.current.trans hst.current, fun kind k _ _ => hsame.slot kind k,
      fun t kind i ht hcur => .inl ⟨?_, by rw [hthreads t hcur]⟩, fun kind i hno => ?_,
      fun t hv hr hcur =>
        ⟨hsame.valid.mpr hv, by rw [hthreads t hcur, hr], by rw [hthreads t hcur]⟩⟩
    · rw [hpick.waiters]
      rcases hstop.waiters kind i with heq | ⟨b, l₁, l₂, -, hl, heq⟩
      · rwa [heq]
      · rw [heq]
        rw [hl.eq] at ht
        exact List.mem_append.mpr ((List.mem_append.mp ht).imp_right (List.mem_cons_of_mem _))
    · rw [hpick.waiters]
      rcases hstop.waiters kind i with heq | ⟨b, -, -, hP, -⟩
      · rw [heq]
      · exact absurd hP (hno b)
  -- a record of a thread that nobody waits with
  | @thread k slot links f hno hcur hpend hold hstate =>
    have hthreads : ∀ t, t ≠ k → ({ s.setSlot .thread k slot with links := links }.setThread k
        f).threads t = s.threads t := fun t ht => setThread_ne _ _ _ ht
    refine ⟨rfl, fun kind i hkind _ => ?_, fun t kind i ht _ => .inl ⟨ht, ?_⟩,
      fun _ _ _ => List.Sublist.refl _, fun t hv hr _ => ?_⟩
    · exact (Pools.set_apply ..).trans (if_neg fun hc => hkind hc.1)
    · rw [hthreads t fun htk => hno _ (htk ▸ ht)]
    · have htk : t ≠ k := by
        rintro rfl
        rcases hold with hno | hd
        · exact hno hv
        · exact absurd (hr.symm.trans hd) (by decide)
      rw [hthreads t htk]
      refine ⟨?_, hr, rfl⟩
      change t < kThreads ∧ ((s.pools.set .thread k slot) .thread t).inUse = true
      rw [Pools.set_apply, if_neg fun hc => htk hc.2]
      exact hv
  | @object kind k slot r n hkind hremakes hempty =>
    refine ⟨rfl, fun kind' i _ hno => ?_, fun t _ _ ht _ => .inl ⟨ht, rfl⟩,
      fun _ _ _ => List.Sublist.refl _, fun t hv hr _ => ⟨?_, hr, rfl⟩⟩
    · refine (Pools.set_apply ..).trans (if_neg ?_)
      rintro ⟨rfl, rfl⟩
      exact hno hremakes
    · change t < kThreads ∧ ((s.pools.set kind k slot) .thread t).inUse = true
      rw [Pools.set_apply, if_neg fun hc => hkind hc.1.symm]
      exact hv

theorem Moves.passes (h : Moves P s L s' L') : Passes P s L s' L' :=
  h.invariant (I := fun s' L' => Passes P s L s' L')
    (fun _ _ _ _ hs hp hm _ => hp.trans (hm.passes hs)) .refl

/-- What touches no list of an object. -/
theorem Passes.of_holds (hsame : Same s s') (hcur : s'.current = s.current)
    (hholds : ∀ j, s.Holds j (s'.threads j))
    (hlists : ∀ kind i, L' (.waiters kind i) = L (.waiters kind i)) : Passes P s L s' L' := by
  refine ⟨hcur, fun kind k _ _ => hsame.slot kind k, fun t kind i ht _ => .inl ⟨?_, (hholds t).1⟩,
    fun kind i _ => by rw [hlists], fun t hv hr _ => ⟨hsame.valid.mpr hv, ?_, (hholds t).1⟩⟩
  · rwa [hlists]
  · rcases (hholds t).2 with hst | ⟨-, hst⟩
    · rw [hst, hr]
    · exact hst

/-- A change of priority moves no waiter. -/
theorem Reranks.waiters {priority : ℕ} (h : Reranks s L k priority interrupt s' L') (kind : Kind)
    (i : ℕ) : L' (.waiters kind i) = L (.waiters kind i) := by
  have hrerank : Lists.rerank s L k priority (.waiters kind i) = L (.waiters kind i) := by
    simp [Lists.rerank, Lists.append_apply, Lists.remove_apply]
  cases h with
  | requeued _ => exact hrerank
  | decided _ hd => exact (hd.waiters kind i).trans hrerank
  | written _ _ => rfl
  | kept _ _ hpick _ =>
    exact ((Lists.append_apply ..).trans (if_neg (by simp))).trans (hpick.waiters kind i)
  | yields _ _ hpick _ =>
    exact ((Lists.append_apply ..).trans (if_neg (by simp))).trans (hpick.waiters kind i)

/-- A rotation moves no waiter. -/
theorem Rotates.waiters (h : Rotates s L interrupt s' L') (kind : Kind) (i : ℕ) :
    L' (.waiters kind i) = L (.waiters kind i) := by
  cases h with
  | yields _ hpick =>
    exact (hpick.waiters kind i).trans ((Lists.append_apply ..).trans (if_neg (by simp)))
  | turns _ => exact Function.update_of_ne (by simp) _ _

/-- **What a call does to those who wait**, if it ends no thread. -/
theorem Effect.passes {c : Service} (h : Effect s L interrupt c s' L') (hs : Sound s L)
    (hc : ∀ id, c ≠ .terminateThread id) : Passes (s.permits c) s L s' L' := by
  cases h with
  | moves hm => exact hm.passes
  | terminates _ _ _ _ => exact absurd rfl (hc _)
  | reranks hp _ _ hre =>
    exact .of_holds hre.reranks.same hre.reranks.current
      (hre.reranks.holds hs (lt_of_legal hp)) hre.reranks.waiters
  | rotates hr _ => exact .of_holds hr.same hr.current hr.holds hr.waiters

end Passes

end PS2Bios.Threadman
