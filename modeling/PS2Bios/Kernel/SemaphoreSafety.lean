import PS2Bios.Kernel.SemaphoreCalls

/-!
# The EE kernel's semaphores do what they are for

A switch resumes a thread that does not wait, with the answer it was given (`Refines.resumed`).
With the direct forms this answers every call, and from one step the runs follow by simulation.

The kernel is right for the steps `Sound` allows. `waitSema_returns_unsignalled` is a run of
five calls in which a second waiter is not blocked at all.
-/

namespace PS2Bios.Kernel

open Intrusive State Counting

/-! ### The switch -/

section Switch

variable {s : State} {L : Lists} {σ σ₁ : Semas} {id m v : ℕ} {r : ℕ × State}

/-- **A switch resumes a thread that does not wait, with the answer it was given.** -/
theorem Refines.resumed (h : Refines s L σ) (hr : Resumed s L r id) :
    ∃ σ', σ.runs (fun m => m) r.2.currentThread r.1 σ' ∧ Between r.2 L σ' := by
  obtain ⟨-, hrun⟩ := hr.runnable h.linked
  have hwaits : ¬σ.waits id := h.not_waits (by rcases hrun with hrun | hrun <;> simp [hrun])
  refine ⟨σ.setReply id none, ?_, ⟨hr.linked, fun m => ?_, h.waiting, fun x ρ hρ => ?_⟩, ?_, ?_⟩
  · rw [hr.currentThread]
    refine ⟨hwaits, fun ρ hρ => ?_, rfl⟩
    rw [hr.answer]
    exact (h.reply id ρ hρ).2
  · rw [hr.semaphore]
    exact h.count m
  · rw [Semas.setReply_reply] at hρ
    split at hρ
    · cases hρ
    · rename_i hx
      obtain ⟨hp, hf⟩ := h.reply x ρ hρ
      unfold Parked at hp ⊢
      rw [hr.state, if_neg hx, hr.frame]
      exact ⟨hp, hf⟩
  · exact hr.scheduled.running
  · rw [hr.currentThread, Semas.setReply_reply, if_pos rfl]

/-- A call that does not switch tells its caller at once. -/
theorem Between.runOn (h : Between s L σ) (ρ : Option (Reply ℕ ℕ))
    (hρ : ∀ x, ρ = some x → v = x.answer fun m => m) :
    (σ.setReply s.currentThread ρ).runs (fun m => m) s.currentThread v σ := by
  refine ⟨?_, fun x hx => hρ x ?_, ?_⟩
  · rw [Semas.setReply_waits]
    refine h.not_waits ?_
    rcases h.running with (hr | hr) | hr | hr <;> rw [State.current] at hr <;> simp [hr]
  · rwa [Semas.setReply_reply, if_pos rfl] at hx
  · rw [Semas.setReply_setReply, Semas.setReply_eq_self h.current]

/-- A caller that yields is out, with its answer in its frame. -/
theorem Between.parked (h : Between s L σ) (hrun : runnable s.current)
    {ρ : Option (Reply ℕ ℕ)} (hρ : ∀ x, ρ = some x → v = x.answer fun m => m) :
    Refines (s.parked v) L (σ.setReply s.currentThread ρ) := by
  refine ⟨h.linked.parked hrun v, h.count, h.waiting, fun x y hy => ?_⟩
  have hthread : ((s.parked v).thread x).state =
      if x = s.currentThread then .ready else (s.thread x).state := by
    simp only [State.parked, setThread_thread, setResumeValue_thread, saveCaller]
    split
    · rfl
    · rw [parkCurrent_state]
  have hframe : (s.parked v).frame x kSlotV0 =
      if x = s.currentThread then v else s.frame x kSlotV0 := by
    simp only [State.parked, setThread_frame, setResumeValue_frame]
    split
    · rfl
    · rename_i hx
      simp [saveCaller, parkCurrent, hx]
  unfold Parked
  rw [hthread, hframe]
  rw [Semas.setReply_reply] at hy
  split at hy
  · rename_i hx
    rw [if_pos hx, if_pos hx]
    exact ⟨.inl rfl, hρ y hy⟩
  · rename_i hx
    rw [if_neg hx, if_neg hx]
    exact h.reply x y hy

/-- Yielding, in the abstract. -/
theorem Between.yield (h : Between s L σ) (hrun : runnable s.current)
    (ρ : Option (Reply ℕ ℕ)) (hρ : ∀ x, ρ = some x → v = x.answer fun m => m)
    (hr : s.yield v = some r) :
    ∃ σ', (σ.setReply s.currentThread ρ).runs (fun m => m) r.2.currentThread r.1 σ' ∧
      Between r.2 L σ' := by
  obtain ⟨id, hres⟩ := h.scheduled.yield hrun hr
  exact (h.parked hrun hρ).resumed hres

/-! ### The calls that block -/

/-- Blocking writes nothing of the other threads. -/
theorem blocked_others (s : State) (type : WaitType) (waitId v x : ℕ) (hx : x ≠ s.currentThread) :
    ((s.blocked type waitId v).thread x).state = (s.thread x).state ∧
      (s.blocked type waitId v).frame x kSlotV0 = s.frame x kSlotV0 := by
  simp [State.blocked, saveCaller, parkCurrent, hx]

/-- A caller that leaves the running threads has been told nothing; the others keep their
answers. -/
theorem Between.left {s' : State} {L' : Lists} (h : Between s L σ) (hl : Linked s' L' none)
    (hcount : ∀ m, (s'.semaphore m).count = (s.semaphore m).count) (hc : σ₁.count = σ.count)
    (hr : σ₁.reply = σ.reply) (hw : σ₁.waiting = L'.waiting)
    (hothers : ∀ x ≠ s.currentThread, (s'.thread x).state = (s.thread x).state ∧
      s'.frame x kSlotV0 = s.frame x kSlotV0) : Refines s' L' σ₁ := by
  refine ⟨hl, fun m => ?_, hw, fun x ρ hρ => ?_⟩
  · rw [hc]
    exact h.count_congr hcount m
  · rw [hr] at hρ
    have hx : x ≠ s.currentThread := by
      rintro rfl
      rw [h.current] at hρ
      cases hρ
    obtain ⟨hst, hframe⟩ := hothers x hx
    unfold Parked
    rw [hst, hframe]
    exact h.reply x ρ hρ

/-- An exit runs the next thread with the answer it is owed. -/
theorem Between.exitThread (h : Between s L σ) (hs : MayLeave s)
    (hr : sysExitThread s = some r) :
    ∃ L' σ', σ.runs (fun m => m) r.2.currentThread r.1 σ' ∧ Between r.2 L' σ' := by
  have hl := (h.scheduled.takeOffCurrent hs).resetToDormant
  obtain ⟨id, hres⟩ := hl.resumeNext hr
  have href : Refines ((s.takeOffReadyQueue s.currentThread).resetToDormant s.currentThread)
      (L.remove (.ready (s.queueOf s.currentThread)) s.currentThread) σ :=
    h.left hl (fun _ => rfl) rfl rfl (by rw [Lists.remove_ready_waiting]; exact h.waiting)
      fun x hx => ⟨by simp [hx], by rw [resetToDormant_frame _ _ _ hx]; rfl⟩
  exact ⟨_, href.resumed hres⟩

/-- An exit that deletes runs the next thread with the answer it is owed. -/
theorem Between.exitDeleteThread (h : Between s L σ) (hs : MayLeave s)
    (hr : sysExitDeleteThread s = some r) :
    ∃ L' σ', σ.runs (fun m => m) r.2.currentThread r.1 σ' ∧ Between r.2 L' σ' := by
  have hl := (h.scheduled.takeOffCurrent hs).giveBack h.linked.current
  obtain ⟨id, hres⟩ := hl.resumeNext hr
  refine ⟨_, (h.left hl (fun _ => rfl) rfl rfl ?_ fun x hx => ?_).resumed hres⟩
  · exact h.waiting.trans
      (Lists.remove_ready_waiting L (s.queueOf s.currentThread) s.currentThread).symm
  · exact ⟨by simp [hx], rfl⟩

/-- A sleep runs the next thread with the answer it is owed. -/
theorem Between.sleepThread (h : Between s L σ) (hs : 0 < s.current.wakeupCount ∨ MayLeave s)
    (hr : sysSleepThread s = some r) :
    ∃ L' σ', σ.runs (fun m => m) r.2.currentThread r.1 σ' ∧ Between r.2 L' σ' := by
  unfold sysSleepThread at hr
  split at hr
  · cases hr
    have hk : Keeps s (s.setThread s.currentThread fun t =>
        { t with wakeupCount := t.wakeupCount - 1 }) L.waiting :=
      ⟨sameCurrent_setThread _ fun _ => rfl, L,
        h.linked.setThread_shape _ ⟨rfl, rfl, rfl, rfl, rfl⟩, rfl⟩
    obtain ⟨L', hb⟩ := h.quiet_of_keeps hk
      (quiet_setThread (fun t => { t with wakeupCount := t.wakeupCount - 1 }) fun hp => hp)
    refine ⟨L', σ, ?_, hb⟩
    have hrun := h.runOn (v := s.currentThread) none nofun
    rwa [Semas.setReply_eq_self h.current] at hrun
  · rename_i hno
    rw [block_eq] at hr
    have hl := h.scheduled.blocked_sleeping (hs.resolve_left hno) s.currentThread
    obtain ⟨id, hres⟩ := hl.resumeNext hr
    refine ⟨_, (h.left hl (fun _ => rfl) rfl rfl ?_ (blocked_others s _ _ _)).resumed hres⟩
    exact h.waiting.trans (Lists.remove_ready_waiting L _ _).symm

/-- A wait takes from the abstract count or joins its waiters. -/
theorem Between.waitSema (h : Between s L σ)
    (hs : allocated s m → (s.semaphore m).count ≤ 0 →
      CallerAlone s ∧ (s.semaphore m).waitHead = kNone)
    (hr : sysWaitSema m s = some r) :
    ∃ L' σ', (σ.waited m s.currentThread).runs (fun m => m) r.2.currentThread r.1 σ' ∧
      Between r.2 L' σ' := by
  unfold sysWaitSema at hr
  unfold Semas.waited
  split at hr
  · rename_i hno
    cases hr
    rw [h.count_eq_none hno]
    refine ⟨L, σ, h.runOn _ ?_, h⟩
    rintro _ ⟨⟩
    rfl
  rename_i hal
  rw [not_not] at hal
  rw [h.count_eq_some hal]
  dsimp only
  split at hr
  · -- taking one
    rename_i hpos
    cases hr
    obtain ⟨L', hb⟩ := h.recount (h.scheduled.takeOne hpos) rfl rfl rfl
      (if_pos ⟨hal.1, show 0 ≤ (s.semaphore m).count - 1 by omega⟩).symm
    refine ⟨L', _, ?_, hb⟩
    rw [if_pos hpos]
    refine hb.runOn _ ?_
    rintro _ ⟨⟩
    rfl
  · -- waiting
    rename_i hpos
    rw [if_neg hpos]
    obtain ⟨ha, hnil⟩ := hs hal (by omega)
    have hl := h.scheduled.blocked_onSemaphore ha hal hnil m
    obtain ⟨id, hres⟩ := hl.resumeNext hr
    have href : Refines ((s.enlisted m).blocked .onSemaphore m m)
        ((L.remove (.ready (s.queueOf s.currentThread)) s.currentThread).append (.waitList m)
          s.currentThread)
        (σ.enlist (fun l id => l ++ [id]) m s.currentThread) := by
      refine h.left hl (fun x => ?_) rfl rfl ?_ (blocked_others (s.enlisted m) _ _ _)
      · show ((s.enlisted m).semaphore x).count = _
        simp only [State.enlisted, setSemaphore_semaphore]
        split
        · rename_i hx
          rw [hx]
        · rfl
      · funext x
        simp only [Semas.enlist, Lists.waiting, Lists.append_queued, Lists.remove_queued, h.waiting,
          Function.update_apply, Place.waitList.injEq, reduceCtorEq, if_false]
    exact ⟨_, href.resumed hres⟩

/-! ### Steps -/

/-- A start runs the thread or goes on, without touching a semaphore. -/
theorem Between.startThread (h : Between s L σ) {arg : ℕ}
    (hs : s.refuses (.startThread id arg) ∨ runnable s.current)
    (hr : sysStartThread id arg s = some r) :
    ∃ L' σ', σ.runs (fun m => m) r.2.currentThread r.1 σ' ∧ Between r.2 L' σ' := by
  unfold sysStartThread at hr
  split at hr
  · cases hr
    have hrun := h.runOn (v := toWord (-1)) none nofun
    rw [Semas.setReply_eq_self h.current] at hrun
    exact ⟨L, σ, hrun, h⟩
  rename_i hok
  have hrun := hs.resolve_left hok
  rw [not_or, not_not, not_not] at hok
  have hk := h.scheduled.started hok.1 hok.2 arg
  have hq : Quiet s (s.started id arg) := by
    refine quiet_of_others (i := id) (fun _ => rfl) (by simp [Parked, hok.2]) (fun x hx => ?_)
      fun x hx => ?_
    · simp [State.started, hx]
    · simp [State.started, hx]
  obtain ⟨L', hb⟩ := h.quiet_of_keeps hk hq
  have hrun' : runnable (s.started id arg).current := by
    unfold runnable at hrun ⊢
    rwa [hk.state]
  obtain ⟨σ', hσ, hb'⟩ := hb.yield hrun' none nofun hr
  rw [Semas.setReply_eq_self hb.current] at hσ
  exact ⟨L', σ', hσ, hb'⟩

/-- What a caller is told is what its call answers. -/
theorem DirectCall.told_answer {c : DirectCall} {answer : ℤ} {x : Reply ℕ ℕ}
    (hx : c.told answer = some x) : toWord answer = x.answer fun m => m := by
  cases c <;> cases hx <;> rfl

/-- **One system call does to the semaphores what it is for**, and whoever runs on has been
told what it finds. -/
theorem Between.call (h : Between s L σ) {c : Call} (hc : ∀ d ∈ c.directForm, d.inRange)
    (hn : ∀ d ∈ c.directForm, d.countable s) (hs : SoundCall s c)
    (hr : c.run s = some r) :
    ∃ L' σ₁ σ', σ.call s.currentThread c σ₁ ∧
      σ₁.runs (fun m => m) r.2.currentThread r.1 σ' ∧ Between r.2 L' σ' := by
  -- a call may yield when it is done, and the others go on by themselves
  cases hy : c.yielding with
  | some d =>
    have hform := Call.directForm_of_yielding hy
    have hrange := hc d hform
    rw [Call.run_of_yielding hy] at hr
    obtain ⟨r₁, hd, hr⟩ := thenYield_cases (hs.yielding hy) hr
    obtain ⟨L', σ₁, hσ, hb⟩ := h.direct hrange (hn d hform) hd
    have hcur := (h.scheduled.directCall hrange hd).2
    have hcall : σ.call s.currentThread c (σ₁.setReply s.currentThread (d.told r₁.1)) := by
      unfold Semas.call
      rw [hform]
      exact ⟨r₁.1, σ₁, hσ, rfl⟩
    rcases hr with rfl | ⟨hrun, hr⟩
    · refine ⟨L', _, σ₁, hcall, ?_, hb⟩
      rw [← hcur]
      exact hb.runOn _ fun x hx => DirectCall.told_answer hx
    · obtain ⟨σ', hσ', hb'⟩ := hb.yield (h.scheduled.runnable_keeps hy hd hrun) (d.told r₁.1)
        (fun x hx => DirectCall.told_answer hx) hr
      rw [hcur] at hσ'
      exact ⟨L', _, σ', hcall, hσ', hb'⟩
  | none =>
    cases c with
    | direct d =>
      obtain ⟨r₁, hd, rfl⟩ := Option.map_eq_some_iff.mp hr
      have hrange := hc d rfl
      obtain ⟨L', σ₁, hσ, hb⟩ := h.direct hrange (hn d rfl) hd
      have hcur := (h.scheduled.directCall hrange hd).2
      refine ⟨L', _, σ₁, ⟨r₁.1, σ₁, hσ, rfl⟩, ?_, hb⟩
      rw [← hcur]
      exact hb.runOn _ fun x hx => DirectCall.told_answer hx
    | terminateThread id =>
      -- the caller may have ended itself, and another is resumed in its place
      obtain ⟨r₁, hd, hcur, hr⟩ := sysTerminateThread_cases hs hr
      obtain ⟨L', σ₁, hσ, hb⟩ := h.terminateThread hd
      have hcall : σ.call s.currentThread (.terminateThread id) σ₁ := by
        refine ⟨r₁.1, σ₁, hσ, ?_⟩
        rw [← hcur]
        exact (Semas.setReply_eq_self hb.current).symm
      rcases hr with ⟨rfl, rfl⟩ | ⟨-, hr⟩ | ⟨hrun, hr⟩
      · have hrun := hb.runOn (v := toWord (-1)) none nofun
        rw [Semas.setReply_eq_self hb.current] at hrun
        exact ⟨L', σ₁, σ₁, hcall, hrun, hb⟩
      · obtain ⟨x, hres⟩ := hb.linked.resumeNext hr
        obtain ⟨σ', hσ', hb'⟩ := hb.resumed hres
        exact ⟨L', σ₁, σ', hcall, hσ', hb'⟩
      · obtain ⟨σ', hσ', hb'⟩ := hb.yield hrun none nofun hr
        rw [Semas.setReply_eq_self hb.current] at hσ'
        exact ⟨L', σ₁, σ', hcall, hσ', hb'⟩
    | startThread id arg =>
      obtain ⟨L', σ', hσ, hb⟩ := h.startThread hs hr
      exact ⟨L', σ, σ', rfl, hσ, hb⟩
    | exitThread =>
      obtain ⟨L', σ', hσ, hb⟩ := h.exitThread hs hr
      exact ⟨L', σ, σ', rfl, hσ, hb⟩
    | exitDeleteThread =>
      obtain ⟨L', σ', hσ, hb⟩ := h.exitDeleteThread hs hr
      exact ⟨L', σ, σ', rfl, hσ, hb⟩
    | sleepThread =>
      obtain ⟨L', σ', hσ, hb⟩ := h.sleepThread hs hr
      exact ⟨L', σ, σ', rfl, hσ, hb⟩
    | waitSema m =>
      obtain ⟨L', σ', hσ, hb⟩ := h.waitSema hs hr
      exact ⟨L', _, σ', rfl, hσ, hb⟩
    | _ => cases hy

/-- The domain of the counts. -/
def Event.countable (s : State) (e : Event) : Prop := ∀ c ∈ e.direct, c.countable s

instance (s : State) : DecidablePred (Event.countable s) := fun e =>
  inferInstanceAs (Decidable (∀ c ∈ e.direct, c.countable s))

/-- A step of the machine with what is seen of it; `ok` says which steps are taken. -/
def ObservedStep (ok : State → Event → Prop) (s : State) (o : List Observation) (s' : State) :
    Prop :=
  ∃ e v, e.inRange ∧ e.countable s ∧ ok s e ∧ e.run s = some (v, s') ∧ o = e.observed s v s'

/-- The end of an interrupt goes on or runs the next thread with the answer it is owed. -/
theorem Between.interruptExit (h : Between s L σ) {frame : Block}
    (hs : s.rescheduleRequested = true → runnable s.current) {r : Option Block × State}
    (hr : s.interruptReschedule frame = some r) :
    ∃ L' σ', σ.runs (fun m => m) r.2.currentThread (r.1.getD frame kSlotV0) σ' ∧
      Between r.2 L' σ' := by
  rcases h.linked.interruptReschedule hs hr with ⟨-, rfl⟩ | ⟨hreq, id, hres⟩
  · have hrun := h.runOn (v := frame kSlotV0) none nofun
    rw [Semas.setReply_eq_self h.current] at hrun
    exact ⟨L, σ, hrun, h⟩
  · have hothers : ∀ x ≠ s.currentThread,
        ((s.interrupted frame).thread x).state = (s.thread x).state ∧
          (s.interrupted frame).frame x kSlotV0 = s.frame x kSlotV0 := by
      intro x hx
      simp [State.interrupted, State.parkCurrent, hx]
    exact ⟨L, (h.left (h.linked.interrupted (hs hreq) frame) (fun _ => rfl) rfl rfl h.waiting
      hothers).resumed hres⟩

/-- **One step does to the semaphores what is seen of it.** -/
theorem Between.step (h : Between s L σ) {s' : State} {o : List Observation}
    (he : ObservedStep Sound s o s') : ∃ L' σ', Steps SemaStep σ o σ' ∧ Between s' L' σ' := by
  obtain ⟨e, v, hrange, hn, hs, hr, rfl⟩ := he
  cases e with
  | syscall c block epc =>
    have h₁ : Between { s with syscallContext := block, epc := epc } L σ :=
      ⟨⟨h.linked.registers _ _ _ _ _ _, h.count, h.waiting, h.reply⟩, h.running, h.current⟩
    obtain ⟨L', σ₁, σ', hcall, hrun, hb⟩ := h₁.call hrange hn
      (by cases c <;> exact hs) hr
    exact ⟨L', σ', .cons hcall (.cons hrun (.nil σ')), hb⟩
  | handler c =>
    obtain ⟨r, hd, hv⟩ := Option.map_eq_some_iff.mp hr
    obtain ⟨rfl, rfl⟩ := Prod.mk.inj hv
    obtain ⟨L', σ', hσ, hb⟩ := h.direct (hrange c rfl) (hn c rfl) hd
    exact ⟨L', σ', .cons ⟨r.1, rfl, hσ⟩ (.nil σ'), hb⟩
  | interruptEntry =>
    cases hr
    exact ⟨L, σ, .nil σ, ⟨h.linked.registers _ _ _ _ _ _, h.count, h.waiting, h.reply⟩, h.running,
      h.current⟩
  | interruptExit frame =>
    obtain ⟨r, hd, hv⟩ := Option.map_eq_some_iff.mp hr
    obtain ⟨rfl, rfl⟩ := Prod.mk.inj hv
    obtain ⟨L', σ', hσ, hb⟩ := h.interruptExit hs hd
    exact ⟨L', σ', .cons hσ (.nil σ'), hb⟩

end Switch

/-! ### Runs -/

/-- The semaphores of the kernel are the abstract ones. -/
structure Represents (s : State) (σ : Semas) : Prop where
  count : ∀ m, σ.count m = countInUse m (s.semaphore m)
  waitList : ∀ m, allocated s m →
    IsQueue kNone s.links ⟨(s.semaphore m).waitHead, (s.semaphore m).waitTail⟩ (σ.waiting m)
  waiting_iff : ∀ m id, id ∈ σ.waiting m ↔ id < kThreads ∧ waitsOn (s.thread id) m

/-- A state that refines the semaphores represents them. -/
theorem Refines.represents {s : State} {L : Lists} {σ : Semas} (h : Refines s L σ) :
    Represents s σ where
  count := h.count
  waitList m hm := by
    rw [h.waiting]
    exact h.linked.family.queue (.waitList m) hm
  waiting_iff m id := by
    rw [h.waiting]
    exact (h.linked.mem_iff id (.waitList m)).trans (by simp [belongs])

/-- After the boot there is no semaphore and nobody is owed an answer. -/
theorem Between.boot (threadRoot gp entry idleLoop idleStackTop : ℕ) :
    ∃ L, Between (boot threadRoot gp entry idleLoop idleStackTop) L Semas.start := by
  obtain ⟨L, hs, hw, hcount⟩ := Scheduled.boot threadRoot gp entry idleLoop idleStackTop
  have hfree : ∀ m, countInUse m ((Kernel.boot threadRoot gp entry idleLoop
      idleStackTop).semaphore m) = none := by
    refine fun m => if_neg fun hc => ?_
    have := hcount m hc.1
    omega
  exact ⟨L, ⟨hs.linked, fun m => (hfree m).symm, funext fun m => (hw m).symm, nofun⟩, hs.running,
    rfl⟩

/-- **What is seen of a run of sound steps is what semaphores are for.** -/
theorem runs_do_what_semaphores_are_for (threadRoot gp entry idleLoop idleStackTop : ℕ)
    (trace : List (List Observation)) (s : State)
    (h : Steps (ObservedStep Sound) (boot threadRoot gp entry idleLoop idleStackTop) trace s) :
    ∃ σ, Steps (Steps SemaStep) Semas.start trace σ ∧ Represents s σ := by
  obtain ⟨L, hboot⟩ := Between.boot threadRoot gp entry idleLoop idleStackTop
  obtain ⟨σ, hsteps, L', hb⟩ := h.simulation (R := fun s σ => ∃ L, Between s L σ)
    (fun s σ o s' hR hstep => by
      obtain ⟨L, hb⟩ := hR
      obtain ⟨L', σ', hσ, hb'⟩ := hb.step hstep
      exact ⟨σ', hσ, L', hb'⟩) ⟨L, hboot⟩
  exact ⟨σ, hsteps, hb.represents⟩

/-- A run of the machine, with what is seen of it. -/
def observe (ok : State → Event → Prop) [∀ s, DecidablePred (ok s)] :
    State → List Event → Option (List (List Observation) × State)
  | s, [] => some ([], s)
  | s, e :: l =>
    if e.inRange ∧ e.countable s ∧ ok s e then
      (e.run s).bind fun r =>
        (observe ok r.2 l).map fun q => (e.observed s r.1 r.2 :: q.1, q.2)
    else none

/-- What `observe` computes is a run of steps that meet its condition. -/
theorem steps_of_observe {ok : State → Event → Prop} [∀ s, DecidablePred (ok s)] {s t : State}
    {l : List Event} {trace : List (List Observation)} (h : observe ok s l = some (trace, t)) :
    Steps (ObservedStep ok) s trace t := by
  induction l generalizing s trace with
  | nil =>
    cases h
    exact .nil _
  | cons e l ih =>
    unfold observe at h
    split at h
    · rename_i hc
      obtain ⟨⟨v, u⟩, hrun, h⟩ := Option.bind_eq_some_iff.mp h
      obtain ⟨⟨rest, w⟩, hrest, heq⟩ := Option.map_eq_some_iff.mp h
      obtain ⟨rfl, rfl⟩ := Prod.mk.inj heq
      exact .cons ⟨e, v, hc.1, hc.2.1, hc.2.2, hrun, rfl⟩ (ih hrest)
    · cases h

/-- A thread waits, and an interrupt's handler signals. -/
theorem runs_do_what_semaphores_are_for_signalled :
    let p : ThreadParam := ⟨0, 0, 0, 0, 10, 0, 0⟩
    let events : List Event := [.by (.direct (.createThread p)), .by (.startThread 2 0),
      .by (.direct (.createSema ⟨1, 0, 0, 0⟩)), .by (.waitSema 0), .interruptEntry,
      .handler (.signalSema 0), .interruptExit fun _ => 0]
    let trace : List (List Observation) :=
      [[.call 1 (.direct (.createThread p)), .run 1 2], [.call 1 (.startThread 2 0), .run 2 0],
        [.call 2 (.direct (.createSema ⟨1, 0, 0, 0⟩)), .run 2 0],
        [.call 2 (.waitSema 0), .run 1 2], [], [.handler (.signalSema 0) 0], [.run 2 0]]
    ∃ s, observe Sound (boot 0 0 0 0 0) events = some (trace, s) ∧
      ∃ σ, Steps (Steps SemaStep) Semas.start trace σ ∧ Represents s σ := by
  intro p events trace
  have h : (observe Sound (boot 0 0 0 0 0) events).map Prod.fst = some trace := by
    decide +kernel
  obtain ⟨⟨trace', s⟩, hrun, htrace⟩ := Option.map_eq_some_iff.mp h
  obtain rfl : trace' = trace := htrace
  exact ⟨s, hrun, runs_do_what_semaphores_are_for 0 0 0 0 0 trace s (steps_of_observe hrun)⟩

/-- A second waiter is not blocked: its call answers the semaphore's id, and nobody has signalled
the semaphore. -/
theorem waitSema_returns_unsignalled :
    ∃ trace s, Steps (ObservedStep fun _ _ => True) (boot 0 0 0 0 0) trace s ∧
      ¬∃ σ, Steps (Steps SemaStep) Semas.start trace σ := by
  have h : (observe (fun _ _ => True) (boot 0 0 0 0 0)
      [.by (.direct (.createSema ⟨1, 0, 0, 0⟩)),
        .by (.direct (.createThread ⟨0, 0, 0, 0, 10, 0, 0⟩)), .by (.startThread 2 0),
        .by (.waitSema 0), .by (.waitSema 0)]).map Prod.fst =
      some [[.call 1 (.direct (.createSema ⟨1, 0, 0, 0⟩)), .run 1 0],
        [.call 1 (.direct (.createThread ⟨0, 0, 0, 0, 10, 0, 0⟩)), .run 1 2],
        [.call 1 (.startThread 2 0), .run 2 0], [.call 2 (.waitSema 0), .run 1 2],
        [.call 1 (.waitSema 0), .run 1 0]] := by
    decide +kernel
  obtain ⟨⟨trace, s⟩, hrun, htrace⟩ := Option.map_eq_some_iff.mp h
  refine ⟨trace, s, steps_of_observe hrun, ?_⟩
  obtain rfl := htrace
  rintro ⟨σ, hσ⟩
  simp only [Steps.cons_iff, Steps.nil_iff, SemaStep] at hσ
  obtain ⟨σ₁, ⟨τ₁, ⟨answer, σ', hcreate, rfl⟩, _, ⟨-, htold, rfl⟩, rfl⟩, hσ⟩ := hσ
  obtain ⟨σ₂, ⟨τ₂, ⟨_, _, rfl, rfl⟩, _, ⟨-, -, rfl⟩, rfl⟩, hσ⟩ := hσ
  obtain ⟨σ₃, ⟨τ₃, rfl, _, ⟨-, -, rfl⟩, rfl⟩, hσ⟩ := hσ
  obtain ⟨σ₄, ⟨τ₄, hwait, _, ⟨-, -, rfl⟩, rfl⟩, hσ⟩ := hσ
  obtain ⟨σ₅, ⟨τ₅, hwait', _, ⟨hno, -, -⟩, -⟩, -⟩ := hσ
  -- the semaphore has the id 0 and the count 0
  have hanswer : 0 = toWord answer := by
    refine htold (.own (toWord answer)) ?_
    rw [Semas.setReply_reply, if_pos rfl]
    rfl
  rcases hcreate with ⟨rfl, -⟩ | ⟨m, hm, -, -, rfl, rfl⟩
  · exact absurd hanswer (by decide)
  obtain rfl : m = 0 := by
    unfold toWord at hanswer
    unfold kSemaphores at hm
    omega
  -- so both calls wait
  have hblocks : ∀ (σ : Semas) (id : ℕ), σ.count 0 = some 0 →
      σ.waited 0 id = σ.enlist (fun l id => l ++ [id]) 0 id := by
    intro σ id hc
    unfold Semas.waited
    rw [hc]
    rfl
  have hwait := hwait.trans (hblocks _ _ (by simp [Semas.setCount, int32]))
  subst hwait
  have hwait' := hwait'.trans (hblocks _ _ (by simp [Semas.enlist, Semas.setCount, int32]))
  subst hwait'
  refine hno ⟨0, ?_⟩
  simp [Semas.enlist]

end PS2Bios.Kernel
