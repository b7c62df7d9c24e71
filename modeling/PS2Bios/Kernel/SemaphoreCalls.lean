import PS2Bios.Kernel.Scheduler
import PS2Bios.Kernel.SemaphoreSpec

/-!
# The EE kernel's direct forms do to the semaphores what they are for

`Refines s L σ` says that the semaphores of the kernel state `s`, with queues `L`, are the
abstract semaphores `σ`: the counts are equal, the wait lists are the queues', and a thread that
was given a reply is ready or suspended and has the answer in its frame. `Between s L σ` adds
what holds between two steps. `Between.direct` answers every direct form in the abstract; the
calls that are not about semaphores are `Quiet`.
-/

namespace PS2Bios.Kernel

open Intrusive State Counting

/-- A thread that is out, with its answer in its frame. -/
def Parked (t : ThreadRecord) : Prop := t.state = .ready ∨ t.state = .suspend

/-- The count of a semaphore, if it is in use. -/
def countInUse (m : ℕ) (x : Semaphore) : Option ℤ :=
  if m < kSemaphores ∧ 0 ≤ x.count then some x.count else none

/-- The semaphores of `s` are `σ`. -/
structure Refines (s : State) (L : Lists) (σ : Semas) : Prop where
  linked : Linked s L none
  count : ∀ m, σ.count m = countInUse m (s.semaphore m)
  waiting : σ.waiting = L.waiting
  reply : ∀ id r, σ.reply id = some r →
    Parked (s.thread id) ∧ s.frame id kSlotV0 = r.answer fun m => m

/-- And the running thread has been told what there was to tell. -/
structure Between (s : State) (L : Lists) (σ : Semas) : Prop extends Refines s L σ where
  running : Running s
  current : σ.reply s.currentThread = none

/-! ### The calls that are not about semaphores -/

/-- The counts are as they were, and so are the answers of the threads that are out. -/
structure Quiet (s s' : State) : Prop where
  count : ∀ m, (s'.semaphore m).count = (s.semaphore m).count
  parked : ∀ x, Parked (s.thread x) →
    Parked (s'.thread x) ∧ s'.frame x kSlotV0 = s.frame x kSlotV0

section Quiet

variable {s : State} {id : ℕ} {r : ℤ × State}

theorem Quiet.refl (s : State) : Quiet s s := ⟨fun _ => rfl, fun _ hx => ⟨hx, rfl⟩⟩

/-- A thread that is not out may be written. -/
theorem quiet_of_others {i : ℕ} {s' : State}
    (hcount : ∀ m, (s'.semaphore m).count = (s.semaphore m).count)
    (hid : ¬Parked (s.thread i)) (hst : ∀ x ≠ i, (s'.thread x).state = (s.thread x).state)
    (hframe : ∀ x ≠ i, s'.frame x kSlotV0 = s.frame x kSlotV0) : Quiet s s' := by
  refine ⟨hcount, fun x hx => ?_⟩
  have hne : x ≠ i := by
    rintro rfl
    exact hid hx
  unfold Parked at hx ⊢
  rw [hst x hne]
  exact ⟨hx, hframe x hne⟩

/-- A record may be written so that its thread stays out. -/
theorem quiet_setThread (f : ThreadRecord → ThreadRecord)
    (hf : Parked (s.thread id) → Parked (f (s.thread id))) : Quiet s (s.setThread id f) := by
  refine ⟨fun _ => rfl, fun x hx => ⟨?_, rfl⟩⟩
  rw [setThread_thread]
  split
  · rename_i heq
    exact hf (heq ▸ hx)
  · exact hx

/-- No semaphore and no answer changes when a thread is created. -/
theorem quiet_createThread {p : ThreadParam} (h : s.freeThread ≠ kNone →
    (s.thread s.freeThread).state = .free) (hr : sysCreateThread p s = some r) :
    Quiet s r.2 := by
  unfold sysCreateThread at hr
  split at hr <;> cases hr
  · exact .refl s
  · rename_i hne
    refine quiet_of_others (i := s.freeThread) (fun _ => rfl) ?_ (fun x hx => ?_) fun x hx => ?_
    · unfold Parked
      simp [h hne]
    · simp [hx]
    · rw [resetToDormant_frame _ _ _ hx]
      rfl

theorem quiet_deleteThread (hr : sysDeleteThread id s = some r) : Quiet s r.2 := by
  unfold sysDeleteThread at hr
  split at hr <;> cases hr
  · exact .refl s
  · rename_i hc
    rw [not_or, not_not, not_not] at hc
    refine quiet_of_others (i := id) (fun _ => rfl) ?_ (fun x hx => ?_) fun _ _ => rfl
    · unfold Parked
      simp [hc.2]
    · simp [hx]

/-- No semaphore and no answer changes with a priority. -/
theorem quiet_changeThreadPriority {priority : ℕ}
    (hr : changeThreadPriority id priority s = some r) : Quiet s r.2 := by
  unfold Kernel.changeThreadPriority at hr
  generalize (if id = 0 then s.currentThread else id) = x at hr
  dsimp only at hr
  have hself : ∀ t : State, t.thread = s.thread → t.semaphore = s.semaphore →
      t.frame = s.frame →
      Quiet s (t.setThread x fun t => { t with currentPriority := priority }) := by
    intro t ht hm hf
    refine ⟨fun m => by rw [setThread_semaphore, hm], fun y hy => ⟨?_, by rw [setThread_frame, hf]⟩⟩
    rw [setThread_thread, ht]
    split
    · rename_i heq
      exact heq ▸ hy
    · exact hy
  split at hr
  · cases hr
    exact .refl s
  split at hr
  · cases hr
    exact .refl s
  split at hr <;> cases hr
  · obtain ⟨hcount, hparked⟩ := hself (s.takeOffReadyQueue x) rfl rfl rfl
    exact ⟨hcount, hparked⟩
  · exact hself s rfl rfl rfl

theorem quiet_rotateReadyQueue {priority : ℕ} (hr : rotateReadyQueue priority s = some r) :
    Quiet s r.2 := by
  unfold Kernel.rotateReadyQueue at hr
  split at hr
  · cases hr
    exact .refl s
  · dsimp only at hr
    split at hr <;> cases hr <;> exact ⟨fun _ => rfl, fun _ hx => ⟨hx, rfl⟩⟩

theorem quiet_cancelWakeupThread (hr : sysCancelWakeupThread id s = some r) : Quiet s r.2 := by
  unfold sysCancelWakeupThread at hr
  split at hr <;> cases hr
  · exact .refl s
  · exact quiet_setThread (fun t => { t with wakeupCount := 0 }) fun h => h

/-- No semaphore and no answer changes with a wakeup. -/
theorem quiet_wakeupThread (hr : wakeupThread id s = some r) : Quiet s r.2 := by
  unfold Kernel.wakeupThread at hr
  have hcount : Quiet s (countWakeup s id) :=
    quiet_setThread (fun t => { t with wakeupCount := add32 t.wakeupCount 1 }) fun h => h
  split at hr
  · cases hr
    exact .refl s
  cases hst : (s.thread id).state with
  | wait =>
    simp only [hst] at hr
    split at hr <;> cases hr
    · refine quiet_of_others (i := id) (fun _ => rfl) (by simp [Parked, hst]) (fun x hx => ?_)
        fun _ _ => rfl
      simp [hx]
    · exact hcount
  | waitSuspend =>
    simp only [hst] at hr
    split at hr <;> cases hr
    · exact quiet_setThread (fun t => { t with waitType := .notWaiting, state := .suspend })
        fun _ => .inr rfl
    · exact hcount
  | ready | suspend =>
    simp only [hst] at hr
    cases hr
    exact hcount
  | _ =>
    simp only [hst] at hr
    cases hr
    exact .refl s

theorem quiet_suspendThread (hr : sysSuspendThread id s = some r) : Quiet s r.2 := by
  unfold sysSuspendThread at hr
  split at hr
  · cases hr
    exact .refl s
  have hsuspend : Quiet s ((s.takeOffReadyQueue id).setThread id fun t =>
      { t with state := .suspend }) := by
    refine ⟨fun _ => rfl, fun x hx => ⟨?_, rfl⟩⟩
    rw [setThread_thread]
    split
    · exact .inr rfl
    · exact hx
  cases hst : (s.thread id).state with
  | wait =>
    simp only [hst] at hr
    cases hr
    exact quiet_setThread (fun t => { t with state := .waitSuspend }) (by simp [Parked, hst])
  | run | ready =>
    simp only [hst] at hr
    cases hr
    exact hsuspend
  | _ =>
    simp only [hst] at hr
    cases hr
    exact .refl s

theorem quiet_resumeThread (hr : resumeThread id s = some r) : Quiet s r.2 := by
  unfold Kernel.resumeThread at hr
  split at hr
  · cases hr
    exact .refl s
  cases hst : (s.thread id).state with
  | suspend =>
    simp only [hst] at hr
    cases hr
    refine ⟨fun _ => rfl, fun x hx => ⟨?_, rfl⟩⟩
    rw [makeReady_thread]
    split
    · exact .inl rfl
    · exact hx
  | waitSuspend =>
    simp only [hst] at hr
    cases hr
    exact quiet_setThread (fun t => { t with state := .wait }) (by simp [Parked, hst])
  | _ =>
    simp only [hst] at hr
    cases hr
    exact .refl s

end Quiet

/-! ### The direct forms -/

section Direct

variable {s s' : State} {L : Lists} {σ σ' : Semas} {id m : ℕ} {r : ℤ × State}

/-- A thread waits in the abstract if its record says so. -/
theorem Refines.waits_iff (h : Refines s L σ) :
    σ.waits id ↔ id < kThreads ∧ ∃ m, waitsOn (s.thread id) m := by
  unfold Semas.waits
  rw [h.waiting]
  constructor
  · rintro ⟨m, hm⟩
    obtain ⟨hid, hw⟩ := h.linked.waitsOn_of_mem hm
    exact ⟨hid, m, hw⟩
  · rintro ⟨hid, m, hw⟩
    exact ⟨m, h.linked.mem_waiting hid hw⟩

/-- Only a thread in one of the waiting states waits. -/
theorem Refines.not_waits (h : Refines s L σ)
    (hst : (s.thread id).state ≠ .wait ∧ (s.thread id).state ≠ .waitSuspend) : ¬σ.waits id := by
  rw [h.waits_iff]
  rintro ⟨-, m, hw, -⟩
  exact hw.elim hst.1 hst.2

/-- A thread that is not out has not been told anything. -/
theorem Refines.reply_eq_none (h : Refines s L σ) (hp : ¬Parked (s.thread id)) :
    σ.reply id = none := by
  cases hr : σ.reply id with
  | none => rfl
  | some r => exact absurd (h.reply id r hr).1 hp

theorem Refines.count_eq_some (h : Refines s L σ) (hm : allocated s m) :
    σ.count m = some (s.semaphore m).count := (h.count m).trans (if_pos hm)

theorem Refines.count_eq_none (h : Refines s L σ) (hm : ¬allocated s m) : σ.count m = none :=
  (h.count m).trans (if_neg hm)

/-- Two states with the same counts have the same abstract counts. -/
theorem Refines.count_congr (h : Refines s L σ)
    (hcount : ∀ m, (s'.semaphore m).count = (s.semaphore m).count) (m : ℕ) :
    σ.count m = countInUse m (s'.semaphore m) := by
  rw [h.count]
  unfold countInUse
  rw [hcount]

theorem Between.scheduled (h : Between s L σ) : Scheduled s L := ⟨h.linked, h.running⟩

/-- A thread whose running state is kept is still running. -/
theorem Between.running_of_keeps {w : ℕ → List ℕ} (h : Between s L σ) (hk : Keeps s s' w) :
    Running s' := by
  have hrun := h.running
  unfold Running runnable at hrun ⊢
  rwa [hk.state]

/-- A call that is not about semaphores does nothing to them. -/
theorem Between.quiet (h : Between s L σ)
    (hl : ∃ L', Linked s' L' none ∧ L'.waiting = L.waiting)
    (hcur : s'.currentThread = s.currentThread) (hrun : Running s') (hq : Quiet s s') :
    ∃ L', Between s' L' σ := by
  obtain ⟨L', hl, hw⟩ := hl
  refine ⟨L', ⟨hl, h.count_congr hq.count, h.waiting.trans hw.symm, fun id r hr => ?_⟩, hrun, ?_⟩
  · obtain ⟨hp, hf⟩ := h.reply id r hr
    obtain ⟨hp', hf'⟩ := hq.parked id hp
    exact ⟨hp', hf'.trans hf⟩
  · rw [hcur]
    exact h.current

theorem Between.quiet_of_keeps (h : Between s L σ) (hk : Keeps s s' L.waiting)
    (hq : Quiet s s') : ∃ L', Between s' L' σ :=
  h.quiet hk.linked hk.currentThread (h.running_of_keeps hk) hq

/-- Threads that were handed an answer have been told it; the others know what they knew. -/
theorem Refines.reply_handed {l : List ℕ} {v : ℕ} (h : Refines s L σ) (hh : Handed s s' l v)
    (ρ : Reply ℕ ℕ) (hρ : ρ.answer (fun m => m) = v)
    (hreply : ∀ x, σ'.reply x = if x ∈ l then some ρ else σ.reply x) (id : ℕ) (r : Reply ℕ ℕ)
    (hr : σ'.reply id = some r) :
    Parked (s'.thread id) ∧ s'.frame id kSlotV0 = r.answer fun m => m := by
  rw [hreply] at hr
  split at hr
  · rename_i hm
    obtain rfl := Option.some.inj hr
    rw [hρ]
    exact hh.handed id hm
  · rename_i hm
    obtain ⟨hp, hf⟩ := h.reply id r hr
    obtain ⟨hst, hframe⟩ := hh.others id hm
    unfold Parked at hp ⊢
    rw [hst, hframe]
    exact ⟨hp, hf⟩

/-- Handing out answers, in the abstract. -/
theorem Between.handed {l : List ℕ} {v : ℕ} {w : ℕ → List ℕ} (h : Between s L σ)
    (hk : Keeps s s' w) (hh : Handed s s' l v) (ρ : Reply ℕ ℕ)
    (hρ : ρ.answer (fun m => m) = v) (hl : s.currentThread ∉ l) (hcount : σ'.count = σ.count)
    (hwaiting : σ'.waiting = w)
    (hreply : ∀ x, σ'.reply x = if x ∈ l then some ρ else σ.reply x) : ∃ L', Between s' L' σ' := by
  obtain ⟨L', hl', hw⟩ := hk.linked
  refine ⟨L', ⟨hl', fun m => ?_, hwaiting.trans hw.symm, h.reply_handed hh ρ hρ hreply⟩, ?_, ?_⟩
  · rw [hcount]
    exact h.count_congr hh.count m
  · exact h.running_of_keeps hk
  · rw [hk.currentThread, hreply, if_neg hl]
    exact h.current

/-- Writing counts, in the abstract. -/
theorem Between.recount {y : Semaphore} (h : Between s L σ)
    (hk : Keeps s s' L.waiting) (hs' : s'.semaphore = Function.update s.semaphore m y)
    (ht : s'.thread = s.thread) (hf : s'.frame = s.frame) {c : Option ℤ}
    (hc : c = countInUse m y) : ∃ L', Between s' L' (σ.setCount m c) := by
  obtain ⟨L', hl', hw⟩ := hk.linked
  refine ⟨L', ⟨hl', fun x => ?_, h.waiting.trans hw.symm, fun id r hr => ?_⟩, ?_, ?_⟩
  · have hx : (σ.setCount m c).count x = if x = m then c else σ.count x := by
      simp [Semas.setCount, Function.update_apply]
    rw [hx, hs', Function.update_apply]
    rcases eq_or_ne x m with rfl | hne
    · rw [if_pos rfl, if_pos rfl, hc]
    · rw [if_neg hne, if_neg hne, h.count]
  · rw [ht, hf]
    exact h.reply id r hr
  · exact h.running_of_keeps hk
  · rw [hk.currentThread]
    exact h.current

theorem toWord_lt {n : ℤ} (h₀ : 0 ≤ n) (h₁ : n < 2 ^ 31) : int32 (toWord n) = n := by
  unfold int32 toWord
  omega

/-- A signal does what it does to the abstract semaphore. -/
theorem Between.signalSema (h : Between s L σ) (hlt : (s.semaphore m).count + 1 < 2 ^ 31)
    (hr : signalSema m s = some r) : ∃ L' σ', σ.signalled m r.1 σ' ∧ Between r.2 L' σ' := by
  have hk := h.scheduled.signalSema hr
  unfold Kernel.signalSema at hr
  unfold Semas.signalled
  split at hr
  · rename_i hno
    cases hr
    rw [h.count_eq_none hno]
    exact ⟨L, σ, ⟨rfl, rfl⟩, h⟩
  rename_i hal
  rw [not_not] at hal
  rw [h.count_eq_some hal]
  rw [if_pos hal] at hk
  split at hr
  · -- nobody waits
    rename_i hnil
    cases hr
    have hw := h.linked.waiting_eq_nil hal hnil
    have htail : Function.update L.waiting m (L.waiting m).tail = L.waiting := by
      rw [hw, List.tail_nil, ← hw, Function.update_eq_self]
    rw [htail] at hk
    have hsignal : σ.signal (· + 1) m (s.semaphore m).count =
        σ.setCount m (some ((s.semaphore m).count + 1)) := by
      unfold Semas.signal
      rw [h.waiting, hw]
    have hcount : int32 (toWord ((s.semaphore m).count + 1)) = (s.semaphore m).count + 1 := by
      have := hal.2
      exact toWord_lt (by omega) hlt
    have hin : some ((s.semaphore m).count + 1) = countInUse m { s.semaphore m with
        count := int32 (toWord ((s.semaphore m).count + 1)) } := by
      unfold countInUse
      dsimp only
      have := hal.2
      rw [hcount, if_pos ⟨hal.1, by omega⟩]
    obtain ⟨L', hb⟩ := h.recount hk rfl rfl rfl hin
    exact ⟨L', _, ⟨rfl, hsignal.symm⟩, hb⟩
  · -- the first waiter is handed it
    rename_i hne
    cases hr
    obtain ⟨xs, hxs⟩ := h.linked.waitHead_mem hal hne
    have hmem : (s.semaphore m).waitHead ∈ L.waiting m := by
      rw [hxs]
      exact List.mem_cons_self
    have hst := (h.linked.waitsOn_of_mem hmem).2.1
    have hsignal : σ.signal (· + 1) m (s.semaphore m).count =
        Semas.setReply { σ with waiting := Function.update σ.waiting m xs }
          (s.semaphore m).waitHead (some (.handed m)) := by
      unfold Semas.signal
      rw [h.waiting, hxs]
    have hcur : s.currentThread ≠ (s.semaphore m).waitHead :=
      h.scheduled.ne_current (hst.imp_right .inl)
    obtain ⟨L', hb⟩ : ∃ L', Between _ L' (σ.signal (· + 1) m (s.semaphore m).count) :=
      h.handed hk (handed_wakeWaiter hst m) (.handed m) rfl (by simpa using hcur)
        (by rw [hsignal]; rfl)
        (by rw [hsignal, hxs, List.tail_cons, ← h.waiting]; rfl)
        (fun x => by rw [hsignal, Semas.setReply_reply]; simp only [List.mem_singleton])
    exact ⟨L', _, ⟨rfl, rfl⟩, hb⟩

/-- A poll does what it does to the abstract semaphore. -/
theorem Between.pollSema (h : Between s L σ) (hr : sysPollSema m s = some r) :
    ∃ L' σ', σ.polled m r.1 σ' ∧ Between r.2 L' σ' := by
  have hk := h.scheduled.pollSema hr
  unfold sysPollSema at hr
  unfold Semas.polled
  by_cases hal : allocated s m
  · rw [h.count_eq_some hal]
    dsimp only
    split at hr <;> cases hr
    · rename_i hc
      have hle := hc.resolve_left (not_not.mpr hal)
      refine ⟨L, σ, ?_, h⟩
      rw [if_neg (by omega)]
      exact ⟨rfl, rfl⟩
    · rename_i hc
      rw [not_or, not_not] at hc
      obtain ⟨L', hb⟩ := h.recount hk rfl rfl rfl (if_pos ⟨hal.1, by dsimp only; omega⟩).symm
      refine ⟨L', _, ?_, hb⟩
      rw [if_pos (by omega)]
      exact ⟨rfl, rfl⟩
  · rw [if_pos (.inl hal)] at hr
    cases hr
    rw [h.count_eq_none hal]
    exact ⟨L, σ, ⟨rfl, rfl⟩, h⟩

/-- A creation makes an abstract semaphore. -/
theorem Between.createSema (h : Between s L σ) {p : SemaParam}
    (hr : sysCreateSema p s = some r) : ∃ L' σ', σ.created p r.1 σ' ∧ Between r.2 L' σ' := by
  have hk := h.scheduled.createSema hr
  unfold sysCreateSema at hr
  split at hr
  · cases hr
    exact ⟨L, σ, .inl ⟨rfl, rfl⟩, h⟩
  rename_i hne
  split at hr
  · cases hr
    exact ⟨L, σ, .inl ⟨rfl, rfl⟩, h⟩
  · rename_i hinit
    cases hr
    obtain ⟨hm, hneg⟩ :
        s.freeSemaphore < kSemaphores ∧ (s.semaphore s.freeSemaphore).count < 0 := by
      obtain ⟨xs, hxs, -⟩ := h.linked.semaChain.eq_cons hne
      exact h.linked.semaFree _ (by rw [hxs]; exact List.mem_cons_self)
    have hno : ¬allocated s s.freeSemaphore := fun hal => absurd hal.2 (by omega)
    have hpos : 0 ≤ int32 p.initCount := by omega
    obtain ⟨L', hb⟩ := h.recount hk rfl rfl rfl (if_pos ⟨hm, hpos⟩).symm
    exact ⟨L', _, .inr ⟨_, hm, h.count_eq_none hno, hpos, rfl, rfl⟩, hb⟩

/-- A deletion takes the abstract semaphore away and tells its waiters. -/
theorem Between.deleteSema (h : Between s L σ) (hr : deleteSema m s = some r) :
    ∃ L' σ', σ.deleted m r.1 σ' ∧ Between r.2 L' σ' := by
  have hk := h.scheduled.deleteSema hr
  unfold Kernel.deleteSema at hr
  unfold Semas.deleted
  split at hr
  · rename_i hno
    cases hr
    rw [h.count_eq_none hno]
    exact ⟨L, σ, ⟨rfl, rfl⟩, h⟩
  rename_i hal
  rw [not_not] at hal
  rw [h.count_eq_some hal]
  rw [if_pos hal] at hk
  obtain ⟨s₁, hs₁, -, hh⟩ := h.scheduled.releaseWaiters hal (h.linked.waiting_length_le m)
  rw [hs₁, Option.map_some, Option.some.injEq] at hr
  subst hr
  obtain ⟨L', hl', hw⟩ := hk.linked
  refine ⟨L', _, ⟨rfl, rfl⟩, ⟨hl', fun x => ?_, ?_, ?_⟩, ?_, ?_⟩
  · -- the semaphore is out of use, the others are as they were
    show Function.update σ.count m none x = countInUse x ((s₁.releaseSemaphore m).semaphore x)
    rw [Function.update_apply]
    simp only [releaseSemaphore, setSemaphore_semaphore]
    split
    · exact (if_neg fun hc => absurd (show (0 : ℤ) ≤ -1 from hc.2) (by decide)).symm
    · exact h.count_congr hh.count x
  · show Function.update σ.waiting m [] = _
    rw [hw, h.waiting]
  · have hreply : ∀ x, (σ.delete m (toWord (-1))).reply x =
        if x ∈ L.waiting m then some (.cancelled (toWord (-1))) else σ.reply x := by
      intro x
      rw [← h.waiting]
      rfl
    have htold := h.toRefines.reply_handed hh (.cancelled (toWord (-1))) rfl hreply
    exact fun id ρ hρ => htold id ρ hρ
  · exact h.running_of_keeps hk
  · rw [hk.currentThread]
    show (if s.currentThread ∈ σ.waiting m then _ else _) = _
    rw [h.waiting, if_neg, h.current]
    intro hc
    exact h.scheduled.ne_current ((h.linked.waitsOn_of_mem hc).2.1.imp_right .inl) rfl

/-- A wait that is released answers -1. -/
theorem handed_releaseWaitThread (hid : 1 ≤ id ∧ id < kThreads)
    (hst : (s.thread id).state = .wait ∨ (s.thread id).state = .waitSuspend)
    (hr : releaseWaitThread id s = some r) : Handed s r.2 [id] (toWord (-1)) := by
  unfold Kernel.releaseWaitThread at hr
  rw [if_neg (by omega)] at hr
  rcases hst with hst | hst <;> simp only [hst] at hr <;> cases hr
  all_goals
    refine ⟨fun x => by simp, fun x hx => ?_, fun x hx => ?_⟩
    · obtain rfl := List.mem_singleton.mp hx
      simp
    · rw [List.mem_singleton] at hx
      simp [hx]

/-- A release tells a waiter that it was released. -/
theorem Between.releaseWaitThread (h : Between s L σ) (hr : releaseWaitThread id s = some r) :
    ∃ L' σ', σ.direct (.releaseWaitThread id) r.1 σ' ∧ Between r.2 L' σ' := by
  have hk := h.scheduled.releaseWaitThread hr
  unfold Semas.direct
  dsimp only
  by_cases hrange : id < 1 ∨ kThreads ≤ id
  · simp only [Kernel.releaseWaitThread, if_pos hrange] at hr
    cases hr
    refine ⟨L, σ, ?_, h⟩
    rw [if_pos hrange]
  by_cases hst : (s.thread id).state = .wait ∨ (s.thread id).state = .waitSuspend
  · have hh := handed_releaseWaitThread ⟨by omega, by omega⟩ hst hr
    have hcur : s.currentThread ≠ id := h.scheduled.ne_current (hst.imp_right .inl)
    have hk : Keeps s r.2 (L.without id) := by
      refine hk.resolve_left fun heq => ?_
      have := (hh.handed id (List.mem_singleton_self id)).1
      rw [heq] at this
      rcases hst with hst | hst <;> simp [hst] at this
    by_cases hw : σ.waits id
    · -- on a semaphore
      obtain ⟨L', hb⟩ : ∃ L', Between r.2 L'
          ((σ.leave id).setReply id (some (.cancelled (toWord (-1))))) :=
        h.handed hk hh (.cancelled (toWord (-1))) rfl (by simpa using hcur) rfl
          (by rw [Semas.setReply_waiting, Semas.leave, h.waiting]; rfl)
          fun x => by rw [Semas.setReply_reply]; simp only [List.mem_singleton]; rfl
      refine ⟨L', _, ?_, hb⟩
      rw [if_neg hrange]
      exact .inl ⟨hw, rfl⟩
    · -- asleep
      have hwithout : L.without id = L.waiting := by
        refine h.linked.without_eq_self fun m hm => hw ?_
        exact h.waits_iff.mpr ⟨by omega, m, hm⟩
      rw [hwithout] at hk
      obtain ⟨L', hb⟩ := h.quiet_of_keeps hk (quiet_of_others (i := id) hh.count
        (by rcases hst with hst | hst <;> simp [Parked, hst])
        (fun x hx => (hh.others x (by simpa using hx)).1)
        fun x hx => (hh.others x (by simpa using hx)).2)
      refine ⟨L', σ, ?_, hb⟩
      rw [if_neg hrange]
      exact .inr ⟨hw, rfl⟩
  · rw [not_or] at hst
    have hself : r.2 = s := by
      unfold Kernel.releaseWaitThread at hr
      rw [if_neg hrange] at hr
      cases hs : (s.thread id).state with
      | wait => exact absurd hs hst.1
      | waitSuspend => exact absurd hs hst.2
      | _ =>
        simp only [hs] at hr
        cases hr
        rfl
    refine ⟨L, σ, ?_, hself ▸ h⟩
    rw [if_neg hrange]
    exact .inr ⟨h.not_waits hst, rfl⟩

/-- A thread's end takes it off the abstract waiters. -/
theorem Between.terminateThread (h : Between s L σ) (hr : terminateThread id s = some r) :
    ∃ L' σ', σ.direct (.terminateThread id) r.1 σ' ∧ Between r.2 L' σ' := by
  have hk := h.scheduled.terminateThread hr
  unfold Semas.direct
  dsimp only
  unfold Kernel.terminateThread at hr
  by_cases hrange : id < 1 ∨ kThreads ≤ id
  · rw [if_pos hrange] at hr
    cases hr
    refine ⟨L, σ, ?_, h⟩
    rw [if_pos hrange]
  rw [if_neg hrange] at hr
  simp only [if_neg hrange]
  split at hr
  · -- not in use: there is nothing to forget
    rename_i hst
    cases hr
    have hno : ¬σ.waits id := h.not_waits (by rcases hst with hst | hst <;> simp [hst])
    have hreply : σ.reply id = none :=
      h.reply_eq_none (by rcases hst with hst | hst <;> simp [Parked, hst])
    refine ⟨L, σ, ?_, h⟩
    rw [Semas.leave_eq_self hno, Semas.setReply_eq_self hreply]
  · rename_i hst
    cases hr
    obtain ⟨⟨L', hl', hw⟩, hcur, hcurst⟩ := hk.resolve_left fun heq => hst (.inr (by
      rw [← heq]
      simp))
    refine ⟨L', _, rfl, ⟨hl', fun m => ?_, ?_, fun x ρ hρ => ?_⟩, ?_, ?_⟩
    · exact h.count_congr (fun m => by simp) m
    · rw [hw, Semas.setReply_waiting, Semas.leave, h.waiting]
      rfl
    · rw [Semas.setReply_reply] at hρ
      split at hρ
      · cases hρ
      · rename_i hx
        obtain ⟨hp, hf⟩ := h.reply x ρ hρ
        unfold Parked at hp ⊢
        rw [resetToDormant_frame _ _ _ hx, detach_frame]
        refine ⟨?_, hf⟩
        simpa [hx] using hp
    · have hrun := h.running
      unfold Running runnable at hrun ⊢
      rw [hcurst]
      split
      · exact .inr (.inr rfl)
      · exact hrun
    · rw [hcur, Semas.setReply_reply]
      split
      · rfl
      · exact h.current

/-- The semaphore a call signals. -/
def DirectCall.signals : DirectCall → Option ℕ
  | .signalSema m => some m
  | _ => none

/-- The domain of the counts: a signal leaves fewer than `2 ^ 31` unclaimed. -/
def DirectCall.countable (s : State) (c : DirectCall) : Prop :=
  ∀ m ∈ c.signals, (s.semaphore m).count + 1 < 2 ^ 31

instance (s : State) : DecidablePred (DirectCall.countable s) := fun c =>
  inferInstanceAs (Decidable (∀ m ∈ c.signals, _))

/-- **A direct-form call does to the semaphores what it is for.** -/
theorem Between.direct {c : DirectCall} (h : Between s L σ) (hc : c.inRange)
    (hn : c.countable s) (hr : c.run s = some r) :
    ∃ L' σ', σ.direct c r.1 σ' ∧ Between r.2 L' σ' := by
  have hs := h.scheduled
  have hquiet : Keeps s r.2 L.waiting → Quiet s r.2 → ∃ L' σ', σ' = σ ∧ Between r.2 L' σ' :=
    fun hk hq => by
      obtain ⟨L', hb⟩ := h.quiet_of_keeps hk hq
      exact ⟨L', σ, rfl, hb⟩
  cases c with
  | createThread p =>
    exact hquiet (hs.createThread (lt_trans (hc _ rfl) (by decide)) hr)
      (quiet_createThread (fun hne => (h.linked.freeThread_mem hne).2) hr)
  | deleteThread id => exact hquiet (hs.deleteThread hr) (quiet_deleteThread hr)
  | terminateThread id => exact h.terminateThread hr
  | changeThreadPriority id priority =>
    exact hquiet (hs.changeThreadPriority hr) (quiet_changeThreadPriority hr)
  | rotateReadyQueue priority => exact hquiet (hs.rotateReadyQueue hr) (quiet_rotateReadyQueue hr)
  | releaseWaitThread id => exact h.releaseWaitThread hr
  | getThreadId | referThreadStatus | referSemaStatus =>
    cases hr
    exact ⟨L, σ, rfl, h⟩
  | wakeupThread id => exact hquiet (hs.wakeupThread hr) (quiet_wakeupThread hr)
  | cancelWakeupThread id => exact hquiet (hs.cancelWakeupThread hr) (quiet_cancelWakeupThread hr)
  | suspendThread id =>
    rcases hs.suspendThread hr with he | ⟨hl, hcur, hst⟩
    · exact ⟨L, σ, rfl, he ▸ h⟩
    · have hrun : Running r.2 := by
        have hrun := h.running
        unfold Running runnable at hrun ⊢
        rw [hst]
        split
        · exact .inr (.inl rfl)
        · exact hrun
      obtain ⟨L', hb⟩ := h.quiet hl hcur hrun (quiet_suspendThread hr)
      exact ⟨L', σ, rfl, hb⟩
  | resumeThread id => exact hquiet (hs.resumeThread hr) (quiet_resumeThread hr)
  | createSema p => exact h.createSema hr
  | deleteSema id => exact h.deleteSema hr
  | signalSema id => exact h.signalSema (hn id rfl) hr
  | pollSema id => exact h.pollSema hr

end Direct

end PS2Bios.Kernel
