import PS2Bios.Kernel.Calls

/-!
# The EE kernel's switch keeps the queues

`Resumed s L r id` describes a switch: from a parked state `s` with queues `L`, the thread `id`
at the head of the lowest non-empty ready queue is brought in, and finds what its frame says in
`$v0`. Every rescheduling call ends this way, and so does an interrupt's exit.

`yield` and `block` need something of their caller. To yield it must be runnable, because it is
marked ready without being linked anywhere. To block it must be linked too, or its ready queue
must be empty, because a record with clear links takes all of its queue with it when it is
unlinked (`Intrusive.unlink_cleared`). A caller of slot 0x44 has clear links at that point in
any case, from having been put on the wait list first; so it must be alone in its ready queue
and on the wait list.
-/

namespace PS2Bios.Kernel

open Intrusive State

/-- The state after a switch. -/
structure Resumed (s : State) (L : Lists) (r : ℕ × State) (id : ℕ) : Prop where
  linked : Linked r.2 L none
  currentThread : r.2.currentThread = id
  head : ∃ queue xs, L.queued (.ready queue) = id :: xs ∧
    ∀ queue', L.queued (.ready queue') ≠ [] → queue ≤ queue'
  answer : r.1 = s.frame id kSlotV0
  frame : r.2.frame = s.frame
  semaphore : r.2.semaphore = s.semaphore
  state : ∀ x, (r.2.thread x).state = if x = id then .run else (s.thread x).state

section Switch

variable {s : State} {L : Lists} {id m : ℕ}

/-- The pick is the head of the lowest non-empty ready queue. -/
theorem Linked.pickNext (h : Linked s L none) {r : ℕ × State} (hr : s.pickNext = some r) :
    ∃ queue xs, L.queued (.ready queue) = r.1 :: xs ∧
      (∀ queue', L.queued (.ready queue') ≠ [] → queue ≤ queue') ∧
      r.2 = { s with lowestReady := queue } := by
  unfold State.pickNext at hr
  split at hr
  · rename_i queue hf
    cases hr
    obtain ⟨hne, hmem, hmin⟩ := List.find?_range'_eq_some.mp hf
    rw [List.mem_range'_1] at hmem
    have hq : ∀ queue < kQueues, IsQueue kNone s.links (s.readyQueue queue)
        (L.queued (.ready queue)) := fun queue hq => h.family.queue (.ready queue) hq
    have hlt : queue < kQueues := by omega
    have hhead := (hq queue hlt).head
    cases hl : L.queued (.ready queue) with
    | nil =>
      have := (hq queue hlt).head_eq_nil_iff.mpr hl
      simp [this] at hne
    | cons x xs =>
      rw [hl] at hhead
      refine ⟨queue, xs, by rw [hl]; exact congrArg (· :: xs) hhead.symm, fun queue' hne' => ?_,
        rfl⟩
      by_contra hc
      have hlow := h.lowest queue' hne'
      have hempty := hmin queue' hlow (by omega)
      have hhead' : (s.readyQueue queue').head = kNone := by simpa using hempty
      exact hne' ((hq queue' (by omega)).head_eq_nil_iff.mp hhead')
  · cases hr

/-- A runnable thread may be brought in. -/
theorem Linked.bringIn (h : Linked s L none) (hid : id < kThreads)
    (hr : runnable (s.thread id)) :
    Linked ({ s with currentThread := id }.setThread id fun t => { t with state := .run })
      L none := by
  refine (h.currentThread hid).setThread _ (.inr fun p => ?_) (.inr ?_) fun hid =>
    h.priorities id hid
  · rcases hr with hr | hr <;> cases p <;> simp [belongs, runnable, waitsOn, queueOf, hr]
  · rcases hr with hr | hr <;> simp [hr]

/-- The next thread is taken off its queue and is the current one. -/
theorem Linked.resumeNext (h : Linked s L none) {r : ℕ × State} (hr : s.resumeNext = some r) :
    ∃ id, Resumed s L r id := by
  unfold State.resumeNext at hr
  obtain ⟨⟨id, s₁⟩, hpick, rfl⟩ := Option.map_eq_some_iff.mp hr
  obtain ⟨queue, xs, hl, hmin, rfl⟩ := h.pickNext hpick
  have hm : id ∈ L.queued (.ready queue) := by
    rw [hl]
    exact List.mem_cons_self
  obtain ⟨-, hid, hrun, -⟩ := (h.mem_iff id _).mp hm
  refine ⟨id, ⟨?_, rfl, ⟨queue, xs, hl, hmin⟩, rfl, rfl, rfl, fun x => ?_⟩⟩
  · exact ((h.lowestReady queue hmin).bringIn hid hrun).registers _ _ _ _ _ _
  · simp only [State.resume, setThread_thread]
    split <;> rfl

/-- The thread a switch brings in was runnable. -/
theorem Resumed.runnable {r : ℕ × State} (h : Resumed s L r id) (hs : Linked s L none) :
    id < kThreads ∧ runnable (s.thread id) := by
  obtain ⟨queue, xs, hl, -⟩ := h.head
  obtain ⟨-, hid, hrun, -⟩ :=
    (hs.mem_iff id (.ready queue)).mp (by rw [hl]; exact List.mem_cons_self)
  exact ⟨hid, hrun⟩

/-- After a switch the running thread runs. -/
theorem Resumed.scheduled {r : ℕ × State} (h : Resumed s L r id) : Scheduled r.2 L := by
  refine ⟨h.linked, .inl (.inl ?_)⟩
  rw [current, h.currentThread, h.state, if_pos rfl]

/-! ### Yielding -/

/-- What `yield` leaves before the pick. -/
def State.parked (s : State) (answer : ℕ) : State :=
  (s.saveCaller.setResumeValue s.currentThread answer).setThread s.currentThread fun t =>
    { t with state := .ready }

theorem yield_eq (s : State) (answer : ℕ) : s.yield answer = (s.parked answer).resumeNext := rfl

@[simp] theorem parkCurrent_semaphore (b : Block) (pc : ℕ) (i : Bool) :
    (s.parkCurrent b pc i).semaphore = s.semaphore := rfl

/-- Parking the current thread changes nobody's state. -/
theorem parkCurrent_state (b : Block) (pc : ℕ) (i : Bool) (x : ℕ) :
    ((s.parkCurrent b pc i).thread x).state = (s.thread x).state := by
  simp only [parkCurrent, setThread_thread]
  split
  · rename_i hx
    rw [hx]
  · rfl

theorem Linked.parkCurrent (h : Linked s L none) (b : Block) (pc : ℕ) (i : Bool) :
    Linked (s.parkCurrent b pc i) L none :=
  (h.setThread_shape (i := s.currentThread) (fun t =>
    { t with resumePc := pc, context := sub32 (b kSlotSp) kFramePush })
    ⟨rfl, rfl, rfl, rfl, rfl⟩).registers _ _ _ _ _ _

theorem Linked.markReady (h : Linked s L none) (hr : Kernel.runnable (s.thread id)) :
    Linked (s.setThread id fun t => { t with state := .ready }) L none := by
  refine h.setThread _ (.inr fun p => ?_) (.inr ?_) fun hid => h.priorities id hid
  · rcases hr with hr | hr <;> cases p <;> simp [belongs, Kernel.runnable, waitsOn, queueOf, hr]
  · rcases hr with hr | hr <;> simp [hr]

/-- The caller goes back to its queue, its context and answer saved. -/
theorem Linked.parked (h : Linked s L none) (hr : Kernel.runnable s.current) (v : ℕ) :
    Linked (s.parked v) L none := by
  have h₁ := (h.parkCurrent s.syscallContext s.epc false).setResumeValue (i := s.currentThread) v
  refine h₁.markReady ?_
  unfold Kernel.runnable
  rw [setResumeValue_thread, parkCurrent_state]
  exact hr

/-! ### Blocking -/

/-- What `block` leaves before the pick. -/
def State.blocked (s : State) (type : WaitType) (waitId answer : ℕ) : State :=
  ((s.saveCaller.setResumeValue s.currentThread answer).takeOffReadyQueue
    s.currentThread).setThread s.currentThread fun t =>
      { t with state := .wait, waitType := type, waitId := waitId }

theorem block_eq (s : State) (type : WaitType) (waitId answer : ℕ) :
    s.block type waitId answer = (s.blocked type waitId answer).resumeNext := rfl

/-- What a thread must be to leave its ready queue: in it, or the queue is empty. -/
def MayLeave (s : State) : Prop :=
  Kernel.runnable s.current ∨ (s.readyQueue (s.queueOf s.currentThread)).head = kNone

instance (s : State) : Decidable (MayLeave s) := inferInstanceAs (Decidable (_ ∨ _))

/-- Removing what is not there. -/
theorem Lists.remove_of_not_mem {L : Lists} {p : Place} (h : id ∉ L.queued p) :
    L.remove p id = L := by
  unfold Lists.remove
  rw [List.erase_of_not_mem h, Function.update_eq_self]

/-- Unlinking with clear links empties the ready queue. -/
theorem takeOffReadyQueue_cleared {i : ℕ} (hn : s.links.next i = kNone)
    (hp : s.links.prev i = kNone) :
    s.takeOffReadyQueue i =
      { s with readyQueue := Function.update s.readyQueue (s.queueOf i) ⟨kNone, kNone⟩ } := by
  unfold State.takeOffReadyQueue
  rw [unlink_cleared hn hp]

/-- A thread that is in no list has clear links. -/
theorem Scheduled.cleared (h : Scheduled s L) (hr : ¬Kernel.runnable s.current) :
    s.links.next s.currentThread = kNone ∧ s.links.prev s.currentThread = kNone := by
  have hst := h.running.resolve_left hr
  refine h.linked.cleared _ h.linked.current (fun p hm => ?_) fun hm => ?_
  · have hb := ((h.linked.mem_iff _ p).mp hm).2.2
    cases p with
    | ready queue => exact hr hb.1
    | waitList m =>
      obtain ⟨hb | hb, -⟩ := hb <;> rcases hst with hst | hst <;> rw [current, hb] at hst <;>
        cases hst
  · have hb := ((h.linked.mem_free _).mp hm).2.2
    rcases hst with hst | hst <;> rw [current, hb] at hst <;> cases hst

/-- The running thread leaves its ready queue. -/
theorem Scheduled.takeOffCurrent (h : Scheduled s L) (hq : MayLeave s) :
    Linked (s.takeOffReadyQueue s.currentThread)
      (L.remove (.ready (s.queueOf s.currentThread)) s.currentThread) (some s.currentThread) := by
  by_cases hr : Kernel.runnable s.current
  · exact h.linked.takeOffReadyQueue h.linked.current hr
  · have hhead := hq.resolve_left hr
    obtain ⟨hn, hp⟩ := h.cleared hr
    have hon : s.isOn (.ready (s.queueOf s.currentThread)) :=
      queueOf_lt (h.linked.priorities _ h.linked.current).2
    have hqueue : IsQueue kNone s.links (s.readyQueue (s.queueOf s.currentThread))
        (L.queued (.ready (s.queueOf s.currentThread))) := h.linked.family.queue _ hon
    have hnil := hqueue.head_eq_nil_iff.mp hhead
    have hempty : s.readyQueue (s.queueOf s.currentThread) = ⟨kNone, kNone⟩ :=
      (hnil ▸ hqueue).eq_empty
    have hself : s.takeOffReadyQueue s.currentThread = s := by
      rw [takeOffReadyQueue_cleared hn hp, ← hempty, Function.update_eq_self]
    rw [hself, Lists.remove_of_not_mem (by rw [hnil]; exact List.not_mem_nil)]
    exact h.linked.open_of_state rfl (h.running.resolve_left hr)

/-- Parking the caller changes nothing that scheduling looks at. -/
theorem Scheduled.park (h : Scheduled s L) (v : ℕ) :
    Scheduled (s.saveCaller.setResumeValue s.currentThread v) L := by
  refine ⟨(h.linked.parkCurrent _ _ _).setResumeValue _, ?_⟩
  have hst := parkCurrent_state (s := s) s.syscallContext s.epc false s.currentThread
  have hrun := h.running
  unfold Running Kernel.runnable current at hrun ⊢
  rw [← hst] at hrun
  exact hrun

/-- Parking changes nobody's priority. -/
theorem park_queueOf (v x : ℕ) :
    (s.saveCaller.setResumeValue s.currentThread v).queueOf x = s.queueOf x := by
  simp only [queueOf, setResumeValue_thread, saveCaller, State.parkCurrent, setThread_thread]
  split
  · rfl
  · split
    · rename_i hx
      rw [hx]
    · rfl

/-- Whether it may leave is the same after parking. -/
theorem MayLeave.park (h : MayLeave s) (v : ℕ) :
    MayLeave (s.saveCaller.setResumeValue s.currentThread v) := by
  refine h.imp (fun hr => ?_) fun hq => ?_
  · have hst := parkCurrent_state (s := s) s.syscallContext s.epc false s.currentThread
    unfold Kernel.runnable current at hr ⊢
    rw [← hst] at hr
    exact hr
  · have := park_queueOf (s := s) v s.currentThread
    rw [setResumeValue_currentThread]
    rw [show s.saveCaller.currentThread = s.currentThread from rfl, this]
    exact hq

/-- Going to sleep. -/
theorem Scheduled.blocked_sleeping (h : Scheduled s L) (hq : MayLeave s) (v : ℕ) :
    Linked (s.blocked .sleeping 0 v)
      (L.remove (.ready (s.queueOf s.currentThread)) s.currentThread) none := by
  have h₁ := (h.park v).takeOffCurrent (hq.park v)
  have hqueue := park_queueOf (s := s) v s.currentThread
  have h₂ : Linked (s.blocked .sleeping 0 v)
      (L.remove (.ready (s.queueOf s.currentThread)) s.currentThread) (some s.currentThread) := by
    rw [← hqueue]
    exact h₁.setThread_out (fun t => { t with state := .wait, waitType := .sleeping, waitId := 0 })
      fun hid => h₁.priorities _ hid
  have hself : (s.blocked .sleeping 0 v).thread s.currentThread =
      { (s.saveCaller.setResumeValue s.currentThread v).thread s.currentThread with
        state := .wait, waitType := .sleeping, waitId := 0 } := by
    unfold State.blocked
    exact (setThread_thread _ _ _ _).trans (if_pos rfl)
  refine h₂.close ?_ (by simp [hself])
  rintro (queue | m)
  · rintro ⟨hb, -⟩
    rw [hself] at hb
    rcases hb with hb | hb <;> cases hb
  · rintro ⟨-, hb, -⟩
    rw [hself] at hb
    cases hb

/-- What a thread must be to wait on a semaphore: alone in its ready queue, or in none and the
queue empty. -/
def CallerAlone (s : State) : Prop :=
  let queue := s.readyQueue (s.queueOf s.currentThread)
  queue.head = queue.tail ∧ (queue.head = s.currentThread ∨ queue.head = kNone)

instance (s : State) : Decidable (CallerAlone s) := inferInstanceAs (Decidable (_ ∧ _))

/-- A queue whose head is its tail holds one thread or none. -/
theorem Scheduled.cleared_of_alone (h : Scheduled s L) (ha : CallerAlone s) :
    MayLeave s ∧ s.links.next s.currentThread = kNone ∧
      s.links.prev s.currentThread = kNone := by
  have hon : s.isOn (.ready (s.queueOf s.currentThread)) :=
    queueOf_lt (h.linked.priorities _ h.linked.current).2
  have hqueue : IsQueue kNone s.links (s.readyQueue (s.queueOf s.currentThread))
      (L.queued (.ready (s.queueOf s.currentThread))) := h.linked.family.queue _ hon
  by_cases hr : Kernel.runnable s.current
  · refine ⟨.inl hr, ?_⟩
    have hm := h.linked.mem_ready h.linked.current hr
    have hhead := hqueue.head
    have htail := hqueue.tail
    have hnd := hqueue.nodup
    -- the list starts and ends with the caller
    cases hl : L.queued (.ready (s.queueOf s.currentThread)) with
    | nil =>
      rw [hl] at hm
      exact absurd hm List.not_mem_nil
    | cons x xs =>
      rw [hl] at hqueue hhead htail hnd hm
      have hx : (s.readyQueue (s.queueOf s.currentThread)).head = x := hhead
      cases xs with
      | nil =>
        obtain rfl := List.mem_singleton.mp hm
        exact hqueue.cleared_of_singleton
      | cons y ys =>
        have hlast : (y :: ys).getLastD x ∈ y :: ys :=
          getLastD_mem_or.resolve_right (List.cons_ne_nil y ys)
        have heq : (y :: ys).getLastD x = x := by
          rw [← hx, ha.1, htail]
          rfl
        rw [heq] at hlast
        exact absurd hlast (List.nodup_cons.mp hnd).1
  · have hhead := ha.2
    refine ⟨.inr (hhead.resolve_left fun heq => ?_), h.cleared hr⟩
    have hne : L.queued (.ready (s.queueOf s.currentThread)) ≠ [] := fun hnil => by
      rw [hqueue.head_eq_nil_iff.mpr hnil] at heq
      exact ne_kNone_of_lt h.linked.current heq.symm
    have hm : s.currentThread ∈ L.queued (.ready (s.queueOf s.currentThread)) := by
      cases hl : L.queued (.ready (s.queueOf s.currentThread)) with
      | nil => exact absurd hl hne
      | cons x xs =>
        rw [← heq, hqueue.head, hl]
        exact List.mem_cons_self
    exact hr ((h.linked.mem_iff _ (.ready _)).mp hm).2.2.1

/-- The state slot 0x44 blocks in: on the wait list already. -/
def State.enlisted (s : State) (m : ℕ) : State :=
  let x := s.semaphore m
  let r := enqueue kNone s.links ⟨x.waitHead, x.waitTail⟩ s.currentThread
  { s with links := r.1 }.setSemaphore m fun x =>
    { x with waitHead := r.2.head, waitTail := r.2.tail, waitCount := add32 x.waitCount 1 }

/-- Waiting on a semaphore nobody waits on, alone in one's ready queue. -/
theorem Scheduled.blocked_onSemaphore (h : Scheduled s L) (ha : CallerAlone s)
    (hm : allocated s m) (hnil : (s.semaphore m).waitHead = kNone) (v : ℕ) :
    Linked ((s.enlisted m).blocked .onSemaphore m v)
      ((L.remove (.ready (s.queueOf s.currentThread)) s.currentThread).append (.waitList m)
        s.currentThread) none := by
  obtain ⟨hq, hnext, hprev⟩ := h.cleared_of_alone ha
  have hw := h.linked.waiting_eq_nil hm hnil
  have hlist : IsQueue kNone s.links ⟨(s.semaphore m).waitHead, (s.semaphore m).waitTail⟩
      (L.waiting m) := h.linked.family.queue (.waitList m) hm
  have hempty := (hw ▸ hlist).eq_empty
  have hcount : (s.semaphore m).waitCount = 0 := by
    rw [h.linked.waitCount m hm]
    exact congrArg List.length hw
  -- in the right order: off the ready queue, and then onto the wait list
  set t := ((s.saveCaller.setResumeValue s.currentThread v).takeOffReadyQueue
    s.currentThread).setThread s.currentThread fun t =>
      { t with state := .wait, waitType := .onSemaphore, waitId := m } with ht
  have h₁ : Linked t (L.remove (.ready (s.queueOf s.currentThread)) s.currentThread)
      (some s.currentThread) := by
    have h₀ := (h.park v).takeOffCurrent (hq.park v)
    rw [← park_queueOf (s := s) v s.currentThread]
    exact h₀.setThread_out
      (fun t => { t with state := .wait, waitType := .onSemaphore, waitId := m })
      fun hid => h₀.priorities _ hid
  have hself : t.thread s.currentThread =
      { (s.saveCaller.setResumeValue s.currentThread v).thread s.currentThread with
        state := .wait, waitType := .onSemaphore, waitId := m } :=
    (setThread_thread _ _ _ _).trans (if_pos rfl)
  have hb : t.belongs s.currentThread (.waitList m) := by
    refine ⟨?_, ?_, ?_⟩ <;> rw [hself]
    exact .inl rfl
  have hlen : 1 = ((L.remove (.ready (s.queueOf s.currentThread)) s.currentThread).queued
      (.waitList m)).length + 1 := by
    have hl : L.queued (.waitList m) = [] := hw
    rw [Lists.remove_queued, if_neg (by simp), hl]
    rfl
  have h₂ := h₁.enqueue (n := 1) h.linked.current (p := .waitList m) hm hb (by rintro _ ⟨⟩)
    (fun _ _ => hlen)
  -- the links are clear, so the order the code takes writes the same
  have htake := takeOffReadyQueue_cleared (i := s.currentThread)
    (s := s.saveCaller.setResumeValue s.currentThread v) hnext hprev
  have hlinks : t.links = s.links := by
    rw [ht, htake]
    rfl
  have hat : t.queueAt (.waitList m) = ⟨kNone, kNone⟩ := hempty
  rw [hlinks, hat, enqueue_cleared hnext hprev] at h₂
  have henlisted : s.enlisted m =
      s.setQueue (.waitList m) (s.links, ⟨s.currentThread, s.currentThread⟩) 1 := by
    unfold State.enlisted State.setQueue
    dsimp only
    rw [hempty, enqueue_cleared hnext hprev]
    simp only [setSemaphore, hcount]
    rfl
  rw [ht, htake] at h₂
  rw [henlisted]
  unfold State.blocked
  rw [setQueue_currentThread, takeOffReadyQueue_cleared (s := (s.setQueue (.waitList m) (s.links,
    ⟨s.currentThread, s.currentThread⟩) 1).saveCaller.setResumeValue s.currentThread v) hnext hprev]
  exact h₂

/-! ### The interrupt's exit -/

/-- What the interrupt exit leaves before the pick. -/
def State.interrupted (s : State) (frame : Block) : State :=
  ({ s with rescheduleRequested := false }.parkCurrent frame (frame 0) true).setThread
    s.currentThread fun t => { t with state := .ready }

/-- The interrupted thread goes back to its queue, its frame saved. -/
theorem Linked.interrupted (h : Linked s L none) (hr : Kernel.runnable s.current)
    (frame : Block) : Linked (s.interrupted frame) L none := by
  refine ((h.registers false _ _ _ _ _).parkCurrent frame (frame 0) true).markReady ?_
  unfold Kernel.runnable
  rw [parkCurrent_state]
  exact hr

/-- The interrupt exit does nothing, or switches like a call does. -/
theorem Linked.interruptReschedule (h : Linked s L none) {frame : Block}
    (hr : s.rescheduleRequested = true → Kernel.runnable s.current) {r : Option Block × State}
    (he : s.interruptReschedule frame = some r) :
    (s.rescheduleRequested = false ∧ r = (none, s)) ∨
      (s.rescheduleRequested = true ∧
        ∃ id, Resumed (s.interrupted frame) L (r.1.getD frame kSlotV0, r.2) id) := by
  unfold State.interruptReschedule at he
  split at he
  · rename_i hno
    cases he
    exact .inl ⟨hno, rfl⟩
  · rename_i hyes
    rw [Bool.not_eq_false] at hyes
    right
    refine ⟨hyes, ?_⟩
    have hl := h.interrupted (hr hyes) frame
    obtain ⟨⟨id, s₁⟩, hpick, rfl⟩ := Option.map_eq_some_iff.mp he
    obtain ⟨queue, xs, hlist, hmin, rfl⟩ := hl.pickNext hpick
    have hm : id ∈ L.queued (.ready queue) := by
      rw [hlist]
      exact List.mem_cons_self
    obtain ⟨-, hid, hrun, -⟩ := (hl.mem_iff id _).mp hm
    refine ⟨id, ⟨?_, rfl, ⟨queue, xs, hlist, hmin⟩, rfl, rfl, rfl, fun x => ?_⟩⟩
    · exact (hl.lowestReady queue hmin).bringIn hid hrun
    · simp only [setThread_thread]
      split <;> rfl

end Switch

end PS2Bios.Kernel
