import PS2Bios.Library.QueueFamily
import PS2Bios.Kernel.Semaphore

/-!
# The EE kernel's queues: the invariant and its primitives

A thread record is linked, by its one pair of link fields, in a ready queue, in a semaphore's
wait list, or nowhere; by its `next` field alone it can be on the free list. Which of these it
must be in is read off the record (`State.belongs`), and `Linked s L out` says that it is: the
queues of `s` are the lists `L`, and each holds exactly the threads that belong in it.

A call takes a thread out of one queue, writes its record and puts it into another, and between
these writes the thread is nowhere. `out` names that thread. So each call is a chain of the
primitives below: `Linked.unlink` opens with `out = some id`, `Linked.setThread_out` writes the
record, `Linked.enqueue`, `Linked.giveBack` or `Linked.close` ends with `out = none`.
-/

namespace PS2Bios.Kernel

open Intrusive State

/-- Where a thread can be linked by both fields. -/
inductive Place
  | ready (queue : ℕ)
  | waitList (sema : ℕ)
  deriving DecidableEq

/-- The head and tail words of a place. -/
def State.queueAt (s : State) : Place → Queue ℕ
  | .ready queue => s.readyQueue queue
  | .waitList sema => ⟨(s.semaphore sema).waitHead, (s.semaphore sema).waitTail⟩

/-- The places that exist. -/
def State.isOn (s : State) : Place → Prop
  | .ready queue => queue < kQueues
  | .waitList sema => allocated s sema

/-- The thread may run: it is the running one, or ready. -/
def runnable (t : ThreadRecord) : Prop := t.state = .run ∨ t.state = .ready

instance (t : ThreadRecord) : Decidable (runnable t) := inferInstanceAs (Decidable (_ ∨ _))

/-- The thread waits on the semaphore, suspended or not. -/
def waitsOn (t : ThreadRecord) (sema : ℕ) : Prop :=
  (t.state = .wait ∨ t.state = .waitSuspend) ∧ t.waitType = .onSemaphore ∧ t.waitId = sema

/-- Where a thread has to be, by its record. -/
def State.belongs (s : State) (id : ℕ) : Place → Prop
  | .ready queue => runnable (s.thread id) ∧ s.queueOf id = queue
  | .waitList sema => waitsOn (s.thread id) sema

/-- The contents of the queues and of the two free lists. -/
structure Lists where
  queued : Place → List ℕ
  free : List ℕ
  freeSema : List ℕ

/-- A thread goes behind the others of a queue. -/
def Lists.append (L : Lists) (p : Place) (id : ℕ) : Lists :=
  { L with queued := Function.update L.queued p (L.queued p ++ [id]) }

/-- A thread leaves a queue. -/
def Lists.remove (L : Lists) (p : Place) (id : ℕ) : Lists :=
  { L with queued := Function.update L.queued p ((L.queued p).erase id) }

theorem Lists.append_queued (L : Lists) (p p' : Place) (id : ℕ) :
    (L.append p id).queued p' = if p' = p then L.queued p ++ [id] else L.queued p' := by
  simp [append, Function.update_apply]

theorem Lists.remove_queued (L : Lists) (p p' : Place) (id : ℕ) :
    (L.remove p id).queued p' = if p' = p then (L.queued p).erase id else L.queued p' := by
  simp [remove, Function.update_apply]

/-- The queues of `s` are the lists `L`, and hold what belongs in them; the thread `out` is
nowhere at the moment. -/
structure Linked (s : State) (L : Lists) (out : Option ℕ) : Prop where
  family : Family kNone s.links s.queueAt s.isOn L.queued
  mem_iff : ∀ id p, id ∈ L.queued p ↔ some id ≠ out ∧ id < kThreads ∧ s.belongs id p
  cleared : ∀ id < kThreads, (∀ p, id ∉ L.queued p) → id ∉ L.free →
    s.links.next id = kNone ∧ s.links.prev id = kNone
  waitCount : ∀ m, allocated s m → (s.semaphore m).waitCount = (L.queued (.waitList m)).length
  freeChain : Chain kNone s.links.next s.freeThread L.free
  freeNodup : L.free.Nodup
  mem_free : ∀ id, id ∈ L.free ↔ some id ≠ out ∧ id < kThreads ∧ (s.thread id).state = .free
  semaChain : Chain kNone (fun m => (s.semaphore m).nextFree) s.freeSemaphore L.freeSema
  semaNodup : L.freeSema.Nodup
  semaFree : ∀ m ∈ L.freeSema, m < kSemaphores ∧ (s.semaphore m).count < 0
  lowest : ∀ queue, L.queued (.ready queue) ≠ [] → s.lowestReady ≤ queue
  priorities : ∀ id < kThreads, (s.thread id).initialPriority < kPriorities ∧
    (s.thread id).currentPriority < kPriorities
  current : s.currentThread < kThreads

section Belongs

variable {s : State} {id : ℕ} {p p' : Place}

/-- A record says one place at most. -/
theorem belongs_unique (h : s.belongs id p) (h' : s.belongs id p') : p = p' := by
  cases p <;> cases p'
  · rw [← h.2, ← h'.2]
  · obtain ⟨h | h, -⟩ := h <;> obtain ⟨h' | h', -⟩ := h' <;> simp [h] at h'
  · obtain ⟨h | h, -⟩ := h <;> obtain ⟨h' | h', -⟩ := h' <;> simp [h] at h'
  · rw [← h.2.2, ← h'.2.2]

/-- A free record belongs nowhere. -/
theorem not_belongs_of_free (h : (s.thread id).state = .free) : ¬s.belongs id p := by
  intro hb
  cases p <;> obtain ⟨hb | hb, -⟩ := hb <;> simp [h] at hb

/-- The queue of a thread whose priority is in range exists. -/
theorem queueOf_lt (h : (s.thread id).currentPriority < kPriorities) : s.queueOf id < kQueues := by
  unfold queueOf
  split
  · decide
  · exact h.trans (by decide)

end Belongs

/-- Write the links and one queue; a wait list keeps its count beside it. -/
def State.setQueue (s : State) (p : Place) (r : Links ℕ × Queue ℕ) (count : ℕ) : State :=
  match p with
  | .ready queue =>
    { s with links := r.1, readyQueue := Function.update s.readyQueue queue r.2 }
  | .waitList sema =>
    { s with links := r.1 }.setSemaphore sema fun m =>
      { m with waitHead := r.2.head, waitTail := r.2.tail, waitCount := count }

section SetQueue

variable (s : State) (p : Place) (r : Links ℕ × Queue ℕ) (n : ℕ)

@[simp] theorem setQueue_links : (s.setQueue p r n).links = r.1 := by cases p <;> rfl
@[simp] theorem setQueue_thread : (s.setQueue p r n).thread = s.thread := by cases p <;> rfl
@[simp] theorem setQueue_freeThread : (s.setQueue p r n).freeThread = s.freeThread := by
  cases p <;> rfl
@[simp] theorem setQueue_freeSemaphore : (s.setQueue p r n).freeSemaphore = s.freeSemaphore := by
  cases p <;> rfl
@[simp] theorem setQueue_lowestReady : (s.setQueue p r n).lowestReady = s.lowestReady := by
  cases p <;> rfl
@[simp] theorem setQueue_currentThread : (s.setQueue p r n).currentThread = s.currentThread := by
  cases p <;> rfl
@[simp] theorem setQueue_frame : (s.setQueue p r n).frame = s.frame := by cases p <;> rfl

/-- Storing a queue changes no semaphore's count. -/
@[simp] theorem setQueue_count (m : ℕ) :
    ((s.setQueue p r n).semaphore m).count = (s.semaphore m).count := by
  cases p with
  | ready queue => rfl
  | waitList sema =>
    simp only [setQueue, setSemaphore_semaphore]
    split
    · rename_i hm
      rw [hm]
    · rfl

/-- Storing a queue changes no link of the free semaphores. -/
@[simp] theorem setQueue_nextFree (m : ℕ) :
    ((s.setQueue p r n).semaphore m).nextFree = (s.semaphore m).nextFree := by
  cases p with
  | ready queue => rfl
  | waitList sema =>
    simp only [setQueue, setSemaphore_semaphore]
    split
    · rename_i hm
      rw [hm]
    · rfl

/-- The number of waiters is stored with their list. -/
theorem setQueue_waitCount (m : ℕ) :
    ((s.setQueue p r n).semaphore m).waitCount =
      if p = .waitList m then n else (s.semaphore m).waitCount := by
  cases p with
  | ready queue => simp [setQueue]
  | waitList sema =>
    simp only [setQueue, setSemaphore_semaphore, Place.waitList.injEq, @eq_comm _ m sema]
    split <;> rfl

@[simp] theorem setQueue_allocated (m : ℕ) : allocated (s.setQueue p r n) m ↔ allocated s m := by
  simp [allocated]

@[simp] theorem setQueue_isOn (p' : Place) : (s.setQueue p r n).isOn p' ↔ s.isOn p' := by
  cases p' <;> simp [isOn]

@[simp] theorem setQueue_belongs (id : ℕ) (p' : Place) :
    (s.setQueue p r n).belongs id p' ↔ s.belongs id p' := by
  cases p' <;> simp [belongs, queueOf]

/-- Storing a queue changes no other one. -/
theorem setQueue_queueAt (p' : Place) :
    (s.setQueue p r n).queueAt p' = if p' = p then r.2 else s.queueAt p' := by
  cases p with
  | ready queue =>
    cases p' with
    | ready queue' =>
      simp only [queueAt, setQueue, Function.update_apply, Place.ready.injEq]
    | waitList sema' => simp [queueAt, setQueue]
  | waitList sema =>
    cases p' with
    | ready queue' => simp [queueAt, setQueue]
    | waitList sema' =>
      simp only [queueAt, setQueue, setSemaphore_semaphore, Place.waitList.injEq]
      split <;> rfl

end SetQueue

section Primitives

variable {s : State} {L : Lists} {out : Option ℕ} {id n : ℕ} {p : Place}

/-- A thread in a queue is a thread of the table. -/
theorem Linked.lt_of_mem (h : Linked s L out) (hx : id ∈ L.queued p) : id < kThreads :=
  ((h.mem_iff id p).mp hx).2.1

/-- The table is smaller than the sentinel. -/
theorem ne_kNone_of_lt {x : ℕ} (h : x < kThreads) : x ≠ kNone := by
  rintro rfl
  exact absurd h (by decide)

/-- A linked thread is not on the free list. -/
theorem Linked.not_mem_free (h : Linked s L out) (hx : id ∈ L.queued p) : id ∉ L.free := by
  intro hf
  exact not_belongs_of_free ((h.mem_free id).mp hf).2.2 ((h.mem_iff id p).mp hx).2.2

/-- **Take a thread out of the queue it is in.** -/
theorem Linked.unlink (h : Linked s L none) (hx : id ∈ L.queued p)
    (hn : ∀ m, p = .waitList m → n = (L.queued p).length - 1) :
    Linked (s.setQueue p (unlink kNone s.links (s.queueAt p) id) n) (L.remove p id) (some id) where
  family := by
    have hf := h.family.unlink (r := (s.setQueue p (Intrusive.unlink kNone s.links (s.queueAt p)
      id) n).queueAt) hx (by rw [setQueue_queueAt, if_pos rfl])
      (fun p' hp' => by rw [setQueue_queueAt, if_neg hp'])
    rw [setQueue_links]
    exact hf.turn (fun p' hp' hno => absurd ((setQueue_isOn s p _ n p').mp hp') hno)
      (fun p' hp' hno => absurd ((setQueue_isOn s p _ n p').mpr hp') hno)
  mem_iff x p' := by
    rw [Lists.remove_queued, setQueue_belongs]
    have hnd := (h.family.queue p (h.family.on_of_mem hx)).nodup
    rcases eq_or_ne x id with rfl | hxid
    · -- the thread itself is in no list any more
      have hno : x ∉ L.queued p' ∨ p' = p := by
        by_contra hc
        rw [not_or, not_not] at hc
        exact hc.2 (h.family.disjoint p' p x hc.1 hx)
      simp only [ne_eq, not_true_eq_false, false_and, iff_false]
      split
      · exact fun hm => absurd rfl (hnd.mem_erase_iff.mp hm).1
      · rename_i hp'
        exact hno.resolve_right hp'
    · have hiff := h.mem_iff x p'
      simp only [ne_eq, reduceCtorEq, not_false_eq_true, true_and] at hiff
      simp only [ne_eq, Option.some.injEq, hxid, not_false_eq_true, true_and]
      split
      · rename_i hp'
        rw [hp'] at hiff ⊢
        rw [hnd.mem_erase_iff, ← hiff]
        simp [hxid]
      · exact hiff
  cleared x hx' hno hfree := by
    rw [setQueue_links]
    rcases eq_or_ne x id with rfl | hxid
    · exact unlink_self s.links _ _
    · have hxp : x ∉ L.queued p := by
        have := hno p
        rw [Lists.remove_queued, if_pos rfl] at this
        exact fun hm => this ((List.mem_erase_of_ne hxid).mpr hm)
      rw [(h.family.unlink_frame hx hxp).1, (h.family.unlink_frame hx hxp).2]
      refine h.cleared x hx' (fun p' hm => ?_) hfree
      have := hno p'
      rw [Lists.remove_queued] at this
      split at this
      · rename_i hp'
        exact hxp (hp' ▸ hm)
      · exact this hm
  waitCount m hm := by
    rw [setQueue_waitCount, Lists.remove_queued]
    split
    · rename_i hp
      rw [if_pos hp.symm, hn m hp, List.length_erase_of_mem hx]
    · rename_i hp
      rw [if_neg (Ne.symm hp)]
      exact h.waitCount m ((setQueue_allocated s p _ n m).mp hm)
  freeChain := by
    rw [setQueue_links, setQueue_freeThread]
    refine h.freeChain.congr fun y hy => (h.family.unlink_frame hx ?_).1
    exact fun hm => h.not_mem_free hm hy
  freeNodup := h.freeNodup
  mem_free x := by
    rw [setQueue_thread]
    refine (h.mem_free x).trans ?_
    constructor
    · rintro ⟨-, hx', hst⟩
      refine ⟨?_, hx', hst⟩
      rintro ⟨⟩
      exact not_belongs_of_free hst ((h.mem_iff _ p).mp hx).2.2
    · rintro ⟨-, hx', hst⟩
      exact ⟨by simp, hx', hst⟩
  semaChain := by
    simp only [setQueue_nextFree, setQueue_freeSemaphore]
    exact h.semaChain
  semaNodup := h.semaNodup
  semaFree m hm := by
    rw [setQueue_count]
    exact h.semaFree m hm
  lowest queue hne := by
    rw [setQueue_lowestReady]
    refine h.lowest queue fun hnil => hne ?_
    rw [Lists.remove_queued]
    split
    · rename_i hp
      rw [← hp, hnil]
      rfl
    · exact hnil
  priorities x hx' := by
    rw [setQueue_thread]
    exact h.priorities x hx'
  current := by
    rw [setQueue_currentThread]
    exact h.current

/-- **Put the thread that is out into the queue it belongs in.** -/
theorem Linked.enqueue (h : Linked s L (some id)) (hid : id < kThreads) (hon : s.isOn p)
    (hb : s.belongs id p) (hlow : ∀ queue, p = .ready queue → s.lowestReady ≤ queue)
    (hn : ∀ m, p = .waitList m → n = (L.queued p).length + 1) :
    Linked (s.setQueue p (enqueue kNone s.links (s.queueAt p) id) n) (L.append p id) none := by
  -- it is in no queue yet, so only the queue it enters changes
  have hout : ∀ p', id ∉ L.queued p' := fun p' hm => ((h.mem_iff id p').mp hm).1 rfl
  refine
    { family := ?_
      mem_iff := fun x p' => ?_
      cleared := fun x hx' hno hfree => ?_
      waitCount := fun m hm => ?_
      freeChain := ?_
      freeNodup := h.freeNodup
      mem_free := fun x => ?_
      semaChain := ?_
      semaNodup := h.semaNodup
      semaFree := fun m hm => ?_
      lowest := fun queue hne => ?_
      priorities := fun x hx' => ?_
      current := ?_ }
  -- the other queues stay as they are linked
  · have hf := h.family.enqueue (r := (s.setQueue p (Intrusive.enqueue kNone s.links
      (s.queueAt p) id) n).queueAt) hon hout (ne_kNone_of_lt hid)
      (by rw [setQueue_queueAt, if_pos rfl]) (fun p' hp' => by rw [setQueue_queueAt, if_neg hp'])
    rw [setQueue_links]
    exact hf.turn (fun p' hp' hno => absurd ((setQueue_isOn s p _ n p').mp hp') hno)
      (fun p' hp' hno => absurd ((setQueue_isOn s p _ n p').mpr hp') hno)
  -- who is in which queue
  · rw [Lists.append_queued, setQueue_belongs]
    simp only [ne_eq, reduceCtorEq, not_false_eq_true, true_and]
    rcases eq_or_ne x id with rfl | hxid
    · by_cases hp' : p' = p
      · rw [hp', if_pos rfl]
        exact ⟨fun _ => ⟨hid, hb⟩, fun _ => by simp⟩
      · rw [if_neg hp']
        exact ⟨fun hm => absurd hm (hout p'), fun hm => absurd (belongs_unique hm.2 hb) hp'⟩
    · have hiff := h.mem_iff x p'
      simp only [ne_eq, Option.some.injEq, hxid, not_false_eq_true, true_and] at hiff
      split
      · rename_i hp'
        rw [hp'] at hiff ⊢
        rw [← hiff]
        simp [hxid]
      · exact hiff
  -- who is linked nowhere has its links as before
  · rw [setQueue_links]
    have hxp : x ∉ L.queued p ∧ x ≠ id := by
      have := hno p
      rw [Lists.append_queued, if_pos rfl] at this
      simpa using this
    rw [(h.family.enqueue_frame hon hxp.1 hxp.2).1, (h.family.enqueue_frame hon hxp.1 hxp.2).2]
    refine h.cleared x hx' (fun p' hm => ?_) hfree
    have := hno p'
    rw [Lists.append_queued] at this
    split at this
    · rename_i hp'
      exact hxp.1 (hp' ▸ hm)
    · exact this hm
  · rw [setQueue_waitCount, Lists.append_queued]
    split
    · rename_i hp
      rw [if_pos hp.symm, hn m hp, List.length_append]
      rfl
    · rename_i hp
      rw [if_neg (Ne.symm hp)]
      exact h.waitCount m ((setQueue_allocated s p _ n m).mp hm)
  · rw [setQueue_links, setQueue_freeThread]
    refine h.freeChain.congr fun y hy => (h.family.enqueue_frame hon ?_ ?_).1
    · exact fun hm => h.not_mem_free hm hy
    · rintro rfl
      exact ((h.mem_free y).mp hy).1 rfl
  -- it was no free record, since it belongs to a queue
  · rw [setQueue_thread]
    refine (h.mem_free x).trans ?_
    constructor
    · rintro ⟨-, hx', hst⟩
      exact ⟨by simp, hx', hst⟩
    · rintro ⟨-, hx', hst⟩
      refine ⟨?_, hx', hst⟩
      rintro ⟨⟩
      exact not_belongs_of_free hst hb
  · simp only [setQueue_nextFree, setQueue_freeSemaphore]
    exact h.semaChain
  · rw [setQueue_count]
    exact h.semaFree m hm
  -- the first ready queue may be the one it enters
  · rw [setQueue_lowestReady]
    by_cases hp : Place.ready queue = p
    · exact hlow queue hp.symm
    · rw [Lists.append_queued, if_neg hp] at hne
      exact h.lowest queue hne
  · rw [setQueue_thread]
    exact h.priorities x hx'
  · rw [setQueue_currentThread]
    exact h.current

/-- The registers, frames and flags are not part of the invariant. -/
theorem Linked.registers (h : Linked s L out) (requested : Bool) (parked : ℕ → Bool)
    (frame : ℕ → Block) (context : Block) (full : Bool) (epc : ℕ) :
    Linked { s with
      rescheduleRequested := requested
      parkedByInterrupt := parked
      frame := frame
      syscallContext := context
      syscallRestoreFull := full
      epc := epc } L out :=
  ⟨h.family, h.mem_iff, h.cleared, h.waitCount, h.freeChain, h.freeNodup, h.mem_free, h.semaChain,
    h.semaNodup, h.semaFree, h.lowest, h.priorities, h.current⟩

/-- The pick may start anywhere at or below the first non-empty queue. -/
theorem Linked.lowestReady (h : Linked s L out) (n : ℕ)
    (hn : ∀ queue, L.queued (.ready queue) ≠ [] → n ≤ queue) :
    Linked { s with lowestReady := n } L out :=
  ⟨h.family, h.mem_iff, h.cleared, h.waitCount, h.freeChain, h.freeNodup, h.mem_free, h.semaChain,
    h.semaNodup, h.semaFree, hn, h.priorities, h.current⟩

/-- Any thread of the table may be the running one. -/
theorem Linked.currentThread (h : Linked s L out) (hid : id < kThreads) :
    Linked { s with currentThread := id } L out :=
  ⟨h.family, h.mem_iff, h.cleared, h.waitCount, h.freeChain, h.freeNodup, h.mem_free, h.semaChain,
    h.semaNodup, h.semaFree, h.lowest, h.priorities, hid⟩

/-- A thread that belongs nowhere and is not free is out already. -/
theorem Linked.open (h : Linked s L none) (hb : ∀ p, ¬s.belongs id p)
    (hfree : (s.thread id).state ≠ .free) : Linked s L (some id) where
  __ := h
  mem_iff x p := by
    refine (h.mem_iff x p).trans ?_
    constructor
    · rintro ⟨-, hx, hbx⟩
      refine ⟨?_, hx, hbx⟩
      rintro ⟨⟩
      exact hb p hbx
    · rintro ⟨-, hx, hbx⟩
      exact ⟨by simp, hx, hbx⟩
  mem_free x := by
    refine (h.mem_free x).trans ?_
    constructor
    · rintro ⟨-, hx, hst⟩
      refine ⟨?_, hx, hst⟩
      rintro ⟨⟩
      exact hfree hst
    · rintro ⟨-, hx, hst⟩
      exact ⟨by simp, hx, hst⟩

/-- And the thread that is out may stay out if it belongs nowhere. -/
theorem Linked.close (h : Linked s L (some id)) (hb : ∀ p, ¬s.belongs id p)
    (hfree : (s.thread id).state ≠ .free) : Linked s L none where
  __ := h
  mem_iff x p := by
    refine (h.mem_iff x p).trans ?_
    constructor
    · rintro ⟨-, hx, hbx⟩
      exact ⟨by simp, hx, hbx⟩
    · rintro ⟨-, hx, hbx⟩
      refine ⟨?_, hx, hbx⟩
      rintro ⟨⟩
      exact hb p hbx
  mem_free x := by
    refine (h.mem_free x).trans ?_
    constructor
    · rintro ⟨-, hx, hst⟩
      exact ⟨by simp, hx, hst⟩
    · rintro ⟨-, hx, hst⟩
      refine ⟨?_, hx, hst⟩
      rintro ⟨⟩
      exact hfree hst

/-- Writing a record that keeps its place, or is out. -/
theorem Linked.setThread {i : ℕ} (h : Linked s L out) (f : ThreadRecord → ThreadRecord)
    (hb : out = some i ∨ ∀ p, (s.setThread i f).belongs i p ↔ s.belongs i p)
    (hfree : out = some i ∨ ((f (s.thread i)).state = .free ↔ (s.thread i).state = .free))
    (hprio : i < kThreads → (f (s.thread i)).initialPriority < kPriorities ∧
      (f (s.thread i)).currentPriority < kPriorities) :
    Linked (s.setThread i f) L out where
  __ := h
  mem_iff x p := by
    refine (h.mem_iff x p).trans (and_congr_right fun hne => and_congr_right fun hx => ?_)
    rcases eq_or_ne x i with rfl | hxid
    · exact (hb.resolve_left (Ne.symm hne) p).symm
    · cases p <;> simp [belongs, queueOf, hxid]
  mem_free x := by
    refine (h.mem_free x).trans (and_congr_right fun hne => and_congr_right fun hx => ?_)
    rcases eq_or_ne x i with rfl | hxid
    · rw [setThread_thread, if_pos rfl]
      exact (hfree.resolve_left (Ne.symm hne)).symm
    · rw [setThread_thread, if_neg hxid]
  priorities x hx := by
    rw [setThread_thread]
    split
    · rename_i hxid
      exact hprio (hxid ▸ hx)
    · exact h.priorities x hx

/-- Writing the record of the thread that is out. -/
theorem Linked.setThread_out (h : Linked s L (some id)) (f : ThreadRecord → ThreadRecord)
    (hprio : id < kThreads → (f (s.thread id)).initialPriority < kPriorities ∧
      (f (s.thread id)).currentPriority < kPriorities) :
    Linked (s.setThread id f) L (some id) :=
  h.setThread f (.inl rfl) (.inl rfl) hprio

/-- The fields that say where a thread belongs. -/
def sameShape (t t' : ThreadRecord) : Prop :=
  t'.state = t.state ∧ t'.initialPriority = t.initialPriority ∧
    t'.currentPriority = t.currentPriority ∧ t'.waitType = t.waitType ∧ t'.waitId = t.waitId

/-- Writing other fields of a record. -/
theorem Linked.setThread_shape {i : ℕ} (h : Linked s L out) (f : ThreadRecord → ThreadRecord)
    (hf : sameShape (s.thread i) (f (s.thread i))) : Linked (s.setThread i f) L out := by
  obtain ⟨h₁, h₂, h₃, h₄, h₅⟩ := hf
  refine h.setThread f (.inr fun p => ?_) (.inr (by rw [h₁])) fun hid => ?_
  · cases p <;> simp [belongs, runnable, waitsOn, queueOf, h₁, h₃, h₄, h₅]
  · rw [h₂, h₃]
    exact h.priorities i hid

/-- Writing a semaphore's fields other than its list, its count's sign and its free link. -/
theorem Linked.setSemaphore (h : Linked s L out) {m : ℕ} (f : Semaphore → Semaphore)
    (hf : ((f (s.semaphore m)).waitHead = (s.semaphore m).waitHead ∧
      (f (s.semaphore m)).waitTail = (s.semaphore m).waitTail ∧
      (f (s.semaphore m)).waitCount = (s.semaphore m).waitCount) ∧
      (f (s.semaphore m)).nextFree = (s.semaphore m).nextFree)
    (hcount : 0 ≤ (f (s.semaphore m)).count → 0 ≤ (s.semaphore m).count)
    (hempty : 0 ≤ (s.semaphore m).count → 0 ≤ (f (s.semaphore m)).count ∨
      L.queued (.waitList m) = []) :
    Linked (s.setSemaphore m f) L out := by
  -- a semaphore that is allocated was so before
  have hal : ∀ m', allocated (s.setSemaphore m f) m' → allocated s m' := by
    rintro m' ⟨h₁, h₂⟩
    refine ⟨h₁, ?_⟩
    rw [setSemaphore_semaphore] at h₂
    split at h₂
    · rename_i hm
      exact hm ▸ hcount h₂
    · exact h₂
  refine
    { h with
      family := ?_
      mem_iff := fun x p => (h.mem_iff x p).trans (by cases p <;> rfl)
      waitCount := fun m' hm' => ?_
      semaChain := ?_
      semaFree := fun m' hm' => ?_ }
  · refine (h.family.congr (r := (s.setSemaphore m f).queueAt) (fun p _ => ?_)
      -- nobody waits on one that is given up
      (fun _ _ _ => ⟨rfl, rfl⟩)).turn (fun p hp hno => ?_) (fun p hp hno => ?_)
    · cases p with
      | ready queue => rfl
      | waitList m' =>
        simp only [queueAt, setSemaphore_semaphore]
        split
        · rename_i hm
          rw [hm, hf.1.1, hf.1.2.1]
        · rfl
    · cases p with
      | ready queue => exact absurd hp hno
      | waitList m' => exact absurd (hal m' hp) hno
    · cases p with
      | ready queue => exact absurd hp hno
      | waitList m' =>
        rcases eq_or_ne m' m with rfl | hm
        · rcases hempty hp.2 with h₁ | h₁
          · refine absurd ⟨hp.1, ?_⟩ hno
            rwa [setSemaphore_semaphore, if_pos rfl]
          · exact h₁
        · refine absurd ⟨hp.1, ?_⟩ hno
          rw [setSemaphore_semaphore, if_neg hm]
          exact hp.2
  · rw [setSemaphore_semaphore]
    split
    · rename_i hm
      rw [hf.1.2.2, ← hm]
      exact h.waitCount m' (hal m' hm')
    · exact h.waitCount m' (hal m' hm')
  · refine h.semaChain.congr fun m' _ => ?_
    rw [setSemaphore_semaphore]
    split
    · rename_i hm
      rw [hf.2, hm]
    · rfl
  · obtain ⟨h₁, h₂⟩ := h.semaFree m' hm'
    refine ⟨h₁, ?_⟩
    rw [setSemaphore_semaphore]
    split
    · rename_i hm
      by_contra hc
      have := hcount (by omega)
      rw [← hm] at this
      omega
    · exact h₂

/-! ### The free lists -/

/-- **Give the record that is out back to the free list.** -/
theorem Linked.giveBack (h : Linked s L (some id)) (hid : id < kThreads) :
    Linked (s.release id) { L with free := id :: L.free } none := by
  have hout : ∀ p', id ∉ L.queued p' := fun p' hm => ((h.mem_iff id p').mp hm).1 rfl
  have hnf : id ∉ L.free := fun hm => ((h.mem_free id).mp hm).1 rfl
  have hthread : ∀ x, (s.release id).thread x =
      if x = id then { s.thread id with state := .free } else s.thread x := fun x => by
    simp only [release, setThread_thread]
  have hlinks : (s.release id).links = s.links.setNext id s.freeThread := rfl
  refine
    { family := ?_
      mem_iff := fun x p => ?_
      cleared := fun x hx hno hfree => ?_
      waitCount := h.waitCount
      freeChain := ?_
      freeNodup := List.nodup_cons.mpr ⟨hnf, h.freeNodup⟩
      mem_free := fun x => ?_
      semaChain := h.semaChain
      semaNodup := h.semaNodup
      semaFree := h.semaFree
      lowest := h.lowest
      priorities := fun x hx => ?_
      current := h.current }
  · rw [hlinks]
    refine h.family.congr (fun _ _ => rfl) fun p x hx => ?_
    have hne : x ≠ id := fun heq => hout p (heq ▸ hx)
    simp [hne]
  · rcases eq_or_ne x id with rfl | hxid
    · refine iff_of_false (hout p) ?_
      rintro ⟨-, -, hb⟩
      exact not_belongs_of_free (by rw [hthread, if_pos rfl]) hb
    · refine (h.mem_iff x p).trans ?_
      have hb : (s.release id).belongs x p ↔ s.belongs x p := by
        cases p <;> simp [belongs, queueOf, hthread, hxid]
      rw [hb]
      simp [hxid]
  · obtain ⟨hxid, hfree⟩ : x ≠ id ∧ x ∉ L.free := by simpa using hfree
    have := h.cleared x hx hno hfree
    rw [hlinks]
    simpa [hxid] using this
  · exact h.freeChain.push hnf (ne_kNone_of_lt hid)
  · rw [hthread]
    rcases eq_or_ne x id with rfl | hxid
    · simp [hid]
    · rw [if_neg hxid, List.mem_cons, h.mem_free x]
      simp [hxid]
  · rw [hthread]
    split
    · exact h.priorities id hid
    · exact h.priorities x hx

/-- The head of the free list is a free record. -/
theorem Linked.freeThread_mem (h : Linked s L none) (hne : s.freeThread ≠ kNone) :
    s.freeThread < kThreads ∧ (s.thread s.freeThread).state = .free := by
  obtain ⟨xs, hxs, -⟩ := h.freeChain.eq_cons hne
  have hm : s.freeThread ∈ L.free := by
    rw [hxs]
    exact List.mem_cons_self
  exact ((h.mem_free _).mp hm).2

/-- **Take the head of the free list**, and clear its links. -/
theorem Linked.takeFree (h : Linked s L none) (hne : s.freeThread ≠ kNone) :
    Linked s.takeFreeThread { L with free := L.free.tail } (some s.freeThread) := by
  obtain ⟨hid, hst⟩ := h.freeThread_mem hne
  obtain ⟨xs, hxs, hchain⟩ := h.freeChain.eq_cons hne
  have hnd := h.freeNodup
  rw [hxs] at hnd
  obtain ⟨hnx, hnd⟩ := List.nodup_cons.mp hnd
  have htail : L.free.tail = xs := by rw [hxs]; rfl
  -- the record taken was in no queue
  have hout : ∀ p', s.freeThread ∉ L.queued p' := fun p' hm =>
    not_belongs_of_free hst ((h.mem_iff _ p').mp hm).2.2
  have hlinks : s.takeFreeThread.links =
      (s.links.setNext s.freeThread kNone).setPrev s.freeThread kNone := rfl
  refine
    { family := ?_
      mem_iff := fun x p => (h.mem_iff x p).trans ?_
      cleared := fun x hx hno hfree => ?_
      waitCount := h.waitCount
      freeChain := ?_
      freeNodup := ?_
      mem_free := fun x => ?_
      semaChain := h.semaChain
      semaNodup := h.semaNodup
      semaFree := h.semaFree
      lowest := h.lowest
      priorities := h.priorities
      current := h.current }
  -- the queues do not see its links
  · refine h.family.congr (fun _ _ => rfl) fun p x hx => ?_
    have hne : x ≠ s.freeThread := fun heq => hout p (heq ▸ hx)
    simp [hlinks, hne]
  · constructor
    · rintro ⟨-, hx, hb⟩
      refine ⟨?_, hx, hb⟩
      rintro ⟨⟩
      exact not_belongs_of_free hst hb
    · rintro ⟨-, hx, hb⟩
      exact ⟨by simp, hx, hb⟩
  · rw [hlinks]
    rcases eq_or_ne x s.freeThread with rfl | hxid
    · simp
    · have hfree : x ∉ L.free := by
        rw [htail] at hfree
        rw [hxs]
        exact List.not_mem_cons_of_ne_of_not_mem hxid hfree
      have := h.cleared x hx hno hfree
      simpa [hxid] using this
  -- the rest of the free list
  · rw [htail]
    refine hchain.congr fun y hy => ?_
    have hne : y ≠ s.freeThread := fun heq => hnx (heq ▸ hy)
    simp [hlinks, hne]
  · rw [htail]
    exact hnd
  · have hm : x ∈ L.free ↔ x = s.freeThread ∨ x ∈ xs := by rw [hxs]; simp
    have hiff := h.mem_free x
    rw [htail]
    constructor
    · intro hx
      refine ⟨?_, (hiff.mp (hm.mpr (.inr hx))).2⟩
      rintro ⟨⟩
      exact hnx hx
    · rintro ⟨hx, hrest⟩
      refine (hm.mp (hiff.mpr ⟨by simp, hrest⟩)).resolve_left ?_
      rintro rfl
      exact hx rfl

/-- Take the head of the semaphores' free list, and set it up with no waiters. -/
theorem Linked.takeSemaphore (h : Linked s L out) (hne : s.freeSemaphore ≠ kNone)
    (f : Semaphore → Semaphore)
    (hf : ∀ m, (f m).waitHead = kNone ∧ (f m).waitTail = kNone ∧ (f m).waitCount = 0 ∧
      (f m).nextFree = m.nextFree) :
    Linked ({ s with freeSemaphore := (s.semaphore s.freeSemaphore).nextFree }.setSemaphore
      s.freeSemaphore f) { L with freeSema := L.freeSema.tail } out := by
  obtain ⟨xs, hxs, hchain⟩ := h.semaChain.eq_cons hne
  have hnd := h.semaNodup
  rw [hxs] at hnd
  obtain ⟨hnx, hnd⟩ := List.nodup_cons.mp hnd
  have htail : L.freeSema.tail = xs := by rw [hxs]; rfl
  have hfree := h.semaFree s.freeSemaphore (by rw [hxs]; exact List.mem_cons_self)
  -- nothing waited on a free semaphore
  have hempty : L.queued (.waitList s.freeSemaphore) = [] := by
    refine h.family.off _ fun hon => ?_
    have := hon.2
    omega
  obtain ⟨hf₁, hf₂, hf₃, hf₄⟩ := hf (s.semaphore s.freeSemaphore)
  refine
    { family := ?_
      mem_iff := fun x p => (h.mem_iff x p).trans (by cases p <;> rfl)
      cleared := h.cleared
      waitCount := fun m hm => ?_
      freeChain := h.freeChain
      freeNodup := h.freeNodup
      mem_free := h.mem_free
      semaChain := ?_
      semaNodup := by rw [htail]; exact hnd
      semaFree := fun m hm => ?_
      lowest := h.lowest
      priorities := h.priorities
      current := h.current }
  · have hq : ∀ p, p ≠ .waitList s.freeSemaphore → ({ s with freeSemaphore :=
        (s.semaphore s.freeSemaphore).nextFree }.setSemaphore s.freeSemaphore f).queueAt p =
        s.queueAt p := by
      intro p hp
      cases p with
      | ready queue => rfl
      | waitList m =>
        have hm : m ≠ s.freeSemaphore := fun heq => hp (by rw [heq])
        simp only [queueAt, setSemaphore_semaphore, if_neg hm]
    refine (h.family.congr (r := State.queueAt _) (fun p hp => hq p ?_)
      (fun _ _ _ => ⟨rfl, rfl⟩)).turn (fun p hp hno => ?_) (fun p hp hno => ?_)
    · rintro rfl
      have := hp.2
      omega
    · cases p with
      | ready queue => exact absurd hp hno
      | waitList m =>
        have hm : m = s.freeSemaphore := by
          by_contra hc
          refine hno ⟨hp.1, ?_⟩
          have := hp.2
          rwa [setSemaphore_semaphore, if_neg hc] at this
        simp only [queueAt, setSemaphore_semaphore, if_pos hm, hf₁, hf₂]
        exact isQueue_empty _
    · cases p with
      | ready queue => exact absurd hp hno
      | waitList m =>
        have hm : m ≠ s.freeSemaphore := by
          rintro rfl
          have := hp.2
          omega
        refine absurd ⟨hp.1, ?_⟩ hno
        rw [setSemaphore_semaphore, if_neg hm]
        exact hp.2
  · rw [setSemaphore_semaphore]
    split
    · rename_i heq
      rw [hf₃, heq, hempty]
      rfl
    · rename_i hne'
      refine h.waitCount m ⟨hm.1, ?_⟩
      have := hm.2
      rwa [setSemaphore_semaphore, if_neg hne'] at this
  · rw [htail]
    refine hchain.congr fun m hm => ?_
    have hne' : m ≠ s.freeSemaphore := fun heq => hnx (heq ▸ hm)
    rw [setSemaphore_semaphore, if_neg hne']
  · rw [htail] at hm
    have hne' : m ≠ s.freeSemaphore := fun heq => hnx (heq ▸ hm)
    rw [setSemaphore_semaphore, if_neg hne']
    exact h.semaFree m (by rw [hxs]; exact List.mem_cons_of_mem _ hm)

/-- Give a semaphore that nothing waits on back to the free list. -/
theorem Linked.giveSemaphore (h : Linked s L out) {m : ℕ} (hm : allocated s m)
    (hempty : L.queued (.waitList m) = []) :
    Linked (s.releaseSemaphore m) { L with freeSema := m :: L.freeSema } out := by
  -- the semaphore was not free before
  have hnm : m ∉ L.freeSema := fun hc => by
    have := (h.semaFree m hc).2
    have := hm.2
    omega
  have hself : (s.releaseSemaphore m).semaphore m =
      { s.semaphore m with count := -1, nextFree := s.freeSemaphore } := by
    simp [releaseSemaphore]
  have hother : ∀ x, x ≠ m → (s.releaseSemaphore m).semaphore x = s.semaphore x := fun x hx => by
    simp [releaseSemaphore, hx]
  have hoff : ¬allocated (s.releaseSemaphore m) m := by
    rintro ⟨-, hc⟩
    rw [hself] at hc
    exact absurd (show (0 : ℤ) ≤ -1 from hc) (by decide)
  have hsame : ∀ x, x ≠ m → (allocated (s.releaseSemaphore m) x ↔ allocated s x) := fun x hx => by
    rw [allocated, allocated, hother x hx]
  refine
    { family := ⟨fun p hp => ?_, fun p hp => ?_, h.family.disjoint⟩
      mem_iff := fun x p => (h.mem_iff x p).trans (by cases p <;> rfl)
      cleared := h.cleared
      waitCount := fun x hx => ?_
      freeChain := h.freeChain
      freeNodup := h.freeNodup
      mem_free := h.mem_free
      semaChain := ?_
      semaNodup := List.nodup_cons.mpr ⟨hnm, h.semaNodup⟩
      semaFree := fun x hx => ?_
      lowest := h.lowest
      priorities := h.priorities
      current := h.current }
  -- its own queue is empty, and the others are as they were
  · cases p with
    | ready queue => exact h.family.queue (.ready queue) hp
    | waitList x =>
      have hne : x ≠ m := fun heq => hoff (heq ▸ hp)
      have hq := h.family.queue (.waitList x) ((hsame x hne).mp hp)
      rw [queueAt, hother x hne]
      exact hq
  · cases p with
    | ready queue => exact h.family.off (.ready queue) hp
    | waitList x =>
      rcases eq_or_ne x m with rfl | hne
      · exact hempty
      · exact h.family.off (.waitList x) fun hon => hp ((hsame x hne).mpr hon)
  · have hne : x ≠ m := fun heq => hoff (heq ▸ hx)
    rw [hother x hne]
    exact h.waitCount x ((hsame x hne).mp hx)
  · refine ⟨rfl, ?_, ?_⟩
    · rintro rfl
      exact absurd hm.1 (by decide)
    · dsimp only
      rw [hself]
      refine h.semaChain.congr fun y hy => ?_
      rw [hother y fun heq => hnm (heq ▸ hy)]
  · rcases List.mem_cons.mp hx with rfl | hx
    · rw [hself]
      exact ⟨hm.1, show (-1 : ℤ) < 0 by decide⟩
    · rw [hother x fun heq => hnm (heq ▸ hx)]
      exact h.semaFree x hx

end Primitives

end PS2Bios.Kernel
