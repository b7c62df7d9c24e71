import Mathlib.Data.List.Perm.Subperm
import PS2Bios.Threadman.Services

/-!
# THREADMAN's queues: the invariant and its primitives

A thread is in the ready queue of its priority, in the list of the object it waits on, or nowhere,
and which of these is read off its record (`Sched.belongs`). `Linked s L out` says that the queues
of `s` are the lists `L`, and that each holds exactly the threads that belong in it, but for those
of `out`, which are nowhere: the staged thread, and the threads that a call has in its hands.

A call takes a thread out of a queue (`Linked.unlink`, `Linked.pick`), writes its record
(`Linked.setThread`) and puts it into another (`Linked.insert` and what comes of it). `out` is the
stack of what it has taken and not put back.
-/

namespace PS2Bios.Threadman

open Intrusive Sched

/-- The list each of the scheduler's places holds. -/
abbrev Lists := Place → List ℕ

namespace Lists

/-- A thread goes behind the others of a place. -/
def append (L : Lists) (p : Place) (k : ℕ) : Lists := Function.update L p (L p ++ [k])

/-- A thread goes in front of the others of a place. -/
def push (L : Lists) (p : Place) (k : ℕ) : Lists := Function.update L p (k :: L p)

/-- A thread leaves the list of a place. -/
def remove (L : Lists) (p : Place) (k : ℕ) : Lists := Function.update L p ((L p).erase k)

theorem append_apply (L : Lists) (p p' : Place) (k : ℕ) :
    L.append p k p' = if p' = p then L p ++ [k] else L p' := by
  simp [append, Function.update_apply]

theorem push_apply (L : Lists) (p p' : Place) (k : ℕ) :
    L.push p k p' = if p' = p then k :: L p else L p' := by
  simp [push, Function.update_apply]

theorem remove_apply (L : Lists) (p p' : Place) (k : ℕ) :
    L.remove p k p' = if p' = p then (L p).erase k else L p' := by
  simp [remove, Function.update_apply]

end Lists

/-- The kind of object that a wait is on. -/
def WaitType.kind : WaitType → Option Kind
  | .onSema => some .semaphore
  | .onEvent => some .event
  | .onMbx => some .mailbox
  | _ => none

namespace Sched

/-- The thread exists. -/
def Valid (s : Sched) (k : ℕ) : Prop := k < kThreads ∧ (s.pools .thread k).inUse = true

/-- Where a thread has to be, by its record. -/
def belongs (s : Sched) (k : ℕ) : Place → Prop
  | .ready priority => (s.threads k).state = .ready ∧ s.priorityOf k = priority
  | .waiters kind index =>
    (s.threads k).state = .wait ∧ s.waitObjectOf (s.threads k) = some (kind, index)

/-- The queues that exist. -/
def isOn (s : Sched) : Place → Prop
  | .ready _ => True
  | .waiters kind index =>
    kind ≠ .thread ∧ index < kind.slots ∧ (s.pools kind index).inUse = true

/-- Write the links and one queue, with the bit or the count that goes with it. -/
def put (s : Sched) (p : Place) (r : Links ℕ × Queue ℕ) (n : ℕ) : Sched :=
  match p with
  | .ready priority => (s.setQueue p r).setBit priority (decide (n ≠ 0))
  | .waiters kind index => (s.setQueue p r).setCount kind index n

end Sched

/-- The queues of `s` are the lists `L`, and hold what belongs in them, without the threads of
`out`. -/
structure Linked (s : Sched) (L : Lists) (out : List ℕ) : Prop where
  family : Family kNone s.links s.queues s.isOn L
  mem_iff : ∀ k p, k ∈ L p ↔ k ∉ out ∧ s.Valid k ∧ s.belongs k p
  bits : ∀ priority, s.readyBits priority = true ↔ L (.ready priority) ≠ []
  counts : ∀ kind index, s.isOn (.waiters kind index) →
    s.waiterCount kind index = (L (.waiters kind index)).length
  priorities : ∀ k, s.Valid k → (s.threads k).currentPriority < kPriorities ∧
    (s.threads k).initialPriority < kPriorities
  waits : ∀ k, s.Valid k → (s.threads k).state = .wait →
    (s.threads k).waitType.kind ≠ none → s.waitObjectOf (s.threads k) ≠ none

section Belongs

variable {s : Sched} {k : ℕ} {p p' : Place}

theorem waitObjectOf_eq (s : Sched) (t : Thread) :
    s.waitObjectOf t = t.waitType.kind.bind fun kind =>
      (lookup kind s.pools t.waitId).map fun index => (kind, index) := by
  cases h : t.waitType <;> simp [waitObjectOf, WaitType.kind, h, semaphoreOf, eventOf, mailboxOf]

/-- An object that is waited on exists. -/
theorem isOn_of_waitObjectOf {t : Thread} {kind : Kind} {index : ℕ}
    (h : s.waitObjectOf t = some (kind, index)) : s.isOn (.waiters kind index) := by
  rw [waitObjectOf_eq] at h
  obtain ⟨kind', hkind, h⟩ := Option.bind_eq_some_iff.mp h
  obtain ⟨index', hindex, heq⟩ := Option.map_eq_some_iff.mp h
  obtain ⟨rfl, rfl⟩ := Prod.mk.inj heq
  obtain ⟨hlt, hin, -⟩ := lookup_eq_some.mp hindex
  refine ⟨?_, hlt, hin⟩
  rintro rfl
  cases hw : t.waitType <;> simp [WaitType.kind, hw] at hkind

/-- A record says one place at most. -/
theorem belongs_unique (h : s.belongs k p) (h' : s.belongs k p') : p = p' := by
  cases p <;> cases p'
  · rw [← h.2, ← h'.2]
  · exact absurd (h.1.symm.trans h'.1) (by decide)
  · exact absurd (h.1.symm.trans h'.1) (by decide)
  · obtain ⟨rfl, rfl⟩ := Prod.mk.inj (Option.some.inj (h.2.symm.trans h'.2))
    rfl

theorem isOn_of_belongs (h : s.belongs k p) : s.isOn p := by
  cases p with
  | ready priority => trivial
  | waiters kind index => exact isOn_of_waitObjectOf h.2

/-- A thread that is neither ready nor waiting belongs nowhere. -/
theorem not_belongs (hr : (s.threads k).state ≠ .ready) (hw : (s.threads k).state ≠ .wait) :
    ¬ s.belongs k p := by
  cases p with
  | ready priority => exact fun h => hr h.1
  | waiters kind index => exact fun h => hw h.1

end Belongs

/-! ### What the writes leave alone -/

section Frame

variable (s : Sched) (p : Place) (r : Links ℕ × Queue ℕ) (n k : ℕ)

@[simp] theorem put_links : (s.put p r n).links = r.1 := by cases p <;> rfl
@[simp] theorem put_queues : (s.put p r n).queues = Function.update s.queues p r.2 := by
  cases p <;> rfl
@[simp] theorem put_pools : (s.put p r n).pools = s.pools := by cases p <;> rfl
@[simp] theorem put_threads : (s.put p r n).threads = s.threads := by cases p <;> rfl
@[simp] theorem put_current : (s.put p r n).current = s.current := by cases p <;> rfl
@[simp] theorem put_pending : (s.put p r n).pending = s.pending := by cases p <;> rfl

@[simp] theorem put_isOn (p' : Place) : (s.put p r n).isOn p' ↔ s.isOn p' := by
  cases p' <;> simp [isOn]

@[simp] theorem put_valid : (s.put p r n).Valid k ↔ s.Valid k := by simp [Valid]

@[simp] theorem put_waitObjectOf (t : Thread) :
    (s.put p r n).waitObjectOf t = s.waitObjectOf t := by
  simp [waitObjectOf_eq]

@[simp] theorem put_belongs (p' : Place) : (s.put p r n).belongs k p' ↔ s.belongs k p' := by
  cases p' <;> simp [belongs, priorityOf]

theorem put_readyBits (priority : ℕ) : (s.put p r n).readyBits priority =
    if p = .ready priority then decide (n ≠ 0) else s.readyBits priority := by
  cases p with
  | ready priority' => simp [put, setBit, setQueue, Function.update_apply, eq_comm]
  | waiters kind index => simp [put, setCount, setQueue]

/-- The number of waiters is stored with their queue. -/
theorem put_waiterCount (kind : Kind) (index : ℕ) : (s.put p r n).waiterCount kind index =
    if p = .waiters kind index then n else s.waiterCount kind index := by
  cases p with
  | ready priority => simp [put, setBit, setQueue]
  | waiters kind' index' =>
    simp only [put, setCount, setQueue, Place.waiters.injEq]
    rcases eq_or_ne kind kind' with rfl | hk
    · simp [Function.update_apply, eq_comm]
    · simp [hk, hk.symm]

variable (f : Thread → Thread)

@[simp] theorem setThread_pools : (s.setThread k f).pools = s.pools := rfl
@[simp] theorem setThread_links : (s.setThread k f).links = s.links := rfl
@[simp] theorem setThread_queues : (s.setThread k f).queues = s.queues := rfl
@[simp] theorem setThread_current : (s.setThread k f).current = s.current := rfl
@[simp] theorem setThread_pending : (s.setThread k f).pending = s.pending := rfl
@[simp] theorem setThread_valid (j : ℕ) : (s.setThread k f).Valid j ↔ s.Valid j := Iff.rfl
@[simp] theorem setThread_isOn : (s.setThread k f).isOn p ↔ s.isOn p := by cases p <;> rfl
@[simp] theorem setThread_waitObjectOf (t : Thread) :
    (s.setThread k f).waitObjectOf t = s.waitObjectOf t := rfl

theorem setThread_threads (j : ℕ) :
    (s.setThread k f).threads j = if j = k then f (s.threads k) else s.threads j := by
  simp [setThread, Function.update_apply]

@[simp] theorem setThread_same : (s.setThread k f).threads k = f (s.threads k) := by
  simp [setThread]

theorem setThread_ne {j : ℕ} (h : j ≠ k) : (s.setThread k f).threads j = s.threads j := by
  simp [setThread, h]

/-- A record that is written says of other threads what it said. -/
theorem setThread_belongs_ne {j : ℕ} (h : j ≠ k) :
    (s.setThread k f).belongs j p ↔ s.belongs j p := by
  cases p <;> simp [belongs, priorityOf, setThread_ne s k f h]

end Frame

/-! ### The primitives -/

section Primitives

variable {s : Sched} {L : Lists} {out out' : List ℕ} {k : ℕ} {p : Place}

/-- The table is smaller than the sentinel. -/
theorem ne_kNone_of_lt (h : k < kThreads) : k ≠ kNone := by
  rintro rfl
  exact absurd h (by decide)

theorem Linked.valid_of_mem (h : Linked s L out) (hk : k ∈ L p) : s.Valid k :=
  ((h.mem_iff k p).mp hk).2.1

theorem Linked.not_mem (h : Linked s L (k :: out)) (p : Place) : k ∉ L p := fun hk =>
  ((h.mem_iff k p).mp hk).1 List.mem_cons_self

theorem Linked.nodup (h : Linked s L out) (hp : s.isOn p) : (L p).Nodup :=
  (h.family.queue p hp).nodup

/-- **Changing one queue.** -/
theorem Linked.put {r : Links ℕ × Queue ℕ} {l : List ℕ} (h : Linked s L out) (hp : s.isOn p)
    (hfam : Family kNone r.1 (Function.update s.queues p r.2) s.isOn (Function.update L p l))
    (hmem : ∀ j, j ∈ l ↔ j ∉ out' ∧ s.Valid j ∧ s.belongs j p)
    (hout : ∀ j, ¬ s.belongs j p → (j ∈ out' ↔ j ∈ out)) :
    Linked (s.put p r l.length) (Function.update L p l) out' where
  family := by
    rw [put_links, put_queues]
    exact hfam.turn (fun p' hp' hno => absurd ((put_isOn s p r _ p').mp hp') hno)
      (fun p' hp' hno => absurd ((put_isOn s p r _ p').mpr hp') hno)
  mem_iff j p' := by
    rw [put_valid, put_belongs, Function.update_apply]
    split
    · next hp' =>
      subst hp'
      exact hmem j
    · next hp' =>
      rw [h.mem_iff]
      refine and_congr_left fun hj => not_congr (hout j fun hb => ?_).symm
      exact hp' (belongs_unique hj.2 hb)
  bits priority := by
    rw [put_readyBits, Function.update_apply]
    split
    · next hp' =>
      rw [if_pos hp'.symm]
      simp
    · next hp' =>
      rw [if_neg (Ne.symm hp')]
      exact h.bits priority
  counts kind index hon := by
    rw [put_waiterCount, Function.update_apply]
    split
    · next hp' => rw [if_pos hp'.symm]
    · next hp' =>
      rw [if_neg (Ne.symm hp')]
      exact h.counts kind index ((put_isOn s p r _ _).mp hon)
  priorities j hj := by
    rw [put_threads]
    exact h.priorities j ((put_valid s p r _ j).mp hj)
  waits j hj := by
    rw [put_threads, put_waitObjectOf]
    exact h.waits j ((put_valid s p r _ j).mp hj)

/-- Putting back the thread taken out last, between two parts of the queue it belongs in. -/
theorem Linked.insert {r : Links ℕ × Queue ℕ} {l₁ l₂ : List ℕ} (h : Linked s L (k :: out))
    (hk : k ∉ out) (hv : s.Valid k) (hb : s.belongs k p) (hl : L p = l₁ ++ l₂)
    (hfam : Family kNone r.1 (Function.update s.queues p r.2) s.isOn
      (Function.update L p (l₁ ++ k :: l₂))) :
    Linked (s.put p r ((L p).length + 1)) (Function.update L p (l₁ ++ k :: l₂)) out := by
  have hlen : (L p).length + 1 = (l₁ ++ k :: l₂).length := by
    rw [hl]
    simp only [List.length_append, List.length_cons]
    omega
  rw [hlen]
  refine h.put (isOn_of_belongs hb) hfam (fun j => ?_) fun j hj => ?_
  · have hmem : j ∈ l₁ ++ k :: l₂ ↔ j = k ∨ j ∈ L p := by
      rw [hl]
      simp only [List.mem_append, List.mem_cons]
      tauto
    rw [hmem, h.mem_iff]
    rcases eq_or_ne j k with rfl | hjk
    · exact ⟨fun _ => ⟨hk, hv, hb⟩, fun _ => .inl rfl⟩
    · simp [hjk]
  · have hjk : j ≠ k := by
      rintro rfl
      exact hj hb
    simp [hjk]

/-- A thread that is in no queue goes to the end of one. -/
theorem Linked.enqueue (h : Linked s L (k :: out)) (hk : k ∉ out) (hv : s.Valid k)
    (hb : s.belongs k p) :
    Linked (s.put p (Intrusive.enqueue kNone s.links (s.queues p) k) ((L p).length + 1))
      (L.append p k) out := by
  refine h.insert hk hv hb (List.append_nil _).symm ?_
  exact h.family.enqueue (isOn_of_belongs hb) h.not_mem (ne_kNone_of_lt hv.1)
    (Function.update_self ..) fun p' hp' => Function.update_of_ne hp' _ _

/-- A thread that is in no queue goes to the front of one. -/
theorem Linked.pushFront (h : Linked s L (k :: out)) (hk : k ∉ out) (hv : s.Valid k)
    (hb : s.belongs k p) :
    Linked (s.put p (Intrusive.pushFront kNone s.links (s.queues p) k) ((L p).length + 1))
      (L.push p k) out := by
  refine h.insert hk hv hb (List.nil_append (L p)).symm ?_
  exact h.family.pushFront (isOn_of_belongs hb) h.not_mem (ne_kNone_of_lt hv.1)
    (Function.update_self ..) fun p' hp' => Function.update_of_ne hp' _ _

/-- A thread that is in no queue goes in front of a member of one. -/
theorem Linked.insertBefore {y : ℕ} {l₁ l₂ : List ℕ} (h : Linked s L (k :: out)) (hk : k ∉ out)
    (hv : s.Valid k) (hb : s.belongs k p) (hl : L p = l₁ ++ y :: l₂) :
    Linked (s.put p (Intrusive.insertBefore kNone s.links (s.queues p) k y) ((L p).length + 1))
      (Function.update L p (l₁ ++ k :: y :: l₂)) out := by
  refine h.insert hk hv hb hl ?_
  exact h.family.insertBefore (isOn_of_belongs hb) hl h.not_mem (ne_kNone_of_lt hv.1)
    (Function.update_self ..) fun p' hp' => Function.update_of_ne hp' _ _

/-- **Taking a thread out** of the queue it is in. -/
theorem Linked.unlink (h : Linked s L out) (hk : k ∈ L p) :
    Linked (s.put p (Intrusive.unlink kNone s.links (s.queues p) k) ((L p).length - 1))
      (L.remove p k) (k :: out) := by
  obtain ⟨hout, hv, hb⟩ := (h.mem_iff k p).mp hk
  have hon := isOn_of_belongs hb
  rw [← List.length_erase_of_mem hk]
  refine h.put hon ?_ (fun j => ?_) fun j hj => ?_
  · exact h.family.unlink hk (Function.update_self ..) fun p' hp' => Function.update_of_ne hp' _ _
  · rw [(h.nodup hon).mem_erase_iff, h.mem_iff]
    simp [and_assoc]
  · have hjk : j ≠ k := by
      rintro rfl
      exact hj hb
    simp [hjk]

/-- Which threads are out matters only of those that belong somewhere. -/
theorem Linked.congr_out (h : Linked s L out)
    (hout : ∀ j p, s.Valid j → s.belongs j p → (j ∈ out ↔ j ∈ out')) : Linked s L out' where
  family := h.family
  mem_iff j p := by
    rw [h.mem_iff]
    exact and_congr_left fun hj => not_congr (hout j p hj.1 hj.2)
  bits := h.bits
  counts := h.counts
  priorities := h.priorities
  waits := h.waits

/-- A thread that belongs nowhere may be taken out. -/
theorem Linked.open (h : Linked s L out) (hk : ∀ p, ¬ s.belongs k p) : Linked s L (k :: out) :=
  h.congr_out fun j p _ hj => by
    have hjk : j ≠ k := by
      rintro rfl
      exact hk p hj
    simp [hjk]

/-- A thread that belongs nowhere may be put back. -/
theorem Linked.close (h : Linked s L (k :: out)) (hk : ∀ p, ¬ s.belongs k p) : Linked s L out :=
  h.congr_out fun j p _ hj => by
    have hjk : j ≠ k := by
      rintro rfl
      exact hk p hj
    simp [hjk]

/-- The order in which threads are out does not matter. -/
theorem Linked.swap {j : ℕ} (h : Linked s L (j :: k :: out)) : Linked s L (k :: j :: out) :=
  h.congr_out fun i _ _ _ => by simp [or_left_comm]

/-- **Writing a record** of a thread that is out, or so that it belongs where it did. -/
theorem Linked.setThread {f : Thread → Thread} (h : Linked s L out)
    (hk : k ∈ out ∨ ∀ p, (s.setThread k f).belongs k p ↔ s.belongs k p)
    (hp : s.Valid k → (f (s.threads k)).currentPriority < kPriorities ∧
      (f (s.threads k)).initialPriority < kPriorities)
    (hw : (f (s.threads k)).state = .wait → (f (s.threads k)).waitType.kind ≠ none →
      s.waitObjectOf (f (s.threads k)) ≠ none) : Linked (s.setThread k f) L out where
  family := h.family.turn (fun p' hp' hno => absurd ((setThread_isOn s p' k f).mp hp') hno)
    fun p' hp' hno => absurd ((setThread_isOn s p' k f).mpr hp') hno
  mem_iff j p := by
    rw [h.mem_iff, setThread_valid]
    rcases eq_or_ne j k with rfl | hjk
    · rcases hk with hk | hk
      · simp [hk]
      · rw [hk]
    · rw [setThread_belongs_ne s p k f hjk]
  bits := h.bits
  counts kind index hon := h.counts kind index ((setThread_isOn s _ k f).mp hon)
  priorities j hj := by
    rcases eq_or_ne j k with rfl | hjk
    · rw [setThread_same]
      exact hp hj
    · rw [setThread_ne s k f hjk]
      exact h.priorities j hj
  waits j hj := by
    rcases eq_or_ne j k with rfl | hjk
    · rw [setThread_same]
      exact hw
    · rw [setThread_ne s k f hjk]
      exact h.waits j hj

/-- Writing fields of a record that no queue depends on. -/
theorem Linked.setThread_quiet {f : Thread → Thread} (h : Linked s L out)
    (hstate : ∀ t, (f t).state = t.state) (hpri : ∀ t, (f t).currentPriority = t.currentPriority)
    (hini : ∀ t, (f t).initialPriority = t.initialPriority)
    (hwait : ∀ t, (f t).state = .wait → (f t).waitType = t.waitType ∧ (f t).waitId = t.waitId) :
    Linked (s.setThread k f) L out := by
  have hobject : (s.threads k).state = .wait →
      s.waitObjectOf (f (s.threads k)) = s.waitObjectOf (s.threads k) := fun hw => by
    obtain ⟨ht, hi⟩ := hwait (s.threads k) ((hstate _).trans hw)
    rw [waitObjectOf_eq, waitObjectOf_eq, ht, hi]
  -- where the thread of a written record was not valid nothing is asked of it
  by_cases hv : s.Valid k
  · refine h.setThread (.inr fun p => ?_) (fun _ => ?_) fun hs hkind => ?_
    · cases p with
      | ready priority => simp [belongs, priorityOf, hstate, hpri]
      | waiters kind index =>
        simp only [belongs, setThread_same, hstate, setThread_waitObjectOf]
        exact and_congr_right fun hw => by rw [hobject hw]
    · rw [hpri, hini]
      exact h.priorities k hv
    · obtain ⟨ht, -⟩ := hwait _ hs
      rw [hstate] at hs
      rw [ht] at hkind
      rw [hobject hs]
      exact h.waits k hv hs hkind
  · refine ⟨h.family.turn (fun p' hp' hno => absurd ((setThread_isOn s p' k f).mp hp') hno)
      fun p' hp' hno => absurd ((setThread_isOn s p' k f).mpr hp') hno, fun j p => ?_, h.bits,
      fun kind index hon => h.counts kind index ((setThread_isOn s _ k f).mp hon),
      fun j hj => ?_, fun j hj => ?_⟩
    · rcases eq_or_ne j k with rfl | hjk
      · rw [h.mem_iff, setThread_valid]
        simp [hv]
      · rw [h.mem_iff, setThread_valid, setThread_belongs_ne s p k f hjk]
    · have hjk : j ≠ k := by
        rintro rfl
        exact hv hj
      rw [setThread_ne s k f hjk]
      exact h.priorities j hj
    · have hjk : j ≠ k := by
        rintro rfl
        exact hv hj
      rw [setThread_ne s k f hjk]
      exact h.waits j hj

/-! ### Ready queues -/

/-- A thread that is out is made ready, behind the others of its priority. -/
theorem Linked.makeReady (h : Linked s L (k :: out)) (hk : k ∉ out) (hv : s.Valid k) :
    Linked (s.makeReady k) (L.append (.ready (s.priorityOf k)) k) out := by
  have hmark : Linked (s.markReady k) L (k :: out) :=
    h.setThread (.inl List.mem_cons_self) (fun _ => h.priorities k hv) fun hs => by cases hs
  have hb : (s.markReady k).belongs k (.ready (s.priorityOf k)) := by
    simp [belongs, markReady, priorityOf]
  exact hmark.enqueue hk hv hb

/-- A thread that is out is made ready, ahead of the others of its priority. -/
theorem Linked.makeReadyFirst (h : Linked s L (k :: out)) (hk : k ∉ out) (hv : s.Valid k) :
    Linked (s.makeReadyFirst k) (L.push (.ready (s.priorityOf k)) k) out := by
  have hmark : Linked (s.markReady k) L (k :: out) :=
    h.setThread (.inl List.mem_cons_self) (fun _ => h.priorities k hv) fun hs => by cases hs
  have hb : (s.markReady k).belongs k (.ready (s.priorityOf k)) := by
    simp [belongs, markReady, priorityOf]
  exact hmark.pushFront hk hv hb

/-- The bit of a ready queue follows the queue. -/
theorem Linked.unlink_ready {priority : ℕ} (h : Linked s L out) (hk : k ∈ L (.ready priority)) :
    (s.unlink (.ready priority) k).clearIfEmpty priority =
      s.put (.ready priority) (Intrusive.unlink kNone s.links (s.queues (.ready priority)) k)
        ((L (.ready priority)).length - 1) := by
  have hne : L (.ready priority) ≠ [] := List.ne_nil_of_mem hk
  have hnew := (h.unlink hk).family.queue (.ready priority) trivial
  have hempty : (Intrusive.unlink kNone s.links (s.queues (.ready priority)) k).2.head = kNone ↔
      (L (.ready priority)).length - 1 = 0 := by
    rw [put_links, put_queues, Function.update_self, Lists.remove_apply, if_pos rfl] at hnew
    rw [hnew.head_eq_nil_iff, ← List.length_erase_of_mem hk, List.length_eq_zero_iff]
  have hqueue : (s.unlink (.ready priority) k).queues (.ready priority) =
      (Intrusive.unlink kNone s.links (s.queues (.ready priority)) k).2 := by
    simp [Sched.unlink, setQueue]
  rw [clearIfEmpty, hqueue]
  split
  · next hhead => simp [Sched.put, Sched.unlink, hempty.mp hhead]
  · next hhead =>
    -- the bit was set already, since the queue had a thread
    have hbit : s.readyBits priority = true := (h.bits priority).mpr hne
    have hlen := mt hempty.mpr hhead
    simp only [Sched.put, Sched.unlink, setBit, setQueue, hlen, ne_eq, not_false_eq_true,
      decide_true]
    rw [← hbit, Function.update_eq_self]

/-- A ready thread is taken off its queue. -/
theorem Linked.takeOffReady (h : Linked s L out) (hk : k ∈ L (.ready (s.priorityOf k))) :
    Linked (s.takeOffReady k) (L.remove (.ready (s.priorityOf k)) k) (k :: out) := by
  rw [Sched.takeOffReady, h.unlink_ready hk]
  exact h.unlink hk

/-- What `pick` has found: the first thread of the best queue that is not empty. -/
structure Picked (s : Sched) (L : Lists) (s' : Sched) (k : ℕ) (L' : Lists) : Prop where
  mem : k ∈ L (.ready (s.priorityOf k))
  state : (s.threads k).state = .ready
  valid : s.Valid k
  head : ∃ l, L (.ready (s.priorityOf k)) = k :: l ∧
    L' = Function.update L (.ready (s.priorityOf k)) l
  best : ∀ priority, priority < s.priorityOf k → L (.ready priority) = []
  same : ∃ r n, s' = s.put (.ready (s.priorityOf k)) r n

/-- **What `pick` does**: nothing when no thread is ready, or it takes off the first of the best
queue. -/
theorem Linked.pick (h : Linked s L out) :
    (s.pick = (kNone, s) ∧ ∀ priority, L (.ready priority) = []) ∨
      ∃ k s' L', s.pick = (k, s') ∧ Picked s L s' k L' ∧ Linked s' L' (k :: out) := by
  rw [Sched.pick]
  cases hfind : (List.range kPriorities).find? s.readyBits with
  | none =>
    refine .inl ⟨rfl, fun priority => ?_⟩
    by_contra hne
    -- a thread that is ready has one of the priorities that are searched
    obtain ⟨k, hk⟩ := List.exists_mem_of_ne_nil _ hne
    obtain ⟨-, hv, hb⟩ := (h.mem_iff k _).mp hk
    have hlt : priority < kPriorities := hb.2 ▸ (h.priorities k hv).1
    have hbit := List.find?_eq_none.mp hfind priority (List.mem_range.mpr hlt)
    exact hbit ((h.bits priority).mpr hne)
  | some priority =>
    right
    have hne : L (.ready priority) ≠ [] := (h.bits priority).mp (List.find?_some hfind)
    obtain ⟨k, l, hl⟩ := List.exists_cons_of_ne_nil hne
    have hk : k ∈ L (.ready priority) := hl ▸ List.mem_cons_self
    obtain ⟨-, hv, hb⟩ := (h.mem_iff k _).mp hk
    obtain rfl : priority = s.priorityOf k := hb.2.symm
    have hhead : (s.queues (.ready (s.priorityOf k))).head = k := by
      rw [(h.family.queue (.ready (s.priorityOf k)) trivial).head, hl]
      rfl
    have hpop : s.popFront (.ready (s.priorityOf k)) =
        (k, s.unlink (.ready (s.priorityOf k)) k) := by
      rw [Sched.popFront, hhead, if_pos (ne_kNone_of_lt hv.1)]
    have hremove : L.remove (.ready (s.priorityOf k)) k =
        Function.update L (.ready (s.priorityOf k)) l := by
      rw [Lists.remove, hl, List.erase_cons_head]
    refine ⟨k, _, Function.update L (.ready (s.priorityOf k)) l, ?_, ?_, hremove ▸ h.unlink hk⟩
    · dsimp only
      rw [hpop]
      dsimp only
      rw [h.unlink_ready hk]
    · refine ⟨hk, hb.1, hv, ⟨l, hl, rfl⟩, fun priority hlt => ?_, _, _, rfl⟩
      by_contra hne'
      have hbit := (h.bits priority).mpr hne'
      rw [List.find?_range_eq_some] at hfind
      have hno := hfind.2.2 priority hlt
      rw [hbit] at hno
      exact Bool.noConfusion hno

/-! ### Lists of waiters -/

/-- There are no more threads in a queue than there are records. -/
theorem Linked.length_le (h : Linked s L out) (hp : s.isOn p) : (L p).length ≤ kThreads := by
  have hsub : L p ⊆ List.range kThreads := fun k hk =>
    List.mem_range.mpr (h.valid_of_mem hk).1
  simpa using ((h.nodup hp).subperm hsub).length_le

/-- The lists once a thread has left the one it waits in. -/
def Lists.leave (s : Sched) (L : Lists) (k : ℕ) : Lists :=
  match s.waitObjectOf (s.threads k) with
  | some (kind, index) => L.remove (.waiters kind index) k
  | none => L

/-- Leaving a wait is leaving the queue of what was waited for, if it has one. -/
theorem leaveWait_eq (s : Sched) (k : ℕ) : s.leaveWait k =
    (match s.waitObjectOf (s.threads k) with
      | some (kind, index) =>
        s.put (.waiters kind index)
          (Intrusive.unlink kNone s.links (s.queues (.waiters kind index)) k)
          (sub32 (s.waiterCount kind index) 1)
      | none => s).setThread k fun t => { t with waitType := .notWaiting } := by
  rw [leaveWait]
  cases s.waitObjectOf (s.threads k) <;> rfl

/-- A waiting thread leaves the list it is in, if it is in one. -/
theorem Linked.leaveWait (h : Linked s L out) (hv : s.Valid k) (hk : k ∉ out)
    (hs : (s.threads k).state = .wait) :
    Linked (s.leaveWait k) (Lists.leave s L k) (k :: out) := by
  rw [leaveWait_eq, Lists.leave]
  cases hobject : s.waitObjectOf (s.threads k) with
  | none =>
    have hno : ∀ p, ¬ s.belongs k p := fun p hb => by
      cases p with
      | ready priority => exact absurd (hs.symm.trans hb.1) (by decide)
      | waiters kind index => exact absurd (hobject.symm.trans hb.2) (by simp)
    exact (h.open hno).setThread (.inl List.mem_cons_self) (h.priorities k)
      fun _ hkind => absurd rfl hkind
  | some object =>
    obtain ⟨kind, index⟩ := object
    have hmem : k ∈ L (.waiters kind index) := (h.mem_iff k _).mpr ⟨hk, hv, hs, hobject⟩
    have hon := isOn_of_waitObjectOf hobject
    have hcount : sub32 (s.waiterCount kind index) 1 = (L (.waiters kind index)).length - 1 := by
      have hpos := List.length_pos_of_mem hmem
      have hle : (L (.waiters kind index)).length ≤ 48 := h.length_le hon
      rw [h.counts kind index hon]
      exact sub32_eq hpos (by omega)
    dsimp only
    rw [hcount]
    exact (h.unlink hmem).setThread (.inl List.mem_cons_self) (by simpa using h.priorities k)
      fun _ hkind => absurd rfl hkind

theorem put_setThread (s : Sched) (p : Place) (r : Links ℕ × Queue ℕ) (n k : ℕ)
    (f : Thread → Thread) : (s.put p r n).setThread k f = (s.setThread k f).put p r n := by
  cases p <;> rfl

/-- `Behind s k l l₁ l₂`: the thread `k` comes between `l₁` and `l₂` if it is put in front of the
first thread of `l` with a worse priority. -/
def Behind (s : Sched) (k : ℕ) (l l₁ l₂ : List ℕ) : Prop :=
  l = l₁ ++ l₂ ∧ (∀ j ∈ l₁, s.priorityOf j ≤ s.priorityOf k) ∧
    ∀ j, l₂.head? = some j → s.priorityOf k < s.priorityOf j

/-- What `enqueueByPriority` writes. -/
theorem Linked.enqueueByPriority_eq (h : Linked s L out) (hp : s.isOn p) (k : ℕ) :
    ∃ l₁ l₂, Behind s k (L p) l₁ l₂ ∧
      s.enqueueByPriority p k = some (s.setQueue p (match l₂ with
        | [] => Intrusive.enqueue kNone s.links (s.queues p) k
        | y :: _ => Intrusive.insertBefore kNone s.links (s.queues p) k y)) := by
  have hq := h.family.queue p hp
  have hwalk := hq.chain.walk (g := s.isWorse k) (by simp [isWorse])
    (Nat.lt_succ_of_le (h.length_le hp))
  have hne : ∀ j ∈ L p, j ≠ kNone := fun j hj => ne_kNone_of_lt (h.valid_of_mem hj).1
  rw [Sched.enqueueByPriority, kQueueTurns, hwalk]
  cases hfind : (L p).find? (s.isWorse k) with
  | none =>
    refine ⟨L p, [], ⟨(List.append_nil _).symm, fun j hj => ?_, by simp⟩, ?_⟩
    · have hno := List.find?_eq_none.mp hfind j hj
      simpa [isWorse, hne j hj] using hno
    · simp [Sched.enqueue]
  | some y =>
    obtain ⟨hy, l₁, l₂, hl, hpre⟩ := List.find?_eq_some_iff_append.mp hfind
    have hmem : y ∈ L p := hl ▸ List.mem_append_right l₁ List.mem_cons_self
    refine ⟨l₁, y :: l₂, ⟨hl, fun j hj => ?_, fun j hj => ?_⟩, ?_⟩
    · have hno := hpre j hj
      have hj' : j ∈ L p := hl ▸ List.mem_append_left _ hj
      simpa [isWorse, hne j hj'] using hno
    · obtain rfl : y = j := by simpa using hj
      simpa [isWorse, hne y hmem] using hy
    · simp [hne y hmem]

/-- The place of a new waiter: behind the others, or by its priority. -/
def Joins (s : Sched) (k : ℕ) (byPriority : Bool) (l l₁ l₂ : List ℕ) : Prop :=
  if byPriority then Behind s k l l₁ l₂ else l₁ = l ∧ l₂ = []

/-- **A thread that is out joins the waiters of an object**: it is linked, counted, and marked as
waiting. -/
theorem Linked.join {kind : Kind} {index : ℕ} {f : Thread → Thread}
    (h : Linked s L (k :: out)) (byPriority : Bool) (hk : k ∉ out) (hv : s.Valid k)
    (hstate : (f (s.threads k)).state = .wait)
    (hobject : s.waitObjectOf (f (s.threads k)) = some (kind, index))
    (hpri : (f (s.threads k)).currentPriority = (s.threads k).currentPriority)
    (hini : (f (s.threads k)).initialPriority = (s.threads k).initialPriority) :
    ∃ r l₁ l₂, (if byPriority then s.enqueueByPriority (.waiters kind index) k
        else some (s.enqueue (.waiters kind index) k)) = some (s.setQueue (.waiters kind index) r) ∧
      Joins s k byPriority (L (.waiters kind index)) l₁ l₂ ∧
      Linked (((s.setQueue (.waiters kind index) r).setCount kind index
          (s.waiterCount kind index + 1)).setThread k f)
        (Function.update L (.waiters kind index) (l₁ ++ k :: l₂)) out := by
  have hon := isOn_of_waitObjectOf hobject
  have hwrite : Linked (s.setThread k f) L (k :: out) :=
    h.setThread (.inl List.mem_cons_self) (fun hv => by
      rw [hpri, hini]
      exact h.priorities k hv) fun _ _ => by simp [hobject]
  have hb : (s.setThread k f).belongs k (.waiters kind index) := by
    simp [belongs, hstate, hobject]
  have hcount : s.waiterCount kind index + 1 = (L (.waiters kind index)).length + 1 := by
    rw [h.counts kind index hon]
  -- the record may as well be written first
  have hcomm : ∀ r, ((s.setQueue (.waiters kind index) r).setCount kind index
      (s.waiterCount kind index + 1)).setThread k f =
        (s.setThread k f).put (.waiters kind index) r ((L (.waiters kind index)).length + 1) :=
    fun r => by
      rw [hcount]
      exact put_setThread s (.waiters kind index) r _ k f
  cases byPriority with
  | false =>
    refine ⟨_, L (.waiters kind index), [], rfl, ⟨rfl, rfl⟩, ?_⟩
    rw [hcomm]
    exact hwrite.enqueue hk hv hb
  | true =>
    obtain ⟨l₁, l₂, hbehind, heq⟩ := h.enqueueByPriority_eq hon k
    refine ⟨_, l₁, l₂, heq, hbehind, ?_⟩
    rw [hcomm]
    obtain ⟨hl, -, -⟩ := hbehind
    cases l₂ with
    | nil =>
      rw [List.append_nil] at hl
      rw [← hl]
      exact hwrite.enqueue hk hv hb
    | cons y l₂ => exact hwrite.insertBefore hk hv hb hl

end Primitives

end PS2Bios.Threadman
