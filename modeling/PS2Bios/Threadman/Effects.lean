import PS2Bios.Threadman.Dispatch

/-!
# Writes that the queues do not depend on, and records taken and given up

`Quiet s s'` says that what a call has written is no matter of the scheduler: the words of objects,
the messages, the results, and the fields of a record that no queue is about. A record of a thread
or of an object may be taken or given up while no queue has it. Both keep `Linked` and `Sound`.
-/

namespace PS2Bios.Threadman

open Intrusive Sched

/-- Nothing that the scheduler depends on is written. -/
structure Quiet (s s' : Sched) : Prop where
  pools : s'.pools = s.pools
  links : s'.links = s.links
  queues : s'.queues = s.queues
  waiterCount : s'.waiterCount = s.waiterCount
  readyBits : s'.readyBits = s.readyBits
  current : s'.current = s.current
  pending : s'.pending = s.pending
  state : ∀ k, (s'.threads k).state = (s.threads k).state
  waitType : ∀ k, (s'.threads k).waitType = (s.threads k).waitType
  waitId : ∀ k, (s'.threads k).waitId = (s.threads k).waitId
  initial : ∀ k, (s'.threads k).initialPriority = (s.threads k).initialPriority
  priority : ∀ k, s'.priorityOf k = s.priorityOf k
  frame : ∀ k, (s'.threads k).frame = (s.threads k).frame

section Quiet

variable {s s' s'' : Sched} {L : Lists} {out : List ℕ} {k : ℕ}

theorem Quiet.refl (s : Sched) : Quiet s s :=
  ⟨rfl, rfl, rfl, rfl, rfl, rfl, rfl, fun _ => rfl, fun _ => rfl, fun _ => rfl, fun _ => rfl,
    fun _ => rfl, fun _ => rfl⟩

/-- Two quiet steps are a quiet one. -/
theorem Quiet.trans (h : Quiet s s') (h' : Quiet s' s'') : Quiet s s'' :=
  ⟨h'.pools.trans h.pools, h'.links.trans h.links, h'.queues.trans h.queues,
    h'.waiterCount.trans h.waiterCount, h'.readyBits.trans h.readyBits,
    h'.current.trans h.current, h'.pending.trans h.pending,
    fun k => (h'.state k).trans (h.state k), fun k => (h'.waitType k).trans (h.waitType k),
    fun k => (h'.waitId k).trans (h.waitId k), fun k => (h'.initial k).trans (h.initial k),
    fun k => (h'.priority k).trans (h.priority k), fun k => (h'.frame k).trans (h.frame k)⟩

theorem Quiet.valid (h : Quiet s s') : s'.Valid k ↔ s.Valid k := by
  rw [Valid, Valid, h.pools]

theorem Quiet.waitObjectOf (h : Quiet s s') (k : ℕ) :
    s'.waitObjectOf (s'.threads k) = s.waitObjectOf (s.threads k) := by
  rw [waitObjectOf_eq, waitObjectOf_eq, h.waitType, h.waitId, h.pools]

theorem Quiet.isOn (h : Quiet s s') (p : Place) : s'.isOn p ↔ s.isOn p := by
  cases p <;> simp [Sched.isOn, h.pools]

theorem Quiet.belongs (h : Quiet s s') (p : Place) : s'.belongs k p ↔ s.belongs k p := by
  cases p with
  | ready priority => rw [Sched.belongs, Sched.belongs, h.state, h.priority]
  | waiters kind index => rw [Sched.belongs, Sched.belongs, h.state, h.waitObjectOf]

theorem Quiet.settled (h : Quiet s s') : s'.Settled ↔ s.Settled := by
  rw [Settled, Settled, h.pending, h.current]

/-- A quiet step changes no queue. -/
theorem Quiet.linked (hq : Quiet s s') (h : Linked s L out) : Linked s' L out where
  family := by
    rw [hq.links, hq.queues]
    exact h.family.turn (fun p' hp' hno => absurd ((hq.isOn p').mp hp') hno)
      fun p' hp' hno => absurd ((hq.isOn p').mpr hp') hno
  mem_iff j p := by
    rw [h.mem_iff, hq.valid, hq.belongs]
  bits priority := by
    rw [hq.readyBits]
    exact h.bits priority
  counts kind index hon := by
    rw [hq.waiterCount]
    exact h.counts kind index ((hq.isOn _).mp hon)
  priorities j hj := by
    have hp := h.priorities j (hq.valid.mp hj)
    have hpri : (s'.threads j).currentPriority = (s.threads j).currentPriority := hq.priority j
    rw [hpri, hq.initial]
    exact hp
  waits j hj := by
    rw [hq.state, hq.waitType, hq.waitObjectOf]
    exact h.waits j (hq.valid.mp hj)

/-- A quiet step leaves the scheduler sound. -/
theorem Quiet.sound (hq : Quiet s s') (h : Sound s L) : Sound s' L where
  linked := by
    rw [hq.pending]
    exact hq.linked h.linked
  current := by
    rw [hq.current]
    exact hq.valid.mpr h.current
  pending := by
    rw [hq.pending]
    exact hq.valid.mpr h.pending
  settled hset := by
    rw [hq.pending, hq.state]
    exact h.settled (hq.settled.mp hset)
  staged hset := by
    rw [hq.pending, hq.state]
    exact h.staged (mt hq.settled.mpr hset)
  running j hj hs := by
    rw [hq.state] at hs
    rw [hq.current, hq.settled]
    exact h.running j (hq.valid.mp hj) hs

/-- Writing fields of a record that the scheduler does not depend on. -/
theorem quiet_setThread {f : Thread → Thread} (s : Sched) (k : ℕ)
    (hf : ∀ t, (f t).state = t.state ∧ (f t).waitType = t.waitType ∧ (f t).waitId = t.waitId ∧
      (f t).initialPriority = t.initialPriority ∧ (f t).currentPriority = t.currentPriority ∧
      (f t).frame = t.frame) : Quiet s (s.setThread k f) := by
  have hthreads : ∀ {α : Type} (g : Thread → α), (∀ t, g (f t) = g t) → ∀ j,
      g ((s.setThread k f).threads j) = g (s.threads j) := fun g hg j => by
    rw [setThread_threads]
    split
    · next hj => rw [hg, hj]
    · rfl
  exact
    ⟨rfl, rfl, rfl, rfl, rfl, rfl, rfl, hthreads Thread.state fun t => (hf t).1,
      hthreads Thread.waitType fun t => (hf t).2.1, hthreads Thread.waitId fun t => (hf t).2.2.1,
      hthreads Thread.initialPriority fun t => (hf t).2.2.2.1,
      hthreads Thread.currentPriority fun t => (hf t).2.2.2.2.1,
      hthreads Thread.frame fun t => (hf t).2.2.2.2.2⟩

theorem quiet_setEvent (s : Sched) (k : ℕ) (f : EventFlag → EventFlag) : Quiet s (s.setEvent k f) :=
  ⟨rfl, rfl, rfl, rfl, rfl, rfl, rfl, fun _ => rfl, fun _ => rfl, fun _ => rfl, fun _ => rfl,
    fun _ => rfl, fun _ => rfl⟩

theorem quiet_setSemaphore (s : Sched) (k : ℕ) (f : Semaphore → Semaphore) :
    Quiet s (s.setSemaphore k f) :=
  ⟨rfl, rfl, rfl, rfl, rfl, rfl, rfl, fun _ => rfl, fun _ => rfl, fun _ => rfl, fun _ => rfl,
    fun _ => rfl, fun _ => rfl⟩

theorem quiet_setMailbox (s : Sched) (k : ℕ) (f : Mailbox → Mailbox) :
    Quiet s (s.setMailbox k f) :=
  ⟨rfl, rfl, rfl, rfl, rfl, rfl, rfl, fun _ => rfl, fun _ => rfl, fun _ => rfl, fun _ => rfl,
    fun _ => rfl, fun _ => rfl⟩

theorem quiet_setNext (s : Sched) (message next : ℕ) : Quiet s (s.setNext message next) :=
  ⟨rfl, rfl, rfl, rfl, rfl, rfl, rfl, fun _ => rfl, fun _ => rfl, fun _ => rfl, fun _ => rfl,
    fun _ => rfl, fun _ => rfl⟩

theorem quiet_out (s : Sched) (out : ℕ → ℕ) : Quiet s { s with out := out } :=
  ⟨rfl, rfl, rfl, rfl, rfl, rfl, rfl, fun _ => rfl, fun _ => rfl, fun _ => rfl, fun _ => rfl,
    fun _ => rfl, fun _ => rfl⟩

theorem quiet_writeOut (s : Sched) (result v : ℕ) : Quiet s (s.writeOut result v) := by
  rw [writeOut]
  split
  · exact Quiet.refl s
  · exact quiet_out s _

/-- Taking a flag's bits is quiet. -/
theorem quiet_takeBits (s : Sched) (k result : ℕ) (mode : UInt32) :
    Quiet s (s.takeBits k result mode) := by
  rw [takeBits]
  split
  · exact (quiet_writeOut s _ _).trans (quiet_setEvent _ k _)
  · exact quiet_writeOut s _ _

/-- Queueing a message is quiet. -/
theorem quiet_queueMessage (s : Sched) (k message : ℕ) : Quiet s (s.queueMessage k message) := by
  rw [queueMessage]
  dsimp only
  split
  · exact (quiet_setNext s _ _).trans (quiet_setMailbox _ k _)
  · split
    · exact ((quiet_setNext s _ _).trans (quiet_setNext _ _ _)).trans (quiet_setMailbox _ k _)
    · split
      · exact ((quiet_setNext s _ _).trans (quiet_setNext _ _ _)).trans (quiet_setMailbox _ k _)
      · exact (quiet_setNext s _ _).trans (quiet_setNext _ _ _)

/-- Taking a message is quiet. -/
theorem quiet_dequeueMessage (s : Sched) (k : ℕ) : Quiet s (s.dequeueMessage k).2 := by
  rw [dequeueMessage]
  dsimp only
  split
  · exact (quiet_setMailbox s k _).trans (quiet_setMailbox _ k _)
  · exact (quiet_setNext s _ _).trans (quiet_setMailbox _ k _)

theorem quiet_takeMessage (s : Sched) (k received : ℕ) : Quiet s (s.takeMessage k received).1 :=
  (quiet_dequeueMessage s k).trans (quiet_out _ _)

end Quiet

/-! ### Records taken and given up -/

section Records

variable {s : Sched} {L : Lists} {k : ℕ} {kind : Kind} {slot : Slot}

/-- Write one slot of the pools. -/
def Sched.setSlot (s : Sched) (kind : Kind) (k : ℕ) (slot : Slot) : Sched :=
  { s with pools := s.pools.set kind k slot }

/-- A slot that is stored changes what is found of that slot only. -/
theorem setSlot_lookup {kind' : Kind} {k' : ℕ} {id : UInt32} (hne : ¬ (kind' = kind ∧ k' = k)) :
    lookup kind' (s.setSlot kind k slot).pools id = some k' ↔
      lookup kind' s.pools id = some k' := by
  have hslot : (s.setSlot kind k slot).pools kind' k' = s.pools kind' k' := by
    rw [setSlot]
    exact (Pools.set_apply ..).trans (if_neg hne)
  rw [lookup_eq_some, lookup_eq_some, hslot]

/-- Where nobody waits on the object of a slot before or after, the slot is no matter of who waits
on what. -/
theorem setSlot_waitObjectOf {t : Thread} (hold : s.waitObjectOf t ≠ some (kind, k))
    (hnew : (s.setSlot kind k slot).waitObjectOf t ≠ some (kind, k)) :
    (s.setSlot kind k slot).waitObjectOf t = s.waitObjectOf t := by
  have hiff : ∀ object, (s.setSlot kind k slot).waitObjectOf t = some object ↔
      s.waitObjectOf t = some object := by
    rintro ⟨kind', k'⟩
    by_cases heq : kind' = kind ∧ k' = k
    · obtain ⟨rfl, rfl⟩ := heq
      exact ⟨fun h => absurd h hnew, fun h => absurd h hold⟩
    · simp only [waitObjectOf_eq, Option.bind_eq_some_iff, Option.map_eq_some_iff, Prod.mk.injEq]
      refine exists_congr fun kind₁ => and_congr_right fun _ => exists_congr fun k₁ => ?_
      constructor
      · rintro ⟨hl, rfl, rfl⟩
        exact ⟨(setSlot_lookup heq).mp hl, rfl, rfl⟩
      · rintro ⟨hl, rfl, rfl⟩
        exact ⟨(setSlot_lookup heq).mpr hl, rfl, rfl⟩
  exact Option.ext fun object => hiff object

/-- A thread is no object that a thread waits on. -/
theorem waitObjectOf_ne_thread (s : Sched) (t : Thread) (k : ℕ) :
    s.waitObjectOf t ≠ some (.thread, k) := fun h => (isOn_of_waitObjectOf h).1 rfl

variable (s slot) in

/-- A slot that is stored turns on the places of that slot only. -/
theorem setSlot_isOn {p : Place} (hp : p ≠ .waiters kind k ∨ kind = .thread) :
    (s.setSlot kind k slot).isOn p ↔ s.isOn p := by
  cases p with
  | ready priority => exact Iff.rfl
  | waiters kind' k' =>
    simp only [isOn, setSlot, Pools.set_apply]
    refine and_congr_right fun hkind => and_congr_right fun _ => ?_
    by_cases heq : kind' = kind ∧ k' = k
    · obtain ⟨rfl, rfl⟩ := heq
      rcases hp with hp | hp
      · exact absurd rfl hp
      · exact absurd hp hkind
    · rw [if_neg heq]

/-- **A thread's record is taken or given up** while the thread belongs nowhere. -/
theorem Linked.setThreadSlot {f : Thread → Thread} {links : Links ℕ} {out : List ℕ}
    (h : Linked s L out) (hno : ∀ p, k ∉ L p)
    (hlinks : ∀ j, j ≠ k → links.next j = s.links.next j ∧ links.prev j = s.links.prev j)
    (hstate : (f (s.threads k)).state ≠ .ready ∧ (f (s.threads k)).state ≠ .wait)
    (hpri : (f (s.threads k)).currentPriority < kPriorities ∧
      (f (s.threads k)).initialPriority < kPriorities) :
    Linked ({ s.setSlot .thread k slot with links := links }.setThread k f) L out := by
  set s' := { s.setSlot .thread k slot with links := links }.setThread k f with hs'
  have hthreads : ∀ j, j ≠ k → s'.threads j = s.threads j := fun j hj => setThread_ne _ _ _ hj
  have hsame : s'.threads k = f (s.threads k) := setThread_same _ _ _
  have hvalid : ∀ j, j ≠ k → (s'.Valid j ↔ s.Valid j) := fun j hj => by
    change j < kThreads ∧ ((s.pools.set .thread k slot) .thread j).inUse = true ↔ _
    rw [Pools.set_apply, if_neg (fun hc => hj hc.2)]
    rfl
  have hobject : ∀ t, s'.waitObjectOf t = s.waitObjectOf t := fun t =>
    setSlot_waitObjectOf (waitObjectOf_ne_thread s t k) (waitObjectOf_ne_thread _ t k)
  have hon : ∀ p, s'.isOn p ↔ s.isOn p := fun p => by
    refine Iff.trans ?_ (setSlot_isOn s slot (p := p) (k := k) (.inr rfl))
    cases p <;> rfl
  refine ⟨?_, fun j p => ?_, h.bits, fun kind index hkind => h.counts kind index ((hon _).mp hkind),
    fun j hj => ?_, fun j hj => ?_⟩
  · have hfamily : Family kNone links s.queues s.isOn L := by
      refine h.family.congr (fun p _ => rfl) fun p j hj => hlinks j ?_
      rintro rfl
      exact hno p hj
    exact hfamily.turn (fun p hp hp' => absurd ((hon p).mp hp) hp')
      fun p hp hp' => absurd ((hon p).mpr hp) hp'
  · rcases eq_or_ne j k with rfl | hjk
    · refine ⟨fun hj => absurd hj (hno p), fun hj => ?_⟩
      exact absurd hj.2.2 (not_belongs (hsame ▸ hstate.1) (hsame ▸ hstate.2))
    · rw [h.mem_iff, hvalid j hjk]
      have hb : s'.belongs j p ↔ s.belongs j p := by
        cases p <;> simp [belongs, priorityOf, hthreads j hjk, hobject]
      rw [hb]
  · rcases eq_or_ne j k with rfl | hjk
    · rw [hsame]
      exact hpri
    · rw [hthreads j hjk]
      exact h.priorities j ((hvalid j hjk).mp hj)
  · rcases eq_or_ne j k with rfl | hjk
    · rw [hsame]
      exact fun hs => absurd hs hstate.2
    · rw [hthreads j hjk, hobject]
      exact h.waits j ((hvalid j hjk).mp hj)

/-- The same for the whole invariant: the thread is neither current nor pending. -/
theorem Sound.setThreadSlot {f : Thread → Thread} {links : Links ℕ} (h : Sound s L)
    (hno : ∀ p, k ∉ L p) (hcur : k ≠ s.current) (hpend : k ≠ s.pending)
    (hlinks : ∀ j, j ≠ k → links.next j = s.links.next j ∧ links.prev j = s.links.prev j)
    (hstate : (f (s.threads k)).state = .dormant ∨ (f (s.threads k)).state = .free)
    (hpri : (f (s.threads k)).currentPriority < kPriorities ∧
      (f (s.threads k)).initialPriority < kPriorities) :
    Sound ({ s.setSlot .thread k slot with links := links }.setThread k f) L := by
  have hne : (f (s.threads k)).state ≠ .ready ∧ (f (s.threads k)).state ≠ .wait ∧
      (f (s.threads k)).state ≠ .run := by
    rcases hstate with hs | hs <;> rw [hs] <;> decide
  set s' := { s.setSlot .thread k slot with links := links }.setThread k f with hs'
  have hthreads : ∀ j, j ≠ k → s'.threads j = s.threads j := fun j hj => setThread_ne _ _ _ hj
  have hvalid : ∀ j, j ≠ k → (s'.Valid j ↔ s.Valid j) := fun j hj => by
    change j < kThreads ∧ ((s.pools.set .thread k slot) .thread j).inUse = true ↔ _
    rw [Pools.set_apply, if_neg (fun hc => hj hc.2)]
    rfl
  exact
    { linked := h.linked.setThreadSlot hno hlinks ⟨hne.1, hne.2.1⟩ hpri
      current := (hvalid _ hcur.symm).mpr h.current
      pending := (hvalid _ hpend.symm).mpr h.pending
      settled := fun hset => by
        change (s'.threads s.pending).state = .run
        rw [hthreads _ hpend.symm]
        exact h.settled hset
      staged := fun hset => by
        change (s'.threads s.pending).state = .ready
        rw [hthreads _ hpend.symm]
        exact h.staged hset
      running := fun j hj hs => by
        rcases eq_or_ne j k with rfl | hjk
        · rw [hs', setThread_same] at hs
          exact absurd hs hne.2.2
        · rw [hthreads j hjk] at hs
          exact h.running j ((hvalid j hjk).mp hj) hs }

/-- **An object's record is taken or given up** while nobody waits on it. The queue and the count
of a new object are those of an empty list. -/
theorem Linked.setObjectSlot {out : List ℕ} (h : Linked s L out) (hkind : kind ≠ .thread)
    (hempty : L (.waiters kind k) = []) (hout : ∀ j ∈ out, (s.threads j).state ≠ .wait)
    (hnone : slot.inUse = false ∨ (s.pools kind k).inUse = false) (r : Queue ℕ) (n : ℕ)
    (hnew : slot.inUse = true → r = ⟨kNone, kNone⟩ ∧ n = 0) :
    Linked (((s.setSlot kind k slot).setQueue (.waiters kind k) (s.links, r)).setCount kind k n)
      L out := by
  have hno : ∀ j, s.Valid j → (s.threads j).state = .wait →
      s.waitObjectOf (s.threads j) ≠ some (kind, k) := by
    intro j hj hs hobject
    have hmem := (h.mem_iff j (.waiters kind k)).mpr ⟨fun hjo => hout j hjo hs, hj, hs, hobject⟩
    rw [hempty] at hmem
    exact List.not_mem_nil hmem
  -- whoever waits on something waits on it still, and on nothing else
  have hobject : ∀ j, s.Valid j → (s.threads j).state = .wait →
      (s.setSlot kind k slot).waitObjectOf (s.threads j) = s.waitObjectOf (s.threads j) := by
    intro j hj hs
    refine setSlot_waitObjectOf (hno j hj hs) fun hc => ?_
    by_cases hw : (s.threads j).waitType.kind = none
    · rw [waitObjectOf_eq, hw] at hc
      cases hc
    · obtain ⟨⟨kind', k'⟩, hsome⟩ := Option.ne_none_iff_exists'.mp (h.waits j hj hs hw)
      have hne : ¬ (kind' = kind ∧ k' = k) := fun heq => hno j hj hs (by rw [hsome, heq.1, heq.2])
      rw [waitObjectOf_eq] at hc hsome
      obtain ⟨kind₁, hk₁, hsome⟩ := Option.bind_eq_some_iff.mp hsome
      obtain ⟨k₁, hl₁, heq⟩ := Option.map_eq_some_iff.mp hsome
      obtain ⟨rfl, rfl⟩ := Prod.mk.inj heq
      obtain ⟨kind₂, hk₂, hc⟩ := Option.bind_eq_some_iff.mp hc
      obtain ⟨k₂, hl₂, heq⟩ := Option.map_eq_some_iff.mp hc
      obtain ⟨rfl, rfl⟩ := Prod.mk.inj heq
      obtain rfl : kind₁ = kind₂ := Option.some.inj (hk₁.symm.trans hk₂)
      rw [(setSlot_lookup hne).mpr hl₁] at hl₂
      exact hne ⟨rfl, Option.some.inj hl₂⟩
  set s' := ((s.setSlot kind k slot).setQueue (.waiters kind k) (s.links, r)).setCount kind k n
    with hs'
  have hvalid : ∀ j, s'.Valid j ↔ s.Valid j := fun j => by
    change j < kThreads ∧ ((s.pools.set kind k slot) .thread j).inUse = true ↔ _
    rw [Pools.set_apply, if_neg (fun hc => hkind hc.1.symm)]
    rfl
  have hother : ∀ p, p ≠ .waiters kind k → (s'.isOn p ↔ s.isOn p) := fun p hp => by
    refine Iff.trans ?_ (setSlot_isOn s slot (.inl hp))
    cases p <;> rfl
  have hqueue : ∀ p, p ≠ .waiters kind k → s'.queues p = s.queues p := fun p hp =>
    Function.update_of_ne hp _ _
  have hnewly : s'.isOn (.waiters kind k) → slot.inUse = true := fun hon => by
    have hin := hon.2.2
    change ((s.pools.set kind k slot) kind k).inUse = true at hin
    rwa [Pools.set_apply, if_pos ⟨rfl, rfl⟩] at hin
  refine ⟨⟨fun p hp => ?_, fun p hp => ?_, h.family.disjoint⟩, fun j p => ?_, h.bits,
    fun kind' k' hon => ?_, fun j hj => h.priorities j ((hvalid j).mp hj), fun j hj hs hw => ?_⟩
  · rcases eq_or_ne p (.waiters kind k) with rfl | hne
    · rw [hempty, (show s'.queues (.waiters kind k) = r from Function.update_self ..),
        (hnew (hnewly hp)).1]
      exact isQueue_empty s.links
    · rw [hqueue p hne]
      exact h.family.queue p ((hother p hne).mp hp)
  · rcases eq_or_ne p (.waiters kind k) with rfl | hne
    · exact hempty
    · exact h.family.off p (mt (hother p hne).mpr hp)
  · rw [h.mem_iff, hvalid]
    refine and_congr_right fun _ => and_congr_right fun hj => ?_
    cases p with
    | ready priority => exact Iff.rfl
    | waiters kind' k' =>
      refine and_congr_right fun hs => ?_
      change _ ↔ (s.setSlot kind k slot).waitObjectOf (s.threads j) = some (kind', k')
      rw [hobject j hj hs]
  · by_cases heq : kind' = kind ∧ k' = k
    · obtain ⟨rfl, rfl⟩ := heq
      rw [hempty, List.length_nil, ← (hnew (hnewly hon)).2]
      simp [hs', setCount]
    · have hne : Place.waiters kind' k' ≠ .waiters kind k := fun hc => heq (by
        injection hc with h₁ h₂
        exact ⟨h₁, h₂⟩)
      rw [← h.counts kind' k' ((hother _ hne).mp hon)]
      have hput := put_waiterCount (s.setSlot kind k slot) (.waiters kind k) (s.links, r) n kind' k'
      rw [if_neg (Ne.symm hne)] at hput
      exact hput
  · intro hc
    refine h.waits j ((hvalid j).mp hj) hs hw ?_
    rw [← hobject j ((hvalid j).mp hj) hs]
    exact hc

end Records

end PS2Bios.Threadman
