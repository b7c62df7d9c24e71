import PS2Bios.Threadman.Running

/-!
# The scheduler's representation

`Represented s L` is what THREADMAN's variables are meant to say whenever thread code runs with
interrupts enabled: every ready thread is linked once, in the ready queue of its own priority, the
thread that runs is in no queue, who waits or is dormant is in no ready queue, and the bitmap, the
counts of waiters and the links agree with all that. Every careful run keeps it, and no careful act
gets stuck: no loop along a queue goes astray, and whoever is switched to has a frame.
-/

namespace PS2Bios.Threadman

open Intrusive Sched

/-- The queues are the lists `L`, of just the threads that belong in them, each once. -/
structure Sched.Represented (s : Sched) (L : Lists) : Prop where
  pending : s.pending = s.current
  running : ∀ k, s.Valid k → ((s.threads k).state = .run ↔ k = s.current)
  linked : ∀ p, s.isOn p → IsQueue kNone s.links (s.queues p) (L p)
  once : ∀ p, (L p).Nodup
  nowhere : ∀ p, s.current ∉ L p
  ready : ∀ k priority, k ∈ L (.ready priority) ↔
    s.Valid k ∧ (s.threads k).state = .ready ∧ (s.threads k).currentPriority = priority
  waiters : ∀ k kind index, k ∈ L (.waiters kind index) ↔
    s.Valid k ∧ (s.threads k).state = .wait ∧
      s.waitObjectOf (s.threads k) = some (kind, index)
  bits : ∀ priority, s.readyBits priority = true ↔ (s.queues (.ready priority)).head ≠ kNone
  counts : ∀ kind index, s.isOn (.waiters kind index) →
    s.waiterCount kind index = (L (.waiters kind index)).length

section Representation

variable {s : Sched} {L : Lists}

/-- A scheduler that is sound and settled is represented by its lists. -/
theorem Sound.represented (h : Sound s L) (hset : s.Settled) : s.Represented L := by
  have hpend : s.pending = s.current := hset
  have hrun : (s.threads s.current).state = .run := hpend ▸ h.settled hset
  refine ⟨hset, fun k hk => ⟨fun hs => (h.running k hk hs).1, fun hs => hs ▸ hrun⟩,
    h.linked.family.queue, fun p => ?_, fun p => hpend ▸ h.linked.not_mem p, fun k priority => ?_,
    fun k kind index => ?_, fun priority => ?_, h.linked.counts⟩
  · by_cases hp : s.isOn p
    · exact h.linked.nodup hp
    · rw [h.linked.family.off p hp]
      exact List.nodup_nil
  · rw [h.linked.mem_iff]
    refine ⟨fun hk => ⟨hk.2.1, hk.2.2⟩, fun hk => ⟨?_, hk.1, hk.2⟩⟩
    rintro hmem
    obtain rfl := List.mem_singleton.mp hmem
    exact absurd (hk.2.1.symm.trans (h.settled hset)) (by decide)
  · rw [h.linked.mem_iff]
    refine ⟨fun hk => ⟨hk.2.1, hk.2.2⟩, fun hk => ⟨?_, hk.1, hk.2⟩⟩
    rintro hmem
    obtain rfl := List.mem_singleton.mp hmem
    exact h.pending_not_waiting hk.2.1
  · rw [h.linked.bits, Ne, Ne, (h.linked.family.queue (.ready priority) trivial).head_eq_nil_iff]

end Representation

/-! ### The start -/

section Start

variable (messages : ℕ → Message) (out : ℕ → ℕ)

/-- At the start there are two threads. -/
theorem started_valid (k : ℕ) : (cleared messages out).Valid k ↔ k < 2 := by
  simp only [Valid, cleared, World.started, true_and]
  constructor
  · rintro ⟨-, hk⟩
    by_contra hno
    rw [if_neg hno] at hk
    cases hk
  · intro hk
    exact ⟨by rw [kThreads]; omega, by rw [if_pos hk]⟩

/-- Before the first thread is ready every queue is empty. -/
theorem cleared_linked : Linked (cleared messages out) (fun _ => []) [0, 1] := by
  have hon : ∀ kind index, ¬ (cleared messages out).isOn (.waiters kind index) := by
    rintro kind index ⟨hkind, -, hin⟩
    simp [cleared, World.started, hkind] at hin
  refine ⟨⟨fun p hp => ?_, fun _ _ => rfl, fun p p' x hx => absurd hx List.not_mem_nil⟩,
    fun k p => ?_, fun priority => ?_, fun kind index h => absurd h (hon kind index),
    fun k hk => ?_, fun k hk hw => ?_⟩
  · cases p with
    | ready priority => exact isQueue_empty _
    | waiters kind index => exact absurd hp (hon kind index)
  · refine ⟨fun h => absurd h List.not_mem_nil, fun h => ?_⟩
    have hk := (started_valid messages out k).mp h.2.1
    have hno : k ∉ [0, 1] := h.1
    simp only [List.mem_cons, List.not_mem_nil, or_false] at hno
    omega
  · simp [cleared]
  · have hk := (started_valid messages out k).mp hk
    have hidle : kIdlePriority < kPriorities := by decide
    have hboot : kBootPriority < kPriorities ∧ kBootInitialPriority < kPriorities := by decide
    rcases (by omega : k = 0 ∨ k = 1) with rfl | rfl
    · exact ⟨hidle, hidle⟩
    · exact hboot
  · have hk := (started_valid messages out k).mp hk
    rcases (by omega : k = 0 ∨ k = 1) with rfl | rfl
    · cases hw
    · cases hw

/-- The lists at the start: the idle thread is ready. -/
def Lists.started : Lists := Lists.append (fun _ => []) (.ready kIdlePriority) 0

/-- What holds between two acts holds at the start. -/
theorem started_good : (Processor.started messages out).Good Lists.started := by
  have hready := (cleared_linked messages out).makeReady (by simp)
    ((started_valid ..).mpr (by simp))
  have hvalid : ∀ k, (Sched.started messages out).Valid k ↔ k < 2 := started_valid messages out
  have hset : (Sched.started messages out).Settled := rfl
  have hthreads : ∀ k, k < 2 → k = 0 ∨ k = 1 := fun k hk => by omega
  refine ⟨⟨⟨hready, (hvalid 1).mpr (by decide), (hvalid 1).mpr (by decide), fun _ => rfl,
    fun h => absurd hset h, fun k hk hs => ?_⟩, hset.poised, fun _ => hset⟩,
    ⟨fun k hw => ?_, ⟨(hvalid 0).mpr (by decide), .inl rfl⟩, fun k hk hne _ => ?_⟩, fun _ => rfl⟩
  · rcases hthreads k ((hvalid k).mp hk) with rfl | rfl
    · cases hs
    · exact ⟨rfl, hset⟩
  · rcases lt_or_ge k 2 with hk | hk
    · exact (hvalid k).mpr hk
    · have h0 : k ≠ 0 := by omega
      have h1 : k ≠ 1 := by omega
      have hblank : ((Sched.started messages out).threads k).state = .free := by
        simp [Sched.started, cleared, h0, h1, Sched.blank]
      exact absurd (hblank.symm.trans hw) (by decide)
  · rcases hthreads k ((hvalid k).mp hk) with rfl | rfl
    · exact ⟨0, .own, rfl, by decide⟩
    · exact absurd rfl hne

end Start

/-! ### Whether an act is careful can be computed -/

section Decidable

variable (s : Sched)

instance (k : ℕ) : Decidable (s.Valid k) := inferInstanceAs (Decidable (_ ∧ _))

instance (k : ℕ) (p : Place) : Decidable (s.belongs k p) :=
  match p with
  | .ready _ => inferInstanceAs (Decidable (_ ∧ _))
  | .waiters _ _ => inferInstanceAs (Decidable (_ ∧ _))

instance (p : Place) : Decidable (s.NoBetter p) :=
  decidable_of_iff
    (∀ j < kThreads, s.Valid j → s.belongs j p → s.priorityOf s.current ≤ s.priorityOf j)
    ⟨fun h j hj => h j hj.1 hj, fun h j _ => h j⟩

instance (interrupt : Bool) (c : Service) : Decidable (s.Harmless interrupt c) :=
  decidable_of_iff
    ((interrupt = false → s.current ≠ 0) ∧ s.ends c ≠ some 0 ∧
      (s.aims c = some s.pending → s.Settled) ∧
      (interrupt = false → ∀ o ∈ s.deletes c, s.NoBetter (.waiters o.1 o.2)))
    ⟨fun h => ⟨h.1, h.2.1, h.2.2.1, h.2.2.2⟩, fun h => ⟨h.caller, h.idle, h.staged, h.waiters⟩⟩

instance (m : Processor) (a : Act) : Decidable (m.Careful a) :=
  match a with
  | .call _ => inferInstanceAs (Decidable (Harmless ..))
  | .goOn => inferInstanceAs (Decidable (∀ g ∈ m.going, _ ∨ _ ∧ _))
  | .handler _ => inferInstanceAs (Decidable (Harmless ..))
  | .enter | .expire _ | .leave _ => inferInstanceAs (Decidable True)

instance (m : Processor) (a : Act) : Decidable (m.Plain a) :=
  match a with
  | .call _ => inferInstanceAs (Decidable (_ ∧ _))
  | .goOn => inferInstanceAs (Decidable False)
  | .handler _ => inferInstanceAs (Decidable (_ = true))
  | .enter | .expire _ | .leave _ => inferInstanceAs (Decidable True)

instance (m : Processor) (a : Act) : Decidable (m.Enabled a) :=
  match a with
  | .call _ | .enter | .handler _ | .expire _ => inferInstanceAs (Decidable (_ ∧ _))
  | .goOn => inferInstanceAs (Decidable (m.going ≠ none))
  | .leave _ => inferInstanceAs (Decidable (m.interrupt = true))

end Decidable

namespace Processor

/-- Take careful acts, as long as they are careful. -/
def carefully (m : Processor) (a : Act) : Option Processor :=
  if m.Careful a then (m.step a).map Prod.snd else none

/-- What `carefully` computes is a careful step. -/
theorem carefulStep_of_carefully {m m' : Processor} {a : Act} (h : m.carefully a = some m') :
    m.CarefulStep a m' := by
  rw [carefully] at h
  split at h
  · next hcareful =>
    obtain ⟨⟨told, m''⟩, hstep, rfl⟩ := Option.map_eq_some_iff.mp h
    exact ⟨hcareful, told, hstep⟩
  · cases h

theorem steps_of_carefully {m m' : Processor} {acts : List Act}
    (h : runList carefully m acts = some m') : Steps CarefulStep m acts m' :=
  Steps.of_runList (fun _ _ _ => carefulStep_of_carefully) h

variable {messages : ℕ → Message} {out : ℕ → ℕ} {acts : List Act} {m : Processor}

theorem good_of_run (h : Steps CarefulStep (started messages out) acts m) : ∃ L, m.Good L :=
  h.invariant (I := fun m => ∃ L, m.Good L) (fun _ _ _ ⟨_, hm⟩ hstep =>
    let ⟨_, L', _, _, hgood⟩ := hstep.good hm
    ⟨L', hgood⟩) ⟨_, started_good messages out⟩

/-- **The representation** of the scheduler, whenever thread code runs. -/
theorem represented_of_run (h : Steps CarefulStep (started messages out) acts m)
    (hthread : m.interrupt = false) : ∃ L, m.sched.Represented L := by
  obtain ⟨L, hcalled, -, -⟩ := good_of_run h
  exact ⟨L, hcalled.sound.represented (hcalled.settled hthread)⟩

/-- **No careful act gets stuck.** -/
theorem step_of_run (h : Steps CarefulStep (started messages out) acts m) {a : Act}
    (henabled : m.Enabled a) (hcareful : m.Careful a) :
    ∃ told m', m.step a = some (told, m') := by
  obtain ⟨L, hgood⟩ := good_of_run h
  obtain ⟨told, m', -, -, hstep, -⟩ := hgood.acts henabled hcareful
  exact ⟨told, m', hstep⟩

/-! A thread waits for a semaphore and is woken from an interrupt while another runs. -/

/-- A semaphore's waiter is woken by a handler, and the delay of another thread runs out before the
handler returns. -/
def handedOver : List Act :=
  [.call (.createThread ⟨0x02000000, 0x1000, 0x400, 10⟩ 0x8000), .call (.createSema 0 0 1),
    .call (.startThread (makeId 2 1)), .call (.waitSema (makeId 0 1)), .enter,
    .handler (.signalSema (makeId 0 1)), .expire 2, .leave 0]

/-- What is ready to run. -/
def nothing : Processor := started (fun _ => ⟨0, fun _ => 0⟩) fun _ => 0

/-- At the end of the run the boot thread runs, and the lists represent the scheduler. -/
theorem represented_handedOver : ∃ m, Steps CarefulStep nothing handedOver m ∧
    m.sched.current = 1 ∧ ∃ L, m.sched.Represented L := by
  have hrun : (runList carefully nothing handedOver).map
      (fun m => (m.interrupt, m.sched.current)) = some (false, 1) := by decide +kernel
  obtain ⟨m, hm, heq⟩ := Option.map_eq_some_iff.mp hrun
  obtain ⟨hi, hcur⟩ := Prod.mk.inj heq
  have hsteps := steps_of_carefully hm
  exact ⟨m, hsteps, hcur, represented_of_run hsteps hi⟩

/-- The thread that has been woken can go on to delete the semaphore. -/
theorem step_handedOver : ∃ m, Steps CarefulStep nothing handedOver m ∧
    ∃ told m', m.step (.call (.deleteSema (makeId 0 1))) = some (told, m') := by
  have hrun : (runList carefully nothing handedOver).map
      (fun m => (decide (m.Enabled (.call (.deleteSema (makeId 0 1)))),
        decide (m.Careful (.call (.deleteSema (makeId 0 1)))))) = some (true, true) := by
    decide +kernel
  obtain ⟨m, hm, heq⟩ := Option.map_eq_some_iff.mp hrun
  obtain ⟨henabled, hcareful⟩ := Prod.mk.inj heq
  have hsteps := steps_of_carefully hm
  exact ⟨m, hsteps, step_of_run hsteps (of_decide_eq_true henabled) (of_decide_eq_true hcareful)⟩

/-! A thread that deletes a semaphore runs on although a better one has been waiting for it. -/

/-- Take acts, careful or not. -/
def take (m : Processor) (a : Act) : Option Processor := (m.step a).map Prod.snd

theorem steps_of_take {m m' : Processor} {acts : List Act} (h : runList take m acts = some m') :
    Steps TakenStep m acts m' :=
  Steps.of_runList (fun _ _ _ hm => by
    obtain ⟨⟨told, m''⟩, hstep, rfl⟩ := Option.map_eq_some_iff.mp hm
    exact ⟨told, hstep⟩) h

/-- The boot thread starts a better one, which waits for a semaphore, and deletes the semaphore. -/
def deleted : List Act :=
  [.call (.changeThreadPriority 0 50),
    .call (.createThread ⟨0x02000000, 0x1000, 0x400, 10⟩ 0x8000), .call (.createSema 0 0 1),
    .call (.startThread (makeId 2 1)), .call (.waitSema (makeId 0 1)),
    .call (.deleteSema (makeId 0 1))]

/-- Thread code runs, of a thread that is ready and in a queue, and another thread is staged. -/
theorem deleteSema_misrepresents : ∃ m, Steps TakenStep nothing deleted m ∧
    m.interrupt = false ∧ m.going = none ∧ m.sched.current = 1 ∧ m.sched.pending = 2 ∧
    (m.sched.threads 1).state = .ready ∧ (m.sched.queues (.ready 50)).head = 1 ∧
    ∀ L, ¬ m.sched.Represented L := by
  have hrun : (runList take nothing deleted).map (fun m => (m.interrupt, decide (m.going = none),
      m.sched.current, m.sched.pending, (m.sched.threads 1).state,
      (m.sched.queues (.ready 50)).head)) = some (false, true, 1, 2, .ready, 1) := by
    decide +kernel
  obtain ⟨m, hm, heq⟩ := Option.map_eq_some_iff.mp hrun
  obtain ⟨hi, heq⟩ := Prod.mk.inj heq
  obtain ⟨hg, heq⟩ := Prod.mk.inj heq
  obtain ⟨hcur, heq⟩ := Prod.mk.inj heq
  obtain ⟨hpend, heq⟩ := Prod.mk.inj heq
  obtain ⟨hready, hhead⟩ := Prod.mk.inj heq
  refine ⟨m, steps_of_take hm, hi, of_decide_eq_true hg, hcur, hpend, hready, hhead, fun L h => ?_⟩
  have hsame := h.pending
  rw [hpend, hcur] at hsame
  cases hsame

end Processor

end PS2Bios.Threadman
