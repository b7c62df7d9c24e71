import PS2Bios.Threadman.ReadyOrder

/-!
# The order of the ready over runs

What each call keeps of the lines, with the switch that may follow, a whole run keeps
(`Processor.order_of_run`): two threads that stay ready at one priority stand as they stood, in any
interleaving of calls, interrupts and switches whose acts put nobody behind its peers. A handler
that wakes one thread after another shows how a staged thread is displaced, and a thread that
changes its own priority how the first of a queue comes to be the last.
-/

namespace PS2Bios.Threadman

open Intrusive Sched

/-- The line of a priority as the links have it. -/
def Sched.IsLine (s : Sched) (p : ℕ) (l : List ℕ) : Prop :=
  ∃ q, IsQueue kNone s.links (s.queues (.ready p)) q ∧ l = s.stagedAt p ++ q

namespace Processor

/-- An act that puts nobody behind its peers. -/
def Stays (m : Processor) : Act → Prop
  | .call c => m.sched.Stays false c
  | .handler c => m.sched.Stays true c
  | .expire k => m.sched.StagedAlone (m.sched.expiring k)
  | _ => True

/-- A careful step that puts nobody behind its peers, and leaves two threads ready at a priority. -/
def StaysStep (p x y : ℕ) (m : Processor) (a : Act) (m' : Processor) : Prop :=
  m.Stays a ∧ m.CarefulStep a m' ∧ m'.sched.ReadyAt p x ∧ m'.sched.ReadyAt p y

variable {messages : ℕ → Message} {out : ℕ → ℕ} {before acts : List Act} {m m' : Processor}
  {L : Lists} {a : Act} {p x y : ℕ}

/-- Each act leaves the others as they stood. -/
theorem Does.order {s' : Sched} {L' : Lists} (h : m.Does L a s' L') (hm : m.Good L)
    (henabled : m.Enabled a) (hstays : m.Stays a) (hxy : [x, y].Sublist (m.sched.line L p))
    (hx : x ∈ s'.after m.interrupt L' p) (hy : y ∈ s'.after m.interrupt L' p) :
    [x, y].Sublist (s'.after m.interrupt L' p) := by
  have hs := hm.called.sound
  have hs' := h.sound hm
  cases h with
  | call hr he =>
    rw [henabled.1] at hx hy ⊢
    exact he.order hr hs hstays hxy hx hy
  | goOn hg _ hmoves =>
    -- a thread goes on, and nobody is staged
    have hset : m.sched.Settled := hm.called.settled (hm.going henabled)
    exact hs'.pair_after (hxy.trans (hmoves.line hs (fun hno => absurd hset hno) p)) hx
  | enter => exact hs.pair_after hxy hx
  | handler hr he =>
    rw [henabled.1] at hx hy ⊢
    exact he.order hr hs hstays hxy hx hy
  | expire hmoves => exact hs'.pair_after (hxy.trans (hmoves.line hs hstays p)) hx
  | leave => exact hs.pair_after hxy hx

/-- A thread that is switched to runs outside interrupts. -/
theorem resumed_interrupt {s : Sched} {told : Told} (h : resumed s = some (told, m')) :
    m'.interrupt = false := by
  rw [resumed] at h
  split at h
  · cases h
  · split at h <;> cases h <;> rfl

/-- So does a thread whose call is over. -/
theorem replied_interrupt {r : Sched × Reply} {told : Told} (h : replied r = some (told, m')) :
    m'.interrupt = false := by
  obtain ⟨s, reply⟩ := r
  cases reply with
  | returns v =>
    obtain rfl := (Prod.mk.inj (Option.some.inj h)).2
    rfl
  | traps resume => exact resumed_interrupt h

/-- After an act of a thread nothing is staged. -/
theorem settled_of_step {told : Told} {L' : Lists} (hi : m.interrupt = false) (hm : m.Good L)
    (hm' : m'.Good L') (h : m.step a = some (told, m')) : m'.sched.Settled := by
  have henabled := enabled_of_step h
  have hno : ¬ m.interrupt = true := Bool.eq_false_iff.mp hi
  cases a with
  | call c =>
    rw [step] at h
    split at h
    · cases h
    · obtain ⟨r, -, hr⟩ := Option.bind_eq_some_iff.mp h
      exact hm'.called.settled (replied_interrupt hr)
  | goOn =>
    obtain ⟨g, -, h⟩ := Option.bind_eq_some_iff.mp h
    obtain ⟨r, -, hr⟩ := Option.bind_eq_some_iff.mp h
    exact hm'.called.settled (replied_interrupt hr)
  | enter =>
    rw [step] at h
    split at h
    · cases h
    · obtain rfl := (Prod.mk.inj (Option.some.inj h)).2
      exact hm.called.settled hi
  | handler c => exact absurd henabled.1 hno
  | expire k => exact absurd henabled.1 hno
  | leave v0 => exact absurd henabled hno

/-- **A step leaves the others as they stood.** -/
theorem CarefulStep.order (hm : m.Good L) (h : m.CarefulStep a m') (hstays : m.Stays a) :
    ∃ L', m'.Good L' ∧ ∀ p x y, x ∈ m'.sched.line L' p → y ∈ m'.sched.line L' p →
      [x, y].Sublist (m.sched.line L p) → [x, y].Sublist (m'.sched.line L' p) := by
  obtain ⟨told, hstep⟩ := h.2
  obtain ⟨s', L', hdoes, hfollows, hgood⟩ := h.good hm
  have hs' := hdoes.sound hm
  refine ⟨L', hgood, fun p x y hx hy hxy => ?_⟩
  have horder := hdoes.order hm (enabled_of_step hstep) hstays hxy
  rcases hfollows with heq | ⟨hset, frame, heq⟩
  · -- no thread has been switched to
    have hafter : s'.after m.interrupt L' p = m'.sched.line L' p := by
      rw [after, heq]
      split
      · rfl
      · next hi =>
        have hset := settled_of_step (Bool.eq_false_iff.mpr hi) hm hgood hstep
        rw [heq] at hset
        exact (line_settled hset L' p).symm
    rw [hafter] at horder
    exact horder hx hy
  · -- the staged one has been, which is ready no more
    have hset' : m'.sched.Settled := by
      rw [heq]
      exact (newContext_settles hs'.pending_ne_kNone hset frame).1
    rw [line_settled hset'] at hx hy ⊢
    have hmem : ∀ {j}, j ∈ L' (.ready p) → j ∈ s'.after m.interrupt L' p := fun hj => by
      rw [after]
      split
      · exact List.mem_append_right _ hj
      · exact hj
    have hpair := horder (hmem hx) (hmem hy)
    rw [after] at hpair
    split at hpair
    · exact hs'.pair_queue hpair hx
    · exact hpair

/-- **Two ready threads stand as they stood**, as long as both stay ready at one priority. -/
theorem order_of_run {l : List ℕ} (h : Steps CarefulStep (started messages out) before m)
    (hrun : Steps (StaysStep p x y) m acts m') (hl : m.sched.IsLine p l)
    (hxy : [x, y].Sublist l) :
    ∃ l', m'.sched.IsLine p l' ∧ l'.Nodup ∧ (∀ k, k ∈ l' ↔ m'.sched.ReadyAt p k) ∧
      [x, y].Sublist l' := by
  obtain ⟨L, hm⟩ := good_of_run h
  have hstart : [x, y].Sublist (m.sched.line L p) := by
    obtain ⟨q, hq, rfl⟩ := hl
    have hqueue := hm.called.sound.linked.family.queue (.ready p) trivial
    rwa [Sched.line, ← hq.chain.unique hqueue.chain]
  obtain ⟨L', hm', hpair⟩ := hrun.invariant
    (I := fun m => ∃ L, m.Good L ∧ [x, y].Sublist (m.sched.line L p)) (by
      rintro m a m' ⟨L, hm, hxy⟩ ⟨hstays, hstep, hx, hy⟩
      obtain ⟨L', hm', horder⟩ := hstep.order hm hstays
      have hs' := hm'.called.sound
      exact ⟨L', hm', horder p x y (hs'.mem_line.mpr hx) (hs'.mem_line.mpr hy) hxy⟩)
    ⟨L, hm, hstart⟩
  have hs' := hm'.called.sound
  exact ⟨_, ⟨_, hs'.linked.family.queue (.ready p) trivial, rfl⟩, hs'.nodup_line,
    fun k => hs'.mem_line, hpair⟩

/-! Two threads wait for the processor while others are woken. -/

/-- A line of two, read off the links. -/
theorem Good.isLine_pair (hm : m.Good L) (hset : m.sched.Settled) {j k : ℕ} (hj : j ≠ kNone)
    (hk : k ≠ kNone) (hhead : (m.sched.queues (.ready p)).head = j)
    (hnext : m.sched.links.next j = k) (hlast : m.sched.links.next k = kNone) :
    m.sched.IsLine p [j, k] ∧ ∀ l, m.sched.IsLine p l → l = [j, k] := by
  have hchain : Chain kNone m.sched.links.next j [j, k] := ⟨rfl, hj, hnext, hk, hlast⟩
  have hqueue := hm.called.sound.linked.family.queue (.ready p) trivial
  have hall : ∀ q, IsQueue kNone m.sched.links (m.sched.queues (.ready p)) q → q = [j, k] :=
    fun q hq => (hhead ▸ hq.chain).unique hchain
  refine ⟨⟨_, hqueue, ?_⟩, ?_⟩
  · rw [stagedAt_settled hset, hall _ hqueue, List.nil_append]
  · rintro l ⟨q, hq, rfl⟩
    rw [stagedAt_settled hset, hall q hq, List.nil_append]

/-- An interrupt wakes threads while whoever is staged has no peers. -/
def wakeful (m : Processor) : Act → Bool
  | .enter | .leave _ => true
  | .handler (.wakeupThread _) => decide (m.sched.Settled ∨
    (m.sched.queues (.ready (m.sched.priorityOf m.sched.pending))).head = kNone)
  | _ => false

/-- Such acts put nobody behind its peers. -/
theorem stays_of_wakeful (h : m.wakeful a = true) : m.Stays a := by
  cases a with
  | handler c =>
    cases c with
    | wakeupThread id =>
      have halone := of_decide_eq_true h
      refine ⟨fun _ => by simp, fun _ hset k _ _ _ _ _ => halone.resolve_left hset, ?_, ?_⟩
      · intro k hk
        cases hk
      · intro hi
        cases hi
    | _ => cases h
  | call c => cases h
  | expire k => cases h
  | goOn | enter | leave v0 => trivial

instance (s : Sched) (p k : ℕ) : Decidable (s.ReadyAt p k) :=
  inferInstanceAs (Decidable (_ ∧ _ ∧ _))

/-- Take such acts of an interrupt, as long as two threads stay ready at a priority. -/
def wakefully (p x y : ℕ) (m : Processor) (a : Act) : Option Processor :=
  if m.wakeful a then
    (m.carefully a).filter fun m' => m'.sched.ReadyAt p x ∧ m'.sched.ReadyAt p y
  else none

/-- What `wakefully` takes are steps that put nobody behind its peers. -/
theorem staysStep_of_wakefully (h : m.wakefully p x y a = some m') : m.StaysStep p x y a m' := by
  rw [wakefully] at h
  split at h
  · next hwakeful =>
    obtain ⟨hm, hready⟩ := Option.filter_eq_some_iff.mp h
    obtain ⟨hx, hy⟩ := of_decide_eq_true hready
    exact ⟨stays_of_wakeful hwakeful, carefulStep_of_carefully hm, hx, hy⟩
  · cases h

/-- Two threads are ready at 60, and two better ones sleep. -/
def waiting : List Act :=
  [.call (.changeThreadPriority 0 50),
    .call (.createThread ⟨0x02000000, 0x1000, 0x400, 60⟩ 0x8000),
    .call (.createThread ⟨0x02000000, 0x1000, 0x400, 60⟩ 0x9000),
    .call (.createThread ⟨0x02000000, 0x1000, 0x400, 10⟩ 0xA000),
    .call (.createThread ⟨0x02000000, 0x1000, 0x400, 5⟩ 0xB000), .call (.startThread (makeId 2 1)),
    .call (.startThread (makeId 3 1)), .call (.startThread (makeId 4 1)), .call .sleepThread,
    .call (.startThread (makeId 5 1)), .call .sleepThread]

/-- A handler wakes the one and then the better one, which displaces it. -/
def displacing : List Act :=
  [.enter, .handler (.wakeupThread (makeId 4 1)), .handler (.wakeupThread (makeId 5 1)), .leave 0]

/-- The best runs, and the two stand as they stood. -/
theorem order_displacing : ∃ m m', Steps CarefulStep nothing waiting m ∧
    Steps (StaysStep 60 2 3) m displacing m' ∧ m'.sched.current = 5 ∧
    (m'.sched.threads 4).state = .ready ∧ ∃ l, m'.sched.IsLine 60 l ∧ [2, 3].Sublist l := by
  have hrun : (runList carefully nothing waiting).map (fun m => (decide m.sched.Settled,
      (m.sched.queues (.ready 60)).head, m.sched.links.next 2, m.sched.links.next 3)) =
      some (true, 2, 3, kNone) := by decide +kernel
  have hwoken : ((runList carefully nothing waiting).bind fun m =>
      (runList (wakefully 60 2 3) m displacing).map fun m' =>
        (m'.sched.current, (m'.sched.threads 4).state)) = some (5, .ready) := by decide +kernel
  obtain ⟨m, hm, heq⟩ := Option.map_eq_some_iff.mp hrun
  obtain ⟨hset, heq⟩ := Prod.mk.inj heq
  obtain ⟨hhead, heq⟩ := Prod.mk.inj heq
  obtain ⟨hnext, hlast⟩ := Prod.mk.inj heq
  rw [hm] at hwoken
  obtain ⟨m', hm', heq⟩ := Option.map_eq_some_iff.mp hwoken
  obtain ⟨hcur, hready⟩ := Prod.mk.inj heq
  have hbefore := steps_of_carefully hm
  have hsteps : Steps (StaysStep 60 2 3) m displacing m' :=
    Steps.of_runList (fun _ _ _ => staysStep_of_wakefully) hm'
  obtain ⟨L, hgood⟩ := good_of_run hbefore
  obtain ⟨hline, -⟩ := hgood.isLine_pair (of_decide_eq_true hset) (by decide) (by decide) hhead
    hnext hlast
  obtain ⟨l, hl, -, -, hsub⟩ := order_of_run hbefore hsteps hline (.refl _)
  exact ⟨m, m', hbefore, hsteps, hcur, hready, l, hl, hsub⟩

/-- Two threads are ready at 60 while the boot thread runs at 50. -/
def standing : List Act :=
  [.call (.changeThreadPriority 0 50),
    .call (.createThread ⟨0x02000000, 0x1000, 0x400, 60⟩ 0x8000),
    .call (.createThread ⟨0x02000000, 0x1000, 0x400, 60⟩ 0x9000),
    .call (.startThread (makeId 2 1)), .call (.startThread (makeId 3 1))]

/-- The boot thread gives itself a worse priority that is still the best, and the first of the two
goes behind the other. -/
theorem disorder_standing : ∃ m m', Steps CarefulStep nothing standing m ∧
    m.CarefulStep (.call (.changeThreadPriority 0 55)) m' ∧ m'.sched.current = 1 ∧
    (∀ k ∈ [2, 3], m.sched.ReadyAt 60 k ∧ m'.sched.ReadyAt 60 k) ∧ m.sched.IsLine 60 [2, 3] ∧
    ∀ l, m'.sched.IsLine 60 l → ¬ [2, 3].Sublist l := by
  have hrun : (runList carefully nothing standing).map (fun m => (decide m.sched.Settled,
      (m.sched.queues (.ready 60)).head, m.sched.links.next 2, m.sched.links.next 3)) =
      some (true, 2, 3, kNone) := by decide +kernel
  have hchanged : ((runList carefully nothing standing).bind fun m =>
      (m.carefully (.call (.changeThreadPriority 0 55))).map fun m' => (decide m'.sched.Settled,
        (m'.sched.queues (.ready 60)).head, m'.sched.links.next 3, m'.sched.links.next 2,
        m'.sched.current)) = some (true, 3, 2, kNone, 1) := by decide +kernel
  have hready : ((runList carefully nothing standing).bind fun m =>
      (m.carefully (.call (.changeThreadPriority 0 55))).map fun m' =>
        decide (∀ k ∈ [2, 3], m.sched.ReadyAt 60 k ∧ m'.sched.ReadyAt 60 k)) = some true := by
    decide +kernel
  obtain ⟨m, hm, heq⟩ := Option.map_eq_some_iff.mp hrun
  obtain ⟨hset, heq⟩ := Prod.mk.inj heq
  obtain ⟨hhead, heq⟩ := Prod.mk.inj heq
  obtain ⟨hnext, hlast⟩ := Prod.mk.inj heq
  rw [hm] at hchanged hready
  obtain ⟨m', hm', heq⟩ := Option.map_eq_some_iff.mp hchanged
  obtain ⟨hset', heq⟩ := Prod.mk.inj heq
  obtain ⟨hhead', heq⟩ := Prod.mk.inj heq
  obtain ⟨hnext', heq⟩ := Prod.mk.inj heq
  obtain ⟨hlast', hcur⟩ := Prod.mk.inj heq
  rw [Option.bind_some, hm', Option.map_some] at hready
  have hready := Option.some.inj hready
  have hbefore := steps_of_carefully hm
  have hstep := carefulStep_of_carefully hm'
  obtain ⟨L, hgood⟩ := good_of_run hbefore
  obtain ⟨-, L', -, -, hgood'⟩ := hstep.good hgood
  obtain ⟨hline, -⟩ := hgood.isLine_pair (of_decide_eq_true hset) (by decide) (by decide) hhead
    hnext hlast
  obtain ⟨-, hlines⟩ := hgood'.isLine_pair (of_decide_eq_true hset') (by decide) (by decide) hhead'
    hnext' hlast'
  refine ⟨m, m', hbefore, hstep, hcur, of_decide_eq_true hready, hline, fun l hl => ?_⟩
  rw [hlines l hl]
  decide

end Processor

end PS2Bios.Threadman
