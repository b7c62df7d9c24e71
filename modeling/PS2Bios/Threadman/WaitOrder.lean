import PS2Bios.Threadman.Answers
import PS2Bios.Threadman.Preemption

/-!
# Lists of waiters in order of priority

The waiters of an object whose attribute asks for it are kept in order of their priorities, and
those of one priority in the order in which they came (`Ahead`). The order is made when a thread
joins the list, and nothing makes it again: a priority that is changed while its thread waits is
written into the record and no more. So the lists are in order in every run in which no thread that
waits in one is given another priority (`Steady`), whatever else threads and handlers do.

When a thread came is nothing THREADMAN keeps, so `Arrivals` counts the acts beside the processor.
-/

namespace PS2Bios.Threadman

open Intrusive Sched

/-- Of a better priority, or of the same and here before. -/
def Ahead (priority since : ℕ → ℕ) (a b : ℕ) : Prop :=
  priority a < priority b ∨ priority a = priority b ∧ since a < since b

/-- **A new waiter**, who has come last, is put behind those that are no worse. -/
theorem pairwise_join {priority since : ℕ → ℕ} {t : ℕ} {l₁ l₂ : List ℕ}
    (h : (l₁ ++ l₂).Pairwise (Ahead priority since)) (h₁ : ∀ j ∈ l₁, priority j ≤ priority t)
    (h₂ : ∀ j, l₂.head? = some j → priority t < priority j) (hs : ∀ j ∈ l₁, since j < since t) :
    (l₁ ++ t :: l₂).Pairwise (Ahead priority since) := by
  obtain ⟨hl₁, hl₂, hcross⟩ := List.pairwise_append.mp h
  have hbehind : ∀ j ∈ l₂, Ahead priority since t j := by
    intro j hj
    cases l₂ with
    | nil => cases hj
    | cons x l₂ =>
      have hx := h₂ x rfl
      rcases List.mem_cons.mp hj with rfl | hj
      · exact .inl hx
      · rcases (List.pairwise_cons.mp hl₂).1 j hj with hlt | ⟨heq, -⟩
        · exact .inl (hx.trans hlt)
        · exact .inl (heq ▸ hx)
  refine List.pairwise_append.mpr
    ⟨hl₁, List.pairwise_cons.mpr ⟨hbehind, hl₂⟩, fun a ha b hb => ?_⟩
  rcases List.mem_cons.mp hb with rfl | hb
  · rcases (h₁ a ha).lt_or_eq with hlt | heq
    · exact .inl hlt
    · exact .inr ⟨heq, hs a ha⟩
  · exact hcross a ha b hb

/-- Whether an object keeps its waiters in order of priority. -/
def Sched.byPriority (s : Sched) : Kind → ℕ → Bool
  | .semaphore, k => (s.semaphores k).attr &&& kSemaPriority != 0
  | .mailbox, k => (s.mailboxes k).attr &&& kMbxThreadPriority != 0
  | _, _ => false

/-- A priority that a call changes is not that of a thread in a list kept in order, or is what it
was. -/
def Sched.Steady (s : Sched) (c : Service) : Prop :=
  ∀ r ∈ s.promotes c, (s.threads r.1).state = .wait →
    ∀ o ∈ s.waitObjectOf (s.threads r.1), s.byPriority o.1 o.2 = true → r.2 = s.priorityOf r.1

instance (s : Sched) (c : Service) : Decidable (s.Steady c) :=
  inferInstanceAs (Decidable (∀ r ∈ s.promotes c, _ → ∀ o ∈ _, _ → _))

/-! ### Attributes -/

section Attributes

variable {s : Sched} {interrupt : Bool} {c : Service} {r : Sched × Reply} {k i : ℕ}

/-- A record that is filled is that of an object not in use before. -/
theorem created_apart {kind : Kind} {q : Except ℤ UInt32 × Pools} {fill : ℕ → Sched → Sched}
    (hr : Creates kind s.pools q) (hin : (s.pools kind k).inUse = true) :
    (s.createObject kind q fill).1 = s ∨ ∃ i pools, k ≠ i ∧
      (s.createObject kind q fill).1 = fill i ({ s with pools := pools }.clearWaiters kind i) := by
  rcases hr with ⟨code, rfl⟩ | ⟨i, hi, hfree, rfl⟩
  · exact .inl rfl
  · refine .inr ⟨i, (occupy kind s.pools i).2, ?_, ?_⟩
    · rintro rfl
      rw [hin] at hfree
      cases hfree
    · change fill (slotOf _) ({ s with pools := _ }.clearWaiters kind (slotOf _)) = _
      rw [slotOf_makeId (hi.trans_le (Kind.slots_le kind))]
      rfl

theorem setSemaphore_attr {f : Semaphore → Semaphore} (hf : ∀ m, (f m).attr = m.attr) :
    ((s.setSemaphore i f).semaphores k).attr = (s.semaphores k).attr := by
  simp only [Sched.setSemaphore, Function.update_apply]
  split
  · next heq => rw [hf, heq]
  · rfl

theorem setMailbox_attr {f : Mailbox → Mailbox} (hf : ∀ m, (f m).attr = m.attr) :
    ((s.setMailbox i f).mailboxes k).attr = (s.mailboxes k).attr := by
  simp only [Sched.setMailbox, Function.update_apply]
  split
  · next heq => rw [hf, heq]
  · rfl

/-- A semaphore in use keeps its attribute. -/
theorem perform_semaphore_attr (h : s.perform interrupt c = some r)
    (hin : (s.pools .semaphore k).inUse = true) :
    (r.1.semaphores k).attr = (s.semaphores k).attr := by
  -- only the calls about semaphores write a semaphore, and none of these its attribute
  by_cases ha : c.about = some .semaphore
  · cases c <;> simp only [Service.about, reduceCtorEq, Option.some.injEq] at ha
    case createSema attr initial max =>
      obtain rfl := Option.some.inj h
      rcases created_apart (creates_create kSemaAttrMask attr) hin with heq | ⟨i, pools, hne, heq⟩
      · exact congrArg (fun s : Sched => (s.semaphores k).attr) heq
      · refine (congrArg (fun s : Sched => (s.semaphores k).attr) heq).trans ?_
        exact congrArg Semaphore.attr (Function.update_of_ne hne _ _)
    case deleteSema id => rw [(leaves_deleteObject h).semaphores]
    case signalSema id =>
      obtain rfl := Option.some.inj h
      rw [Sched.signalSema]
      split
      · rfl
      · dsimp only
        split
        · exact congrArg (fun f => Semaphore.attr (f k)) (leaves_wake s _ kOk interrupt).semaphores
        · split
          · dsimp only
            exact setSemaphore_attr (by intro m; rfl)
          · rfl
    case waitSema id =>
      rw [perform, Sched.waitSema] at h
      split at h
      · obtain rfl := Option.some.inj h
        rfl
      split at h
      · obtain rfl := Option.some.inj h
        rfl
      split at h
      · obtain rfl := Option.some.inj h
        dsimp only
        exact setSemaphore_attr (by intro m; rfl)
      · rw [(leaves_blockOn h).semaphores]
    case pollSema id =>
      obtain rfl := Option.some.inj h
      rw [Sched.pollSema]
      split
      · rfl
      · split
        · dsimp only
          exact setSemaphore_attr (by intro m; rfl)
        · rfl
  · rw [(perform_writes h).semaphores ha]
/-- A mailbox in use keeps its attribute. -/
theorem perform_mailbox_attr (h : s.perform interrupt c = some r)
    (hin : (s.pools .mailbox k).inUse = true) :
    (r.1.mailboxes k).attr = (s.mailboxes k).attr := by
  -- a message is queued and taken with the attribute as it was
  have hqueue : ∀ (s : Sched) (i message : ℕ),
      ((s.queueMessage i message).mailboxes k).attr = (s.mailboxes k).attr := fun s i message => by
    rw [queueMessage]
    dsimp only
    split
    · exact setMailbox_attr (by intro m; rfl)
    · split
      · exact setMailbox_attr (by intro m; rfl)
      · split
        · exact setMailbox_attr (by intro m; rfl)
        · rfl
  have htake : ∀ (i received : ℕ),
      ((s.takeMessage i received).1.mailboxes k).attr = (s.mailboxes k).attr := fun i received => by
    rw [takeMessage, dequeueMessage]
    dsimp only
    refine (setMailbox_attr (by intro m; rfl)).trans ?_
    split
    · exact setMailbox_attr (by intro m; rfl)
    · rfl
  -- only the calls about mailboxes write a mailbox
  by_cases ha : c.about = some .mailbox
  · cases c <;> simp only [Service.about, reduceCtorEq, Option.some.injEq] at ha
    case createMbx attr =>
      obtain rfl := Option.some.inj h
      rcases created_apart (creates_create kMbxAttrMask attr) hin with heq | ⟨i, pools, hne, heq⟩
      · exact congrArg (fun s : Sched => (s.mailboxes k).attr) heq
      · refine (congrArg (fun s : Sched => (s.mailboxes k).attr) heq).trans ?_
        exact congrArg Mailbox.attr (Function.update_of_ne hne _ _)
    case deleteMbx id => rw [(leaves_deleteObject h).mailboxes]
    case sendMbx iForm id message =>
      obtain rfl := Option.some.inj h
      rw [Sched.sendMbx]
      split
      · rfl
      split
      · rfl
      · dsimp only
        split
        · refine congrArg (fun f => Mailbox.attr (f k))
            ((leaves_wake _ _ kOk iForm).mailboxes.trans ?_)
          rw [writeOut]
          split <;> rfl
        · dsimp only
          exact (setMailbox_attr (by intro m; rfl)).trans (hqueue s _ message)
    case receiveMbx received id =>
      rw [perform, Sched.receiveMbx] at h
      split at h
      · obtain rfl := Option.some.inj h
        rfl
      split at h
      · obtain rfl := Option.some.inj h
        rfl
      split at h
      · obtain rfl := Option.some.inj h
        exact htake _ received
      · rw [(leaves_blockOn h).mailboxes]
        rfl
    case pollMbx received id =>
      obtain rfl := Option.some.inj h
      rw [Sched.pollMbx]
      split
      · rfl
      · split
        · rfl
        · exact htake _ received
  · rw [(perform_writes h).mailboxes ha]

theorem byPriority_congr {s' : Sched} (hs : s'.semaphores = s.semaphores)
    (hm : s'.mailboxes = s.mailboxes) : s'.byPriority = s.byPriority := by
  funext kind k
  cases kind with
  | thread | event => rfl
  | semaphore => rw [Sched.byPriority, hs, Sched.byPriority]
  | mailbox => rw [Sched.byPriority, hm, Sched.byPriority]

/-- **An object in use keeps its order.** -/
theorem perform_byPriority {kind : Kind} (h : s.perform interrupt c = some r)
    (hin : (s.pools kind k).inUse = true) : r.1.byPriority kind k = s.byPriority kind k := by
  cases kind with
  | thread | event => rfl
  | semaphore => rw [Sched.byPriority, perform_semaphore_attr h hin, Sched.byPriority]
  | mailbox => rw [Sched.byPriority, perform_mailbox_attr h hin, Sched.byPriority]

end Attributes

/-! ### One call -/

/-- While a call goes on: a list has lost waiters, or has the caller besides, and the lists that
are `kept` in order are. -/
structure InOrder (kept : Kind → ℕ → Bool) (since : ℕ → ℕ) (caller : ℕ) (L₀ : Lists) (s : Sched)
    (L : Lists) : Prop where
  current : s.current = caller
  old : ∀ kind k, ∀ t ∈ L (.waiters kind k), t ≠ caller → t ∈ L₀ (.waiters kind k)
  sorted : ∀ kind k, kept kind k = true →
    (L (.waiters kind k)).Pairwise (Ahead s.priorityOf since)

section Calls

variable {kept : Kind → ℕ → Bool} {since : ℕ → ℕ} {caller : ℕ} {L₀ L L' : Lists} {s s' : Sched}
  {P : Permit} {c : Service} {interrupt : Bool}

/-- Waiters that leave, and priorities that stay, keep the order. -/
theorem InOrder.mono (h : InOrder kept since caller L₀ s L) (hcur : s'.current = s.current)
    (hsub : ∀ kind k, (L' (.waiters kind k)).Sublist (L (.waiters kind k)))
    (hpri : ∀ kind k, kept kind k = true → ∀ t ∈ L (.waiters kind k),
      s'.priorityOf t = s.priorityOf t) : InOrder kept since caller L₀ s' L' where
  current := hcur.trans h.current
  old kind k t ht := h.old kind k t ((hsub kind k).subset ht)
  sorted kind k hk := by
    refine ((h.sorted kind k hk).sublist (hsub kind k)).imp_of_mem fun ha hb hab => ?_
    rw [Ahead, hpri kind k hk _ ((hsub kind k).subset ha),
      hpri kind k hk _ ((hsub kind k).subset hb)]
    exact hab

/-- The priority of a thread that starts is no waiter's. -/
theorem activate_priorityOf {k t : ℕ} (ht : t ≠ k) :
    (s.activate k).priorityOf t = s.priorityOf t := by
  rw [priorityOf, activate_threads, if_neg ht, priorityOf]

/-- **Each move keeps the order**, if the caller is the last to have come and joins where its
priority says. -/
theorem Move.inOrder (h : Move P s L s' L') (hs : Sound s L)
    (hI : InOrder kept since caller L₀ s L)
    (hjoins : ∀ kind k b, P.joins kind k b → kept kind k = true → b = true)
    (hlast : ∀ kind k, ∀ t ∈ L₀ (.waiters kind k), t ≠ caller → since t < since caller) :
    InOrder kept since caller L₀ s' L' := by
  have hcur := h.current
  cases h with
  | quiet h => exact hI.mono hcur (fun _ _ => .refl _) fun _ _ _ t _ => h.priority t
  -- who is woken leaves the order of the others
  | @wake k _ _ _ answer hv hw _ h =>
    have hs₁ := hs.woken hv hw answer
    refine hI.mono hcur (fun kind i => ?_) fun _ _ _ t _ => ?_
    · rw [h.waiters, wake_waiters_eq]
      split
      · exact List.erase_sublist
      · exact .refl _
    · rw [h.priorityOf hs₁, woken_priorityOf]
  | @start k _ _ hv hw h =>
    -- the thread that is started waits nowhere, so its priority is nobody's
    have hpend : k ≠ s.pending := by
      rintro rfl
      rcases hs.pending_state with hst | hst <;> exact absurd (hw.symm.trans hst) (by decide)
    have hs₁ := hs.activate hv hw hpend
    refine hI.mono hcur (fun kind i => ?_) fun kind i _ t ht => ?_
    · rw [h.waiters, Lists.append_apply, if_neg (by simp)]
    · rw [h.priorityOf hs₁, activate_priorityOf]
      rintro rfl
      exact absurd (hw.symm.trans (hs.wait_of_mem ht)) (by decide)
  -- the caller joins at the place that its attribute says
  | @stop s₁ s₂ L₁ L₂ best hset hidle hstop hpick hne =>
    have hst := hstop.stopped
    have hpri : ∀ t, (s₂.setPending best).priorityOf t = s.priorityOf t := fun t => by
      change s₂.priorityOf t = _
      rw [hpick.priorityOf, priorityOf, priorityOf]
      rcases eq_or_ne t s.current with rfl | ht
      · exact hst.priority
      · rw [hst.threads t ht]
    refine ⟨hcur.trans hI.current, fun kind k t ht hne => ?_, fun kind k hk => ?_⟩
    · rw [hpick.waiters] at ht
      rcases hstop.waiters kind k with heq | ⟨b, l₁, l₂, -, hl, heq⟩
      · exact hI.old kind k t (heq ▸ ht) hne
      · rw [heq, ← List.singleton_append, List.mem_append, List.mem_append, List.mem_singleton]
          at ht
        refine hI.old kind k t ?_ hne
        rw [hl.eq, List.mem_append]
        exact ht.imp_right fun ht => ht.resolve_left fun heq => hne (heq.trans hI.current)
    · have hsorted := hI.sorted kind k hk
      rw [hpick.waiters, funext hpri]
      rcases hstop.waiters kind k with heq | ⟨b, l₁, l₂, hP, hl, heq⟩
      · rwa [heq]
      · obtain rfl := hjoins kind k b hP hk
        obtain ⟨heql, hle, hlt⟩ : Behind s s.current (L (.waiters kind k)) l₁ l₂ := hl
        rw [heql] at hsorted
        rw [heq]
        refine pairwise_join hsorted hle hlt fun j hj => ?_
        have hmem : j ∈ L (.waiters kind k) := heql ▸ List.mem_append_left l₂ hj
        -- whoever waits already came before the caller
        have hjc : j ≠ caller := by
          rintro rfl
          have hwait := hs.wait_of_mem hmem
          rw [← hI.current, ← show s.pending = s.current from hset, hs.settled hset] at hwait
          cases hwait
        rw [hI.current]
        exact hlast kind k j (hI.old kind k j hmem hjc) hjc
  | @thread k slot links f hno _ _ _ _ =>
    refine hI.mono hcur (fun _ _ => .refl _) fun kind i _ t ht => ?_
    have htk : t ≠ k := by
      rintro rfl
      exact hno _ ht
    rw [priorityOf, setThread_ne _ _ _ htk]
    rfl
  | object _ _ _ => exact hI.mono hcur (fun _ _ => .refl _) fun _ _ _ _ _ => rfl

theorem Moves.inOrder (h : Moves P s L s' L') (hI : InOrder kept since caller L₀ s L)
    (hjoins : ∀ kind k b, P.joins kind k b → kept kind k = true → b = true)
    (hlast : ∀ kind k, ∀ t ∈ L₀ (.waiters kind k), t ≠ caller → since t < since caller) :
    InOrder kept since caller L₀ s' L' :=
  h.invariant (I := InOrder kept since caller L₀)
    (fun _ _ _ _ hs hI hm _ => hm.inOrder hs hI hjoins hlast) hI

/-- Marking a thread as ready changes no priority. -/
theorem makeReady_priorityOf (s : Sched) (k t : ℕ) :
    (s.makeReady k).priorityOf t = s.priorityOf t := by
  rw [priorityOf, makeReady_threads, priorityOf]
  split
  · next ht => rw [ht]
  · rfl

/-- A change of priority is that of one thread. -/
theorem Reranks.priorityOf {k t priority : ℕ} (h : Reranks s L k priority interrupt s' L')
    (hs : Sound s L) (hp : priority < kPriorities) (ht : t ≠ k) :
    s'.priorityOf t = s.priorityOf t := by
  have hset : (s.setPriority k priority).priorityOf t = s.priorityOf t := by
    rw [setPriority_priorityOf, if_neg ht]
  have hrerank : (s.rerank k priority).priorityOf t = s.priorityOf t := by
    rw [Sched.priorityOf, rerank_threads, if_neg ht, Sched.priorityOf]
  cases h with
  | requeued _ => exact hrerank
  | decided hk hd => exact (hd.priorityOf (hs.rerank hk hp) t).trans hrerank
  | written _ _ => exact hset
  | kept _ _ hpick _ => exact (makeReady_priorityOf _ _ t).trans ((hpick.priorityOf t).trans hset)
  | yields _ _ hpick _ => exact (makeReady_priorityOf _ _ t).trans ((hpick.priorityOf t).trans hset)

/-- The priority of a waiting thread is written into its record and no more. -/
theorem Reranks.eq_of_wait {k priority : ℕ} (h : Reranks s L k priority interrupt s' L')
    (hs : Sound s L) (hw : (s.threads k).state = .wait) : s' = s.setPriority k priority := by
  have hready : k ∉ L (.ready (s.priorityOf k)) := fun hk =>
    absurd (((hs.linked.mem_iff k _).mp hk).2.2.1.symm.trans hw) (by decide)
  have hrun : s.Settled → k ≠ s.current := by
    rintro hset rfl
    rw [← show s.pending = s.current from hset, hs.settled hset] at hw
    cases hw
  cases h with
  | requeued hk => exact absurd hk hready
  | decided hk _ => exact absurd hk hready
  | written _ _ => rfl
  | kept hset hk _ _ => exact absurd hk (hrun hset)
  | yields hset hk _ _ => exact absurd hk (hrun hset)

theorem Rotates.priorityOf (h : Rotates s L interrupt s' L') (t : ℕ) :
    s'.priorityOf t = s.priorityOf t := by
  cases h with
  | yields _ hpick => exact (hpick.priorityOf t).trans (makeReady_priorityOf s _ t)
  | turns _ => rfl

/-- Ending a thread changes no priority. -/
theorem withdrawn_priorityOf (s : Sched) (k t : ℕ) :
    ((s.withdraw k).setThread k fun t => { t with state := .dormant }).priorityOf t =
      s.priorityOf t := by
  have hwithdraw : ((s.withdraw k).threads t).currentPriority = (s.threads t).currentPriority := by
    rw [withdraw]
    split
    · rw [takeOffReady_threads]
    · split
      · rw [leaveWait_threads]
        split
        · next ht => rw [ht]
        · rfl
      · rfl
  rw [priorityOf, setThread_threads]
  split
  · next ht =>
    subst ht
    exact hwithdraw
  · exact hwithdraw

/-- A thread joins a list of an object in use, where the object's attribute says. -/
theorem joins_byPriority {kind : Kind} {k : ℕ} {b : Bool} (h : (s.permits c).joins kind k b) :
    (s.pools kind k).inUse = true ∧ b = s.byPriority kind k := by
  cases c <;> try exact h.elim
  all_goals
    obtain ⟨rfl, hfound, rfl⟩ := h
    exact ⟨(lookup_eq_some.mp hfound).2.1, rfl⟩

/-- **Each call keeps the order**, unless it gives a waiter another priority. -/
theorem Effect.inOrder (h : Effect s L interrupt c s' L') (hs : Sound s L)
    (hI : InOrder kept since s.current L s L)
    (hkept : ∀ kind k, (s.pools kind k).inUse = true → kept kind k = s.byPriority kind k)
    (hlast : ∀ kind k, ∀ t ∈ L (.waiters kind k), t ≠ s.current → since t < since s.current)
    (hsteady : s.Steady c) : InOrder kept since s.current L s' L' := by
  cases h with
  | moves hm =>
    refine hm.inOrder hI (fun kind k b hP hk => ?_) hlast
    obtain ⟨hin, rfl⟩ := joins_byPriority hP
    rwa [← hkept kind k hin]
  | @terminates id k hk hcur hpend hs' =>
    refine hI.mono (withdraw_current s k) (fun kind i => ?_) fun _ _ _ t _ =>
      withdrawn_priorityOf s k t
    rw [withdraw_waiters hs]
    exact List.erase_sublist
  | @reranks id priority k _ _ hp hk hdormant hre =>
    refine hI.mono hre.reranks.current (fun kind i => ?_) fun kind i hkind t ht => ?_
    · rw [hre.reranks.waiters]
    · by_cases htk : t = k
      · subst htk
        have hwait := hs.wait_of_mem ht
        have hobject := ((hs.linked.mem_iff t _).mp ht).2.2.2
        have hon := hs.linked.family.on_of_mem ht
        have hsame : priority.toNat = s.priorityOf t := by
          refine hsteady (t, priority.toNat) ?_ hwait (kind, i) hobject ?_
          · exact Option.mem_map_of_mem _ ((if_pos hp).trans hk)
          · rw [← hkept kind i hon.2.2]
            exact hkind
        rw [hre.reranks.eq_of_wait hs hwait, setPriority_priorityOf, if_pos rfl, hsame]
      · exact hre.reranks.priorityOf hs (lt_of_legal hp) htk
  | rotates hr _ =>
    refine hI.mono hr.current (fun kind i => ?_) fun _ _ _ t _ => hr.priorityOf t
    rw [hr.waiters]

end Calls

/-! ### Runs -/

/-- The priority that an act changes is not that of a thread in a list kept in order, or is what it
was. -/
def Processor.Steady (m : Processor) : Act → Prop
  | .call c | .handler c => m.sched.Steady c
  | _ => True

instance (m : Processor) (a : Act) : Decidable (m.Steady a) :=
  match a with
  | .call c | .handler c => inferInstanceAs (Decidable (m.sched.Steady c))
  | .goOn | .enter | .expire _ | .leave _ => inferInstanceAs (Decidable True)

section Acts

variable {m m' : Processor} {L L' : Lists} {a : Act} {s' : Sched} {kept : Kind → ℕ → Bool}
  {since : ℕ → ℕ}

/-- An act leaves the attributes of objects in use alone. -/
theorem Processor.Does.byPriority (h : m.Does L a s' L') {kind : Kind} {k : ℕ}
    (hin : (m.sched.pools kind k).inUse = true) :
    s'.byPriority kind k = m.sched.byPriority kind k := by
  cases h with
  | call hr _ | handler hr _ => exact perform_byPriority hr hin
  | goOn _ hr _ =>
    have hw := writes_setLoop hr 0
    rw [byPriority_congr (hw.semaphores (by decide)) (hw.mailboxes (by decide))]
  | enter | leave => rfl
  | @expire t _ _ =>
    rw [delayExpired]
    split
    · have hw := leaves_wake m.sched t kOk true
      rw [byPriority_congr hw.semaphores hw.mailboxes]
    · rfl

/-- **Each act keeps the order**, unless it gives a waiter another priority. -/
theorem Processor.Does.inOrder (h : m.Does L a s' L') (hm : m.Good L) (hsteady : m.Steady a)
    (hI : InOrder kept since m.sched.current L m.sched L)
    (hkept : ∀ kind k, (m.sched.pools kind k).inUse = true →
      kept kind k = m.sched.byPriority kind k)
    (hlast : ∀ kind k, ∀ t ∈ L (.waiters kind k), t ≠ m.sched.current →
      since t < since m.sched.current) : InOrder kept since m.sched.current L s' L' := by
  have hs := hm.called.sound
  cases h with
  | call _ he | handler _ he => exact he.inOrder hs hI hkept hlast hsteady
  | goOn _ _ hmoves => exact hmoves.inOrder hI (fun _ _ _ hj => hj.elim) hlast
  | enter | leave => exact hI
  | expire hmoves => exact hmoves.inOrder hI (fun _ _ _ hj => hj.elim) hlast

end Acts

/-- The processor, the number of its acts, and for each thread the act by which it came to wait. -/
structure Arrivals where
  machine : Processor
  clock : ℕ
  since : ℕ → ℕ

namespace Arrivals

/-- A thread that waits after an act and did not before has come by it. -/
def arrived (w : Arrivals) (s' : Sched) (t : ℕ) : ℕ :=
  if (s'.threads t).state = .wait ∧ (w.machine.sched.threads t).state ≠ .wait then w.clock
  else w.since t

/-- An act, counted. -/
def next (w : Arrivals) (m' : Processor) : Arrivals := ⟨m', w.clock + 1, w.arrived m'.sched⟩

/-- A step of the processor, whoever calls what. -/
def TakenStep (w : Arrivals) (a : Act) (w' : Arrivals) : Prop :=
  ∃ m', w.machine.TakenStep a m' ∧ w' = w.next m'

/-- A careful step that gives no waiter in a list kept in order another priority. -/
def SteadyStep (w : Arrivals) (a : Act) (w' : Arrivals) : Prop :=
  w.machine.Steady a ∧ ∃ m', w.machine.CarefulStep a m' ∧ w' = w.next m'

/-- Who waits has come in an act before, and the lists kept in order are in order. -/
structure Sorted (w : Arrivals) (L : Lists) : Prop where
  past : ∀ t, (w.machine.sched.threads t).state = .wait → w.since t < w.clock
  sorted : ∀ kind k, w.machine.sched.byPriority kind k = true →
    (L (.waiters kind k)).Pairwise (Ahead w.machine.sched.priorityOf w.since)

/-- The act in which each waiter will have come when the caller waits. -/
def sinceOf (w : Arrivals) (t : ℕ) : ℕ :=
  if t = w.machine.sched.current then w.clock else w.since t

variable {w w' : Arrivals} {a : Act} {L L' : Lists} {m' : Processor} {s' : Sched}

/-- At the beginning of an act the lists are in order whichever objects are in use at its end. -/
theorem Sorted.inOrder (h : w.Sorted L) (hm : w.machine.Good L) {kept : Kind → ℕ → Bool}
    (hkept : ∀ kind k, (w.machine.sched.pools kind k).inUse = true →
      kept kind k = w.machine.sched.byPriority kind k) :
    InOrder kept w.sinceOf w.machine.sched.current L w.machine.sched L := by
  refine ⟨rfl, fun _ _ _ ht _ => ht, fun kind k hk => ?_⟩
  by_cases hon : w.machine.sched.isOn (.waiters kind k)
  · refine (h.sorted kind k (hkept kind k hon.2.2 ▸ hk)).imp_of_mem fun ha hb hab => ?_
    have hne : ∀ t ∈ L (.waiters kind k), w.sinceOf t = w.since t := fun t ht => by
      refine if_neg ?_
      rintro rfl
      exact hm.called.not_waiter kind k ht
    rw [Ahead, hne _ ha, hne _ hb]
    exact hab
  · rw [hm.called.sound.linked.family.off _ hon]
    exact .nil

/-- **One act keeps the lists in order.** -/
theorem SteadyStep.sorted (hm : w.machine.Good L) (hw : w.Sorted L) (h : w.SteadyStep a w') :
    ∃ L', w'.machine.Good L' ∧ w'.Sorted L' := by
  obtain ⟨hsteady, m', hcareful, rfl⟩ := h
  obtain ⟨s', L', hd, hfollows, hgood⟩ := hcareful.good hm
  have hsound := hm.called.sound
  have hlast : ∀ kind k, ∀ t ∈ L (.waiters kind k), t ≠ w.machine.sched.current →
      w.sinceOf t < w.sinceOf w.machine.sched.current := fun kind k t ht hne => by
    rw [sinceOf, if_neg hne, sinceOf, if_pos rfl]
    exact hw.past t (hsound.wait_of_mem ht)
  have hkept : ∀ kind k, (w.machine.sched.pools kind k).inUse = true →
      m'.sched.byPriority kind k = w.machine.sched.byPriority kind k := fun kind k hin => by
    have hleaves := hfollows.leaves (hd.sound hm)
    rw [byPriority_congr hleaves.semaphores hleaves.mailboxes, hd.byPriority hin]
  have hI := hd.inOrder hm hsteady (hw.inOrder hm hkept) hkept hlast
  have hpri : ∀ t, m'.sched.priorityOf t = s'.priorityOf t := fun t => by
    rcases hfollows with heq | ⟨hset, frame, heq⟩
    · rw [heq]
    · rw [heq, newContext_priorityOf (hd.sound hm) hset]
  have hsince : ∀ kind k, ∀ t ∈ L' (.waiters kind k), w.arrived m'.sched t = w.sinceOf t :=
    fun kind k t ht => by
      have hnow := hgood.called.sound.wait_of_mem ht
      rw [arrived, sinceOf]
      by_cases htc : t = w.machine.sched.current
      · have hthen : (w.machine.sched.threads t).state ≠ .wait := fun hwait =>
          hsound.ne_current hm.called.poised hwait htc
        rw [if_pos ⟨hnow, hthen⟩, if_pos htc]
      · have hthen := hsound.wait_of_mem (hI.old kind k t ht htc)
        rw [if_neg fun hc => hc.2 hthen, if_neg htc]
  refine ⟨L', hgood, fun t ht => ?_, fun kind k hk => ?_⟩
  · change w.arrived m'.sched t < w.clock + 1
    rw [arrived]
    split
    · exact Nat.lt_succ_self _
    · next hno =>
      have hthen : (w.machine.sched.threads t).state = .wait := by
        by_contra hne
        exact hno ⟨ht, hne⟩
      exact (hw.past t hthen).trans (Nat.lt_succ_self _)
  · refine (hI.sorted kind k hk).imp_of_mem fun {x y} hx hy hxy => ?_
    change Ahead m'.sched.priorityOf (w.arrived m'.sched) x y
    rw [Ahead, hpri, hpri, hsince kind k x hx, hsince kind k y hy]
    exact hxy

/-- THREADMAN as its entry leaves it, and nobody has come yet. -/
def start (messages : ℕ → Message) (out : ℕ → ℕ) : Arrivals :=
  ⟨.started messages out, 0, fun _ => 0⟩

theorem start_sorted (messages : ℕ → Message) (out : ℕ → ℕ) :
    (start messages out).Sorted Lists.started := by
  have hno : ∀ t, ((Sched.started messages out).threads t).state ≠ .wait := fun t hw => by
    have hv := (started_good messages out).peopled.exists_of_wait t hw
    have ht := (started_valid messages out t).mp hv
    rcases (by omega : t = 0 ∨ t = 1) with rfl | rfl
    · cases hw
    · cases hw
  exact ⟨fun t hw => absurd hw (hno t), fun _ _ _ => .nil⟩

variable {messages : ℕ → Message} {out : ℕ → ℕ} {acts : List Act} {kind : Kind} {k : ℕ}

/-- **The lists of waiters are in order of priority**, and of arrival among equals, so that whoever
is first has the best priority there and has waited longest with it. -/
theorem sorted_of_run (h : Steps SteadyStep (start messages out) acts w)
    (hon : w.machine.sched.isOn (.waiters kind k))
    (hby : w.machine.sched.byPriority kind k = true) :
    ∃ l, IsQueue kNone w.machine.sched.links (w.machine.sched.queues (.waiters kind k)) l ∧
      (∀ t, t ∈ l ↔ w.machine.sched.Valid t ∧ (w.machine.sched.threads t).state = .wait ∧
        w.machine.sched.waitObjectOf (w.machine.sched.threads t) = some (kind, k)) ∧
      l.Pairwise (Ahead w.machine.sched.priorityOf w.since) ∧
      ∀ t ∈ l, t ≠ (w.machine.sched.queues (.waiters kind k)).head →
        Ahead w.machine.sched.priorityOf w.since
          (w.machine.sched.queues (.waiters kind k)).head t := by
  obtain ⟨L, hgood, hw⟩ := h.invariant (I := fun w => ∃ L, w.machine.Good L ∧ w.Sorted L)
    (by
      rintro w a w' ⟨L, hm, hw⟩ hstep
      exact hstep.sorted hm hw)
    ⟨_, started_good messages out, start_sorted messages out⟩
  have hsound := hgood.called.sound
  have hqueue := hsound.linked.family.queue _ hon
  have hsorted := hw.sorted kind k hby
  refine ⟨L (.waiters kind k), hqueue, fun t => ?_, hsorted, fun t ht hne => ?_⟩
  · rw [hsound.linked.mem_iff]
    refine ⟨fun h => ⟨h.2.1, h.2.2⟩, fun h => ⟨fun hmem => ?_, h.1, h.2⟩⟩
    obtain rfl := List.mem_singleton.mp hmem
    exact hsound.pending_not_waiting h.2.1
  · have hhead := hqueue.head
    cases hl : L (.waiters kind k) with
    | nil =>
      rw [hl] at ht
      cases ht
    | cons x l =>
      rw [hl] at ht hhead hsorted
      rw [hhead] at hne ⊢
      exact (List.pairwise_cons.mp hsorted).1 t ((List.mem_cons.mp ht).resolve_left hne)

/-- Take careful acts that give no waiter in a list kept in order another priority. -/
def steadily (w : Arrivals) (a : Act) : Option Arrivals :=
  if w.machine.Steady a then (w.machine.carefully a).map w.next else none

theorem steps_of_steadily {w w' : Arrivals} {acts : List Act}
    (h : runList steadily w acts = some w') : Steps SteadyStep w acts w' :=
  Steps.of_runList (fun w a w' hw => by
    rw [steadily] at hw
    split at hw
    · next hsteady =>
      obtain ⟨m', hm, rfl⟩ := Option.map_eq_some_iff.mp hw
      exact ⟨hsteady, m', Processor.carefulStep_of_carefully hm, rfl⟩
    · cases hw) h

/-- A thread waits, and then two better ones of one priority; the boot thread sleeps meanwhile. -/
def threeWaiters : List Act :=
  [.call (.createSema kSemaPriority 0 1),
    .call (.createThread ⟨0x02000000, 0x1000, 0x400, 30⟩ 0x8000),
    .call (.createThread ⟨0x02000000, 0x1000, 0x400, 20⟩ 0x9000),
    .call (.createThread ⟨0x02000000, 0x1000, 0x400, 20⟩ 0xA000),
    .call (.startThread (makeId 2 1)), .call .sleepThread, .call (.waitSema (makeId 0 1)),
    .enter, .handler (.wakeupThread (makeId 1 1)), .leave 0,
    .call (.startThread (makeId 3 1)), .call (.startThread (makeId 4 1)), .call .sleepThread,
    .call (.waitSema (makeId 0 1)), .call (.waitSema (makeId 0 1))]

/-- What the memory holds at the start does not matter. -/
def nothing : Arrivals := start (fun _ => ⟨0, fun _ => 0⟩) fun _ => 0

/-- The first of the three is the last in the list, and of the others the one that came before is
the first. -/
theorem sorted_threeWaiters : ∃ w, Steps SteadyStep nothing threeWaiters w ∧
    (w.machine.sched.queues (.waiters .semaphore 0)).head = 3 ∧
    w.machine.sched.links.next 3 = 4 ∧ w.machine.sched.links.next 4 = 2 ∧
    ∃ l, IsQueue kNone w.machine.sched.links (w.machine.sched.queues (.waiters .semaphore 0)) l ∧
      l.Pairwise (Ahead w.machine.sched.priorityOf w.since) := by
  have hrun : (runList steadily nothing threeWaiters).map (fun w =>
      ((w.machine.sched.queues (.waiters .semaphore 0)).head, w.machine.sched.links.next 3,
        w.machine.sched.links.next 4, (w.machine.sched.pools .semaphore 0).inUse,
        w.machine.sched.byPriority .semaphore 0)) = some (3, 4, 2, true, true) := by decide +kernel
  obtain ⟨w, hw, heq⟩ := Option.map_eq_some_iff.mp hrun
  obtain ⟨hhead, heq⟩ := Prod.mk.inj heq
  obtain ⟨hnext, heq⟩ := Prod.mk.inj heq
  obtain ⟨hlast, heq⟩ := Prod.mk.inj heq
  obtain ⟨hin, hby⟩ := Prod.mk.inj heq
  have hsteps := steps_of_steadily hw
  obtain ⟨l, hqueue, -, hsorted, -⟩ := sorted_of_run hsteps ⟨by decide, by decide, hin⟩ hby
  exact ⟨w, hsteps, hhead, hnext, hlast, l, hqueue, hsorted⟩

/-! A priority that is changed while its thread waits changes no list. -/

/-- Two threads wait, and the boot thread makes the second the better one. -/
def promoted : List Act :=
  [.call (.createSema kSemaPriority 0 1),
    .call (.createThread ⟨0x02000000, 0x1000, 0x400, 20⟩ 0x8000),
    .call (.createThread ⟨0x02000000, 0x1000, 0x400, 30⟩ 0x9000),
    .call (.startThread (makeId 2 1)), .call (.startThread (makeId 3 1)), .call .sleepThread,
    .call (.waitSema (makeId 0 1)), .call (.waitSema (makeId 0 1)), .enter,
    .handler (.wakeupThread (makeId 1 1)), .leave 0,
    .call (.changeThreadPriority (makeId 3 1) 10)]

/-- The first of the list has the worse priority. -/
theorem unsorted_promoted : ∃ w, Steps TakenStep nothing promoted w ∧
    w.machine.sched.byPriority .semaphore 0 = true ∧
    w.machine.sched.priorityOf 3 < w.machine.sched.priorityOf 2 ∧
    ∀ l, IsQueue kNone w.machine.sched.links (w.machine.sched.queues (.waiters .semaphore 0)) l →
      l = [2, 3] ∧ ¬ l.Pairwise (Ahead w.machine.sched.priorityOf w.since) := by
  have hrun : (runList (fun w a => (w.machine.take a).map w.next) nothing promoted).map (fun w =>
      (w.machine.sched.byPriority .semaphore 0,
        decide (w.machine.sched.priorityOf 3 < w.machine.sched.priorityOf 2),
        (w.machine.sched.queues (.waiters .semaphore 0)).head, w.machine.sched.links.next 2,
        w.machine.sched.links.next 3)) = some (true, true, 2, 3, kNone) := by decide +kernel
  obtain ⟨w, hw, heq⟩ := Option.map_eq_some_iff.mp hrun
  obtain ⟨hby, heq⟩ := Prod.mk.inj heq
  obtain ⟨hlt, heq⟩ := Prod.mk.inj heq
  obtain ⟨hhead, heq⟩ := Prod.mk.inj heq
  obtain ⟨hnext, hlast⟩ := Prod.mk.inj heq
  have hsteps : Steps TakenStep nothing promoted w := Steps.of_runList (fun w a w' hw => by
    obtain ⟨m', hm, rfl⟩ := Option.map_eq_some_iff.mp hw
    obtain ⟨⟨told, m''⟩, hstep, rfl⟩ := Option.map_eq_some_iff.mp hm
    exact ⟨m'', ⟨told, hstep⟩, rfl⟩) hw
  have hlt := of_decide_eq_true hlt
  refine ⟨w, hsteps, hby, hlt, fun l hl => ?_⟩
  have hchain : Chain kNone w.machine.sched.links.next 2 [2, 3] :=
    ⟨rfl, by decide, hnext, by decide, hlast⟩
  have heq : l = [2, 3] := (hhead ▸ hl.chain).unique hchain
  refine ⟨heq, fun hsorted => ?_⟩
  rw [heq] at hsorted
  rcases (List.pairwise_cons.mp hsorted).1 3 List.mem_cons_self with hlt' | ⟨heq', -⟩
  · exact absurd hlt' hlt.asymm
  · exact absurd heq' hlt.ne'

end Arrivals

end PS2Bios.Threadman
