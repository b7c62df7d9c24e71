import PS2Bios.Library.EveryStep
import PS2Bios.Vblank.Handlers

/-!
# The dispatch of vertical blank

Either line's interrupt calls what is on its list, and what answers 0 goes back to the pool. A
callback may call the two functions before it answers (`Script`), and it is in interrupt context
then: such a call is refused before it does anything (`Call.run_interrupt`). Over every sequence of
calls and interrupts the lists stay in order (`lists_orderly`).
-/

namespace PS2Bios.Vblank

open Intrusive

/-- What a callback does: it may call, and go on by what is answered, and it answers. It may change
the world `σ` outside the module. -/
inductive Script (σ : Type)
  | answer (value : ℤ) (world : σ)
  | call (c : Call) (go : ℤ → Script σ)

variable {σ : Type}

/-- A callback is run, in interrupt context. -/
def perform : Script σ → State → Option (ℤ × σ × State)
  | .answer value world, s => some (value, world, s)
  | .call c go, s => (c.run true s).bind fun r => perform (go r.1) r.2

variable (callback : ℕ → ℕ → σ → Script σ)

/-- `runList`, from the record `x` on. It gives the entries it called with what they answered. -/
def runList (list : ListId) : ℕ → ℕ → State → σ → Option (List (Entry × ℤ) × State × σ)
  | 0, _, _, _ => none
  | n + 1, x, s, w =>
    if x = kNone then some ([], s, w)
    else
      let following := s.links.next x
      (perform (callback (s.handler x) (s.arg x) w) s).bind fun (value, w, s') =>
        (if value = 0 then giveBack list x s' else some s').bind fun s'' =>
          (runList list n following s'' w).map fun r => ((s.entry x, value) :: r.1, r.2)

/-- What happens: a thread calls, or one of the two lines is raised. -/
inductive Event
  | call (c : Call)
  | startInterrupt
  | endInterrupt
deriving DecidableEq, Repr

/-- The list an interrupt dispatches. -/
def Event.list : Event → Option ListId
  | .call _ => none
  | .startInterrupt => some .start
  | .endInterrupt => some .finish

/-- What came of an event: the answer, and what was called. -/
structure Outcome where
  answer : ℤ
  called : List (Entry × ℤ)

/-- What an event does: a call, or an interrupt that walks its list. -/
def Event.run : Event → State → σ → Option (Outcome × State × σ)
  | .call c, s, w => (c.run false s).map fun r => (⟨r.1, []⟩, r.2, w)
  | .startInterrupt, s, w =>
    (runList callback .start kTurns (s.head .start) s w).map fun r => (⟨1, r.1⟩, r.2)
  | .endInterrupt, s, w =>
    (runList callback .finish kTurns (s.head .finish) s w).map fun r => (⟨1, r.1⟩, r.2)

/-! ### The pool before the first call -/

/-- No list has a record. -/
def blank (s : State) : State :=
  { s with links := ⟨fun _ => kNone, fun _ => kNone⟩, head := fun _ => kNone }

/-- The loop of `_module_start` that puts the records below `k` on the free list. -/
def fillFree : ℕ → State → Option State
  | 0, s => some s
  | k + 1, s => (insertBefore .free k (s.head .free) s).bind (fillFree k)

/-! ### What a dispatch is for -/

/-- What an event registers or releases. -/
def Event.record : Event → Outcome → Order → Order
  | .call c, outcome, order => c.record outcome.answer order
  | .startInterrupt, outcome, order =>
    Function.update order .start ((order .start).filter fun e => (e, 0) ∉ outcome.called)
  | .endInterrupt, outcome, order =>
    Function.update order .finish ((order .finish).filter fun e => (e, 0) ∉ outcome.called)

/-- The entries on a list, from its head on. -/
def Contents (s : State) (p : ListId) (entries : List Entry) : Prop :=
  ∃ records, Chain kNone s.links.next (s.head p) records ∧ records.map s.entry = entries

/-- A state, the world outside, and what is registered. -/
structure Machine (σ : Type) where
  state : State
  world : σ
  order : Order

/-- What an event leaves. -/
def Event.step (e : Event) (M : Machine σ) : Machine σ :=
  match e.run callback M.state M.world with
  | none => M
  | some (outcome, state, world) => ⟨state, world, e.record outcome M.order⟩

/-- What an event does right. -/
structure Event.Right (e : Event) (M : Machine σ) : Prop where
  /-- It ends. -/
  ends : (e.run callback M.state M.world).isSome
  /-- The records stay divided and the lists in order. -/
  orderly : Orderly (e.step callback M).state (e.step callback M).order
  /-- A registration is refused for a handler that is on the list, or for want of a record, a
  release for a handler that is not. -/
  answers : ∀ c outcome state world, e = .call c →
    e.run callback M.state M.world = some (outcome, state, world) →
    outcome.answer = c.expected M.order
  /-- A dispatch calls what is on its list, each once and in order, and what does not answer 0 is
  on it afterwards. -/
  dispatches : ∀ p outcome state world, e.list = some p →
    e.run callback M.state M.world = some (outcome, state, world) →
    Contents M.state p (outcome.called.map Prod.fst) ∧
      Contents state p ((outcome.called.filter fun r => r.2 ≠ 0).map Prod.fst)

variable {callback} {s s' : State} {lists : ListId → List ℕ} {p : ListId} {order : Order}

/-! ### The dispatch -/

/-- In interrupt context both functions are refused. -/
theorem Call.run_interrupt (c : Call) (s : State) : c.run true s = some (kIllegalContext, s) := by
  cases c <;> rfl

/-- A callback returns, and has changed nothing here. -/
theorem perform_returns (script : Script σ) (s : State) :
    ∃ value world, perform script s = some (value, world, s) := by
  induction script with
  | answer value world => exact ⟨value, world, rfl⟩
  | call c go ih =>
    obtain ⟨value, world, heq⟩ := ih kIllegalContext
    refine ⟨value, world, ?_⟩
    rw [perform, c.run_interrupt, Option.bind_some]
    exact heq

/-- What a dispatch has done from a record on: `done` has been called before, and kept. -/
structure Dispatched (s s' : State) (lists : ListId → List ℕ) (p : ListId) (done rest : List ℕ)
    (called : List (Entry × ℤ)) : Prop where
  calls : called.map Prod.fst = rest.map s.entry
  records : SameRecords s s'
  holds : ∃ lists', Holds s' lists' ∧ (∀ q ≠ p, q ≠ .free → lists' q = lists q) ∧
    ∃ kept, lists' p = done ++ kept ∧
      kept.map s.entry = (called.filter fun r => r.2 ≠ 0).map Prod.fst

/-- The rest of a walk calls the rest of the list, and takes out who asks to be. -/
theorem runList_dispatches {done rest : List ℕ} (h : Holds s lists)
    (callback : ℕ → ℕ → σ → Script σ) (hp : p ≠ .free)
    (hl : lists p = done ++ rest) (w : σ) {n : ℕ} (hn : rest.length < n) :
    ∃ called s' w', runList callback p n (rest.headD kNone) s w = some (called, s', w') ∧
      Dispatched s s' lists p done rest called := by
  induction rest generalizing s lists done w n with
  | nil =>
    obtain ⟨n, rfl⟩ : ∃ k, n = k + 1 := ⟨n - 1, by omega⟩
    refine ⟨[], s, w, if_pos rfl, rfl, ⟨rfl, rfl, rfl⟩, lists, h, fun _ _ _ => rfl, [], hl, rfl⟩
  | cons x rest ih =>
    obtain ⟨n, rfl⟩ : ∃ k, n = k + 1 := ⟨n - 1, by omega⟩
    have hn : rest.length < n := Nat.lt_of_succ_lt_succ hn
    have hx : x ∈ lists p := hl ▸ List.mem_append_right _ List.mem_cons_self
    have hfollowing : s.links.next x = rest.headD kNone := by
      have hchain := h.chain p
      rw [hl] at hchain
      exact hchain.behind.2.eq_headD
    obtain ⟨value, world, hperform⟩ :=
      perform_returns (callback (s.handler x) (s.arg x) w) s
    rw [List.headD_cons, runList, if_neg (h.ne_none hx), hfollowing, hperform, Option.bind_some]
    by_cases hvalue : value = 0
    · -- the record goes back to the pool
      obtain ⟨s₁, hs₁, hholds₁, hsame₁⟩ := h.giveBack hx hp
      have hnodup := (h.family.queue p trivial).nodup
      rw [hl] at hnodup
      have herase : (lists p).erase x = done ++ rest := by
        have hdone : x ∉ done := fun hmem =>
          (List.nodup_append.mp hnodup).2.2 x hmem x List.mem_cons_self rfl
        rw [hl, List.erase_append_right _ hdone, List.erase_cons_head]
      have hl₁ : Function.update (Function.update lists p ((lists p).erase x)) .free
          (x :: lists .free) p = done ++ rest := by
        rw [Function.update_of_ne hp, Function.update_self, herase]
      obtain ⟨called, s', w', hrun, hdone⟩ := ih hholds₁ hl₁ world hn
      obtain ⟨lists', hholds', hothers, kept, hkept, hentries⟩ := hdone.holds
      refine ⟨(s.entry x, value) :: called, s', w', ?_, ?_, ?_, lists', hholds', ?_, kept, hkept,
        ?_⟩
      · dsimp only
        rw [if_pos hvalue, hs₁, Option.bind_some, hrun, Option.map_some]
      · rw [List.map_cons, hdone.calls, hsame₁.entry_eq, List.map_cons]
      · exact ⟨hdone.records.priority.trans hsame₁.priority,
          hdone.records.handler.trans hsame₁.handler, hdone.records.arg.trans hsame₁.arg⟩
      · intro q hqp hq
        rw [hothers q hqp hq, Function.update_of_ne hq, Function.update_of_ne hqp]
      · rw [List.filter_cons_of_neg (by simpa using hvalue), ← hentries, hsame₁.entry_eq]
    · have hl' : lists p = done ++ [x] ++ rest := by
        rw [hl, List.append_assoc, List.singleton_append]
      obtain ⟨called, s', w', hrun, hdone⟩ := ih h hl' world hn
      obtain ⟨lists', hholds', hothers, kept, hkept, hentries⟩ := hdone.holds
      refine ⟨(s.entry x, value) :: called, s', w', ?_, ?_, hdone.records, lists', hholds', hothers,
        x :: kept, ?_, ?_⟩
      · dsimp only
        rw [if_neg hvalue, Option.bind_some, hrun, Option.map_some]
      · rw [List.map_cons, hdone.calls, List.map_cons]
      · rw [hkept, List.append_assoc, List.singleton_append]
      · rw [List.filter_cons_of_pos (by simpa using hvalue), List.map_cons, List.map_cons, hentries]

/-- What does not answer 0, as no entry is called twice. -/
theorem filter_called {called : List (Entry × ℤ)} (hnodup : (called.map Prod.fst).Nodup) :
    (called.filter fun r => r.2 ≠ 0).map Prod.fst =
      (called.map Prod.fst).filter fun e => (e, 0) ∉ called := by
  rw [List.filter_map]
  refine congrArg _ (List.filter_congr fun r hr => ?_)
  rw [Bool.eq_iff_iff, Function.comp_apply, decide_eq_true_eq, decide_eq_true_eq]
  refine not_congr ⟨fun hzero => ?_, fun hmem => ?_⟩
  · rwa [← hzero]
  · exact congrArg Prod.snd (List.inj_on_of_nodup_map hnodup hr hmem rfl)

/-- A dispatch calls the whole list in its order, whatever the handlers answer. -/
theorem Orderly.dispatch (h : Orderly s order) (callback : ℕ → ℕ → σ → Script σ) (hp : p ≠ .free)
    (w : σ) :
    ∃ called s' w', runList callback p kTurns (s.head p) s w = some (called, s', w') ∧
      Orderly s' (Function.update order p ((order p).filter fun e => (e, 0) ∉ called)) ∧
      Contents s p (called.map Prod.fst) ∧
      Contents s' p ((called.filter fun r => r.2 ≠ 0).map Prod.fst) := by
  obtain ⟨⟨lists, hholds, hsorted⟩, hnodup⟩ := h
  obtain ⟨called, s', w', hrun, hdone⟩ := runList_dispatches hholds callback hp
    (List.nil_append (lists p)).symm w (Nat.lt_succ_of_le (hholds.length_le p))
  obtain ⟨lists', hholds', hothers, kept, hkept, hentries⟩ := hdone.holds
  rw [List.nil_append] at hkept
  subst hkept
  have hcalled : (called.map Prod.fst).Nodup := by
    rw [hdone.calls]
    refine List.Nodup.of_map Entry.handler ?_
    exact ((hsorted p hp).perm.map Entry.handler).nodup_iff.mpr (hnodup p hp)
  rw [← (hholds.family.queue p trivial).head] at hrun
  refine ⟨called, s', w', hrun, ⟨⟨lists', hholds', fun q hq => ?_⟩, fun q hq => ?_⟩,
    ⟨lists p, hholds.chain p, hdone.calls.symm⟩, ⟨lists' p, hholds'.chain p, ?_⟩⟩
  · rw [hdone.records.entry_eq]
    rcases eq_or_ne q p with rfl | hne
    · rw [Function.update_self, hentries, filter_called hcalled, hdone.calls]
      exact (hsorted q hq).filter _
    · rw [Function.update_of_ne hne, hothers q hne hq]
      exact hsorted q hq
  · rcases eq_or_ne q p with rfl | hne
    · rw [Function.update_self]
      exact (hnodup q hq).sublist (List.filter_sublist.map _)
    · rw [Function.update_of_ne hne]
      exact hnodup q hq
  · rw [hdone.records.entry_eq, hentries]

/-! ### Every sequence of events -/

/-- Each event does what it should in a state that is in order. -/
theorem Event.right (e : Event) {M : Machine σ} (h : Orderly M.state M.order) :
    e.Right callback M := by
  obtain ⟨s, w, order⟩ := M
  cases e with
  | call c =>
    obtain ⟨s', hrun, horderly⟩ := h.call c
    have hevent : (Event.call c).run callback s w = some (⟨c.expected order, []⟩, s', w) := by
      rw [Event.run, hrun, Option.map_some]
    refine ⟨by rw [hevent]; rfl, ?_, fun c' outcome state world hc hsome => ?_,
      fun p outcome state world hp => by cases hp⟩
    · rw [Event.step, hevent]
      exact horderly
    · obtain rfl := Event.call.inj hc
      obtain ⟨rfl, -, -⟩ : _ = outcome ∧ _ = state ∧ _ = world := by
        simpa using Option.some.inj (hevent.symm.trans hsome)
      rfl
  | startInterrupt =>
    obtain ⟨called, s', w', hrun, horderly, hbefore, hafter⟩ :=
      h.dispatch callback (show ListId.start ≠ .free by decide) w
    have hevent : Event.startInterrupt.run callback s w = some (⟨1, called⟩, s', w') := by
      rw [Event.run, hrun, Option.map_some]
    refine ⟨by rw [hevent]; rfl, ?_, fun c outcome state world hc => (by cases hc),
      fun p outcome state world hp hsome => ?_⟩
    · rw [Event.step, hevent]
      exact horderly
    · obtain rfl : ListId.start = p := Option.some.inj hp
      obtain ⟨rfl, rfl, rfl⟩ : _ = outcome ∧ _ = state ∧ _ = world := by
        simpa using Option.some.inj (hevent.symm.trans hsome)
      exact ⟨hbefore, hafter⟩
  | endInterrupt =>
    obtain ⟨called, s', w', hrun, horderly, hbefore, hafter⟩ :=
      h.dispatch callback (show ListId.finish ≠ .free by decide) w
    have hevent : Event.endInterrupt.run callback s w = some (⟨1, called⟩, s', w') := by
      rw [Event.run, hrun, Option.map_some]
    refine ⟨by rw [hevent]; rfl, ?_, fun c outcome state world hc => (by cases hc),
      fun p outcome state world hp hsome => ?_⟩
    · rw [Event.step, hevent]
      exact horderly
    · obtain rfl : ListId.finish = p := Option.some.inj hp
      obtain ⟨rfl, rfl, rfl⟩ : _ = outcome ∧ _ = state ∧ _ = world := by
        simpa using Option.some.inj (hevent.symm.trans hsome)
      exact ⟨hbefore, hafter⟩

theorem lined_blank (s : State) : Lined (blank s) fun _ => [] where
  family := ⟨fun _ _ => ⟨trivial, rfl, rfl, List.nodup_nil, List.not_mem_nil⟩, fun _ _ => rfl,
    fun _ _ _ hx => absurd hx List.not_mem_nil⟩
  lt _ _ hx := absurd hx List.not_mem_nil

/-- Filling the free list puts every record on it. -/
theorem fillFree_holds {k : ℕ} (h : Lined s lists) (hk : k ≤ kHandlers)
    (hlow : ∀ x < k, ∀ p, x ∉ lists p) (hhigh : ∀ x < kHandlers, k ≤ x → ∃ p, x ∈ lists p)
    (hempty : ∀ p ≠ .free, lists p = []) : ∃ s' lists', fillFree k s = some s' ∧
      Holds s' lists' ∧ ∀ p ≠ .free, lists' p = [] := by
  induction k generalizing s lists with
  | zero => exact ⟨s, lists, rfl, ⟨h, fun x hx => hhigh x hx (Nat.zero_le x)⟩, hempty⟩
  | succ k ih =>
    have hhead : s.head .free = (lists .free).headD kNone := (h.family.queue .free trivial).head
    obtain ⟨s₁, hs₁, hlined, -⟩ := h.insertBefore (List.nil_append (lists .free)).symm
      (hlow k (Nat.lt_succ_self k)) (Nat.lt_of_succ_le hk)
    have hmem : ∀ x p, x ∈ Function.update lists .free (k :: lists .free) p ↔
        (x = k ∧ p = .free) ∨ x ∈ lists p := by
      intro x p
      by_cases hp : p = .free
      · subst hp
        simp
      · simp [hp]
    obtain ⟨s', lists', hfill, hholds, hnone⟩ : ∃ s' lists', fillFree k s₁ = some s' ∧
        Holds s' lists' ∧ ∀ p ≠ .free, lists' p = [] := by
      refine ih hlined (Nat.le_of_succ_le hk) (fun x hx p hxp => ?_) (fun x hx hkx => ?_)
        fun p hp => ?_
      · rcases (hmem x p).mp hxp with ⟨rfl, -⟩ | hold
        · exact Nat.lt_irrefl _ hx
        · exact hlow x (Nat.lt_succ_of_lt hx) p hold
      · rcases Nat.eq_or_lt_of_le hkx with rfl | hlt
        · exact ⟨.free, (hmem _ _).mpr (.inl ⟨rfl, rfl⟩)⟩
        · obtain ⟨p, hp⟩ := hhigh x hx hlt
          exact ⟨p, (hmem x p).mpr (.inr hp)⟩
      · rw [Function.update_of_ne hp]
        exact hempty p hp
    refine ⟨s', lists', ?_, hholds, hnone⟩
    rw [fillFree, hhead, hs₁, Option.bind_some, hfill]

/-- Over every sequence of calls and interrupts, whatever the callbacks answer and call themselves,
from the lists as they are first made: the records stay divided among the lists, the lists stay in
order, each call answers by what is registered, and each dispatch calls what is on its list and
keeps what does not answer 0. -/
theorem lists_orderly (callback : ℕ → ℕ → σ → Script σ) (records : State) (world : σ)
    (events : List Event) : ∃ s, fillFree kHandlers (blank records) = some s ∧
      Orderly s (fun _ => []) ∧
      EveryStep (Event.step callback) (Event.Right callback) events ⟨s, world, fun _ => []⟩ := by
  obtain ⟨s, lists, hfill, hholds, hempty⟩ := fillFree_holds (lined_blank records)
    (Nat.le_refl kHandlers) (fun x _ p => List.not_mem_nil)
    (fun x hx hle => absurd hx (Nat.not_lt.mpr hle)) fun p _ => rfl
  have hstart : Orderly s fun _ => [] := by
    refine ⟨⟨lists, hholds, fun p hp => ?_⟩, fun p _ => List.nodup_nil⟩
    rw [hempty p hp]
    exact IsStableSort.nil
  refine ⟨s, hfill, hstart, ?_⟩
  refine EveryStep.of_invariant (P := fun _ _ => True) (I := fun M => Orderly M.state M.order)
    (fun e M hM _ => ?_) (everyStep_of_forall fun _ _ => trivial) hstart
  have hright : e.Right callback M := e.right hM
  exact ⟨hright, hright.orderly⟩

end PS2Bios.Vblank
