import Mathlib.Data.List.Nodup
import Mathlib.Logic.Function.Basic
import Mathlib.Logic.Relation

/-!
# Threads that meet at an event flag

An event flag is a word of bits. A thread sets some, keeps some, or waits until some are set, and
then goes on with the bits as they were found. `Moves` and `Wakes` are what such threads do when
waiting is taken for granted: a thread at its wait goes on when the bits are there.

A kernel keeps a list of waiters instead. Who sets bits goes through the list; who is found
satisfied leaves it and may run at once, before the setter has seen the rest, so the setter keeps
the place it goes on from (`walk`). `step_core` is the refinement: whatever the kernel's machine
does is a move and some wakes. `IsQuiet.step` says when no waiter is ever left behind: when nobody
sets bits that two threads wait for.
-/

namespace PS2Bios

universe u v w

namespace EventFlag

/-- What a thread does next: `k` is what it leaves of the state. -/
inductive Action (β : Type v) where
  | set (b : BitVec 32) (k : β → β)
  | clear (keep : BitVec 32) (k : β → β)
  | wait (wanted : BitVec 32) (any : Bool) (k : BitVec 32 → β → β)
  | act (k : β → β)

/-- Some threads and what else happens. An event sets bits, or none. -/
structure System (T : Type u) (β : Type v) (ι : Type w) where
  action : T → β → Option (Action β)
  event : ι → β → Option (β × BitVec 32)

/-- The next step is a thread's, or an event. -/
inductive Label (T : Type u) (ι : Type w) where
  | thread (t : T)
  | event (i : ι)

/-- The bits, and the rest of the state. -/
structure Core (β : Type v) where
  bits : BitVec 32
  rest : β

/-- Whether a wait ends with some bits. -/
def satisfied (bits wanted : BitVec 32) (any : Bool) : Bool :=
  if any then bits &&& wanted != 0 else bits &&& wanted == wanted

variable {T : Type u} {β : Type v} {ι : Type w}

/-! ### Waiting taken for granted -/

/-- Anything but the end of a wait. -/
inductive Moves (sys : System T β ι) : Core β → Label T ι → Core β → Prop
  | set {c : Core β} {t : T} {b : BitVec 32} {k : β → β}
      (h : sys.action t c.rest = some (.set b k)) :
      Moves sys c (.thread t) ⟨c.bits ||| b, k c.rest⟩
  | clear {c : Core β} {t : T} {keep : BitVec 32} {k : β → β}
      (h : sys.action t c.rest = some (.clear keep k)) :
      Moves sys c (.thread t) ⟨c.bits &&& keep, k c.rest⟩
  | act {c : Core β} {t : T} {k : β → β} (h : sys.action t c.rest = some (.act k)) :
      Moves sys c (.thread t) ⟨c.bits, k c.rest⟩
  | event {c : Core β} {i : ι} {rest : β} {b : BitVec 32}
      (h : sys.event i c.rest = some (rest, b)) :
      Moves sys c (.event i) ⟨c.bits ||| b, rest⟩

/-- The end of a wait. -/
inductive Wakes (sys : System T β ι) : Core β → Core β → Prop
  | wait {c : Core β} {t : T} {wanted : BitVec 32} {any : Bool} {k : BitVec 32 → β → β}
      (h : sys.action t c.rest = some (.wait wanted any k)) (hbits : satisfied c.bits wanted any) :
      Wakes sys c ⟨c.bits, k c.bits c.rest⟩

/-! ### The kernel's machine -/

/-- Who waits, and for what. -/
structure Waiter (T : Type u) where
  thread : T
  wanted : BitVec 32
  any : Bool

/-- `walk t` is what a setter has still to see: from which waiter on it goes through the list, or
that it has come to its end. -/
structure State (T : Type u) (β : Type v) extends Core β where
  waiters : List (Waiter T)
  walk : T → Option (Option T)

/-- The bits are those the waiter waits for. -/
def Waiter.isSatisfied (bits : BitVec 32) (w : Waiter T) : Bool := satisfied bits w.wanted w.any

/-- A thread's wait ends. -/
def wake (sys : System T β ι) (c : Core β) (w : Waiter T) : Core β :=
  match sys.action w.thread c.rest with
  | some (.wait _ _ k) => ⟨c.bits, k c.bits c.rest⟩
  | _ => c

variable [DecidableEq T]

/-- Go through the list up to the first waiter that is satisfied; it leaves the list and may run
before the rest is seen. -/
def visit (sys : System T β ι) (c : Core β) (walk : T → Option (Option T)) (t : T) :
    List (Waiter T) → List (Waiter T) → State T β
  | passed, [] => ⟨c, passed, Function.update walk t none⟩
  | passed, w :: ws =>
    if w.isSatisfied c.bits then
      ⟨wake sys c w, passed ++ ws, Function.update walk t (some (ws.head?.map Waiter.thread))⟩
    else visit sys c walk t (passed ++ [w]) ws

/-- An interrupt goes through the whole list before any thread runs. -/
def visitAll (sys : System T β ι) (c : Core β) (walk : T → Option (Option T)) :
    List (Waiter T) → List (Waiter T) → State T β
  | passed, [] => ⟨c, passed, walk⟩
  | passed, w :: ws =>
    if w.isSatisfied c.bits then visitAll sys (wake sys c w) walk passed ws
    else visitAll sys c walk (passed ++ [w]) ws

/-- One step. A setter whose place is not in the list any more is past what is described here. -/
def step (sys : System T β ι) (s : State T β) : Label T ι → Option (State T β)
  | .event i =>
    (sys.event i s.rest).map fun r =>
      if r.2 = 0 then { s with rest := r.1 }
      else visitAll sys ⟨s.bits ||| r.2, r.1⟩ s.walk [] s.waiters
  | .thread t =>
    if s.waiters.any (·.thread = t) then none
    else
      match s.walk t with
      | some none => some { s with walk := Function.update s.walk t none }
      | some (some x) =>
        if s.waiters.any (·.thread = x) then
          some (visit sys s.toCore s.walk t (s.waiters.takeWhile (·.thread ≠ x))
            (s.waiters.dropWhile (·.thread ≠ x)))
        else none
      | none =>
        (sys.action t s.rest).map fun
          | .set b k => visit sys ⟨s.bits ||| b, k s.rest⟩ s.walk t [] s.waiters
          | .clear keep k => { s with bits := s.bits &&& keep, rest := k s.rest }
          | .act k => { s with rest := k s.rest }
          | .wait wanted any k =>
            if satisfied s.bits wanted any then { s with rest := k s.bits s.rest }
            else { s with waiters := s.waiters ++ [⟨t, wanted, any⟩] }

/-! ### What going through the list comes to -/

variable {sys : System T β ι} {s s' : State T β} {c : Core β} {walk : T → Option (Option T)} {t : T}
  {l : Label T ι} {w : Waiter T} {passed ws : List (Waiter T)}

/-- Nobody is satisfied, or the first who is is woken. -/
theorem visit_cases (sys : System T β ι) (c : Core β) (walk : T → Option (Option T)) (t : T)
    (passed ws : List (Waiter T)) :
    (∀ w ∈ ws, w.isSatisfied c.bits = false) ∧
        visit sys c walk t passed ws = ⟨c, passed ++ ws, Function.update walk t none⟩ ∨
      ∃ before w after, ws = before ++ w :: after ∧ w.isSatisfied c.bits ∧
        (∀ v ∈ before, v.isSatisfied c.bits = false) ∧
        visit sys c walk t passed ws = ⟨wake sys c w, passed ++ (before ++ after),
          Function.update walk t (some (after.head?.map Waiter.thread))⟩ := by
  induction ws generalizing passed with
  | nil => exact .inl ⟨fun w hw => absurd hw List.not_mem_nil, by rw [visit, List.append_nil]⟩
  | cons v vs ih =>
    by_cases hv : v.isSatisfied c.bits
    · exact .inr ⟨[], v, vs, rfl, hv, fun w hw => absurd hw List.not_mem_nil, by
        rw [visit, if_pos hv, List.nil_append]⟩
    · have hvisit :
          visit sys c walk t passed (v :: vs) = visit sys c walk t (passed ++ [v]) vs := by
        rw [visit, if_neg hv]
      rw [Bool.not_eq_true] at hv
      rw [hvisit]
      obtain ⟨hall, heq⟩ | ⟨before, w, after, rfl, hw, hbefore, heq⟩ := ih (passed ++ [v])
      · exact .inl ⟨List.forall_mem_cons.mpr ⟨hv, hall⟩, by
          rw [heq, List.append_assoc, List.singleton_append]⟩
      · exact .inr ⟨v :: before, w, after, rfl, hw, List.forall_mem_cons.mpr ⟨hv, hbefore⟩, by
          rw [heq, List.append_assoc, List.singleton_append, List.cons_append]⟩

/-- What an action leaves of the state, with the bits found. -/
def Action.after : Action β → BitVec 32 → β → β
  | .set _ k, _ => k
  | .clear _ k, _ => k
  | .wait _ _ k, bits => k bits
  | .act k, _ => k

/-- Each thread's next action is its own affair. -/
structure IsOwn (sys : System T β ι) : Prop where
  thread : ∀ {t a x}, sys.action t x = some a → ∀ bits, ∀ u ≠ t,
    sys.action u (a.after bits x) = sys.action u x
  event : ∀ {i x r}, sys.event i x = some r → ∀ {u b any k},
    sys.action u x = some (.wait b any k) → sys.action u r.1 = some (.wait b any k)

/-- The waiters are at their waits. -/
structure AtWaits (sys : System T β ι) (x : β) (ws : List (Waiter T)) : Prop where
  wait : ∀ w ∈ ws, ∃ k, sys.action w.thread x = some (.wait w.wanted w.any k)
  nodup : (ws.map Waiter.thread).Nodup

omit [DecidableEq T] in
theorem AtWaits.sublist {x : β} {vs : List (Waiter T)} (h : AtWaits sys x ws)
    (hsub : vs.Sublist ws) : AtWaits sys x vs :=
  ⟨fun w hw => h.wait w (hsub.subset hw), h.nodup.sublist (hsub.map _)⟩

omit [DecidableEq T] in
/-- What leaves the waiters' actions alone leaves them at their waits. -/
theorem AtWaits.congr {x y : β} (h : AtWaits sys x ws)
    (heq : ∀ w ∈ ws, sys.action w.thread y = sys.action w.thread x) : AtWaits sys y ws := by
  refine ⟨fun w hw => ?_, h.nodup⟩
  rw [heq w hw]
  exact h.wait w hw

omit [DecidableEq T] in
/-- One waiter less, and that one woken: its wait ends, and the others are at theirs. -/
theorem AtWaits.wake (hown : IsOwn sys) {before after : List (Waiter T)}
    (h : AtWaits sys c.rest (before ++ w :: after)) (hw : w.isSatisfied c.bits) :
    Wakes sys c (wake sys c w) ∧ AtWaits sys (wake sys c w).rest (before ++ after) := by
  obtain ⟨k, hk⟩ := h.wait w (by simp)
  have hwake : EventFlag.wake sys c w = ⟨c.bits, k c.bits c.rest⟩ := by rw [EventFlag.wake, hk]
  have hnodup : w.thread ∉ (before ++ after).map Waiter.thread := by
    have hn := h.nodup
    rw [List.map_append, List.map_cons, List.nodup_middle] at hn
    rw [List.map_append]
    exact (List.nodup_cons.mp hn).1
  rw [hwake]
  refine ⟨.wait hk hw, (h.sublist ?_).congr fun v hv => hown.thread hk c.bits _ ?_⟩
  · exact (List.sublist_cons_self w after).append_left before
  · rintro heq
    exact hnodup (heq ▸ List.mem_map_of_mem hv)

omit [DecidableEq T] in
/-- The bits of a woken thread's state are the bits. -/
@[simp]
theorem wake_bits (sys : System T β ι) (c : Core β) (w : Waiter T) :
    (wake sys c w).bits = c.bits := by
  unfold wake
  split <;> rfl

/-- A setter's way through the list is at most one wake. -/
theorem AtWaits.visit (hown : IsOwn sys) (c : Core β) (walk : T → Option (Option T)) (t : T)
    (passed ws : List (Waiter T)) (h : AtWaits sys c.rest (passed ++ ws)) :
    Relation.ReflTransGen (Wakes sys) c (visit sys c walk t passed ws).toCore ∧
      AtWaits sys (visit sys c walk t passed ws).rest (visit sys c walk t passed ws).waiters := by
  obtain ⟨-, heq⟩ | ⟨before, w, after, rfl, hw, -, heq⟩ := visit_cases sys c walk t passed ws
  · rw [heq]
    exact ⟨.refl, h⟩
  · rw [← List.append_assoc] at h
    obtain ⟨hwakes, hat⟩ := h.wake hown hw
    rw [heq]
    exact ⟨.single hwakes, List.append_assoc passed before after ▸ hat⟩

omit [DecidableEq T] in
/-- An interrupt's way through the list is some wakes. -/
theorem AtWaits.visitAll (hown : IsOwn sys) (c : Core β) (walk : T → Option (Option T))
    (passed ws : List (Waiter T)) (h : AtWaits sys c.rest (passed ++ ws)) :
    Relation.ReflTransGen (Wakes sys) c (visitAll sys c walk passed ws).toCore ∧
      AtWaits sys (visitAll sys c walk passed ws).rest
        (visitAll sys c walk passed ws).waiters := by
  induction ws generalizing c passed with
  | nil => exact ⟨.refl, List.append_nil passed ▸ h⟩
  | cons w ws ih =>
    by_cases hw : w.isSatisfied c.bits
    · obtain ⟨hwakes, hat⟩ := h.wake hown hw
      obtain ⟨hrest, hafter⟩ := ih _ _ hat
      have heq : EventFlag.visitAll sys c walk passed (w :: ws) =
          EventFlag.visitAll sys (EventFlag.wake sys c w) walk passed ws := by
        rw [EventFlag.visitAll, if_pos hw]
      rw [heq]
      exact ⟨.head hwakes hrest, hafter⟩
    · have heq : EventFlag.visitAll sys c walk passed (w :: ws) =
          EventFlag.visitAll sys c walk (passed ++ [w]) ws := by
        rw [EventFlag.visitAll, if_neg hw]
      rw [heq]
      exact ih _ _ (by rwa [List.append_assoc, List.singleton_append])

/-- Where a place splits the list. -/
theorem takeWhile_append_place (s : State T β) (x : T) :
    s.waiters.takeWhile (·.thread ≠ x) ++ s.waiters.dropWhile (·.thread ≠ x) = s.waiters :=
  List.takeWhile_append_dropWhile

/-- **Refinement.** A step of the kernel's machine is a move at most, and then some wakes; the
waiters stay at their waits. -/
theorem step_core (hown : IsOwn sys) (h : AtWaits sys s.rest s.waiters)
    (hstep : step sys s l = some s') :
    (∃ c, (c = s.toCore ∨ Moves sys s.toCore l c) ∧
      Relation.ReflTransGen (Wakes sys) c s'.toCore) ∧ AtWaits sys s'.rest s'.waiters := by
  cases l with
  -- the bits are added, and those whom they satisfy wake
  | event i =>
    obtain ⟨⟨rest, b⟩, hevent, rfl⟩ := Option.map_eq_some_iff.mp hstep
    have hat : AtWaits sys rest s.waiters :=
      ⟨fun w hw => (h.wait w hw).imp fun k hk => hown.event hevent hk, h.nodup⟩
    have hmove : Moves sys s.toCore (.event i) ⟨s.bits ||| b, rest⟩ := .event hevent
    dsimp only
    split
    · rename_i hb
      obtain rfl : b = 0 := hb
      have hbits : s.bits ||| 0 = s.bits := BitVec.or_zero
      rw [hbits] at hmove
      exact ⟨⟨_, .inr hmove, .refl⟩, hat⟩
    · have hvisit := AtWaits.visitAll hown ⟨s.bits ||| b, rest⟩ s.walk [] s.waiters hat
      exact ⟨⟨_, .inr hmove, hvisit.1⟩, hvisit.2⟩
  | thread t =>
    simp only [step] at hstep
    split at hstep
    · exact absurd hstep (by simp)
    · rename_i hany
      have hfree : ∀ w ∈ s.waiters, w.thread ≠ t := by simpa using hany
      split at hstep
      -- the walk is at its end, or visits the next waiter
      · obtain rfl := Option.some.inj hstep
        exact ⟨⟨_, .inl rfl, .refl⟩, h⟩
      · rename_i x hwalk
        split at hstep
        · obtain rfl := Option.some.inj hstep
          have hvisit := AtWaits.visit hown s.toCore s.walk t _ _
            ((takeWhile_append_place s x).symm ▸ h)
          exact ⟨⟨_, .inl rfl, hvisit.1⟩, hvisit.2⟩
        · exact absurd hstep (by simp)
      -- a thread that is free to act: only what it waits for puts it among the waiters
      · obtain ⟨a, ha, rfl⟩ := Option.map_eq_some_iff.mp hstep
        cases a with
        | set b k =>
          have hvisit := AtWaits.visit hown ⟨s.bits ||| b, k s.rest⟩ s.walk t [] s.waiters
            (h.congr fun w hw => hown.thread ha 0 _ (hfree w hw))
          exact ⟨⟨_, .inr (.set ha), hvisit.1⟩, hvisit.2⟩
        | clear keep k =>
          exact ⟨⟨_, .inr (.clear ha), .refl⟩, h.congr fun w hw => hown.thread ha 0 _ (hfree w hw)⟩
        | act k =>
          exact ⟨⟨_, .inr (.act ha), .refl⟩, h.congr fun w hw => hown.thread ha 0 _ (hfree w hw)⟩
        | wait wanted any k =>
          dsimp only
          split
          · rename_i hbits
            exact ⟨⟨_, .inl rfl, .single (.wait ha hbits)⟩,
              h.congr fun w hw => hown.thread ha s.bits _ (hfree w hw)⟩
          · refine ⟨⟨_, .inl rfl, .refl⟩, fun w hw => ?_, ?_⟩
            · rcases List.mem_append.mp hw with hw | hw
              · exact h.wait w hw
              · obtain rfl := List.mem_singleton.mp hw
                exact ⟨k, ha⟩
            · rw [List.map_append]
              refine h.nodup.append (List.nodup_singleton t) ?_
              simpa using hfree

/-! ### What a step leaves alone -/

/-- What one setter leaves of the list, and of the places of the others. -/
theorem visit_frame (sys : System T β ι) (c : Core β) (walk : T → Option (Option T)) (t : T)
    (passed ws : List (Waiter T)) :
    (∀ w ∈ (visit sys c walk t passed ws).waiters, w ∈ passed ++ ws) ∧
      ∀ u ≠ t, (visit sys c walk t passed ws).walk u = walk u := by
  obtain ⟨-, heq⟩ | ⟨before, w, after, rfl, -, -, heq⟩ := visit_cases sys c walk t passed ws
  · rw [heq]
    exact ⟨fun w hw => hw, fun u hu => Function.update_of_ne hu _ _⟩
  · rw [heq]
    refine ⟨fun v hv => ?_, fun u hu => Function.update_of_ne hu _ _⟩
    simp only [List.mem_append, List.mem_cons] at hv ⊢
    rcases hv with hv | hv | hv
    · exact .inl hv
    · exact .inr (.inl hv)
    · exact .inr (.inr (.inr hv))

omit [DecidableEq T] in
/-- An interrupt leaves those who are not satisfied. -/
theorem visitAll_waiters (sys : System T β ι) (c : Core β) (walk : T → Option (Option T))
    (passed ws : List (Waiter T)) :
    (visitAll sys c walk passed ws).waiters =
        passed ++ ws.filter (fun w => !w.isSatisfied c.bits) ∧
      (visitAll sys c walk passed ws).walk = walk ∧
      (visitAll sys c walk passed ws).bits = c.bits := by
  induction ws generalizing c passed with
  | nil => exact ⟨(List.append_nil passed).symm, rfl, rfl⟩
  | cons w ws ih =>
    by_cases hw : w.isSatisfied c.bits
    · have heq : visitAll sys c walk passed (w :: ws) =
          visitAll sys (wake sys c w) walk passed ws := by rw [visitAll, if_pos hw]
      obtain ⟨hwaiters, hwalk, hbits⟩ := ih (wake sys c w) passed
      rw [wake_bits] at hwaiters hbits
      rw [heq, List.filter_cons_of_neg (by simp [hw])]
      exact ⟨hwaiters, hwalk, hbits⟩
    · have heq : visitAll sys c walk passed (w :: ws) =
          visitAll sys c walk (passed ++ [w]) ws := by rw [visitAll, if_neg hw]
      obtain ⟨hwaiters, hwalk, hbits⟩ := ih c (passed ++ [w])
      rw [heq, List.filter_cons_of_pos (by simp [hw])]
      exact ⟨by rw [hwaiters, List.append_assoc, List.singleton_append], hwalk, hbits⟩

/-- Who waits after a step waited before, or has just begun to; who goes through the list after a
step did so before, or has just begun to. -/
theorem step_frame (hstep : step sys s l = some s') :
    (∀ w ∈ s'.waiters, w ∈ s.waiters ∨
      l = .thread w.thread ∧ s.walk w.thread = none ∧ s'.walk = s.walk) ∧
    (∀ u, s'.walk u ≠ none → s.walk u ≠ none ∨ l = .thread u) ∧
    (∀ t, l = .thread t → ∀ w ∈ s.waiters, w.thread ≠ t) := by
  cases l with
  -- an event adds bits, and visits all the waiters
  | event i =>
    obtain ⟨⟨rest, b⟩, -, rfl⟩ := Option.map_eq_some_iff.mp hstep
    refine ⟨?_, ?_, nofun⟩
    all_goals dsimp only; split
    · exact fun w hw => .inl hw
    · rw [(visitAll_waiters _ _ _ _ _).1, List.nil_append]
      exact fun w hw => .inl (List.mem_filter.mp hw).1
    · exact fun u hu => .inl hu
    · rw [(visitAll_waiters _ _ _ _ _).2.1]
      exact fun u hu => .inl hu
  | thread t =>
    -- a thread that waits takes no step; one on a walk visits one waiter more; and one that is free
    -- acts
    have hvisited : ∀ c passed ws, passed ++ ws = s.waiters →
        (∀ w ∈ (visit sys c s.walk t passed ws).waiters, w ∈ s.waiters ∨
          (Label.thread t : Label T ι) = .thread w.thread ∧ s.walk w.thread = none ∧
            (visit sys c s.walk t passed ws).walk = s.walk) ∧
        ∀ u, (visit sys c s.walk t passed ws).walk u ≠ none → s.walk u ≠ none ∨
          (Label.thread t : Label T ι) = .thread u := by
      intro c passed ws heq
      obtain ⟨hsub, hwalk⟩ := visit_frame sys c s.walk t passed ws
      refine ⟨fun w hw => .inl (heq ▸ hsub w hw), fun u hu => ?_⟩
      by_cases hut : u = t
      · exact .inr (hut ▸ rfl)
      · exact .inl (hwalk u hut ▸ hu)
    simp only [step] at hstep
    split at hstep
    · exact absurd hstep nofun
    · rename_i hany
      have hfree : ∀ w ∈ s.waiters, w.thread ≠ t := by simpa using hany
      refine and_assoc.mp ⟨?_, fun u hu => (Label.thread.inj hu) ▸ hfree⟩
      split at hstep
      · obtain rfl := Option.some.inj hstep
        refine ⟨fun w hw => .inl hw, fun u hu => ?_⟩
        by_cases hut : u = t
        · exact .inr (hut ▸ rfl)
        · exact .inl (Function.update_of_ne hut none s.walk ▸ hu)
      · split at hstep
        · obtain rfl := Option.some.inj hstep
          exact hvisited _ _ _ (takeWhile_append_place s _)
        · exact absurd hstep nofun
      · rename_i hwalk
        obtain ⟨a, -, rfl⟩ := Option.map_eq_some_iff.mp hstep
        cases a with
        | set b k => exact hvisited _ _ _ rfl
        | clear keep k => exact ⟨fun w hw => .inl hw, fun u hu => .inl hu⟩
        | act k => exact ⟨fun w hw => .inl hw, fun u hu => .inl hu⟩
        | wait wanted any k =>
          dsimp only
          split
          · exact ⟨fun w hw => .inl hw, fun u hu => .inl hu⟩
          · refine ⟨fun w hw => ?_, fun u hu => .inl hu⟩
            rcases List.mem_append.mp hw with hw | hw
            · exact .inl hw
            · obtain rfl := List.mem_singleton.mp hw
              exact .inr ⟨rfl, hwalk, rfl⟩

section Keeps

variable {P : β → Prop} {u : T}

omit [DecidableEq T] in
/-- What the other threads keep is kept when one of them is woken. -/
theorem wake_keeps (hthread : ∀ {t a x}, t ≠ u → sys.action t x = some a → P x → ∀ bits,
    P (a.after bits x)) (hw : w.thread ≠ u) (h : P c.rest) : P (wake sys c w).rest := by
  rw [wake]
  split
  · rename_i hk
    exact hthread hw hk h c.bits
  · exact h

/-- What the other threads keep is kept along a walk. -/
theorem visit_keeps (hthread : ∀ {t a x}, t ≠ u → sys.action t x = some a → P x → ∀ bits,
    P (a.after bits x)) (hws : ∀ w ∈ ws, w.thread ≠ u) (h : P c.rest) :
    P (visit sys c walk t passed ws).rest := by
  obtain ⟨-, heq⟩ | ⟨before, w, after, rfl, -, -, heq⟩ := visit_cases sys c walk t passed ws
  · rw [heq]
    exact h
  · rw [heq]
    exact wake_keeps hthread (hws w (by simp)) h

omit [DecidableEq T] in
/-- What the other threads keep is kept by the whole walk. -/
theorem visitAll_keeps (hthread : ∀ {t a x}, t ≠ u → sys.action t x = some a → P x → ∀ bits,
    P (a.after bits x)) (hws : ∀ w ∈ ws, w.thread ≠ u) (h : P c.rest) :
    P (visitAll sys c walk passed ws).rest := by
  induction ws generalizing c passed with
  | nil => exact h
  | cons w ws ih =>
    obtain ⟨hw, hws⟩ := List.forall_mem_cons.mp hws
    rw [visitAll]
    split
    · exact ih hws (wake_keeps hthread hw h)
    · exact ih hws h

/-- What nobody but `u` changes is as it was while `u` neither waits nor moves. -/
theorem step_keeps (hthread : ∀ {t a x}, t ≠ u → sys.action t x = some a → P x → ∀ bits,
    P (a.after bits x)) (hevent : ∀ {i x r}, l = .event i → sys.event i x = some r → P x → P r.1)
    (hstep : step sys s l = some s') (hfree : ∀ w ∈ s.waiters, w.thread ≠ u)
    (hu : l ≠ .thread u ∨ s.walk u ≠ none) (h : P s.rest) : P s'.rest := by
  cases l with
  | event i =>
    obtain ⟨⟨rest, b⟩, hr, rfl⟩ := Option.map_eq_some_iff.mp hstep
    dsimp only
    split
    · exact hevent rfl hr h
    · exact visitAll_keeps hthread hfree (hevent rfl hr h)
  | thread t =>
    simp only [step] at hstep
    split at hstep
    · exact absurd hstep nofun
    · split at hstep
      · obtain rfl := Option.some.inj hstep
        exact h
      · split at hstep
        · obtain rfl := Option.some.inj hstep
          exact visit_keeps hthread (fun w hw => hfree w ((List.dropWhile_sublist _).subset hw)) h
        · exact absurd hstep nofun
      · rename_i hwalk
        have htu : t ≠ u := by
          rintro rfl
          exact hu.elim (fun hne => hne rfl) fun hne => hne hwalk
        obtain ⟨a, ha, rfl⟩ := Option.map_eq_some_iff.mp hstep
        cases a with
        | set b k => exact visit_keeps hthread hfree (hthread htu ha h 0)
        | clear keep k => exact hthread htu ha h 0
        | act k => exact hthread htu ha h 0
        | wait wanted any k =>
          dsimp only
          split
          · exact hthread htu ha h s.bits
          · exact h

/-- What a setter leaves and nobody else changes is there after its step. -/
theorem set_keeps (hthread : ∀ {t a x}, t ≠ u → sys.action t x = some a → P x → ∀ bits,
    P (a.after bits x)) (hstep : step sys s (.thread u) = some s') (hwalk : s.walk u = none)
    {b : BitVec 32} {k : β → β} (hset : sys.action u s.rest = some (.set b k))
    (h : P (k s.rest)) : P s'.rest := by
  have hfree := (step_frame hstep).2.2 u rfl
  have hany : ¬s.waiters.any (·.thread = u) := by simpa using hfree
  simp only [step, if_neg hany, hwalk, hset, Option.map_some, Option.some.injEq] at hstep
  subst hstep
  exact visit_keeps hthread hfree h

end Keeps

/-! ### No waiter is left behind -/

/-- Nobody waits for what is there. -/
def IsQuiet (s : State T β) : Prop := ∀ w ∈ s.waiters, w.isSatisfied s.bits = false

/-- Setters go on from waiters. -/
def IsPlaced (s : State T β) : Prop :=
  ∀ t x, s.walk t = some (some x) → ∃ w ∈ s.waiters, w.thread = x

/-- A wait that ends with bits that were set waited for one of them. -/
theorem satisfied_or {bits b wanted : BitVec 32} {any : Bool}
    (h : satisfied bits wanted any = false) (hor : satisfied (bits ||| b) wanted any) :
    wanted &&& b ≠ 0 := by
  intro hzero
  have hsame : (bits ||| b) &&& wanted = bits &&& wanted := by
    have hswap : b &&& wanted = 0 := by rw [BitVec.and_comm, hzero]
    simp [BitVec.and_or_distrib_right, hswap]
  rw [satisfied, hsame] at hor
  exact absurd (h.symm.trans hor) Bool.false_ne_true

/-- A wait that did not end does not end with fewer bits. -/
theorem satisfied_and {bits keep wanted : BitVec 32} {any : Bool}
    (h : satisfied bits wanted any = false) : satisfied (bits &&& keep) wanted any = false := by
  have hle : (bits &&& keep) &&& wanted = (bits &&& wanted) &&& keep := by
    rw [BitVec.and_assoc, BitVec.and_comm keep, BitVec.and_assoc]
  cases any with
  | true =>
    have hzero : bits &&& wanted = 0 := by simpa [satisfied] using h
    simp [satisfied, hle, hzero]
  | false =>
    have hne : bits &&& wanted ≠ wanted := by simpa [satisfied] using h
    have hnot : (bits &&& keep) &&& wanted ≠ wanted := by
      intro heq
      refine hne ?_
      have hboth : (bits &&& wanted) &&& wanted = wanted := by
        calc (bits &&& wanted) &&& wanted = (bits &&& wanted) &&& ((bits &&& keep) &&& wanted) := by
              rw [heq]
          _ = (bits &&& keep) &&& wanted := by
              ext i hi
              simp only [BitVec.getElem_and]
              cases bits[i] <;> cases wanted[i] <;> cases keep[i] <;> rfl
          _ = wanted := heq
      rwa [BitVec.and_assoc, BitVec.and_self] at hboth
    simpa [satisfied] using hnot

/-- The waiters are at their waits, none of them satisfied, and setters go on from waiters. -/
structure IsCalm (sys : System T β ι) (s : State T β) : Prop where
  atWaits : AtWaits sys s.rest s.waiters
  quiet : IsQuiet s
  placed : IsPlaced s

/-- What is asked of a step: who sets bits wakes one waiter at most, and nobody else goes on from
a waiter that is woken. -/
structure WakesOne (sys : System T β ι) (s : State T β) (l : Label T ι) : Prop where
  one : ∀ {t b k}, l = .thread t → sys.action t s.rest = some (.set b k) → ∀ w ∈ s.waiters,
    w.wanted &&& b ≠ 0 → ∀ v ∈ s.waiters, v.wanted &&& b ≠ 0 → v = w
  place : ∀ {t b k}, l = .thread t → sys.action t s.rest = some (.set b k) → ∀ w ∈ s.waiters,
    w.wanted &&& b ≠ 0 → ∀ u ≠ t, s.walk u ≠ some (some w.thread)
  event : ∀ {i r}, l = .event i → sys.event i s.rest = some r → ∀ w ∈ s.waiters,
    w.wanted &&& r.2 ≠ 0 → ∀ u, s.walk u ≠ some (some w.thread)

/-- Where a setter stands after a step: where it stood, or behind a waiter it has just woken. -/
def Stands (sys : System T β ι) (s : State T β) (l : Label T ι) (u x : T) : Prop :=
  s.walk u = some (some x) ∨
    l = .thread u ∧ s.walk u = none ∧ (∃ w ∈ s.waiters, w.thread = x) ∧
      ∃ b k, sys.action u s.rest = some (.set b k) ∧
        ∃ v ∈ s.waiters, v.thread ≠ x ∧ v.wanted &&& b ≠ 0

/-- A setter that wakes one waiter at most leaves the machine calm. -/
theorem IsCalm.set (hown : IsOwn sys) (h : IsCalm sys s) {b : BitVec 32} {k : β → β}
    (hset : sys.action t s.rest = some (.set b k)) (hone : WakesOne sys s (.thread t))
    (hfree : ∀ w ∈ s.waiters, w.thread ≠ t) (hnone : s.walk t = none) :
    IsCalm sys (visit sys ⟨s.bits ||| b, k s.rest⟩ s.walk t [] s.waiters) ∧
      ∀ u x, (visit sys ⟨s.bits ||| b, k s.rest⟩ s.walk t [] s.waiters).walk u = some (some x) →
        Stands sys s (.thread t) u x := by
  have hat : AtWaits sys (k s.rest) s.waiters :=
    h.atWaits.congr fun w hw => hown.thread hset 0 _ (hfree w hw)
  have hvisit := AtWaits.visit hown ⟨s.bits ||| b, k s.rest⟩ s.walk t [] s.waiters hat
  obtain ⟨hall, heq⟩ | ⟨before, w, after, hsplit, hw, hbefore, heq⟩ :=
    visit_cases sys ⟨s.bits ||| b, k s.rest⟩ s.walk t [] s.waiters
  · rw [heq] at hvisit ⊢
    have hwalk : ∀ u x, Function.update s.walk t none u = some (some x) →
        s.walk u = some (some x) := by
      intro u x hu
      by_cases hut : u = t
      · rw [hut, Function.update_self] at hu
        exact absurd hu (by simp)
      · rwa [Function.update_of_ne hut] at hu
    exact ⟨⟨hvisit.2, hall, fun u x hu => h.placed u x (hwalk u x hu)⟩,
      fun u x hu => .inl (hwalk u x hu)⟩
  · rw [heq] at hvisit ⊢
    have hmem : w ∈ s.waiters := hsplit ▸ by simp
    have hwanted : w.wanted &&& b ≠ 0 := satisfied_or (h.quiet w hmem) hw
    have hnodup : ∀ v ∈ before ++ after, v.thread ≠ w.thread := by
      have hn := h.atWaits.nodup
      rw [hsplit, List.map_append, List.map_cons, List.nodup_middle, ← List.map_append] at hn
      exact fun v hv heq => (List.nodup_cons.mp hn).1 (heq ▸ List.mem_map_of_mem hv)
    have hsub : ∀ v ∈ before ++ after, v ∈ s.waiters := by
      intro v hv
      rw [hsplit]
      rcases List.mem_append.mp hv with hv | hv
      · exact List.mem_append_left _ hv
      · exact List.mem_append_right _ (.tail _ hv)
    have hwalk : ∀ u x, Function.update s.walk t (some (after.head?.map Waiter.thread)) u =
        some (some x) → u ≠ t ∧ s.walk u = some (some x) ∨ u = t ∧ ∃ v ∈ after, v.thread = x := by
      intro u x hu
      by_cases hut : u = t
      · rw [hut, Function.update_self] at hu
        obtain ⟨v, hv, rfl⟩ := Option.map_eq_some_iff.mp (Option.some.inj hu)
        exact .inr ⟨hut, v, List.mem_of_head? hv, rfl⟩
      · rw [Function.update_of_ne hut] at hu
        exact .inl ⟨hut, hu⟩
    refine ⟨⟨hvisit.2, fun v hv => ?_, fun u x hu => ?_⟩, fun u x hu => ?_⟩
    · -- only the woken waiter waited for what was set
      by_contra hsat
      rw [Bool.not_eq_false, Waiter.isSatisfied] at hsat
      dsimp only at hsat
      rw [wake_bits] at hsat
      have hv' := hsub v hv
      have heq := hone.one rfl hset w hmem hwanted v hv' (satisfied_or (h.quiet v hv') hsat)
      exact hnodup v hv (congrArg Waiter.thread heq)
    · rcases hwalk u x hu with ⟨hut, hold⟩ | ⟨-, v, hv, rfl⟩
      · obtain ⟨v, hv, rfl⟩ := h.placed u x hold
        rw [hsplit] at hv
        simp only [List.mem_append, List.mem_cons] at hv ⊢
        rcases hv with hv | rfl | hv
        · exact ⟨v, .inr (.inl hv), rfl⟩
        · exact absurd hold (hone.place rfl hset v hmem hwanted u hut)
        · exact ⟨v, .inr (.inr hv), rfl⟩
      · exact ⟨v, List.mem_append_right _ (List.mem_append_right _ hv), rfl⟩
    · rcases hwalk u x hu with ⟨-, hold⟩ | ⟨rfl, v, hv, rfl⟩
      · exact .inl hold
      · have hafter : v ∈ before ++ after := List.mem_append_right _ hv
        exact .inr ⟨rfl, hnone, ⟨v, hsub v hafter, rfl⟩, b, k, hset, w, hmem,
          (hnodup v hafter).symm, hwanted⟩

/-- **No waiter is left behind**: a step that wakes one waiter at most leaves the machine calm. -/
theorem IsCalm.step (hown : IsOwn sys) (h : IsCalm sys s) (hone : WakesOne sys s l)
    (hstep : step sys s l = some s') :
    IsCalm sys s' ∧ ∀ u x, s'.walk u = some (some x) → Stands sys s l u x := by
  have hat := (step_core hown h.atWaits hstep).2
  cases l with
  | event i =>
    obtain ⟨⟨rest, b⟩, hevent, rfl⟩ := Option.map_eq_some_iff.mp hstep
    dsimp only at hat ⊢
    split
    · rename_i hb
      rw [if_pos hb] at hat
      exact ⟨⟨hat, h.quiet, h.placed⟩, fun u x hu => .inl hu⟩
    · rename_i hb
      rw [if_neg hb] at hat
      obtain ⟨hwaiters, hwalk, hbits⟩ :=
        visitAll_waiters sys ⟨s.bits ||| b, rest⟩ s.walk [] s.waiters
      rw [List.nil_append] at hwaiters
      refine ⟨⟨hat, fun w hw => ?_, fun u x hu => ?_⟩, fun u x hu => .inl (hwalk ▸ hu)⟩
      · rw [hwaiters] at hw
        rw [hbits]
        simpa using (List.mem_filter.mp hw).2
      · rw [hwalk] at hu
        obtain ⟨v, hv, rfl⟩ := h.placed u x hu
        refine ⟨v, ?_, rfl⟩
        rw [hwaiters]
        refine List.mem_filter.mpr ⟨hv, ?_⟩
        -- who is woken is nobody's place
        by_contra hsat
        have hsat' : v.isSatisfied (s.bits ||| b) := by simpa using hsat
        exact hone.event rfl hevent v hv (satisfied_or (h.quiet v hv) hsat') u hu
  | thread t =>
    simp only [EventFlag.step] at hstep
    split at hstep
    · exact absurd hstep (by simp)
    · rename_i hany
      have hfree : ∀ w ∈ s.waiters, w.thread ≠ t := by simpa using hany
      have hreturn : IsCalm sys { s with walk := Function.update s.walk t none } ∧
          ∀ u x, Function.update s.walk t none u = some (some x) →
            Stands sys s (.thread t) u x := by
        have hwalk : ∀ u x, Function.update s.walk t none u = some (some x) →
            s.walk u = some (some x) := by
          intro u x hu
          by_cases hut : u = t
          · rw [hut, Function.update_self] at hu
            exact absurd hu (by simp)
          · rwa [Function.update_of_ne hut] at hu
        exact ⟨⟨h.atWaits, h.quiet, fun u x hu => h.placed u x (hwalk u x hu)⟩,
          fun u x hu => .inl (hwalk u x hu)⟩
      split at hstep
      · obtain rfl := Option.some.inj hstep
        exact hreturn
      · rename_i x hwalk
        split at hstep
        · obtain rfl := Option.some.inj hstep
          -- a waiter that is not satisfied is passed over
          obtain ⟨-, heq⟩ | ⟨before, w, after, hsplit, hw, -, -⟩ :=
            visit_cases sys s.toCore s.walk t (s.waiters.takeWhile (·.thread ≠ x))
              (s.waiters.dropWhile (·.thread ≠ x))
          · rw [heq, takeWhile_append_place]
            exact hreturn
          · have hmem : w ∈ s.waiters :=
              (List.dropWhile_sublist _).subset (hsplit ▸ List.mem_append_right _ (.head _))
            exact absurd (h.quiet w hmem) (by rw [hw]; exact Bool.noConfusion)
        · exact absurd hstep (by simp)
      · rename_i hnone
        obtain ⟨a, ha, rfl⟩ := Option.map_eq_some_iff.mp hstep
        cases a with
        | set b k => exact h.set hown ha hone hfree hnone
        | clear keep k =>
          exact ⟨⟨hat, fun w hw => satisfied_and (h.quiet w hw), h.placed⟩, fun u x hu => .inl hu⟩
        | act k => exact ⟨⟨hat, h.quiet, h.placed⟩, fun u x hu => .inl hu⟩
        | wait wanted any k =>
          dsimp only at hat ⊢
          split
          · rename_i hbits
            rw [if_pos hbits] at hat
            exact ⟨⟨hat, h.quiet, h.placed⟩, fun u x hu => .inl hu⟩
          · rename_i hbits
            rw [if_neg hbits] at hat
            refine ⟨⟨hat, fun w hw => ?_, fun u x hu => ?_⟩, fun u x hu => .inl hu⟩
            · rcases List.mem_append.mp hw with hw | hw
              · exact h.quiet w hw
              · obtain rfl := List.mem_singleton.mp hw
                exact Bool.eq_false_iff.mpr hbits
            · obtain ⟨v, hv, rfl⟩ := h.placed u x hu
              exact ⟨v, List.mem_append_left _ hv, rfl⟩

/-- In a calm machine a thread that can go on does, and a setter goes through the list to its
end. -/
theorem IsCalm.exists_step (h : IsCalm sys s)
    (ht : s.walk t ≠ none ∨ (sys.action t s.rest).isSome)
    (hfree : ∀ w ∈ s.waiters, w.thread ≠ t) : ∃ s', EventFlag.step sys s (.thread t) = some s' := by
  have hany : ¬s.waiters.any (·.thread = t) := by simpa using hfree
  simp only [EventFlag.step, if_neg hany]
  split
  · exact ⟨_, rfl⟩
  · rename_i x hwalk
    obtain ⟨w, hw, hx⟩ := h.placed t x hwalk
    have hplace : s.waiters.any (·.thread = x) := List.any_eq_true.mpr ⟨w, hw, by simpa using hx⟩
    rw [if_pos hplace]
    exact ⟨_, rfl⟩
  · rename_i hwalk
    obtain ⟨a, ha⟩ := Option.isSome_iff_exists.mp (ht.resolve_left (not_not_intro hwalk))
    rw [ha]
    exact ⟨_, rfl⟩

omit [DecidableEq T] in
/-- In a calm machine a thread whose wait is over is no waiter. -/
theorem IsCalm.free_of_satisfied (h : IsCalm sys s)
    (ht : ∀ wanted any k, sys.action t s.rest = some (.wait wanted any k) →
      satisfied s.bits wanted any) : ∀ w ∈ s.waiters, w.thread ≠ t := by
  rintro w hw rfl
  obtain ⟨k, hk⟩ := h.atWaits.wait w hw
  exact absurd (h.quiet w hw) (by rw [Waiter.isSatisfied, ht _ _ _ hk]; exact Bool.noConfusion)

end EventFlag

end PS2Bios
