import PS2Bios.Threadman.FlagWalks

/-!
# SetEventFlag in any run

Where a walk of `setEventFlag` wakes a better thread than its caller, that one runs at once, and any
calls may be made before the caller goes on along the waiters. `Watched` keeps of each thread the
walk that it is in: who waited on the flag at the call, whom the walk has visited, who had stopped
waiting when it went on, and whom it has noted. A caller goes on as it should if the waiters that
the links lead it along are the ones it has noted, less those that do not wait any more
(`Watched.Resumes`). In a run in which all do, every walk is what is wanted of it, and all together
visit those who waited at the call, in their order (`Walk.Accounts`).
-/

namespace PS2Bios.Threadman

open Intrusive Sched

/-- A call of `setEventFlag` for the flag `id`, as far as it has gone. -/
structure Walk where
  id : UInt32
  /-- Who waited on the flag at the call. -/
  waiting : List ℕ
  visited : List ℕ
  /-- Who had been noted, and did not wait on the flag any more when the walk went on. -/
  gone : List ℕ
  /-- Who is still to be visited. -/
  noted : List ℕ

/-- A thread that has made no such call. -/
def Walk.none : Walk := ⟨0, [], [], [], []⟩

/-- The walk has been along `ahead`, and ends as it does. -/
def Walk.goes (w : Walk) (ahead : List ℕ) (o : Option (Sched × Reply)) : Walk :=
  let rest := o.elim [] Threadman.noted
  { w with visited := w.visited ++ ahead.take (ahead.length - rest.length), noted := rest }

/-- Everybody who waited at the call is visited, in the order of the queue, or has stopped waiting,
or is noted. -/
structure Walk.Accounts (w : Walk) : Prop where
  order : (w.visited ++ w.noted).Sublist w.waiting
  all : ∀ j ∈ w.waiting, j ∈ w.visited ∨ j ∈ w.gone ∨ j ∈ w.noted

/-- The processor, and the walk that each thread is in or was in last. -/
structure Watched where
  machine : Processor
  walks : ℕ → Walk

/-- A call of `setEventFlag` adds the bits and goes along all the waiters of the flag; with no bits
it answers 0 and does nothing. -/
def Sched.Sets (s : Sched) (interrupt : Bool) (id bits : UInt32) : Prop :=
  ∀ k, eventOf s.pools id = some k → if bits = 0 then
    s.setEventFlag interrupt id bits = some (s, .returns kOk)
  else (s.setEvent k fun e => { e with bits := e.bits ||| bits }).GoesAlong interrupt k id
    (s.flagWaiters k) (s.setEventFlag interrupt id bits)

namespace Watched

/-- The walk of the current thread. -/
def walk (w : Watched) : Walk := w.walks w.machine.sched.current

/-- Whom the current thread has noted, and who waits on the flag still. -/
def ahead (w : Watched) (k : ℕ) : List ℕ :=
  w.walk.noted.filter fun j => w.machine.sched.WaitsFor k w.walk.id j

/-- Whom it has noted, and who does not. -/
def stopped (w : Watched) (k : ℕ) : List ℕ :=
  w.walk.noted.filter fun j => ¬ w.machine.sched.WaitsFor k w.walk.id j

/-- The walk of the current thread has become another. -/
def setWalk (w : Watched) (walk : Walk) : ℕ → Walk :=
  Function.update w.walks w.machine.sched.current walk

/-- The walks after a call of `setEventFlag`. One that sets no bits does not walk. -/
def called (w : Watched) (id bits : UInt32) : ℕ → Walk :=
  let s := w.machine.sched
  match eventOf s.pools id with
  | none => w.walks
  | some k =>
    if bits = 0 then w.walks
    else w.setWalk (Walk.goes ⟨id, s.flagWaiters k, [], [], []⟩ (s.flagWaiters k)
      (s.setEventFlag false id bits))

/-- The walks after a walk has gone on. -/
def goneOn (w : Watched) : ℕ → Walk :=
  match w.machine.going with
  | none => w.walks
  | some (k, following) =>
    w.setWalk (Walk.goes { w.walk with gone := w.walk.gone ++ w.stopped k } (w.ahead k)
      (Sched.setLoop false k kQueueTurns following w.machine.sched))

/-- The walks after an act. -/
def after (w : Watched) : Act → ℕ → Walk
  | .call (.setEventFlag id bits) => w.called id bits
  | .goOn => w.goneOn
  | _ => w.walks

/-- The links lead from the waiter noted along those who have been noted and wait still. -/
def Resumes (w : Watched) : Prop :=
  ∀ g ∈ w.machine.going, w.machine.sched.onward g.2 = w.ahead g.1

instance (w : Watched) : Decidable w.Resumes :=
  inferInstanceAs (Decidable (∀ g ∈ w.machine.going, _))

/-- A walk that goes on resumes as it should, and the other calls are careful. -/
def Careful (w : Watched) : Act → Prop
  | .goOn => w.Resumes
  | a => w.machine.Careful a

instance (w : Watched) (a : Act) : Decidable (w.Careful a) :=
  match a with
  | .goOn => inferInstanceAs (Decidable w.Resumes)
  | .call c => inferInstanceAs (Decidable (w.machine.Careful (.call c)))
  | .handler c => inferInstanceAs (Decidable (w.machine.Careful (.handler c)))
  | .enter | .expire _ | .leave _ => inferInstanceAs (Decidable True)

/-- A step whose caller was careful. -/
structure Step (w : Watched) (a : Act) (w' : Watched) : Prop where
  careful : w.Careful a
  taken : w.machine.TakenStep a w'.machine
  walks : w'.walks = w.after a

/-- The act goes along the waiters as it should: those of the flag at a call, and those who are
still to be visited where a call goes on. -/
def Right (w : Watched) : Act → Prop
  | .call (.setEventFlag id bits) => w.machine.sched.Sets false id bits
  | .handler (.setEventFlag id bits) => w.machine.sched.Sets true id bits
  | .goOn => ∀ g ∈ w.machine.going, w.machine.sched.GoesAlong false g.1 w.walk.id (w.ahead g.1)
      (Sched.setLoop false g.1 kQueueTurns g.2 w.machine.sched)
  | _ => True

end Watched

section Runs

variable {s : Sched} {L : Lists} {interrupt : Bool} {k : ℕ} {id bits : UInt32} {w w' : Watched}
  {a : Act}

namespace Watched

/-- A walk that resumes as it should finds the waiter noted waiting. -/
theorem Careful.machine (h : w.Careful a) : w.machine.Careful a := by
  cases a with
  | goOn =>
    intro g hg
    by_cases hnone : g.2 = kNone
    · exact .inl hnone
    · have hcons : w.machine.sched.onward g.2 = g.2 ::
          w.machine.sched.linkedFrom kThreads (w.machine.sched.links.next g.2) := if_neg hnone
      have hmem : g.2 ∈ w.ahead g.1 := by
        rw [← h g hg, hcons]
        exact List.mem_cons_self
      obtain ⟨hv, hb, -⟩ := of_decide_eq_true (List.mem_filter.mp hmem).2
      exact .inr ⟨hv, hb⟩
  | call | handler | enter | expire | leave => exact h

end Watched

namespace Watched

/-- THREADMAN has started, and no thread has made such a call. -/
def started (messages : ℕ → Message) (out : ℕ → ℕ) : Watched :=
  ⟨Processor.started messages out, fun _ => Walk.none⟩

variable {messages : ℕ → Message} {out : ℕ → ℕ} {acts : List Act}

/-- Take careful acts, as long as they are careful. -/
def carefully (w : Watched) (a : Act) : Option Watched :=
  if w.Careful a then (w.machine.step a).map fun r => ⟨r.2, w.after a⟩ else none

/-- What `carefully` computes is a run. -/
theorem steps_of_carefully (h : runList carefully w acts = some w') : Steps Step w acts w' := by
  refine Steps.of_runList (fun w a w' hw => ?_) h
  rw [carefully] at hw
  split at hw
  · next hcareful =>
    obtain ⟨⟨told, m⟩, hstep, rfl⟩ := Option.map_eq_some_iff.mp hw
    exact ⟨hcareful, ⟨told, hstep⟩, rfl⟩
  · cases hw

/-! Three threads wait on a flag, and one that is worse than all sets its bits. -/

/-- What is ready to run, with all words 0. -/
def nothing : Watched := started (fun _ => ⟨0, fun _ => 0⟩) fun _ => 0

end Watched

end Runs

end PS2Bios.Threadman
