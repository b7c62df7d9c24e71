import PS2Bios.Library.Run
import PS2Bios.Threadman.Records

/-!
# Runs of THREADMAN

The processor takes its acts in any order: calls of whichever thread is current, and interrupts with
any number of calls of their handlers. A run is *careful* (`Processor.Careful`) when nobody ends the
idle thread or makes calls in its place, no handler ends the thread that is staged or changes its
priority, no thread deletes an object on which a better one waits, and a thread that goes on with
the loop of `setEventFlag` finds the waiter it has noted waiting still. These are the calls that
leave the queues wrong; all others keep them, in any order, and never get stuck.
-/

namespace PS2Bios.Threadman

open Intrusive Sched

/-- The thread that a call ends. -/
def Sched.ends (s : Sched) : Service → Option ℕ
  | .terminateThread id => threadOf s.pools id
  | _ => none

/-- A call that leaves the queues in order. -/
structure Sched.Harmless (s : Sched) (interrupt : Bool) (c : Service) : Prop where
  caller : interrupt = false → s.current ≠ 0
  idle : s.ends c ≠ some 0
  staged : s.aims c = some s.pending → s.Settled
  waiters : interrupt = false → ∀ o ∈ s.deletes c, s.NoBetter (.waiters o.1 o.2)

/-- A call that is harmless in every state: it ends no thread, deletes no object, changes no
priority and sets no flag. -/
def Service.plain : Service → Bool
  | .terminateThread _ | .changeThreadPriority _ _ | .deleteEventFlag _ | .setEventFlag _ _
  | .deleteSema _ | .deleteMbx _ => false
  | _ => true

theorem Service.harmless_of_plain {s : Sched} {interrupt : Bool} {c : Service}
    (h : c.plain = true) (hcaller : interrupt = false → s.current ≠ 0) :
    s.Harmless interrupt c := by
  have hno : s.ends c = none ∧ s.aims c = none ∧ s.deletes c = none := by
    cases c <;> first
      | exact ⟨rfl, rfl, rfl⟩
      | cases h
  obtain ⟨hends, haims, hdeletes⟩ := hno
  exact ⟨hcaller, by simp [hends], by simp [haims], by simp [hdeletes]⟩

/-- The rest of the loop of `setEventFlag` wakes waiters of the flag. -/
def Sched.setting (s : Sched) (event : ℕ) : Permit where
  wakes j answer := s.belongs j (.waiters .event event) ∧ answer = kOk
  joins _ _ _ := False
  remakes _ _ := False

/-- The callback of a delay's alarm wakes the thread that is delayed. -/
def Sched.expiring (s : Sched) (k : ℕ) : Permit where
  wakes j answer := j = k ∧ (s.threads k).waitType = .delay ∧ answer = kOk
  joins _ _ _ := False
  remakes _ _ := False

namespace Processor

/-- When an act can be asked for at all. -/
def Enabled (m : Processor) : Act → Prop
  | .call _ => m.interrupt = false ∧ m.going = none
  | .goOn => m.going ≠ none
  | .enter => m.interrupt = false ∧ m.going = none
  | .handler c => m.interrupt = true ∧ c ≠ .exitThread
  | .expire k => m.interrupt = true ∧ k < kThreads
  | .leave _ => m.interrupt = true

/-- The service a step calls is harmless, and a walk that goes on finds its next waiter in place. -/
def Careful (m : Processor) : Act → Prop
  | .call c => m.sched.Harmless false c
  | .goOn => ∀ g ∈ m.going,
      g.2 = kNone ∨ m.sched.Valid g.2 ∧ m.sched.belongs g.2 (.waiters .event g.1)
  | .handler c => m.sched.Harmless true c
  | _ => True

/-- A step of the processor whose caller was careful. -/
def CarefulStep (m : Processor) (a : Act) (m' : Processor) : Prop :=
  m.Careful a ∧ ∃ told, m.step a = some (told, m')

/-- A step of the processor, whoever calls what. -/
def TakenStep (m : Processor) (a : Act) (m' : Processor) : Prop :=
  ∃ told, m.step a = some (told, m')

/-- A plain call, which the idle thread does not make: its loop makes none. -/
def Plain (m : Processor) : Act → Prop
  | .call c => c.plain = true ∧ m.sched.current ≠ 0
  | .goOn => False
  | .handler c => c.plain = true
  | _ => True

/-- **Plain acts are careful**, in every state. -/
theorem Plain.careful {m : Processor} {a : Act} (h : m.Plain a) : m.Careful a := by
  cases a with
  | call c => exact Service.harmless_of_plain h.1 fun _ => h.2
  | goOn => exact h.elim
  | handler c => exact Service.harmless_of_plain h fun hi => by cases hi
  | enter | expire k | leave v0 => trivial

/-- What holds between two acts. -/
structure Good (m : Processor) (L : Lists) : Prop where
  called : Called m.sched L m.interrupt
  peopled : Peopled m.sched
  going : m.going ≠ none → m.interrupt = false

/-- What an act does to the queues, before the switch that may follow. -/
inductive Does (m : Processor) (L : Lists) : Act → Sched → Lists → Prop
  | call {c : Service} {s' : Sched} {reply : Reply} {L' : Lists}
      (hr : m.sched.perform false c = some (s', reply)) (h : Effect m.sched L false c s' L') :
      Does m L (.call c) s' L'
  | goOn {event following : ℕ} {s' : Sched} {reply : Reply} {L' : Lists}
      (hg : m.going = some (event, following))
      (hr : Sched.setLoop false event kQueueTurns following m.sched = some (s', reply))
      (h : Moves (m.sched.setting event) m.sched L s' L') : Does m L .goOn s' L'
  | enter : Does m L .enter m.sched L
  | handler {c : Service} {s' : Sched} {reply : Reply} {L' : Lists}
      (hr : m.sched.perform true c = some (s', reply)) (h : Effect m.sched L true c s' L') :
      Does m L (.handler c) s' L'
  | expire {k : ℕ} {L' : Lists}
      (h : Moves (m.sched.expiring k) m.sched L (m.sched.delayExpired k) L') :
      Does m L (.expire k) (m.sched.delayExpired k) L'
  | leave {v0 : ℤ} : Does m L (.leave v0) m.sched L

/-- The act is over, or has ended with a switch. -/
def Follows (s : Sched) (m : Processor) : Prop :=
  m.sched = s ∨ ¬ s.Settled ∧ ∃ frame, m.sched = s.newContext frame

end Processor

/-! ### Only `exitThread` ends a thread -/

section Endless
variable {s : Sched} {interrupt : Bool}

theorem andReturn_ne_endless (r : Sched × Bool) (v : ℤ) : (andReturn r v).2 ≠ .traps .endless := by
  rw [andReturn]
  split <;> simp

/-- The walk over a flag's waiters returns. -/
theorem setLoop_ne_endless {k n at_ : ℕ} {r : Sched × Reply}
    (h : Sched.setLoop interrupt k n at_ s = some r) : r.2 ≠ .traps .endless := by
  induction n generalizing at_ s with
  | zero => cases h
  | succ n ih =>
    rw [Sched.setLoop] at h
    split at h
    · obtain rfl := Option.some.inj h
      simp
    · dsimp only at h
      split at h
      · split at h
        · obtain rfl := Option.some.inj h
          simp
        · exact ih h
      · exact ih h

theorem blockOn_ne_endless {kind : Kind} {w : WaitType} {k : ℕ} {id : UInt32} {b : Bool}
    {r : Sched × Reply} (h : s.blockOn kind w k id b = some r) : r.2 ≠ .traps .endless := by
  obtain ⟨s', -, rfl⟩ := Option.map_eq_some_iff.mp h
  simp

/-- A deletion returns. -/
theorem deleteObject_ne_endless {kind : Kind} {u : ℤ} {id : UInt32} {r : Sched × Reply}
    (h : s.deleteObject interrupt kind u id = some r) : r.2 ≠ .traps .endless := by
  rw [Sched.deleteObject] at h
  split at h
  · obtain rfl := Option.some.inj h
    simp
  · split at h
    · obtain rfl := Option.some.inj h
      simp
    · obtain ⟨s', -, rfl⟩ := Option.map_eq_some_iff.mp h
      simp

theorem createObject_ne_endless {kind : Kind} (r : Except ℤ UInt32 × Pools)
    (fill : ℕ → Sched → Sched) : (s.createObject kind r fill).2 ≠ .traps .endless := by
  unfold Sched.createObject
  split <;> simp

/-- A call after which its thread never goes on is the one that says so. -/
theorem perform_endless {c : Service} {r : Sched × Reply} (h : s.perform interrupt c = some r)
    (hend : r.2 = .traps .endless) : c = .exitThread := by
  cases c <;> simp only [perform, Option.some.injEq] at h <;> (try subst h)
  case exitThread => rfl
  all_goals exfalso
  case createThread => grind [Sched.createThread]
  case deleteThread => grind [Sched.deleteThread]
  case startThread => grind [Sched.startThread, andReturn_ne_endless]
  case terminateThread => grind [Sched.terminateThread]
  case changeThreadPriority =>
    grind [Sched.changeThreadPriority, Sched.requeue, Sched.yieldIfWorse, andReturn_ne_endless]
  case rotateThreadReadyQueue => grind [Sched.rotateThreadReadyQueue]
  case releaseWaitThread => grind [Sched.releaseWaitThread, andReturn_ne_endless]
  case sleepThread => grind [Sched.sleepThread]
  case wakeupThread => grind [Sched.wakeupThread, andReturn_ne_endless]
  case cancelWakeupThread => grind [Sched.cancelWakeupThread]
  case delayThread => grind [Sched.delayThread]
  case createEventFlag => exact createObject_ne_endless _ _ hend
  case createSema => exact createObject_ne_endless _ _ hend
  case createMbx => exact createObject_ne_endless _ _ hend
  case deleteEventFlag => exact deleteObject_ne_endless h hend
  case deleteSema => exact deleteObject_ne_endless h hend
  case deleteMbx => exact deleteObject_ne_endless h hend
  case setEventFlag => grind [Sched.setEventFlag, setLoop_ne_endless]
  case clearEventFlag => grind [Sched.clearEventFlag]
  case waitEventFlag => grind [Sched.waitEventFlag, blockOn_ne_endless]
  case signalSema => grind [Sched.signalSema, andReturn_ne_endless]
  case waitSema => grind [Sched.waitSema, blockOn_ne_endless]
  case pollSema => grind [Sched.pollSema]
  case sendMbx => grind [Sched.sendMbx, andReturn_ne_endless]
  case receiveMbx => grind [Sched.receiveMbx, Sched.takeMessage, blockOn_ne_endless]
  case pollMbx => grind [Sched.pollMbx, Sched.takeMessage]
end Endless

section Steps

variable {s s' : Sched} {L L' : Lists} {interrupt : Bool} {m : Processor}

theorem Peopled.mayStop (h : Peopled s) (hs : Sound s L) (hcaller : s.current ≠ 0) : s.MayStop := by
  refine ⟨hcaller, 0, h.idle.1, h.idle.2.resolve_right fun hrun => ?_⟩
  exact hcaller (hs.running 0 h.idle.1 hrun).1.symm

theorem Sched.Harmless.cares {c : Service} (h : s.Harmless interrupt c) (hp : Peopled s)
    (hs : Sound s L) : s.Cares interrupt c :=
  ⟨fun hi _ => hp.mayStop hs (h.caller hi), h.staged, fun hi kind k hk => h.waiters hi (kind, k) hk⟩

/-- The records after a switch. -/
theorem newContext_threads (frame : Frame) (hcur : s.current ≠ kNone) (hpend : s.pending ≠ kNone)
    (hset : ¬ s.Settled) (j : ℕ) : (s.newContext frame).threads j =
      if j = s.pending then { s.threads j with state := .run }
      else if j = s.current then { s.threads j with frame := some frame }
      else s.threads j := by
  have hne : s.pending ≠ s.current := hset
  rw [newContext_staged s frame hcur hpend hset]
  rcases eq_or_ne j s.pending with rfl | hj
  · simp [setThread, hne]
  · rcases eq_or_ne j s.current with rfl | hj'
    · simp [setThread, hj]
    · simp [setThread, hj, hj']

theorem Sched.Harmless.spares {c : Service} (h : s.Harmless interrupt c) :
    ∀ id, c = .terminateThread id → threadOf s.pools id ≠ some 0 := by
  rintro id rfl
  exact h.idle

/-- A switch changes nobody's priority. -/
theorem newContext_priorityOf (h : Sound s L) (hset : ¬ s.Settled) (frame : Frame) (j : ℕ) :
    (s.newContext frame).priorityOf j = s.priorityOf j := by
  rw [priorityOf, newContext_threads frame h.current_ne_kNone h.pending_ne_kNone hset, priorityOf]
  split
  · rfl
  · split <;> rfl

theorem newContext_pending (h : Sound s L) (hset : ¬ s.Settled) (frame : Frame) :
    (s.newContext frame).pending = s.pending := by
  rw [newContext_staged s frame h.current_ne_kNone h.pending_ne_kNone hset]
  rfl

/-- **The staged thread is switched to**, and has a frame to go on from. -/
theorem Sound.switches (h : Sound s L) (hp : Peopled s) (hset : ¬ s.Settled)
    (frame : Frame) (hframe : (s.threads s.current).state = .ready ∨
      (s.threads s.current).state = .wait → frame.resume ≠ .endless) :
    ∃ told m', Processor.resumed (s.newContext frame) = some (told, m') ∧
      m'.sched = s.newContext frame ∧ m'.Good L := by
  have hcur : s.current ≠ kNone := h.current_ne_kNone
  have hpend : s.pending ≠ kNone := h.pending_ne_kNone
  obtain ⟨hset', hcur'⟩ := newContext_settles hpend hset frame
  have hsound := h.newContext hset frame
  have hne : s.pending ≠ s.current := hset
  have hthreads := newContext_threads frame hcur hpend hset
  have hpools : (s.newContext frame).pools = s.pools := by
    rw [newContext_staged s frame hcur hpend hset]
    rfl
  have hvalid : ∀ j, (s.newContext frame).Valid j ↔ s.Valid j := fun j => by
    rw [Valid, Valid, hpools]
  have hpeopled : Peopled (s.newContext frame) := by
    refine ⟨fun j hw => ?_, ⟨(hvalid 0).mpr hp.idle.1, ?_⟩, fun j hv hj hstate => ?_⟩
    · rw [hthreads] at hw
      rw [hvalid]
      split at hw
      · cases hw
      · split at hw <;> exact hp.exists_of_wait j hw
    · rw [hthreads]
      split
      · exact .inr rfl
      · split <;> exact hp.idle.2
    · rw [hcur'] at hj
      rw [hthreads, if_neg hj] at hstate ⊢
      split at hstate
      · next hj' =>
        subst hj'
        rw [if_pos rfl]
        exact ⟨frame.v0, frame.resume, rfl, hframe hstate⟩
      · next hj' =>
        rw [if_neg hj']
        exact hp.framed j ((hvalid j).mp hv) hj' hstate
  have hgood : ∀ going, Processor.Good ⟨s.newContext frame, false, going⟩ L := fun going =>
    ⟨⟨hsound, hset'.poised, fun _ => hset'⟩, hpeopled, fun _ => rfl⟩
  -- the thread that is switched to has been ready, and so has a frame
  obtain ⟨v0, resume, hv0, hresume⟩ := hp.framed s.pending h.pending hne
    (.inl (h.staged hset))
  have hnow : ((s.newContext frame).threads (s.newContext frame).current).frame =
      some ⟨v0, resume⟩ := by
    rw [hcur', hthreads, if_pos rfl]
    exact hv0
  rw [Processor.resumed, hnow]
  cases resume with
  | own => exact ⟨_, _, rfl, rfl, hgood _⟩
  | answer => exact ⟨_, _, rfl, rfl, hgood _⟩
  | value v => exact ⟨_, _, rfl, rfl, hgood _⟩
  | setting event following => exact ⟨_, _, rfl, rfl, hgood _⟩
  | endless => exact absurd rfl hresume

/-- An ended thread is dormant. -/
theorem Called.dormant_of_endless {c : Service} {r : Sched × Reply} (h : Called s L false)
    (hr : s.perform false c = some r) (hend : r.2 = .traps .endless) :
    (r.1.threads r.1.current).state = .dormant := by
  obtain rfl := perform_endless hr hend
  obtain rfl := Option.some.inj hr
  obtain ⟨hpick, -⟩ | ⟨best, s₂, L₂, hpick, hpicked, -⟩ :=
    (h.sound.linked_end (h.settled rfl)).pick
  · rw [Sched.exitThread, hpick]
    simp
  · rw [Sched.exitThread, hpick]
    dsimp only
    rw [setPending_current, setPending_threads, hpicked.current, hpicked.threads]
    simp

/-- No service changes who runs before the switch. -/
theorem Effect.current {c : Service} (h : Effect s L interrupt c s' L') :
    s'.current = s.current := by
  cases h with
  | moves h =>
    exact h.invariant (I := fun s' _ => s'.current = s.current)
      (fun _ _ _ _ _ hc hm _ => hm.current.trans hc) rfl
  | terminates _ _ _ _ => exact withdraw_current s _
  | reranks _ _ _ h => exact h.reranks.current
  | rotates h _ => exact h.current

namespace Processor

/-- The end of a thread's call. -/
theorem replied_good {r : Sched × Reply} {E : Sched → Lists → Prop} (hout : Outcome E false r L')
    (hsound : Sound r.1 L') (hpeopled : Peopled r.1)
    (hend : r.2 = .traps .endless → (r.1.threads r.1.current).state = .dormant) :
    ∃ told m', replied r = some (told, m') ∧ Follows r.1 m' ∧ m'.Good L' := by
  obtain ⟨s', reply⟩ := r
  cases reply with
  | returns v =>
    have hset : s'.Settled := (hout.thread rfl).mpr ⟨v, rfl⟩
    exact ⟨_, _, rfl, .inl rfl, ⟨hsound, hset.poised, fun _ => hset⟩, hpeopled, fun _ => rfl⟩
  | traps resume =>
    have hset : ¬ s'.Settled := fun hset => by
      obtain ⟨v, hv⟩ := (hout.thread rfl).mp hset
      cases hv
    have hframe : (s'.threads s'.current).state = .ready ∨ (s'.threads s'.current).state = .wait →
        resume ≠ .endless := by
      rintro hstate rfl
      have hdormant : (s'.threads s'.current).state = .dormant := hend rfl
      simp [hdormant] at hstate
    obtain ⟨told, m', heq, hsched, hgood⟩ :=
      hsound.switches hpeopled hset ⟨0, resume⟩ hframe
    exact ⟨told, m', heq, .inr ⟨hset, _, hsched⟩, hgood⟩

/-- **Every careful act has its effect**, and keeps what holds between two acts. -/
theorem Good.acts (hm : m.Good L) {a : Act} (henabled : m.Enabled a) (hcareful : m.Careful a) :
    ∃ told m' s' L', m.step a = some (told, m') ∧ m.Does L a s' L' ∧ Follows s' m' ∧
      m'.Good L' := by
  obtain ⟨hcalled, hpeopled, hgoing⟩ := hm
  cases a with
  | call c =>
    obtain ⟨hi, hg⟩ := henabled
    rw [hi] at hcalled
    -- a careful caller asks for nothing that the queues do not bear
    have hcares := Harmless.cares hcareful hpeopled hcalled.sound
    obtain ⟨r, L', hr, hout⟩ := hcalled.perform hcares fun _ => rfl
    have hpeopled' := hpeopled.effect hcalled.sound hout.effect (Harmless.spares hcareful)
    obtain ⟨told, m', heq, hfollows, hgood⟩ := replied_good hout hout.effect.sound hpeopled'
      (hcalled.dormant_of_endless hr)
    refine ⟨told, m', r.1, L', ?_, .call hr hout.effect, hfollows, hgood⟩
    rw [step, if_neg (by simp [hi, hg]), hr]
    exact heq
  -- a walk that goes on finds the noted waiter waiting still
  | goOn =>
    obtain ⟨⟨event, following⟩, hg⟩ := Option.ne_none_iff_exists'.mp henabled
    rw [hgoing henabled] at hcalled
    obtain ⟨r, L', hr, hout⟩ := hcalled.goOn (P := m.sched.setting event)
      (hcareful (event, following) hg) fun j hj => ⟨hj, rfl⟩
    have hend : r.2 ≠ .traps .endless := setLoop_ne_endless hr
    obtain ⟨told, m', heq, hfollows, hgood⟩ := replied_good hout hout.effect.sound
      (hpeopled.moves hout.effect) fun h => absurd h hend
    refine ⟨told, m', r.1, L', ?_, .goOn hg hr hout.effect, hfollows, hgood⟩
    rw [step, hg, Option.bind_some, hr]
    exact heq
  | enter =>
    obtain ⟨hi, hg⟩ := henabled
    refine ⟨.nobody, { m with interrupt := true }, m.sched, L, by simp [step, hi, hg], .enter,
      .inl rfl, ?_⟩
    exact ⟨⟨hcalled.sound, hcalled.poised, fun h => by cases h⟩, hpeopled, fun h => absurd hg h⟩
  | handler c =>
    obtain ⟨hi, hc⟩ := henabled
    rw [hi] at hcalled
    have hcares := Harmless.cares hcareful hpeopled hcalled.sound
    obtain ⟨r, L', hr, hout⟩ := hcalled.perform hcares fun h => absurd h hc
    obtain ⟨hpoised, v, hv⟩ := hout.handler rfl
    refine ⟨.handler v, { m with sched := r.1 }, r.1, L', ?_, .handler hr hout.effect, .inl rfl, ?_⟩
    · rw [step, if_neg (by simp [hi, hc]), hr]
      simp [hv]
    · refine ⟨⟨hout.effect.sound, hpoised, fun h => absurd (hi.symm.trans h) (by decide)⟩, ?_,
        hgoing⟩
      exact hpeopled.effect hcalled.sound hout.effect (Harmless.spares hcareful)
  -- the handler of a delay wakes who sleeps on it
  | expire k =>
    obtain ⟨hi, hk⟩ := henabled
    rw [hi] at hcalled
    obtain ⟨L', hmoves, hpoised⟩ := hcalled.delayExpired (P := m.sched.expiring k) (k := k)
      (fun hd => ⟨rfl, hd, rfl⟩) fun j hj hw =>
      hj (hpeopled.exists_of_wait j hw)
    refine ⟨.nobody, { m with sched := m.sched.delayExpired k }, _, L', ?_, .expire hmoves,
      .inl rfl, ?_⟩
    · rw [step, if_neg (by simp [hi, hk])]
    · exact ⟨⟨hmoves.sound, hpoised, fun h => absurd (hi.symm.trans h) (by decide)⟩,
        hpeopled.moves hmoves, hgoing⟩
  -- the interrupt's exit switches if another thread is staged
  | leave v0 =>
    have hi : m.interrupt = true := henabled
    rw [step, if_neg (by simp [hi])]
    by_cases hset : m.sched.Settled
    · have hno : m.sched.shouldPreempt = false := decide_eq_false (not_not.mpr hset)
      rw [if_neg (by simp [hno])]
      refine ⟨.nobody, { m with interrupt := false }, m.sched, L, rfl, .leave, .inl rfl, ?_⟩
      exact ⟨⟨hcalled.sound, hcalled.poised, fun _ => hset⟩, hpeopled, fun _ => rfl⟩
    · have hyes : m.sched.shouldPreempt = true := decide_eq_true hset
      rw [if_pos hyes]
      obtain ⟨told, m', heq, hsched, hgood⟩ :=
        hcalled.sound.switches hpeopled hset ⟨v0, .own⟩ fun _ => nofun
      exact ⟨told, m', m.sched, L, heq, .leave, .inr ⟨hset, _, hsched⟩, hgood⟩

/-- An act that is taken could be asked for. -/
theorem enabled_of_step {a : Act} {told : Told} {m' : Processor}
    (h : m.step a = some (told, m')) : m.Enabled a := by
  cases a with
  | call c =>
    rw [step] at h
    split at h
    · cases h
    · next hno => simpa [Enabled] using hno
  | goOn =>
    obtain ⟨g, hg, -⟩ := Option.bind_eq_some_iff.mp h
    simp [Enabled, hg]
  | enter =>
    rw [step] at h
    split at h
    · cases h
    · next hno => simpa [Enabled] using hno
  | handler c =>
    rw [step] at h
    split at h
    · cases h
    · next hno => simpa [Enabled] using hno
  | expire k =>
    rw [step] at h
    split at h
    · cases h
    · next hno => simpa [Enabled] using hno
  | leave v0 =>
    rw [step] at h
    split at h
    · cases h
    · next hno => simpa [Enabled] using hno

/-- A careful step leaves what holds between two acts. -/
theorem CarefulStep.good {a : Act} {m' : Processor} (hm : m.Good L) (h : m.CarefulStep a m') :
    ∃ s' L', m.Does L a s' L' ∧ Follows s' m' ∧ m'.Good L' := by
  obtain ⟨hcareful, told, hstep⟩ := h
  obtain ⟨told', m'', s', L', hacts, hdoes, hfollows, hgood⟩ :=
    hm.acts (enabled_of_step hstep) hcareful
  obtain rfl : m'' = m' := (Prod.mk.inj (Option.some.inj (hacts.symm.trans hstep))).2
  exact ⟨s', L', hdoes, hfollows, hgood⟩

/-- Before the switch the queues are in order. -/
theorem Does.sound {a : Act} {s' : Sched} {L' : Lists} (h : m.Does L a s' L') (hm : m.Good L) :
    Sound s' L' := by
  cases h with
  | call _ h | handler _ h => exact h.sound
  | goOn _ _ h | expire h => exact h.sound
  | enter | leave => exact hm.called.sound

/-- **What a run keeps**: what each act keeps of the variables and the queues, and each switch, in a
run whose acts are careful and have `P`. -/
theorem Good.run {P : Processor → Act → Prop} {I : Sched → Lists → Prop}
    (hdoes : ∀ m L a s' L', m.Good L → P m a → I m.sched L → m.Does L a s' L' → Sound s' L' →
      I s' L')
    (hswitch : ∀ s L frame, Sound s L → ¬ s.Settled → I s L → I (s.newContext frame) L)
    {m m' : Processor} {acts : List Act} {L : Lists}
    (h : Steps (fun m a m' => P m a ∧ m.CarefulStep a m') m acts m') (hm : m.Good L)
    (hI : I m.sched L) : ∃ L', m'.Good L' ∧ I m'.sched L' := by
  refine h.invariant (I := fun m => ∃ L, m.Good L ∧ I m.sched L) ?_ ⟨L, hm, hI⟩
  rintro m a m' ⟨L, hm, hI⟩ ⟨hP, hstep⟩
  obtain ⟨s', L', hd, hfollows, hgood⟩ := hstep.good hm
  have hsound' := hd.sound hm
  have hnew := hdoes m L a s' L' hm hP hI hd hsound'
  refine ⟨L', hgood, ?_⟩
  rcases hfollows with heq | ⟨hset, frame, heq⟩
  · rwa [heq]
  · rw [heq]
    exact hswitch s' L' frame hsound' hset hnew

end Processor

end Steps

end PS2Bios.Threadman
