import PS2Bios.Threadman.Effects

/-!
# What a call can do

Whichever call it is, it does to the scheduler a number of moves (`Move`): a thread is woken or
started, the running thread stops, a record is taken or given up, or nothing is written that the
queues depend on. A thread that has been made ready is handed over to, staged, or left in its queue
(`Decides`); a thread that stops leaves the processor to the best that is ready (`Stops`). What one
thread does to another that does not wait for it is apart (`Effect`): terminations, changes of a
priority and rotations.

Every move keeps `Sound`. What a result needs of the calls it takes from here, by cases on the move;
that the calls do nothing else is the business of `Calls`.
-/

namespace PS2Bios.Threadman

open Intrusive Sched

/-- When something is staged, the thread that runs is ready again. -/
def Sched.Poised (s : Sched) : Prop := ¬ s.Settled → (s.threads s.current).state = .ready

/-- What becomes of a ready thread, by the calls that make it so or, `interrupt`, by `wake` with
`from_interrupt`. -/
inductive Decides (s : Sched) (L : Lists) (k : ℕ) : Bool → Sched → Lists → Prop
  | queued (hset : s.Settled) (h : s.priorityOf s.current ≤ s.priorityOf k) :
      Decides s L k false s L
  | left (hp : s.Poised) (hne : k ≠ s.current)
      (h : s.priorityOf k < s.priorityOf s.current →
      ¬ s.Settled ∧ s.priorityOf s.pending ≤ s.priorityOf k) : Decides s L k true s L
  | handOff (hset : s.Settled) (hk : k ∈ L (.ready (s.priorityOf k)))
      (hbetter : s.priorityOf k < s.priorityOf s.current) :
      Decides s L k false ((s.stepBack.takeOffReady k).setPending k)
        ((L.append (.ready (s.priorityOf s.current)) s.current).remove
          (.ready (s.priorityOf k)) k)
  | first (hset : s.Settled) (hk : k ∈ L (.ready (s.priorityOf k)))
      (hbetter : s.priorityOf k < s.priorityOf s.current) :
      Decides s L k true (((s.makeReadyFirst s.current).takeOffReady k).setPending k)
        ((L.push (.ready (s.priorityOf s.current)) s.current).remove (.ready (s.priorityOf k)) k)
  | replaces (hset : ¬ s.Settled) (hp : s.Poised) (hk : k ∈ L (.ready (s.priorityOf k)))
      (hne : k ≠ s.current) (hbetter : s.priorityOf k < s.priorityOf s.current)
      (hpending : s.priorityOf k < s.priorityOf s.pending) :
      Decides s L k true (((s.makeReady s.pending).takeOffReady k).setPending k)
        ((L.append (.ready (s.priorityOf s.pending)) s.pending).remove
          (.ready (s.priorityOf k)) k)

/-- The running thread's record is written as that of a waiting thread. -/
def Sched.suspend (s : Sched) (waitType : WaitType) (waitId : UInt32) : Sched :=
  s.setThread s.current fun t => { t with state := .wait, waitType := waitType, waitId := waitId }

/-- Whom a call may wake, with which answer; the lists that its thread may join, behind the others
or by priority; and the records of objects that it may take or give up. -/
structure Permit where
  wakes : ℕ → ℤ → Prop
  joins : Kind → ℕ → Bool → Prop
  remakes : Kind → ℕ → Prop

/-- How the running thread stops, before another is chosen. -/
inductive Stops (P : Permit) (s : Sched) (L : Lists) : Sched → Lists → Prop
  | waits {waitType : WaitType} (waitId : UInt32) (hkind : waitType.kind = none) :
      Stops P s L (s.suspend waitType waitId) L
  | joins {kind : Kind} {index : ℕ} {r : Links ℕ × Queue ℕ} {l₁ l₂ : List ℕ} {waitType : WaitType}
      {waitId : UInt32} {byPriority : Bool} (hkind : waitType.kind = some kind)
      (hjoins : P.joins kind index byPriority) (hindex : lookup kind s.pools waitId = some index)
      (hl : Joins s s.current byPriority (L (.waiters kind index)) l₁ l₂) :
      Stops P s L (((s.setQueue (.waiters kind index) r).setCount kind index
          (s.waiterCount kind index + 1)).suspend waitType waitId)
        (Function.update L (.waiters kind index) (l₁ ++ s.current :: l₂))
  | ends : Stops P s L
      (s.setThread s.current fun t => { t with state := .dormant, waitType := .notWaiting }) L

/-- A dormant thread is made ready. -/
def Sched.activate (s : Sched) (k : ℕ) : Sched :=
  ((s.setThread k fun t => { t with currentPriority := t.initialPriority }).primeFrame
    k).makeReady k

/-- What a call does, but for terminations, changes of a priority and rotations. -/
inductive Move (P : Permit) (s : Sched) (L : Lists) : Sched → Lists → Prop
  | quiet {s' : Sched} (h : Quiet s s') : Move P s L s' L
  | wake {k : ℕ} {interrupt : Bool} {s' : Sched} {L' : Lists} (answer : ℤ) (hv : s.Valid k)
      (hs : (s.threads k).state = .wait) (hwakes : P.wakes k answer)
      (h : Decides (s.woken k answer) (Lists.wake s L k) k interrupt s' L') : Move P s L s' L'
  | start {k : ℕ} {s' : Sched} {L' : Lists} (hv : s.Valid k) (hs : (s.threads k).state = .dormant)
      (h : Decides (s.activate k) (L.append (.ready (s.threads k).initialPriority) k) k false
        s' L') : Move P s L s' L'
  | stop {s₁ s₂ : Sched} {L₁ L₂ : Lists} {best : ℕ} (hset : s.Settled) (hidle : s.current ≠ 0)
      (hstop : Stops P s L s₁ L₁) (hpick : Picked s₁ L₁ s₂ best L₂) (hne : best ≠ s.current) :
      Move P s L (s₂.setPending best) L₂
  | thread {k : ℕ} {slot : Slot} {links : Links ℕ} {f : Thread → Thread} (hno : ∀ p, k ∉ L p)
      (hcur : k ≠ s.current) (hpend : k ≠ s.pending)
      (hold : ¬ s.Valid k ∨ (s.threads k).state = .dormant)
      (hstate : (f (s.threads k)).state = .dormant ∨ (f (s.threads k)).state = .free) :
      Move P s L ({ s.setSlot .thread k slot with links := links }.setThread k f) L
  | object {kind : Kind} {k : ℕ} {slot : Slot} {r : Queue ℕ} {n : ℕ} (hkind : kind ≠ .thread)
      (hremakes : P.remakes kind k) (hempty : L (.waiters kind k) = []) :
      Move P s L
        (((s.setSlot kind k slot).setQueue (.waiters kind k) (s.links, r)).setCount kind k n) L

/-- The moves of a call, with the invariant on the way. -/
inductive Moves (P : Permit) (s : Sched) (L : Lists) : Sched → Lists → Prop
  | refl (h : Sound s L) : Moves P s L s L
  | tail {s' s'' : Sched} {L' L'' : Lists} (h : Moves P s L s' L') (hmove : Move P s' L' s'' L'')
      (hsound : Sound s'' L'') : Moves P s L s'' L''

section Moves

variable {P : Permit} {s s' s'' : Sched} {L L' L'' : Lists} {k : ℕ}

theorem Moves.sound (h : Moves P s L s' L') : Sound s' L' := by
  cases h with
  | refl h => exact h
  | tail _ _ h => exact h

theorem Moves.trans (h : Moves P s L s' L') (h' : Moves P s' L' s'' L'') : Moves P s L s'' L'' := by
  induction h' with
  | refl _ => exact h
  | tail _ hmove hsound ih => exact .tail ih hmove hsound

/-- **What each move keeps, all keep.** -/
theorem Moves.invariant {I : Sched → Lists → Prop}
    (hstep : ∀ s L s' L', Sound s L → I s L → Move P s L s' L' → Sound s' L' → I s' L')
    (h : Moves P s L s' L') (hs : I s L) : I s' L' := by
  induction h with
  | refl _ => exact hs
  | tail h hmove hsound ih => exact hstep _ _ _ _ h.sound ih hmove hsound

theorem Move.moves (h : Move P s L s' L') (hs : Sound s L) (hs' : Sound s' L') :
    Moves P s L s' L' :=
  .tail (.refl hs) h hs'

end Moves

end PS2Bios.Threadman
