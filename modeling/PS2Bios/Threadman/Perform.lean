import PS2Bios.Threadman.Objects

/-!
# Every call has its effect

`Sched.Cares` is what a call has to find besides: another thread ready if it blocks, nothing staged
if it ends or changes the thread that is pending, and no better waiters on an object that it
deletes.
-/

namespace PS2Bios.Threadman

open Intrusive Sched

section Perform

variable {s s' : Sched} {L L' : Lists} {interrupt : Bool}

/-- Whether a call of the current thread takes it off the processor whatever else is ready. -/
def Sched.Blocks (s : Sched) : Service → Prop
  | .exitThread => True
  | .sleepThread => (s.threads s.current).wakeupCount = 0
  | .delayThread added => added = kOk
  | .waitSema id => s.semaBlocks id
  | .waitEventFlag id bits mode _ poll => s.eventBlocks id bits mode poll
  | .receiveMbx _ id => s.mailboxBlocks id
  | _ => False

/-- The thread that a call ends, or whose priority it changes. -/
def Sched.aims (s : Sched) : Service → Option ℕ
  | .terminateThread id => threadOf s.pools id
  | .changeThreadPriority id priority =>
    if 1 ≤ priority ∧ priority ≤ 126 then s.threadOrSelf id else none
  | _ => none

/-- The object that a call deletes. -/
def Sched.deletes (s : Sched) : Service → Option (Kind × ℕ)
  | .deleteEventFlag id => (eventOf s.pools id).map fun k => (.event, k)
  | .deleteSema id => (semaphoreOf s.pools id).map fun k => (.semaphore, k)
  | .deleteMbx id => (mailboxOf s.pools id).map fun k => (.mailbox, k)
  | _ => none

/-- What a call has to find. -/
structure Sched.Cares (s : Sched) (interrupt : Bool) (c : Service) : Prop where
  ready : interrupt = false → s.Blocks c → s.MayStop
  staged : s.aims c = some s.pending → s.Settled
  waiters : interrupt = false → ∀ kind k, s.deletes c = some (kind, k) →
    s.NoBetter (.waiters kind k)

/-- **What a call does.** -/
theorem Called.perform {c : Service} (h : Called s L interrupt) (hcares : s.Cares interrupt c)
    (hend : c = .exitThread → interrupt = false) :
    ∃ r L', s.perform interrupt c = some r ∧
      Outcome (Effect s L interrupt c) interrupt r L' := by
  -- most calls move the queues by moves; the other three have their own effects
  have hmoves : ∀ {r : Option (Sched × Reply)}, (∃ r' L', r = some r' ∧
      Performed (s.permits c) s L interrupt r' L') → ∃ r' L', r = some r' ∧
        Outcome (Effect s L interrupt c) interrupt r' L' := fun hr =>
    hr.imp fun _ hr => hr.imp fun _ hr => hr.imp_right fun hp => hp.effect_of_moves
  have hmove : ∀ {r : Sched × Reply}, (∃ L', Performed (s.permits c) s L interrupt r L') →
      ∃ r' L', some r = some r' ∧ Outcome (Effect s L interrupt c) interrupt r' L' := fun hr =>
    ⟨_, hr.choose, rfl, hr.choose_spec.effect_of_moves⟩
  cases c with
  | createThread a stack => exact hmove (h.createThread a stack)
  | deleteThread id => exact hmove (h.deleteThread id)
  | startThread id => exact hmove (h.startThread id)
  | exitThread =>
    obtain rfl := hend rfl
    exact hmove (h.exitThread (hcares.ready rfl trivial))
  | terminateThread id =>
    obtain ⟨L', hout⟩ := h.terminateThread id hcares.staged
    exact ⟨_, L', rfl, hout⟩
  | changeThreadPriority id priority =>
    obtain ⟨L', hout⟩ := h.changeThreadPriority id priority fun hlow hhigh hk =>
      hcares.staged ((if_pos ⟨hlow, hhigh⟩).trans hk)
    exact ⟨_, L', rfl, hout⟩
  | rotateThreadReadyQueue priority =>
    obtain ⟨L', hout⟩ := h.rotateThreadReadyQueue priority
    exact ⟨_, L', rfl, hout⟩
  | releaseWaitThread id => exact hmove (h.releaseWaitThread id fun k hk => ⟨hk, rfl⟩)
  | sleepThread => exact hmove (h.sleepThread hcares.ready)
  | wakeupThread id => exact hmove (h.wakeupThread id fun k hk hs => ⟨hk, hs, rfl⟩)
  | cancelWakeupThread id => exact hmove (h.cancelWakeupThread id)
  | delayThread added => exact hmove (h.delayThread added hcares.ready)
  | createEventFlag attr bits =>
    exact hmove (h.createObject (by decide) (creates_create _ _) (fun k s => quiet_setEvent s k _)
      fun _ => rfl)
  | deleteEventFlag id =>
    refine hmoves (h.deleteObject (by decide) (fun hi k hk => hcares.waiters hi .event k ?_)
      fun k hk => ⟨⟨rfl, hk⟩, fun j hj => ⟨⟨k, hk, hj⟩, rfl⟩⟩)
    exact Option.map_eq_some_iff.mpr ⟨k, hk, rfl⟩
  | setEventFlag id bits =>
    exact hmoves (h.setEventFlag id bits fun k l j hk hj hbits hl hmem =>
      ⟨⟨k, hk, hj, hbits, l, hl, hmem⟩, rfl⟩)
  | clearEventFlag id keep => exact hmove (h.clearEventFlag id keep)
  | waitEventFlag id bits mode result poll =>
    exact hmoves (h.waitEventFlag id bits mode result poll hcares.ready fun k hk => ⟨rfl, hk, rfl⟩)
  | createSema attr initial max =>
    exact hmove (h.createObject (by decide) (creates_create _ _) (fun k s =>
      quiet_setSemaphore s k _) fun _ => rfl)
  | deleteSema id =>
    refine hmoves (h.deleteObject (by decide) (fun hi k hk => hcares.waiters hi .semaphore k ?_)
      fun k hk => ⟨⟨rfl, hk⟩, fun j hj => ⟨⟨k, hk, hj⟩, rfl⟩⟩)
    exact Option.map_eq_some_iff.mpr ⟨k, hk, rfl⟩
  | signalSema id =>
    exact hmove (h.signalSema id fun k hk j hj hfirst => ⟨⟨k, hk, hj, hfirst⟩, rfl⟩)
  | waitSema id => exact hmoves (h.waitSema id hcares.ready fun k hk => ⟨rfl, hk, rfl⟩)
  | pollSema id => exact hmove (h.pollSema id)
  | createMbx attr =>
    exact hmove (h.createObject (by decide) (creates_create _ _) (fun k s =>
      quiet_setMailbox s k _) fun _ => rfl)
  | deleteMbx id =>
    refine hmoves (h.deleteObject (by decide) (fun hi k hk => hcares.waiters hi .mailbox k ?_)
      fun k hk => ⟨⟨rfl, hk⟩, fun j hj => ⟨⟨k, hk, hj⟩, rfl⟩⟩)
    exact Option.map_eq_some_iff.mpr ⟨k, hk, rfl⟩
  | sendMbx iForm id message =>
    exact hmove (h.sendMbx iForm id message fun k hk j hj hfirst =>
      ⟨⟨k, hk, hj, hfirst⟩, rfl⟩)
  | receiveMbx received id =>
    exact hmoves (h.receiveMbx received id hcares.ready fun k hk => ⟨rfl, hk, rfl⟩)
  | pollMbx received id => exact hmove (h.pollMbx received id)

end Perform

end PS2Bios.Threadman
