import PS2Bios.Threadman.SemaphoreCalls

/-!
# Runs of THREADMAN do what semaphores are for

What is seen of an act is its call, if it is one, and then who goes on with which answer, which is
right because `Waits` says so (`Heard`). From one act the runs follow by simulation.
-/

namespace PS2Bios.Threadman

open Intrusive Sched Counting

/-! ### One act -/

section Acts

variable {s : Sched} {m m' : Processor} {L : Lists} {σ : Semas} {a : Act} {told : Processor.Told}
  {reply : Replies}

/-- What is seen of the end of an act, when threads have been told `reply`. -/
theorem Heard.semaSteps (h : Heard σ.base.waiting σ.base.reply told reply) :
    Steps SemaStep σ told.observed { σ with base := { σ.base with reply := reply } } := by
  cases told with
  | thread k v =>
    obtain ⟨hwaits, hv, rfl⟩ := h
    exact .cons ⟨_, ⟨hwaits, hv, rfl⟩, rfl⟩ (.nil _)
  | handler v =>
    obtain rfl : reply = σ.base.reply := h
    exact .nil σ
  | nobody =>
    obtain rfl : reply = σ.base.reply := h
    exact .nil σ

/-- **One act does to the semaphores what is seen of it.** -/
theorem Processor.Good.tracks (hm : m.Good L) (h : Tracks m.sched L σ) (hcareful : m.Careful a)
    (hstep : m.step a = some (told, m')) :
    ∃ L' σ', Steps SemaStep σ (m.observed a told) σ' ∧ m'.Good L' ∧ Tracks m'.sched L' σ' := by
  -- an act that is no call is seen in what it lets threads find
  have hidle : (∀ c, a ≠ .call c) → (∀ c, a ≠ .handler c) →
      ∃ L' σ', Steps SemaStep σ told.observed σ' ∧ m'.Good L' ∧ Tracks m'.sched L' σ' :=
    fun hcall hhandler => by
      obtain ⟨L', reply', hgood, hheard, hw, htouch, hwrites⟩ :=
        hm.idles h.waits (by decide) (by decide) hcall hhandler hcareful hstep
      refine ⟨L', _, hheard.semaSteps, hgood, ?_, hw⟩
      exact h.tallies.congr htouch.found
        (hwrites.semaphores (fun h => by cases a <;> cases h)) _ rfl
  cases a with
  | call c =>
    obtain ⟨hi, hg⟩ := Processor.enabled_of_step hstep
    obtain ⟨told', m'', s', L', hacts, hdoes, hfollows, hgood⟩ :=
      hm.acts (a := .call c) ⟨hi, hg⟩ hcareful
    obtain ⟨rfl, rfl⟩ := Prod.mk.inj (Option.some.inj (hacts.symm.trans hstep))
    obtain ⟨hcalled, hpeopled, -⟩ := hm
    rw [hi] at hcalled
    have hcares := Harmless.cares hcareful hpeopled hcalled.sound
    obtain ⟨r, L'', hr', hout⟩ := hcalled.perform hcares fun _ => rfl
    cases hdoes with
    | @call _ s' answer L' hr he =>
      obtain rfl := Option.some.inj (hr.symm.trans hr')
      obtain ⟨ρ, σ₁, hcall, ht, hdue⟩ := h.called hcalled (hcares.ready rfl) hcares.staged hr he
      rw [Processor.step, if_neg (by simp [hi, hg]), hr] at hstep
      obtain ⟨-, reply', hheard, hw⟩ := ht.waits.replied he.sound hdue (hout.thread rfl) hstep
      rw [he.current] at hheard
      refine ⟨L', _, .cons hcall (Heard.semaSteps hheard), hgood, ?_, hw⟩
      exact ht.tallies.of_same (hfollows.same he.sound) _ rfl
  | handler c =>
    obtain ⟨hi, hc⟩ := Processor.enabled_of_step hstep
    obtain ⟨told', m'', s', L', hacts, hdoes, -, hgood⟩ :=
      hm.acts (a := .handler c) ⟨hi, hc⟩ hcareful
    obtain ⟨rfl, rfl⟩ := Prod.mk.inj (Option.some.inj (hacts.symm.trans hstep))
    obtain ⟨hcalled, -, -⟩ := hm
    rw [hi] at hcalled
    cases hdoes with
    | @handler _ s' answer L' hr he =>
      rw [Processor.step, if_neg (by simp [hi, hc]), hr] at hstep
      cases answer with
      | traps resume => cases hstep
      | returns v =>
        obtain ⟨rfl, rfl⟩ := Prod.mk.inj (Option.some.inj hstep)
        by_cases hw : ∃ id, c = .waitSema id
        · obtain ⟨id, rfl⟩ := hw
          obtain ⟨rfl, heq⟩ := Prod.mk.inj (Option.some.inj hr)
          cases heq
          obtain rfl := he.sound.unique hcalled.sound
          exact ⟨_, σ, .cons ⟨rfl, rfl⟩ (.nil σ), hgood, h⟩
        · have hw : ∀ id, c ≠ .waitSema id := fun id heq => hw ⟨id, heq⟩
          obtain ⟨answer, σ', hdirect, ht, hg⟩ := h.direct hcalled hw hcareful.staged hr he
          rcases hg.value with hv | ⟨resume, hv, -⟩
          · cases hv
            exact ⟨L', σ', .cons hdirect (.nil σ'), hgood, ht⟩
          · cases hv
  | goOn =>
    obtain ⟨L', σ', hsteps, hgood, ht⟩ := hidle (by simp) (by simp)
    exact ⟨L', σ', .cons rfl hsteps, hgood, ht⟩
  | enter => exact hidle (by simp) (by simp)
  | expire k => exact hidle (by simp) (by simp)
  | leave v0 => exact hidle (by simp) (by simp)

end Acts

/-! ### Runs -/

/-- The semaphores of THREADMAN are the abstract ones. -/
structure Sched.Represents (s : Sched) (σ : Semas) : Prop where
  count : ∀ id, σ.base.count id = (semaphoreOf s.pools id).map fun k => (s.semaphores k).count
  max : ∀ id k, semaphoreOf s.pools id = some k → σ.max id = (s.semaphores k).max
  waitList : ∀ id k, semaphoreOf s.pools id = some k →
    IsQueue kNone s.links (s.queues (.waiters .semaphore k)) (σ.base.waiting id)
  waiting_iff : ∀ id k, semaphoreOf s.pools id = some k → ∀ t, t ∈ σ.base.waiting id ↔
    s.Valid t ∧ (s.threads t).state = .wait ∧
      s.waitObjectOf (s.threads t) = some (.semaphore, k)
  waiterCount : ∀ id k, semaphoreOf s.pools id = some k →
    s.waiterCount .semaphore k = (σ.base.waiting id).length

/-- A scheduler that carries the semaphores represents them. -/
theorem Tracks.represents {s : Sched} {L : Lists} {σ : Semas} (h : Tracks s L σ)
    (hs : Sound s L) : s.Represents σ := by
  refine ⟨h.tallies.count, fun id k hk => (h.tallies.bound id k hk).1, fun id k hk => ?_,
    fun id k hk t => ?_, fun id k hk => ?_⟩
  · rw [h.waits.waiting_some hk]
    exact hs.linked.family.queue _ (isOn_of_lookup (by decide) hk)
  · rw [h.waits.waiting_some hk, hs.linked.mem_iff]
    refine ⟨fun ht => ⟨ht.2.1, ht.2.2⟩, fun ht => ⟨fun hmem => ?_, ht.1, ht.2⟩⟩
    obtain rfl := List.mem_singleton.mp hmem
    exact hs.pending_not_waiting ht.2.1
  · rw [h.waits.waiting_some hk]
    exact hs.linked.counts _ _ (isOn_of_lookup (by decide) hk)

/-- At the start there are no semaphores. -/
theorem tracks_started (messages : ℕ → Message) (out : ℕ → ℕ) :
    Tracks (Sched.started messages out) Lists.started Semas.start := by
  have hnone : ∀ id, semaphoreOf (Sched.started messages out).pools id = none :=
    lookup_started (by decide) messages out
  refine ⟨⟨fun id => ?_, fun id k hk => ?_⟩, waits_started (by decide) messages out⟩
  · rw [hnone]
    rfl
  · rw [hnone] at hk
    cases hk

namespace Processor

/-- A careful act, with what is seen of it. -/
def ObservedStep (m : Processor) (o : List Observation) (m' : Processor) : Prop :=
  ∃ a told, m.Careful a ∧ m.step a = some (told, m') ∧ o = m.observed a told

variable {messages : ℕ → Message} {out : ℕ → ℕ} {trace : List (List Observation)} {m : Processor}

/-- **What is seen of a careful run is what semaphores are for.** -/
theorem semas_of_run (h : Steps ObservedStep (started messages out) trace m) :
    ∃ σ, Steps (Steps SemaStep) Semas.start trace σ ∧ m.sched.Represents σ := by
  obtain ⟨σ, hsteps, L, hgood, ht⟩ := h.simulation
    (R := fun m σ => ∃ L, m.Good L ∧ Tracks m.sched L σ) (fun m σ o m' hR hstep => by
      obtain ⟨L, hm, ht⟩ := hR
      obtain ⟨a, told, hcareful, hstep, rfl⟩ := hstep
      obtain ⟨L', σ', hsteps, hgood, ht'⟩ := hm.tracks ht hcareful hstep
      exact ⟨σ', hsteps, L', hgood, ht'⟩)
    ⟨_, started_good messages out, tracks_started messages out⟩
  exact ⟨σ, hsteps, ht.represents hgood.called.sound⟩

/-- Take careful acts, with what is seen of them. -/
def watch (m : Processor) (a : Act) : Option (List Observation × Processor) :=
  if m.Careful a then (m.step a).map fun r => (m.observed a r.1, r.2) else none

/-- What `watch` computes is a step with what it shows. -/
theorem observedStep_of_watch (m : Processor) (a : Act) (o : List Observation) (m' : Processor)
    (h : m.watch a = some (o, m')) : m.ObservedStep o m' := by
  rw [watch] at h
  split at h
  · next hcareful =>
    obtain ⟨⟨told, m''⟩, hstep, heq⟩ := Option.map_eq_some_iff.mp h
    obtain ⟨rfl, rfl⟩ := Prod.mk.inj heq
    exact ⟨a, told, hcareful, hstep, rfl⟩
  · cases h

/-- A thread waits, and is told so once a handler has signalled. -/
theorem semas_handedOver : ∃ trace m, Steps ObservedStep nothing trace m ∧
    trace.flatten.drop 6 = [.call 1 (.waitSema (makeId 0 1)),
      .handler (.signalSema (makeId 0 1)) kOk, .run 1 kOk] ∧
    ∃ σ, Steps (Steps SemaStep) Semas.start trace σ ∧ m.sched.Represents σ := by
  have hrun : (traceList watch nothing handedOver).map (fun r => r.1.flatten.drop 6) =
      some [.call 1 (.waitSema (makeId 0 1)), .handler (.signalSema (makeId 0 1)) kOk,
        .run 1 kOk] := by decide +kernel
  obtain ⟨⟨trace, m⟩, hm, htrace⟩ := Option.map_eq_some_iff.mp hrun
  have hsteps := Steps.of_traceList observedStep_of_watch hm
  exact ⟨trace, m, hsteps, htrace, semas_of_run hsteps⟩

end Processor

/-! ### Units and waiters -/

/-- A semaphore with units to give has no waiters, and one that is not in use has none either. -/
structure Semas.Given (σ : Semas) : Prop where
  unused : ∀ id, σ.base.count id = none → σ.base.waiting id = []
  given : ∀ id n, σ.base.count id = some n → 0 < n → σ.base.waiting id = []

section Given

variable {σ σ' : Semas} {id : UInt32} {c : Service} {answer : ℤ} {interrupt : Bool}

/-- Fewer threads wait, and the counts are the same. -/
theorem Semas.Given.mono (h : σ.Given) (hcount : σ'.base.count = σ.base.count)
    (hwaiting : ∀ id, σ.base.waiting id = [] → σ'.base.waiting id = []) : σ'.Given :=
  ⟨fun id hid => hwaiting id (h.unused id (hcount ▸ hid)),
    fun id n hid hpos => hwaiting id (h.given id n (hcount ▸ hid) hpos)⟩

theorem Semas.Given.setReply (h : σ.Given) (t : ℕ) (r : Option (Counting.Reply UInt32 ℤ)) :
    Semas.Given { σ with base := σ.base.setReply t r } :=
  h.mono rfl fun _ hw => hw

theorem Semas.Given.leave (h : σ.Given) (t : ℕ) : Semas.Given { σ with base := σ.base.leave t } :=
  h.mono rfl fun id hw => by
    change (σ.base.waiting id).erase t = []
    rw [hw]
    rfl

/-- A count is written, of a semaphore that nobody waits for if it is positive. -/
theorem Semas.Given.setCount (h : σ.Given) (n : ℤ) (hid : 0 < n → σ.base.waiting id = []) :
    Semas.Given { σ with base := σ.base.setCount id (some n) } := by
  refine ⟨fun id' hnone => ?_, fun id' n' hn' hpos => ?_⟩
  · simp only [Counting.Semas.setCount, Function.update_apply] at hnone
    split at hnone
    · cases hnone
    · exact h.unused id' hnone
  · simp only [Counting.Semas.setCount, Function.update_apply] at hn'
    split at hn'
    · next heq =>
      obtain rfl := Option.some.inj hn'
      rw [heq]
      exact hid hpos
    · exact h.given id' n' hn' hpos

/-- A deletion gives nothing out. -/
theorem Semas.Given.delete (h : σ.Given) (v : ℤ) :
    Semas.Given { σ with base := σ.base.delete id v } := by
  refine ⟨fun id' hnone => ?_, fun id' n hn hpos => ?_⟩
  · simp only [Counting.Semas.delete, Function.update_apply] at hnone ⊢
    split
    · rfl
    · next hne =>
      rw [if_neg hne] at hnone
      exact h.unused id' hnone
  · simp only [Counting.Semas.delete, Function.update_apply] at hn ⊢
    split
    · rfl
    · next hne =>
      rw [if_neg hne] at hn
      exact h.given id' n hn hpos

/-- A signal raises the count only while nobody waits. -/
theorem Semas.Given.signal (h : σ.Given) {n : ℤ} (hn : σ.base.count id = some n) :
    Semas.Given { σ with base := σ.base.signal (σ.raise id) id n } := by
  rw [Counting.Semas.signal]
  split
  · next hnil => exact h.setCount _ fun _ => hnil
  · next t ts hcons =>
    refine ⟨fun id' hnone => ?_, fun id' n' hn' hpos => ?_⟩
    · change Function.update σ.base.waiting id ts id' = []
      rw [Function.update_of_ne]
      · exact h.unused id' hnone
      · rintro rfl
        cases hn.symm.trans hnone
    · change Function.update σ.base.waiting id ts id' = []
      rw [Function.update_of_ne]
      · exact h.given id' n' hn' hpos
      · rintro rfl
        cases hcons.symm.trans (h.given id' n' hn' hpos)

/-- A thread waits only for a semaphore without units. -/
theorem Semas.Given.enlist (h : σ.Given) {n : ℤ} (hn : σ.base.count id = some n) (hno : ¬ 0 < n)
    (insert : List ℕ → ℕ → List ℕ) (t : ℕ) :
    Semas.Given { σ with base := σ.base.enlist insert id t } := by
  refine ⟨fun id' hnone => ?_, fun id' n' hn' hpos => ?_⟩
  · change Function.update σ.base.waiting id _ id' = []
    rw [Function.update_of_ne]
    · exact h.unused id' hnone
    · rintro rfl
      cases hn.symm.trans hnone
  · change Function.update σ.base.waiting id _ id' = []
    rw [Function.update_of_ne]
    · exact h.given id' n' hn' hpos
    · rintro rfl
      obtain rfl := Option.some.inj (hn.symm.trans hn')
      exact hno hpos

/-- Each call that answers at once keeps account of what was given. -/
theorem Semas.Given.direct (h : σ.Given) (hc : σ.direct interrupt c answer σ') : σ'.Given := by
  cases c
  case createSema attr initial max =>
    rcases hc with ⟨-, rfl⟩ | ⟨id, hnone, -, rfl⟩
    · exact h
    · have hmade : Semas.Given { σ with base := σ.base.setCount id (some initial) } :=
        h.setCount initial fun _ => h.unused id hnone
      exact hmade.mono rfl fun _ hw => hw
  case deleteSema id =>
    simp only [Semas.direct, Semas.deleted] at hc
    split at hc
    · exact hc.2 ▸ h
    · split at hc
      · exact hc.2 ▸ h
      · exact hc.2 ▸ h.delete _
  case signalSema id =>
    simp only [Semas.direct, Semas.signalled] at hc
    split at hc
    · exact hc.2 ▸ h
    · next n hn => exact hc.2 ▸ h.signal hn
  case pollSema id =>
    simp only [Semas.direct, Semas.polled] at hc
    split at hc
    · exact hc.2 ▸ h
    · next n hn =>
      split at hc
      · next hpos => exact hc.2 ▸ h.setCount _ fun _ => h.given id n hn hpos
      · exact hc.2 ▸ h
  case waitSema id => exact hc.2 ▸ h
  case releaseWaitThread id =>
    rcases hc with rfl | ⟨base', hcancels, rfl⟩
    · exact h
    · rcases hcancels with ⟨-, rfl⟩ | ⟨-, rfl⟩
      · exact (h.leave _).setReply _ _
      · exact h
  case terminateThread id =>
    rcases hc with rfl | rfl
    · exact h
    · exact (h.leave _).setReply _ _
  all_goals
    obtain rfl : σ' = σ := hc
    exact h

/-- **No step leaves units where a thread waits.** -/
theorem Semas.Given.step (h : σ.Given) {o : Observation} (ho : SemaStep σ o σ') : σ'.Given := by
  cases o with
  | goOn => exact (show σ' = σ from ho) ▸ h
  | handler c v => exact h.direct ho
  | run k v =>
    obtain ⟨base', ⟨-, -, rfl⟩, rfl⟩ := ho
    exact h.setReply _ _
  | call caller c =>
    have hother : (∃ answer σ₁, σ.direct false c answer σ₁ ∧
        σ' = { σ₁ with base := σ₁.base.setReply caller (Semas.told answer c) }) → σ'.Given := by
      rintro ⟨answer, σ₁, hd, rfl⟩
      exact (h.direct hd).setReply _ _
    cases c <;> try exact hother ho
    case waitSema id =>
      simp only [SemaStep, Semas.call, Semas.waited] at ho
      split at ho
      · exact ho ▸ h.setReply _ _
      · next n hn =>
        split at ho
        · next hpos =>
          exact ho ▸ (h.setCount (n - 1) fun _ => h.given id n hn hpos).setReply _ _
        · next hno =>
          obtain ⟨l₁, l₂, -, -, rfl⟩ := ho
          exact h.enlist hn hno _ _

end Given

namespace Processor

variable {messages : ℕ → Message} {out : ℕ → ℕ} {trace : List (List Observation)} {m : Processor}

/-- **Nobody waits for a semaphore that has units.** -/
theorem nobody_waits_of_run (h : Steps ObservedStep (started messages out) trace m) {id : UInt32}
    {k : ℕ} (hk : semaphoreOf m.sched.pools id = some k)
    (hpos : 0 < (m.sched.semaphores k).count) (t : ℕ) (hv : m.sched.Valid t)
    (hw : (m.sched.threads t).state = .wait) :
    m.sched.waitObjectOf (m.sched.threads t) ≠ some (.semaphore, k) := by
  obtain ⟨σ, hsteps, hrep⟩ := semas_of_run h
  have hgiven : σ.Given := hsteps.invariant (I := Semas.Given)
    (fun _ _ _ hσ hstep => hstep.invariant (I := Semas.Given) (fun _ _ _ hσ ho => hσ.step ho) hσ)
    ⟨fun _ _ => rfl, fun _ _ _ _ => rfl⟩
  intro hobject
  have hmem := (hrep.waiting_iff id k hk t).mpr ⟨hv, hw, hobject⟩
  have hcount : σ.base.count id = some (m.sched.semaphores k).count := by
    rw [hrep.count, hk]
    rfl
  rw [hgiven.given id _ hcount hpos] at hmem
  cases hmem

/-- A thread waits for a semaphore while another semaphore has a unit. -/
theorem nobody_waits_of_two : ∃ trace m, Steps ObservedStep nothing trace m ∧
    (m.sched.threads 1).state = .wait ∧ m.sched.waitObjectOf (m.sched.threads 1) ≠
      some (.semaphore, 1) := by
  have hrun : (traceList watch nothing [.call (.createSema 0 0 1), .call (.createSema 0 1 1),
      .call (.waitSema (makeId 0 1))]).map (fun r => (decide (r.2.sched.Valid 1),
        (r.2.sched.threads 1).state, semaphoreOf r.2.sched.pools (makeId 1 1),
        (r.2.sched.semaphores 1).count)) = some (true, .wait, some 1, 1) := by decide +kernel
  obtain ⟨⟨trace, m⟩, hm, heq⟩ := Option.map_eq_some_iff.mp hrun
  obtain ⟨hv, heq⟩ := Prod.mk.inj heq
  obtain ⟨hw, heq⟩ := Prod.mk.inj heq
  obtain ⟨hk, hcount⟩ := Prod.mk.inj heq
  have hsteps := Steps.of_traceList observedStep_of_watch hm
  have hpos : 0 < (m.sched.semaphores 1).count := by
    rw [show (m.sched.semaphores 1).count = 1 from hcount]
    decide
  exact ⟨trace, m, hsteps, hw, nobody_waits_of_run hsteps hk hpos 1 (of_decide_eq_true hv) hw⟩

/-! ### Plain runs -/

/-- A plain act, with what is seen of it. -/
def PlainStep (m : Processor) (o : List Observation) (m' : Processor) : Prop :=
  ∃ a told, m.Plain a ∧ m.step a = some (told, m') ∧ o = m.observed a told

theorem observed_of_plain {m₀ : Processor} (h : Steps PlainStep m₀ trace m) :
    Steps ObservedStep m₀ trace m := by
  induction h with
  | nil m => exact .nil m
  | cons hstep _ ih =>
    obtain ⟨a, told, hplain, hstep, ho⟩ := hstep
    exact .cons ⟨a, told, hplain.careful, hstep, ho⟩ ih

/-- **Units are conserved** in every run of calls that make, start, put to sleep and release threads
and of calls about semaphores: what is seen of it is what counting semaphores do, the list of each
is as long as its count of waiters says, and nobody waits for one that has units. -/
theorem units_of_run (h : Steps PlainStep (started messages out) trace m) :
    ∃ σ, Steps (Steps SemaStep) Semas.start trace σ ∧ m.sched.Represents σ ∧
      ∀ id k, semaphoreOf m.sched.pools id = some k → 0 < (m.sched.semaphores k).count →
        ∀ t, m.sched.Valid t → (m.sched.threads t).state = .wait →
          m.sched.waitObjectOf (m.sched.threads t) ≠ some (.semaphore, k) := by
  have hseen := observed_of_plain h
  obtain ⟨σ, hsteps, hrep⟩ := semas_of_run hseen
  exact ⟨σ, hsteps, hrep, fun id k hk hpos t hv hw => nobody_waits_of_run hseen hk hpos t hv hw⟩

/-- Take plain acts, with what is seen of them. -/
def watchPlain (m : Processor) (a : Act) : Option (List Observation × Processor) :=
  if m.Plain a then (m.step a).map fun r => (m.observed a r.1, r.2) else none

theorem plainStep_of_watchPlain (m : Processor) (a : Act) (o : List Observation) (m' : Processor)
    (h : m.watchPlain a = some (o, m')) : m.PlainStep o m' := by
  rw [watchPlain] at h
  split at h
  · next hplain =>
    obtain ⟨⟨told, m''⟩, hstep, heq⟩ := Option.map_eq_some_iff.mp h
    obtain ⟨rfl, rfl⟩ := Prod.mk.inj heq
    exact ⟨a, told, hplain, hstep, rfl⟩
  · cases h

/-- The boot thread takes the one unit of a semaphore and waits for another; a worse thread waits
behind it; a handler calls off the first wait, and three signals follow. -/
def contended : List Act :=
  [.call (.createSema 0 1 1), .call (.createThread ⟨0x02000000, 0x1000, 0x400, 20⟩ 0x8000),
    .call (.createThread ⟨0x02000000, 0x1000, 0x400, 30⟩ 0x9000),
    .call (.startThread (makeId 2 1)), .call (.startThread (makeId 3 1)),
    .call (.waitSema (makeId 0 1)), .call (.waitSema (makeId 0 1)), .call (.waitSema (makeId 0 1)),
    .enter, .handler (.releaseWaitThread (makeId 1 1)), .leave 0,
    .call (.signalSema (makeId 0 1)), .call (.signalSema (makeId 0 1)),
    .call (.signalSema (makeId 0 1))]

/-- The wait that is called off is answered so, and of the three signals the first goes to the other
waiter, the second raises the count and the third is lost. -/
theorem units_contended : ∃ trace m, Steps PlainStep nothing trace m ∧
    trace.flatten.drop 13 = [.call 2 (.waitSema (makeId 0 1)),
      .handler (.releaseWaitThread (makeId 1 1)) kOk, .run 1 kReleaseWait,
      .call 1 (.signalSema (makeId 0 1)), .run 1 kOk, .call 1 (.signalSema (makeId 0 1)),
      .run 1 kOk, .call 1 (.signalSema (makeId 0 1)), .run 1 kOk] ∧
    (m.sched.threads 2).state = .ready ∧ (m.sched.semaphores 0).count = 1 ∧
    ∃ σ, Steps (Steps SemaStep) Semas.start trace σ ∧ m.sched.Represents σ ∧
      ∀ t, m.sched.Valid t → (m.sched.threads t).state = .wait →
        m.sched.waitObjectOf (m.sched.threads t) ≠ some (.semaphore, 0) := by
  have hrun : (traceList watchPlain nothing contended).map (fun r => (r.1.flatten.drop 13,
      (r.2.sched.threads 2).state, semaphoreOf r.2.sched.pools (makeId 0 1),
      (r.2.sched.semaphores 0).count)) = some ([.call 2 (.waitSema (makeId 0 1)),
        .handler (.releaseWaitThread (makeId 1 1)) kOk, .run 1 kReleaseWait,
        .call 1 (.signalSema (makeId 0 1)), .run 1 kOk, .call 1 (.signalSema (makeId 0 1)),
        .run 1 kOk, .call 1 (.signalSema (makeId 0 1)), .run 1 kOk], .ready, some 0, 1) := by
    decide +kernel
  obtain ⟨⟨trace, m⟩, hm, heq⟩ := Option.map_eq_some_iff.mp hrun
  obtain ⟨htrace, heq⟩ := Prod.mk.inj heq
  obtain ⟨hready, heq⟩ := Prod.mk.inj heq
  obtain ⟨hfound, hcount⟩ := Prod.mk.inj heq
  have hsteps := Steps.of_traceList plainStep_of_watchPlain hm
  obtain ⟨σ, hsemas, hrep, hnobody⟩ := units_of_run hsteps
  have hpos : 0 < (m.sched.semaphores 0).count := by
    rw [show (m.sched.semaphores 0).count = 1 from hcount]
    decide
  exact ⟨trace, m, hsteps, htrace, hready, hcount, σ, hsemas, hrep, hnobody _ 0 hfound hpos⟩

end Processor

end PS2Bios.Threadman
