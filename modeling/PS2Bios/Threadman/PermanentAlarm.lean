import PS2Bios.Threadman.AlarmSafety

/-!
# The permanent alarm

The permanent record is to keep the clock fresh: due at the first target interrupt, and after every
run of the handler queued for a time that is still to come, at most a counter period away. Its seed
is 2 ms before zero, which as 64 bits is nearly all the time there is: `clockBefore` finds it due
only when the clock has counted to within 2 ms of its end.

`permanent_alarm_keeps_clock_fresh` says what holds of the runs where that is so (`Fits`), and that
it holds from the first target interrupt on. `first_interrupt_finds_it_not_due` is the first
interrupt of any other run.
-/

namespace PS2Bios.Threadman

open Intrusive Alarms

variable {s : Alarms} {l : List ℕ} {m m' : Machine} {e : Event} {delayExpired : UInt32}

/-- What `readClock` makes of the clock. -/
def tick (c : Clock) (low : UInt32) : Clock := ⟨low, if low < c.lo then c.hi + 1 else c.hi⟩

theorem clockSeen_readClock (s : Alarms) (low : UInt32) :
    (s.readClock low).clockSeen = tick s.clockSeen low := rfl

/-- The readings of the counter that an event takes. -/
def Event.readings : Event → List UInt32
  | .setAlarm _ _ _ _ _ r => [r.now, r.low]
  | .delayThread _ _ _ r => [r.now, r.low]
  | .getSystemTime low => [low]
  | .interrupt _ low => [low]
  | .turn now low _ => [now, low]
  | _ => []

/-- The timer's target interrupt. -/
def Event.HitsTarget : Event → Prop
  | .interrupt status _ => status &&& kStatusTarget ≠ 0
  | _ => False

instance (e : Event) : Decidable e.HitsTarget :=
  match e with
  | .interrupt _ _ => inferInstanceAs (Decidable (_ ≠ _))
  | .setAlarm .. | .cancelAlarm .. | .delayThread .. | .cancelDelay .. | .getSystemTime ..
  | .turn .. | .returned .. => inferInstanceAs (Decidable False)

/-- The handler runs: its beginning, or a turn of its loop. -/
def Event.InHandler : Event → Prop
  | .interrupt _ _ => True
  | .turn _ _ _ => True
  | _ => False

/-- The clock as it was read last. -/
def Machine.now (m : Machine) : ℕ := m.state.clockSeen.ticks

/-- The machine, and whether a target interrupt has been served. -/
structure Watch where
  machine : Machine
  served : Bool

/-- A step of the machine, with note taken of an interrupt that came for the target. -/
def Watch.step (delayExpired : UInt32) (w : Watch) (e : Event) (w' : Watch) : Prop :=
  w.machine.step delayExpired e = some w'.machine ∧ w'.served = (w.served || decide e.HitsTarget)

/-- Where a reading takes the clock past its 64 bits, the record is due within a period of it. -/
def StaysAhead (due : ℕ) : Clock → List UInt32 → Prop
  | _, [] => True
  | c, low :: rest =>
    ((tick c low).ticks < c.ticks → due ≤ (tick c low).ticks + kPeriod) ∧
      StaysAhead due (tick c low) rest

/-- The clock is read at the right times: the first target interrupt comes when the seed is due,
one without a target comes before the record is due (and, as long as there has been no target
interrupt, within the period before the seed), and the record does not come due between the last
reading of the loop and that of `armTimer`. -/
def Watch.InTime (w : Watch) : Event → Prop
  | .interrupt status low =>
    if status &&& kStatusTarget = 0 then
      if w.served then
        (tick w.machine.state.clockSeen low).ticks < w.machine.state.due 0
      else
        (tick w.machine.state.clockSeen low).ticks < seed.ticks ∧
          seed.ticks ≤ (tick w.machine.state.clockSeen low).ticks + kPeriod
    else w.served = false → seed.ticks ≤ (tick w.machine.state.clockSeen low).ticks
  | .turn now low _ =>
    (tick w.machine.state.clockSeen now).ticks < w.machine.state.due 0 →
      (tick (tick w.machine.state.clockSeen now) low).ticks < w.machine.state.due 0
  | _ => True

/-- What is asked of an event: nobody cancels the permanent alarm, the interrupt is served in time,
and the clock as it is read stays ahead of the deadline by less than half its range. -/
def Watch.Fits (w : Watch) (e : Event) : Prop :=
  e.SparesPermanent ∧ w.InTime e ∧
    StaysAhead (w.machine.state.due 0) w.machine.state.clockSeen e.readings

instance StaysAhead.decidable (due : ℕ) : ∀ c readings, Decidable (StaysAhead due c readings)
  | _, [] => inferInstanceAs (Decidable True)
  | c, low :: rest =>
    have := StaysAhead.decidable due (tick c low) rest
    inferInstanceAs (Decidable (_ ∧ _))

instance (w : Watch) (e : Event) : Decidable (w.InTime e) :=
  match e with
  | .interrupt status low => inferInstanceAs (Decidable
    (if status &&& kStatusTarget = 0 then
      if w.served then
        (tick w.machine.state.clockSeen low).ticks < w.machine.state.due 0
      else
        (tick w.machine.state.clockSeen low).ticks < seed.ticks ∧
          seed.ticks ≤ (tick w.machine.state.clockSeen low).ticks + kPeriod
    else w.served = false → seed.ticks ≤ (tick w.machine.state.clockSeen low).ticks))
  | .turn _ _ _ => inferInstanceAs (Decidable (_ < _ → _ < _))
  | .setAlarm .. | .cancelAlarm .. | .delayThread .. | .cancelDelay .. | .getSystemTime ..
  | .returned .. => inferInstanceAs (Decidable True)

instance (w : Watch) (e : Event) : Decidable (w.Fits e) := inferInstanceAs (Decidable (_ ∧ _ ∧ _))

/-! ### What a step does to the record and to the clock -/

/-- The permanent alarm's next deadline is a period later at most. -/
theorem ticks_aPeriodOn (a : Alarm) :
    (aPeriodOn a).deadline.ticks ≤ a.deadline.ticks + kPeriod := by
  have hone : (1 : UInt32).toNat = 1 := rfl
  unfold aPeriodOn Clock.ticks kPeriod
  dsimp only
  rw [UInt32.toNat_add, hone]
  have := Nat.mod_le (a.deadline.hi.toNat + 1) (2 ^ 32)
  omega

/-- The clock stays where the record is within a period of it. -/
theorem StaysAhead.foldl {due : ℕ} {c : Clock} {readings rs : List UInt32}
    (h : StaysAhead due c readings) (hrs : rs <+: readings) (hdue : due ≤ c.ticks + kPeriod) :
    due ≤ (rs.foldl tick c).ticks + kPeriod := by
  induction rs generalizing c readings with
  | nil => exact hdue
  | cons low rest ih =>
    obtain ⟨suffix, rfl⟩ := hrs
    obtain ⟨hwrap, hrest⟩ := h
    refine ih hrest (List.prefix_append rest suffix) ?_
    by_cases hlt : (tick c low).ticks < c.ticks
    · exact hwrap hlt
    · omega

/-- Only a turn moves the permanent record, and only when it is due. -/
theorem Machine.InOrder.clocked (h : m.InOrder l) (hfun : delayExpired ≠ 0)
    (hspares : e.SparesPermanent) (hs : m.step delayExpired e = some m') :
    (m'.state.alarms 0 = m.state.alarms 0 ∧
      ∃ rs, rs <+: e.readings ∧ m'.state.clockSeen = rs.foldl tick m.state.clockSeen) ∨
    ∃ now low again, e = .turn now low again ∧
      m.state.due 0 ≤ (tick m.state.clockSeen now).ticks ∧
        m'.state.alarms 0 = aPeriodOn (m.state.alarms 0) ∧
          m'.state.clockSeen = tick m.state.clockSeen now ∧ m'.control = m.control := by
  have henabled := Machine.enabled_of_step hs
  -- a call leaves the permanent alarm, and reads the clock twice at most
  cases e with
  | setAlarm iForm context clock callback arg r =>
    left
    unfold Machine.step Alarms.setAlarm at hs
    dsimp only at hs
    by_cases hcontext : context != iForm
    · rw [if_pos hcontext] at hs
      obtain rfl := Option.some.inj hs
      exact ⟨rfl, [], List.nil_prefix, rfl⟩
    · obtain ⟨answer, l', hanswer, -, -, hzero, -, hclock⟩ := h.add clock callback arg r
      rw [if_neg hcontext, hanswer] at hs
      obtain rfl := Option.some.inj hs
      refine ⟨hzero, hclock.elim (fun hc => ⟨[], List.nil_prefix, hc⟩)
        fun hc => ⟨[r.now, r.low], List.prefix_refl _, hc⟩⟩
  | delayThread context usec thread r =>
    left
    unfold Machine.step Alarms.delayThread at hs
    dsimp only at hs
    cases context with
    | true =>
      obtain rfl := Option.some.inj hs
      exact ⟨rfl, [], List.nil_prefix, rfl⟩
    | false =>
      obtain ⟨answer, l', hanswer, -, -, hzero, -, hclock⟩ :=
        h.add (usecToSysClock usec) delayExpired thread r
      rw [if_neg Bool.false_ne_true, hanswer] at hs
      obtain rfl := Option.some.inj hs
      refine ⟨hzero, hclock.elim (fun hc => ⟨[], List.nil_prefix, hc⟩)
        fun hc => ⟨[r.now, r.low], List.prefix_refl _, hc⟩⟩
  | cancelAlarm iForm context callback arg =>
    left
    unfold Machine.step Alarms.cancelAlarm at hs
    dsimp only at hs
    by_cases hcontext : context != iForm
    · rw [if_pos hcontext] at hs
      obtain rfl := Option.some.inj hs
      exact ⟨rfl, [], List.nil_prefix, rfl⟩
    · obtain ⟨answer, l', hanswer, -, hzero, -, hclock⟩ :=
        h.remove callback arg (hspares (by simpa using hcontext))
      rw [if_neg hcontext, hanswer] at hs
      obtain rfl := Option.some.inj hs
      exact ⟨hzero, [], List.nil_prefix, hclock⟩
  | cancelDelay thread =>
    left
    obtain ⟨answer, l', hanswer, -, hzero, -, hclock⟩ :=
      h.remove delayExpired thread fun hp => hfun hp.1
    unfold Machine.step Alarms.cancelDelay at hs
    dsimp only at hs
    rw [hanswer] at hs
    obtain rfl := Option.some.inj hs
    exact ⟨hzero, [], List.nil_prefix, hclock⟩
  | getSystemTime low =>
    obtain rfl := Option.some.inj hs
    exact .inl ⟨rfl, [low], List.prefix_refl _, rfl⟩
  | interrupt status low =>
    have hidle : m.control = .idle := henabled
    unfold Machine.step at hs
    rw [hidle] at hs
    obtain rfl := Option.some.inj hs
    exact .inl ⟨rfl, [low], List.prefix_refl _, rfl⟩
  -- a turn either leaves it or puts it in again, a period later, once it is due
  | turn now low again =>
    have hwalking : m.control = .walking := henabled
    have hstep : m.step delayExpired (.turn now low again) = m.turn now low again := by
      unfold Machine.step
      rw [hwalking]
    rw [hstep] at hs
    obtain ⟨j, tail, rfl, ⟨-, v, hturn⟩ | ⟨hdue, rfl, l', t, hturn, -, -, halarms, hclock⟩ |
      ⟨-, -, t, hturn, -, halarms, hclock⟩⟩ := h.turn hwalking now low again
    · obtain rfl := Option.some.inj (hturn.symm.trans hs)
      exact .inl ⟨rfl, [now, low], List.prefix_refl _, rfl⟩
    · obtain rfl := Option.some.inj (hturn.symm.trans hs)
      refine .inr ⟨now, low, again, rfl, ?_, ?_, hclock, rfl⟩
      · rw [← Bool.not_eq_true, clockBefore_iff, clockSeen_readClock] at hdue
        unfold Alarms.due
        omega
      · exact (congrFun halarms 0).trans (Function.update_self _ _ _)
    · obtain rfl := Option.some.inj (hturn.symm.trans hs)
      exact .inl ⟨congrFun halarms 0, [now], List.prefix_append [now] [low], hclock⟩
  -- what has been called is not the permanent alarm
  | returned again =>
    obtain ⟨k, hcalling⟩ := henabled
    have hstep : m.step delayExpired (.returned again) = m.returned k again := by
      unfold Machine.step
      rw [hcalling]
    rw [hstep] at hs
    left
    obtain ⟨hk, -, ⟨-, t, hreturned, -, hkeep, hclock⟩ |
      ⟨-, l', t, hreturned, -, -, halarms, hclock⟩⟩ := h.returned hcalling again
    · obtain rfl := Option.some.inj (hreturned.symm.trans hs)
      exact ⟨hkeep 0 hk.symm, [], List.nil_prefix, hclock⟩
    · obtain rfl := Option.some.inj (hreturned.symm.trans hs)
      refine ⟨?_, [], List.nil_prefix, hclock⟩
      exact (congrFun halarms 0).trans (Function.update_of_ne hk.symm _ _)

/-- The handler begins with a target interrupt. -/
theorem Machine.idle_of_step (hidle : m.control = .idle) (hno : ¬e.HitsTarget)
    (hs : m.step delayExpired e = some m') : m'.control = .idle := by
  have hadded : ∀ r : ℤ × Alarms, (m.added r).control = m.control := by
    intro r
    unfold Machine.added Machine.inserted
    split <;> rfl
  have henabled := Machine.enabled_of_step hs
  cases e with
  | setAlarm iForm context clock callback arg r =>
    obtain ⟨answer, -, rfl⟩ := Option.map_eq_some_iff.mp hs
    exact (hadded answer).trans hidle
  | delayThread context usec thread r =>
    obtain ⟨answer, -, rfl⟩ := Option.map_eq_some_iff.mp hs
    exact (hadded answer).trans hidle
  | cancelAlarm iForm context callback arg =>
    obtain ⟨answer, -, rfl⟩ := Option.map_eq_some_iff.mp hs
    exact hidle
  | cancelDelay thread =>
    obtain ⟨answer, -, rfl⟩ := Option.map_eq_some_iff.mp hs
    exact hidle
  | getSystemTime low =>
    obtain rfl := Option.some.inj hs
    exact hidle
  | interrupt status low =>
    unfold Machine.step at hs
    rw [hidle] at hs
    obtain rfl := Option.some.inj hs
    exact if_pos (not_not.mp hno)
  | turn now low again =>
    have hwalking : m.control = .walking := henabled
    rw [hidle] at hwalking
    cases hwalking
  | returned again =>
    obtain ⟨k, hcalling⟩ := henabled
    rw [hidle] at hcalling
    cases hcalling

/-! ### Every run -/

/-- The queue is in order; the seed has not been touched before the first target interrupt, and
after it the record is due within a period. -/
def Watch.Holds (w : Watch) : Prop :=
  (∃ l, w.machine.InOrder l) ∧
    (w.served = false → (w.machine.state.alarms 0).deadline = seed ∧ w.machine.control = .idle) ∧
      (w.served = true → w.machine.state.due 0 ≤ w.machine.now + kPeriod)

/-- **One event.** -/
theorem Watch.Holds.step {w w' : Watch} (h : w.Holds) (hfun : delayExpired ≠ 0) (hfits : w.Fits e)
    (hs : w.step delayExpired e w') :
    w'.Holds ∧ (w.served = false → e.HitsTarget → w'.machine.state.due 0 ≤ w'.machine.now) ∧
      (e.InHandler → w'.machine.control = .idle →
        w'.machine.now < w'.machine.state.due 0 ∧
          w'.machine.state.due 0 ≤ w'.machine.now + kPeriod) := by
  obtain ⟨⟨l, hin⟩, hseed, hsoon⟩ := h
  obtain ⟨hspares, htime, hahead⟩ := hfits
  obtain ⟨hstep, hserved⟩ := hs
  have henabled := Machine.enabled_of_step hstep
  obtain ⟨m', l', hstep', hin', -⟩ := hin.step hfun henabled hspares
  obtain rfl := Option.some.inj (hstep'.symm.trans hstep)
  have hclocked := hin.clocked hfun hspares hstep
  -- the first target interrupt comes when the seed is due
  have hfirst : w.served = false → e.HitsTarget →
      w'.machine.state.due 0 ≤ w'.machine.now := by
    intro hfresh hhits
    cases e with
    | interrupt status low =>
      have hidle : w.machine.control = .idle := henabled
      unfold Machine.step at hstep
      rw [hidle] at hstep
      have hw' := Option.some.inj hstep
      have hdue : w'.machine.state.due 0 = seed.ticks := by
        rw [← hw']
        exact congrArg Clock.ticks (hseed hfresh).1
      have hnow : w'.machine.now = (tick w.machine.state.clockSeen low).ticks := by
        rw [← hw']
        rfl
      unfold Watch.InTime at htime
      dsimp only at htime
      rw [if_neg hhits] at htime
      rw [hdue, hnow]
      exact htime hfresh
    | _ => exact absurd hhits id
  have hsoon' : w'.served = true → w'.machine.state.due 0 ≤ w'.machine.now + kPeriod := by
    intro hs'
    obtain ⟨hzero, rs, hrs, hclock⟩ | ⟨now, low, again, rfl, hdue, hzero, hclock, -⟩ := hclocked
    · by_cases hw : w.served = true
      · unfold Machine.now Alarms.due
        rw [hzero, hclock]
        exact hahead.foldl hrs (hsoon hw)
      · have hfalse := Bool.eq_false_iff.mpr hw
        rw [hserved, hfalse, Bool.false_or, decide_eq_true_eq] at hs'
        have := hfirst hfalse hs'
        omega
    · have hle := ticks_aPeriodOn (w.machine.state.alarms 0)
      unfold Machine.now Alarms.due at *
      rw [hzero, hclock]
      omega
  refine ⟨⟨⟨l', hin'⟩, fun hs' => ?_, hsoon'⟩, hfirst, fun hhandler hidle' => ?_⟩
  · rw [hserved, Bool.or_eq_false_iff, decide_eq_false_iff_not] at hs'
    obtain ⟨hfresh, hno⟩ := hs'
    obtain ⟨hdeadline, hidle⟩ := hseed hfresh
    refine ⟨?_, Machine.idle_of_step hidle hno hstep⟩
    obtain ⟨hzero, -⟩ | ⟨now, low, again, rfl, -⟩ := hclocked
    · rw [hzero, hdeadline]
    · have hwalking : w.machine.control = .walking := henabled
      rw [hidle] at hwalking
      cases hwalking
  · cases e with
    | interrupt status low =>
      have hidle : w.machine.control = .idle := henabled
      unfold Machine.step at hstep
      rw [hidle] at hstep
      have hw' := Option.some.inj hstep
      have hnone : status &&& kStatusTarget = 0 := by
        by_contra hhits
        rw [← hw'] at hidle'
        have hwalking : (w.machine.interrupt status low).control = .walking := if_neg hhits
        rw [hwalking] at hidle'
        cases hidle'
      unfold Watch.InTime at htime
      dsimp only at htime
      rw [if_pos hnone] at htime
      have hnow : w'.machine.now = (tick w.machine.state.clockSeen low).ticks := by
        rw [← hw']
        rfl
      have hkept : w'.machine.state.due 0 = w.machine.state.due 0 := by
        rw [← hw']
        rfl
      rw [hnow, hkept]
      cases hw : w.served with
      | true =>
        rw [hw, if_pos rfl] at htime
        -- the record was due within a period, and the clock has gone on
        have hperiod := hahead.foldl (List.prefix_refl [low]) (hsoon hw)
        rw [List.foldl_cons, List.foldl_nil] at hperiod
        exact ⟨htime, hperiod⟩
      | false =>
        rw [hw, if_neg Bool.false_ne_true] at htime
        have hdue : w.machine.state.due 0 = seed.ticks := congrArg Clock.ticks (hseed hw).1
        rw [hdue]
        exact htime
    | turn now low again =>
      have hwalking : w.machine.control = .walking := henabled
      have hturns : w.machine.step delayExpired (.turn now low again) =
          w.machine.turn now low again := by
        unfold Machine.step
        rw [hwalking]
      have hserved' : w'.served = true := by
        rw [hserved]
        cases hw : w.served with
        | true => rfl
        | false => exact absurd (hwalking.symm.trans (hseed hw).2) (by simp)
      rw [hturns] at hstep
      obtain ⟨j, tail, rfl, ⟨hbefore, v, hturn⟩ | ⟨-, rfl, k, t, hturn, -⟩ |
        ⟨-, -, t, hturn, -⟩⟩ := hin.turn hwalking now low again
      · have hw' := Option.some.inj (hturn.symm.trans hstep)
        refine ⟨?_, hsoon' hserved'⟩
        rw [clockBefore_iff] at hbefore
        -- the head is not due, so the permanent record is not
        have hhead : w.machine.state.due j ≤ w.machine.state.due 0 := by
          rcases List.mem_cons.mp hin.zero with rfl | hz
          · exact le_rfl
          · have := List.rel_of_pairwise_cons hin.ordered.sorted hz
            unfold Alarms.Earlier at this
            omega
        have hlt : (tick w.machine.state.clockSeen now).ticks < w.machine.state.due 0 :=
          Nat.lt_of_lt_of_le hbefore hhead
        rw [← hw']
        exact htime hlt
      · have hw' := Option.some.inj (hturn.symm.trans hstep)
        rw [← hw'] at hidle'
        exact absurd (hwalking.symm.trans hidle') (by simp)
      · have hw' := Option.some.inj (hturn.symm.trans hstep)
        rw [← hw'] at hidle'
        cases hidle'
    | _ => exact absurd hhandler id

/-- Without an interrupt for the target none has been served. -/
theorem Watch.not_served {w w' : Watch} {events : List Event}
    (hrun : Steps (fun w e w' => w.Fits e ∧ w.step delayExpired e w') w events w')
    (hw : w.served = false) (hno : ∀ e ∈ events, ¬e.HitsTarget) : w'.served = false := by
  induction hrun with
  | nil _ => exact hw
  | cons hs _ ih =>
    rw [List.forall_mem_cons] at hno
    refine ih ?_ hno.2
    rw [hs.2.2, hw, Bool.false_or, decide_eq_false_iff_not]
    exact hno.1

/-- **The permanent alarm keeps the clock fresh**: in a run that reads the clock at the right
times, and in which nobody cancels the pair of the permanent record, the first target interrupt
finds the record due, and wherever the handler ends the record is queued for a time that is still
to come and at most a counter period away. -/
theorem permanent_alarm_keeps_clock_fresh (hfun : delayExpired ≠ 0) {m₀ : Machine}
    (hstart : started s = some m₀) {events : List Event} {w : Watch}
    (hrun : Steps (fun w e w' => w.Fits e ∧ w.step delayExpired e w') ⟨m₀, false⟩
      (events ++ [e]) w) :
    ((∀ x ∈ events, ¬x.HitsTarget) → e.HitsTarget →
        clockBefore w.machine.state.clockSeen (w.machine.state.alarms 0).deadline = false) ∧
      (e.InHandler → w.machine.control = .idle → (∃ l, w.machine.InOrder l) ∧
        w.machine.now < w.machine.state.due 0 ∧
          w.machine.state.due 0 ≤ w.machine.now + kPeriod) := by
  obtain ⟨v, hpre, hlast⟩ := Steps.append_iff.mp hrun
  obtain ⟨w', hs, hnil⟩ := Steps.cons_iff.mp hlast
  obtain rfl := Steps.nil_iff.mp hnil
  have hv : v.Holds := by
    refine hpre.invariant (fun w e w' h hs => (h.step hfun hs.1 hs.2).1) ?_
    obtain ⟨m₁, hm₁, h, hidle, hdeadline, -⟩ := started_inOrder s
    obtain rfl := Option.some.inj (hstart.symm.trans hm₁)
    exact ⟨⟨[0], h⟩, fun _ => ⟨hdeadline, hidle⟩, fun hw => absurd hw Bool.false_ne_true⟩
  obtain ⟨hw, hfirst, hend⟩ := hv.step hfun hs.1 hs.2
  refine ⟨fun hno hhits => ?_, fun hhandler hidle => ⟨hw.1, hend hhandler hidle⟩⟩
  have hle := hfirst (Watch.not_served hpre rfl hno) hhits
  rw [← Bool.not_eq_true, clockBefore_iff]
  exact Nat.not_lt.mpr hle

/-- The same machine at another time. -/
def Machine.at (m : Machine) (c : Clock) : Machine :=
  { m with state := { m.state with clockSeen := c } }

/-- Looking at the clock often enough takes it to any high word. -/
theorem counted (m : Machine) {n : ℕ} (hn : n < 2 ^ 32) :
    ∃ events : List Event, Steps (fun (w : Watch) e w' => w.Fits e ∧ w.step 0x40 e w')
      ⟨m.at ⟨0, 0⟩, false⟩ events ⟨m.at ⟨0, UInt32.ofNat n⟩, false⟩ := by
  induction n with
  | zero => exact ⟨[], .nil _⟩
  | succ n ih =>
    obtain ⟨events, hsteps⟩ := ih (by omega)
    have hhi : (UInt32.ofNat n).toNat = n := UInt32.toNat_ofNat_of_lt' (by
      show n < 2 ^ 32
      omega)
    have hhi' : (UInt32.ofNat (n + 1)).toNat = n + 1 := UInt32.toNat_ofNat_of_lt' hn
    have hsucc : UInt32.ofNat n + 1 = UInt32.ofNat (n + 1) := by
      rw [← UInt32.toNat_inj, UInt32.toNat_add, hhi, hhi']
      show (n + 1) % 2 ^ 32 = n + 1
      omega
    -- the counter is read at 1, and then at 0 again
    have hone : tick ⟨0, UInt32.ofNat n⟩ 1 = ⟨1, UInt32.ofNat n⟩ := rfl
    have hzero : tick ⟨1, UInt32.ofNat n⟩ 0 = ⟨0, UInt32.ofNat (n + 1)⟩ := by
      rw [← hsucc]
      rfl
    have hfits₁ : Watch.Fits ⟨m.at ⟨0, UInt32.ofNat n⟩, false⟩ (.getSystemTime 1) := by
      refine ⟨trivial, trivial, fun hlt => ?_, trivial⟩
      have hlt : (tick ⟨0, UInt32.ofNat n⟩ 1).ticks < (⟨0, UInt32.ofNat n⟩ : Clock).ticks := hlt
      rw [hone] at hlt
      unfold Clock.ticks at hlt
      dsimp only at hlt
      have : (1 : UInt32).toNat = 1 := rfl
      have : (0 : UInt32).toNat = 0 := rfl
      omega
    have hfits₂ : Watch.Fits ⟨m.at ⟨1, UInt32.ofNat n⟩, false⟩ (.getSystemTime 0) := by
      refine ⟨trivial, trivial, fun hlt => ?_, trivial⟩
      have hlt : (tick ⟨1, UInt32.ofNat n⟩ 0).ticks < (⟨1, UInt32.ofNat n⟩ : Clock).ticks := hlt
      rw [hzero] at hlt
      unfold Clock.ticks at hlt
      dsimp only at hlt
      have : (1 : UInt32).toNat = 1 := rfl
      have : (0 : UInt32).toNat = 0 := rfl
      omega
    have hstep₁ : Watch.step 0x40 ⟨m.at ⟨0, UInt32.ofNat n⟩, false⟩ (.getSystemTime 1)
        ⟨m.at ⟨1, UInt32.ofNat n⟩, false⟩ := ⟨rfl, rfl⟩
    have hstep₂ : Watch.step 0x40 ⟨m.at ⟨1, UInt32.ofNat n⟩, false⟩ (.getSystemTime 0)
        ⟨m.at ⟨0, UInt32.ofNat (n + 1)⟩, false⟩ := by
      refine ⟨?_, rfl⟩
      exact congrArg (fun c => some (m.at c)) hzero
    exact ⟨events ++ [.getSystemTime 1] ++ [.getSystemTime 0],
      (hsteps.snoc ⟨hfits₁, hstep₁⟩).snoc ⟨hfits₂, hstep₂⟩⟩

/-- A step of the watched machine, where it fits. -/
def Watch.fittingStep (w : Watch) (e : Event) : Option Watch :=
  if w.Fits e then (w.machine.step 0x40 e).map fun m => ⟨m, w.served || decide e.HitsTarget⟩
  else none

/-- The clock has been looked at so often that it is in its last 2 ms when the first target
interrupt comes; the record is queued for the end of the next period, and an interrupt that is none
of the target's finds it so. -/
theorem fresh_at_the_end_of_time : ∃ w : Watch, w.machine.control = .idle ∧ w.served = true ∧
    (∃ l, w.machine.InOrder l) ∧ w.machine.now < w.machine.state.due 0 ∧
      w.machine.state.due 0 ≤ w.machine.now + kPeriod := by
  obtain ⟨m₀, hstart, -, -, -, hclock⟩ := started_inOrder blank
  obtain ⟨pre, hpre⟩ := counted m₀ (n := 2 ^ 32 - 1) (by omega)
  have hzero : m₀.at ⟨0, 0⟩ = m₀ := by
    rw [← hclock]
    rfl
  have hend : ((started blank).bind fun m =>
      runList Watch.fittingStep ⟨m.at ⟨0, UInt32.ofNat (2 ^ 32 - 1)⟩, false⟩
        [.getSystemTime 0xFFFFFFF0, .interrupt 0x800 0xFFFFFFF1, .turn 0xFFFFFFF2 0xFFFFFFF2 0,
          .turn 5 6 7, .interrupt 0 8]).map (fun w => (w.machine.control, w.served)) =
        some (.idle, true) := by
    decide +kernel
  obtain ⟨w, hw, hends⟩ := Option.map_eq_some_iff.mp hend
  obtain ⟨hcontrol, hserved⟩ := Prod.mk.inj hends
  rw [hstart, Option.bind_some] at hw
  obtain ⟨post, e, hpost⟩ : ∃ (post : List Event) (e : Event), e.InHandler ∧
      Steps (fun (w : Watch) e w' => w.Fits e ∧ w.step 0x40 e w')
        ⟨m₀.at ⟨0, UInt32.ofNat (2 ^ 32 - 1)⟩, false⟩ (post ++ [e]) w := by
    refine ⟨[.getSystemTime 0xFFFFFFF0, .interrupt 0x800 0xFFFFFFF1,
      .turn 0xFFFFFFF2 0xFFFFFFF2 0, .turn 5 6 7], .interrupt 0 8, trivial,
      Steps.of_runList (fun w e w' hs => ?_) hw⟩
    unfold Watch.fittingStep at hs
    split at hs
    · next hfits =>
      obtain ⟨m', hm', rfl⟩ := Option.map_eq_some_iff.mp hs
      exact ⟨hfits, hm', rfl⟩
    · cases hs
  rw [hzero] at hpre
  have hrun := hpre.append hpost.2
  rw [← List.append_assoc] at hrun
  have hfresh := permanent_alarm_keeps_clock_fresh (by decide) hstart hrun
  exact ⟨w, hcontrol, hserved, hfresh.2 hpost.1 hcontrol⟩

/-- The first target interrupt, 100 us after the start, does not find the record due. -/
theorem first_interrupt_finds_it_not_due : ∃ (m₀ m : Machine) (e : Event),
    started blank = some m₀ ∧ m₀.step 0x40 e = some m ∧ e.HitsTarget ∧
      clockBefore m.state.clockSeen (m.state.alarms 0).deadline = true := by
  have hend : ((started blank).bind fun m => m.step 0x40 (.interrupt 0x800 3700)).map
      (fun m => clockBefore m.state.clockSeen (m.state.alarms 0).deadline) = some true := by
    decide +kernel
  obtain ⟨m, hm, hbefore⟩ := Option.map_eq_some_iff.mp hend
  obtain ⟨m₀, hstart, hstep⟩ := Option.bind_eq_some_iff.mp hm
  exact ⟨m₀, m, _, hstart, hstep, by decide, hbefore⟩

end PS2Bios.Threadman
