import PS2Bios.Threadman.AlarmQueue

/-!
# The alarm queue over every run

`Machine.InOrder m l` is the invariant of the machine: its queue is the list `l`, in order, and the
one record that may be in use off the queue is that whose callback is running.
`alarm_queue_stays_in_order` says that it holds after every run, and with it that no two queued
records have the same pair, as long as two things are left undone: nobody cancels the pair of the
permanent record, and no callback asks for more after its pair has been set anew.
-/

namespace PS2Bios.Threadman

open Intrusive Alarms

variable {s t : Alarms} {stamp : ℕ → ℕ} {stamps k : ℕ} {l out : List ℕ} {m m' : Machine}
  {delayExpired : UInt32}

/-- The record whose callback is running. -/
def Control.called : Control → List ℕ
  | .calling index => [index]
  | _ => []

/-- The queue of a machine is in order between two events, with the permanent alarm on it. -/
structure Machine.InOrder (m : Machine) (l : List ℕ) : Prop where
  ordered : Ordered m.state m.stamp m.stamps l m.control.called
  zero : 0 ∈ l

/-- No two queued records have the same callback and argument. -/
def Distinct (s : Alarms) (l : List ℕ) : Prop := ∀ j ∈ l, ∀ k ∈ l, s.SamePair j k → j = k

/-! ### What the calls do -/

/-- `addAlarm` refuses and changes nothing, or queues a record of the pool, for a pair that is not
queued. -/
theorem Ordered.addAlarm (h : Ordered s stamp stamps l out) (hz : 0 ∈ l) (delta : Clock)
    (callback arg : UInt32) (r : Readings) :
    (∃ code, code ≠ kOk ∧ s.addAlarm delta callback arg r = some (code, s)) ∨
      ∃ i l' t, i = s.allocateAlarm.1 ∧ s.addAlarm delta callback arg r = some (kOk, t) ∧
        Ordered t (Function.update stamp i stamps) (stamps + 1) l' out ∧ l'.Perm (i :: l) ∧
          i ∉ l ∧ (∀ k, k ≠ i → t.alarms k = s.alarms k) ∧
            (t.alarms i).callback = callback ∧ (t.alarms i).arg = arg ∧
              (∀ k ∈ l, ¬((s.alarms k).callback = callback ∧ (s.alarms k).arg = arg)) ∧
                t.clockSeen = ((s.readClock r.now).readClock r.low).clockSeen := by
  unfold Alarms.addAlarm
  obtain ⟨k, hk, hkn, -, -, hfind⟩ | ⟨hnew, hfind⟩ := h.queued.findAlarm h.length_lt callback arg
  · refine .inl ⟨kAlarmDuplicate, by decide, ?_⟩
    rw [hfind, Option.bind_some, if_pos hkn]
  rw [hfind, Option.bind_some, if_neg (not_not_intro rfl)]
  obtain ⟨i, hlt, hfree, halloc⟩ | halloc := s.allocateAlarm_cases
  swap
  · refine .inl ⟨kNoMemory, by decide, ?_⟩
    rw [halloc]
    rfl
  right
  have hnull : ¬(callback = 0 ∧ arg = 0) := by
    rintro ⟨rfl, rfl⟩
    exact hnew 0 hz ((h.null 0 h.zero).mpr rfl)
  have hin : i ∉ l ++ out := by
    rw [← h.inUse i hlt, hfree]
    exact Bool.false_ne_true
  obtain ⟨a, ha⟩ : ∃ a : Alarm, a =
      { s.alarms i with
        inUse := true, permanent := false
        deadline := clockAdd (s.readClock r.now).clockSeen (waitOf delta)
        callback := callback, arg := arg } := ⟨_, rfl⟩
  -- the record as it is when it is inserted
  obtain ⟨u, hu⟩ : ∃ u : Alarms, u = (s.readClock r.now).set i a := ⟨_, rfl⟩
  have hou : Ordered u stamp stamps l (i :: out) := by
    have hread : Ordered (s.readClock r.now) stamp stamps l out := h.congr rfl rfl rfl
    rw [hu]
    exact hread.allocate hlt hfree (by rw [ha]) (by rw [ha]) (by rw [ha]; exact hnull)
  have hself : u.alarms i = a := by
    rw [hu]
    exact Function.update_self _ _ _
  obtain ⟨l', v, hinsert, hov, hperm, halarms, hclock, -⟩ := hou.insert
  have hne : l' ≠ [] := List.ne_nil_of_mem (hperm.mem_iff.mpr List.mem_cons_self)
  obtain ⟨w, harm⟩ := hov.queued.armTimer hov.length_lt hne r.low r.again
  have hset : ((s.set i { s.alarms i with inUse := true, permanent := false }).readClock r.now).set
      i a = u := by
    rw [hu]
    unfold Alarms.set readClock
    dsimp only
    rw [Function.update_idem]
  have hread : (s.set i { s.alarms i with inUse := true, permanent := false }).alarms i =
      { s.alarms i with inUse := true, permanent := false } := Function.update_self _ _ _
  have hin' : i ≠ kAlarmNone := by
    unfold kAlarms at hlt
    unfold kAlarmNone
    omega
  refine ⟨i, l', { v.readClock r.low with compare := w }, by rw [halloc], ?_,
    hov.congr rfl rfl rfl, hperm, fun hm => hin (List.mem_append_left out hm), fun k hk => ?_,
      ?_, ?_, hnew, ?_⟩
  · rw [halloc]
    dsimp only
    rw [if_neg hin']
    have hrecord : ((s.set i { s.alarms i with inUse := true, permanent := false }).readClock
        r.now).alarms i = { s.alarms i with inUse := true, permanent := false } := hread
    rw [hrecord]
    have hseen : ((s.set i { s.alarms i with inUse := true, permanent := false }).readClock
        r.now).clockSeen = (s.readClock r.now).clockSeen := rfl
    rw [hseen]
    dsimp only
    rw [← ha, hset, hinsert, Option.bind_some, harm, Option.map_some]
  · change v.alarms k = s.alarms k
    rw [halarms, hu]
    exact Function.update_of_ne hk _ _
  · change (v.alarms i).callback = callback
    rw [halarms, hself, ha]
  · change (v.alarms i).arg = arg
    rw [halarms, hself, ha]
  · unfold readClock
    dsimp only
    rw [hclock, hu]
    rfl

/-- `removeAlarm` changes nothing, or takes a queued record of the pair off the queue and gives it
back. -/
theorem Ordered.removeAlarm (h : Ordered s stamp stamps l out) {callback arg : UInt32}
    (hnull : ¬(callback = 0 ∧ arg = 0)) :
    s.removeAlarm callback arg = some (kAlarmUnknown, s) ∨
      ∃ i t, s.removeAlarm callback arg = some (kOk, t) ∧ i ∈ l ∧ i ≠ 0 ∧
        Ordered t stamp stamps (l.erase i) out ∧ (∀ k, k ≠ i → t.alarms k = s.alarms k) ∧
          t.clockSeen = s.clockSeen := by
  unfold Alarms.removeAlarm
  obtain ⟨i, hi, hin, hcallback, harg, hfind⟩ | ⟨-, hfind⟩ :=
    h.queued.findAlarm h.length_lt callback arg
  swap
  · rw [hfind]
    exact .inl rfl
  right
  have hi0 : i ≠ 0 := by
    rintro rfl
    exact hnull (hcallback ▸ harg ▸ (h.null 0 h.zero).mpr rfl)
  have hout := (h.unlink hi).release (a := { (s.unlinkAlarm i).alarms i with inUse := false })
    hi0 rfl
  refine ⟨i, _, by rw [hfind, Option.map_some, if_neg hin], hi, hi0, hout, fun k hk => ?_, ?_⟩
  · rw [s.unlinkAlarm_eq i 0]
    exact Function.update_of_ne hk _ _
  · rw [s.unlinkAlarm_eq i 0]
    rfl

/-! ### What the handler does -/

/-- A counter period later. -/
def aPeriodOn (a : Alarm) : Alarm :=
  { a with deadline := { a.deadline with hi := a.deadline.hi + 1 } }

namespace Machine.InOrder

/-- A turn ends the handler when the head is not due, puts a due permanent record a period on, and
takes any other due record off to call it. -/
theorem turn (h : m.InOrder l) (hw : m.control = .walking) (now low again : UInt32) :
    ∃ j tail, l = j :: tail ∧
      ((clockBefore (m.state.readClock now).clockSeen (m.state.alarms j).deadline = true ∧
        ∃ v, m.turn now low again = some
          { m with
            state := { (m.state.readClock now).readClock low with compare := v }
            control := .idle }) ∨
      (clockBefore (m.state.readClock now).clockSeen (m.state.alarms j).deadline = false ∧ j = 0 ∧
        ∃ l' t, m.turn now low again = some (m.inserted 0 t) ∧
          Ordered t (Function.update m.stamp 0 m.stamps) (m.stamps + 1) l' [] ∧ l'.Perm l ∧
            t.alarms = Function.update m.state.alarms 0 (aPeriodOn (m.state.alarms 0)) ∧
              t.clockSeen = (m.state.readClock now).clockSeen) ∨
      (clockBefore (m.state.readClock now).clockSeen (m.state.alarms j).deadline = false ∧ j ≠ 0 ∧
        ∃ t, m.turn now low again = some { m with state := t, control := .calling j } ∧
          Ordered t m.stamp m.stamps tail [j] ∧ t.alarms = m.state.alarms ∧
            t.clockSeen = (m.state.readClock now).clockSeen)) := by
  obtain ⟨state, control, stamp, stamps⟩ := m
  obtain rfl : control = .walking := hw
  obtain ⟨ho, hz⟩ := h
  dsimp only [Control.called] at ho
  dsimp only
  cases l with
  | nil => exact absurd hz List.not_mem_nil
  | cons j tail =>
    refine ⟨j, tail, rfl, ?_⟩
    have hhead : state.alarmHead = j := ho.queued.alarmHead_eq
    have hjn : j ≠ kAlarmNone := ho.ne_none List.mem_cons_self
    have hread : Ordered (state.readClock now) stamp stamps (j :: tail) [] := ho.congr rfl rfl rfl
    unfold Machine.turn
    dsimp only
    rw [hhead, if_neg hjn]
    have hrecord : (state.readClock now).alarms j = state.alarms j := rfl
    rw [hrecord]
    -- the first alarm is not due: the timer is armed for it and the walk ends
    by_cases hbefore : clockBefore (state.readClock now).clockSeen (state.alarms j).deadline = true
    · left
      obtain ⟨v, harm⟩ := hread.queued.armTimer hread.length_lt (List.cons_ne_nil j tail) low again
      refine ⟨hbefore, v, ?_⟩
      rw [if_pos hbefore, harm]
      rfl
    right
    have hdue := Bool.eq_false_iff.mpr hbefore
    rw [if_neg hbefore]
    have hou := hread.unlink (List.mem_cons_self (a := j) (l := tail))
    rw [List.erase_cons_head] at hou
    have hsame : ((state.readClock now).unlinkAlarm j).alarms = state.alarms := by
      rw [unlinkAlarm_eq _ j 0]
      rfl
    have hseen : ((state.readClock now).unlinkAlarm j).clockSeen =
        (state.readClock now).clockSeen := by
      rw [unlinkAlarm_eq _ j 0]
    have hperm := ho.permanent j (List.mem_append_left _ List.mem_cons_self)
    rw [hsame]
    -- it is due, and is the permanent one or another
    by_cases hj : j = 0
    · left
      subst hj
      rw [if_pos (hperm.mpr rfl)]
      have hdefer := hou.defer (aPeriodOn (state.alarms 0)).deadline
      rw [hsame] at hdefer
      obtain ⟨l', t, hinsert, hot, hperm', halarms, hclock, -⟩ := hdefer.insert
      refine ⟨hdue, rfl, l', t, ?_, hot, hperm', ?_, hclock.trans hseen⟩
      · exact congrArg _ hinsert
      · rw [halarms]
        unfold Alarms.set
        dsimp only
        rw [hsame]
        rfl
    · right
      rw [if_neg (mt hperm.mp hj)]
      exact ⟨hdue, hj, _, rfl, hou, hsame, hseen⟩

/-- What a callback answers: its record is given back, or queued again. -/
theorem returned (h : m.InOrder l) (hc : m.control = .calling k) (again : UInt32) :
    k ≠ 0 ∧ k ∉ l ∧
      ((again = 0 ∧ ∃ t, m.returned k again = some { m with state := t, control := .walking } ∧
        Ordered t m.stamp m.stamps l [] ∧ (∀ j, j ≠ k → t.alarms j = m.state.alarms j) ∧
          t.clockSeen = m.state.clockSeen) ∨
      (again ≠ 0 ∧ ∃ l' t, m.returned k again =
          some { m.inserted k t with control := .walking } ∧
        Ordered t (Function.update m.stamp k m.stamps) (m.stamps + 1) l' [] ∧ l'.Perm (k :: l) ∧
          t.alarms = Function.update m.state.alarms k
            { m.state.alarms k with
              deadline := clockAdd (m.state.alarms k).deadline (more again) } ∧
            t.clockSeen = m.state.clockSeen)) := by
  obtain ⟨state, control, stamp, stamps⟩ := m
  obtain rfl : control = .calling k := hc
  obtain ⟨ho, hz⟩ := h
  dsimp only [Control.called] at ho
  dsimp only
  have hkl : k ∉ l := fun hm =>
    (List.nodup_append.mp ho.nodup).2.2 k hm k List.mem_cons_self rfl
  have hk : k ≠ 0 := fun heq => hkl (heq ▸ hz)
  refine ⟨hk, hkl, ?_⟩
  unfold Machine.returned
  dsimp only
  by_cases hagain : again = 0
  · left
    rw [if_pos hagain]
    exact ⟨hagain, _, rfl, ho.release hk rfl, fun j hj => Function.update_of_ne hj _ _, rfl⟩
  · right
    rw [if_neg hagain]
    obtain ⟨l', t, hinsert, hot, hperm, halarms, hclock, -⟩ :=
      (ho.defer (clockAdd (state.alarms k).deadline (more again))).insert
    refine ⟨hagain, l', t, ?_, hot, hperm, halarms, hclock⟩
    rw [hinsert]
    rfl

end Machine.InOrder

/-! ### One event -/

/-- Fewer alarms are distinct too. -/
theorem Distinct.of_subset {l' : List ℕ} (h : Distinct s l) (hsub : ∀ k ∈ l', k ∈ l)
    (hsame : ∀ k ∈ l', t.alarms k = s.alarms k) : Distinct t l' := by
  intro j hj k hk hp
  refine h j (hsub j hj) k (hsub k hk) ?_
  unfold SamePair at hp ⊢
  rwa [hsame j hj, hsame k hk] at hp

/-- Queueing a record whose pair no queued record has. -/
theorem Distinct.insert {l' : List ℕ} (h : Distinct s l) (hperm : l'.Perm (k :: l))
    (hsame : ∀ j ∈ l, t.alarms j = s.alarms j) (hnew : ∀ j ∈ l, ¬t.SamePair j k) :
    Distinct t l' := by
  intro i hi j hj hp
  rcases List.mem_cons.mp (hperm.mem_iff.mp hi) with rfl | hil
  · rcases List.mem_cons.mp (hperm.mem_iff.mp hj) with rfl | hjl
    · rfl
    · exact absurd ⟨hp.1.symm, hp.2.symm⟩ (hnew j hjl)
  · rcases List.mem_cons.mp (hperm.mem_iff.mp hj) with rfl | hjl
    · exact absurd hp (hnew i hil)
    · exact h.of_subset (fun _ hk => hk) hsame i hil j hjl hp

namespace Machine.InOrder

/-- An alarm is set, or refused. -/
theorem add (h : m.InOrder l) (delta : Clock) (callback arg : UInt32) (r : Readings) :
    ∃ answer l', m.state.addAlarm delta callback arg r = some answer ∧
      (m.added answer).InOrder l' ∧ (m.added answer).control = m.control ∧
        (m.added answer).state.alarms 0 = m.state.alarms 0 ∧
          (Distinct m.state l → Distinct (m.added answer).state l') ∧
            ((m.added answer).state.clockSeen = m.state.clockSeen ∨
              (m.added answer).state.clockSeen =
                ((m.state.readClock r.now).readClock r.low).clockSeen) := by
  obtain ⟨ho, hz⟩ := h
  obtain ⟨code, hcode, hanswer⟩ | ⟨i, l', t, hi, hanswer, hot, hperm, hil, hkeep, hcallback, harg,
    hnew, hclock⟩ := ho.addAlarm hz delta callback arg r
  · refine ⟨_, l, hanswer, ?_⟩
    have hsame : m.added (code, m.state) = m := if_neg hcode
    rw [hsame]
    exact ⟨⟨ho, hz⟩, rfl, rfl, id, .inl rfl⟩
  · refine ⟨_, l', hanswer, ?_⟩
    have hadded : m.added (kOk, t) = m.inserted i t := by
      rw [hi]
      exact if_pos rfl
    have hi0 : (0 : ℕ) ≠ i := fun heq => hil (heq ▸ hz)
    rw [hadded]
    refine ⟨⟨hot, hperm.mem_iff.mpr (List.mem_cons_of_mem i hz)⟩, rfl, hkeep 0 hi0,
      fun hd => ?_, .inr hclock⟩
    have hsame : ∀ j ∈ l, t.alarms j = m.state.alarms j :=
      fun j hj => hkeep j (ne_of_mem_of_not_mem hj hil)
    refine hd.insert hperm hsame fun j hj hp => hnew j hj ?_
    have hp : t.SamePair j i := hp
    unfold SamePair at hp
    rw [hsame j hj, hcallback, harg] at hp
    exact hp

/-- An alarm is cancelled, or none is found. -/
theorem remove (h : m.InOrder l) (callback arg : UInt32) (hnull : ¬(callback = 0 ∧ arg = 0)) :
    ∃ answer l', m.state.removeAlarm callback arg = some answer ∧
      Machine.InOrder { m with state := answer.2 } l' ∧ answer.2.alarms 0 = m.state.alarms 0 ∧
        (Distinct m.state l → Distinct answer.2 l') ∧
          answer.2.clockSeen = m.state.clockSeen := by
  obtain ⟨ho, hz⟩ := h
  obtain hanswer | ⟨i, t, hanswer, hi, hi0, hot, hkeep, hclock⟩ := ho.removeAlarm hnull
  · exact ⟨_, l, hanswer, ⟨ho, hz⟩, rfl, id, rfl⟩
  · refine ⟨_, l.erase i, hanswer, ⟨hot, (List.mem_erase_of_ne hi0.symm).mpr hz⟩,
      hkeep 0 hi0.symm, fun hd => ?_, hclock⟩
    refine hd.of_subset (fun k hk => List.mem_of_mem_erase hk) fun k hk => hkeep k ?_
    exact ((List.Nodup.mem_erase_iff ho.queued.nodup).mp hk).1

end Machine.InOrder

/-- An event that comes where the handler is. -/
def Machine.Enabled (m : Machine) : Event → Prop
  | .interrupt _ _ => m.control = .idle
  | .turn _ _ _ => m.control = .walking
  | .returned _ => ∃ k, m.control = .calling k
  | _ => True

/-- Nobody cancels the pair of the permanent record. -/
def Event.SparesPermanent : Event → Prop
  | .cancelAlarm iForm context callback arg => context = iForm → ¬(callback = 0 ∧ arg = 0)
  | _ => True

instance (e : Event) : Decidable e.SparesPermanent :=
  match e with
  | .cancelAlarm _ _ _ _ => inferInstanceAs (Decidable (_ → ¬(_ ∧ _)))
  | .setAlarm .. | .delayThread .. | .cancelDelay .. | .getSystemTime .. | .interrupt ..
  | .turn .. | .returned .. => inferInstanceAs (Decidable True)

/-- The record may be queued again: no queued one has its pair. -/
def Machine.Alone (m : Machine) : Control → Prop
  | .calling k =>
    m.state.findAlarm (m.state.alarms k).callback (m.state.alarms k).arg = some kAlarmNone
  | _ => True

instance (m : Machine) (c : Control) : Decidable (m.Alone c) :=
  match c with
  | .calling _ => inferInstanceAs (Decidable (_ = _))
  | .idle | .walking => inferInstanceAs (Decidable True)

/-- No callback asks for more while its pair is queued anew. -/
def Machine.AsksAlone (m : Machine) : Event → Prop
  | .returned again => again ≠ 0 → m.Alone m.control
  | _ => True

instance (m : Machine) (e : Event) : Decidable (m.AsksAlone e) :=
  match e with
  | .returned _ => inferInstanceAs (Decidable (_ → _))
  | .setAlarm .. | .cancelAlarm .. | .delayThread .. | .cancelDelay .. | .getSystemTime ..
  | .interrupt .. | .turn .. => inferInstanceAs (Decidable True)

/-- A new deadline changes no pair. -/
theorem samePair_update_deadline (a : ℕ → Alarm) (i : ℕ) (d : Clock) (j : ℕ) :
    (Function.update a i { a i with deadline := d } j).callback = (a j).callback ∧
      (Function.update a i { a i with deadline := d } j).arg = (a j).arg := by
  rcases eq_or_ne j i with rfl | hne
  · rw [Function.update_self]
    exact ⟨rfl, rfl⟩
  · rw [Function.update_of_ne hne]
    exact ⟨rfl, rfl⟩

/-- **One event** keeps the queue in order. -/
theorem Machine.InOrder.step (h : m.InOrder l) (hfun : delayExpired ≠ 0) {e : Event}
    (he : m.Enabled e) (hs : e.SparesPermanent) :
    ∃ m' l', m.step delayExpired e = some m' ∧ m'.InOrder l' ∧
      (Distinct m.state l → m.AsksAlone e → Distinct m'.state l') := by
  cases e with
  -- the calls: what `add` and `remove` leave is in order
  | setAlarm interrupt context clock callback arg r =>
    unfold Machine.step Alarms.setAlarm
    dsimp only
    by_cases hcontext : context != interrupt
    · rw [if_pos hcontext]
      exact ⟨m, l, rfl, h, fun hd _ => hd⟩
    · rw [if_neg hcontext]
      obtain ⟨answer, l', hanswer, hin, -, -, hd, -⟩ := h.add clock callback arg r
      exact ⟨_, l', by rw [hanswer]; rfl, hin, fun hdist _ => hd hdist⟩
  | cancelAlarm interrupt context callback arg =>
    unfold Machine.step Alarms.cancelAlarm
    dsimp only
    by_cases hcontext : context != interrupt
    · rw [if_pos hcontext]
      exact ⟨m, l, rfl, h, fun hd _ => hd⟩
    · rw [if_neg hcontext]
      obtain ⟨answer, l', hanswer, hin, -, hd, -⟩ :=
        h.remove callback arg (hs (by simpa using hcontext))
      exact ⟨_, l', by rw [hanswer]; rfl, hin, fun hdist _ => hd hdist⟩
  | delayThread context usec thread r =>
    unfold Machine.step Alarms.delayThread
    dsimp only
    cases context with
    | true => exact ⟨m, l, rfl, h, fun hd _ => hd⟩
    | false =>
      obtain ⟨answer, l', hanswer, hin, -, -, hd, -⟩ :=
        h.add (usecToSysClock usec) delayExpired thread r
      refine ⟨_, l', ?_, hin, fun hdist _ => hd hdist⟩
      rw [if_neg Bool.false_ne_true, hanswer]
      rfl
  | cancelDelay thread =>
    obtain ⟨answer, l', hanswer, hin, -, hd, -⟩ :=
      h.remove delayExpired thread fun hp => hfun hp.1
    refine ⟨_, l', ?_, hin, fun hdist _ => hd hdist⟩
    unfold Machine.step Alarms.cancelDelay
    dsimp only
    rw [hanswer]
    rfl
  | getSystemTime low =>
    exact ⟨_, l, rfl, ⟨h.ordered.congr rfl rfl rfl, h.zero⟩, fun hd _ => hd⟩
  -- the interrupt starts the walk, with the queue as it was
  | interrupt status low =>
    have hidle : m.control = .idle := he
    refine ⟨m.interrupt status low, l, ?_, ⟨?_, h.zero⟩, fun hd _ => hd⟩
    · unfold Machine.step
      rw [hidle]
    · have ho := h.ordered
      rw [hidle] at ho
      have hcalled : (m.interrupt status low).control.called = [] := by
        unfold Machine.interrupt
        dsimp only
        split <;> rfl
      rw [hcalled]
      exact ho.congr rfl rfl rfl
  -- a turn ends the walk, puts the permanent alarm in again, or takes the first one out to be
  -- called
  | turn now low again =>
    have hwalking : m.control = .walking := he
    have hstep : m.step delayExpired (.turn now low again) = m.turn now low again := by
      unfold Machine.step
      rw [hwalking]
    rw [hstep]
    obtain ⟨j, tail, rfl, ⟨-, v, hturn⟩ | ⟨-, rfl, l', t, hturn, hot, hperm, halarms, -⟩ |
      ⟨-, hj, t, hturn, hot, halarms, -⟩⟩ := h.turn hwalking now low again
    · have ho := h.ordered
      rw [hwalking] at ho
      exact ⟨_, j :: tail, hturn, ⟨ho.congr rfl rfl rfl, h.zero⟩, fun hd _ => hd⟩
    · refine ⟨_, l', hturn, ⟨?_, hperm.mem_iff.mpr h.zero⟩, fun hd _ => ?_⟩
      · have hcalled : (m.inserted 0 t).control.called = [] := by
          unfold Machine.inserted
          dsimp only
          rw [hwalking]
          rfl
        rw [hcalled]
        exact hot
      · intro i hi k hk hp
        refine hd i (hperm.mem_iff.mp hi) k (hperm.mem_iff.mp hk) ?_
        have hp : t.SamePair i k := hp
        unfold SamePair at hp ⊢
        rw [halarms] at hp
        obtain ⟨hic, hia⟩ := samePair_update_deadline m.state.alarms 0
          (aPeriodOn (m.state.alarms 0)).deadline i
        obtain ⟨hkc, hka⟩ := samePair_update_deadline m.state.alarms 0
          (aPeriodOn (m.state.alarms 0)).deadline k
        exact ⟨hic.symm.trans (hp.1.trans hkc), hia.symm.trans (hp.2.trans hka)⟩
    · refine ⟨_, tail, hturn, ⟨hot, ?_⟩, fun hd _ => ?_⟩
      · exact (List.mem_cons.mp h.zero).resolve_left hj.symm
      · exact hd.of_subset (fun k hk => List.mem_cons_of_mem j hk) fun k _ => congrFun halarms k
  -- an alarm that has been called is given back, or goes in again a period later
  | returned again =>
    obtain ⟨k, hcalling⟩ := he
    have hstep : m.step delayExpired (.returned again) = m.returned k again := by
      unfold Machine.step
      rw [hcalling]
    rw [hstep]
    obtain ⟨hk, hkl, ⟨-, t, hreturned, hot, hkeep, -⟩ |
      ⟨hagain, l', t, hreturned, hot, hperm, halarms, -⟩⟩ := h.returned hcalling again
    · refine ⟨_, l, hreturned, ⟨hot, h.zero⟩, fun hd _ => ?_⟩
      exact hd.of_subset (fun k hk => hk) fun j hj => hkeep j (ne_of_mem_of_not_mem hj hkl)
    · refine ⟨_, l', hreturned, ⟨hot, hperm.mem_iff.mpr (List.mem_cons_of_mem k h.zero)⟩,
        fun hd halone => ?_⟩
      -- nobody has asked for the same pair meanwhile
      have hnone : m.Alone m.control := halone hagain
      rw [hcalling] at hnone
      have hsame : ∀ j ∈ l, t.alarms j = m.state.alarms j := by
        intro j hj
        rw [halarms]
        exact Function.update_of_ne (ne_of_mem_of_not_mem hj hkl) _ _
      refine hd.insert (t := t) hperm hsame fun j hj hp => ?_
      obtain ⟨i, -, hin, -, -, hfind⟩ | ⟨hnew, -⟩ := h.ordered.queued.findAlarm
        h.ordered.length_lt (m.state.alarms k).callback (m.state.alarms k).arg
      · exact hin (Option.some.inj (hfind.symm.trans hnone))
      · refine hnew j hj ?_
        obtain ⟨hkc, hka⟩ := samePair_update_deadline m.state.alarms k
          (clockAdd (m.state.alarms k).deadline (more again)) k
        unfold SamePair at hp
        rw [hsame j hj, halarms] at hp
        exact ⟨hp.1.trans hkc, hp.2.trans hka⟩

/-- What is not enabled does not happen. -/
theorem Machine.enabled_of_step {e : Event} (hs : m.step delayExpired e = some m') :
    m.Enabled e := by
  cases e with
  | interrupt status low =>
    unfold Machine.step at hs
    unfold Machine.Enabled
    cases hc : m.control <;> simp_all
  | turn now low again =>
    unfold Machine.step at hs
    unfold Machine.Enabled
    cases hc : m.control <;> simp_all
  | returned again =>
    unfold Machine.step at hs
    unfold Machine.Enabled
    cases hc : m.control <;> simp_all
  | setAlarm | cancelAlarm | delayThread | cancelDelay | getSystemTime => trivial

/-- The machine starts with the permanent record alone on the queue. -/
theorem started_inOrder (s : Alarms) :
    ∃ m, started s = some m ∧ m.InOrder [0] ∧ m.control = .idle ∧
      (m.state.alarms 0).deadline = seed ∧ m.state.clockSeen = ⟨0, 0⟩ := by
  have hfirst : s.cleared.allocateAlarm =
      (0, s.cleared.set 0 { s.cleared.alarms 0 with inUse := true, permanent := false }) := rfl
  obtain ⟨u, hu⟩ : ∃ u : Alarms, u =
      (s.cleared.set 0 { s.cleared.alarms 0 with inUse := true, permanent := false }).set 0
        ⟨seed, 0, 0, true, true⟩ := ⟨_, rfl⟩
  have hqueue : u.Queued [] := by
    rw [hu]
    exact isQueue_empty _
  have hrecord : u.alarms 0 = ⟨seed, 0, 0, true, true⟩ := by
    rw [hu]
    unfold Alarms.set
    dsimp only
    rw [Function.update_self]
  have hzero : (0 : ℕ) ≠ kAlarmNone := by decide
  obtain ⟨l₁, l₂, t, hnil, hinsert, hqueued, -, -, halarms, hclock, -⟩ :=
    hqueue.insertAlarm (by decide) List.Pairwise.nil List.not_mem_nil hzero
  obtain ⟨rfl, rfl⟩ := List.append_eq_nil_iff.mp hnil.symm
  have hstart : s.startClock = some { t with compare := ticksGranularity } := by
    unfold startClock
    rw [hfirst]
    dsimp only
    rw [hu] at hinsert
    exact congrArg (Option.map fun s => { s with compare := ticksGranularity }) hinsert
  have hmem : ∀ k, k ∈ [0] ++ ([] : List ℕ) ↔ k = 0 := fun k => by simp
  refine ⟨⟨{ t with compare := ticksGranularity }, .idle, fun _ => 0, 1⟩, ?_, ⟨?_, by simp⟩, rfl,
    ?_, ?_⟩
  · unfold started
    rw [hstart]
    rfl
  · obtain ⟨alarms, links, alarmHead, clockSeen, compare⟩ := t
    obtain rfl : alarms = u.alarms := halarms
    refine
      { queued := hqueued
        nodup := by simp [Control.called]
        lt := fun k hk => ?_
        inUse := fun k hk => ?_
        sorted := List.pairwise_singleton _ _
        stamped := fun k hk => Nat.zero_lt_one
        zero := by simp
        permanent := fun k hk => ?_
        null := fun k hk => ?_ }
    · rw [(hmem k).mp hk]
      decide
    · dsimp only [Control.called]
      rw [hmem]
      rcases eq_or_ne k 0 with rfl | hne
      · rw [hrecord]
        exact iff_of_true rfl rfl
      · have hfree : u.alarms k = { s.alarms k with inUse := false } := by
          rw [hu]
          unfold Alarms.set cleared
          dsimp only
          rw [Function.update_of_ne hne, Function.update_of_ne hne, if_pos hk]
        rw [hfree]
        exact iff_of_false Bool.false_ne_true hne
    · obtain rfl := (hmem k).mp hk
      dsimp only
      rw [hrecord]
      exact iff_of_true rfl rfl
    · obtain rfl := (hmem k).mp hk
      dsimp only
      rw [hrecord]
      exact iff_of_true ⟨rfl, rfl⟩ rfl
  · dsimp only
    rw [halarms, hrecord]
  · dsimp only
    rw [hclock, hu]
    rfl

theorem Distinct.singleton (s : Alarms) (k : ℕ) : Distinct s [k] := by
  intro i hi j hj _
  rw [List.mem_singleton] at hi hj
  rw [hi, hj]

/-! ### Every run -/

/-- **The alarm queue stays in order**: after any run in which nobody cancels the pair of the
permanent record and no callback asks for more while its pair is queued anew, the queue is sorted
by deadline and then by insertion, the records in use are those on it, once each, and the one whose
callback is running, no two queued records have the same pair, and the permanent record is queued.
Every call and every stretch of the handler ends. -/
theorem alarm_queue_stays_in_order (hfun : delayExpired ≠ 0) {m₀ : Machine}
    (hstart : started s = some m₀) {events : List Event}
    (hrun : Steps (fun m e m' => m.step delayExpired e = some m' ∧ e.SparesPermanent ∧
      m.AsksAlone e) m₀ events m) :
    (∃ l, m.InOrder l ∧ Distinct m.state l) ∧
      ∀ e, m.Enabled e → e.SparesPermanent → ∃ m', m.step delayExpired e = some m' := by
  have hinv : ∃ l, m.InOrder l ∧ Distinct m.state l := by
    refine hrun.invariant (I := fun m => ∃ l, m.InOrder l ∧ Distinct m.state l) ?_ ?_
    · rintro m e m' ⟨l, h, hd⟩ ⟨hstep, hspares, hasks⟩
      obtain ⟨m'', l', hstep', h', hd'⟩ := h.step hfun (Machine.enabled_of_step hstep) hspares
      obtain rfl := Option.some.inj (hstep.symm.trans hstep')
      exact ⟨l', h', hd' hd hasks⟩
    · obtain ⟨m₁, hm₁, h, -⟩ := started_inOrder s
      obtain rfl := Option.some.inj (hstart.symm.trans hm₁)
      exact ⟨[0], h, Distinct.singleton _ 0⟩
  refine ⟨hinv, fun e he hspares => ?_⟩
  obtain ⟨l, h, -⟩ := hinv
  obtain ⟨m', -, hstep, -⟩ := h.step hfun he hspares
  exact ⟨m', hstep⟩

/-- Memory as the loader leaves it. -/
def blank : Alarms :=
  ⟨fun _ => ⟨⟨0, 0⟩, 0, 0, false, false⟩, ⟨fun _ => 0, fun _ => 0⟩, kAlarmNone, ⟨0, 0⟩, 0⟩

/-- Two alarms are set for the same time, and the timer's interrupt calls both; the first asks for
more. -/
theorem alarm_queue_in_order_after_two : ∃ (m : Machine) (l : List ℕ), m.control = .idle ∧
    m.InOrder l ∧ Distinct m.state l := by
  have hend : ((started blank).bind fun m => runList (fun (m : Machine) (e : Event) =>
      if e.SparesPermanent ∧ m.AsksAlone e then m.step 0x40 e else none) m
        [.setAlarm false false ⟨5000, 0⟩ 0x100 5 ⟨100, 110, 0⟩,
          .setAlarm false false ⟨4990, 0⟩ 0x100 6 ⟨110, 120, 0⟩, .interrupt 0x800 5200,
            .turn 5210 0 0, .returned 50, .turn 5220 0 0, .returned 0, .turn 5225 0 0,
              .returned 0, .turn 5230 5235 5240]).map (fun m => m.control) = some .idle := by
    decide +kernel
  obtain ⟨m, hm, hcontrol⟩ := Option.map_eq_some_iff.mp hend
  obtain ⟨m₀, hstart, hrun⟩ := Option.bind_eq_some_iff.mp hm
  obtain ⟨events, hsteps⟩ : ∃ events, Steps (fun m e m' => Machine.step 0x40 m e = some m' ∧
      e.SparesPermanent ∧ m.AsksAlone e) m₀ events m := by
    refine ⟨_, Steps.of_runList (fun m e m' hs => ?_) hrun⟩
    split at hs
    · next hcond => exact ⟨hs, hcond⟩
    · cases hs
  obtain ⟨⟨l, h, hd⟩, -⟩ := alarm_queue_stays_in_order (by decide) hstart hsteps
  exact ⟨m, l, hcontrol, h, hd⟩

/-- A callback sets its own pair anew and asks for more: it is queued twice. -/
theorem alarm_queued_twice : ∃ (m₀ m : Machine) (events : List Event),
    started blank = some m₀ ∧ Steps (fun m e m' => m.step 0x40 e = some m') m₀ events m ∧
      ¬∃ l, m.InOrder l ∧ Distinct m.state l := by
  have hend : ((started blank).bind fun m => runList (Machine.step 0x40) m
      [.setAlarm false false ⟨5000, 0⟩ 0x100 5 ⟨100, 110, 0⟩, .interrupt 0x800 5200,
        .turn 5210 0 0, .setAlarm true true ⟨5000, 0⟩ 0x100 5 ⟨5220, 5230, 0⟩,
          .returned 1]).map (fun m => (m.control, ((m.state.alarms 1).inUse,
            (m.state.alarms 1).callback, (m.state.alarms 1).arg), (m.state.alarms 2).inUse,
              (m.state.alarms 2).callback, (m.state.alarms 2).arg)) =
      some (.walking, (true, 0x100, 5), true, 0x100, 5) := by
    decide +kernel
  obtain ⟨m, hm, hwords⟩ := Option.map_eq_some_iff.mp hend
  obtain ⟨m₀, hstart, hrun⟩ := Option.bind_eq_some_iff.mp hm
  obtain ⟨hcontrol, ⟨hu₁, hc₁, ha₁⟩, hu₂, hc₂, ha₂⟩ : m.control = .walking ∧
      ((m.state.alarms 1).inUse = true ∧ (m.state.alarms 1).callback = 0x100 ∧
        (m.state.alarms 1).arg = 5) ∧ (m.state.alarms 2).inUse = true ∧
          (m.state.alarms 2).callback = 0x100 ∧ (m.state.alarms 2).arg = 5 := by
    simpa using hwords
  refine ⟨m₀, m, _, hstart, Steps.of_runList (fun _ _ _ hs => hs) hrun, ?_⟩
  rintro ⟨l, ⟨ho, -⟩, hd⟩
  rw [hcontrol] at ho
  have h₁ : 1 ∈ l := by simpa [Control.called] using (ho.inUse 1 (by decide)).mp hu₁
  have h₂ : 2 ∈ l := by simpa [Control.called] using (ho.inUse 2 (by decide)).mp hu₂
  have hsame : m.state.SamePair 1 2 := ⟨hc₁.trans hc₂.symm, ha₁.trans ha₂.symm⟩
  exact absurd (hd 1 h₁ 2 h₂ hsame) (by decide)

end PS2Bios.Threadman
