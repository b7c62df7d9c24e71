import PS2Bios.Threadman.Priorities

/-!
# Calls on objects

Objects are made and deleted, and threads wait on them. Deleting an object wakes all its waiters
without handing over to any, which is right only if none is better than the caller
(`Sched.NoBetter`). The loop of `setEventFlag` may trap at each waiter that it wakes, and goes on
from the next one, which has to be a waiter still (`Called.goOn`).
-/

namespace PS2Bios.Threadman

open Intrusive Sched

section Objects

variable {P : Permit} {s s' : Sched} {L L' : Lists} {out : List ℕ} {interrupt : Bool} {kind : Kind}
  {k : ℕ} {id : UInt32}

theorem Quiet.mayStop (hq : Quiet s s') (h : s.MayStop) : s'.MayStop :=
  ⟨by rw [hq.current]; exact h.1,
    h.2.imp fun j hj => ⟨hq.valid.mpr hj.1, (hq.state j).trans hj.2⟩⟩

/-- The first thread of a list of waiters waits. -/
theorem Sound.head_waits (h : Sound s L) (hon : s.isOn (.waiters kind k))
    (hhead : (s.queues (.waiters kind k)).head ≠ kNone) :
    s.Valid (s.queues (.waiters kind k)).head ∧
      s.belongs (s.queues (.waiters kind k)).head (.waiters kind k) := by
  rw [h.linked.head hon] at hhead ⊢
  cases hl : L (.waiters kind k) with
  | nil =>
    rw [hl] at hhead
    exact absurd rfl hhead
  | cons j l =>
    obtain ⟨-, hv, hb⟩ := (h.linked.mem_iff j _).mp (hl ▸ List.mem_cons_self)
    exact ⟨hv, hb⟩

/-! ### Objects made and deleted -/

/-- The pending thread waits on nothing. -/
theorem Sound.pending_not_waiting (h : Sound s L) : (s.threads s.pending).state ≠ .wait := fun hs =>
  h.ready_ne hs rfl

/-- A slot nobody waits at may be stored. -/
theorem Sound.setObjectSlot {slot : Slot} {r : Queue ℕ} {n : ℕ} (h : Sound s L)
    (hkind : kind ≠ .thread) (hempty : L (.waiters kind k) = [])
    (hnone : slot.inUse = false ∨ (s.pools kind k).inUse = false)
    (hnew : slot.inUse = true → r = ⟨kNone, kNone⟩ ∧ n = 0) :
    Sound (((s.setSlot kind k slot).setQueue (.waiters kind k) (s.links, r)).setCount kind k n)
      L := by
  have hvalid : ∀ j, (((s.setSlot kind k slot).setQueue (.waiters kind k) (s.links, r)).setCount
      kind k n).Valid j ↔ s.Valid j := fun j => by
    change j < kThreads ∧ ((s.pools.set kind k slot) .thread j).inUse = true ↔ _
    rw [Pools.set_apply, if_neg fun hc => hkind hc.1.symm]
    rfl
  refine ⟨h.linked.setObjectSlot hkind hempty ?_ hnone r n hnew, (hvalid _).mpr h.current,
    (hvalid _).mpr h.pending, h.settled, h.staged, fun j hj hs => h.running j ((hvalid j).mp hj) hs⟩
  intro j hj
  obtain rfl := List.mem_singleton.mp hj
  exact h.pending_not_waiting

/-- An object is made. -/
theorem Called.createObject {r : Except ℤ UInt32 × Pools} {fill : ℕ → Sched → Sched}
    (h : Called s L interrupt) (hkind : kind ≠ .thread) (hr : Creates kind s.pools r)
    (hfill : ∀ k s, Quiet s (fill k s)) (hP : ∀ k, P.remakes kind k) :
    ∃ L', Performed P s L interrupt (s.createObject kind r fill) L' := by
  rcases hr with ⟨code, rfl⟩ | ⟨k, hk, hfree, rfl⟩
  · exact h.refuses code
  · have hslot : slotOf (makeId k ((s.pools kind k).generation + 1)) = k :=
      slotOf_makeId (hk.trans_le (Kind.slots_le kind)) _
    have hoff : ¬ s.isOn (.waiters kind k) := fun hon =>
      Bool.false_ne_true (hfree.symm.trans hon.2.2)
    have hempty := h.sound.linked.family.off _ hoff
    rw [occupy, Sched.createObject, hslot]
    set s₁ := ((s.setSlot kind k ⟨true, (s.pools kind k).generation + 1⟩).setQueue
        (.waiters kind k) (s.links, ⟨kNone, kNone⟩)).setCount kind k 0
    have hmove : Move P s L s₁ L := .object hkind (hP k) hempty
    have hsound : Sound s₁ L :=
      h.sound.setObjectSlot hkind hempty (.inr hfree) fun _ => ⟨rfl, rfl⟩
    have hmade : Called _ L interrupt := ⟨hsound, h.poised, h.settled⟩
    obtain ⟨L', hout⟩ := hmade.returns (hfill k _)
      ((makeId k ((s.pools kind k).generation + 1)).toNat)
    exact ⟨L', (hmove.moves h.sound hsound).before hout⟩

/-- The waiters of an object are no better than the running thread. -/
def Sched.NoBetter (s : Sched) (p : Place) : Prop :=
  ∀ j, s.Valid j → s.belongs j p → s.priorityOf s.current ≤ s.priorityOf j

theorem Same.isOn (h : Same s s') (p : Place) : s'.isOn p ↔ s.isOn p := by
  cases p <;> simp [Sched.isOn, h.pools]

/-- A thread that has been woken does not wait, and the others wait where they did. -/
theorem woken_belongs {j : ℕ} {answer : ℤ} {index : ℕ}
    (h : (s.woken k answer).belongs j (.waiters kind index)) :
    s.belongs j (.waiters kind index) := by
  obtain ⟨hs, hobject⟩ := h
  rw [woken_threads] at hs hobject
  split at hs
  · cases hs
  · next hj =>
    rw [if_neg hj, waitObjectOf_eq, (same_woken s k answer).pools, ← waitObjectOf_eq] at hobject
    exact ⟨hs, hobject⟩

theorem Sched.NoBetter.woken {index : ℕ} (h : s.NoBetter (.waiters kind index)) (answer : ℤ) :
    (s.woken k answer).NoBetter (.waiters kind index) := fun j hj hb => by
  rw [woken_current, woken_priorityOf, woken_priorityOf]
  exact h j ((same_woken s k answer).valid.mp hj) (woken_belongs hb)

/-- **All waiters of an object are woken**, and stay in their queues. -/
theorem Called.wakeAll (hon : s.isOn (.waiters kind k)) (h : Called s L false)
    (hno : s.NoBetter (.waiters kind k)) (hP : ∀ j ∈ L (.waiters kind k), P.wakes j kWaitDelete)
    {n : ℕ} (hn : (L (.waiters kind k)).length < n) :
    ∃ s' L', wakeAll kind k n s = some s' ∧ Moves P s L s' L' ∧ Called s' L' false ∧
      L' (.waiters kind k) = [] := by
  induction n generalizing s L with
  | zero => exact absurd hn (Nat.not_lt_zero _)
  | succ n ih =>
    have hhead := h.sound.linked.head hon
    rw [Sched.wakeAll]
    cases hl : L (.waiters kind k) with
    | nil =>
      rw [hhead, hl]
      exact ⟨s, L, if_pos rfl, .refl h.sound, h, hl⟩
    | cons j l =>
      have hj : j ∈ L (.waiters kind k) := hl ▸ List.mem_cons_self
      obtain ⟨-, hv, hb⟩ := (h.sound.linked.mem_iff j _).mp hj
      obtain ⟨heq, hmove, hsound⟩ := h.sound.wake_worse h.poised hv hb.1 (hno j hv hb) (hP j hj)
      rw [hhead, hl, List.headD_cons, if_neg (ne_kNone_of_lt hv.1), heq]
      have hset := (woken_settled s j kWaitDelete).mpr (h.settled rfl)
      have hcalled : Called (s.woken j kWaitDelete) (Lists.wake s L j) false :=
        ⟨hsound, hset.poised, fun _ => hset⟩
      have hlist : Lists.wake s L j (.waiters kind k) = l := by
        rw [Lists.wake, Lists.append_apply, if_neg (by simp), Lists.leave, hb.2]
        dsimp only
        rw [Lists.remove_apply, if_pos rfl, hl, List.erase_cons_head]
      have hP' : ∀ i ∈ Lists.wake s L j (.waiters kind k), P.wakes i kWaitDelete := fun i hi =>
        hP i (hl ▸ List.mem_cons_of_mem j (hlist ▸ hi))
      have hlt : (Lists.wake s L j (.waiters kind k)).length < n := by
        rw [hlist]
        rw [hl] at hn
        exact Nat.lt_of_succ_lt_succ hn
      obtain ⟨s', L', hall, hmoves, hcalled', hempty⟩ :=
        ih (((same_woken s j kWaitDelete).isOn _).mpr hon) hcalled (hno.woken kWaitDelete) hP' hlt
      exact ⟨s', L', hall, (hmove.moves h.sound hsound).trans hmoves, hcalled', hempty⟩

/-- A number of moves leaves the object in place. -/
theorem isOn_of_lookup (hkind : kind ≠ .thread) (hfound : lookup kind s.pools id = some k) :
    s.isOn (.waiters kind k) := by
  obtain ⟨hk, hin, -⟩ := lookup_eq_some.mp hfound
  exact ⟨hkind, hk, hin⟩

/-- A deletion wakes every waiter and leaves the queues in order. -/
theorem Called.deleteObject {unknown : ℤ} (h : Called s L interrupt) (hkind : kind ≠ .thread)
    (hcareful : interrupt = false → ∀ k, lookup kind s.pools id = some k →
      s.NoBetter (.waiters kind k))
    (hP : ∀ k, lookup kind s.pools id = some k →
      P.remakes kind k ∧ ∀ j, s.belongs j (.waiters kind k) → P.wakes j kWaitDelete) :
    ∃ r L', s.deleteObject interrupt kind unknown id = some r ∧ Performed P s L interrupt r L' := by
  rw [Sched.deleteObject]
  cases interrupt with
  | true => exact h.refuses_some _
  | false =>
    rw [if_neg Bool.false_ne_true]
    cases hfound : lookup kind s.pools id with
    | none => exact h.refuses_some _
    | some k =>
      have hon := isOn_of_lookup hkind hfound
      have hlt : (L (.waiters kind k)).length < kQueueTurns :=
        Nat.lt_succ_of_le (h.sound.linked.length_le hon)
      obtain ⟨s', L', hall, hmoves, hcalled, hempty⟩ := h.wakeAll hon (hcareful rfl k hfound)
        (fun j hj => (hP k hfound).2 j ((h.sound.linked.mem_iff j _).mp hj).2.2) hlt
      set slot : Slot := { s'.pools kind k with inUse := false } with hslot
      have hgone : ({ s' with pools := vacate kind s'.pools k } : Sched) =
          ((s'.setSlot kind k slot).setQueue (.waiters kind k)
            (s'.links, s'.queues (.waiters kind k))).setCount kind k (s'.waiterCount kind k) := by
        simp [setQueue, setCount, setSlot, vacate, hslot]
      have hmove : Move P s' L' ({ s' with pools := vacate kind s'.pools k }) L' := by
        rw [hgone]
        exact .object hkind (hP k hfound).1 hempty
      have hsound : Sound ({ s' with pools := vacate kind s'.pools k }) L' := by
        rw [hgone]
        exact hcalled.sound.setObjectSlot hkind hempty (.inl rfl) fun h => by cases h
      have hset : ({ s' with pools := vacate kind s'.pools k } : Sched).Settled :=
        hcalled.settled rfl
      refine ⟨_, L', congrArg (Option.map _) hall, ?_⟩
      exact .of_returns (hmoves.trans (hmove.moves hcalled.sound hsound)) hset.poised
        (fun _ => hset) _

/-! ### Blocking on an object -/

/-- **The caller joins the waiters of an object.** -/
theorem Called.blockOn (h : Called s L false) (waitType : WaitType) (hready : s.MayStop)
    (hkind : waitType.kind = some kind) (hfound : lookup kind s.pools id = some k)
    {byPriority : Bool} (hP : P.joins kind k byPriority) :
    ∃ s' L' l₁ l₂, s.blockOn kind waitType k id byPriority = some (s', .traps .answer) ∧
      Performed P s L false (s', .traps .answer) L' ∧
      Joins s s.current byPriority (L (.waiters kind k)) l₁ l₂ ∧
      ∀ kind' k', L' (.waiters kind' k') =
        if kind' = kind ∧ k' = k then l₁ ++ s.current :: l₂ else L (.waiters kind' k') := by
  have hlinked := h.sound.linked
  rw [show s.pending = s.current from h.settled rfl] at hlinked
  have hobject : s.waitObjectOf { s.threads s.current with
      state := .wait, waitType := waitType, waitId := id } = some (kind, k) := by
    rw [waitObjectOf_eq, hkind, Option.bind_some, hfound]
    rfl
  obtain ⟨r, l₁, l₂, hqueue, hjoins, hjoined⟩ := hlinked.join byPriority
    (f := fun t => { t with state := .wait, waitType := waitType, waitId := id })
    List.not_mem_nil h.sound.current rfl hobject rfl rfl
  obtain ⟨L', hout, hlists⟩ := h.stops hready (.joins hkind hP hfound hjoins) hjoined .answer
  refine ⟨_, L', l₁, l₂, ?_, hout, hjoins, fun kind' k' => ?_⟩
  · rw [Sched.blockOn, hqueue]
    rfl
  · rw [hlists, Function.update_apply]
    simp

/-! ### Event flags -/

section Decisions

variable {s₁ : Sched} {L₁ : Lists}

/-- A decision about who runs next changes no object. -/
theorem Decides.same (h : Decides s L k interrupt s' L') : Same s s' := by
  cases h with
  | queued _ _ => exact Same.refl s
  | left _ _ _ => exact Same.refl s
  | handOff _ _ _ =>
    exact ((⟨rfl, rfl, rfl, rfl, rfl, rfl⟩ : Same s s.stepBack).trans
      (same_takeOffReady _ k)).trans (same_setPending _ k)
  | first _ _ _ =>
    exact ((same_makeReadyFirst s _).trans (same_takeOffReady _ k)).trans (same_setPending _ k)
  | replaces _ _ _ _ _ _ =>
    exact ((same_makeReady s _).trans (same_takeOffReady _ k)).trans (same_setPending _ k)

/-- A decision is no matter of who waits on what. -/
theorem Decides.waiters (h : Decides s L k interrupt s' L') (kind : Kind) (index : ℕ) :
    L' (.waiters kind index) = L (.waiters kind index) := by
  cases h with
  | queued _ _ => rfl
  | left _ _ _ => rfl
  | handOff _ _ _ => simp [Lists.remove_apply, Lists.append_apply]
  | first _ _ _ => simp [Lists.remove_apply, Lists.push_apply]
  | replaces _ _ _ _ _ _ => simp [Lists.remove_apply, Lists.append_apply]

end Decisions

/-- Who is made ready or staged waits for what it waited for. -/
theorem Decides.wanted (h : Decides s L k interrupt s' L') (j : ℕ) :
    (s'.threads j).waitBits = (s.threads j).waitBits ∧
      (s'.threads j).waitMode = (s.threads j).waitMode := by
  cases h with
  | queued _ _ => exact ⟨rfl, rfl⟩
  | left _ _ _ => exact ⟨rfl, rfl⟩
  | handOff _ _ _ =>
    rw [setPending_threads, takeOffReady_threads, stepBack_threads]
    split
    · next hj => simp [hj]
    · exact ⟨rfl, rfl⟩
  | first _ _ _ =>
    rw [setPending_threads, takeOffReady_threads, makeReadyFirst_threads]
    split
    · next hj => simp [hj]
    · exact ⟨rfl, rfl⟩
  | replaces _ _ _ _ _ _ =>
    rw [setPending_threads, takeOffReady_threads, makeReady_threads]
    split
    · next hj => simp [hj]
    · exact ⟨rfl, rfl⟩

/-- The bits that a satisfied waiter leaves. -/
theorem takeBits_bits (s : Sched) (k result : ℕ) (mode : UInt32) :
    ((s.takeBits k result mode).events k).bits =
      if mode &&& kWaitClear ≠ 0 then 0 else (s.events k).bits := by
  rw [takeBits]
  split
  · simp [setEvent]
  · rw [writeOut]
    split <;> rfl

theorem takeBits_threads (s : Sched) (k result : ℕ) (mode : UInt32) :
    (s.takeBits k result mode).threads = s.threads := by
  rw [takeBits, writeOut]
  split <;> split <;> rfl

/-- The list of waiters that a thread is woken from. -/
theorem wake_waiters {l₁ l₂ : List ℕ} (h : Linked s L out) {j : ℕ}
    (hl : L (.waiters kind k) = l₁ ++ j :: l₂) :
    Lists.wake s L j (.waiters kind k) = l₁ ++ l₂ := by
  have hj : j ∈ L (.waiters kind k) := hl ▸ List.mem_append_right _ List.mem_cons_self
  have hb := ((h.mem_iff j _).mp hj).2.2
  have hnodup := h.nodup (isOn_of_belongs hb)
  rw [Lists.wake, Lists.append_apply, if_neg (by simp), Lists.leave, hb.2]
  dsimp only
  rw [Lists.remove_apply, if_pos rfl, hl]
  rw [hl, List.nodup_append'] at hnodup
  have hbefore : j ∉ l₁ := fun hj => hnodup.2.2 hj List.mem_cons_self
  rw [List.erase_append_right _ hbefore, List.erase_cons_head]

/-- **The loop of `setEventFlag`**, from one of the waiters on. -/
theorem Called.setLoop (h : Called s L interrupt) (hon : s.isOn (.waiters .event k))
    (l₁ l₂ : List ℕ) (hl : L (.waiters .event k) = l₁ ++ l₂)
    (hP : ∀ j ∈ satisfiedBy s.threads (s.events k).bits l₂, P.wakes j kOk) {n : ℕ}
    (hn : l₂.length < n) :
    ∃ r L', Sched.setLoop interrupt k n (l₂.headD kNone) s = some r ∧
      Performed P s L interrupt r L' := by
  induction n generalizing s L l₁ l₂ with
  | zero => exact absurd hn (Nat.not_lt_zero _)
  | succ n ih =>
    rw [Sched.setLoop]
    cases l₂ with
    | nil =>
      obtain ⟨L', hout⟩ := h.refuses kOk
      exact ⟨_, L', if_pos rfl, hout⟩
    | cons j l =>
      have hj : j ∈ L (.waiters .event k) := hl ▸ List.mem_append_right _ List.mem_cons_self
      obtain ⟨-, hv, hb⟩ := (h.sound.linked.mem_iff j _).mp hj
      have hchain := (h.sound.linked.family.queue _ hon).chain
      rw [hl] at hchain
      have hnext : s.links.next j = l.headD kNone := hchain.behind.2.eq_headD
      have hlt : l.length < n := Nat.lt_of_succ_lt_succ hn
      rw [satisfiedBy] at hP
      rw [List.headD_cons, if_neg (ne_kNone_of_lt hv.1), hnext]
      dsimp only
      split
      · -- the waiter is woken
        next hsatisfied =>
        rw [if_pos hsatisfied] at hP
        have hwakes : P.wakes j kOk := hP j List.mem_cons_self
        obtain ⟨hmoves, hcalled⟩ := h.quiet (quiet_takeBits s k (s.threads j).waitOut
          (s.threads j).waitMode)
        set s₁ := s.takeBits k (s.threads j).waitOut (s.threads j).waitMode with hs₁
        have hq : Quiet s s₁ := quiet_takeBits s k _ _
        have hs : (s₁.threads j).state = .wait := (hq.state j).trans hb.1
        obtain ⟨L₂, hd, hsound, hthread, hhandler⟩ := hcalled.wake (hq.valid.mpr hv) hs kOk
        have hwoken : Moves P s L (s₁.wake j kOk interrupt).1 L₂ :=
          hmoves.trans ((Move.wake kOk (hq.valid.mpr hv) hs hwakes hd).moves hcalled.sound hsound)
        cases htrap : (s₁.wake j kOk interrupt).2 with
        | true =>
          rw [if_pos rfl]
          cases interrupt with
          | true => exact absurd (htrap.symm.trans (hhandler rfl).2) (by decide)
          | false =>
            have hset : ¬ (s₁.wake j kOk false).1.Settled := fun hset =>
              absurd (htrap.symm.trans ((hthread rfl).mpr hset)) (by decide)
            exact ⟨_, L₂, rfl, .of_traps hwoken rfl hset _⟩
        | false =>
          rw [if_neg Bool.false_ne_true]
          have hsettled : interrupt = false → (s₁.wake j kOk interrupt).1.Settled := fun hi =>
            (hthread hi).mp htrap
          have hpoised : (s₁.wake j kOk interrupt).1.Poised := by
            cases interrupt with
            | true => exact (hhandler rfl).1
            | false => exact (hsettled rfl).poised
          have hon' : (s₁.wake j kOk interrupt).1.isOn (.waiters .event k) :=
            (((same_woken s₁ j kOk).trans hd.same).isOn _).mpr ((hq.isOn _).mpr hon)
          have hl' : L₂ (.waiters .event k) = l₁ ++ l :=
            (hd.waiters .event k).trans (wake_waiters hcalled.sound.linked hl)
          have hwanted : ∀ i, ((s₁.wake j kOk interrupt).1.threads i).waitBits =
              (s.threads i).waitBits ∧ ((s₁.wake j kOk interrupt).1.threads i).waitMode =
                (s.threads i).waitMode := fun i => by
            obtain ⟨hbits, hmode⟩ := hd.wanted i
            rw [hbits, hmode, woken_threads, takeBits_threads]
            split
            · next hi => simp [hi]
            · exact ⟨rfl, rfl⟩
          have hevents : ((s₁.wake j kOk interrupt).1.events k).bits =
              if (s.threads j).waitMode &&& kWaitClear ≠ 0 then 0 else (s.events k).bits := by
            rw [((same_woken s₁ j kOk).trans hd.same).events, takeBits_bits]
          have hP' : ∀ i ∈ satisfiedBy (s₁.wake j kOk interrupt).1.threads
              ((s₁.wake j kOk interrupt).1.events k).bits l, P.wakes i kOk := fun i hi => by
            rw [hevents, satisfiedBy_congr _ l hwanted] at hi
            exact hP i (List.mem_cons_of_mem j hi)
          obtain ⟨r, L', hloop, hout⟩ := ih ⟨hsound, hpoised, hsettled⟩ hon' l₁ l hl' hP' hlt
          exact ⟨r, L', hloop, hwoken.before hout⟩
      · -- or left, and the next one is looked at
        next hno =>
        rw [if_neg hno] at hP
        rw [List.append_cons] at hl
        exact ih h hon _ l hl hP hlt

/-- Setting bits wakes who is satisfied and leaves the queues in order. -/
theorem Called.setEventFlag (h : Called s L interrupt) (id bits : UInt32)
    (hP : ∀ k l j, eventOf s.pools id = some k → s.belongs j (.waiters .event k) → bits ≠ 0 →
      IsQueue kNone s.links (s.queues (.waiters .event k)) l →
        j ∈ satisfiedBy s.threads ((s.events k).bits ||| bits) l → P.wakes j kOk) :
    ∃ r L', s.setEventFlag interrupt id bits = some r ∧ Performed P s L interrupt r L' := by
  rw [Sched.setEventFlag]
  cases hfound : eventOf s.pools id with
  | none => exact h.refuses_some _
  | some k =>
    dsimp only
    split
    · exact h.refuses_some _
    · next hbits =>
      have hon := isOn_of_lookup (by decide) hfound
      obtain ⟨hmoves, hcalled⟩ :=
        h.quiet (quiet_setEvent s k fun e => { e with bits := e.bits ||| bits })
      rw [hcalled.sound.linked.head (p := .waiters .event k) hon]
      have hset : (((s.setEvent k fun e => { e with bits := e.bits ||| bits }).events k).bits) =
          (s.events k).bits ||| bits := by simp [Sched.setEvent]
      obtain ⟨r, L', hloop, hout⟩ := hcalled.setLoop hon [] _ rfl
        (fun j hj => by
          rw [hset] at hj
          have hmem := mem_of_mem_satisfiedBy hj
          exact hP k _ j hfound ((h.sound.linked.mem_iff j _).mp hmem).2.2 hbits
            (h.sound.linked.family.queue _ hon) hj)
        (Nat.lt_succ_of_le (h.sound.linked.length_le hon))
      exact ⟨r, L', hloop, hmoves.before hout⟩

/-- The thread goes on with the loop at a waiter that still waits on the flag. -/
theorem Called.goOn {following : ℕ} (h : Called s L false)
    (hfollowing : following = kNone ∨
      s.Valid following ∧ s.belongs following (.waiters .event k))
    (hP : ∀ j, s.belongs j (.waiters .event k) → P.wakes j kOk) :
    ∃ r L', Sched.setLoop false k kQueueTurns following s = some r ∧
      Performed P s L false r L' := by
  rcases hfollowing with rfl | ⟨hv, hb⟩
  · obtain ⟨L', hout⟩ := h.refuses kOk
    exact ⟨_, L', rfl, hout⟩
  · have hne : following ≠ s.pending := h.sound.ready_ne hb.1
    have hmem : following ∈ L (.waiters .event k) :=
      (h.sound.linked.mem_iff following _).mpr ⟨by simpa using hne, hv, hb⟩
    obtain ⟨l₁, l₂, hl⟩ := List.append_of_mem hmem
    have hon := isOn_of_belongs hb
    have hlength := h.sound.linked.length_le hon
    have hlt : (following :: l₂).length < kQueueTurns := by
      refine Nat.lt_succ_of_le (le_trans ?_ hlength)
      rw [hl, List.length_append]
      exact Nat.le_add_left _ _
    refine h.setLoop hon l₁ _ hl (fun j hj => hP j ?_) hlt
    exact ((h.sound.linked.mem_iff j _).mp
      (hl ▸ List.mem_append_right _ (mem_of_mem_satisfiedBy hj))).2.2

/-- Clearing bits leaves the queues in order. -/
theorem Called.clearEventFlag (h : Called s L interrupt) (id keep : UInt32) :
    ∃ L', Performed P s L interrupt (s.clearEventFlag id keep) L' := by
  rw [Sched.clearEventFlag]
  cases eventOf s.pools id with
  | none => exact h.refuses _
  | some k => exact h.returns (quiet_setEvent s k _) _

/-- Whether a wait for a flag blocks. -/
def Sched.eventBlocks (s : Sched) (id bits mode : UInt32) (poll : Bool) : Prop :=
  mode &&& ~~~(kWaitOr ||| kWaitClear) = 0 ∧ bits ≠ 0 ∧ poll = false ∧
    ∃ k, eventOf s.pools id = some k ∧
      ¬((s.events k).attr &&& kEventMulti = 0 ∧ s.waiterCount .event k ≠ 0) ∧
      eventSatisfied (s.events k).bits bits mode = false

/-- A call that blocks the caller needs another thread that is ready. -/
theorem Called.waitEventFlag (h : Called s L interrupt) (id bits mode : UInt32) (result : ℕ)
    (poll : Bool)
    (hready : interrupt = false → s.eventBlocks id bits mode poll → s.MayStop)
    (hP : ∀ k, eventOf s.pools id = some k → P.joins .event k false) :
    ∃ r L', s.waitEventFlag interrupt id bits mode result poll = some r ∧
      Performed P s L interrupt r L' := by
  rw [Sched.waitEventFlag]
  cases interrupt with
  | true => exact h.refuses_some _
  | false =>
    rw [if_neg Bool.false_ne_true]
    split
    · exact h.refuses_some _
    · next hmode =>
      split
      · exact h.refuses_some _
      · next hbits =>
        cases hfound : eventOf s.pools id with
        | none => exact h.refuses_some _
        | some k =>
          dsimp only
          split
          · exact h.refuses_some _
          · next hmulti =>
            split
            · exact ⟨_, _, rfl, (h.returns (quiet_takeBits s k result mode) kOk).choose_spec⟩
            · next hno =>
              split
              · exact h.refuses_some _
              · next hpoll =>
                have hblocks : s.eventBlocks id bits mode poll :=
                  ⟨not_not.mp hmode, hbits, Bool.eq_false_iff.mpr hpoll, k, hfound, hmulti,
                    Bool.eq_false_iff.mpr hno⟩
                have hq : Quiet s (s.setThread s.current fun t =>
                    { t with waitBits := bits, waitMode := mode, waitOut := result }) :=
                  quiet_setThread s _ fun _ => ⟨rfl, rfl, rfl, rfl, rfl, rfl⟩
                obtain ⟨hmoves, hcalled⟩ := h.quiet hq
                obtain ⟨s', L', -, -, hr, hout, -⟩ := hcalled.blockOn .onEvent
                  (hq.mayStop (hready rfl hblocks)) rfl hfound (hP k hfound)
                exact ⟨_, L', hr, hmoves.before hout⟩

/-! ### Semaphores -/

/-- A signal wakes one waiter at most and leaves the queues in order. -/
theorem Called.signalSema (h : Called s L interrupt) (id : UInt32)
    (hP : ∀ k, semaphoreOf s.pools id = some k → ∀ j, s.belongs j (.waiters .semaphore k) →
      j = (s.queues (.waiters .semaphore k)).head → P.wakes j kOk) :
    ∃ L', Performed P s L interrupt (s.signalSema interrupt id) L' := by
  rw [Sched.signalSema]
  cases hfound : semaphoreOf s.pools id with
  | none => exact h.refuses _
  | some k =>
    have hon := isOn_of_lookup (by decide) hfound
    dsimp only
    split
    · next hhead =>
      obtain ⟨hv, hb⟩ := h.sound.head_waits hon hhead
      exact h.wakes hv hb.1 (hP k hfound _ hb rfl) _
    · split
      · exact h.returns (quiet_setSemaphore s k _) _
      · exact h.refuses _

/-- Whether a wait for a semaphore blocks. -/
def Sched.semaBlocks (s : Sched) (id : UInt32) : Prop :=
  ∃ k, semaphoreOf s.pools id = some k ∧ (s.semaphores k).count ≤ 0

/-- A wait leaves the queues in order where the caller may stop. -/
theorem Called.waitSema (h : Called s L interrupt) (id : UInt32)
    (hready : interrupt = false → s.semaBlocks id → s.MayStop)
    (hP : ∀ k, semaphoreOf s.pools id = some k →
      P.joins .semaphore k ((s.semaphores k).attr &&& kSemaPriority != 0)) :
    ∃ r L', s.waitSema interrupt id = some r ∧ Performed P s L interrupt r L' := by
  rw [Sched.waitSema]
  cases interrupt with
  | true => exact h.refuses_some _
  | false =>
    rw [if_neg Bool.false_ne_true]
    cases hfound : semaphoreOf s.pools id with
    | none => exact h.refuses_some _
    | some k =>
      dsimp only
      split
      · exact ⟨_, _, rfl, (h.returns (quiet_setSemaphore s k _) kOk).choose_spec⟩
      · next hcount =>
        obtain ⟨s', L', -, -, hr, hout, -⟩ := h.blockOn .onSema
          (hready rfl ⟨k, hfound, Int.not_lt.mp hcount⟩) rfl hfound (hP k hfound)
        exact ⟨_, L', hr, hout⟩

/-- A poll leaves the queues in order. -/
theorem Called.pollSema (h : Called s L interrupt) (id : UInt32) :
    ∃ L', Performed P s L interrupt (s.pollSema id) L' := by
  rw [Sched.pollSema]
  cases semaphoreOf s.pools id with
  | none => exact h.refuses _
  | some k =>
    dsimp only
    split
    · exact h.returns (quiet_setSemaphore s k _) _
    · exact h.refuses _

/-! ### Message boxes -/

/-- A message wakes one receiver at most and leaves the queues in order. -/
theorem Called.sendMbx (h : Called s L interrupt) (iForm : Bool) (id : UInt32) (message : ℕ)
    (hP : ∀ k, mailboxOf s.pools id = some k → ∀ j, s.belongs j (.waiters .mailbox k) →
      j = (s.queues (.waiters .mailbox k)).head → P.wakes j kOk) :
    ∃ L', Performed P s L interrupt (s.sendMbx interrupt iForm id message) L' := by
  rw [Sched.sendMbx]
  split
  · exact h.refuses _
  · next hform =>
    obtain rfl : interrupt = iForm := not_not.mp hform
    cases hfound : mailboxOf s.pools id with
    | none => exact h.refuses _
    | some k =>
      have hon := isOn_of_lookup (by decide) hfound
      dsimp only
      split
      · next hhead =>
        obtain ⟨hv, hb⟩ := h.sound.head_waits hon hhead
        have hq := quiet_writeOut s (s.threads (s.queues (.waiters .mailbox k)).head).waitOut
          message
        obtain ⟨hmoves, hcalled⟩ := h.quiet hq
        obtain ⟨L', hout⟩ := hcalled.wakes (hq.valid.mpr hv) ((hq.state _).trans hb.1)
          (hP k hfound _ hb rfl) kOk
        exact ⟨L', hmoves.before hout⟩
      · exact h.returns ((quiet_queueMessage s k message).trans (quiet_setMailbox _ k _)) _

/-- Whether a wait for a message blocks. -/
def Sched.mailboxBlocks (s : Sched) (id : UInt32) : Prop :=
  ∃ k, mailboxOf s.pools id = some k ∧ (s.mailboxes k).messageCount = 0

/-- A receiver leaves the queues in order where the caller may stop. -/
theorem Called.receiveMbx (h : Called s L interrupt) (received : ℕ) (id : UInt32)
    (hready : interrupt = false → s.mailboxBlocks id → s.MayStop)
    (hP : ∀ k, mailboxOf s.pools id = some k →
      P.joins .mailbox k ((s.mailboxes k).attr &&& kMbxThreadPriority != 0)) :
    ∃ r L', s.receiveMbx interrupt received id = some r ∧ Performed P s L interrupt r L' := by
  rw [Sched.receiveMbx]
  cases interrupt with
  | true => exact h.refuses_some _
  | false =>
    rw [if_neg Bool.false_ne_true]
    cases hfound : mailboxOf s.pools id with
    | none => exact h.refuses_some _
    | some k =>
      dsimp only
      split
      · exact ⟨_, _, rfl, (h.returns (quiet_takeMessage s k received) kOk).choose_spec⟩
      · next hcount =>
        have hq : Quiet s (s.setThread s.current fun t => { t with waitOut := received }) :=
          quiet_setThread s _ fun _ => ⟨rfl, rfl, rfl, rfl, rfl, rfl⟩
        obtain ⟨hmoves, hcalled⟩ := h.quiet hq
        obtain ⟨s', L', -, -, hr, hout, -⟩ := hcalled.blockOn .onMbx
          (hq.mayStop (hready rfl ⟨k, hfound, Nat.eq_zero_of_not_pos hcount⟩)) rfl hfound
          (hP k hfound)
        exact ⟨_, L', hr, hmoves.before hout⟩

/-- A poll leaves the queues in order. -/
theorem Called.pollMbx (h : Called s L interrupt) (received : ℕ) (id : UInt32) :
    ∃ L', Performed P s L interrupt (s.pollMbx received id) L' := by
  rw [Sched.pollMbx]
  cases mailboxOf s.pools id with
  | none => exact h.refuses _
  | some k =>
    dsimp only
    split
    · exact h.refuses _
    · exact h.returns (quiet_takeMessage s k received) kOk

end Objects

end PS2Bios.Threadman
