import PS2Bios.Threadman.Answers
import PS2Bios.Threadman.SemaphoreSpec

/-!
# THREADMAN's semaphores are semaphores

`Tracks s L σ` relates THREADMAN's variables to the abstract semaphores: their counts are the ones
in the records (`Tallies`), and who waits and what threads will be told is as `Waits` says. Each
call keeps the relation: the calls about semaphores by what they are for (`Tracks.direct`,
`Tracks.waitSema`), the others because they are about something else.
-/

namespace PS2Bios.Threadman

open Intrusive Sched Counting

/-- The records of semaphores say what the abstract ones do. -/
structure Tallies (s : Sched) (σ : Semas) : Prop where
  count : ∀ id, σ.base.count id = (semaphoreOf s.pools id).map fun k => (s.semaphores k).count
  bound : ∀ id k, semaphoreOf s.pools id = some k → σ.max id = (s.semaphores k).max ∧
    σ.byPriority id = ((s.semaphores k).attr &&& kSemaPriority != 0)

/-- The scheduler carries the semaphores `σ`: the records hold their counts, the queues their
waiters. -/
structure Tracks (s : Sched) (L : Lists) (σ : Semas) : Prop where
  tallies : Tallies s σ
  waits : Waits .semaphore s L σ.base.waiting σ.base.reply

section Tracks

variable {s s' : Sched} {L L' : Lists} {σ σ' : Semas} {interrupt : Bool} {id : UInt32} {k t : ℕ}

theorem Tallies.count_some (h : Tallies s σ) (hfound : semaphoreOf s.pools id = some k) :
    σ.base.count id = some (s.semaphores k).count := by
  rw [h.count, hfound]
  rfl

theorem Tallies.count_none (h : Tallies s σ) (hfound : semaphoreOf s.pools id = none) :
    σ.base.count id = none := by
  rw [h.count, hfound]
  rfl

/-- The tallies are no matter of the lists. -/
theorem Tallies.congr (h : Tallies s σ)
    (hfound : ∀ id, semaphoreOf s'.pools id = semaphoreOf s.pools id)
    (hsem : s'.semaphores = s.semaphores) (base : Counting.Semas ℕ UInt32 ℤ)
    (hcount : base.count = σ.base.count) : Tallies s' { σ with base := base } := by
  refine ⟨fun id => ?_, fun id k hk => ?_⟩
  · rw [hcount, hfound, hsem]
    exact h.count id
  · rw [hfound] at hk
    rw [hsem]
    exact h.bound id k hk

theorem Tallies.of_same (h : Tallies s σ) (hsame : Same s s')
    (base : Counting.Semas ℕ UInt32 ℤ) (hcount : base.count = σ.base.count) :
    Tallies s' { σ with base := base } :=
  h.congr (fun id => by rw [hsame.pools]) hsame.semaphores base hcount

/-- The count of a semaphore is written. -/
theorem Tallies.setCount (h : Tallies s σ) (hfound : semaphoreOf s.pools id = some k) (n : ℤ) :
    Tallies (s.setSemaphore k fun m => { m with count := n })
      { σ with base := σ.base.setCount id (some n) } := by
  refine ⟨fun id' => ?_, fun id' i hi => ?_⟩
  · simp only [Counting.Semas.setCount, Sched.setSemaphore, Function.update_apply]
    split
    · next heq => simp [heq, hfound]
    · next hne =>
      rw [h.count]
      cases hid : semaphoreOf s.pools id' with
      | none => rfl
      | some i =>
        have hik : i ≠ k := by
          rintro rfl
          exact hne (lookup_inj hid hfound)
        simp [hik]
  · obtain ⟨hmax, hpri⟩ := h.bound id' i hi
    simp only [Sched.setSemaphore, Function.update_apply]
    split
    · next heq =>
      subst heq
      exact ⟨hmax, hpri⟩
    · exact ⟨hmax, hpri⟩

theorem Tracks.setCount (h : Tracks s L σ) (hfound : semaphoreOf s.pools id = some k) (n : ℤ) :
    Tracks (s.setSemaphore k fun m => { m with count := n }) L
      { σ with base := σ.base.setCount id (some n) } :=
  ⟨h.tallies.setCount hfound n, h.waits.waiting, h.waits.blocked, h.waits.told⟩

theorem Sound.setSemaphore (h : Sound s L) (k : ℕ) (f : Semaphore → Semaphore) :
    Sound (s.setSemaphore k f) L :=
  (quiet_setSemaphore s k f).sound h

/-! ### Signals and polls -/

/-- A signal does what it does to the abstract semaphore. -/
theorem Tracks.signalSema (h : Tracks s L σ) (hs : Called s L interrupt)
    (hsound : Sound (s.signalSema interrupt id).1 L') :
    ∃ answer σ', σ.signalled id answer σ' ∧ Tracks (s.signalSema interrupt id).1 L' σ' ∧
      Gives (s.signalSema interrupt id).1 (s.signalSema interrupt id).2 answer
        (some (.own answer)) := by
  unfold Semas.signalled
  rw [Sched.signalSema] at hsound ⊢
  cases hfound : semaphoreOf s.pools id with
  | none =>
    rw [hfound] at hsound
    obtain rfl := hsound.unique hs.sound
    rw [h.tallies.count_none hfound]
    exact ⟨_, σ, ⟨rfl, rfl⟩, h, .of_returns _ _ _⟩
  | some k =>
    rw [hfound] at hsound
    rw [h.tallies.count_some hfound]
    dsimp only at hsound ⊢
    have hhead := hs.sound.linked.head (isOn_of_lookup (by decide) hfound)
    rw [hhead] at hsound ⊢
    cases hl : L (.waiters .semaphore k) with
    -- the first waiter gets the unit
    | cons t l =>
      have ht : t ∈ L (.waiters .semaphore k) := hl ▸ List.mem_cons_self
      obtain ⟨-, hv, hw, -⟩ := (hs.sound.linked.mem_iff t _).mp ht
      rw [hl, List.headD_cons, if_pos (ne_kNone_of_lt hv.1)] at hsound
      rw [List.headD_cons, if_pos (ne_kNone_of_lt hv.1)]
      obtain ⟨L'', hd, hsound'', -, -⟩ := hs.wake hv hw kOk
      obtain rfl := hsound.unique hsound''
      refine ⟨_, _, ⟨rfl, rfl⟩, ?_, hs.gives_andReturn hv hw _⟩
      rw [h.waits.signal_cons hs.sound hfound hl]
      exact ⟨h.tallies.of_same (same_wake s t kOk interrupt) _ rfl,
        h.waits.wake hs ht (.handed id) hd⟩
    | nil =>
      rw [hl, List.headD_nil, if_neg (not_not.mpr rfl)] at hsound
      rw [List.headD_nil, if_neg (not_not.mpr rfl)]
      -- nobody waits, so the unit is counted, if there is room for it
      have hraise : ∀ n, σ.base.signal (σ.raise id) id n =
          σ.base.setCount id (some (σ.raise id n)) := fun n => by
        rw [Counting.Semas.signal, (h.waits.waiting_some hfound).trans hl]
      refine ⟨_, _, ⟨rfl, rfl⟩, ?_⟩
      rw [hraise, Semas.raise, (h.tallies.bound id k hfound).1]
      split at hsound
      · next hlt =>
        rw [if_pos hlt, if_pos hlt]
        have hwritten := hs.sound.setSemaphore k fun m => { m with count := m.count + 1 }
        obtain rfl := hsound.unique hwritten
        exact ⟨h.setCount hfound _, .of_returns _ _ _⟩
      · next hno =>
        rw [if_neg hno, if_neg hno]
        obtain rfl := hsound.unique hs.sound
        have hsame : σ.base.setCount id (some (s.semaphores k).count) = σ.base := by
          rw [Counting.Semas.setCount, ← h.tallies.count_some hfound, Function.update_eq_self]
        rw [hsame]
        exact ⟨h, .of_returns _ _ _⟩

/-- A poll does what it does to the abstract semaphore. -/
theorem Tracks.pollSema (h : Tracks s L σ) (hs : Called s L interrupt)
    (hsound : Sound (s.pollSema id).1 L') :
    ∃ answer σ', σ.polled id answer σ' ∧ Tracks (s.pollSema id).1 L' σ' ∧
      Gives (s.pollSema id).1 (s.pollSema id).2 answer (some (.own answer)) := by
  unfold Semas.polled
  rw [Sched.pollSema] at hsound ⊢
  cases hfound : semaphoreOf s.pools id with
  | none =>
    rw [hfound] at hsound
    obtain rfl := hsound.unique hs.sound
    rw [h.tallies.count_none hfound]
    exact ⟨_, σ, ⟨rfl, rfl⟩, h, .of_returns _ _ _⟩
  | some k =>
    rw [hfound] at hsound
    rw [h.tallies.count_some hfound]
    dsimp only at hsound ⊢
    split at hsound
    · next hpos =>
      simp only [if_pos hpos]
      have hwritten := hs.sound.setSemaphore k fun m => { m with count := m.count - 1 }
      obtain rfl := hsound.unique hwritten
      exact ⟨_, _, ⟨rfl, rfl⟩, h.setCount hfound _, .of_returns _ _ _⟩
    · next hno =>
      obtain rfl := hsound.unique hs.sound
      simp only [if_neg hno]
      exact ⟨_, _, ⟨rfl, rfl⟩, h, .of_returns _ _ _⟩

/-! ### Semaphores made and deleted -/

/-- What `createSema` answers and writes. -/
theorem createSema_cases (s : Sched) (interrupt : Bool) (attr : UInt32) (initial max : ℤ) :
    (∃ code < 0, s.createSema interrupt attr initial max = (s, .returns code)) ∨
      ∃ k g s', k < Kind.semaphore.slots ∧ (s.pools .semaphore k).inUse = false ∧
        s.createSema interrupt attr initial max = (s', .returns (makeId k g).toNat) ∧
        s'.pools = s.pools.set .semaphore k ⟨true, g⟩ ∧
        s'.semaphores = Function.update s.semaphores k ⟨attr, max, initial⟩ := by
  rw [Sched.createSema, Threadman.createSema]
  unfold Sched.createObject
  rcases create_cases interrupt .semaphore kSemaAttrMask attr s.pools with
    ⟨code, hneg, heq⟩ | ⟨k, hk, hfree, heq⟩
  · rw [heq]
    exact .inl ⟨code, hneg, rfl⟩
  · rw [heq, occupy]
    have hslot : slotOf (makeId k ((s.pools .semaphore k).generation + 1)) = k :=
      slotOf_makeId (hk.trans_le (Kind.slots_le _)) _
    dsimp only
    rw [hslot]
    exact .inr ⟨k, _, _, hk, hfree, rfl, rfl, rfl⟩

/-- A semaphore that is made has the count it was given. -/
theorem Tallies.made (h : Tallies s σ) {attr : UInt32} {initial max : ℤ} {g : UInt8}
    (hk : k < Kind.semaphore.slots) (hfree : (s.pools .semaphore k).inUse = false)
    (hpools : s'.pools = s.pools.set .semaphore k ⟨true, g⟩)
    (hsem : s'.semaphores = Function.update s.semaphores k ⟨attr, max, initial⟩) :
    Tallies s' ⟨σ.base.setCount (makeId k g) (some initial),
      Function.update σ.max (makeId k g) max,
      Function.update σ.byPriority (makeId k g) (attr &&& kSemaPriority != 0)⟩ := by
  have hfound : ∀ id, semaphoreOf s'.pools id =
      if id = makeId k g then some k else semaphoreOf s.pools id := fun id => by
    rw [hpools]
    exact lookup_occupied hk hfree id
  have hother : ∀ id i, semaphoreOf s.pools id = some i → i ≠ k := by
    rintro id i hi rfl
    exact Bool.false_ne_true (hfree.symm.trans (lookup_eq_some.mp hi).2.1)
  refine ⟨fun id => ?_, fun id i hi => ?_⟩
  · simp only [Counting.Semas.setCount, hfound, hsem, Function.update_apply]
    split
    · simp
    · rw [h.count]
      cases hid : semaphoreOf s.pools id with
      | none => rfl
      | some i => simp [hother id i hid]
  · rw [hfound] at hi
    simp only [hsem, Function.update_apply]
    split at hi
    · next heq =>
      obtain rfl := Option.some.inj hi
      simp [heq]
    · next hne =>
      rw [if_neg hne, if_neg (hother id i hi), if_neg hne]
      exact h.bound id i hi

/-- A creation makes an abstract semaphore. -/
theorem Tracks.createSema (h : Tracks s L σ) (hs : Called s L interrupt) {attr : UInt32}
    {initial max : ℤ} (hsound : Sound (s.createSema interrupt attr initial max).1 L')
    (hp : Passes (s.permits (.createSema attr initial max)) s L
      (s.createSema interrupt attr initial max).1 L') :
    ∃ answer σ', σ.created attr initial max answer σ' ∧
      Tracks (s.createSema interrupt attr initial max).1 L' σ' ∧
        Gives (s.createSema interrupt attr initial max).1
          (s.createSema interrupt attr initial max).2 answer (some (.own answer)) := by
  rcases createSema_cases s interrupt attr initial max with
    ⟨code, hneg, heq⟩ | ⟨k, g, s', hk, hfree, heq, hpools, hsem⟩
  · rw [heq] at hsound ⊢
    obtain rfl := hsound.unique hs.sound
    exact ⟨code, σ, .inl ⟨hneg, rfl⟩, h, .of_returns _ _ _⟩
  · rw [heq] at hp ⊢
    refine ⟨_, _, .inr ⟨makeId k g, h.tallies.count_none (lookup_of_free hk hfree), rfl, rfl⟩,
      ⟨h.tallies.made hk hfree hpools hsem, ?_⟩, .of_returns _ _ _⟩
    exact h.waits.made hs hp (fun _ _ hw => hw) (fun _ _ hj => hj) hk hfree hpools

/-- A semaphore that is deleted has no count. -/
theorem Tallies.deleted (h : Tallies s σ) (hk : semaphoreOf s.pools id = some k)
    (hpools : s'.pools = vacate .semaphore s.pools k) (hsem : s'.semaphores = s.semaphores)
    (v : ℤ) : Tallies s' { σ with base := σ.base.delete id v } := by
  have hfound : ∀ id', semaphoreOf s'.pools id' =
      if id' = id then none else semaphoreOf s.pools id' := fun id' => by
    rw [hpools]
    exact lookup_vacated hk id'
  refine ⟨fun id' => ?_, fun id' i hi => ?_⟩
  · simp only [Counting.Semas.delete, hfound, hsem, Function.update_apply]
    split
    · rfl
    · exact h.count id'
  · rw [hfound] at hi
    split at hi
    · cases hi
    · rw [hsem]
      exact h.bound id' i hi

/-- A deletion takes the abstract semaphore away and tells its waiters. -/
theorem Tracks.deleteSema (h : Tracks s L σ) (hs : Called s L interrupt) {r : Sched × Reply}
    (hr : s.deleteSema interrupt id = some r) (hsound : Sound r.1 L')
    (hp : Passes (s.permits (.deleteSema id)) s L r.1 L') :
    ∃ answer σ', σ.direct interrupt (.deleteSema id) answer σ' ∧ Tracks r.1 L' σ' ∧
      Gives r.1 r.2 answer (some (.own answer)) := by
  simp only [Semas.direct, Semas.deleted]
  rcases deleteObject_cases hr with ⟨hi, rfl⟩ | ⟨hi, hfound, rfl⟩ |
    ⟨hi, k, hfound, s', hsame, rfl⟩
  · obtain rfl := hsound.unique hs.sound
    simp only [hi, if_true]
    exact ⟨_, σ, ⟨rfl, rfl⟩, h, .of_returns _ _ _⟩
  · obtain rfl := hsound.unique hs.sound
    simp only [hi, Bool.false_eq_true, if_false, h.tallies.count_none hfound]
    exact ⟨_, σ, ⟨rfl, rfl⟩, h, .of_returns _ _ _⟩
  · simp only [hi, Bool.false_eq_true, if_false, h.tallies.count_some hfound]
    have hpools : ({ s' with pools := vacate .semaphore s'.pools k } : Sched).pools =
        vacate .semaphore s.pools k := congrArg (vacate .semaphore · k) hsame.pools
    refine ⟨_, _, ⟨rfl, rfl⟩, ⟨h.tallies.deleted hfound hpools hsame.semaphores _, ?_⟩,
      .of_returns _ _ _⟩
    refine h.waits.deleted hs hsound hp (fun t answer hw => ?_) (fun _ _ hj => hj) hfound hpools
    obtain ⟨⟨i, hi, hb⟩, hanswer⟩ := hw
    obtain rfl := Option.some.inj (hi.symm.trans hfound)
    exact ⟨hb, hanswer⟩

/-! ### Any call but a wait -/

/-- **A call that does not wait for a semaphore does to the semaphores what it is for.** -/
theorem Tracks.direct (h : Tracks s L σ) (hs : Called s L interrupt) {c : Service}
    (hc : ∀ id, c ≠ .waitSema id) (hcareful : s.aims c = some s.pending → s.Settled)
    {r : Sched × Reply} (hr : s.perform interrupt c = some r)
    (he : Effect s L interrupt c r.1 L') :
    ∃ answer σ', σ.direct interrupt c answer σ' ∧ Tracks r.1 L' σ' ∧
      Gives r.1 r.2 answer (Semas.told answer c) := by
  have hother : c.about ≠ some .semaphore → c.unlists = none →
      Tracks r.1 L' σ := fun habout hoff => by
    obtain ⟨hwaits, huntouched⟩ := h.waits.other hs (by decide) habout hoff he
    have hsem := (perform_writes hr).semaphores habout
    exact ⟨h.tallies.congr huntouched.found hsem σ.base rfl, hwaits⟩
  have hsilent : ∀ σ', (∀ answer, Semas.told answer c = none) →
      (∀ answer, σ.direct interrupt c answer σ') → Tracks r.1 L' σ' →
      ∃ answer σ', σ.direct interrupt c answer σ' ∧ Tracks r.1 L' σ' ∧
        Gives r.1 r.2 answer (Semas.told answer c) := fun σ' htold hdirect ht => by
    obtain ⟨answer, hg⟩ := Gives.of_silent r.1 r.2
    exact ⟨answer, σ', hdirect answer, ht, (htold answer).symm ▸ hg⟩
  cases c
  case waitSema id => exact absurd rfl (hc id)
  case createSema attr initial max =>
    obtain rfl := Option.some.inj hr
    exact h.createSema hs he.sound (he.passes hs.sound nofun)
  case deleteSema id => exact h.deleteSema hs hr he.sound (he.passes hs.sound nofun)
  case signalSema id =>
    obtain rfl := Option.some.inj hr
    exact h.signalSema hs he.sound
  case pollSema id =>
    obtain rfl := Option.some.inj hr
    exact h.pollSema hs he.sound
  case releaseWaitThread id =>
    obtain rfl := Option.some.inj hr
    obtain ⟨hsame, hw | ⟨hwaits, hw⟩⟩ := h.waits.releaseWaitThread hs (by decide) he.sound
    · exact hsilent σ (fun _ => rfl) (fun _ => .inl rfl) ⟨h.tallies.of_same hsame σ.base rfl, hw⟩
    · exact hsilent _ (fun _ => rfl) (fun _ => .inr ⟨_, .inl ⟨hwaits, rfl⟩, rfl⟩)
        ⟨h.tallies.of_same hsame _ rfl, hw⟩
  case terminateThread id =>
    obtain rfl := Option.some.inj hr
    obtain ⟨hsame, hw | hw⟩ := h.waits.terminateThread hs hcareful he.sound
    · exact hsilent σ (fun _ => rfl) (fun _ => .inl rfl) ⟨h.tallies.of_same hsame σ.base rfl, hw⟩
    · exact hsilent _ (fun _ => rfl) (fun _ => .inr rfl) ⟨h.tallies.of_same hsame _ rfl, hw⟩
  all_goals exact hsilent σ (fun _ => rfl) (fun _ => rfl) (hother nofun rfl)

/-! ### The wait -/

/-- A wait takes from the abstract count or joins its waiters. -/
theorem Tracks.waitSema (h : Tracks s L σ) (hs : Called s L false)
    (hready : s.semaBlocks id → s.MayStop) {r : Sched × Reply}
    (hr : s.waitSema false id = some r) (hsound : Sound r.1 L') :
    ∃ ρ σ', σ.waited id s.current { σ' with base := σ'.base.setReply s.current ρ } ∧
      Tracks r.1 L' σ' ∧ Due .semaphore r.1 L' r.2 ρ := by
  have hdue : ∀ {s' : Sched} {v : ℤ}, s'.current = s.current →
      Due .semaphore s' L (.returns v) (some (.own v)) := fun {s'} {v} hcur =>
    (Gives.of_returns s' v _).due (fun k hk => hs.not_waiter .semaphore k (hcur ▸ hk))
      fun x hx => (Option.some.inj hx).symm
  unfold Semas.waited
  rw [Sched.waitSema, if_neg Bool.false_ne_true] at hr
  cases hfound : semaphoreOf s.pools id with
  | none =>
    rw [hfound] at hr
    obtain rfl := Option.some.inj hr
    obtain rfl := hsound.unique hs.sound
    rw [h.tallies.count_none hfound]
    exact ⟨_, σ, rfl, h, hdue rfl⟩
  | some k =>
    rw [hfound] at hr
    rw [h.tallies.count_some hfound]
    dsimp only at hr ⊢
    split at hr
    · next hpos =>
      obtain rfl := Option.some.inj hr
      have hwritten := hs.sound.setSemaphore k fun m => { m with count := m.count - 1 }
      obtain rfl := hsound.unique hwritten
      simp only [if_pos hpos]
      exact ⟨_, _, rfl, h.setCount hfound _, hdue rfl⟩
    · next hno =>
      simp only [if_neg hno]
      obtain ⟨l₁, l₂, hl, hlast, hw, hd, hsame⟩ := h.waits.enlisted hs
        (hready ⟨k, hfound, Int.not_lt.mp hno⟩) rfl hfound hr hsound
      have htracks : Tracks r.1 L'
          { σ with base := σ.base.enlist (fun _ t => l₁ ++ t :: l₂) id s.current } :=
        ⟨h.tallies.of_same hsame _ rfl, hw⟩
      refine ⟨none, _, ⟨l₁, l₂, (h.waits.waiting_some hfound).trans hl, ?_, ?_⟩, htracks, hd⟩
      · rw [(h.tallies.bound id k hfound).2]
        exact hlast
      · rw [Counting.Semas.setReply_eq_self]
        exact h.waits.silent

/-- **A call of the running thread does to the semaphores what it is for.** -/
theorem Tracks.called (h : Tracks s L σ) (hs : Called s L false) {c : Service}
    (hready : s.Blocks c → s.MayStop) (hcareful : s.aims c = some s.pending → s.Settled)
    {r : Sched × Reply} (hr : s.perform false c = some r) (he : Effect s L false c r.1 L') :
    ∃ ρ σ', σ.call s.current c { σ' with base := σ'.base.setReply s.current ρ } ∧
      Tracks r.1 L' σ' ∧ Due .semaphore r.1 L' r.2 ρ := by
  by_cases hc : ∃ id, c = .waitSema id
  · obtain ⟨id, rfl⟩ := hc
    exact h.waitSema hs hready hr he.sound
  · have hc : ∀ id, c ≠ .waitSema id := fun id heq => hc ⟨id, heq⟩
    obtain ⟨answer, σ', hdirect, ht, hg⟩ := h.direct hs hc hcareful hr he
    refine ⟨Semas.told answer c, σ', ?_, ht, hg.due (fun k => ?_) fun x hx => ?_⟩
    · unfold Semas.call
      cases c <;> first | exact absurd rfl (hc _) | exact ⟨answer, σ', hdirect, rfl⟩
    · rw [he.current]
      refine he.not_joined hs fun b hj => ?_
      cases c <;> first | exact absurd rfl (hc _) | exact hj | cases hj.1
    · cases c <;> first | exact absurd rfl (hc _) | cases hx
      all_goals rfl

end Tracks

end PS2Bios.Threadman
