import PS2Bios.Threadman.Representation
import PS2Bios.Threadman.Waits

/-!
# What callers are told

A call that returns answers its caller at once, and one that traps answers it when it is switched
to again. `Heard` says when the answers that are given now are right: the thread that goes on waits
for nothing, and finds what it was going to be told. The end of a call, a switch, and the acts that
are no calls keep `Waits` that way, for every kind of object that they do not touch.
-/

namespace PS2Bios.Threadman

open Intrusive Sched Counting

/-- The answer that is given now, if one is, is the right one. -/
def Heard (waiting : UInt32 → List ℕ) (reply : Replies) (told : Processor.Told)
    (reply' : Replies) : Prop :=
  match told with
  | .thread k v => (¬ ∃ id, k ∈ waiting id) ∧
      (∀ r, reply k = some r → v = r.answer fun _ => kOk) ∧
      reply' = Function.update reply k none
  | _ => reply' = reply

/-- What a call that puts its caller on no list of a kind tells it: the answer, now or when it goes
on; the calls that tell nothing of the kind may keep theirs. -/
structure Gives (s : Sched) (reply : Reply) (answer : ℤ)
    (told : Option (Counting.Reply UInt32 ℤ)) : Prop where
  value : reply = .returns answer ∨ ∃ resume, reply = .traps resume ∧
    (resume = .value answer ∨ told = none)
  ready : (∃ resume, reply = .traps resume) → told ≠ none → (s.threads s.current).state = .ready

section Gives

variable {s s' : Sched} {L L' : Lists} {interrupt : Bool} {kind : Kind} {k t : ℕ} {id : UInt32}
  {told : Option (Counting.Reply UInt32 ℤ)}

theorem Gives.of_returns (s : Sched) (v : ℤ) (told : Option (Counting.Reply UInt32 ℤ)) :
    Gives s (.returns v) v told :=
  ⟨.inl rfl, fun ⟨_, h⟩ => by cases h⟩

theorem Gives.of_silent (s : Sched) (reply : Reply) : ∃ answer, Gives s reply answer none := by
  cases reply with
  | returns v => exact ⟨v, .of_returns s v none⟩
  | traps resume => exact ⟨0, .inr ⟨resume, rfl, .inr rfl⟩, fun _ h => absurd rfl h⟩

/-- The caller of such a call is due its own answer, if any of the kind. -/
theorem Gives.due {reply : Reply} {answer : ℤ} (h : Gives s reply answer told)
    (hno : ∀ k, s.current ∉ L (.waiters kind k)) (htold : ∀ x, told = some x → x = .own answer) :
    Due kind s L reply told := by
  refine ⟨fun k hk => absurd hk (hno k), fun x hx => ?_⟩
  obtain rfl := htold x hx
  rcases h.value with hv | ⟨resume, hv, hresume⟩
  · exact .inl hv
  · rcases hresume with rfl | hnone
    · exact .inr ⟨hv, h.ready ⟨_, hv⟩ (by rw [hx]; nofun)⟩
    · rw [hnone] at hx
      cases hx

/-- A decision about who runs next leaves the scheduler poised. -/
theorem Decides.poised (h : Decides s L k interrupt s' L') (hp : s.Poised) : s'.Poised := by
  cases h with
  | queued _ _ => exact hp
  | left _ _ _ => exact hp
  | handOff _ _ _ => exact fun _ => by simp [stepBack_threads]
  | first _ _ _ => exact fun _ => by simp
  | replaces hset _ _ _ _ _ =>
    intro _
    have hne : s.current ≠ s.pending := Ne.symm hset
    simpa [hne] using hp hset

/-- A call that wakes a thread and returns, or hands over to it. -/
theorem Called.gives_andReturn (hs : Called s L interrupt) {answer v : ℤ} (hv : s.Valid t)
    (hw : (s.threads t).state = .wait) (told : Option (Counting.Reply UInt32 ℤ)) :
    Gives (andReturn (s.wake t answer interrupt) v).1 (andReturn (s.wake t answer interrupt) v).2 v
      told := by
  obtain ⟨L', hd, hsound, hthread, hhandler⟩ := hs.wake hv hw answer
  have hpoised := hd.poised (hs.poised.woken (hs.sound.ne_current hs.poised hw) answer)
  rw [andReturn]
  cases htrap : (s.wake t answer interrupt).2 with
  | false => exact .of_returns _ v told
  | true =>
    refine ⟨.inr ⟨_, rfl, .inl rfl⟩, fun _ _ => hpoised ?_⟩
    cases interrupt with
    | false => exact fun hset => Bool.false_ne_true (((hthread rfl).mpr hset).symm.trans htrap)
    | true => exact absurd ((hhandler rfl).2.symm.trans htrap) Bool.false_ne_true

end Gives

/-! ### Calls that are about no object of the kind -/

/-- The calls that take a thread off whatever list it is on. -/
def Service.unlists : Service → Option UInt32
  | .releaseWaitThread id | .terminateThread id => some id
  | _ => none

section Other

variable {s s' : Sched} {L L' : Lists} {interrupt : Bool} {kind : Kind} {k t : ℕ} {id : UInt32}
  {c : Service} {waiting : UInt32 → List ℕ} {reply : Replies}

theorem permits_joins {b : Bool} (h : (s.permits c).joins kind k b) : c.about = some kind := by
  cases c <;> first | exact False.elim h | (obtain ⟨rfl, -⟩ := h; rfl)

/-- A service makes and takes away objects of the kind it is about. -/
theorem permits_remakes (h : (s.permits c).remakes kind k) : c.about = some kind := by
  cases c
  case createEventFlag => exact congrArg some (Eq.symm h)
  case createSema => exact congrArg some (Eq.symm h)
  case createMbx => exact congrArg some (Eq.symm h)
  all_goals first | exact False.elim h | (obtain ⟨rfl, -⟩ := h; rfl)

/-- A service wakes sleepers, or waiters of the object it is about. -/
theorem permits_wakes {answer : ℤ} (h : (s.permits c).wakes t answer) (hc : c.unlists = none) :
    (s.threads t).waitType = .sleep ∨ ∃ kind i, c.about = some kind ∧
      s.belongs t (.waiters kind i) := by
  cases c <;> first | exact False.elim h | cases hc
  case wakeupThread id => exact .inl h.2.1
  case setEventFlag id bits =>
    obtain ⟨⟨i, -, hb, -⟩, -⟩ := h
    exact .inr ⟨_, i, rfl, hb⟩
  case signalSema id =>
    obtain ⟨⟨i, -, hb, -⟩, -⟩ := h
    exact .inr ⟨_, i, rfl, hb⟩
  case sendMbx iForm id message =>
    obtain ⟨⟨i, -, hb, -⟩, -⟩ := h
    exact .inr ⟨_, i, rfl, hb⟩
  all_goals
    obtain ⟨⟨i, -, hb⟩, -⟩ := h
    exact .inr ⟨_, i, rfl, hb⟩

theorem Sound.not_sleeping (hs : Sound s L) (ht : t ∈ L (.waiters kind k)) {w : WaitType}
    (hw : (s.threads t).waitType = w) (hkind : w.kind = none) : False := by
  have hobject := ((hs.linked.mem_iff t _).mp ht).2.2.2
  rw [waitObjectOf_eq, hw, hkind] at hobject
  cases hobject

/-- **A call that is about no object of the kind.** -/
theorem Waits.other (h : Waits kind s L waiting reply) (hs : Called s L interrupt)
    (hkind : kind ≠ .thread) (hc : c.about ≠ some kind) (hoff : c.unlists = none)
    (he : Effect s L interrupt c s' L') :
    Waits kind s' L' waiting reply ∧ Untouched kind s L s' L' := by
  have hp := he.passes hs.sound (by rintro id rfl; cases hoff)
  refine h.untouched hs hkind hp (fun k t ht answer hw => ?_) (fun _ _ hj => hc (permits_joins hj))
    fun _ hr => hc (permits_remakes hr)
  rcases permits_wakes hw hoff with hsleep | ⟨kind', i, habout, hb⟩
  · exact hs.sound.not_sleeping ht hsleep rfl
  · obtain ⟨rfl, -⟩ := hs.sound.waits_one ht hb
    exact hc habout

/-- **A wait is called off.** -/
theorem Waits.releaseWaitThread (h : Waits kind s L waiting reply) (hs : Called s L interrupt)
    (hkind : kind ≠ .thread) (hsound : Sound (s.releaseWaitThread interrupt id).1 L') :
    Same s (s.releaseWaitThread interrupt id).1 ∧
      (Waits kind (s.releaseWaitThread interrupt id).1 L' waiting reply ∨
      (∃ i, slotOf id ∈ waiting i) ∧ Waits kind (s.releaseWaitThread interrupt id).1 L'
        (fun i => (waiting i).erase (slotOf id))
        (Function.update reply (slotOf id) (some (.cancelled kReleaseWait)))) := by
  -- a call that is refused does nothing
  have hrefused : ∀ v : ℤ, Sound (s, Reply.returns v).1 L' →
      Same s (s, Reply.returns v).1 ∧ (Waits kind (s, Reply.returns v).1 L' waiting reply ∨
        (∃ i, slotOf id ∈ waiting i) ∧ Waits kind (s, Reply.returns v).1 L'
          (fun i => (waiting i).erase (slotOf id))
          (Function.update reply (slotOf id) (some (.cancelled kReleaseWait)))) := fun v hv => by
    obtain rfl := hs.sound.unique hv
    exact ⟨.refl s, .inl h⟩
  rw [Sched.releaseWaitThread] at hsound ⊢
  split at hsound
  · next h0 =>
    rw [if_pos h0]
    exact hrefused _ hsound
  · next h0 =>
    rw [if_neg h0]
    cases hfound : threadOf s.pools id with
    | none =>
      rw [hfound] at hsound
      exact hrefused _ hsound
    | some t =>
      rw [hfound] at hsound
      dsimp only at hsound ⊢
      split at hsound
      · next hd =>
        rw [if_pos hd]
        exact hrefused _ hsound
      · next hd =>
        rw [if_neg hd]
        split at hsound
        · next hw =>
          rw [if_pos hw]
          exact hrefused _ hsound
        · next hw =>
          rw [if_neg hw]
          -- the thread waits, and is released with the answer of a release
          have hw := not_not.mp hw
          have hv := valid_of_threadOf hfound
          obtain ⟨L'', hd, hsound'', -, -⟩ := hs.wake hv hw kReleaseWait
          obtain rfl := hsound''.unique hsound
          rw [slotOf_of_lookup hfound]
          refine ⟨same_wake s t _ _, ?_⟩
          -- on an object of this kind, or elsewhere
          by_cases hwaits : ∃ i, t ∈ waiting i
          · obtain ⟨k, hk⟩ := (h.waits_iff hs.sound t).mp hwaits
            exact .inr ⟨hwaits, h.wake hs hk (.cancelled kReleaseWait) hd⟩
          · have hno : ∀ k, t ∉ L (.waiters kind k) := fun k hk =>
              hwaits ((h.waits_iff hs.sound t).mpr ⟨k, hk⟩)
            exact .inl (h.wake_other hs hkind hv hw hno hd).1

/-- A thread's end takes it off its waiters and answers nobody. -/
theorem Waits.terminateThread (h : Waits kind s L waiting reply) (hs : Called s L interrupt)
    (hcareful : threadOf s.pools id = some s.pending → s.Settled)
    (hsound : Sound (s.terminateThread id).1 L') :
    Same s (s.terminateThread id).1 ∧ (Waits kind (s.terminateThread id).1 L' waiting reply ∨
      Waits kind (s.terminateThread id).1 L' (fun i => (waiting i).erase (slotOf id))
        (Function.update reply (slotOf id) none)) := by
  -- a call that is refused does nothing
  have hrefused : ∀ v : ℤ, Sound (s, Reply.returns v).1 L' →
      Same s (s, Reply.returns v).1 ∧ (Waits kind (s, Reply.returns v).1 L' waiting reply ∨
        Waits kind (s, Reply.returns v).1 L' (fun i => (waiting i).erase (slotOf id))
          (Function.update reply (slotOf id) none)) := fun v hv => by
    obtain rfl := hs.sound.unique hv
    exact ⟨.refl s, .inl h⟩
  rw [Sched.terminateThread] at hsound ⊢
  split at hsound
  · next h0 =>
    rw [if_pos h0]
    exact hrefused _ hsound
  · next h0 =>
    rw [if_neg h0]
    cases hfound : threadOf s.pools id with
    | none =>
      rw [hfound] at hsound
      exact hrefused _ hsound
    | some t =>
      rw [hfound] at hsound
      dsimp only at hsound ⊢
      split at hsound
      · next hcur =>
        rw [if_pos hcur]
        exact hrefused _ hsound
      · next hcur =>
        rw [if_neg hcur]
        split at hsound
        · next hd =>
          rw [if_pos hd]
          exact hrefused _ hsound
        -- the staged thread is spared
        · next hd =>
          have hpend : t ≠ s.pending := by
            rintro rfl
            exact hcur (hcareful hfound)
          have hpending : ¬ (s.withdraw t).pending = t := by
            rw [withdraw_pending]
            exact hpend.symm
          rw [← withdraw, if_neg hpending] at hsound
          rw [if_neg hd, ← withdraw, if_neg hpending, slotOf_of_lookup hfound]
          obtain rfl := hsound.unique (hs.sound.terminate (valid_of_threadOf hfound) hcur hpend)
          have hdormant : Same (s.withdraw t) ((s.withdraw t).setThread t fun r =>
              { r with state := .dormant }) := same_setThread _ t _
          exact ⟨(same_withdraw s t).trans hdormant, .inr (h.terminated hs t)⟩

end Other

/-! ### The switch -/

section Switch

variable {s : Sched} {L : Lists} {kind : Kind} {waiting : UInt32 → List ℕ} {reply : Replies}
  {frame : Frame} {told : Processor.Told} {m : Processor} {answer : Reply}
  {r : Option (Counting.Reply UInt32 ℤ)}

theorem same_newContext (hs : Sound s L) (hset : ¬ s.Settled) (frame : Frame) :
    Same s (s.newContext frame) := by
  rw [newContext_staged s frame hs.current_ne_kNone hs.pending_ne_kNone hset]
  exact ⟨rfl, rfl, rfl, rfl, rfl, rfl⟩

/-- What follows on a call changes no object. -/
theorem Processor.Follows.same (h : Processor.Follows s m) (hs : Sound s L) : Same s m.sched := by
  rcases h with heq | ⟨hset, frame, heq⟩
  · rw [heq]
    exact .refl s
  · rw [heq]
    exact same_newContext hs hset frame

/-- What follows on a call takes no thread off its list. -/
theorem Processor.Follows.leaves (h : Processor.Follows s m) (hs : Sound s L) :
    Leaves s m.sched := by
  refine .of_same (h.same hs) fun t => ?_
  rcases h with heq | ⟨hset, frame, heq⟩
  · rw [heq]
  · rw [heq, newContext_threads frame hs.current_ne_kNone hs.pending_ne_kNone hset]
    split
    · rfl
    · split <;> rfl

/-- The thread that stops may be told later, and the one that goes on is told now. -/
theorem Waits.switched (h : Waits kind s L waiting reply) (hs : Sound s L) (hset : ¬ s.Settled)
    (hwaits : ∀ k, s.current ∈ L (.waiters kind k) → frame.resume = .answer)
    (htold : ∀ x, r = some x → Owes (some frame) (x.answer fun _ => kOk) ∧
      (s.threads s.current).state = .ready) :
    Waits kind (s.newContext frame) L waiting
      (Function.update (Function.update reply s.current r) s.pending none) := by
  have hpend := hs.pending_ne_kNone
  have hne : s.current ≠ s.pending := Ne.symm hset
  have hthreads := newContext_threads frame hs.current_ne_kNone hpend hset
  have hcurrent : (s.newContext frame).current = s.pending :=
    (newContext_settles hpend hset frame).2
  have hpools := (same_newContext hs hset frame).pools
  refine ⟨fun id => ?_, fun t k ht hne' => ?_, fun t x hx => ?_⟩
  · rw [hpools]
    exact h.waiting id
  · rw [hcurrent] at hne'
    rw [hthreads, if_neg hne']
    split
    · next heq =>
      subst heq
      exact ⟨frame.v0, by rw [← hwaits k ht]⟩
    · next hne'' => exact h.blocked t k ht hne''
  · rw [Function.update_apply] at hx
    split at hx
    · cases hx
    · next hne' =>
      rw [Function.update_apply] at hx
      rw [hcurrent, hthreads, if_neg hne', Valid, hpools]
      split at hx
      · next heq =>
        obtain ⟨howes, hstate⟩ := htold x hx
        rw [if_pos heq, heq]
        exact ⟨hne, hs.current, hstate, howes⟩
      · next hne'' =>
        obtain ⟨-, hv, hstate, howes⟩ := h.told t x hx
        rw [if_neg hne'']
        exact ⟨hne', hv, hstate, howes⟩

/-- **A switch resumes a thread that does not wait, with the answer it was given.** -/
theorem Waits.resumed (h : Waits kind s L waiting reply) (hs : Sound s L) (hset : ¬ s.Settled)
    (hwaits : ∀ k, s.current ∈ L (.waiters kind k) → frame.resume = .answer)
    (htold : ∀ x, r = some x → Owes (some frame) (x.answer fun _ => kOk) ∧
      (s.threads s.current).state = .ready)
    (hr : Processor.resumed (s.newContext frame) = some (told, m)) :
    m.sched = s.newContext frame ∧
      ∃ reply', Heard waiting (Function.update reply s.current r) told reply' ∧
        Waits kind m.sched L waiting reply' := by
  have hne : s.pending ≠ s.current := hset
  have hcurrent : (s.newContext frame).current = s.pending :=
    (newContext_settles hs.pending_ne_kNone hset frame).2
  have hframe : ((s.newContext frame).threads (s.newContext frame).current).frame =
      (s.threads s.pending).frame := by
    rw [hcurrent, newContext_threads frame hs.current_ne_kNone hs.pending_ne_kNone hset, if_pos rfl]
  have hwaiting : ¬ ∃ id, s.pending ∈ waiting id :=
    h.not_waits hs (by rw [hs.staged hset]; decide)
  have hwaits' := h.switched hs hset hwaits htold
  -- what the thread finds is the answer of its reply, if it has one
  have hheard : ∀ v, (∀ x, Owes (s.threads s.pending).frame x → v = x) →
      Heard waiting (Function.update reply s.current r) (.thread s.pending v)
        (Function.update (Function.update reply s.current r) s.pending none) := fun v hv => by
    refine ⟨hwaiting, fun x hx => ?_, rfl⟩
    rw [Function.update_of_ne hne] at hx
    exact hv _ (h.told s.pending x hx).2.2.2
  have hsilent : (∀ x, ¬ Owes (s.threads s.pending).frame x) →
      Function.update (Function.update reply s.current r) s.pending none =
        Function.update reply s.current r := fun hno => by
      rw [Function.update_eq_self_iff, Function.update_of_ne hne]
      cases hx : reply s.pending with
      | none => rfl
      | some x => exact absurd (h.told s.pending x hx).2.2.2 (hno _)
  rw [Processor.resumed, hframe] at hr
  cases hf : (s.threads s.pending).frame with
  | none =>
    rw [hf] at hr
    cases hr
  | some f =>
    obtain ⟨v0, resume⟩ := f
    rw [hf] at hr hheard hsilent
    cases resume with
    | own =>
      obtain ⟨rfl, rfl⟩ := Prod.mk.inj (Option.some.inj hr)
      rw [hsilent fun x hx => by rcases hx with hx | ⟨_, hx⟩ <;> cases hx] at hwaits'
      exact ⟨rfl, _, rfl, hwaits'⟩
    | answer =>
      obtain ⟨rfl, rfl⟩ := Prod.mk.inj (Option.some.inj hr)
      refine ⟨rfl, _, ?_, hwaits'⟩
      rw [hcurrent]
      refine hheard v0 fun x hx => ?_
      rcases hx with hx | ⟨_, hx⟩
      · cases hx
        rfl
      · cases hx
    | value v =>
      obtain ⟨rfl, rfl⟩ := Prod.mk.inj (Option.some.inj hr)
      refine ⟨rfl, _, ?_, hwaits'⟩
      rw [hcurrent]
      refine hheard v fun x hx => ?_
      rcases hx with hx | ⟨_, hx⟩
      · cases hx
      · cases hx
        rfl
    | setting event following =>
      obtain ⟨rfl, rfl⟩ := Prod.mk.inj (Option.some.inj hr)
      rw [hsilent fun x hx => by rcases hx with hx | ⟨_, hx⟩ <;> cases hx] at hwaits'
      exact ⟨rfl, _, rfl, hwaits'⟩
    | endless => cases hr

/-- **The end of a call of the running thread.** -/
theorem Waits.replied (h : Waits kind s L waiting reply) (hs : Sound s L)
    (hd : Due kind s L answer r) (hset : s.Settled ↔ ∃ v, answer = .returns v)
    (hr : Processor.replied (s, answer) = some (told, m)) :
    Processor.Follows s m ∧ ∃ reply',
      Heard waiting (Function.update reply s.current r) told reply' ∧
        Waits kind m.sched L waiting reply' := by
  cases answer with
  | returns v =>
    have hsettled : s.Settled := hset.mpr ⟨v, rfl⟩
    obtain ⟨rfl, rfl⟩ := Prod.mk.inj (Option.some.inj hr)
    have hrun : (s.threads s.current).state = .run :=
      (show s.pending = s.current from hsettled) ▸ hs.settled hsettled
    refine ⟨.inl rfl, reply, ⟨h.not_waits hs (by rw [hrun]; decide), fun x hx => ?_, ?_⟩, h⟩
    · rw [Function.update_self] at hx
      rcases hd.told x hx with heq | ⟨heq, -⟩
      · cases heq
        rfl
      · cases heq
    · rw [Function.update_idem, ← h.silent, Function.update_eq_self]
  | traps resume =>
    have hsettled : ¬ s.Settled := fun hsettled => by
      obtain ⟨v, hv⟩ := hset.mp hsettled
      cases hv
    have hwaits : ∀ k, s.current ∈ L (.waiters kind k) → (⟨0, resume⟩ : Frame).resume = .answer :=
      fun k hk => Reply.traps.inj (hd.waits k hk)
    have htold : ∀ x, r = some x → Owes (some ⟨0, resume⟩) (x.answer fun _ => kOk) ∧
        (s.threads s.current).state = .ready := fun x hx => by
      rcases hd.told x hx with heq | ⟨heq, hstate⟩
      · cases heq
      · cases heq
        exact ⟨.inr ⟨0, rfl⟩, hstate⟩
    obtain ⟨hsched, hheard⟩ := h.resumed hs hsettled hwaits htold hr
    exact ⟨.inr ⟨hsettled, _, hsched⟩, hheard⟩

end Switch

/-! ### Acts that are no calls -/

/-- Going on with the loop of `setEventFlag` is about flags; the other acts that are no calls are
about nothing. -/
def Act.about : Act → Option Kind
  | .goOn => some .event
  | _ => none

section Acts

variable {m m' : Processor} {L : Lists} {kind : Kind} {waiting : UInt32 → List ℕ}
  {reply : Replies} {a : Act} {told : Processor.Told}

/-- **An act that is no call** touches nothing of a kind other than flags, and what it lets a thread
find is what the thread was going to be told. -/
theorem Processor.Good.idles (hm : m.Good L) (h : Waits kind m.sched L waiting reply)
    (hkind : kind ≠ .thread) (hevent : kind ≠ .event) (hcall : ∀ c, a ≠ .call c)
    (hhandler : ∀ c, a ≠ .handler c) (hcareful : m.Careful a)
    (hstep : m.step a = some (told, m')) :
    ∃ L' reply', m'.Good L' ∧ Heard waiting reply told reply' ∧
      Waits kind m'.sched L' waiting reply' ∧ Untouched kind m.sched L m'.sched L' ∧
      Writes a.about m.sched.current m.sched m'.sched := by
  obtain ⟨told', m'', s', L', hacts, hdoes, hfollows, hgood⟩ :=
    hm.acts (enabled_of_step hstep) hcareful
  obtain ⟨rfl, rfl⟩ := Prod.mk.inj (Option.some.inj (hacts.symm.trans hstep))
  obtain ⟨hcalled, hpeopled, hgoing⟩ := hm
  have hkept : ∀ {s'' : Sched}, Same m.sched s'' → Untouched kind m.sched L s'' L :=
    fun hsame => ⟨fun _ => rfl, fun id => by rw [hsame.pools]⟩
  have hsilent : Function.update reply m.sched.current none = reply := by
    rw [← h.silent, Function.update_eq_self]
  -- only a walk that goes on, a delay that runs out and a switch do something
  cases hdoes with
  | call _ _ => exact absurd rfl (hcall _)
  | handler _ _ => exact absurd rfl (hhandler _)
  | @goOn event following s' answer L' hg hr hmoves =>
    have hi := hgoing (by rw [hg]; nofun)
    rw [hi] at hcalled
    obtain ⟨r, L'', hr', hout⟩ := hcalled.goOn (P := m.sched.setting event)
      (hcareful (event, following) hg) fun j hj => ⟨hj, rfl⟩
    obtain rfl := Option.some.inj (hr.symm.trans hr')
    have hp := hmoves.passes
    obtain ⟨hw, htouch⟩ := h.untouched hcalled hkind hp
      -- a walk wakes waiters of a flag, and these are of another kind
      (fun k t htk answer hw => hevent (hcalled.sound.waits_one htk hw.1).1.symm) (fun _ _ hj => hj)
      (fun _ hr => hr)
    have hdue : Due kind s' L' answer none :=
      ⟨fun k hk => by
        rw [hp.current, htouch.list] at hk
        exact absurd hk (hcalled.not_waiter kind k), nofun⟩
    rw [Processor.step, hg, Option.bind_some, hr] at hstep
    obtain ⟨-, reply', hheard, hw'⟩ := hw.replied hmoves.sound hdue (hout.thread rfl) hstep
    rw [hp.current, hsilent] at hheard
    have hsame := hfollows.same hmoves.sound
    refine ⟨L', reply', hgood, hheard, hw', ⟨htouch.list, fun id => ?_⟩, ?_⟩
    · rw [hsame.pools]
      exact htouch.found id
    · exact (writes_setLoop hr _).trans ((hfollows.leaves hmoves.sound).writes _ _)
  | enter =>
    obtain ⟨hi, hg⟩ := enabled_of_step hstep
    rw [Processor.step, if_neg (by simp [hi, hg])] at hstep
    obtain ⟨rfl, rfl⟩ := Prod.mk.inj (Option.some.inj hstep)
    exact ⟨L, reply, hgood, rfl, h, hkept (.refl _), (Leaves.refl _).writes _ _⟩
  | @expire k L' hmoves =>
    obtain ⟨hi, hk⟩ := enabled_of_step hstep
    rw [hi] at hcalled
    rw [Processor.step, if_neg (by simp [hi, hk])] at hstep
    obtain ⟨rfl, rfl⟩ := Prod.mk.inj (Option.some.inj hstep)
    have hleaves : Leaves m.sched (m.sched.delayExpired k) := by
      rw [Sched.delayExpired]
      split
      · exact leaves_wake _ _ _ _
      · exact .refl _
    -- a thread whose delay runs out sleeps, and waits for no object
    obtain ⟨hw, htouch⟩ := h.untouched hcalled hkind hmoves.passes (fun i t hti answer hw =>
      hcalled.sound.not_sleeping hti (hw.1 ▸ hw.2.1) rfl) (fun _ _ hj => hj) (fun _ hr => hr)
    exact ⟨L', reply, hgood, rfl, hw, htouch, hleaves.writes _ _⟩
  | @leave v0 =>
    have hi := enabled_of_step hstep
    have hleaves := (hfollows.leaves hcalled.sound).writes (Act.leave v0).about m.sched.current
    have htouch := hkept (hfollows.same hcalled.sound)
    rw [Processor.step, if_neg (by simp [show m.interrupt = true from hi])] at hstep
    by_cases hset : m.sched.Settled
    · have hno : m.sched.shouldPreempt = false := decide_eq_false (not_not.mpr hset)
      rw [if_neg (by simp [hno])] at hstep
      obtain ⟨rfl, rfl⟩ := Prod.mk.inj (Option.some.inj hstep)
      exact ⟨L, reply, hgood, rfl, h, htouch, hleaves⟩
    -- on the way out of the interrupt the staged thread may take over
    · have hyes : m.sched.shouldPreempt = true := decide_eq_true hset
      rw [if_pos hyes] at hstep
      obtain ⟨-, reply', hheard, hw⟩ := h.resumed (r := none) hcalled.sound hset
        (fun k hk => absurd hk (hcalled.not_waiter kind k)) nofun hstep
      rw [hsilent] at hheard
      exact ⟨L, reply', hgood, hheard, hw, htouch, hleaves⟩

end Acts

/-! ### The start -/

/-- At the start there is no object but the threads. -/
theorem lookup_started {kind : Kind} (hkind : kind ≠ .thread) (messages : ℕ → Message)
    (out : ℕ → ℕ) (id : UInt32) : lookup kind (Sched.started messages out).pools id = none := by
  rw [Option.eq_none_iff_forall_ne_some]
  intro k hk
  have hin : (World.started.pools kind k).inUse = true := (lookup_eq_some.mp hk).2.1
  simp [World.started, hkind] at hin

/-- There is nothing to wait for at the start. -/
theorem waits_started {kind : Kind} (hkind : kind ≠ .thread) (messages : ℕ → Message)
    (out : ℕ → ℕ) : Waits kind (Sched.started messages out) Lists.started (fun _ => [])
      fun _ => none := by
  refine ⟨fun id => ?_, fun t k ht => ?_, nofun⟩
  · rw [lookup_started hkind]
    rfl
  · simp [Lists.started, Lists.append_apply] at ht

end PS2Bios.Threadman
