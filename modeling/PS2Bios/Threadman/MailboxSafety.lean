import PS2Bios.Threadman.MailboxCalls

/-!
# Runs of THREADMAN do what mailboxes are for

What is seen of a careful run in which no message is sent while it is queued is what mailboxes are
for: each act does to them what is seen of it, and the runs follow by simulation.
-/

namespace PS2Bios.Threadman

open Intrusive Sched Counting

/-- The message that an act sends. -/
def Act.sends : Act → Option ℕ
  | .call (.sendMbx _ _ message) | .handler (.sendMbx _ _ message) => some message
  | _ => none

/-! ### One act -/

section Acts

variable {urgency : ℕ → ℕ} {m m' : Processor} {L : Lists} {β : Boxes} {a : Act}
  {told : Processor.Told} {reply : Replies}

/-- What is seen of the end of an act, when threads have been told `reply`. -/
theorem Heard.boxSteps (h : Heard β.base.waiting β.base.reply told reply) :
    Steps (BoxStep urgency) β told.observed { β with base := { β.base with reply := reply } } := by
  cases told with
  | thread k v =>
    obtain ⟨hwaits, hv, rfl⟩ := h
    exact .cons ⟨_, ⟨hwaits, hv, rfl⟩, rfl⟩ (.nil _)
  | handler v =>
    obtain rfl : reply = β.base.reply := h
    exact .nil β
  | nobody =>
    obtain rfl : reply = β.base.reply := h
    exact .nil β

/-- **One act does to the mailboxes what is seen of it.** -/
theorem Processor.Good.carries (hm : m.Good L) (h : Carries urgency m.sched L β)
    (hcareful : m.Careful a) (hfresh : ∀ message ∈ a.sends, m.sched.Fresh message)
    (hstep : m.step a = some (told, m')) :
    ∃ L' β', Steps (BoxStep urgency) β (m.observed a told) β' ∧ m'.Good L' ∧
      Carries urgency m'.sched L' β' := by
  -- an act that is no call is seen in what it lets threads find, and in what a loop writes
  have hidle : (∀ c, a ≠ .call c) → (∀ c, a ≠ .handler c) →
      ∃ L' β', Steps (BoxStep urgency) { β with out := m'.sched.out } told.observed β' ∧
        m'.Good L' ∧ Carries urgency m'.sched L' β' ∧
          (a.about = none → { β with out := m'.sched.out } = β) :=
    fun hcall hhandler => by
      obtain ⟨L', reply', hgood, hheard, hw, htouch, hwrites⟩ :=
        hm.idles h.waits (by decide) (by decide) hcall hhandler hcareful hstep
      have habout : a.about ≠ some .mailbox := fun h => by cases a <;> cases h
      have hsteps : Steps (BoxStep urgency) { β with out := m'.sched.out } told.observed _ :=
        Heard.boxSteps hheard
      refine ⟨L', _, hsteps, hgood, ⟨?_, hw,
        h.address_of_subset (fun id t ht => ⟨id, ht⟩) fun id t ht => ?_⟩, fun hnone => ?_⟩
      · exact h.stocks.congr htouch.found (hwrites.mailboxes habout) (hwrites.messages habout) rfl
          rfl rfl rfl rfl
      · refine hwrites.waitOut t ?_
        rintro rfl
        obtain ⟨k, hk⟩ := (h.waits.waits_iff hm.called.sound m.sched.current).mp ⟨id, ht⟩
        exact hm.called.not_waiter .mailbox k hk
      · rw [hwrites.out (by simp [hnone]) habout, ← h.stocks.out]
  cases a with
  | call c =>
    obtain ⟨hi, hg⟩ := Processor.enabled_of_step hstep
    obtain ⟨told', m'', s', L', hacts, hdoes, hfollows, hgood⟩ :=
      hm.acts (a := .call c) ⟨hi, hg⟩ hcareful
    obtain ⟨rfl, rfl⟩ := Prod.mk.inj (Option.some.inj (hacts.symm.trans hstep))
    obtain ⟨hcalled, hpeopled, -⟩ := hm
    rw [hi] at hcalled
    have hcares := Harmless.cares hcareful hpeopled hcalled.sound
    obtain ⟨r, L'', hr', hout⟩ := hcalled.perform hcares fun _ => rfl
    cases hdoes with
    | @call _ s' answer L' hr he =>
      obtain rfl := Option.some.inj (hr.symm.trans hr')
      obtain ⟨ρ, β₁, hcall, ht, hdue⟩ := h.called hcalled
        (by rintro iForm id message rfl; exact hfresh message rfl) (hcares.ready rfl)
        hcares.staged hr he
      rw [Processor.step, if_neg (by simp [hi, hg]), hr] at hstep
      obtain ⟨-, reply', hheard, hw⟩ := ht.waits.replied he.sound hdue (hout.thread rfl) hstep
      rw [he.current] at hheard
      have hsame := hfollows.same he.sound
      have hleaves := hfollows.leaves he.sound
      refine ⟨L', _, .cons hcall (Heard.boxSteps hheard), hgood,
        ⟨ht.stocks.of_same hsame rfl rfl rfl rfl rfl, hw, ?_⟩⟩
      exact ht.address_of_subset (fun id t htw => ⟨id, htw⟩) fun _ t _ => hleaves.waitOut t
  | handler c =>
    obtain ⟨hi, hc⟩ := Processor.enabled_of_step hstep
    obtain ⟨told', m'', s', L', hacts, hdoes, -, hgood⟩ :=
      hm.acts (a := .handler c) ⟨hi, hc⟩ hcareful
    obtain ⟨rfl, rfl⟩ := Prod.mk.inj (Option.some.inj (hacts.symm.trans hstep))
    obtain ⟨hcalled, -, -⟩ := hm
    rw [hi] at hcalled
    cases hdoes with
    | @handler _ s' answer L' hr he =>
      rw [Processor.step, if_neg (by simp [hi, hc]), hr] at hstep
      cases answer with
      | traps resume => cases hstep
      | returns v =>
        obtain ⟨rfl, rfl⟩ := Prod.mk.inj (Option.some.inj hstep)
        by_cases hw : ∃ received id, c = .receiveMbx received id
        · obtain ⟨received, id, rfl⟩ := hw
          obtain ⟨rfl, heq⟩ := Prod.mk.inj (Option.some.inj hr)
          cases heq
          obtain rfl := he.sound.unique hcalled.sound
          exact ⟨_, β, .cons ⟨rfl, rfl⟩ (.nil β), hgood, h⟩
        · have hw : ∀ received id, c ≠ .receiveMbx received id := fun received id heq =>
            hw ⟨received, id, heq⟩
          obtain ⟨answer, β', hdirect, ht, hg⟩ := h.direct hcalled hw
            (by rintro iForm id message rfl; exact hfresh message rfl) hcareful.staged hr he
          rcases hg.value with hv | ⟨resume, hv, -⟩
          · cases hv
            exact ⟨L', β', .cons hdirect (.nil β'), hgood, ht⟩
          · cases hv
  | goOn =>
    obtain ⟨L', β', hsteps, hgood, ht, -⟩ := hidle (by simp) (by simp)
    exact ⟨L', β', .cons ⟨_, rfl⟩ hsteps, hgood, ht⟩
  | enter =>
    obtain ⟨L', β', hsteps, hgood, ht, hnone⟩ := hidle (by simp) (by simp)
    rw [hnone rfl] at hsteps
    exact ⟨L', β', hsteps, hgood, ht⟩
  | expire k =>
    obtain ⟨L', β', hsteps, hgood, ht, hnone⟩ := hidle (by simp) (by simp)
    rw [hnone rfl] at hsteps
    exact ⟨L', β', hsteps, hgood, ht⟩
  | leave v0 =>
    obtain ⟨L', β', hsteps, hgood, ht, hnone⟩ := hidle (by simp) (by simp)
    rw [hnone rfl] at hsteps
    exact ⟨L', β', hsteps, hgood, ht⟩

end Acts

/-! ### Runs -/

/-- The mailboxes of THREADMAN are the abstract ones. -/
structure Sched.Boxed (s : Sched) (β : Boxes) : Prop where
  queue : ∀ id k, mailboxOf s.pools id = some k → s.Queued k (β.queue id)
  count : ∀ id, β.base.count id =
    (mailboxOf s.pools id).map fun k => ((s.mailboxes k).messageCount : ℤ)
  waitList : ∀ id k, mailboxOf s.pools id = some k →
    IsQueue kNone s.links (s.queues (.waiters .mailbox k)) (β.base.waiting id)
  waiting_iff : ∀ id k, mailboxOf s.pools id = some k → ∀ t, t ∈ β.base.waiting id ↔
    s.Valid t ∧ (s.threads t).state = .wait ∧ s.waitObjectOf (s.threads t) = some (.mailbox, k)
  out : s.out = β.out

/-- The rings of a scheduler that carries the boxes hold their messages. -/
theorem Carries.boxed {urgency : ℕ → ℕ} {s : Sched} {L : Lists} {β : Boxes}
    (h : Carries urgency s L β) (hs : Sound s L) : s.Boxed β := by
  refine ⟨h.stocks.box, fun id => ?_, fun id k hk => ?_, fun id k hk t => ?_, h.stocks.out.symm⟩
  · rw [h.stocks.count]
    cases hfound : mailboxOf s.pools id with
    | none => rfl
    | some k =>
      rw [Option.map_some, Option.map_some, (h.stocks.box id k hfound).count]
  · rw [h.waits.waiting_some hk]
    exact hs.linked.family.queue _ (isOn_of_lookup (by decide) hk)
  · rw [h.waits.waiting_some hk, hs.linked.mem_iff]
    refine ⟨fun ht => ⟨ht.2.1, ht.2.2⟩, fun ht => ⟨fun hmem => ?_, ht.1, ht.2⟩⟩
    obtain rfl := List.mem_singleton.mp hmem
    exact hs.pending_not_waiting ht.2.1

/-- How urgent the messages in memory are. -/
def urgencyOf (messages : ℕ → Message) (message : ℕ) : ℕ := ((messages message).rest 0).toNat

/-- At the start there are no mailboxes. -/
theorem carries_started (messages : ℕ → Message) (out : ℕ → ℕ) :
    Carries (urgencyOf messages) (Sched.started messages out) Lists.started (.start out) := by
  have hnone : ∀ id, mailboxOf (Sched.started messages out).pools id = none :=
    lookup_started (by decide) messages out
  have hno : ∀ {id k}, mailboxOf (Sched.started messages out).pools id ≠ some k := by
    intro id k hk
    rw [hnone] at hk
    cases hk
  refine ⟨⟨fun id => ?_, fun id k hk => absurd hk hno, fun id k hk => absurd hk hno,
    fun id id' k k' hk => absurd hk hno, rfl, rfl⟩, waits_started (by decide) messages out, nofun⟩
  rw [hnone]
  rfl

namespace Processor

/-- A careful act that sends no queued message, with what is seen of it. -/
def MailedStep (m : Processor) (o : List Observation) (m' : Processor) : Prop :=
  ∃ a told, m.Careful a ∧ (∀ message ∈ a.sends, m.sched.Fresh message) ∧
    m.step a = some (told, m') ∧ o = m.observed a told

variable {messages : ℕ → Message} {out : ℕ → ℕ} {trace : List (List Observation)} {m : Processor}

/-- **What is seen of a careful run is what mailboxes are for.** -/
theorem boxes_of_run (h : Steps MailedStep (started messages out) trace m) :
    ∃ β, Steps (Steps (BoxStep (urgencyOf messages))) (.start out) trace β ∧ m.sched.Boxed β := by
  obtain ⟨β, hsteps, L, hgood, ht⟩ := h.simulation
    (R := fun m β => ∃ L, m.Good L ∧ Carries (urgencyOf messages) m.sched L β)
    (fun m β o m' hR hstep => by
      obtain ⟨L, hm, ht⟩ := hR
      obtain ⟨a, told, hcareful, hfresh, hstep, rfl⟩ := hstep
      obtain ⟨L', β', hsteps, hgood, ht'⟩ := hm.carries ht hcareful hfresh hstep
      exact ⟨β', hsteps, L', hgood, ht'⟩)
    ⟨_, started_good messages out, carries_started messages out⟩
  exact ⟨β, hsteps, ht.boxed hgood.called.sound⟩

/-- Take careful acts that send no queued message, with what is seen of them. -/
def watchMail (m : Processor) (a : Act) : Option (List Observation × Processor) :=
  if m.Careful a ∧ ∀ message ∈ a.sends, m.sched.Fresh message then
    (m.step a).map fun r => (m.observed a r.1, r.2)
  else none

/-- What `watchMail` computes is a step with what it shows. -/
theorem mailedStep_of_watchMail (m : Processor) (a : Act) (o : List Observation) (m' : Processor)
    (h : m.watchMail a = some (o, m')) : m.MailedStep o m' := by
  rw [watchMail] at h
  split at h
  · next hcareful =>
    obtain ⟨⟨told, m''⟩, hstep, heq⟩ := Option.map_eq_some_iff.mp h
    obtain ⟨rfl, rfl⟩ := Prod.mk.inj heq
    exact ⟨a, told, hcareful.1, hcareful.2, hstep, rfl⟩
  · cases h

/-! Two messages are queued and received, and a third is handed to the thread that waits for it. -/

/-- Two messages wait in a box and are taken, one by a poll; a third is handed to a thread that
waits. -/
def threeMessages : List Act :=
  [.call (.createMbx 0), .call (.sendMbx false (makeId 0 1) 0x100),
    .call (.sendMbx false (makeId 0 1) 0x200), .call (.pollMbx 0x40 (makeId 0 1)),
    .call (.receiveMbx 0x44 (makeId 0 1)), .call (.receiveMbx 0x48 (makeId 0 1)), .enter,
    .handler (.sendMbx true (makeId 0 1) 0x300), .leave 0]

/-- The three messages are received in the order they were sent. -/
theorem boxes_threeMessages : ∃ trace m, Steps MailedStep nothing trace m ∧
    [m.sched.out 0x40, m.sched.out 0x44, m.sched.out 0x48] = [0x100, 0x200, 0x300] ∧
    ∃ β, Steps (Steps (BoxStep (urgencyOf fun _ => ⟨0, fun _ => 0⟩))) (.start fun _ => 0) trace β ∧
      m.sched.Boxed β := by
  have hrun : (traceList watchMail nothing threeMessages).map (fun r =>
      [r.2.sched.out 0x40, r.2.sched.out 0x44, r.2.sched.out 0x48]) =
        some [0x100, 0x200, 0x300] := by decide +kernel
  obtain ⟨⟨trace, m⟩, hm, hout⟩ := Option.map_eq_some_iff.mp hrun
  have hsteps := Steps.of_traceList mailedStep_of_watchMail hm
  exact ⟨trace, m, hsteps, hout, boxes_of_run hsteps⟩

end Processor

end PS2Bios.Threadman
