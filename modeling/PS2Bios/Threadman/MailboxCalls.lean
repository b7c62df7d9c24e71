import PS2Bios.Threadman.Answers
import PS2Bios.Threadman.Mailboxes
import PS2Bios.Threadman.MailboxSpec

/-!
# THREADMAN's mailboxes are mailboxes

`Carries urgency s L β` relates THREADMAN's variables to the abstract mailboxes: the rings of
messages are their queues, and no message is in two of them (`Stocks`), who waits and what threads
will be told is as `Waits` says, and a thread that waits has its message written to the address that
it gave. Each call keeps the relation, by what it is for, or because it is about something else.

A message is sent only while it is in no queue (`Sched.Fresh`): THREADMAN links messages through
their own first words.
-/

namespace PS2Bios.Threadman

open Intrusive Sched Counting

/-- The message is at an address, and in no queue. -/
def Sched.Fresh (s : Sched) (message : ℕ) : Prop :=
  0 < message ∧ message < 2 ^ 32 ∧ ∀ k < Kind.mailbox.slots, (s.pools .mailbox k).inUse = true →
    message ∉ s.messagesOf k

instance (s : Sched) (message : ℕ) : Decidable (s.Fresh message) :=
  inferInstanceAs (Decidable (_ ∧ _ ∧ ∀ k < Kind.mailbox.slots,
    (s.pools .mailbox k).inUse = true → message ∉ s.messagesOf k))

/-- The rings of messages are the queues. -/
structure Stocks (urgency : ℕ → ℕ) (s : Sched) (β : Boxes) : Prop where
  count : ∀ id, β.base.count id =
    (mailboxOf s.pools id).map fun _ => ((β.queue id).length : ℤ)
  box : ∀ id k, mailboxOf s.pools id = some k → s.Queued k (β.queue id)
  attr : ∀ id k, mailboxOf s.pools id = some k →
    β.byUrgency id = ((s.mailboxes k).attr &&& kMbxMessagePriority != 0) ∧
      β.byPriority id = ((s.mailboxes k).attr &&& kMbxThreadPriority != 0)
  apart : ∀ id id' k k', mailboxOf s.pools id = some k → mailboxOf s.pools id' = some k' →
    id ≠ id' → ∀ message ∈ β.queue id, message ∉ β.queue id'
  rank : s.rank = urgency
  out : β.out = s.out

/-- The scheduler carries the mailboxes `β`: the rings hold their messages, the queues their
receivers, and each receiver's record says where its message is to be stored. -/
structure Carries (urgency : ℕ → ℕ) (s : Sched) (L : Lists) (β : Boxes) : Prop where
  stocks : Stocks urgency s β
  waits : Waits .mailbox s L β.base.waiting β.base.reply
  address : ∀ id, ∀ t ∈ β.base.waiting id, β.address t = (s.threads t).waitOut

section Stocks

variable {urgency : ℕ → ℕ} {s s' : Sched} {L L' : Lists} {β β' : Boxes} {interrupt : Bool}
  {id : UInt32} {k t message : ℕ} {l m : List ℕ}

theorem Stocks.count_some (h : Stocks urgency s β) (hfound : mailboxOf s.pools id = some k) :
    β.base.count id = some ((β.queue id).length : ℤ) := by
  rw [h.count, hfound]
  rfl

theorem Stocks.count_none (h : Stocks urgency s β) (hfound : mailboxOf s.pools id = none) :
    β.base.count id = none := by
  rw [h.count, hfound]
  rfl

theorem Sched.Fresh.not_mem (hm : s.Fresh message) (h : Stocks urgency s β)
    (hfound : mailboxOf s.pools id = some k) : message ∉ β.queue id := by
  obtain ⟨hk, hin, -⟩ := lookup_eq_some.mp hfound
  rw [← (h.box id k hfound).messagesOf_eq]
  exact hm.2.2 k hk hin

/-- The stocks are no matter of the lists, and none of the history. -/
theorem Stocks.congr (h : Stocks urgency s β)
    (hfound : ∀ id, mailboxOf s'.pools id = mailboxOf s.pools id)
    (hboxes : s'.mailboxes = s.mailboxes) (hmessages : s'.messages = s.messages)
    (hcount : β'.base.count = β.base.count) (hqueue : β'.queue = β.queue)
    (hurgency : β'.byUrgency = β.byUrgency) (hpriority : β'.byPriority = β.byPriority)
    (hout : β'.out = s'.out) : Stocks urgency s' β' := by
  refine ⟨fun id => ?_, fun id k hk => ?_, fun id k hk => ?_, fun id id' k k' hk hk' => ?_,
    (rank_congr hmessages).trans h.rank, hout⟩
  · rw [hcount, hfound, hqueue]
    exact h.count id
  · rw [hfound] at hk
    rw [hqueue]
    exact (h.box id k hk).congr hmessages (congrFun hboxes k)
  · rw [hfound] at hk
    rw [hurgency, hpriority, hboxes]
    exact h.attr id k hk
  · rw [hfound] at hk hk'
    rw [hqueue]
    exact h.apart id id' k k' hk hk'

/-- The stocks depend on what a step keeps of the mailboxes only. -/
theorem Stocks.of_same (h : Stocks urgency s β) (hsame : Same s s')
    (hcount : β'.base.count = β.base.count) (hqueue : β'.queue = β.queue)
    (hurgency : β'.byUrgency = β.byUrgency) (hpriority : β'.byPriority = β.byPriority)
    (hout : β'.out = β.out) : Stocks urgency s' β' :=
  h.congr (fun id => by rw [hsame.pools]) hsame.mailboxes hsame.messages hcount hqueue hurgency
    hpriority (hout.trans (h.out.trans hsame.out.symm))

/-- **The queue of a box is written.** -/
theorem Stocks.requeue (h : Stocks urgency s β) (hfound : mailboxOf s.pools id = some k)
    (hpools : s'.pools = s.pools) (hr : s.Relinks k m s') (hq : s'.Queued k l)
    (hapart : ∀ id' k', id' ≠ id → mailboxOf s.pools id' = some k' → ∀ x ∈ β.queue id', x ∉ m)
    (hl : ∀ x ∈ l, x ∈ m)
    (hcount : β'.base.count = Function.update β.base.count id (some (l.length : ℤ)))
    (hqueue : β'.queue = Function.update β.queue id l)
    (hurgency : β'.byUrgency = β.byUrgency) (hpriority : β'.byPriority = β.byPriority)
    (hout : β'.out = s'.out) : Stocks urgency s' β' := by
  have hother : ∀ id' k', id' ≠ id → mailboxOf s.pools id' = some k' → k' ≠ k := by
    rintro id' k' hne hk rfl
    exact hne (lookup_inj hk hfound)
  refine ⟨fun id' => ?_, fun id' k' hk => ?_, fun id' k' hk => ?_,
    fun id₁ id₂ k₁ k₂ hk₁ hk₂ hne x hx₁ hx₂ => ?_, hr.rank.trans h.rank, hout⟩
  · rw [hpools, hcount, hqueue, Function.update_apply, Function.update_apply]
    split
    · next heq =>
      rw [heq, hfound]
      rfl
    · exact h.count id'
  · rw [hpools] at hk
    rw [hqueue, Function.update_apply]
    split
    · next heq =>
      obtain rfl := Option.some.inj (hk.symm.trans (heq ▸ hfound))
      exact hq
    · next hne => exact hr.queued (hother id' k' hne hk) (h.box id' k' hk) (hapart id' k' hne hk)
  · rw [hpools] at hk
    rw [hurgency, hpriority]
    by_cases hne : id' = id
    · obtain rfl := Option.some.inj (hk.symm.trans (hne ▸ hfound))
      rw [hr.attr]
      exact h.attr id' k' hk
    · rw [hr.mailboxes k' (hother id' k' hne hk)]
      exact h.attr id' k' hk
  · rw [hpools] at hk₁ hk₂
    rw [hqueue, Function.update_apply] at hx₁ hx₂
    split at hx₁
    · next heq =>
      rw [if_neg fun heq' => hne (heq.trans heq'.symm)] at hx₂
      exact hapart id₂ k₂ (fun heq' => hne (heq.trans heq'.symm)) hk₂ x hx₂ (hl x hx₁)
    · next hne₁ =>
      split at hx₂
      · exact hapart id₁ k₁ hne₁ hk₁ x hx₁ (hl x hx₂)
      · exact h.apart id₁ id₂ k₁ k₂ hk₁ hk₂ hne x hx₁ hx₂

/-- Where threads want their messages is what it was, for those that wait still. -/
theorem Carries.address_of_subset (h : Carries urgency s L β) {waiting : UInt32 → List ℕ}
    (hsub : ∀ id, ∀ t ∈ waiting id, ∃ id', t ∈ β.base.waiting id')
    (hout : ∀ id, ∀ t ∈ waiting id, (s'.threads t).waitOut = (s.threads t).waitOut) :
    ∀ id, ∀ t ∈ waiting id, β.address t = (s'.threads t).waitOut := by
  intro id t ht
  obtain ⟨id', ht'⟩ := hsub id t ht
  rw [hout id t ht]
  exact h.address id' t ht'

/-! ### Messages sent -/

/-- A message to a box nobody waits at goes into its ring. -/
theorem Carries.accepted (h : Carries urgency s L β) (hfound : mailboxOf s.pools id = some k)
    (hm : s.Fresh message) (hwaiting : β.base.waiting id = []) :
    Carries urgency (s.accept k message) L
      (β.send urgency id message ((β.queue id).length : ℤ)) := by
  have hq := h.stocks.box id k hfound
  have hno := hm.not_mem h.stocks hfound
  have hquiet : Quiet s (s.accept k message) :=
    (quiet_queueMessage s k message).trans (quiet_setMailbox _ k _)
  have haccept := hq.accept hno ⟨hm.1, hm.2.1⟩
  have hrelinks := hq.relinks_accept message
  have hplace : (if ((s.mailboxes k).attr &&& kMbxMessagePriority != 0) = true then
      insertBy s.rank message (β.queue id) else β.queue id ++ [message]) =
        β.place urgency id message := by
    rw [Boxes.place, (h.stocks.attr id k hfound).1, h.stocks.rank]
  have hlength : (β.place urgency id message).length = (β.queue id).length + 1 := by
    rw [Boxes.place]
    split
    · rw [insertBy, List.length_append, List.length_cons, ← Nat.add_assoc, ← List.length_append,
        List.takeWhile_append_dropWhile]
    · rw [List.length_append, List.length_singleton]
  have hmem : ∀ x ∈ β.place urgency id message, x ∈ message :: β.queue id := by
    intro x hx
    rw [Boxes.place] at hx
    split at hx
    · exact List.mem_cons.mpr (mem_insertBy.mp hx)
    · exact List.mem_cons.mpr ((List.mem_append.mp hx).symm.imp_left List.mem_singleton.mp)
  rw [hplace] at haccept
  rw [Boxes.send, hwaiting]
  dsimp only
  have hsignal : β.base.signal (· + 1) id ((β.queue id).length : ℤ) =
      β.base.setCount id (some ((β.queue id).length + 1)) := by
    rw [Counting.Semas.signal, hwaiting]
  rw [hsignal]
  refine ⟨h.stocks.requeue hfound hquiet.pools hrelinks haccept ?_ hmem ?_ rfl rfl rfl ?_,
    h.waits.quiet hquiet, fun id' t ht => ?_⟩
  · intro id' k' hne hk x hx hxm
    rcases List.mem_cons.mp hxm with rfl | hxm
    · exact hm.not_mem h.stocks hk hx
    · exact h.stocks.apart id' id k' k hk hfound hne x hx hxm
  · simp [Counting.Semas.setCount, hlength]
  · exact h.stocks.out.trans hrelinks.out.symm
  · rw [hrelinks.threads]
    exact h.address id' t ht

/-- **A message is handed to the first thread that waits.** -/
theorem Carries.handed (h : Carries urgency s L β) (hs : Called s L interrupt)
    (hfound : mailboxOf s.pools id = some k) (hl : L (.waiters .mailbox k) = t :: l)
    (hd : Decides ((s.writeOut (s.threads t).waitOut message).woken t kOk)
      (Lists.wake (s.writeOut (s.threads t).waitOut message) L t) t interrupt
      ((s.writeOut (s.threads t).waitOut message).wake t kOk interrupt).1 L') (n : ℤ) :
    Carries urgency ((s.writeOut (s.threads t).waitOut message).wake t kOk interrupt).1 L'
      (β.send urgency id message n) := by
  have ht : t ∈ L (.waiters .mailbox k) := hl ▸ List.mem_cons_self
  have hwaiting : β.base.waiting id = t :: l := (h.waits.waiting_some hfound).trans hl
  have hquiet := quiet_writeOut s (s.threads t).waitOut message
  have hleaves := leaves_wake (s.writeOut (s.threads t).waitOut message) t kOk interrupt
  have hsame := same_wake (s.writeOut (s.threads t).waitOut message) t kOk interrupt
  have hwritten : (s.writeOut (s.threads t).waitOut message).threads = s.threads ∧
      (s.writeOut (s.threads t).waitOut message).mailboxes = s.mailboxes ∧
      (s.writeOut (s.threads t).waitOut message).messages = s.messages := by
    rw [writeOut]
    split <;> exact ⟨rfl, rfl, rfl⟩
  obtain ⟨hthreads, hboxes, hmessages⟩ := hwritten
  have hout : β.handed t message = (s.writeOut (s.threads t).waitOut message).out := by
    rw [Boxes.handed, h.address id t (by rw [hwaiting]; exact List.mem_cons_self), h.stocks.out,
      writeOut]
    split <;> rfl
  have hcalled : Called (s.writeOut (s.threads t).waitOut message) L interrupt :=
    (hs.quiet (P := s.permits .exitThread) hquiet).2
  rw [Boxes.send, hwaiting]
  dsimp only
  rw [h.waits.signal_cons hs.sound hfound hl]
  refine ⟨h.stocks.congr (fun id => ?_) (hleaves.mailboxes.trans hboxes)
    (hleaves.messages.trans hmessages) rfl rfl rfl rfl (hout.trans hleaves.out.symm),
    (h.waits.quiet hquiet).wake hcalled ht (.handed id) hd, ?_⟩
  · rw [hsame.pools, hquiet.pools]
  · refine h.address_of_subset (fun id' j hj => ⟨id', List.mem_of_mem_erase hj⟩) fun _ j _ => ?_
    rw [hleaves.waitOut, hthreads]

/-- A message goes to the first receiver, or into the ring. -/
theorem Carries.sendMbx (h : Carries urgency s L β) (hs : Called s L interrupt) {iForm : Bool}
    (hm : s.Fresh message) (hsound : Sound (s.sendMbx interrupt iForm id message).1 L') :
    ∃ answer β', β.direct urgency interrupt (.sendMbx iForm id message) answer β' ∧
      Carries urgency (s.sendMbx interrupt iForm id message).1 L' β' ∧
        Gives (s.sendMbx interrupt iForm id message).1 (s.sendMbx interrupt iForm id message).2
          answer (some (.own answer)) := by
  simp only [Boxes.direct, Boxes.sends]
  rw [Sched.sendMbx] at hsound ⊢
  -- a call in the other form than its context's is refused
  by_cases hform : interrupt = iForm
  swap
  · rw [if_pos hform] at hsound
    simp only [if_pos hform]
    obtain rfl := hsound.unique hs.sound
    exact ⟨_, β, ⟨rfl, rfl⟩, h, .of_returns _ _ _⟩
  · subst hform
    rw [if_neg (not_not.mpr rfl)] at hsound
    simp only [ne_eq, not_true_eq_false, if_false]
    cases hfound : mailboxOf s.pools id with
    | none =>
      rw [hfound] at hsound
      obtain rfl := hsound.unique hs.sound
      rw [h.stocks.count_none hfound]
      exact ⟨_, β, ⟨rfl, rfl⟩, h, .of_returns _ _ _⟩
    | some k =>
      rw [hfound] at hsound
      rw [h.stocks.count_some hfound]
      dsimp only at hsound ⊢
      have hhead := hs.sound.linked.head (isOn_of_lookup (by decide) hfound)
      have hwaiting := h.waits.waiting_some hfound
      rw [hhead] at hsound ⊢
      cases hl : L (.waiters .mailbox k) with
      | nil =>
        rw [hl, List.headD_nil, if_neg (not_not.mpr rfl)] at hsound
        rw [List.headD_nil, if_neg (not_not.mpr rfl)]
        have hquiet : Quiet s (s.accept k message) :=
          (quiet_queueMessage s k message).trans (quiet_setMailbox _ k _)
        obtain rfl := hsound.unique (hquiet.sound hs.sound)
        exact ⟨_, _, ⟨rfl, rfl⟩, h.accepted hfound hm (hwaiting.trans hl), .of_returns _ _ _⟩
      -- the first waiter gets the message, where it wanted it
      | cons t l =>
        have ht : t ∈ L (.waiters .mailbox k) := hl ▸ List.mem_cons_self
        obtain ⟨-, hv, hw, -⟩ := (hs.sound.linked.mem_iff t _).mp ht
        rw [hl, List.headD_cons, if_pos (ne_kNone_of_lt hv.1)] at hsound
        rw [List.headD_cons, if_pos (ne_kNone_of_lt hv.1)]
        have hquiet := quiet_writeOut s (s.threads t).waitOut message
        have hcalled : Called (s.writeOut (s.threads t).waitOut message) L interrupt :=
          (hs.quiet (P := s.permits .exitThread) hquiet).2
        obtain ⟨L'', hd, hsound'', -, -⟩ := hcalled.wake (hquiet.valid.mpr hv)
          ((hquiet.state t).trans hw) kOk
        obtain rfl := hsound.unique hsound''
        refine ⟨_, _, ⟨rfl, rfl⟩, ?_, hcalled.gives_andReturn (hquiet.valid.mpr hv)
          ((hquiet.state t).trans hw) _⟩
        exact h.handed hs hfound hl hd _

/-! ### Messages received -/

/-- **The first message is received.** -/
theorem Carries.takeMessage (h : Carries urgency s L β) (hfound : mailboxOf s.pools id = some k)
    (hl : β.queue id = message :: l) (received : ℕ) :
    Carries urgency (s.takeMessage k received).1 L
      (β.take id received ((β.queue id).length : ℤ) message l) ∧
        (s.takeMessage k received).2 = .returns kOk := by
  have hq : s.Queued k (message :: l) := hl ▸ h.stocks.box id k hfound
  obtain ⟨hfirst, hqueued, hrelinks⟩ := hq.dequeueMessage
  have hquiet := quiet_takeMessage s k received
  have hwritten : (s.takeMessage k received).1 =
      { (s.dequeueMessage k).2 with out := Function.update s.out received message } := by
    rw [Sched.takeMessage]
    dsimp only
    rw [hfirst, hrelinks.out]
  have hstocks : Stocks urgency (s.dequeueMessage k).2
      { β.take id received ((β.queue id).length : ℤ) message l with
        out := (s.dequeueMessage k).2.out } := by
    refine h.stocks.requeue hfound (quiet_dequeueMessage s k).pools hrelinks hqueued ?_
      (fun x hx => List.mem_cons_of_mem _ hx) ?_ rfl rfl rfl rfl
    · intro id' k' hne hk x hx hxm
      exact h.stocks.apart id' id k' k hk hfound hne x hx (hl ▸ hxm)
    · simp [Boxes.take, Counting.Semas.setCount, hl]
  refine ⟨⟨?_, h.waits.quiet hquiet, fun id' t ht => ?_⟩, rfl⟩
  · rw [hwritten]
    refine hstocks.congr (fun _ => rfl) rfl rfl rfl rfl rfl rfl ?_
    rw [Boxes.take, h.stocks.out]
  · have hthreads : (s.takeMessage k received).1.threads = s.threads := by
      rw [hwritten]
      exact hrelinks.threads
    rw [hthreads]
    exact h.address id' t ht

/-- A poll takes the first message, or is told there is none. -/
theorem Carries.pollMbx (h : Carries urgency s L β) (hs : Called s L interrupt) {received : ℕ}
    (hsound : Sound (s.pollMbx received id).1 L') :
    ∃ answer β', β.polled received id answer β' ∧
      Carries urgency (s.pollMbx received id).1 L' β' ∧
        Gives (s.pollMbx received id).1 (s.pollMbx received id).2 answer
          (some (.own answer)) := by
  unfold Boxes.polled
  rw [Sched.pollMbx] at hsound ⊢
  cases hfound : mailboxOf s.pools id with
  | none =>
    rw [hfound] at hsound
    obtain rfl := hsound.unique hs.sound
    rw [h.stocks.count_none hfound]
    exact ⟨_, β, ⟨rfl, rfl⟩, h, .of_returns _ _ _⟩
  | some k =>
    rw [hfound] at hsound
    rw [h.stocks.count_some hfound]
    have hcount := (h.stocks.box id k hfound).count
    dsimp only at hsound ⊢
    cases hl : β.queue id with
    | nil =>
      have hzero : (s.mailboxes k).messageCount = 0 := by rw [hcount, hl, List.length_nil]
      rw [if_pos hzero] at hsound ⊢
      obtain rfl := hsound.unique hs.sound
      exact ⟨_, β, ⟨rfl, rfl⟩, h, .of_returns _ _ _⟩
    | cons message l =>
      have hne : (s.mailboxes k).messageCount ≠ 0 := by
        rw [hcount, hl]
        exact Nat.succ_ne_zero _
      rw [if_neg hne] at hsound ⊢
      obtain ⟨htake, hreply⟩ := h.takeMessage hfound hl received
      obtain rfl := hsound.unique ((quiet_takeMessage s k received).sound hs.sound)
      rw [hl] at htake
      rw [hreply]
      exact ⟨_, _, ⟨rfl, rfl⟩, htake, .of_returns _ _ _⟩

/-! ### Mailboxes made and deleted -/

/-- What `createMbx` answers and writes. -/
theorem createMbx_cases (s : Sched) (interrupt : Bool) (attr : UInt32) :
    (∃ code < 0, s.createMbx interrupt attr = (s, .returns code)) ∨
      ∃ k g s', k < Kind.mailbox.slots ∧ (s.pools .mailbox k).inUse = false ∧
        s.createMbx interrupt attr = (s', .returns (makeId k g).toNat) ∧
        s'.pools = s.pools.set .mailbox k ⟨true, g⟩ ∧
        s'.mailboxes = Function.update s.mailboxes k ⟨attr, 0, 0⟩ ∧
        s'.messages = s.messages ∧ s'.out = s.out ∧ s'.threads = s.threads := by
  rw [Sched.createMbx, Threadman.createMbx]
  unfold Sched.createObject
  rcases create_cases interrupt .mailbox kMbxAttrMask attr s.pools with
    ⟨code, hneg, heq⟩ | ⟨k, hk, hfree, heq⟩
  · rw [heq]
    exact .inl ⟨code, hneg, rfl⟩
  · rw [heq, occupy]
    have hslot : slotOf (makeId k ((s.pools .mailbox k).generation + 1)) = k :=
      slotOf_makeId (hk.trans_le (Kind.slots_le _)) _
    dsimp only
    rw [hslot]
    exact .inr ⟨k, _, _, hk, hfree, rfl, rfl, rfl, rfl, rfl, rfl⟩

/-- A mailbox that is made has an empty ring. -/
theorem Stocks.made (h : Stocks urgency s β) {attr : UInt32} {g : UInt8}
    (hk : k < Kind.mailbox.slots) (hfree : (s.pools .mailbox k).inUse = false)
    (hpools : s'.pools = s.pools.set .mailbox k ⟨true, g⟩)
    (hboxes : s'.mailboxes = Function.update s.mailboxes k ⟨attr, 0, 0⟩)
    (hmessages : s'.messages = s.messages) (hout : s'.out = s.out) :
    Stocks urgency s' (β.made attr (makeId k g)) := by
  have hfound : ∀ id, mailboxOf s'.pools id =
      if id = makeId k g then some k else mailboxOf s.pools id := fun id => by
    rw [hpools]
    exact lookup_occupied hk hfree id
  -- a new id is found, in a slot that no box was in
  have hother : ∀ id i, mailboxOf s.pools id = some i → i ≠ k := by
    rintro id i hi rfl
    exact Bool.false_ne_true (hfree.symm.trans (lookup_eq_some.mp hi).2.1)
  refine ⟨fun id => ?_, fun id i hi => ?_, fun id i hi => ?_, fun id id' i i' hi hi' hne => ?_,
    (rank_congr hmessages).trans h.rank, h.out.trans hout.symm⟩
  · simp only [Boxes.made, Counting.Semas.setCount, hfound, Function.update_apply]
    split
    · rfl
    · exact h.count id
  · rw [hfound] at hi
    simp only [Boxes.made, Function.update_apply]
    split at hi
    · next heq =>
      obtain rfl := Option.some.inj hi
      rw [if_pos heq]
      refine ⟨⟨List.nodup_nil, nofun⟩, ?_, ?_, nofun⟩
      · rw [hboxes, Function.update_self]
        rfl
      · rw [hboxes, Function.update_self]
        rfl
    · next hne =>
      rw [if_neg hne]
      exact (h.box id i hi).congr hmessages
        (by rw [hboxes, Function.update_of_ne (hother id i hi)])
  · rw [hfound] at hi
    simp only [Boxes.made, Function.update_apply, hboxes]
    split at hi
    · next heq =>
      obtain rfl := Option.some.inj hi
      simp [heq]
    · next hne =>
      rw [if_neg hne, if_neg hne, if_neg (hother id i hi)]
      exact h.attr id i hi
  · rw [hfound] at hi hi'
    simp only [Boxes.made, Function.update_apply]
    intro x hx
    split at hx
    · cases hx
    · next hid =>
      rw [if_neg hid] at hi
      split
      · exact List.not_mem_nil
      · next hid' =>
        rw [if_neg hid'] at hi'
        exact h.apart id id' i i' hi hi' hne x hx

/-- A creation makes a mailbox of the abstract ones. -/
theorem Carries.createMbx (h : Carries urgency s L β) (hs : Called s L interrupt) {attr : UInt32}
    (hsound : Sound (s.createMbx interrupt attr).1 L')
    (hp : Passes (s.permits (.createMbx attr)) s L (s.createMbx interrupt attr).1 L') :
    ∃ answer β', β.created attr answer β' ∧ Carries urgency (s.createMbx interrupt attr).1 L' β' ∧
      Gives (s.createMbx interrupt attr).1 (s.createMbx interrupt attr).2 answer
        (some (.own answer)) := by
  rcases createMbx_cases s interrupt attr with
    ⟨code, hneg, heq⟩ | ⟨k, g, s', hk, hfree, heq, hpools, hboxes, hmessages, hout, hthreads⟩
  · rw [heq] at hsound ⊢
    obtain rfl := hsound.unique hs.sound
    exact ⟨code, β, .inl ⟨hneg, rfl⟩, h, .of_returns _ _ _⟩
  · rw [heq] at hp ⊢
    refine ⟨_, _, .inr ⟨makeId k g, h.stocks.count_none (lookup_of_free hk hfree), rfl, rfl⟩,
      ⟨h.stocks.made hk hfree hpools hboxes hmessages hout, ?_, fun id t ht => ?_⟩,
      .of_returns _ _ _⟩
    · exact h.waits.made hs hp (fun _ _ hw => hw) (fun _ _ hj => hj) hk hfree hpools
    · change β.address t = (s'.threads t).waitOut
      rw [hthreads]
      exact h.address id t ht

/-- A mailbox that is deleted takes its messages along. -/
theorem Stocks.deleted (h : Stocks urgency s β) (hk : mailboxOf s.pools id = some k)
    (hpools : s'.pools = vacate .mailbox s.pools k) (hleaves : Leaves s s')
    (hcount : β'.base.count = Function.update β.base.count id none)
    (hqueue : β'.queue = Function.update β.queue id [])
    (hurgency : β'.byUrgency = β.byUrgency) (hpriority : β'.byPriority = β.byPriority)
    (hout : β'.out = β.out) : Stocks urgency s' β' := by
  have hfound : ∀ id', mailboxOf s'.pools id' =
      if id' = id then none else mailboxOf s.pools id' := fun id' => by
    rw [hpools]
    exact lookup_vacated hk id'
  have hothers : ∀ id' i, mailboxOf s'.pools id' = some i →
      id' ≠ id ∧ mailboxOf s.pools id' = some i := fun id' i hi => by
    rw [hfound] at hi
    split at hi
    · cases hi
    · next hne => exact ⟨hne, hi⟩
  refine ⟨fun id' => ?_, fun id' i hi => ?_, fun id' i hi => ?_,
    fun id₁ id₂ i₁ i₂ hi₁ hi₂ hne => ?_, (rank_congr hleaves.messages).trans h.rank,
    hout.trans (h.out.trans hleaves.out.symm)⟩
  · simp only [hcount, hqueue, hfound, Function.update_apply]
    split
    · rfl
    · exact h.count id'
  · obtain ⟨hne, hi⟩ := hothers id' i hi
    rw [hqueue, Function.update_of_ne hne]
    exact (h.box id' i hi).congr hleaves.messages (congrFun hleaves.mailboxes i)
  · obtain ⟨-, hi⟩ := hothers id' i hi
    rw [hurgency, hpriority, hleaves.mailboxes]
    exact h.attr id' i hi
  · obtain ⟨hne₁, hi₁⟩ := hothers id₁ i₁ hi₁
    obtain ⟨hne₂, hi₂⟩ := hothers id₂ i₂ hi₂
    rw [hqueue, Function.update_of_ne hne₁, Function.update_of_ne hne₂]
    exact h.apart id₁ id₂ i₁ i₂ hi₁ hi₂ hne

/-- A deletion takes the abstract mailbox away and tells its receivers. -/
theorem Carries.deleteMbx (h : Carries urgency s L β) (hs : Called s L interrupt)
    {r : Sched × Reply} (hr : s.deleteMbx interrupt id = some r) (hsound : Sound r.1 L')
    (hp : Passes (s.permits (.deleteMbx id)) s L r.1 L') :
    ∃ answer β', β.direct urgency interrupt (.deleteMbx id) answer β' ∧ Carries urgency r.1 L' β' ∧
      Gives r.1 r.2 answer (some (.own answer)) := by
  have hleaves := leaves_deleteObject hr
  simp only [Boxes.direct, Boxes.deleted]
  rcases deleteObject_cases hr with ⟨hi, rfl⟩ | ⟨hi, hfound, rfl⟩ |
    ⟨hi, k, hfound, s', hsame, rfl⟩
  · obtain rfl := hsound.unique hs.sound
    simp only [hi, if_true]
    exact ⟨_, β, ⟨rfl, rfl⟩, h, .of_returns _ _ _⟩
  · obtain rfl := hsound.unique hs.sound
    simp only [hi, Bool.false_eq_true, if_false, h.stocks.count_none hfound]
    exact ⟨_, β, ⟨rfl, rfl⟩, h, .of_returns _ _ _⟩
  · simp only [hi, Bool.false_eq_true, if_false, h.stocks.count_some hfound]
    have hpools : ({ s' with pools := vacate .mailbox s'.pools k } : Sched).pools =
        vacate .mailbox s.pools k := congrArg (vacate .mailbox · k) hsame.pools
    refine ⟨_, _, ⟨rfl, rfl⟩, ⟨h.stocks.deleted hfound hpools hleaves rfl rfl rfl rfl rfl, ?_, ?_⟩,
      .of_returns _ _ _⟩
    · refine h.waits.deleted hs hsound hp (fun t answer hw => ?_) (fun _ _ hj => hj) hfound hpools
      obtain ⟨⟨i, hi, hb⟩, hanswer⟩ := hw
      obtain rfl := Option.some.inj (hi.symm.trans hfound)
      exact ⟨hb, hanswer⟩
    · refine h.address_of_subset (fun id' t ht => ?_) fun _ t _ => hleaves.waitOut t
      simp only [Counting.Semas.delete, Function.update_apply] at ht
      split at ht
      · cases ht
      · exact ⟨id', ht⟩

/-! ### Any call but a wait -/

/-- A call that is about something else. -/
theorem Carries.other (h : Carries urgency s L β) (hs : Called s L interrupt) {c : Service}
    (habout : c.about ≠ some .mailbox) (hoff : c.unlists = none) {r : Sched × Reply}
    (hr : s.perform interrupt c = some r) (he : Effect s L interrupt c r.1 L') :
    Carries urgency r.1 L' { β with out := r.1.out } := by
  obtain ⟨hwaits, huntouched⟩ := h.waits.other hs (by decide) habout hoff he
  have hwrites := perform_writes hr
  refine ⟨h.stocks.congr huntouched.found (hwrites.mailboxes habout) (hwrites.messages habout) rfl
    rfl rfl rfl rfl, hwaits, h.address_of_subset (fun id t ht => ⟨id, ht⟩) fun id t ht => ?_⟩
  refine hwrites.waitOut t ?_
  rintro rfl
  obtain ⟨k, hk⟩ := (h.waits.waits_iff hs.sound s.current).mp ⟨id, ht⟩
  exact hs.not_waiter .mailbox k hk

/-- The calls about event flags that write no result. -/
theorem setEvent_out {c : Service} {r : Sched × Reply} (hr : s.perform interrupt c = some r)
    (hc : c.about ≠ some .mailbox) (hset : ∀ id bits, c ≠ .setEventFlag id bits)
    (hwait : ∀ id bits mode result poll, c ≠ .waitEventFlag id bits mode result poll) :
    r.1.out = s.out := by
  cases c
  case createEventFlag attr bits =>
    obtain rfl := Option.some.inj hr
    rw [Sched.createEventFlag]
    unfold Sched.createObject
    split <;> rfl
  case deleteEventFlag id => exact (leaves_deleteObject hr).out
  case clearEventFlag id keep =>
    obtain rfl := Option.some.inj hr
    rw [Sched.clearEventFlag]
    split <;> rfl
  case setEventFlag id bits => exact absurd rfl (hset id bits)
  case waitEventFlag id bits mode result poll => exact absurd rfl (hwait id bits mode result poll)
  all_goals exact (perform_writes hr).out (fun h => by cases h) hc

/-- **A call that does not wait for a message does to the mailboxes what it is for.** -/
theorem Carries.direct (h : Carries urgency s L β) (hs : Called s L interrupt) {c : Service}
    (hc : ∀ received id, c ≠ .receiveMbx received id)
    (hfresh : ∀ iForm id message, c = .sendMbx iForm id message → s.Fresh message)
    (hcareful : s.aims c = some s.pending → s.Settled) {r : Sched × Reply}
    (hr : s.perform interrupt c = some r) (he : Effect s L interrupt c r.1 L') :
    ∃ answer β', β.direct urgency interrupt c answer β' ∧ Carries urgency r.1 L' β' ∧
      Gives r.1 r.2 answer (Boxes.told answer c) := by
  -- what tells the observer nothing
  have hsilent : ∀ β', (∀ answer, Boxes.told answer c = none) →
      (∀ answer, β.direct urgency interrupt c answer β') → Carries urgency r.1 L' β' →
      ∃ answer β', β.direct urgency interrupt c answer β' ∧ Carries urgency r.1 L' β' ∧
        Gives r.1 r.2 answer (Boxes.told answer c) := fun β' htold hdirect ht => by
    obtain ⟨answer, hg⟩ := Gives.of_silent r.1 r.2
    exact ⟨answer, β', hdirect answer, ht, (htold answer).symm ▸ hg⟩
  -- a call about no mailbox, which takes nobody off a list
  have hother : c.about ≠ some .mailbox → c.unlists = none →
      (∀ id bits, c ≠ .setEventFlag id bits) →
      (∀ id bits mode result poll, c ≠ .waitEventFlag id bits mode result poll) →
      Carries urgency r.1 L' β := fun habout hoff hset hwait => by
    have hcarries := h.other hs habout hoff hr he
    rw [setEvent_out hr habout hset hwait, ← h.stocks.out] at hcarries
    exact hcarries
  cases c
  case receiveMbx received id => exact absurd rfl (hc received id)
  case createMbx attr =>
    obtain rfl := Option.some.inj hr
    exact h.createMbx hs he.sound (he.passes hs.sound nofun)
  case deleteMbx id => exact h.deleteMbx hs hr he.sound (he.passes hs.sound nofun)
  case sendMbx iForm id message =>
    obtain rfl := Option.some.inj hr
    exact h.sendMbx hs (hfresh iForm id message rfl) he.sound
  case pollMbx received id =>
    obtain rfl := Option.some.inj hr
    exact h.pollMbx hs he.sound
  case setEventFlag id bits =>
    exact hsilent _ (fun _ => rfl) (fun _ => ⟨_, rfl⟩) (h.other hs (by nofun) rfl hr he)
  case waitEventFlag id bits mode result poll =>
    exact hsilent _ (fun _ => rfl) (fun _ => ⟨_, rfl⟩) (h.other hs (by nofun) rfl hr he)
  -- who is released or ended may have waited at a mailbox
  case releaseWaitThread id =>
    obtain rfl := Option.some.inj hr
    have hleaves := leaves_releaseWaitThread s interrupt id
    obtain ⟨hsame, hw | ⟨hwaits, hw⟩⟩ := h.waits.releaseWaitThread hs (by decide) he.sound
    · exact hsilent β (fun _ => rfl) (fun _ => .inl rfl)
        ⟨h.stocks.of_same hsame rfl rfl rfl rfl rfl, hw,
          h.address_of_subset (fun id t ht => ⟨id, ht⟩) fun _ t _ => hleaves.waitOut t⟩
    · exact hsilent _ (fun _ => rfl) (fun _ => .inr ⟨_, .inl ⟨hwaits, rfl⟩, rfl⟩)
        ⟨h.stocks.of_same hsame rfl rfl rfl rfl rfl, hw,
          h.address_of_subset (fun id t ht => ⟨id, List.mem_of_mem_erase ht⟩)
            fun _ t _ => hleaves.waitOut t⟩
  case terminateThread id =>
    obtain rfl := Option.some.inj hr
    have hleaves := leaves_terminateThread s id
    obtain ⟨hsame, hw | hw⟩ := h.waits.terminateThread hs hcareful he.sound
    · exact hsilent β (fun _ => rfl) (fun _ => .inl rfl)
        ⟨h.stocks.of_same hsame rfl rfl rfl rfl rfl, hw,
          h.address_of_subset (fun id t ht => ⟨id, ht⟩) fun _ t _ => hleaves.waitOut t⟩
    · exact hsilent _ (fun _ => rfl) (fun _ => .inr rfl)
        ⟨h.stocks.of_same hsame rfl rfl rfl rfl rfl, hw,
          h.address_of_subset (fun id t ht => ⟨id, List.mem_of_mem_erase ht⟩)
            fun _ t _ => hleaves.waitOut t⟩
  all_goals exact hsilent β (fun _ => rfl) (fun _ => rfl) (hother nofun rfl nofun nofun)

/-! ### The wait -/

/-- A receiver takes the first message, or joins the receivers. -/
theorem Carries.receiveMbx (h : Carries urgency s L β) (hs : Called s L false) {received : ℕ}
    (hready : s.mailboxBlocks id → s.MayStop) {r : Sched × Reply}
    (hr : s.receiveMbx false received id = some r) (hsound : Sound r.1 L') :
    ∃ ρ β', β.waited received id s.current
        { β' with base := β'.base.setReply s.current ρ } ∧
      Carries urgency r.1 L' β' ∧ Due .mailbox r.1 L' r.2 ρ := by
  have hdue : ∀ {s' : Sched} {v : ℤ}, s'.current = s.current →
      Due .mailbox s' L (.returns v) (some (.own v)) := fun {s'} {v} hcur =>
    (Gives.of_returns s' v _).due (fun k hk => hs.not_waiter .mailbox k (hcur ▸ hk))
      fun x hx => (Option.some.inj hx).symm
  unfold Boxes.waited
  rw [Sched.receiveMbx, if_neg Bool.false_ne_true] at hr
  cases hfound : mailboxOf s.pools id with
  | none =>
    rw [hfound] at hr
    obtain rfl := Option.some.inj hr
    obtain rfl := hsound.unique hs.sound
    rw [h.stocks.count_none hfound]
    exact ⟨_, β, rfl, h, hdue rfl⟩
  | some k =>
    rw [hfound] at hr
    rw [h.stocks.count_some hfound]
    have hcount := (h.stocks.box id k hfound).count
    dsimp only at hr ⊢
    -- a message is there, and the call answers with it, or the thread waits for one
    cases hl : β.queue id with
    | cons message l =>
      have hpos : 0 < (s.mailboxes k).messageCount := by
        rw [hcount, hl]
        exact Nat.succ_pos _
      rw [if_pos hpos] at hr
      obtain rfl := Option.some.inj hr
      obtain ⟨htake, hreply⟩ := h.takeMessage hfound hl received
      have hquiet := quiet_takeMessage s k received
      obtain rfl := hsound.unique (hquiet.sound hs.sound)
      rw [hl] at htake
      rw [hreply]
      exact ⟨_, _, rfl, htake, hdue hquiet.current⟩
    | nil =>
      have hzero : (s.mailboxes k).messageCount = 0 := by rw [hcount, hl, List.length_nil]
      rw [if_neg (by rw [hzero]; exact lt_irrefl 0)] at hr
      have hquiet : Quiet s (s.setThread s.current fun t => { t with waitOut := received }) :=
        quiet_setThread s _ fun _ => ⟨rfl, rfl, rfl, rfl, rfl, rfl⟩
      have hcalled : Called (s.setThread s.current fun t => { t with waitOut := received }) L
          false := (hs.quiet (P := s.permits .exitThread) hquiet).2
      have hleaves := leaves_blockOn hr
      obtain ⟨l₁, l₂, hl', hlast, hw, hd, hsame⟩ := (h.waits.quiet hquiet).enlisted hcalled
        (hquiet.mayStop (hready ⟨k, hfound, hzero⟩)) rfl hfound hr hsound
      refine ⟨none, { β with
          base := β.base.enlist (fun _ t => l₁ ++ t :: l₂) id s.current
          address := Function.update β.address s.current received },
        ⟨l₁, l₂, (h.waits.waiting_some hfound).trans hl', ?_, ?_⟩,
        ⟨h.stocks.congr (fun _ => by rw [hsame.pools]; rfl) hsame.mailboxes hsame.messages rfl rfl
          rfl rfl (h.stocks.out.trans hsame.out.symm), hw, fun id' t ht => ?_⟩, hd⟩
      · rw [(h.stocks.attr id k hfound).2]
        exact hlast
      · rw [Counting.Semas.setReply_eq_self]
        exact h.waits.silent
      · rw [hleaves.waitOut, setThread_threads]
        dsimp only
        rw [Function.update_apply]
        split
        · rfl
        · next hne =>
          -- whoever else waits has its address from its own call
          obtain ⟨id'', ht'⟩ : ∃ id'', t ∈ β.base.waiting id'' := by
            change t ∈ Function.update β.base.waiting id (l₁ ++ s.current :: l₂) id' at ht
            rw [Function.update_apply] at ht
            split at ht
            · refine ⟨id, ?_⟩
              rw [h.waits.waiting_some hfound]
              change L (.waiters .mailbox k) = l₁ ++ l₂ at hl'
              rw [hl']
              simpa [hne] using ht
            · exact ⟨id', ht⟩
          exact h.address id'' t ht'

/-- **A call of the running thread does to the mailboxes what it is for.** -/
theorem Carries.called (h : Carries urgency s L β) (hs : Called s L false) {c : Service}
    (hfresh : ∀ iForm id message, c = .sendMbx iForm id message → s.Fresh message)
    (hready : s.Blocks c → s.MayStop) (hcareful : s.aims c = some s.pending → s.Settled)
    {r : Sched × Reply} (hr : s.perform false c = some r) (he : Effect s L false c r.1 L') :
    ∃ ρ β', β.call urgency s.current c { β' with base := β'.base.setReply s.current ρ } ∧
      Carries urgency r.1 L' β' ∧ Due .mailbox r.1 L' r.2 ρ := by
  by_cases hc : ∃ received id, c = .receiveMbx received id
  · obtain ⟨received, id, rfl⟩ := hc
    exact h.receiveMbx hs hready hr he.sound
  · have hc : ∀ received id, c ≠ .receiveMbx received id := fun received id heq =>
      hc ⟨received, id, heq⟩
    obtain ⟨answer, β', hdirect, ht, hg⟩ := h.direct hs hc hfresh hcareful hr he
    refine ⟨Boxes.told answer c, β', ?_, ht, hg.due (fun k => ?_) fun x hx => ?_⟩
    · unfold Boxes.call
      cases c <;> first | exact absurd rfl (hc _ _) | exact ⟨answer, β', hdirect, rfl⟩
    · rw [he.current]
      refine he.not_joined hs fun b hj => ?_
      cases c <;> first | exact absurd rfl (hc _ _) | exact hj | cases hj.1
    · cases c <;> first | exact absurd rfl (hc _ _) | cases hx
      all_goals rfl

end Stocks

end PS2Bios.Threadman
