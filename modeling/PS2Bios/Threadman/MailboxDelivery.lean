import PS2Bios.Threadman.MailboxSafety

/-!
# No message is lost

In a run that does what mailboxes are for, no message is lost and none comes twice: what has been
sent to a box is what has been received from it and then what is queued, in the order in which it
was sent, or, among messages that are equally urgent, if the box is ordered by urgency. The
invariant needs that nobody waits where messages are queued, since a message that is sent while a
thread waits goes past the queue.
-/

namespace PS2Bios.Threadman

open Intrusive Sched Counting

/-- What has been sent to a box has been received, and then is queued, in its order, or in that of
the urgency and then its own; and nobody waits where messages are. -/
structure Boxes.Keeps (urgency : ℕ → ℕ) (β : Boxes) (id : UInt32) : Prop where
  idle : β.base.waiting id ≠ [] → β.queue id = []
  sorted : β.byUrgency id = true → (β.queue id).Pairwise fun a b => urgency a ≤ urgency b
  fifo : β.byUrgency id = false → β.sent id = β.received id ++ β.queue id
  fair : ∀ u, (β.sent id).filter (fun x => urgency x = u) =
    (β.received id ++ β.queue id).filter fun x => urgency x = u

/-- The boxes that are in use keep their messages. -/
def Boxes.Kept (urgency : ℕ → ℕ) (β : Boxes) : Prop :=
  ∀ id, β.base.count id ≠ none → β.Keeps urgency id

section Kept

variable {urgency : ℕ → ℕ} {β β' : Boxes} {id id' : UInt32} {c : Service} {answer : ℤ}
  {interrupt : Bool} {message : ℕ} {l : List ℕ}

/-- What a box keeps of its messages depends on this box only. -/
theorem Boxes.Keeps.congr (h : β.Keeps urgency id)
    (hwaiting : β.base.waiting id = [] → β'.base.waiting id = [])
    (hqueue : β'.queue id = β.queue id) (hurgency : β'.byUrgency id = β.byUrgency id)
    (hsent : β'.sent id = β.sent id) (hreceived : β'.received id = β.received id) :
    β'.Keeps urgency id := by
  refine ⟨fun hw => ?_, fun hu => ?_, fun hu => ?_, fun u => ?_⟩
  · rw [hqueue]
    exact h.idle fun hnil => hw (hwaiting hnil)
  · rw [hqueue]
    exact h.sorted (hurgency ▸ hu)
  · rw [hsent, hreceived, hqueue]
    exact h.fifo (hurgency ▸ hu)
  · rw [hsent, hreceived, hqueue]
    exact h.fair u

/-- The messages are the same, fewer boxes are in use, and fewer threads wait. -/
theorem Boxes.Kept.mono (h : β.Kept urgency)
    (hcount : ∀ id, β'.base.count id ≠ none → β.base.count id ≠ none)
    (hwaiting : ∀ id, β.base.waiting id = [] → β'.base.waiting id = [])
    (hqueue : ∀ id, β'.base.count id ≠ none → β'.queue id = β.queue id)
    (hurgency : β'.byUrgency = β.byUrgency) (hsent : β'.sent = β.sent)
    (hreceived : β'.received = β.received) : β'.Kept urgency := fun id hid =>
  (h id (hcount id hid)).congr (hwaiting id) (hqueue id hid) (congrFun hurgency id)
    (congrFun hsent id) (congrFun hreceived id)

theorem Boxes.Kept.setReply (h : β.Kept urgency) (t : ℕ)
    (r : Option (Counting.Reply UInt32 ℤ)) :
    Boxes.Kept urgency { β with base := β.base.setReply t r } :=
  h.mono (fun _ hid => hid) (fun _ hw => hw) (fun _ _ => rfl) rfl rfl rfl

/-- A receiver that leaves takes no message along. -/
theorem Boxes.Kept.leave (h : β.Kept urgency) (t : ℕ) :
    Boxes.Kept urgency { β with base := β.base.leave t } :=
  h.mono (fun _ hid => hid) (fun id hw => by
    change (β.base.waiting id).erase t = []
    rw [hw]
    rfl) (fun _ _ => rfl) rfl rfl rfl

theorem Boxes.Kept.out (h : β.Kept urgency) (out' : ℕ → ℕ) :
    Boxes.Kept urgency { β with out := out' } :=
  h.mono (fun _ hid => hid) (fun _ hw => hw) (fun _ _ => rfl) rfl rfl rfl

/-- A message is placed by urgency, or behind the others. -/
theorem Boxes.Keeps.place (h : β.Keeps urgency id) (message : ℕ) :
    (β.byUrgency id = true → (β.place urgency id message).Pairwise
      fun a b => urgency a ≤ urgency b) ∧
    (β.byUrgency id = false → β.place urgency id message = β.queue id ++ [message]) ∧
    ∀ u, (β.place urgency id message).filter (fun x => urgency x = u) =
      (β.queue id ++ [message]).filter fun x => urgency x = u := by
  rw [Boxes.place]
  split
  · next hu =>
    refine ⟨fun _ => sorted_insertBy (h.sorted hu), fun hno => ?_, filter_insertBy (h.sorted hu)⟩
    rw [hu] at hno
    cases hno
  · next hu => exact ⟨fun hyes => absurd hyes hu, fun _ => rfl, fun _ => rfl⟩

/-- **A message that is sent** is queued, or received at once. -/
theorem Boxes.Kept.send (h : β.Kept urgency) {n : ℤ} (hn : β.base.count id = some n) :
    (β.send urgency id message n).Kept urgency := by
  have hid : β.Keeps urgency id := h id (by simp [hn])
  intro id' hcount
  cases hwaiting : β.base.waiting id with
  | nil =>
    obtain ⟨hsorted, hfifo, hfair⟩ := hid.place message
    rw [Boxes.send, hwaiting, Counting.Semas.signal, hwaiting] at hcount ⊢
    by_cases hne : id' = id
    · subst hne
      refine ⟨fun hw => absurd hwaiting hw, fun hu => ?_, fun hu => ?_, fun u => ?_⟩
      · simpa using hsorted hu
      · simp only [Function.update_self]
        rw [hfifo hu, hid.fifo hu, List.append_assoc]
      · simp only [Function.update_self, List.filter_append]
        rw [hid.fair, hfair, List.filter_append, List.filter_append, List.append_assoc]
    · have hcount' : β.base.count id' ≠ none := by
        simpa [Counting.Semas.setCount, hne] using hcount
      refine (h id' hcount').congr (fun hw => hw) ?_ rfl ?_ rfl <;> simp [hne]
  | cons t ts =>
    have hqueue := hid.idle (by simp [hwaiting])
    rw [Boxes.send, hwaiting, Counting.Semas.signal, hwaiting] at hcount ⊢
    by_cases hne : id' = id
    · subst hne
      refine ⟨fun _ => hqueue, fun hu => hid.sorted hu, fun hu => ?_, fun u => ?_⟩
      · have hfifo := hid.fifo hu
        rw [hqueue, List.append_nil] at hfifo
        simp [hqueue, hfifo]
      · have hfair := hid.fair u
        rw [hqueue, List.append_nil] at hfair
        simp [hqueue, hfair]
    · refine (h id' hcount).congr (fun hw => ?_) rfl rfl ?_ ?_
      · change Function.update β.base.waiting id ts id' = []
        rw [Function.update_of_ne hne, hw]
      · simp [hne]
      · simp [hne]

/-- **A message that is received** was the first. -/
theorem Boxes.Kept.take (h : β.Kept urgency) {n : ℤ} (hn : β.base.count id = some n)
    (hl : β.queue id = message :: l) (address : ℕ) :
    (β.take id address n message l).Kept urgency := by
  have hid : β.Keeps urgency id := h id (by rw [hn]; nofun)
  intro id' hcount
  by_cases hne : id' = id
  · subst hne
    refine ⟨fun hw => ?_, fun hu => ?_, fun hu => ?_, fun u => ?_⟩
    · rw [hid.idle hw] at hl
      cases hl
    · have hsorted := hid.sorted hu
      rw [hl] at hsorted
      simpa [Boxes.take] using (List.pairwise_cons.mp hsorted).2
    · simp [Boxes.take, hid.fifo hu, hl]
    · simp [Boxes.take, hid.fair u, hl]
  · have hcount' : β.base.count id' ≠ none := by
      simpa [Boxes.take, Counting.Semas.setCount, hne] using hcount
    refine (h id' hcount').congr (fun hw => hw) ?_ rfl rfl ?_ <;> simp [Boxes.take, hne]

/-- A box that is made has had no message. -/
theorem Boxes.Kept.made (h : β.Kept urgency) (attr : UInt32) :
    (β.made attr id).Kept urgency := by
  intro id' hcount
  by_cases hne : id' = id
  · subst hne
    refine ⟨fun _ => ?_, fun _ => ?_, fun _ => ?_, fun u => ?_⟩ <;> simp [Boxes.made]
  · have hcount' : β.base.count id' ≠ none := by
      simpa [Boxes.made, Counting.Semas.setCount, hne] using hcount
    refine (h id' hcount').congr (fun hw => hw) ?_ ?_ ?_ ?_ <;> simp [Boxes.made, hne]

/-- A box that is deleted gives its messages up. -/
theorem Boxes.Kept.deleted (h : β.Kept urgency) :
    Boxes.Kept urgency { β with base := β.base.delete id kWaitDelete
                                queue := Function.update β.queue id [] } := by
  have hother : ∀ id', (β.base.delete id kWaitDelete).count id' ≠ none → id' ≠ id := by
    rintro id' hcount rfl
    exact hcount (Function.update_self ..)
  refine h.mono (fun id' hcount => ?_) (fun id' hw => ?_) (fun id' hcount => ?_) rfl rfl rfl
  · have hne := hother id' hcount
    simpa [Counting.Semas.delete, hne] using hcount
  · change Function.update β.base.waiting id [] id' = []
    rw [Function.update_apply]
    split
    · rfl
    · exact hw
  · exact Function.update_of_ne (hother id' hcount) _ _

/-- A thread waits only where no message is. -/
theorem Boxes.Kept.enlist (h : β.Kept urgency) (hl : β.queue id = [])
    (insert : List ℕ → ℕ → List ℕ) (t : ℕ) (address : ℕ → ℕ) :
    Boxes.Kept urgency { β with base := β.base.enlist insert id t, address := address } := by
  intro id' hcount
  by_cases hne : id' = id
  · subst hne
    have hid := h id' hcount
    exact ⟨fun _ => hl, hid.sorted, hid.fifo, hid.fair⟩
  · refine (h id' hcount).congr (fun hw => ?_) rfl rfl rfl rfl
    change Function.update β.base.waiting id _ id' = []
    rw [Function.update_of_ne hne, hw]

/-- Each call that answers at once keeps account of the messages. -/
theorem Boxes.Kept.direct (h : β.Kept urgency) (hc : β.direct urgency interrupt c answer β') :
    β'.Kept urgency := by
  -- each call does nothing to the boxes, or is one of their own operations
  cases c
  case createMbx attr =>
    rcases hc with ⟨-, rfl⟩ | ⟨id, -, -, rfl⟩
    · exact h
    · exact h.made attr
  case deleteMbx id =>
    simp only [Boxes.direct, Boxes.deleted] at hc
    split at hc
    · exact hc.2 ▸ h
    · split at hc
      · exact hc.2 ▸ h
      · exact hc.2 ▸ h.deleted
  case sendMbx iForm id message =>
    simp only [Boxes.direct, Boxes.sends] at hc
    split at hc
    · exact hc.2 ▸ h
    · split at hc
      · exact hc.2 ▸ h
      · next n hn => exact hc.2 ▸ h.send hn
  case pollMbx received id =>
    simp only [Boxes.direct, Boxes.polled] at hc
    split at hc
    · exact hc.2 ▸ h
    · exact hc.2 ▸ h
    · next n message l hn hl => exact hc.2 ▸ h.take hn hl received
  case receiveMbx received id => exact hc.2 ▸ h
  case releaseWaitThread id =>
    rcases hc with rfl | ⟨base', hcancels, rfl⟩
    · exact h
    · rcases hcancels with ⟨-, rfl⟩ | ⟨-, rfl⟩
      · exact (h.leave _).setReply _ _
      · exact h
  case terminateThread id =>
    rcases hc with rfl | rfl
    · exact h
    · exact (h.leave _).setReply _ _
  case setEventFlag id bits =>
    obtain ⟨out', rfl⟩ := hc
    exact h.out out'
  case waitEventFlag id bits mode result poll =>
    obtain ⟨out', rfl⟩ := hc
    exact h.out out'
  all_goals
    obtain rfl : β' = β := hc
    exact h

/-- **No step loses a message**, or changes its turn. -/
theorem Boxes.Kept.step (h : β.Kept urgency) {o : Observation} (ho : BoxStep urgency β o β') :
    β'.Kept urgency := by
  cases o with
  | goOn =>
    obtain ⟨out', rfl⟩ := ho
    exact h.out out'
  | handler c v => exact h.direct ho
  | run k v =>
    obtain ⟨base', ⟨-, -, rfl⟩, rfl⟩ := ho
    exact h.setReply _ _
  | call caller c =>
    have hother : (∃ answer β₁, β.direct urgency false c answer β₁ ∧
        β' = { β₁ with base := β₁.base.setReply caller (Boxes.told answer c) }) →
        β'.Kept urgency := by
      rintro ⟨answer, β₁, hd, rfl⟩
      exact (h.direct hd).setReply _ _
    cases c <;> try exact hother ho
    case receiveMbx received id =>
      simp only [BoxStep, Boxes.call, Boxes.waited] at ho
      split at ho
      · exact ho ▸ h.setReply _ _
      · next n message l hn hl => exact ho ▸ (h.take hn hl received).setReply _ _
      · next n hn hl =>
        obtain ⟨l₁, l₂, -, -, rfl⟩ := ho
        exact h.enlist hl _ _ _

end Kept

/-- **Messages are neither lost nor received twice, and keep their turn**: what has been sent to a
box is what has been received from it and then what its ring holds, in the order of sending, or in
that of the urgency and of sending among equals; and nobody waits where messages are. -/
structure Sched.Delivers (s : Sched) (urgency : ℕ → ℕ) (β : Boxes) (id : UInt32) (k : ℕ) :
    Prop where
  fifo : β.byUrgency id = false → β.sent id = β.received id ++ s.messagesOf k
  sorted : β.byUrgency id = true →
    (s.messagesOf k).Pairwise fun a b => urgency a ≤ urgency b
  fair : ∀ u, (β.sent id).filter (fun x => urgency x = u) =
    (β.received id ++ s.messagesOf k).filter fun x => urgency x = u
  idle : (s.queues (.waiters .mailbox k)).head ≠ kNone → s.messagesOf k = []

theorem Boxes.Kept.delivers {urgency : ℕ → ℕ} {s : Sched} {β : Boxes} {id : UInt32} {k : ℕ}
    (h : β.Kept urgency) (hboxed : s.Boxed β) (hk : mailboxOf s.pools id = some k) :
    s.Delivers urgency β id k := by
  have hcount : β.base.count id ≠ none := by
    rw [hboxed.count, hk]
    simp
  have hid := h id hcount
  have hqueue := (hboxed.queue id k hk).messagesOf_eq
  refine ⟨fun hu => hqueue ▸ hid.fifo hu, fun hu => hqueue ▸ hid.sorted hu,
    fun u => hqueue ▸ hid.fair u, fun hhead => hqueue ▸ hid.idle fun hnil => hhead ?_⟩
  have hlist := hboxed.waitList id k hk
  rw [hnil] at hlist
  exact hlist.head

/-- What mailboxes do keeps the messages. -/
theorem Boxes.kept_of_steps {urgency out : ℕ → ℕ} {trace : List (List Observation)} {β : Boxes}
    (h : Steps (Steps (BoxStep urgency)) (.start out) trace β) : β.Kept urgency :=
  h.invariant (I := Boxes.Kept urgency)
    (fun _ _ _ hβ hstep => hstep.invariant (I := Boxes.Kept urgency)
      (fun _ _ _ hβ ho => hβ.step ho) hβ)
    fun _ hid => absurd rfl hid

namespace Processor

variable {messages : ℕ → Message} {out : ℕ → ℕ} {trace : List (List Observation)}
  {m m' : Processor}

/-- **Messages are delivered** in every careful run in which none is sent while it is queued. -/
theorem delivered_of_run (h : Steps MailedStep (started messages out) trace m) :
    ∃ β, Steps (Steps (BoxStep (urgencyOf messages))) (.start out) trace β ∧
      ∀ id k, mailboxOf m.sched.pools id = some k →
        m.sched.Delivers (urgencyOf messages) β id k := by
  obtain ⟨β, hsteps, hboxed⟩ := boxes_of_run h
  exact ⟨β, hsteps, fun id k hk => (Boxes.kept_of_steps hsteps).delivers hboxed hk⟩

/-! The second of three messages is more urgent than the others, and is received first. -/

/-- A message's words at the start: the one at 0x200 has the smaller number and so goes first. -/
def oneUrgent (x : ℕ) : Message := ⟨0, fun _ => if x = 0x200 then 1 else 2⟩

/-- Three messages are sent to a box kept in order of urgency, and one is polled. -/
def byUrgency : List Act :=
  [.call (.createMbx kMbxMessagePriority), .call (.sendMbx false (makeId 0 1) 0x100),
    .call (.sendMbx false (makeId 0 1) 0x200), .call (.sendMbx false (makeId 0 1) 0x300),
    .call (.pollMbx 0x40 (makeId 0 1))]

/-- The more urgent message is polled first, and the other two stay in the order they came. -/
theorem delivered_byUrgency : ∃ trace m,
    Steps MailedStep (started oneUrgent fun _ => 0) trace m ∧ m.sched.out 0x40 = 0x200 ∧
    m.sched.messagesOf 0 = [0x100, 0x300] ∧
    ∃ β, Steps (Steps (BoxStep (urgencyOf oneUrgent))) (.start fun _ => 0) trace β ∧
      ∀ u, (β.sent (makeId 0 1)).filter (fun x => urgencyOf oneUrgent x = u) =
        (β.received (makeId 0 1) ++ [0x100, 0x300]).filter fun x => urgencyOf oneUrgent x = u := by
  have hrun : (traceList watchMail (started oneUrgent fun _ => 0) byUrgency).map (fun r =>
      (r.2.sched.out 0x40, r.2.sched.messagesOf 0, mailboxOf r.2.sched.pools (makeId 0 1))) =
        some (0x200, [0x100, 0x300], some 0) := by decide +kernel
  obtain ⟨⟨trace, m⟩, hm, heq⟩ := Option.map_eq_some_iff.mp hrun
  obtain ⟨hout, heq⟩ := Prod.mk.inj heq
  obtain ⟨hqueue, hfound⟩ := Prod.mk.inj heq
  have hsteps := Steps.of_traceList mailedStep_of_watchMail hm
  obtain ⟨β, htrace, hbox⟩ := delivered_of_run hsteps
  refine ⟨trace, m, hsteps, hout, hqueue, β, htrace, fun u => ?_⟩
  rw [(hbox (makeId 0 1) 0 hfound).fair u, show m.sched.messagesOf 0 = [0x100, 0x300] from hqueue]

/-! ### Plain runs -/

/-- **An act writes no more of a message than its first word.** -/
theorem CarefulStep.rest {L : Lists} {a : Act} (hm : m.Good L) (h : m.CarefulStep a m')
    (message : ℕ) : (m'.sched.messages message).rest = (m.sched.messages message).rest := by
  obtain ⟨s', L', hd, hfollows, -⟩ := h.good hm
  have hact : (s'.messages message).rest = (m.sched.messages message).rest := by
    cases hd with
    | call hr _ | handler hr _ => exact (perform_writes hr).rest message
    | goOn _ hr _ => exact (writes_setLoop hr 0).rest message
    | enter | leave => rfl
    | expire _ =>
      rw [delayExpired]
      split
      · rw [(leaves_wake _ _ _ _).messages]
      · rfl
  rw [(hfollows.leaves (hd.sound hm)).messages, hact]

/-- A plain act that sends no queued message, with what is seen of it. -/
def PlainMailStep (m : Processor) (o : List Observation) (m' : Processor) : Prop :=
  ∃ a told, m.Plain a ∧ (∀ message ∈ a.sends, m.sched.Fresh message) ∧
    m.step a = some (told, m') ∧ o = m.observed a told

theorem mailed_of_plain {m₀ : Processor} (h : Steps PlainMailStep m₀ trace m) :
    Steps MailedStep m₀ trace m := by
  induction h with
  | nil m => exact .nil m
  | cons hstep _ ih =>
    obtain ⟨a, told, hplain, hfresh, hstep, ho⟩ := hstep
    exact .cons ⟨a, told, hplain.careful, hfresh, hstep, ho⟩ ih

/-- **A message box is a lossless queue** in every run in which no queued message is sent, of calls
about boxes and of calls that make, start, put to sleep and release threads: what is seen of it is
what mailboxes do, each ring holds the messages of its box, and of a message no more than the first
word is written. -/
theorem mail_of_run (h : Steps PlainMailStep (started messages out) trace m) :
    (∀ message, (m.sched.messages message).rest = (messages message).rest) ∧
    ∃ β, Steps (Steps (BoxStep (urgencyOf messages))) (.start out) trace β ∧ m.sched.Boxed β ∧
      ∀ id k, mailboxOf m.sched.pools id = some k →
        m.sched.Delivers (urgencyOf messages) β id k := by
  have hrest := h.invariant
    (I := fun m => (∃ L, m.Good L) ∧
      ∀ message, (m.sched.messages message).rest = (messages message).rest)
    (fun m o m' hm hstep => by
      obtain ⟨⟨L, hgood⟩, hrest⟩ := hm
      obtain ⟨a, told, hplain, -, hstep, -⟩ := hstep
      have hcareful : m.CarefulStep a m' := ⟨hplain.careful, told, hstep⟩
      obtain ⟨-, L', -, -, hgood'⟩ := hcareful.good hgood
      exact ⟨⟨L', hgood'⟩, fun x => (hcareful.rest hgood x).trans (hrest x)⟩)
    ⟨⟨_, started_good messages out⟩, fun _ => rfl⟩
  obtain ⟨β, hsteps, hboxed⟩ := boxes_of_run (mailed_of_plain h)
  exact ⟨hrest.2, β, hsteps, hboxed,
    fun id k hk => (Boxes.kept_of_steps hsteps).delivers hboxed hk⟩

/-- Take plain acts that send no queued message, with what is seen of them. -/
def watchPlainMail (m : Processor) (a : Act) : Option (List Observation × Processor) :=
  if m.Plain a ∧ ∀ message ∈ a.sends, m.sched.Fresh message then
    (m.step a).map fun r => (m.observed a r.1, r.2)
  else none

theorem plainMailStep_of_watchPlainMail (m : Processor) (a : Act) (o : List Observation)
    (m' : Processor) (h : m.watchPlainMail a = some (o, m')) : m.PlainMailStep o m' := by
  rw [watchPlainMail] at h
  split at h
  · next hplain =>
    obtain ⟨⟨told, m''⟩, hstep, heq⟩ := Option.map_eq_some_iff.mp h
    obtain ⟨rfl, rfl⟩ := Prod.mk.inj heq
    exact ⟨a, told, hplain.1, hplain.2, hstep, rfl⟩
  · cases h

/-- Three messages wait in a box kept in order of urgency, and are received; a fourth receive waits,
and a handler sends the first message once more, and then two that are queued. -/
def inTurns : List Act :=
  [.call (.createMbx kMbxMessagePriority),
    .call (.createThread ⟨0x02000000, 0x1000, 0x400, 20⟩ 0x8000), .call (.startThread (makeId 2 1)),
    .call (.sendMbx false (makeId 0 1) 0x100), .call (.sendMbx false (makeId 0 1) 0x200),
    .call (.sendMbx false (makeId 0 1) 0x300), .call (.pollMbx 0x40 (makeId 0 1)),
    .call (.receiveMbx 0x44 (makeId 0 1)), .call (.receiveMbx 0x48 (makeId 0 1)),
    .call (.receiveMbx 0x4C (makeId 0 1)), .enter, .handler (.sendMbx true (makeId 0 1) 0x100),
    .handler (.sendMbx true (makeId 0 1) 0x300), .handler (.sendMbx true (makeId 0 1) 0x200),
    .leave 0]

/-- The most urgent message is received first, and the others as they came. -/
theorem mail_inTurns : ∃ trace m, Steps PlainMailStep (started oneUrgent fun _ => 0) trace m ∧
    [m.sched.out 0x40, m.sched.out 0x44, m.sched.out 0x48, m.sched.out 0x4C] =
      [0x200, 0x100, 0x300, 0x100] ∧
    m.sched.messagesOf 0 = [0x200, 0x300] ∧
    (∀ message, (m.sched.messages message).rest = (oneUrgent message).rest) ∧
    ∃ β, Steps (Steps (BoxStep (urgencyOf oneUrgent))) (.start fun _ => 0) trace β ∧
      m.sched.Boxed β ∧ m.sched.Delivers (urgencyOf oneUrgent) β (makeId 0 1) 0 := by
  have hrun : (traceList watchPlainMail (started oneUrgent fun _ => 0) inTurns).map (fun r =>
      ([r.2.sched.out 0x40, r.2.sched.out 0x44, r.2.sched.out 0x48, r.2.sched.out 0x4C],
        r.2.sched.messagesOf 0, mailboxOf r.2.sched.pools (makeId 0 1))) =
      some ([0x200, 0x100, 0x300, 0x100], [0x200, 0x300], some 0) := by decide +kernel
  obtain ⟨⟨trace, m⟩, hm, heq⟩ := Option.map_eq_some_iff.mp hrun
  obtain ⟨hout, heq⟩ := Prod.mk.inj heq
  obtain ⟨hqueue, hfound⟩ := Prod.mk.inj heq
  have hsteps := Steps.of_traceList plainMailStep_of_watchPlainMail hm
  obtain ⟨hrest, β, htrace, hboxed, hbox⟩ := mail_of_run hsteps
  exact ⟨trace, m, hsteps, hout, hqueue, hrest, β, htrace, hboxed, hbox (makeId 0 1) 0 hfound⟩

end Processor

end PS2Bios.Threadman
