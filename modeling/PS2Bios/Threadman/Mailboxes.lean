import Mathlib.Data.Finset.Card
import Mathlib.Order.Interval.Finset.Nat
import PS2Bios.Library.Ring
import PS2Bios.Library.StableInsert
import PS2Bios.Threadman.Services

/-!
# The queues of messages

The messages of a mailbox are a ring through their first words, which the mailbox knows by its last
message (`Sched.Queued`). `queueMessage` puts a message behind the last, or where its urgency byte
says, which is what `insertBy` does to the list; `dequeueMessage` takes the first off. Both write
only the links of the messages they are about (`Relinks`), so the other queues are what they were.
-/

namespace PS2Bios.Threadman

open Intrusive Sched

namespace Sched

/-- The messages of a mailbox, from the first to the last. -/
structure Queued (s : Sched) (k : ℕ) (l : List ℕ) : Prop where
  ring : Ring s.nextOf l
  tail : (s.mailboxes k).tail = l.getLastD 0
  count : (s.mailboxes k).messageCount = l.length
  bound : ∀ message ∈ l, 0 < message ∧ message < 2 ^ 32

/-- What following the links from the last message finds. -/
def messagesOf (s : Sched) (k : ℕ) : List ℕ :=
  follow s.nextOf (s.mailboxes k).messageCount (s.nextOf (s.mailboxes k).tail)

/-- How urgent a message is, the most urgent first. -/
def rank (s : Sched) (message : ℕ) : ℕ := (s.urgency message).toNat

/-- Only a mailbox and the links of these messages are written. -/
structure Relinks (s : Sched) (k : ℕ) (l : List ℕ) (s' : Sched) : Prop where
  mailboxes : ∀ i, i ≠ k → s'.mailboxes i = s.mailboxes i
  attr : (s'.mailboxes k).attr = (s.mailboxes k).attr
  next : ∀ message, message ∉ l → s'.nextOf message = s.nextOf message
  rank : s'.rank = s.rank
  out : s'.out = s.out
  threads : s'.threads = s.threads

end Sched

section Fields

variable {s s' s'' : Sched} {k message next : ℕ} {l l' : List ℕ}

theorem setNext_nextOf (s : Sched) (message next : ℕ) :
    (s.setNext message next).nextOf = Function.update s.nextOf message next := by
  funext x
  simp only [nextOf, Sched.setNext, Function.update_apply]
  split <;> rfl

/-- Linking messages changes no urgency. -/
theorem setNext_rank (s : Sched) (message next : ℕ) : (s.setNext message next).rank = s.rank := by
  funext x
  simp only [Sched.rank, Sched.urgency, Sched.setNext, Function.update_apply]
  split
  · next heq => rw [heq]
  · rfl

theorem setMailbox_self (s : Sched) (k : ℕ) (f : Mailbox → Mailbox) :
    (s.setMailbox k f).mailboxes k = f (s.mailboxes k) := Function.update_self ..

theorem Sched.Relinks.refl (s : Sched) (k : ℕ) (l : List ℕ) : s.Relinks k l s :=
  ⟨fun _ _ => rfl, rfl, fun _ _ => rfl, rfl, rfl, rfl⟩

theorem Sched.Relinks.trans (h : s.Relinks k l s') (h' : s'.Relinks k l s'') :
    s.Relinks k l s'' :=
  ⟨fun i hi => (h'.mailboxes i hi).trans (h.mailboxes i hi), h'.attr.trans h.attr,
    fun x hx => (h'.next x hx).trans (h.next x hx), h'.rank.trans h.rank, h'.out.trans h.out,
    h'.threads.trans h.threads⟩

/-- Linking a message of the ring relinks that ring only. -/
theorem relinks_setNext (s : Sched) (k next : ℕ) (hl : message ∈ l) :
    s.Relinks k l (s.setNext message next) := by
  refine ⟨fun _ _ => rfl, rfl, fun x hx => ?_, setNext_rank s message next, rfl, rfl⟩
  rw [setNext_nextOf, Function.update_of_ne]
  rintro rfl
  exact hx hl

theorem relinks_setMailbox (s : Sched) (k : ℕ) (l : List ℕ) {f : Mailbox → Mailbox}
    (hf : ∀ m, (f m).attr = m.attr) : s.Relinks k l (s.setMailbox k f) :=
  ⟨fun i hi => Function.update_of_ne hi _ _, by rw [setMailbox_self, hf], fun _ _ => rfl, rfl, rfl,
    rfl⟩

end Fields

section Queued

variable {s s' : Sched} {k i message previous : ℕ} {l m : List ℕ}

/-- The queue of another box, of other messages. -/
theorem Sched.Relinks.queued (h : s.Relinks k m s') (hi : i ≠ k) (hq : s.Queued i l)
    (hapart : ∀ message ∈ l, message ∉ m) : s'.Queued i l := by
  refine ⟨hq.ring.congr fun x hx => h.next x (hapart x hx), ?_, ?_, hq.bound⟩
  · rw [h.mailboxes i hi]
    exact hq.tail
  · rw [h.mailboxes i hi]
    exact hq.count

theorem rank_congr (h : s'.messages = s.messages) : s'.rank = s.rank := by
  funext x
  rw [Sched.rank, Sched.urgency, h]
  rfl

/-- A ring depends on its links and its box only. -/
theorem Sched.Queued.congr (hq : s.Queued k l) (hmessages : s'.messages = s.messages)
    (hbox : s'.mailboxes k = s.mailboxes k) : s'.Queued k l := by
  have hnext : s'.nextOf = s.nextOf := by
    funext x
    rw [nextOf, nextOf, hmessages]
  exact ⟨hnext ▸ hq.ring, hbox ▸ hq.tail, hbox ▸ hq.count, hq.bound⟩

theorem Sched.Queued.tail_concat (h : s.Queued k (l ++ [message])) :
    (s.mailboxes k).tail = message := by
  rw [h.tail, List.getLastD_concat]

/-- The last message of a box leads to its first. -/
theorem Sched.Queued.next_tail (h : s.Queued k (message :: l)) :
    s.nextOf (s.mailboxes k).tail = message := by
  obtain ⟨r, x, hr⟩ := (List.eq_nil_or_concat' (message :: l)).resolve_left (List.cons_ne_nil _ _)
  rw [hr] at h
  rw [h.tail_concat, h.ring.next_last, ← hr, List.headD_cons]

/-- Following the links gives the ring's messages. -/
theorem Sched.Queued.messagesOf_eq (h : s.Queued k l) : s.messagesOf k = l := by
  rw [messagesOf, h.count]
  cases l with
  | nil => rfl
  | cons message l =>
    rw [h.next_tail]
    exact (h.ring.leads message l rfl).follow_eq

/-! ### A message is queued -/

/-- There are fewer messages than addresses. -/
theorem length_lt_of_bound {n : ℕ} (hl : l.Nodup) (hb : ∀ x ∈ l, 0 < x ∧ x < n) (hn : 0 < n) :
    l.length < n := by
  have hsub : l.toFinset ⊆ Finset.Ioo 0 n := fun x hx =>
    Finset.mem_Ioo.mpr (hb x (List.mem_toFinset.mp hx))
  have hcard := Finset.card_le_card hsub
  rw [List.toFinset_card_of_nodup hl, Nat.card_Ioo] at hcard
  omega

/-- **Where the loop of `queueMessage` stops.** -/
theorem seekMessage_eq {e : ℕ} (h : Leads s.nextOf (previous :: l) e) :
    s.seekMessage message l.length previous =
      ((l.takeWhile fun y => s.rank y ≤ s.rank message).getLastD previous,
        decide ((l.dropWhile fun y => s.rank y ≤ s.rank message) = [])) := by
  induction l generalizing previous with
  | nil => rfl
  | cons y l ih =>
    obtain ⟨hy, hl⟩ := h
    rw [List.headD_cons] at hy
    have hrank : s.urgency y ≤ s.urgency message ↔ s.rank y ≤ s.rank message :=
      UInt8.le_iff_toNat_le
    rw [List.length_cons, seekMessage, hy]
    by_cases hle : s.rank y ≤ s.rank message
    · rw [if_pos (hrank.mpr hle), ih hl, List.takeWhile_cons_of_pos (by simpa using hle),
        List.dropWhile_cons_of_pos (by simpa using hle), List.getLastD_cons]
    · rw [if_neg (mt hrank.mp hle), List.takeWhile_cons_of_neg (by simpa using hle),
        List.dropWhile_cons_of_neg (by simpa using hle)]
      simp

/-- A message on the ring, and the count and the last message that go with it. -/
theorem Sched.Queued.placed (h : s.Queued k (l ++ m)) {f : Mailbox → Mailbox}
    (hprev : (m ++ l).getLast? = some previous) (hno : message ∉ l ++ m)
    (hbound : 0 < message ∧ message < 2 ^ 32)
    (htail : (f (s.mailboxes k)).tail = (l ++ message :: m).getLastD 0)
    (hcount : (f (s.mailboxes k)).messageCount = add32 (s.mailboxes k).messageCount 1) :
    (((s.setNext message (s.nextOf previous)).setNext previous message).setMailbox k f).Queued k
      (l ++ message :: m) := by
  have hall : ∀ x ∈ l ++ message :: m, 0 < x ∧ x < 2 ^ 32 := by
    intro x hx
    rcases List.mem_append.mp hx with hx | hx
    · exact h.bound x (List.mem_append_left _ hx)
    · rcases List.mem_cons.mp hx with rfl | hx
      · exact hbound
      · exact h.bound x (List.mem_append_right _ hx)
  have hring := h.ring.insert hprev hno
  have hlength := length_lt_of_bound hring.nodup hall (by decide)
  rw [List.length_append, List.length_cons] at hlength
  refine ⟨?_, ?_, ?_, hall⟩
  · change Ring (((s.setNext message (s.nextOf previous)).setNext previous message).nextOf) _
    rw [setNext_nextOf, setNext_nextOf]
    exact hring
  · rw [setMailbox_self]
    exact htail
  · rw [setMailbox_self]
    refine hcount.trans ?_
    rw [h.count, List.length_append, add32_eq (by omega), List.length_append, List.length_cons]
    omega

/-- A message comes to a box: `queueMessage`, and the count. -/
def Sched.accept (s : Sched) (k message : ℕ) : Sched :=
  (s.queueMessage k message).setMailbox k fun m =>
    { m with messageCount := add32 m.messageCount 1 }

theorem setMailbox_setMailbox (s : Sched) (k : ℕ) (f g : Mailbox → Mailbox) :
    (s.setMailbox k f).setMailbox k g = s.setMailbox k fun m => g (f m) := by
  simp [Sched.setMailbox]

/-- A box with messages has a last one. -/
theorem Sched.Queued.exists_tail (h : s.Queued k l) (hl : l ≠ []) :
    l.getLast? = some (s.mailboxes k).tail ∧ (s.mailboxes k).tail ∈ l ∧
      (s.mailboxes k).tail ≠ 0 := by
  obtain ⟨r, x, rfl⟩ := (List.eq_nil_or_concat' l).resolve_left hl
  have hmem : x ∈ r ++ [x] := by simp
  rw [h.tail_concat]
  exact ⟨by simp, hmem, (h.bound x hmem).1.ne'⟩

/-- The messages that a new one goes behind, and those that it goes before. -/
def Sched.before (s : Sched) (message : ℕ) (l : List ℕ) : List ℕ :=
  l.takeWhile fun y => s.rank y ≤ s.rank message

/-- The messages of a ring that a new one goes in front of. -/
def Sched.behind (s : Sched) (message : ℕ) (l : List ℕ) : List ℕ :=
  l.dropWhile fun y => s.rank y ≤ s.rank message

theorem before_append_behind (s : Sched) (message : ℕ) (l : List ℕ) :
    s.before message l ++ s.behind message l = l := List.takeWhile_append_dropWhile

/-- **The loop stops at the message before the place**, which the last message is if that is the
first place. -/
theorem Sched.Queued.seek (h : s.Queued k l) (hl : l ≠ []) (message : ℕ) :
    ∃ previous, s.seekMessage message (s.mailboxes k).messageCount (s.mailboxes k).tail =
        (previous, decide (s.behind message l = [])) ∧
      (s.behind message l ++ s.before message l).getLast? = some previous ∧ previous ∈ l := by
  obtain ⟨x, r, rfl⟩ := List.exists_cons_of_ne_nil hl
  have hsplit := before_append_behind s message (x :: r)
  have hlast := (h.exists_tail hl).1
  have hleads : Leads s.nextOf ((s.mailboxes k).tail :: x :: r) x :=
    ⟨by rw [h.next_tail, List.headD_cons], h.ring.leads x r rfl⟩
  have hprev : (s.behind message (x :: r) ++ s.before message (x :: r)).getLast? =
      some ((s.before message (x :: r)).getLastD (s.mailboxes k).tail) := by
    rcases List.eq_nil_or_concat' (s.before message (x :: r)) with hnil | ⟨r', y, hr⟩
    · rw [hnil, List.nil_append] at hsplit
      rw [hnil, List.append_nil, hsplit, hlast, List.getLastD_nil]
    · rw [hr, List.getLastD_concat, ← List.append_assoc, List.getLast?_concat]
  refine ⟨_, by rw [h.count]; exact seekMessage_eq hleads, hprev, ?_⟩
  have hmem := List.mem_append.mp (List.mem_of_getLast? hprev)
  have hmem' := List.mem_append.mpr hmem.symm
  rwa [hsplit] at hmem'

/-- **A message is queued**: behind the others, or by its urgency. -/
theorem Sched.Queued.accept (h : s.Queued k l) (hno : message ∉ l)
    (hbound : 0 < message ∧ message < 2 ^ 32) :
    (s.accept k message).Queued k
      (if ((s.mailboxes k).attr &&& kMbxMessagePriority != 0) = true then
        insertBy s.rank message l else l ++ [message]) := by
  rw [Sched.accept, Sched.queueMessage]
  dsimp only
  cases l with
  -- the first message is a ring of its own
  | nil =>
    rw [if_pos (show (s.mailboxes k).tail = 0 from h.tail), setMailbox_setMailbox]
    have hplace : (if ((s.mailboxes k).attr &&& kMbxMessagePriority != 0) = true then
        insertBy s.rank message [] else [] ++ [message]) = [message] := by
      split <;> rfl
    rw [hplace]
    refine ⟨?_, ?_, ?_, fun x hx => by rwa [List.mem_singleton.mp hx]⟩
    · change Ring ((s.setNext message message).nextOf) [message]
      rw [setNext_nextOf]
      exact ring_cons.mpr ⟨List.nodup_singleton _, Function.update_self .., trivial⟩
    · rw [setMailbox_self]
      rfl
    · rw [setMailbox_self]
      change add32 (s.mailboxes k).messageCount 1 = 1
      rw [h.count]
      rfl
  | cons x l =>
    obtain ⟨hlast, -, htail⟩ := h.exists_tail (List.cons_ne_nil x l)
    rw [if_neg htail]
    -- by arrival the message goes behind the last one
    by_cases hattr : (s.mailboxes k).attr &&& kMbxMessagePriority = 0
    · rw [if_pos hattr, if_neg (by simp [hattr]), setMailbox_setMailbox]
      have hq : s.Queued k (x :: l ++ []) := by rwa [List.append_nil]
      have hprev : ([] ++ x :: l).getLast? = some (s.mailboxes k).tail := hlast
      refine hq.placed hprev (by simpa using hno) hbound ?_ rfl
      rw [List.getLastD_concat]
    -- by priority it goes where the search stops
    · have hattr' : ((s.mailboxes k).attr &&& kMbxMessagePriority != 0) = true := by
        simpa using hattr
      have hsplit := before_append_behind s message (x :: l)
      have hq : s.Queued k (s.before message (x :: l) ++ s.behind message (x :: l)) := by
        rwa [hsplit]
      have hno' : message ∉ s.before message (x :: l) ++ s.behind message (x :: l) := by
        rwa [hsplit]
      obtain ⟨previous, hseek, hprev, -⟩ := h.seek (List.cons_ne_nil x l) message
      rw [if_neg hattr, if_pos hattr', hseek]
      change Sched.Queued _ k (s.before message (x :: l) ++ message :: s.behind message (x :: l))
      dsimp only
      -- it is the last one, so that the tail moves, or it is not
      split
      · next hend =>
        rw [setMailbox_setMailbox]
        refine hq.placed hprev hno' hbound ?_ rfl
        rw [of_decide_eq_true hend, List.getLastD_concat]
      · next hend =>
        refine hq.placed hprev hno' hbound ?_ rfl
        have hne : s.behind message (x :: l) ≠ [] := fun heq => hend (decide_eq_true heq)
        obtain ⟨r, y, hr⟩ := (List.eq_nil_or_concat' _).resolve_left hne
        rw [← hsplit, hr, ← List.append_assoc, List.getLast?_concat] at hlast
        rw [hr, Option.some.inj hlast, ← List.cons_append, ← List.append_assoc,
          List.getLastD_concat]

/-- Only the queue that the message comes to is written. -/
theorem Sched.Queued.relinks_accept (h : s.Queued k l) (message : ℕ) :
    s.Relinks k (message :: l) (s.accept k message) := by
  have hmessage : message ∈ message :: l := List.mem_cons_self
  have htail : ∀ hl : l ≠ [], (s.mailboxes k).tail ∈ message :: l := fun hl =>
    List.mem_cons_of_mem _ (h.exists_tail hl).2.1
  rw [Sched.accept, Sched.queueMessage]
  dsimp only
  refine Sched.Relinks.trans ?_ (relinks_setMailbox _ k _ fun _ => rfl)
  split
  · exact (relinks_setNext s k _ hmessage).trans (relinks_setMailbox _ k _ fun _ => rfl)
  · next hne =>
    have hl : l ≠ [] := by
      rintro rfl
      exact hne h.tail
    split
    · exact ((relinks_setNext s k _ hmessage).trans (relinks_setNext _ k _ (htail hl))).trans
        (relinks_setMailbox _ k _ fun _ => rfl)
    · obtain ⟨previous, hseek, -, hprev⟩ := h.seek hl message
      have hwritten := (relinks_setNext s k (s.nextOf previous) hmessage).trans
        (relinks_setNext (s.setNext message (s.nextOf previous)) k message
          (List.mem_cons_of_mem _ hprev))
      rw [hseek]
      dsimp only
      split
      · exact hwritten.trans (relinks_setMailbox _ k _ fun _ => rfl)
      · exact hwritten

/-! ### A message is received -/

/-- **The first message is taken off.** -/
theorem Sched.Queued.dequeueMessage (h : s.Queued k (message :: l)) :
    (s.dequeueMessage k).1 = message ∧ (s.dequeueMessage k).2.Queued k l ∧
      s.Relinks k (message :: l) (s.dequeueMessage k).2 := by
  have hfirst := h.next_tail
  have hlength := length_lt_of_bound h.ring.nodup h.bound (by decide)
  have hcount : sub32 (s.mailboxes k).messageCount 1 = l.length := by
    rw [h.count, List.length_cons, sub32]
    rw [List.length_cons] at hlength
    omega
  have hbound : ∀ x ∈ l, 0 < x ∧ x < 2 ^ 32 := fun x hx => h.bound x (List.mem_cons_of_mem _ hx)
  rw [Sched.dequeueMessage]
  dsimp only
  rw [hfirst]
  refine ⟨rfl, ?_⟩
  rcases List.eq_nil_or_concat' l with rfl | ⟨r, x, rfl⟩
  · have htail : message = (s.mailboxes k).tail := h.tail.symm
    rw [if_pos htail, setMailbox_setMailbox]
    refine ⟨⟨⟨List.nodup_nil, nofun⟩, ?_, ?_, hbound⟩, relinks_setMailbox s k _ fun _ => rfl⟩
    · rw [setMailbox_self]
      rfl
    · rw [setMailbox_self]
      exact hcount
  · have htail : (s.mailboxes k).tail = x := by
      rw [h.tail, ← List.cons_append, List.getLastD_concat]
    have hne : ¬ message = (s.mailboxes k).tail := by
      rw [htail]
      rintro rfl
      exact (List.nodup_cons.mp h.ring.nodup).1 (by simp)
    rw [if_neg hne, htail]
    refine ⟨⟨?_, ?_, ?_, hbound⟩, ?_⟩
    · change Ring ((s.setNext x (s.nextOf message)).nextOf) _
      rw [setNext_nextOf]
      exact h.ring.uncons
    · rw [setMailbox_self]
      exact htail.trans (by simp)
    · rw [setMailbox_self]
      exact hcount
    · exact (relinks_setNext s k _ (by simp)).trans (relinks_setMailbox _ k _ fun _ => rfl)

end Queued

end PS2Bios.Threadman
