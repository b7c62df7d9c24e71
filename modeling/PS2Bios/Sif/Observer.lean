import PS2Bios.Sif.Receive

/-!
# What the ring keeps whatever is noted

Parcels are an observer's. What the ring and its channel keep of themselves is `Turning`, in every
run whatever is handed over and whatever is written over; from any such link an observer can begin
to note (`Turning.sound_observed`).
-/

namespace PS2Bios.Sif

variable {τ : Type*}

namespace Link

/-- The ring is a line of runs, and a channel that is on none of them has begun no block. -/
structure Turning (l : Link τ) (line : Line.State Run) : Prop where
  holds : Holds l.sifman line
  stopped : (∀ slot, l.sifman.channel ≠ .running slot) → l.block = 0 ∧ l.moved = 0

/-- The runs that have yet to land whole. -/
def remaining (l : Link τ) : List Run :=
  if l.sifman.channel.isFinished then l.sifman.runs.tail else l.sifman.runs

/-- An observer begins to note: the runs that are queued are nobody's. -/
def observed (l : Link τ) : Link τ :=
  { l with carried := l.sifman.runs.map fun _ => none, sent := [] }

theorem turning_start (memory : UInt32 → UInt8) :
    (start memory : Link τ).Turning Line.State.start :=
  ⟨holds_start, fun _ => ⟨rfl, rfl⟩⟩

variable {l l' : Link τ} {line : Line.State Run}

/-! ### What each operation keeps -/

/-- A run accepted keeps the ring turning. -/
theorem Turning.queue (h : l.Turning line) (list : ℕ → Transfer) (count function arg : UInt32)
    (parcel : Option (Parcel τ)) :
    ∃ line', (l.queue list count function arg parcel).2.Turning line' := by
  by_cases hrefused : count = 0 ∨ kTransfersMax < count ∨ l.sifman.sendQueued = kSendGroups
  · unfold Link.queue
    rw [queueTransfers_refused hrefused]
    exact ⟨line, h.holds, h.stopped⟩
  · refine ⟨_, h.holds.accepted list function arg hrefused, fun hstopped => ?_⟩
    -- the channel stays where it was, or starts
    rcases h.holds.accepted_channel list function arg hrefused with
      ⟨-, hrunning⟩ | ⟨-, hchannel, -⟩
    · exact absurd hrunning (hstopped _)
    · exact h.stopped fun slot hslot => hstopped slot (hchannel.trans hslot)

/-- A quadword moved keeps the ring turning. -/
theorem Turning.move (h : l.Turning line) (hmove : l.move = some l') : l'.Turning line := by
  unfold Link.move at hmove
  split at hmove
  next slot hslot =>
    dsimp only at hmove
    split at hmove
    · obtain rfl := Option.some.inj hmove
      exact ⟨h.holds, fun hno => absurd hslot (hno slot)⟩
    · cases hmove
  next => cases hmove

/-- A delivery keeps the ring turning. -/
theorem Turning.deliver (h : l.Turning line) (hdeliver : l.deliver = some l') :
    ∃ line', l'.Turning line' := by
  unfold Link.deliver at hdeliver
  split at hdeliver
  next slot hslot =>
    dsimp only at hdeliver
    split at hdeliver
    · split at hdeliver
      · obtain rfl := Option.some.inj hdeliver
        exact ⟨_, h.holds.finish hslot, fun _ => ⟨rfl, rfl⟩⟩
      · obtain rfl := Option.some.inj hdeliver
        exact ⟨_, h.holds, fun hno => absurd hslot (hno slot)⟩
    · cases hdeliver
  next => cases hdeliver

/-- The interrupt keeps the ring turning. -/
theorem Turning.interrupt (h : l.Turning line) (hinterrupt : l.interrupt = some l') :
    ∃ line', l'.Turning line' := by
  unfold Link.interrupt at hinterrupt
  split at hinterrupt
  next slot hslot =>
    obtain rfl := Option.some.inj hinterrupt
    obtain ⟨-, job, rest, rfl, -⟩ := h.holds.done hslot
    have hstopped := h.stopped fun other hother => by
      rw [hslot] at hother
      cases hother
    exact ⟨_, h.holds.popped hslot, fun _ => hstopped⟩
  next => cases hinterrupt

/-! ### An observer begins -/

/-- What an observer adds to a turning ring makes it sound. -/
theorem Turning.sound_observed (h : l.Turning line) : l.observed.Sound line := by
  have hcarried : l.observed.carried = line.waiting.map fun _ => none := by
    show l.sifman.runs.map _ = _
    rw [h.holds.runs]
  have hnone : ∀ x ∈ l.observed.undelivered, x = none := by
    intro x hx
    have hmem : x ∈ l.observed.carried := by
      unfold undelivered at hx
      split at hx
      · exact List.mem_of_mem_tail hx
      · exact hx
    rw [hcarried] at hmem
    obtain ⟨-, -, rfl⟩ := List.mem_map.mp hmem
    rfl
  have hfirst : l.observed.first = none := by
    unfold first
    cases hall : l.observed.undelivered with
    | nil => rfl
    | cons x xs =>
      obtain rfl := hnone x (by rw [hall]; exact .head _)
      rfl
  refine ⟨h.holds, ?_, fun p hp => ?_, ⟨[], l.arrived, ?_, ?_, ?_⟩, fun hsome => ?_, h.stopped⟩
  · rw [hcarried, List.forall₂_map_right_iff, List.forall₂_same]
    intro run _ p hp
    cases hp
  · cases hnone _ hp
  · -- whatever has landed is nobody's
    induction l.arrived using List.reverseRecOn with
    | nil => exact .nil
    | append_singleton qs q ih => exact .other ih q
  · have hreduce : l.observed.undelivered.reduceOption = [] := by
      refine List.eq_nil_iff_forall_not_mem.mpr fun p hp => ?_
      cases hnone _ (List.reduceOption_mem_iff.mp hp)
    rw [hreduce]
    rfl
  · unfold halfway
    rw [hfirst, Option.elim_none, List.take_nil, List.append_nil]
    rfl
  · exact absurd hfirst hsome

/-- What is ahead for that observer are the runs that remain. -/
theorem observed_ahead (l : Link τ) (hnil : l.remaining = []) : l.observed.ahead = [] := by
  unfold remaining at hnil
  unfold ahead observed
  dsimp only
  split at hnil
  next hfinished =>
    rw [if_pos hfinished, List.tail_zip]
    rw [hnil, List.zip_nil_left]
  next hfinished =>
    rw [if_neg hfinished, hnil, List.zip_nil_left]

/-- With nothing ahead the channel is on no run. -/
theorem Sound.framed_of_ahead (h : l.Sound line) (hnil : l.ahead = []) : l.Framed := by
  refine ⟨fun x hx => ?_, fun slot hslot => ?_⟩
  · rw [hnil] at hx
    cases hx
  · obtain ⟨x, rest, hahead, -⟩ := h.ahead_running hslot
    rw [hnil] at hahead
    cases hahead

end Link

/-! ### What the EE's channel takes -/

namespace Receiver

variable {s t : Receiver τ} {line : Line.State Run}

/-- A quadword that reaches the other end keeps the ring turning. -/
theorem turning_move (h : s.link.Turning line) (hmove : s.move = some t) :
    t.link.Turning line := by
  unfold Receiver.move at hmove
  split at hmove
  next block l _ _ hl =>
    obtain rfl := Option.some.inj hmove
    exact h.move hl
  next => cases hmove

/-- A delivery at the other end keeps the ring turning. -/
theorem turning_deliver (h : s.link.Turning line) (hdeliver : s.deliver = some t) :
    ∃ line', t.link.Turning line' := by
  unfold Receiver.deliver at hdeliver
  split at hdeliver
  next block l _ _ hl =>
    obtain rfl := Option.some.inj hdeliver
    exact h.deliver hl
  next => cases hdeliver

end Receiver

end PS2Bios.Sif
