import PS2Bios.Library.Line
import PS2Bios.Library.RingBuffer
import PS2Bios.Sif.Sifman
import Mathlib.Data.Bool.Basic

/-!
# What becomes of a run

Threads, handlers and callbacks queue runs, the channel gets done with the run it is on, and its
interrupt is served: `Sifman.step`, in any order. Over the ring stands the line of `Line`, with
SIFMAN and its channel as the server. `Holds` is what the ring is to that line, and
`Holds.step` answers each step of the code's with one of the line's; `send_ring` is what follows
for every run.
-/

namespace PS2Bios.Sif

/-- One of SIFMAN's calls, the channel getting done, or the channel's interrupt being served. -/
inductive Event
  | queue (list : ℕ → Transfer) (count function arg : UInt32)
  | finish
  | interrupt

/-- The interrupt is raised by the channel getting done, once. -/
def Sifman.step (s : Sifman) : Event → Option Outcome
  | .queue list count function arg => some (s.queueTransfers list count function arg)
  | .finish =>
    match s.channel with
    | .running slot =>
      some ⟨0, [.sent (s.sendQueue slot)], { s with channel := .finished slot }⟩
    | _ => none
  | .interrupt =>
    match s.channel with
    | .finished _ => some ({ s with channel := .idle }.sendFinished)
    | _ => none

/-- A step as it is seen: the event, what it answered and what it did. -/
structure Seen where
  event : Event
  answer : UInt32
  effects : List Effect

/-- One event with what SIFMAN answered and did. -/
def Sifman.Step (s : Sifman) (seen : Seen) (t : Sifman) : Prop :=
  s.step seen.event = some ⟨seen.answer, seen.effects, t⟩

/-- One event computed, with what was seen of it. -/
def Sifman.perform (s : Sifman) (event : Event) : Option (Seen × Sifman) :=
  (s.step event).map fun o => (⟨event, o.answer, o.effects⟩, o.state)

theorem Sifman.step_of_perform {s t : Sifman} {event : Event} {seen : Seen}
    (h : s.perform event = some (seen, t)) : s.Step seen t := by
  obtain ⟨o, ho, heq⟩ := Option.map_eq_some_iff.mp h
  obtain ⟨rfl, rfl⟩ := Prod.mk.inj heq
  exact ho

/-- SIFMAN as its module is loaded. -/
def Sifman.start : Sifman := ⟨fun _ => ⟨fun _ => ⟨0, 0, 0, 0⟩, 0, 0, 0⟩, 0, 0, .idle⟩

/-! ### Runs, apart from the ring -/

/-- A run as its client asked for it: its blocks, and the callback it ends with. -/
structure Run where
  blocks : List SendBlock
  function : UInt32
  arg : UInt32
deriving Repr, DecidableEq

/-- The call a run ends with; a null function is none. -/
def Run.callback (r : Run) : Option (UInt32 × UInt32) :=
  if r.function ≠ 0 then some (r.function, r.arg) else none

/-- The run a call of `queueTransfers` asks for. -/
def Run.asked (list : ℕ → Transfer) (count function arg : UInt32) : Run where
  blocks := (List.range count.toNat).map (Sifman.describeRun list count)
  function := function
  arg := arg

/-- The run a group is. -/
def SendGroup.run (g : SendGroup) : Run where
  blocks := (List.range g.count.toNat).map g.blocks
  function := g.done
  arg := g.arg

/-- The runs the ring holds, the one the channel is on first. -/
def Sifman.runs (s : Sifman) : List Run :=
  RingBuffer.contents kSendGroups (fun slot => (s.sendQueue slot).run) s.sendHead s.sendQueued

/-- What an effect is to the line of runs. -/
def Effect.act? : Effect → Option (Line.Act Run (UInt32 × UInt32))
  | .wrote _ => none
  | .started _ group => some (.begun group.run)
  | .sent group => some (.finished group.run)
  | .called function arg => some (.called (function, arg))

/-- A run is accepted by the call that answers `1`. -/
def Seen.accepted (seen : Seen) : List Run :=
  match seen.event with
  | .queue list count function arg =>
    if seen.answer = 1 then [Run.asked list count function arg] else []
  | _ => []

/-- What an event is to the line of runs: an acceptance, and its effects. -/
def Seen.acts (seen : Seen) : List (Line.Act Run (UInt32 × UInt32)) :=
  seen.accepted.map .accepted ++ seen.effects.filterMap Effect.act?

/-- The ring holds a line of runs: the channel is idle just when there is none, and else on the
group at the head. -/
structure Holds (s : Sifman) (line : Line.State Run) : Prop where
  head : s.sendHead < kSendGroups
  queued : s.sendQueued ≤ kSendGroups
  runs : s.runs = line.waiting
  channel : s.channel =
    if line.waiting = [] then .idle
    else if line.finished then .finished s.sendHead
    else .running s.sendHead
  finished : line.finished = true → line.waiting ≠ []

theorem holds_start : Holds Sifman.start Line.State.start :=
  ⟨by decide, by decide, rfl, rfl, by decide⟩

section Ring

variable {s : Sifman} {line : Line.State Run}

theorem Holds.length (h : Holds s line) : line.waiting.length = s.sendQueued := by
  rw [← h.runs, Sifman.runs, RingBuffer.length_contents]

/-- A call is refused for its count, or because the ring is full. -/
theorem queueTransfers_refused {list : ℕ → Transfer} {count function arg : UInt32}
    (h : count = 0 ∨ kTransfersMax < count ∨ s.sendQueued = kSendGroups) :
    s.queueTransfers list count function arg = ⟨0, [], s⟩ := by
  unfold Sifman.queueTransfers Sifman.enqueue
  rw [if_pos h, ite_self]

/-- The group a run is queued as, in a slot that held `old`. -/
def groupOf (old : SendGroup) (list : ℕ → Transfer) (count function arg : UInt32) : SendGroup where
  blocks k := if k < count.toNat then Sifman.describeRun list count k else old.blocks k
  count := count
  done := function
  arg := arg

theorem groupOf_run (old : SendGroup) (list : ℕ → Transfer) (count function arg : UInt32) :
    (groupOf old list count function arg).run = Run.asked list count function arg := by
  unfold groupOf SendGroup.run Run.asked
  simp only [Run.mk.injEq, and_true]
  exact List.map_congr_left fun k hk => if_pos (List.mem_range.mp hk)

/-- The ring with a run queued, before the channel is looked at. -/
def Sifman.queued (s : Sifman) (list : ℕ → Transfer) (count function arg : UInt32) : Sifman :=
  let slot := (s.sendHead + s.sendQueued) % kSendGroups
  { s with
    sendQueue := Function.update s.sendQueue slot
      (groupOf (s.sendQueue slot) list count function arg)
    sendQueued := s.sendQueued + 1 }

/-- What an accepted run does to the ring. -/
theorem queueTransfers_accepted {list : ℕ → Transfer} {count function arg : UInt32}
    (h : ¬(count = 0 ∨ kTransfersMax < count ∨ s.sendQueued = kSendGroups)) :
    s.queueTransfers list count function arg =
      let slot := (s.sendHead + s.sendQueued) % kSendGroups
      let queued := s.queued list count function arg
      if s.sendQueued = 0 then ⟨1, .wrote slot :: queued.startHead.1, queued.startHead.2⟩
      else ⟨1, [.wrote slot], queued⟩ := by
  unfold Sifman.queueTransfers Sifman.enqueue
  rw [if_neg fun hc => h (hc.imp_right .inl), if_neg h]
  rfl

/-- An accepted run goes behind the others. -/
theorem Sifman.queued_runs (list : ℕ → Transfer) (count function arg : UInt32)
    (h : s.sendQueued < kSendGroups) :
    (s.queued list count function arg).runs = s.runs ++ [Run.asked list count function arg] := by
  have hupdate : (fun slot => ((s.queued list count function arg).sendQueue slot).run) =
      Function.update (fun slot => (s.sendQueue slot).run)
        ((s.sendHead + s.sendQueued) % kSendGroups) (Run.asked list count function arg) := by
    unfold Sifman.queued
    dsimp only
    funext slot
    by_cases hslot : slot = (s.sendHead + s.sendQueued) % kSendGroups
    · subst hslot
      rw [Function.update_self, Function.update_self, groupOf_run]
    · rw [Function.update_of_ne hslot, Function.update_of_ne hslot]
  unfold Sifman.runs
  rw [hupdate]
  show RingBuffer.contents _ _ s.sendHead (s.sendQueued + 1) = _
  rw [RingBuffer.contents_succ, RingBuffer.contents_update_free h, Function.update_self]

/-- The ring with its head group taken off, before the channel is looked at. -/
def Sifman.popped (s : Sifman) : Sifman :=
  { s with
    sendQueue := Function.update s.sendQueue s.sendHead { s.sendQueue s.sendHead with done := 0 }
    sendHead := (s.sendHead + 1) % kSendGroups
    sendQueued := s.sendQueued - 1 }

/-- The run that is done leaves the front. -/
theorem Holds.popped_runs (h : Holds s line) : s.popped.runs = line.waiting.tail := by
  obtain hzero | ⟨n, hn⟩ : s.sendQueued = 0 ∨ ∃ n, s.sendQueued = n + 1 :=
    (Nat.eq_zero_or_pos _).imp_right Nat.exists_eq_add_one.mpr
  · have hnil : line.waiting = [] := List.length_eq_zero_iff.mp (h.length.trans hzero)
    unfold Sifman.runs
    rw [hnil]
    show RingBuffer.contents _ _ _ (s.sendQueued - 1) = _
    rw [hzero]
    rfl
  · have hupdate : (fun slot => (s.popped.sendQueue slot).run) =
        Function.update (fun slot => (s.sendQueue slot).run) (s.sendHead % kSendGroups)
          { (s.sendQueue s.sendHead).run with function := 0 } := by
      unfold Sifman.popped
      rw [Nat.mod_eq_of_lt h.head]
      dsimp only
      funext slot
      by_cases hslot : slot = s.sendHead
      · subst hslot
        rw [Function.update_self, Function.update_self]
        rfl
      · rw [Function.update_of_ne hslot, Function.update_of_ne hslot]
    have hqueued := h.queued
    unfold Sifman.runs
    rw [hupdate, ← h.runs, Sifman.runs, hn, RingBuffer.contents_succ_eq_cons, List.tail_cons]
    show RingBuffer.contents _ _ ((s.sendHead + 1) % kSendGroups) (s.sendQueued - 1) = _
    rw [hn, Nat.add_sub_cancel, RingBuffer.contents_update_taken (by omega)]

/-- The end of a run pops it and starts the next one. -/
theorem sendFinished_of_queued (h : s.sendQueued ≠ 0) :
    s.sendFinished =
      let started := if s.sendQueued - 1 ≠ 0 then s.popped.startHead else ([], s.popped)
      ⟨1, started.1 ++ ((s.sendQueue s.sendHead).run.callback.map fun call =>
          Effect.called call.1 call.2).toList, started.2⟩ := by
  unfold Sifman.sendFinished
  rw [if_neg h]
  unfold Run.callback SendGroup.run
  by_cases hdone : (s.sendQueue s.sendHead).done = 0
  · simp only [hdone, ne_eq, not_true_eq_false, if_false]
    rfl
  · simp only [hdone, ne_eq, not_false_eq_true, if_true]
    rfl

/-- The group the channel would be started on is the first run of the line. -/
theorem Sifman.run_head {r : Run} {rs : List Run} (hhead : s.sendHead < kSendGroups)
    (h : s.runs = r :: rs) : (s.sendQueue s.sendHead).run = r := by
  have hlength : s.sendQueued = rs.length + 1 := by
    rw [← List.length_cons (a := r), ← h, Sifman.runs, RingBuffer.length_contents]
  unfold Sifman.runs at h
  rw [hlength, RingBuffer.contents_succ_eq_cons, Nat.mod_eq_of_lt hhead] at h
  exact (List.cons.inj h).1

/-- A ring without runs holds an empty line. -/
theorem Holds.eq_empty (h : Holds s line) (hzero : s.sendQueued = 0) :
    line = ⟨[], false⟩ := by
  obtain ⟨waiting, finished⟩ := line
  have hnil : waiting = [] := List.length_eq_zero_iff.mp (h.length.trans hzero)
  subst hnil
  cases finished with
  | false => rfl
  | true => exact absurd rfl (h.finished rfl)

theorem Holds.waiting_ne_nil (h : Holds s line) (hpos : s.sendQueued ≠ 0) :
    line.waiting ≠ [] := by
  intro hnil
  rw [← h.length, hnil] at hpos
  exact hpos rfl

/-- A run that is accepted is the last of the line. -/
theorem Holds.accepted (h : Holds s line) (list : ℕ → Transfer) {count : UInt32}
    (function arg : UInt32)
    (haccepted : ¬(count = 0 ∨ kTransfersMax < count ∨ s.sendQueued = kSendGroups)) :
    Holds (s.queueTransfers list count function arg).state
      ⟨line.waiting ++ [Run.asked list count function arg], line.finished⟩ := by
  have hlt : s.sendQueued < kSendGroups :=
    lt_of_le_of_ne h.queued fun heq => haccepted (.inr (.inr heq))
  have hruns := Sifman.queued_runs list count function arg hlt
  rw [h.runs] at hruns
  rw [queueTransfers_accepted haccepted]
  dsimp only
  by_cases hzero : s.sendQueued = 0
  · obtain rfl := h.eq_empty hzero
    rw [if_pos hzero]
    exact ⟨h.head, Nat.succ_le_of_lt hlt, hruns, rfl, nofun⟩
  · have hne := h.waiting_ne_nil hzero
    have hchannel := h.channel
    rw [if_neg hne] at hchannel
    rw [if_neg hzero]
    refine ⟨h.head, Nat.succ_le_of_lt hlt, hruns, ?_, fun _ => by simp⟩
    rw [if_neg (by simp)]
    exact hchannel

/-- Queueing a run. -/
theorem Holds.queueTransfers (h : Holds s line) (list : ℕ → Transfer)
    (count function arg : UInt32) :
    let o := s.queueTransfers list count function arg
    ∃ line', Line.Step Run.callback line
        (Seen.acts ⟨.queue list count function arg, o.answer, o.effects⟩) line' ∧
      Holds o.state line' := by
  by_cases hrefused : count = 0 ∨ kTransfersMax < count ∨ s.sendQueued = kSendGroups
  · rw [queueTransfers_refused hrefused]
    exact ⟨line, .skip line, h⟩
  have hholds := h.accepted list function arg hrefused
  refine ⟨_, ?_, hholds⟩
  rw [queueTransfers_accepted hrefused] at hholds ⊢
  dsimp only at hholds ⊢
  by_cases hzero : s.sendQueued = 0
  · obtain rfl := h.eq_empty hzero
    rw [if_pos hzero] at hholds ⊢
    have hrun : ((s.queued list count function arg).sendQueue s.sendHead).run =
        Run.asked list count function arg := Sifman.run_head hholds.head hholds.runs
    unfold Seen.acts Seen.accepted Sifman.startHead
    simp only [if_true, List.filterMap_cons, Effect.act?]
    rw [show (s.queued list count function arg).sendHead = s.sendHead from rfl, hrun]
    exact .begin _
  · rw [if_neg hzero]
    exact .accept _ (h.waiting_ne_nil hzero)

/-- A channel that runs is on the first run of the line. -/
theorem Holds.running (h : Holds s line) {slot : ℕ} (hslot : s.channel = .running slot) :
    slot = s.sendHead ∧ ∃ job rest, line = ⟨job :: rest, false⟩ ∧
      (s.sendQueue s.sendHead).run = job := by
  have hchannel := h.channel
  obtain ⟨_ | ⟨job, rest⟩, _ | _⟩ := line
  · simp [hslot] at hchannel
  · simp [hslot] at hchannel
  · obtain rfl : slot = s.sendHead := by simpa [hslot] using hchannel
    exact ⟨rfl, job, rest, rfl, Sifman.run_head h.head h.runs⟩
  · simp [hslot] at hchannel

/-- The channel gets done. -/
theorem Holds.finish (h : Holds s line) {slot : ℕ} (hslot : s.channel = .running slot) :
    Holds { s with channel := .finished slot } ⟨line.waiting, true⟩ := by
  obtain ⟨rfl, job, rest, rfl, -⟩ := h.running hslot
  exact ⟨h.head, h.queued, h.runs, rfl, fun _ => List.cons_ne_nil _ _⟩

/-- A channel that is done has done the first run of the line. -/
theorem Holds.done (h : Holds s line) {slot : ℕ} (hslot : s.channel = .finished slot) :
    s.sendQueued ≠ 0 ∧ ∃ job rest, line = ⟨job :: rest, true⟩ ∧
      (s.sendQueue s.sendHead).run = job := by
  have hchannel := h.channel
  have hlength := h.length
  obtain ⟨_ | ⟨job, rest⟩, _ | _⟩ := line
  · simp [hslot] at hchannel
  · simp [hslot] at hchannel
  · simp [hslot] at hchannel
  · rw [← hlength]
    exact ⟨Nat.succ_ne_zero _, job, rest, rfl, Sifman.run_head h.head h.runs⟩

/-- The interrupt takes the first run off the line. -/
theorem Holds.popped (h : Holds s line) {slot : ℕ} (hslot : s.channel = .finished slot) :
    Holds (Sifman.sendFinished { s with channel := .idle }).state ⟨line.waiting.tail, false⟩ := by
  obtain ⟨hpos, job, rest, rfl, -⟩ := h.done hslot
  have hrest : s.sendQueued - 1 = rest.length := by
    rw [← h.length]
    rfl
  have hpopped : (Sifman.popped { s with channel := .idle }).runs = rest := h.popped_runs
  have hhead : (s.sendHead + 1) % kSendGroups < kSendGroups := Nat.mod_lt _ (by decide)
  have hle : s.sendQueued - 1 ≤ kSendGroups := (Nat.sub_le _ _).trans h.queued
  rw [sendFinished_of_queued (s := { s with channel := .idle }) hpos]
  dsimp only
  rw [hrest]
  cases rest with
  | nil => exact ⟨hhead, hle, hpopped, rfl, nofun⟩
  | cons next rest =>
    rw [if_pos (show (next :: rest).length ≠ 0 from Nat.succ_ne_zero _)]
    exact ⟨hhead, hle, hpopped, rfl, nofun⟩

/-- What the interrupt shows: the next run started, and the callback of the one that is done. -/
theorem Holds.acts_interrupt {job : Run} {rest : List Run} (h : Holds s ⟨job :: rest, true⟩)
    (hpos : s.sendQueued ≠ 0) :
    let o := Sifman.sendFinished { s with channel := .idle }
    Seen.acts ⟨.interrupt, o.answer, o.effects⟩ =
      (rest.take 1).map .begun ++ job.callback.toList.map .called := by
  have hrest : s.sendQueued - 1 = rest.length := by
    rw [← h.length]
    rfl
  have hcall : ((job.callback.map fun call => Effect.called call.1 call.2).toList).filterMap
      Effect.act? = job.callback.toList.map .called := by
    cases job.callback <;> rfl
  rw [sendFinished_of_queued (s := { s with channel := .idle }) hpos]
  dsimp only
  rw [Sifman.run_head h.head h.runs, hrest]
  unfold Seen.acts Seen.accepted
  rw [List.map_nil, List.nil_append, List.filterMap_append, hcall]
  congr 1
  cases rest with
  | nil => rfl
  | cons next rest =>
    have hnext := Sifman.run_head (s := Sifman.popped { s with channel := .idle })
      (Nat.mod_lt _ (by decide)) h.popped_runs
    rw [if_pos (show (next :: rest).length ≠ 0 from Nat.succ_ne_zero _)]
    simp [Sifman.startHead, Effect.act?, hnext]

/-- **A step of the ring is a step of the line.** -/
theorem Holds.step {seen : Seen} {t : Sifman} (h : Holds s line) (hst : s.Step seen t) :
    ∃ line', Line.Step Run.callback line seen.acts line' ∧ Holds t line' := by
  obtain ⟨event, answer, effects⟩ := seen
  unfold Sifman.Step Sifman.step at hst
  cases event with
  | queue list count function arg =>
    have hout := Option.some.inj hst
    have hstep := h.queueTransfers list count function arg
    rw [hout] at hstep
    exact hstep
  | finish =>
    cases hslot : s.channel with
    | running slot =>
      simp only [hslot, Option.some.injEq, Outcome.mk.injEq] at hst
      obtain ⟨rfl, rfl, rfl⟩ := hst
      obtain ⟨rfl, job, rest, rfl, hjob⟩ := h.running hslot
      refine ⟨_, ?_, h.finish hslot⟩
      unfold Seen.acts Seen.accepted
      simp only [List.filterMap_cons, Effect.act?, hjob]
      exact .finish job rest
    | _ => simp [hslot] at hst
  | interrupt =>
    cases hslot : s.channel with
    | finished slot =>
      simp only [hslot, Option.some.injEq] at hst
      obtain ⟨hpos, job, rest, rfl, -⟩ := h.done hslot
      have hacts := h.acts_interrupt hpos
      have hpopped := h.popped hslot
      rw [hst] at hacts hpopped
      rw [hacts]
      exact ⟨_, .retire job rest, hpopped⟩
    | _ => simp [hslot] at hst

/-- The channel is on the group at the head, if on any. -/
theorem Holds.slot (h : Holds s line) {slot : ℕ} (hslot : s.channel.slot? = some slot) :
    slot = s.sendHead ∧ s.sendQueued ≠ 0 := by
  have hchannel := h.channel
  have hlength := h.length
  obtain ⟨_ | ⟨job, rest⟩, _ | _⟩ := line
  · simp [hchannel, Channel.slot?] at hslot
  · simp [hchannel, Channel.slot?] at hslot
  all_goals
    simp only [hchannel, Channel.slot?, reduceCtorEq, if_false, if_true, Bool.false_eq_true,
      Option.some.injEq] at hslot
    simp only [List.length_cons] at hlength
    exact ⟨hslot.symm, by omega⟩

theorem Holds.isFinished (h : Holds s line) : s.channel.isFinished = line.finished := by
  have hchannel := h.channel
  have hfinished := h.finished
  obtain ⟨_ | ⟨job, rest⟩, _ | _⟩ := line <;> simp_all [Channel.isFinished]

theorem Holds.idle_iff (h : Holds s line) : s.channel = .idle ↔ line.waiting = [] := by
  have hchannel := h.channel
  obtain ⟨_ | ⟨job, rest⟩, _ | _⟩ := line <;> simp_all

/-- A group is written only where the channel is not. -/
theorem Holds.queue_slot_ne (h : Holds s line) (hlt : s.sendQueued < kSendGroups)
    {slot : ℕ} (hslot : s.channel.slot? = some slot) :
    slot ≠ (s.sendHead + s.sendQueued) % kSendGroups := by
  obtain ⟨rfl, hpos⟩ := h.slot hslot
  have hne : (s.sendHead + 0) % kSendGroups ≠ (s.sendHead + s.sendQueued) % kSendGroups :=
    RingBuffer.slot_ne (Nat.pos_of_ne_zero hpos) (by omega)
  rwa [Nat.add_zero, Nat.mod_eq_of_lt h.head] at hne

/-- A run that is accepted starts an idle channel, and leaves a busy one and its group alone. -/
theorem Holds.accepted_channel (h : Holds s line) (list : ℕ → Transfer) {count : UInt32}
    (function arg : UInt32)
    (haccepted : ¬(count = 0 ∨ kTransfersMax < count ∨ s.sendQueued = kSendGroups)) :
    let t := (s.queueTransfers list count function arg).state
    s.channel = .idle ∧ t.channel = .running s.sendHead ∨
      s.channel ≠ .idle ∧ t.channel = s.channel ∧
        ∀ slot, s.channel.slot? = some slot → t.sendQueue slot = s.sendQueue slot := by
  have hlt : s.sendQueued < kSendGroups :=
    lt_of_le_of_ne h.queued fun heq => haccepted (.inr (.inr heq))
  rw [queueTransfers_accepted haccepted]
  dsimp only
  by_cases hzero : s.sendQueued = 0
  · rw [if_pos hzero]
    exact .inl ⟨h.idle_iff.mpr (h.eq_empty hzero ▸ rfl), rfl⟩
  · rw [if_neg hzero]
    refine .inr ⟨fun hidle => h.waiting_ne_nil hzero (h.idle_iff.mp hidle), rfl, ?_⟩
    intro slot hslot
    unfold Sifman.queued
    exact Function.update_of_ne (h.queue_slot_ne hlt hslot) ..

/-- What a step answers, and what it leaves alone. -/
structure Guarded (s : Sifman) (seen : Seen) (t : Sifman) : Prop where
  /-- A run is refused for its count, or because the ring is full. -/
  refused : ∀ list count function arg, seen.event = .queue list count function arg →
    (seen.answer = 0 ↔ count = 0 ∨ kTransfersMax < count ∨ s.sendQueued = kSendGroups)
  /-- The channel is started only when it is on no run. -/
  started : ∀ slot group, .started slot group ∈ seen.effects → ∀ other, s.channel ≠ .running other
  /-- The blocks of the run the channel is on are not written. -/
  wrote : ∀ slot, s.channel.slot? = some slot → .wrote slot ∉ seen.effects
  /-- They stay the same, too. -/
  blocks : ∀ slot, s.channel.slot? = some slot →
    (t.sendQueue slot).blocks = (s.sendQueue slot).blocks

/-- Accepting a run overwrites no run that waits. -/
theorem Holds.guarded_queue (h : Holds s line) (list : ℕ → Transfer)
    (count function arg : UInt32) :
    let o := s.queueTransfers list count function arg
    Guarded s ⟨.queue list count function arg, o.answer, o.effects⟩ o.state := by
  by_cases hrefused : count = 0 ∨ kTransfersMax < count ∨ s.sendQueued = kSendGroups
  · rw [queueTransfers_refused hrefused]
    refine ⟨?_, nofun, nofun, fun _ _ => rfl⟩
    rintro _ _ _ _ ⟨⟩
    exact iff_of_true rfl hrefused
  have hlt : s.sendQueued < kSendGroups :=
    lt_of_le_of_ne h.queued fun heq => hrefused (.inr (.inr heq))
  have hblocks : ∀ slot, s.channel.slot? = some slot →
      ((s.queueTransfers list count function arg).state.sendQueue slot).blocks =
        (s.sendQueue slot).blocks := by
    intro slot hslot
    rcases h.accepted_channel list function arg hrefused with
      ⟨hidle, -⟩ | ⟨-, -, hsame⟩
    · rw [hidle] at hslot
      cases hslot
    · rw [hsame slot hslot]
  rw [queueTransfers_accepted hrefused] at hblocks ⊢
  dsimp only at hblocks ⊢
  by_cases hzero : s.sendQueued = 0
  · rw [if_pos hzero] at hblocks ⊢
    have hidle := h.idle_iff.mpr (h.eq_empty hzero ▸ rfl)
    refine ⟨?_, ?_, ?_, hblocks⟩
    · rintro _ _ _ _ ⟨⟩
      exact iff_of_false (show ¬(1 : UInt32) = 0 by decide) hrefused
    · intro _ _ _ other hrunning
      rw [hidle] at hrunning
      cases hrunning
    · intro slot hslot
      rw [hidle] at hslot
      cases hslot
  · rw [if_neg hzero] at hblocks ⊢
    refine ⟨?_, ?_, ?_, hblocks⟩
    · rintro _ _ _ _ ⟨⟩
      exact iff_of_false (show ¬(1 : UInt32) = 0 by decide) hrefused
    · intro slot group hmem
      simp at hmem
    · intro slot hslot hmem
      simp only [List.mem_singleton, Effect.wrote.injEq] at hmem
      exact h.queue_slot_ne hlt hslot hmem

/-- The interrupt takes the callback out of the group, and leaves its blocks. -/
theorem popped_blocks (slot : ℕ) :
    (s.popped.sendQueue slot).blocks = (s.sendQueue slot).blocks := by
  unfold Sifman.popped
  dsimp only
  by_cases hslot : slot = s.sendHead
  · rw [hslot, Function.update_self]
  · rw [Function.update_of_ne hslot]

/-- Ending a run overwrites no run that waits. -/
theorem Holds.guarded_interrupt (h : Holds s line) {slot : ℕ}
    (hslot : s.channel = .finished slot) :
    let o := Sifman.sendFinished { s with channel := .idle }
    Guarded s ⟨.interrupt, o.answer, o.effects⟩ o.state := by
  have hpos : s.sendQueued ≠ 0 := (h.done hslot).1
  rw [sendFinished_of_queued (s := { s with channel := .idle }) hpos]
  refine ⟨nofun, ?_, ?_, ?_⟩
  · intro _ _ _ other hrunning
    rw [hslot] at hrunning
    cases hrunning
  · intro other _ hmem
    simp only [List.mem_append, Option.mem_toList, Option.map_eq_some_iff, reduceCtorEq,
      and_false, exists_false, or_false] at hmem
    split at hmem <;> simp [Sifman.startHead] at hmem
  · intro other _
    have hblocks := popped_blocks (s := { s with channel := .idle }) other
    dsimp only
    split
    · exact hblocks
    · exact hblocks

/-- No event overwrites a run that waits. -/
theorem Holds.guarded {seen : Seen} {t : Sifman} (h : Holds s line) (hst : s.Step seen t) :
    Guarded s seen t := by
  obtain ⟨event, answer, effects⟩ := seen
  unfold Sifman.Step Sifman.step at hst
  cases event with
  | queue list count function arg =>
    have hout := Option.some.inj hst
    have hguarded := h.guarded_queue list count function arg
    rw [hout] at hguarded
    exact hguarded
  | finish =>
    cases hslot : s.channel with
    | running slot =>
      simp only [hslot, Option.some.injEq, Outcome.mk.injEq] at hst
      obtain ⟨rfl, rfl, rfl⟩ := hst
      exact ⟨nofun, fun _ _ hmem => by simp at hmem, fun _ _ hmem => by simp at hmem,
        fun _ _ => rfl⟩
    | _ => simp [hslot] at hst
  | interrupt =>
    cases hslot : s.channel with
    | finished slot =>
      simp only [hslot, Option.some.injEq] at hst
      have hguarded := h.guarded_interrupt hslot
      rw [hst] at hguarded
      exact hguarded
    | _ => simp [hslot] at hst

end Ring

/-- **The send ring**, after any run: the runs accepted are begun in that order, each with the
blocks and the callback it was asked for with, up to those still waiting behind the one the
channel is on; the calls made are those of the runs the channel has finished, up to one whose
interrupt is due. Every step is `Guarded`; a ring that refuses for want of room holds 32 runs. -/
theorem send_ring {s : Sifman} {l : List Seen} (h : Steps Sifman.Step Sifman.start l s) :
    let log := l.flatMap Seen.acts
    ∃ retired waiting : List Run,
      log.filterMap Line.Act.accepted? = retired ++ waiting ∧
      log.filterMap Line.Act.begun? = retired ++ waiting.take 1 ∧
      log.filterMap Line.Act.finished? =
        retired ++ (if s.channel.isFinished then waiting.take 1 else []) ∧
      log.filterMap Line.Act.called? = retired.filterMap Run.callback ∧
      (s.channel = .idle ↔ waiting = []) ∧ waiting.length = s.sendQueued ∧
      ∀ seen t, s.Step seen t → Guarded s seen t := by
  have hsim : ∀ s line seen t, Holds s line → s.Step seen t →
      ∃ line', Line.Step Run.callback line seen.acts line' ∧ Holds t line' :=
    fun _ _ _ _ hholds hst => hholds.step hst
  obtain ⟨line, hline, hholds⟩ := h.simulation hsim holds_start
  obtain ⟨retired, haccepted, hbegun, hfinished, hcalled⟩ := Line.history hline
  refine ⟨retired, line.waiting, haccepted, hbegun, ?_, hcalled, hholds.idle_iff,
    hholds.length, fun seen t => hholds.guarded⟩
  rw [hholds.isFinished]
  exact hfinished

/-- One run queued on an idle channel and another behind it; the first is sent, and its callback
made when the second has been started. -/
theorem send_ring_two :
    ∃ l s, Steps Sifman.Step Sifman.start l s ∧ s.channel = .running 1 ∧
      (l.flatMap Seen.acts).filterMap Line.Act.called? = [(5, 7)] ∧
      ∃ retired waiting, (l.flatMap Seen.acts).filterMap Line.Act.accepted? = retired ++ waiting ∧
        (l.flatMap Seen.acts).filterMap Line.Act.begun? = retired ++ waiting.take 1 ∧
        waiting.length = 1 := by
  obtain ⟨l, s, hrun, hchannel, hqueued, hcalled⟩ : ∃ l s,
      traceList Sifman.perform Sifman.start
        [.queue (fun _ => ⟨0x1000, 0x2000, 0x30, 4⟩) 1 5 7,
          .queue (fun _ => ⟨0x3000, 0x4000, 0x10, 4⟩) 2 0 0, .finish, .interrupt] = some (l, s) ∧
      s.channel = .running 1 ∧ s.sendQueued = 1 ∧
      (l.flatMap Seen.acts).filterMap Line.Act.called? = [(5, 7)] :=
    ⟨_, _, rfl, rfl, rfl, by decide +kernel⟩
  have hsteps :=
    Steps.of_traceList (f := Sifman.perform) (fun _ _ _ _ => Sifman.step_of_perform) hrun
  obtain ⟨retired, waiting, haccepted, hbegun, -, -, -, hlength, -⟩ := send_ring hsteps
  exact ⟨l, s, hsteps, hchannel, hcalled, retired, waiting, haccepted, hbegun,
    hlength.trans hqueued⟩

end PS2Bios.Sif
