import PS2Bios.Sif.Sifcmd
import Mathlib.Algebra.Group.Nat.Defs
import Mathlib.Data.List.Forall2
import Mathlib.Data.List.ReduceOption

/-!
# The link to the EE

What leaves the IOP: SIFMAN and its channel, the memory the channel reads, and what has landed in
EE memory. The channel moves the blocks of the run it is on a quadword at a time, each as IOP
memory is at that time.

A run of one transfer may be handed over as a `Parcel`, on which an observer notes who sent it and
what its source held. As long as nobody writes where a parcel that is still to be moved is taken
from, every parcel that the ring accepted lands as it was handed over, in the order in which they
were (`Sound`).
-/

namespace PS2Bios.Sif

variable {τ : Type*}

/-- Put bytes into memory. -/
def put (memory : UInt32 → UInt8) (address : UInt32) (bytes : List UInt8) : UInt32 → UInt8 :=
  fun a =>
    if (a - address).toNat < bytes.length then bytes.getD (a - address).toNat 0 else memory a

/-- What one quadword of a transfer puts where. -/
structure Quad where
  address : UInt32
  bytes : List UInt8
deriving Repr, DecidableEq

/-- The `k`th quadword of a block, as memory is. -/
def quadAt (memory : UInt32 → UInt8) (block : SendBlock) (k : ℕ) : Quad where
  address := block.destination + UInt32.ofNat (16 * k)
  bytes := (List.range 16).map fun j => memory (Bus.source block + UInt32.ofNat (16 * k + j))

/-- The quadwords a send block moves. -/
def SendBlock.quads (block : SendBlock) : ℕ := block.words.toNat / 4

/-- The quadwords themselves, as the memory has them now. -/
def quadsOf (memory : UInt32 → UInt8) (block : SendBlock) : List Quad :=
  (List.range block.quads).map (quadAt memory block)

/-- The one block of a run of one transfer. -/
def Transfer.block (t : Transfer) : SendBlock := Sifman.describeRun (fun _ => t) 1 0

/-- The transfer is taken from this address, among others. -/
def Transfer.Reads (t : Transfer) (address : UInt32) : Prop :=
  ∃ k < 16 * t.block.quads, address = Bus.source t.block + UInt32.ofNat k

/-- A transfer as it was handed over. -/
structure Parcel (τ : Type*) where
  owner : τ
  transfer : Transfer
  quads : List Quad

/-- The ring under a memory, with how far its channel is. -/
structure Link (τ : Type*) where
  sifman : Sifman
  memory : UInt32 → UInt8
  /-- How many blocks of its run the channel is done with. -/
  block : ℕ
  /-- How many quadwords of the next one it has moved. -/
  moved : ℕ
  /-- What has landed in EE memory, the first first. -/
  arrived : List Quad
  /-- For an observer only: the parcels that the queued runs are. -/
  carried : List (Option (Parcel τ))
  /-- For an observer only: the parcels that were accepted. -/
  sent : List (Parcel τ)

namespace Link

/-- The link before its first run. -/
def start (memory : UInt32 → UInt8) : Link τ := ⟨Sifman.start, memory, 0, 0, [], [], []⟩

/-- SIFMAN is handed a run, and answers. -/
def queue (l : Link τ) (list : ℕ → Transfer) (count function arg : UInt32)
    (parcel : Option (Parcel τ)) : UInt32 × Link τ :=
  let o := l.sifman.queueTransfers list count function arg
  (o.answer,
    { l with
      sifman := o.state
      carried := if o.answer = 1 then l.carried ++ [parcel] else l.carried
      sent := if o.answer = 1 then l.sent ++ parcel.toList else l.sent })

/-- The parcel a transfer makes at this moment. -/
def parcel (l : Link τ) (owner : τ) (t : Transfer) : Parcel τ :=
  ⟨owner, t, quadsOf l.memory t.block⟩

/-- `sifSetDma` with one transfer. -/
def setDma (l : Link τ) (owner : τ) (t : Transfer) : UInt32 × Link τ :=
  l.queue (fun _ => t) 1 0 0 (some (l.parcel owner t))

/-- Bytes into the memory. -/
def store (l : Link τ) (address : UInt32) (bytes : List UInt8) : Link τ :=
  { l with memory := put l.memory address bytes }

/-- Bytes of the memory. -/
def load (l : Link τ) (address : UInt32) (n : ℕ) : List UInt8 :=
  (List.range n).map fun k => l.memory (address + UInt32.ofNat k)

/-- The parcels still to be moved, the one the channel is on included. -/
def undelivered (l : Link τ) : List (Option (Parcel τ)) :=
  if l.sifman.channel.isFinished then l.carried.tail else l.carried

/-- A parcel that is still to be moved is taken from this address. -/
def Waits (l : Link τ) (address : UInt32) : Prop :=
  ∃ p, some p ∈ l.undelivered ∧ p.transfer.Reads address

/-- The channel moves the next quadword of its block. -/
def move (l : Link τ) : Option (Link τ) :=
  match l.sifman.channel with
  | .running slot =>
    let block := (l.sifman.sendQueue slot).blocks l.block
    if l.moved < block.quads then
      some { l with
        moved := l.moved + 1
        arrived := l.arrived ++ [quadAt l.memory block l.moved] }
    else none
  | _ => none

/-- The channel has moved a block whole. -/
def deliver (l : Link τ) : Option (Link τ) :=
  match l.sifman.channel with
  | .running slot =>
    let block := (l.sifman.sendQueue slot).blocks l.block
    if l.moved = block.quads then
      if block.address &&& kTagEnd ≠ 0 then
        some { l with
          sifman := { l.sifman with channel := .finished slot }
          block := 0
          moved := 0 }
      else some { l with block := l.block + 1, moved := 0 }
    else none
  | _ => none

/-- The channel's interrupt is served. -/
def interrupt (l : Link τ) : Option (Link τ) :=
  match l.sifman.channel with
  | .finished _ =>
    some { l with
      sifman := (Sifman.sendFinished { l.sifman with channel := .idle }).state
      carried := l.carried.tail }
  | _ => none

end Link

/-! ### What has landed -/

/-- The parcels have landed in this order, with whatever else between them. -/
inductive Landed : List (Parcel τ) → List Quad → Prop
  | nil : Landed [] []
  | other {ps : List (Parcel τ)} {qs : List Quad} (h : Landed ps qs) (q : Quad) :
      Landed ps (qs ++ [q])
  | parcel {ps : List (Parcel τ)} {qs : List Quad} (h : Landed ps qs) (p : Parcel τ) :
      Landed (ps ++ [p]) (qs ++ p.quads)

/-- Each of them has landed whole. -/
theorem Landed.exists_of_mem {ps : List (Parcel τ)} {qs : List Quad} (h : Landed ps qs)
    {p : Parcel τ} (hp : p ∈ ps) : ∃ before after, qs = before ++ p.quads ++ after := by
  induction h with
  | nil => cases hp
  | other _ q ih =>
    obtain ⟨before, after, rfl⟩ := ih hp
    exact ⟨before, after ++ [q], List.append_assoc ..⟩
  | @parcel _ qs _ last ih =>
    rcases List.mem_append.mp hp with hold | hlast
    · obtain ⟨before, after, rfl⟩ := ih hold
      exact ⟨before, after ++ last.quads, List.append_assoc ..⟩
    · obtain rfl := List.mem_singleton.mp hlast
      exact ⟨qs, [], (List.append_nil _).symm⟩

/-- The byte an address has been given last, if any. -/
def byteAt (arrived : List Quad) (address : UInt32) : Option UInt8 :=
  arrived.foldl (fun held q => (q.bytes[(address - q.address).toNat]?).or held) none

/-- What has not been written since is as it landed. -/
theorem byteAt_of_untouched {before quads after : List Quad} {address : UInt32}
    (hin : byteAt quads address ≠ none)
    (hout : ∀ q ∈ after, q.bytes[(address - q.address).toNat]? = none) :
    byteAt (before ++ quads ++ after) address = byteAt quads address := by
  have hkeep : ∀ (l : List Quad) (held : Option UInt8),
      (∀ q ∈ l, q.bytes[(address - q.address).toNat]? = none) →
        l.foldl (fun held q => (q.bytes[(address - q.address).toNat]?).or held) held = held := by
    intro l
    induction l with
    | nil => exact fun _ _ => rfl
    | cons q l ih =>
      intro held hl
      rw [List.foldl_cons, hl q (.head _), Option.none_or]
      exact ih held fun q' hq' => hl q' (.tail _ hq')
  -- whatever was held before, a byte that is written is what was written last
  have hover : ∀ (l : List Quad) (held : Option UInt8),
      l.foldl (fun held q => (q.bytes[(address - q.address).toNat]?).or held) held =
        (byteAt l address).or held := by
    intro l
    induction l using List.reverseRecOn with
    | nil => exact fun _ => rfl
    | append_singleton l q ih =>
      intro held
      unfold byteAt at ih ⊢
      rw [List.foldl_append, List.foldl_append, ih]
      simp only [List.foldl_cons, List.foldl_nil, Option.or_assoc]
  unfold byteAt
  rw [List.foldl_append, List.foldl_append, hkeep _ _ hout, hover]
  obtain ⟨x, hx⟩ := Option.ne_none_iff_exists'.mp hin
  unfold byteAt at hx ⊢
  rw [hx, Option.some_or]

/-! ### Parcels in the ring -/

/-- A run that is a parcel is the one transfer of it. -/
def IsParcel (run : Run) (parcel : Option (Parcel τ)) : Prop :=
  ∀ p, parcel = some p → run = Run.asked (fun _ => p.transfer) 1 0 0

namespace Link

/-- The parcel that is next to land. -/
def first (l : Link τ) : Option (Parcel τ) := l.undelivered.head?.join

/-- What has landed of it. -/
def halfway (l : Link τ) : List Quad := (l.first.elim [] Parcel.quads).take l.moved

/-- What the link holds: a line of runs, and parcels that are still as they were handed over. -/
structure Sound (l : Link τ) (line : Line.State Run) : Prop where
  holds : Holds l.sifman line
  carried : List.Forall₂ IsParcel line.waiting l.carried
  intact : ∀ p, some p ∈ l.undelivered → p.quads = quadsOf l.memory p.transfer.block
  landed : ∃ done before, Landed done before ∧ l.sent = done ++ l.undelivered.reduceOption ∧
    l.arrived = before ++ l.halfway
  first : l.first ≠ none → l.block = 0
  stopped : (∀ slot, l.sifman.channel ≠ .running slot) → l.block = 0 ∧ l.moved = 0

/-- Before the first transfer the link is sound. -/
theorem sound_start (memory : UInt32 → UInt8) :
    (start memory : Link τ).Sound Line.State.start where
  holds := holds_start
  carried := .nil
  intact := nofun
  landed := ⟨[], [], .nil, rfl, rfl⟩
  first _ := rfl
  stopped _ := ⟨rfl, rfl⟩

variable {l : Link τ} {line : Line.State Run}

/-- A drained ring has nothing to move. -/
theorem Sound.undelivered_of_drained (h : l.Sound line) (hzero : l.sifman.sendQueued = 0) :
    l.undelivered = [] := by
  obtain rfl := h.holds.eq_empty hzero
  have hcarried : l.carried = [] := by
    cases hc : l.carried with
    | nil => rfl
    | cons x xs => exact nomatch hc ▸ h.carried
  unfold undelivered
  rw [hcarried, List.tail_nil, ite_self]

/-- A drained ring has delivered every parcel. -/
theorem Sound.drained (h : l.Sound line) (hzero : l.sifman.sendQueued = 0) :
    Landed l.sent l.arrived := by
  obtain ⟨done, before, hlanded, hsent, harrived⟩ := h.landed
  have hundelivered := h.undelivered_of_drained hzero
  have hhalfway : l.halfway = [] := by
    unfold halfway Link.first
    rw [hundelivered]
    exact List.take_nil
  rw [hundelivered] at hsent
  rw [hhalfway, List.append_nil] at harrived
  rw [harrived, hsent, List.reduceOption_nil, List.append_nil]
  exact hlanded

/-- A write that leaves every parcel's source alone. -/
theorem Sound.setMemory (h : l.Sound line) {memory : UInt32 → UInt8}
    (hm : ∀ a, l.Waits a → memory a = l.memory a) :
    ({ l with memory := memory } : Link τ).Sound line where
  holds := h.holds
  carried := h.carried
  intact p hp := by
    rw [h.intact p hp]
    refine List.map_congr_left fun k hk => ?_
    have hk := List.mem_range.mp hk
    unfold quadAt
    congr 1
    refine List.map_congr_left fun j hj => (hm _ ⟨p, hp, 16 * k + j, ?_, rfl⟩).symm
    have hj := List.mem_range.mp hj
    omega
  landed := h.landed
  first := h.first
  stopped := h.stopped

/-- A store outside what waits to be sent keeps the link sound. -/
theorem Sound.store (h : l.Sound line) {address : UInt32} {bytes : List UInt8}
    (hout : ∀ k < bytes.length, ¬l.Waits (address + UInt32.ofNat k)) :
    (l.store address bytes).Sound line := by
  refine h.setMemory fun a ha => if_neg fun hlt => hout _ hlt ?_
  have heq : address + UInt32.ofNat (a - address).toNat = a := by
    rw [UInt32.ofNat_toNat, UInt32.add_comm, UInt32.sub_add_cancel]
  rwa [heq]

theorem Sound.undelivered_eq (h : l.Sound line) :
    l.undelivered = if line.finished then l.carried.tail else l.carried := by
  unfold undelivered
  rw [h.holds.isFinished]

theorem Sound.carried_eq_nil_iff (h : l.Sound line) : l.carried = [] ↔ line.waiting = [] := by
  rw [← List.length_eq_zero_iff, ← h.carried.length_eq, List.length_eq_zero_iff]

/-- With nothing to move the channel does not run. -/
theorem Sound.stopped_of_empty (h : l.Sound line) (hempty : l.undelivered = []) :
    l.block = 0 ∧ l.moved = 0 := by
  refine h.stopped fun slot hslot => ?_
  obtain ⟨-, job, rest, rfl, -⟩ := h.holds.running hslot
  rw [h.undelivered_eq] at hempty
  exact List.cons_ne_nil _ _ (h.carried_eq_nil_iff.mp hempty)

/-- The channel stays where it was, or starts. -/
theorem Sound.stopped_queue (h : l.Sound line) (list : ℕ → Transfer) {count : UInt32}
    (function arg : UInt32)
    (haccepted : ¬(count = 0 ∨ kTransfersMax < count ∨ l.sifman.sendQueued = kSendGroups))
    (hstopped : ∀ slot, (l.sifman.queueTransfers list count function arg).state.channel ≠
      .running slot) : l.block = 0 ∧ l.moved = 0 := by
  rcases h.holds.accepted_channel list function arg haccepted with
    ⟨-, hrunning⟩ | ⟨-, hchannel, -⟩
  · exact absurd hrunning (hstopped _)
  · exact h.stopped fun slot hslot => hstopped slot (hchannel.trans hslot)

/-- One more parcel behind the others does not touch what is halfway. -/
theorem Sound.halfway_eq (h : l.Sound line) {l' : Link τ} {parcel : Option (Parcel τ)}
    (happend : l'.undelivered = l.undelivered ++ [parcel]) (hmoved : l'.moved = l.moved) :
    l'.halfway = l.halfway := by
  unfold halfway Link.first
  rw [happend, hmoved]
  cases hold : l.undelivered with
  | nil => rw [(h.stopped_of_empty hold).2, List.take_zero, List.take_zero]
  | cons x xs => rfl

/-- A parcel's first block is the run's. -/
theorem Sound.block_eq_zero (h : l.Sound line) {l' : Link τ} {parcel : Option (Parcel τ)}
    (happend : l'.undelivered = l.undelivered ++ [parcel]) (hfirst : l'.first ≠ none) :
    l.block = 0 := by
  unfold Link.first at hfirst
  rw [happend] at hfirst
  cases hold : l.undelivered with
  | nil => exact (h.stopped_of_empty hold).1
  | cons x xs =>
    refine h.first fun hnone => hfirst ?_
    rw [← hnone, Link.first, hold]
    rfl

/-- A run that is accepted is behind the others. -/
theorem Sound.undelivered_accepted (h : l.Sound line) (list : ℕ → Transfer) {count : UInt32}
    (function arg : UInt32)
    (haccepted : ¬(count = 0 ∨ kTransfersMax < count ∨ l.sifman.sendQueued = kSendGroups))
    (parcel : Option (Parcel τ)) :
    undelivered { l with
      sifman := (l.sifman.queueTransfers list count function arg).state
      carried := l.carried ++ [parcel]
      sent := l.sent ++ parcel.toList } = l.undelivered ++ [parcel] := by
  unfold undelivered
  rw [(h.holds.accepted list function arg haccepted).isFinished, h.holds.isFinished]
  dsimp only
  cases hfinished : line.finished with
  | false => rfl
  | true =>
    have hne : l.carried ≠ [] := mt h.carried_eq_nil_iff.mp (h.holds.finished hfinished)
    rw [if_pos rfl, if_pos rfl, List.tail_append_of_ne_nil hne]

/-- A run is handed over. -/
theorem Sound.queue (h : l.Sound line) (list : ℕ → Transfer) (count function arg : UInt32)
    {parcel : Option (Parcel τ)} (hparcel : IsParcel (Run.asked list count function arg) parcel)
    (hintact : ∀ p, parcel = some p → p.quads = quadsOf l.memory p.transfer.block) :
    ∃ line', (l.queue list count function arg parcel).2.Sound line' := by
  unfold Link.queue
  by_cases hrefused : count = 0 ∨ kTransfersMax < count ∨ l.sifman.sendQueued = kSendGroups
  · rw [queueTransfers_refused hrefused]
    exact ⟨line, h⟩
  have hholds := h.holds.accepted list function arg hrefused
  have hanswer : (l.sifman.queueTransfers list count function arg).answer = 1 := by
    rw [queueTransfers_accepted hrefused]
    dsimp only
    split <;> rfl
  dsimp only
  rw [if_pos hanswer, if_pos hanswer]
  have hundelivered := h.undelivered_accepted list function arg hrefused parcel
  refine ⟨_, hholds, ?_, ?_, ?_, ?_, h.stopped_queue list function arg hrefused⟩
  · exact List.rel_append h.carried (.cons hparcel .nil)
  · intro p hp
    rw [hundelivered, List.mem_append, List.mem_singleton] at hp
    exact hp.elim (h.intact p) fun heq => hintact p heq.symm
  · obtain ⟨done, before, hlanded, hsent, harrived⟩ := h.landed
    refine ⟨done, before, hlanded, ?_, ?_⟩
    · rw [hundelivered, List.reduceOption_append, List.reduceOption_singleton,
        ← List.append_assoc, ← hsent]
    · have hhalfway := h.halfway_eq hundelivered rfl
      rw [hhalfway]
      exact harrived
  · exact h.block_eq_zero hundelivered

/-- The channel is on the parcel that is next to land, or on nobody's. -/
theorem Sound.running (h : l.Sound line) {slot : ℕ} (hslot : l.sifman.channel = .running slot) :
    ∃ job rest x xs, line = ⟨job :: rest, false⟩ ∧ l.carried = x :: xs ∧
      l.undelivered = x :: xs ∧ (l.sifman.sendQueue slot).run = job ∧ IsParcel job x := by
  obtain ⟨rfl, job, rest, rfl, hjob⟩ := h.holds.running hslot
  have hundelivered := h.undelivered_eq
  have hcarried := h.carried
  obtain ⟨x, xs, hx⟩ : ∃ x xs, l.carried = x :: xs :=
    List.exists_cons_of_ne_nil fun hnil => List.cons_ne_nil _ _ (h.carried_eq_nil_iff.mp hnil)
  rw [hx] at hundelivered hcarried
  cases hcarried with
  | cons hparcel _ => exact ⟨job, rest, x, xs, rfl, hx, hundelivered, hjob, hparcel⟩

/-- The block of a parcel. -/
theorem block_of_run {group : SendGroup} {t : Transfer}
    (h : group.run = Run.asked (fun _ => t) 1 0 0) : group.blocks 0 = t.block := by
  have hblocks : (List.range group.count.toNat).map group.blocks = [t.block] :=
    congrArg Run.blocks h
  have hlen := congrArg List.length hblocks
  rw [List.length_map, List.length_range, List.length_singleton] at hlen
  rw [hlen] at hblocks
  exact (List.cons.inj hblocks).1

/-- A quadword is moved. -/
theorem Sound.move (h : l.Sound line) {l' : Link τ} (hmove : l.move = some l') :
    l'.Sound line := by
  unfold Link.move at hmove
  split at hmove
  next slot hslot =>
    obtain ⟨job, rest, x, xs, rfl, hx, hundelivered, hjob, hparcel⟩ := h.running hslot
    dsimp only at hmove
    split at hmove
    next hlt =>
      obtain rfl := Option.some.inj hmove
      refine ⟨h.holds, h.carried, h.intact, ?_, h.first, fun hno => absurd hslot (hno slot)⟩
      obtain ⟨done, before, hlanded, hsent, harrived⟩ := h.landed
      have hfirst : l.first = x := by
        unfold Link.first
        rw [hundelivered]
        rfl
      cases x with
      | none =>
        have hhalf : ∀ n, (l.first.elim [] Parcel.quads).take n = [] := fun n => by
          rw [hfirst, Option.elim_none, List.take_nil]
        refine ⟨done, before ++ [quadAt l.memory ((l.sifman.sendQueue slot).blocks l.block)
          l.moved], .other hlanded _, hsent, ?_⟩
        show l.arrived ++ [_] = _ ++ (l.first.elim [] Parcel.quads).take (l.moved + 1)
        rw [hhalf, harrived, halfway, hhalf, List.append_nil, List.append_nil]
      | some p =>
        have hblock : l.block = 0 := h.first (by rw [hfirst]; exact Option.some_ne_none p)
        have hof : (l.sifman.sendQueue slot).blocks 0 = p.transfer.block :=
          block_of_run (hjob.trans (hparcel p rfl))
        have hquads := h.intact p (by rw [hundelivered]; exact .head _)
        refine ⟨done, before, hlanded, hsent, ?_⟩
        show l.arrived ++ [_] = before ++ (l.first.elim [] Parcel.quads).take (l.moved + 1)
        rw [hblock, hof] at hlt
        rw [hblock, hof, harrived, halfway, hfirst, Option.elim_some, List.append_assoc, hquads,
          quadsOf, List.take_add_one, List.getElem?_map, List.getElem?_range hlt]
        rfl
    next => cases hmove
  next => cases hmove

/-- The block of a parcel is the last of its run. -/
theorem block_address_ends (t : Transfer) : t.block.address &&& kTagEnd ≠ 0 := by
  have hor : (t.src ||| kTagEnd) &&& kTagEnd = kTagEnd := by
    apply UInt32.eq_of_toBitVec_eq
    rw [UInt32.toBitVec_and, UInt32.toBitVec_or]
    refine BitVec.eq_of_getLsbD_eq fun i _ => ?_
    rw [BitVec.getLsbD_and, BitVec.getLsbD_or]
    cases kTagEnd.toBitVec.getLsbD i <;> simp
  show (t.src ||| kTagEnd) &&& kTagEnd ≠ 0
  rw [hor]
  decide

/-- The quadwords of a transfer that is not too large. -/
theorem quads_block {t : Transfer} (h : t.size.toNat < 2 ^ 31) :
    t.block.quads = (t.size.toNat + 15) / 16 := by
  have hwords : ((t.size + 3) / 4).toNat = (t.size.toNat + 3) / 4 := by
    rw [UInt32.toNat_div, UInt32.toNat_add]
    show (t.size.toNat + 3) % 2 ^ 32 / 4 = _
    omega
  have hquads : (quadwords ((t.size + 3) / 4)).toNat = ((t.size.toNat + 3) / 4 + 3) / 4 := by
    unfold quadwords
    rw [UInt32.toNat_div, UInt32.toNat_add, hwords]
    show ((t.size.toNat + 3) / 4 + 3) % 2 ^ 32 / 4 = _
    omega
  show (quadwords ((t.size + 3) / 4) * 4).toNat / 4 = _
  rw [UInt32.toNat_mul, hquads]
  show ((t.size.toNat + 3) / 4 + 3) / 4 * 4 % 2 ^ 32 / 4 = _
  omega

/-- The mark is not part of where a block is taken from. -/
theorem source_block (t : Transfer) : Bus.source t.block = t.src &&& 0x7FFFFFFF := by
  show (t.src ||| kTagEnd) &&& 0x7FFFFFFF = t.src &&& 0x7FFFFFFF
  apply UInt32.toNat_inj.mp
  rw [UInt32.toNat_and, UInt32.toNat_or, UInt32.toNat_and, Nat.and_or_distrib_right]
  exact Nat.or_zero _

/-- A block has been moved whole; with the last of a run its parcel has landed. -/
theorem Sound.deliver (h : l.Sound line) {l' : Link τ} (hdeliver : l.deliver = some l') :
    ∃ line', l'.Sound line' := by
  unfold Link.deliver at hdeliver
  split at hdeliver
  next slot hslot =>
    obtain ⟨job, rest, x, xs, rfl, hx, hundelivered, hjob, hparcel⟩ := h.running hslot
    obtain ⟨done, before, hlanded, hsent, harrived⟩ := h.landed
    have hfirst : l.first = x := by
      unfold Link.first
      rw [hundelivered]
      rfl
    dsimp only at hdeliver
    split at hdeliver
    next hmoved =>
      split at hdeliver
      next hlast =>
        obtain rfl := Option.some.inj hdeliver
        have hrest : xs = l.carried.tail := by rw [hx, List.tail_cons]
        refine ⟨_, h.holds.finish hslot, h.carried, fun p hp => ?_, ?_, fun _ => rfl,
          fun _ => ⟨rfl, rfl⟩⟩
        · refine h.intact p ?_
          rw [hundelivered, hrest]
          exact .tail _ hp
        · have hlands : ∃ done', Landed done' l.arrived ∧
              l.sent = done' ++ xs.reduceOption := by
            rw [hundelivered] at hsent
            cases x with
            | none =>
              refine ⟨done, ?_, by rw [hsent, List.reduceOption_cons_of_none]⟩
              rw [harrived, halfway, hfirst, Option.elim_none, List.take_nil, List.append_nil]
              exact hlanded
            | some p =>
              have hblock : l.block = 0 := h.first (by rw [hfirst]; exact Option.some_ne_none p)
              have hquads := h.intact p (by rw [hundelivered]; exact .head _)
              have hwhole : l.halfway = p.quads := by
                rw [hblock, block_of_run (hjob.trans (hparcel p rfl))] at hmoved
                rw [halfway, hfirst, Option.elim_some, hmoved, hquads]
                exact List.take_of_length_le (by rw [quadsOf, List.length_map, List.length_range])
              refine ⟨done ++ [p], ?_, ?_⟩
              · rw [harrived, hwhole]
                exact .parcel hlanded p
              · rw [hsent, List.reduceOption_cons_of_some, List.append_assoc,
                  List.singleton_append]
          obtain ⟨done', hlanded', hsent'⟩ := hlands
          refine ⟨done', l.arrived, hlanded', hsent'.trans ?_, ?_⟩
          · rw [hrest]
            rfl
          · show l.arrived = l.arrived ++ List.take 0 _
            rw [List.take_zero, List.append_nil]
      next hlast =>
        obtain rfl := Option.some.inj hdeliver
        -- a parcel has no other block than its last
        obtain rfl : x = none := by
          by_contra hne
          obtain ⟨p, rfl⟩ := Option.ne_none_iff_exists'.mp hne
          have hblock : l.block = 0 := h.first (by rw [hfirst]; exact hne)
          rw [hblock, block_of_run (hjob.trans (hparcel p rfl))] at hlast
          exact hlast (block_address_ends p.transfer)
        have hhalf : ∀ n, (l.first.elim [] Parcel.quads).take n = [] := fun n => by
          rw [hfirst, Option.elim_none, List.take_nil]
        refine ⟨_, h.holds, h.carried, h.intact, ⟨done, before, hlanded, hsent, ?_⟩,
          fun hne => absurd hfirst hne, fun hno => absurd hslot (hno slot)⟩
        show l.arrived = before ++ (l.first.elim [] Parcel.quads).take 0
        rw [hhalf, harrived, halfway, hhalf]
    next => cases hdeliver
  next => cases hdeliver

/-- The interrupt takes off the ring what has landed. -/
theorem Sound.interrupt (h : l.Sound line) {l' : Link τ} (hinterrupt : l.interrupt = some l') :
    ∃ line', l'.Sound line' := by
  unfold Link.interrupt at hinterrupt
  split at hinterrupt
  next slot hslot =>
    obtain rfl := Option.some.inj hinterrupt
    obtain ⟨-, job, rest, rfl, -⟩ := h.holds.done hslot
    have hholds := h.holds.popped hslot
    obtain ⟨hblock, hmoved⟩ := h.stopped fun other hother => by
      rw [hslot] at hother
      cases hother
    have hundelivered : undelivered { l with
        sifman := (Sifman.sendFinished { l.sifman with channel := .idle }).state
        carried := l.carried.tail } = l.undelivered := by
      rw [h.undelivered_eq]
      unfold undelivered
      rw [hholds.isFinished]
      rfl
    refine ⟨_, hholds, ?_, fun p hp => ?_, ?_, fun _ => hblock, fun _ => ⟨hblock, hmoved⟩⟩
    · have hcarried := h.carried
      cases hc : l.carried with
      | nil =>
        rw [hc] at hcarried
        cases hcarried
      | cons x xs =>
        rw [hc] at hcarried
        cases hcarried with
        | cons _ hrest => exact hrest
    · rw [hundelivered] at hp
      exact h.intact p hp
    · obtain ⟨done, before, hlanded, hsent, harrived⟩ := h.landed
      refine ⟨done, before, hlanded, ?_, ?_⟩
      · rw [hundelivered]
        exact hsent
      · unfold halfway at harrived ⊢
        dsimp only at harrived ⊢
        rw [hmoved, List.take_zero] at harrived ⊢
        exact harrived
  next => cases hinterrupt

/-! ### What each operation leaves to be moved -/

/-- No parcel more is to be moved, and none has been handed over. -/
def Fewer (l l' : Link τ) : Prop :=
  (∀ p, some p ∈ l'.undelivered → some p ∈ l.undelivered) ∧ l'.sent = l.sent

/-- A quadword moved leaves fewer to move. -/
theorem fewer_move {l' : Link τ} (hmove : l.move = some l') : Fewer l l' := by
  unfold Link.move at hmove
  split at hmove
  · dsimp only at hmove
    split at hmove
    · obtain rfl := Option.some.inj hmove
      exact ⟨fun _ hp => hp, rfl⟩
    · cases hmove
  · cases hmove

/-- A delivery leaves fewer to deliver. -/
theorem Sound.fewer_deliver (h : l.Sound line) {l' : Link τ} (hdeliver : l.deliver = some l') :
    Fewer l l' := by
  unfold Link.deliver at hdeliver
  split at hdeliver
  next slot hslot =>
    obtain ⟨job, rest, x, xs, -, hx, hundelivered, -⟩ := h.running hslot
    dsimp only at hdeliver
    split at hdeliver
    · split at hdeliver
      · obtain rfl := Option.some.inj hdeliver
        refine ⟨fun p hp => ?_, rfl⟩
        rw [hundelivered, ← hx]
        exact List.mem_of_mem_tail hp
      · obtain rfl := Option.some.inj hdeliver
        exact ⟨fun _ hp => hp, rfl⟩
    · cases hdeliver
  next => cases hdeliver

/-- An interrupt served leaves fewer runs. -/
theorem Sound.fewer_interrupt (h : l.Sound line) {l' : Link τ}
    (hinterrupt : l.interrupt = some l') : Fewer l l' := by
  unfold Link.interrupt at hinterrupt
  split at hinterrupt
  next slot hslot =>
    obtain rfl := Option.some.inj hinterrupt
    refine ⟨fun p hp => ?_, rfl⟩
    unfold undelivered at hp ⊢
    rw [(h.holds.popped hslot).isFinished] at hp
    rw [hslot]
    exact hp
  next => cases hinterrupt

/-- The interrupt moves nothing. -/
theorem moved_interrupt {l' : Link τ} (hinterrupt : l.interrupt = some l') :
    l'.moved = l.moved := by
  unfold Link.interrupt at hinterrupt
  split at hinterrupt
  · obtain rfl := Option.some.inj hinterrupt
    rfl
  · cases hinterrupt

/-- The interrupt delivers nothing. -/
theorem arrived_interrupt {l' : Link τ} (hinterrupt : l.interrupt = some l') :
    l'.arrived = l.arrived := by
  unfold Link.interrupt at hinterrupt
  split at hinterrupt
  · obtain rfl := Option.some.inj hinterrupt
    rfl
  · cases hinterrupt

/-- A run that is handed over is accepted, or changes nothing. -/
theorem Sound.queue_eq (h : l.Sound line) (list : ℕ → Transfer) (count function arg : UInt32)
    (parcel : Option (Parcel τ)) :
    l.queue list count function arg parcel = (0, l) ∨
      (l.queue list count function arg parcel).1 = 1 ∧
      (l.queue list count function arg parcel).2.undelivered = l.undelivered ++ [parcel] ∧
      (l.queue list count function arg parcel).2.sent = l.sent ++ parcel.toList := by
  unfold Link.queue
  by_cases hrefused : count = 0 ∨ kTransfersMax < count ∨ l.sifman.sendQueued = kSendGroups
  · rw [queueTransfers_refused hrefused]
    exact .inl rfl
  · have hanswer : (l.sifman.queueTransfers list count function arg).answer = 1 := by
      rw [queueTransfers_accepted hrefused]
      dsimp only
      split <;> rfl
    dsimp only
    rw [if_pos hanswer, if_pos hanswer]
    exact .inr ⟨hanswer, h.undelivered_accepted list function arg hrefused parcel, rfl⟩

/-- A parcel is accepted as long as the ring is not full. -/
theorem setDma_accepted {owner : τ} {t : Transfer} (hroom : l.sifman.sendQueued ≠ kSendGroups) :
    (l.setDma owner t).1 = 1 := by
  show (l.sifman.queueTransfers (fun _ => t) 1 0 0).answer = 1
  rw [queueTransfers_accepted (by
    rintro (hzero | hmany | hfull)
    · exact absurd hzero (by decide)
    · exact absurd hmany (by decide)
    · exact hroom hfull)]
  dsimp only
  split <;> rfl

theorem setDma_refused {owner : τ} {t : Transfer} (hfull : l.sifman.sendQueued = kSendGroups) :
    l.setDma owner t = (0, l) := by
  unfold Link.setDma Link.queue
  rw [queueTransfers_refused (.inr (.inr hfull))]
  rfl

/-- A transfer is handed over as it is. -/
theorem Sound.setDma (h : l.Sound line) (owner : τ) (t : Transfer) :
    ∃ line', (l.setDma owner t).2.Sound line' :=
  h.queue _ 1 0 0 (fun p hp => by rw [← Option.some.inj hp]; rfl)
    fun p hp => by rw [← Option.some.inj hp]; rfl

/-- What was sent and is no longer to be moved has landed. -/
theorem Sound.landed_of_sent (h : l.Sound line) {p : Parcel τ} (hsent : p ∈ l.sent)
    (hnot : some p ∉ l.undelivered) : ∃ before after, l.arrived = before ++ p.quads ++ after := by
  obtain ⟨done, before, hlanded, hall, harrived⟩ := h.landed
  rw [hall, List.mem_append] at hsent
  have hdone : p ∈ done :=
    hsent.resolve_right fun hwaits => hnot (List.reduceOption_mem_iff.mp hwaits)
  obtain ⟨first, rest, rfl⟩ := hlanded.exists_of_mem hdone
  exact ⟨first, rest ++ l.halfway, by rw [harrived, List.append_assoc]⟩

end Link

end PS2Bios.Sif
