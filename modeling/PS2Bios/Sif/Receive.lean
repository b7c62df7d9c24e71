import PS2Bios.Sif.Link

/-!
# What the EE's channel receives

The EE's channel takes what the link moves as long as it has been started, and stops behind a block
whose tag says so. Which run the next quadword is from is what `ahead` tells: the runs the sending
channel is not done with, each with the parcel it is, if it is one.
-/

namespace PS2Bios.Sif

variable {τ : Type*}

/-! ### The runs ahead -/

namespace Link

/-- The runs that have yet to land whole, the one the channel is on first. -/
def ahead (l : Link τ) : List (Run × Option (Parcel τ)) :=
  if l.sifman.channel.isFinished then (l.sifman.runs.zip l.carried).tail
  else l.sifman.runs.zip l.carried

variable {l l' : Link τ} {line : Line.State Run}

theorem Sound.ahead_eq (h : l.Sound line) :
    l.ahead = if line.finished then (line.waiting.zip l.carried).tail
      else line.waiting.zip l.carried := by
  unfold ahead
  rw [h.holds.isFinished, h.holds.runs]

/-- What is ahead is what has not been delivered. -/
theorem Sound.ahead_snd (h : l.Sound line) : l.ahead.map Prod.snd = l.undelivered := by
  have hzip : (line.waiting.zip l.carried).map Prod.snd = l.carried :=
    List.map_snd_zip h.carried.length_eq.ge
  rw [h.ahead_eq, h.undelivered_eq]
  split
  · rw [List.map_tail, hzip]
  · exact hzip

/-- The run the channel is on is the first ahead. -/
theorem Sound.ahead_running (h : l.Sound line) {slot : ℕ}
    (hslot : l.sifman.channel = .running slot) :
    ∃ x rest, l.ahead = ((l.sifman.sendQueue slot).run, x) :: rest ∧
      IsParcel (l.sifman.sendQueue slot).run x ∧ l.first = x := by
  obtain ⟨job, rest, x, xs, rfl, hx, hundelivered, hjob, hparcel⟩ := h.running hslot
  refine ⟨x, rest.zip xs, ?_, hjob ▸ hparcel, ?_⟩
  · rw [h.ahead_eq, hx, hjob]
    rfl
  · unfold Link.first
    rw [hundelivered]
    rfl

/-- A run that is accepted goes behind what is ahead. -/
theorem Sound.ahead_queue (h : l.Sound line) (list : ℕ → Transfer) {count : UInt32}
    (function arg : UInt32) (parcel : Option (Parcel τ))
    (haccepted : ¬(count = 0 ∨ kTransfersMax < count ∨ l.sifman.sendQueued = kSendGroups)) :
    (l.queue list count function arg parcel).2.ahead =
      l.ahead ++ [(Run.asked list count function arg, parcel)] := by
  have hholds := h.holds.accepted list function arg haccepted
  have hanswer : (l.sifman.queueTransfers list count function arg).answer = 1 := by
    rw [queueTransfers_accepted haccepted]
    dsimp only
    split <;> rfl
  have hzip : (line.waiting ++ [Run.asked list count function arg]).zip (l.carried ++ [parcel]) =
      line.waiting.zip l.carried ++ [(Run.asked list count function arg, parcel)] :=
    List.zip_append h.carried.length_eq
  unfold Link.queue ahead
  dsimp only
  rw [if_pos hanswer, hholds.isFinished, h.holds.isFinished, hholds.runs, h.holds.runs, hzip]
  cases hfinished : line.finished with
  | false => rfl
  | true =>
    have hne : line.waiting.zip l.carried ≠ [] := by
      rw [Ne, List.zip_eq_nil_iff, h.carried_eq_nil_iff, or_self]
      exact h.holds.finished hfinished
    exact List.tail_append_of_ne_nil hne

/-- Moving a quadword does not touch the ring. -/
theorem sifman_move (hmove : l.move = some l') : l'.sifman = l.sifman := by
  unfold Link.move at hmove
  split at hmove
  · dsimp only at hmove
    split at hmove
    · obtain rfl := Option.some.inj hmove
      rfl
    · cases hmove
  · cases hmove

/-- Moving a quadword delivers nothing. -/
theorem ahead_move (hmove : l.move = some l') : l'.ahead = l.ahead := by
  unfold Link.move at hmove
  split at hmove
  · dsimp only at hmove
    split at hmove
    · obtain rfl := Option.some.inj hmove
      rfl
    · cases hmove
  · cases hmove

/-- The interrupt delivers nothing. -/
theorem Sound.ahead_interrupt (h : l.Sound line) (hinterrupt : l.interrupt = some l') :
    l'.ahead = l.ahead := by
  unfold Link.interrupt at hinterrupt
  split at hinterrupt
  next slot hslot =>
    obtain rfl := Option.some.inj hinterrupt
    obtain ⟨-, job, rest, rfl, -⟩ := h.holds.done hslot
    have hholds := h.holds.popped hslot
    rw [h.ahead_eq]
    unfold ahead
    rw [hholds.isFinished, hholds.runs]
    cases hc : l.carried with
    | nil => exact absurd (h.carried_eq_nil_iff.mp hc) (List.cons_ne_nil _ _)
    | cons x xs => rfl
  next => cases hinterrupt

/-- The block the channel is on. -/
def block? (l : Link τ) : Option SendBlock :=
  match l.sifman.channel with
  | .running slot => some ((l.sifman.sendQueue slot).blocks l.block)
  | _ => none

/-- The last block of a group is that of its run. -/
theorem getLast?_run {group : SendGroup} (hcount : group.count.toNat ≠ 0) :
    group.run.blocks.getLast? = some (group.blocks (group.count.toNat - 1)) := by
  obtain ⟨n, hn⟩ := Nat.exists_eq_succ_of_ne_zero hcount
  show ((List.range group.count.toNat).map group.blocks).getLast? = _
  rw [hn, List.range_succ, List.map_append, List.map_singleton, List.getLast?_concat]
  rfl

/-- A run that is ahead has a block, and its last block says so. -/
def Ended (l : Link τ) : Prop :=
  ∀ x ∈ l.ahead, ∃ block, x.1.blocks.getLast? = some block ∧ block.address &&& kTagEnd ≠ 0

/-- The channel starts on the first block of a run. -/
theorem Ended.within (he : l.Ended) (h : l.Sound line) (hblock : l.block = 0) {slot : ℕ}
    (hslot : l.sifman.channel = .running slot) :
    l.block < (l.sifman.sendQueue slot).count.toNat := by
  obtain ⟨x, rest, hahead, -⟩ := h.ahead_running hslot
  obtain ⟨block, hlast, -⟩ := he _ (by rw [hahead]; exact .head _)
  refine hblock ▸ Nat.pos_of_ne_zero fun hzero => ?_
  have hnil : (l.sifman.sendQueue slot).run.blocks = [] := by
    show (List.range _).map _ = []
    rw [hzero]
    rfl
  rw [hnil] at hlast
  cases hlast

/-- Every run that is queued ends with a block that says so, and the channel is on one of the blocks
of its run. -/
structure Framed (l : Link τ) : Prop where
  ended : l.Ended
  within : ∀ slot, l.sifman.channel = .running slot →
    l.block < (l.sifman.sendQueue slot).count.toNat

theorem framed_start (memory : UInt32 → UInt8) : (start memory : Link τ).Framed :=
  ⟨nofun, nofun⟩

/-- The last block of a run that is handed over ends it. -/
theorem asked_ends (list : ℕ → Transfer) {count : UInt32} (function arg : UInt32)
    (hcount : count ≠ 0) : ∃ block, (Run.asked list count function arg).blocks.getLast? =
      some block ∧ block.address &&& kTagEnd ≠ 0 := by
  have hne : count.toNat ≠ 0 := fun hzero => hcount (UInt32.toNat_inj.mp hzero)
  obtain ⟨n, hn⟩ := Nat.exists_eq_succ_of_ne_zero hne
  refine ⟨Sifman.describeRun list count n, ?_, ?_⟩
  · show ((List.range count.toNat).map _).getLast? = _
    rw [hn, List.range_succ, List.map_append, List.map_singleton, List.getLast?_concat]
  · have hlast : decide (n + 1 = count.toNat) = true := decide_eq_true hn.symm
    unfold Sifman.describeRun describe
    rw [hlast]
    exact block_address_ends (list n)

/-- A run that is accepted stops the other channel at its own end only. -/
theorem Framed.queue (hf : l.Framed) (h : l.Sound line) (list : ℕ → Transfer)
    (count function arg : UInt32) {parcel : Option (Parcel τ)}
    (hq : ∃ line', (l.queue list count function arg parcel).2.Sound line') :
    (l.queue list count function arg parcel).2.Framed := by
  by_cases hrefused : count = 0 ∨ kTransfersMax < count ∨ l.sifman.sendQueued = kSendGroups
  · unfold Link.queue
    rw [queueTransfers_refused hrefused]
    exact hf
  have hended : (l.queue list count function arg parcel).2.Ended := by
    unfold Ended
    rw [h.ahead_queue list function arg parcel hrefused]
    intro x hx
    rcases List.mem_append.mp hx with hold | hnew
    · exact hf.ended x hold
    · obtain rfl := List.mem_singleton.mp hnew
      exact asked_ends list function arg fun hzero => hrefused (.inl hzero)
  refine ⟨hended, fun slot hslot => ?_⟩
  rcases h.holds.accepted_channel list function arg hrefused with
    ⟨hidle, -⟩ | ⟨-, hchannel, hsame⟩
  · obtain ⟨line', hline'⟩ := hq
    refine hended.within hline' (h.stopped fun other hother => ?_).1 hslot
    rw [hidle] at hother
    cases hother
  · have hold : l.sifman.channel = .running slot := hchannel ▸ hslot
    have hgroup := hsame slot (by rw [hold]; rfl)
    show l.block < ((l.sifman.queueTransfers list count function arg).state.sendQueue
      slot).count.toNat
    rw [hgroup]
    exact hf.within slot hold

/-- The block the channel is on, when the run it is on is a parcel. -/
theorem Sound.block_of_first (h : l.Sound line) {slot : ℕ}
    (hslot : l.sifman.channel = .running slot) (p : Parcel τ) (hp : l.first = some p) :
    (l.sifman.sendQueue slot).blocks l.block = p.transfer.block := by
  obtain ⟨x, rest, -, hparcel, hfirst⟩ := h.ahead_running hslot
  have hzero : l.block = 0 := h.first (by rw [hp]; exact Option.some_ne_none p)
  rw [hzero, block_of_run (hparcel p (hfirst.symm.trans hp))]

/-- A quadword is moved: the next one of the first run ahead. -/
theorem Sound.move_cases (h : l.Sound line) (hf : l.Framed) (hmove : l.move = some l') :
    l'.Framed ∧ l'.ahead = l.ahead ∧ l'.moved = l.moved + 1 ∧ l'.sent = l.sent ∧
      l'.memory = l.memory ∧ ∃ run x rest block, l.ahead = (run, x) :: rest ∧ l.first = x ∧
        l.block? = some block ∧ block ∈ run.blocks ∧ l.moved < block.quads ∧
        ∀ p, x = some p → block = p.transfer.block := by
  have hahead := ahead_move hmove
  unfold Link.move at hmove
  split at hmove
  next slot hslot =>
    obtain ⟨x, rest, hfirsts, -, hfirst⟩ := h.ahead_running hslot
    have hmem : (l.sifman.sendQueue slot).blocks l.block ∈ (l.sifman.sendQueue slot).run.blocks :=
      List.mem_map.mpr ⟨l.block, List.mem_range.mpr (hf.within slot hslot), rfl⟩
    have hblock : l.block? = some ((l.sifman.sendQueue slot).blocks l.block) := by
      unfold block?
      rw [hslot]
    dsimp only at hmove
    split at hmove
    next hlt =>
      obtain rfl := Option.some.inj hmove
      exact ⟨⟨hf.ended, hf.within⟩, rfl, rfl, rfl, rfl, _, x, rest, _, hfirsts, hfirst, hblock,
        hmem, hlt, fun p hp => h.block_of_first hslot p (hfirst.trans hp)⟩
    next => cases hmove
  next => cases hmove

/-- What is done with a block: the next one, or the next run. -/
theorem Sound.deliver_cases (h : l.Sound line) (hf : l.Framed) (hdeliver : l.deliver = some l') :
    l'.Framed ∧ l'.moved = 0 ∧ l'.sent = l.sent ∧ l'.memory = l.memory ∧
      ∃ run x rest block, l.ahead = (run, x) :: rest ∧ l.first = x ∧ l.block? = some block ∧
        block ∈ run.blocks ∧ l.moved = block.quads ∧
        (∀ p, x = some p → block = p.transfer.block) ∧
        (l'.ahead = rest ∨ l'.ahead = l.ahead ∧ x = none) := by
  unfold Link.deliver at hdeliver
  split at hdeliver
  next slot hslot =>
    obtain ⟨x, rest, hahead, hparcel, hfirst⟩ := h.ahead_running hslot
    have hwithin := hf.within slot hslot
    have hblock : l.block? = some ((l.sifman.sendQueue slot).blocks l.block) := by
      unfold block?
      rw [hslot]
    have hmem : (l.sifman.sendQueue slot).blocks l.block ∈ (l.sifman.sendQueue slot).run.blocks :=
      List.mem_map.mpr ⟨l.block, List.mem_range.mpr hwithin, rfl⟩
    have hof := h.block_of_first hslot
    dsimp only at hdeliver
    split at hdeliver
    next hmoved =>
      split at hdeliver
      next hlast =>
        obtain rfl := Option.some.inj hdeliver
        have hrest : ahead { l with
            sifman := { l.sifman with channel := .finished slot }, block := 0, moved := 0 } =
              rest := by
          have htail : l.ahead.tail = rest := by rw [hahead, List.tail_cons]
          rw [← htail]
          unfold ahead
          rw [hslot]
          rfl
        refine ⟨⟨fun y hy => hf.ended y ?_, nofun⟩, rfl, rfl, rfl, _, x, rest, _, hahead, hfirst,
          hblock, hmem, hmoved, fun p hp => hof p (hfirst.trans hp), .inl hrest⟩
        rw [hrest] at hy
        rw [hahead]
        exact .tail _ hy
      next hlast =>
        obtain rfl := Option.some.inj hdeliver
        refine ⟨⟨hf.ended, fun other hother => ?_⟩, rfl, rfl, rfl, _, x, rest, _, hahead, hfirst,
          hblock, hmem, hmoved, fun p hp => hof p (hfirst.trans hp), .inr ⟨rfl, ?_⟩⟩
        · obtain rfl : slot = other := Channel.running.inj (hslot.symm.trans hother)
          -- the last block of a run would have ended it
          obtain ⟨last, hget, hends⟩ := hf.ended _ (by rw [hahead]; exact .head _)
          have hpos : (l.sifman.sendQueue slot).count.toNat ≠ 0 := by omega
          rw [getLast?_run hpos] at hget
          obtain rfl := Option.some.inj hget
          show l.block + 1 < (l.sifman.sendQueue slot).count.toNat
          have hne : l.block ≠ (l.sifman.sendQueue slot).count.toNat - 1 := by
            intro heq
            rw [heq] at hlast
            exact hlast hends
          omega
        · by_contra hne
          obtain ⟨p, rfl⟩ := Option.ne_none_iff_exists'.mp hne
          have hzero : l.block = 0 := h.first (by rw [hfirst]; exact hne)
          rw [hzero, block_of_run (hparcel p rfl)] at hlast
          exact hlast (block_address_ends p.transfer)
    next => cases hdeliver
  next => cases hdeliver

/-- The interrupt leaves every run stopping at its own end. -/
theorem Framed.interrupt (hf : l.Framed) (h : l.Sound line) (hinterrupt : l.interrupt = some l') :
    l'.Framed := by
  have hended : l'.Ended := by
    unfold Ended
    rw [h.ahead_interrupt hinterrupt]
    exact hf.ended
  obtain ⟨line', hline'⟩ := h.interrupt hinterrupt
  refine ⟨hended, fun slot hslot => hended.within hline' ?_ hslot⟩
  unfold Link.interrupt at hinterrupt
  split at hinterrupt
  next other hother =>
    obtain rfl := Option.some.inj hinterrupt
    exact (h.stopped fun running hrunning => by rw [hother] at hrunning; cases hrunning).1
  next => cases hinterrupt

/-- While anything is ahead, the channel is on a run, or its interrupt is still to be served. -/
theorem Sound.channel_of_ahead (h : l.Sound line) (hne : l.ahead ≠ []) :
    (∃ slot, l.sifman.channel = .running slot) ∨ ∃ slot, l.sifman.channel = .finished slot := by
  cases hchannel : l.sifman.channel with
  | running slot => exact .inl ⟨slot, rfl⟩
  | finished slot => exact .inr ⟨slot, rfl⟩
  | idle =>
    have hcarried := h.carried_eq_nil_iff.mpr (h.holds.idle_iff.mp hchannel)
    have hundelivered : l.undelivered = [] := by
      rw [undelivered, hcarried, List.tail_nil, ite_self]
    rw [← h.ahead_snd, List.map_eq_nil_iff] at hundelivered
    exact absurd hundelivered hne

/-- Once the interrupt is served, the channel is on the next run. -/
theorem Sound.running_of_interrupt (h : l.Sound line) (hne : l.ahead ≠ []) {slot : ℕ}
    (hslot : l.sifman.channel = .finished slot) :
    ∃ l' slot', l.interrupt = some l' ∧ l'.sifman.channel = .running slot' := by
  obtain ⟨l', hl'⟩ : ∃ l', l.interrupt = some l' := by
    unfold Link.interrupt
    rw [hslot]
    exact ⟨_, rfl⟩
  obtain ⟨line', hline'⟩ := h.interrupt hl'
  have hahead : l'.ahead ≠ [] := by rwa [h.ahead_interrupt hl']
  refine (hline'.channel_of_ahead hahead).elim (fun ⟨slot', hslot'⟩ => ⟨l', slot', hl', hslot'⟩) ?_
  rintro ⟨slot', hslot'⟩
  -- the interrupt has left the channel idle, or on a run
  have hpopped := h.holds.popped hslot
  have hsifman : l'.sifman = (Sifman.sendFinished { l.sifman with channel := .idle }).state := by
    unfold Link.interrupt at hl'
    rw [hslot] at hl'
    obtain rfl := Option.some.inj hl'
    rfl
  rw [← hsifman] at hpopped
  obtain ⟨-, job, rest, heq, -⟩ := hpopped.done hslot'
  exact nomatch congrArg Line.State.finished heq

/-- A ring with nothing ahead has room. -/
theorem Sound.room_of_ahead (h : l.Sound line) (hnil : l.ahead = []) :
    l.sifman.sendQueued ≠ kSendGroups := by
  have hgroups : kSendGroups = 32 := rfl
  have hlength := h.carried.length_eq
  have hundelivered : l.undelivered = [] := by
    rw [← h.ahead_snd, hnil, List.map_nil]
  have hcarried : l.carried.length ≤ 1 := by
    unfold undelivered at hundelivered
    split at hundelivered
    · have htail := congrArg List.length hundelivered
      rw [List.length_tail, List.length_nil] at htail
      omega
    · rw [hundelivered]
      exact Nat.zero_le 1
  rw [← h.holds.length, hlength]
  omega

end Link

/-! ### Bytes that land one quadword after another -/

section Bytes

variable {memory : UInt32 → UInt8} {address : UInt32} {bytes bytes' : List UInt8}

@[simp]
theorem put_nil : put memory address [] = memory := by
  funext a
  exact if_neg (Nat.not_lt_zero _)

/-- A byte that was put, and one that was not. -/
theorem put_add {k : ℕ} {x : UInt8} (hk : bytes[k]? = some x) (hlen : bytes.length ≤ 2 ^ 32) :
    put memory address bytes (address + UInt32.ofNat k) = x := by
  have hlt : k < bytes.length := (List.getElem?_eq_some_iff.mp hk).1
  have hdist : (address + UInt32.ofNat k - address).toNat = k := by
    have hsize : k < UInt32.size := show k < 2 ^ 32 by omega
    rw [UInt32.add_comm, UInt32.add_sub_cancel, UInt32.toNat_ofNat_of_lt' hsize]
  unfold put
  rw [hdist, if_pos hlt, List.getD_eq_getElem?_getD, hk]
  rfl

theorem put_of_apart {a : UInt32} (h : ∀ k < bytes.length, a ≠ address + UInt32.ofNat k) :
    put memory address bytes a = memory a := by
  refine if_neg fun hlt => h _ hlt ?_
  rw [UInt32.ofNat_toNat, UInt32.add_comm, UInt32.sub_add_cancel]

theorem put_congr {memory' : UInt32 → UInt8} {a : UInt32} (h : memory a = memory' a) :
    put memory address bytes a = put memory' address bytes a := by
  unfold put
  rw [h]

/-- The distance from an address further on. -/
theorem toNat_sub_add (a b : UInt32) (n : ℕ) :
    (a - (b + UInt32.ofNat n)).toNat = (2 ^ 32 - n % 2 ^ 32 + (a - b).toNat) % 2 ^ 32 := by
  have heq : a - (b + UInt32.ofNat n) = a - b - UInt32.ofNat n := by
    rw [UInt32.sub_eq_add_neg, UInt32.neg_add, UInt32.sub_eq_add_neg, UInt32.sub_eq_add_neg,
      UInt32.sub_eq_add_neg, UInt32.add_assoc]
  rw [heq, UInt32.toNat_sub, UInt32.toNat_ofNat']

/-- What is read at one distance from an address when bytes were put at another. -/
theorem put_add_eq {i k : ℕ} (hi : i + bytes.length ≤ 2 ^ 32) (hk : k < 2 ^ 32) :
    put memory (address + UInt32.ofNat i) bytes (address + UInt32.ofNat k) =
      if i ≤ k ∧ k < i + bytes.length then bytes.getD (k - i) 0
      else memory (address + UInt32.ofNat k) := by
  have hsum : (address + UInt32.ofNat k - address).toNat = k := by
    rw [UInt32.add_comm, UInt32.add_sub_cancel, UInt32.toNat_ofNat_of_lt' (show k < 2 ^ 32 from hk)]
  have hdist := toNat_sub_add (address + UInt32.ofNat k) address i
  rw [hsum] at hdist
  unfold put
  rw [hdist]
  by_cases hin : i ≤ k ∧ k < i + bytes.length
  · have hoff : (2 ^ 32 - i % 2 ^ 32 + k) % 2 ^ 32 = k - i := by omega
    rw [hoff, if_pos (by omega), if_pos hin]
  · rw [if_neg (by omega), if_neg hin]

theorem put_eq {k : ℕ} (hlen : bytes.length ≤ 2 ^ 32) (hk : k < 2 ^ 32) :
    put memory address bytes (address + UInt32.ofNat k) =
      if k < bytes.length then bytes.getD k 0 else memory (address + UInt32.ofNat k) := by
  have h := @put_add_eq memory address bytes 0 k (by omega) hk
  simpa using h

/-- The same by the addresses' numbers. -/
theorem put_toNat_eq {a : UInt32} (hlen : address.toNat + bytes.length ≤ 2 ^ 32) :
    put memory address bytes a =
      if address.toNat ≤ a.toNat ∧ a.toNat < address.toNat + bytes.length then
        bytes.getD (a.toNat - address.toNat) 0
      else memory a := by
  have h := @put_add_eq memory 0 bytes address.toNat a.toNat hlen a.toNat_lt
  simpa using h

/-- Bytes put behind others. -/
theorem put_put (h : bytes.length + bytes'.length ≤ 2 ^ 32) :
    put (put memory address bytes) (address + UInt32.ofNat bytes.length) bytes' =
      put memory address (bytes ++ bytes') := by
  funext a
  have hlt := (a - address).toNat_lt
  have hdist := toNat_sub_add a address bytes.length
  unfold put
  rw [hdist, List.length_append]
  rcases Nat.lt_or_ge (a - address).toNat bytes.length with hin | hout
  · rw [if_neg (by omega), if_pos hin, if_pos (by omega), List.getD_eq_getElem?_getD,
      List.getD_eq_getElem?_getD, List.getElem?_append_left hin]
  · have hoff : (2 ^ 32 - bytes.length % 2 ^ 32 + (a - address).toNat) % 2 ^ 32 =
        (a - address).toNat - bytes.length := by omega
    rw [hoff]
    by_cases hmore : (a - address).toNat - bytes.length < bytes'.length
    · rw [if_pos hmore, if_pos (by omega), List.getD_eq_getElem?_getD,
        List.getD_eq_getElem?_getD, List.getElem?_append_right hout]
    · rw [if_neg hmore, if_neg (by omega), if_neg (by omega)]

/-- What a transfer's quadwords hold, one after another. -/
def bytesOf (quads : List Quad) : List UInt8 := quads.flatMap Quad.bytes

/-- The bytes of a block. -/
theorem bytesOf_quadsOf (memory : UInt32 → UInt8) (block : SendBlock) (n : ℕ) :
    bytesOf ((List.range n).map (quadAt memory block)) =
      (List.range (16 * n)).map fun j => memory (Bus.source block + UInt32.ofNat j) := by
  unfold bytesOf
  induction n with
  | zero => rfl
  | succ n ih =>
    rw [List.range_succ, List.map_append, List.flatMap_append, ih, Nat.mul_succ, List.range_add,
      List.map_append, List.map_map]
    simp only [List.map_singleton, List.flatMap_singleton, quadAt]
    rfl

/-- A quadword lands behind those of its block that have. -/
theorem put_quadAt {source : UInt32 → UInt8} {block : SendBlock} {n : ℕ}
    (hn : 16 * (n + 1) ≤ 2 ^ 32) :
    let q := quadAt source block n
    put (put memory block.destination (bytesOf ((List.range n).map (quadAt source block))))
        q.address q.bytes =
      put memory block.destination
        (bytesOf ((List.range (n + 1)).map (quadAt source block))) := by
  have hlen : (bytesOf ((List.range n).map (quadAt source block))).length = 16 * n := by
    rw [bytesOf_quadsOf, List.length_map, List.length_range]
  have hquad : (quadAt source block n).bytes.length = 16 := by
    show ((List.range 16).map _).length = 16
    rw [List.length_map, List.length_range]
  have hsucc : bytesOf ((List.range (n + 1)).map (quadAt source block)) =
      bytesOf ((List.range n).map (quadAt source block)) ++ (quadAt source block n).bytes := by
    unfold bytesOf
    rw [List.range_succ, List.map_append, List.flatMap_append, List.map_singleton,
      List.flatMap_singleton]
  rw [hsucc]
  generalize bytesOf ((List.range n).map (quadAt source block)) = landed at hlen ⊢
  have hput : put (put memory block.destination landed)
      (block.destination + UInt32.ofNat landed.length) (quadAt source block n).bytes =
        put memory block.destination (landed ++ (quadAt source block n).bytes) :=
    put_put (by omega)
  rw [hlen] at hput
  exact hput

end Bytes

/-! ### The receiving channel -/

/-- The other end: the channel that the quadwords come by, and its memory. -/
structure Receiver (τ : Type*) where
  link : Link τ
  /-- EE memory. -/
  ee : UInt32 → UInt8
  /-- The channel has been started, and has not stopped since. -/
  armed : Bool

namespace Receiver

/-- Nothing moves unless both channels run. -/
def move (s : Receiver τ) : Option (Receiver τ) :=
  match s.armed, s.link.block?, s.link.move with
  | true, some block, some l =>
    let q := quadAt s.link.memory block s.link.moved
    some { s with link := l, ee := put s.ee q.address q.bytes }
  | _, _, _ => none

/-- A block has landed whole. -/
def deliver (s : Receiver τ) : Option (Receiver τ) :=
  match s.armed, s.link.block?, s.link.deliver with
  | true, some block, some l => some { s with link := l, armed := block.tag &&& kTagEnd = 0 }
  | _, _, _ => none

variable {s t : Receiver τ} {line : Line.State Run}

/-- Moving a quadword does not touch the channel. -/
theorem channel_move (hmove : s.move = some t) :
    t.link.sifman.channel = s.link.sifman.channel := by
  unfold Receiver.move at hmove
  split at hmove
  next l _ _ hl =>
    obtain rfl := Option.some.inj hmove
    exact congrArg Sifman.channel (Link.sifman_move hl)
  next => cases hmove

/-- A channel on a parcel moves it, or is done with it. -/
theorem exists_next (h : s.link.Sound line) (harmed : s.armed = true) {slot : ℕ}
    (hslot : s.link.sifman.channel = .running slot) {p : Parcel τ} (hfirst : s.link.first = some p)
    (hmoved : s.link.moved ≤ p.transfer.block.quads) :
    if s.link.moved < p.transfer.block.quads then ∃ t, s.move = some t
    else ∃ t, s.deliver = some t := by
  have hof := h.block_of_first hslot p hfirst
  have hblock : s.link.block? = some p.transfer.block := by
    rw [← hof, Link.block?, hslot]
  split
  next hlt =>
    obtain ⟨l, hl⟩ : ∃ l, s.link.move = some l := by
      unfold Link.move
      rw [hslot]
      exact ⟨_, if_pos (by rwa [hof])⟩
    rw [Receiver.move, harmed, hblock, hl]
    exact ⟨_, rfl⟩
  next hge =>
    obtain ⟨l, hl⟩ : ∃ l, s.link.deliver = some l := by
      have heq : s.link.moved = ((s.link.sifman.sendQueue slot).blocks s.link.block).quads := by
        rw [hof]
        omega
      unfold Link.deliver
      rw [hslot]
      dsimp only
      rw [if_pos heq]
      split <;> exact ⟨_, rfl⟩
    rw [Receiver.deliver, harmed, hblock, hl]
    exact ⟨_, rfl⟩

/-- A quadword lands: the next one of the first run ahead. -/
theorem move_cases (h : s.link.Sound line) (hf : s.link.Framed) (hmove : s.move = some t) :
    (s.armed = true ∧ t.armed = true) ∧ t.link.Sound line ∧ t.link.Framed ∧
      t.link.ahead = s.link.ahead ∧ t.link.moved = s.link.moved + 1 ∧ t.link.sent = s.link.sent ∧
      t.link.memory = s.link.memory ∧ ∃ run x rest block, s.link.ahead = (run, x) :: rest ∧
        block ∈ run.blocks ∧ s.link.moved < block.quads ∧
        (∀ p, x = some p → block = p.transfer.block) ∧
        t.ee = put s.ee (quadAt s.link.memory block s.link.moved).address
          (quadAt s.link.memory block s.link.moved).bytes := by
  unfold Receiver.move at hmove
  split at hmove
  next block l harmed hblock hl =>
    obtain rfl := Option.some.inj hmove
    obtain ⟨hframed, hahead, hmoved, hsent, hmemory, run, x, rest, block', hfirst, -, hblock',
      hmem, hlt, hof⟩ := h.move_cases hf hl
    obtain rfl := Option.some.inj (hblock.symm.trans hblock')
    exact ⟨⟨harmed, harmed⟩, h.move hl, hframed, hahead, hmoved, hsent, hmemory, run, x, rest,
      block, hfirst, hmem, hlt, hof, rfl⟩
  next => cases hmove

/-- A block has landed whole, and the channel goes on or stops. -/
theorem deliver_cases (h : s.link.Sound line) (hf : s.link.Framed) (hdeliver : s.deliver = some t) :
    s.armed = true ∧ (∃ line', t.link.Sound line') ∧ t.link.Framed ∧ t.link.moved = 0 ∧
      t.link.sent = s.link.sent ∧ t.link.memory = s.link.memory ∧ t.ee = s.ee ∧
      ∃ run x rest block, s.link.ahead = (run, x) :: rest ∧ block ∈ run.blocks ∧
        s.link.moved = block.quads ∧ (∀ p, x = some p → block = p.transfer.block) ∧
        t.armed = decide (block.tag &&& kTagEnd = 0) ∧
        (t.link.ahead = rest ∨ t.link.ahead = s.link.ahead ∧ x = none) := by
  unfold Receiver.deliver at hdeliver
  split at hdeliver
  next block l harmed hblock hl =>
    obtain rfl := Option.some.inj hdeliver
    obtain ⟨hframed, hmoved, hsent, hmemory, run, x, rest, block', hfirst, -, hblock', hmem, hquads,
      hof, hahead⟩ := h.deliver_cases hf hl
    obtain rfl := Option.some.inj (hblock.symm.trans hblock')
    exact ⟨harmed, h.deliver hl, hframed, hmoved, hsent, hmemory, rfl, run, x, rest, block, hfirst,
      hmem, hquads, hof, rfl, hahead⟩
  next => cases hdeliver

end Receiver

end PS2Bios.Sif
