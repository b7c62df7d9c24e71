import PS2Bios.Sif.Sifcmd
import Mathlib.Data.List.Forall2

/-!
# One buffer for every packet

`outgoing` is in use from the first word stored into it until the channel has read the packet:
by a thread that is storing one or has yet to hand it over, and by a run that waits or is being
read (`Bus.InUse`). Nothing in SIFCMD looks at that before it stores the next packet, so that one
can overwrite another (`packet_overwritten`). When no packet is begun while the buffer is in use
(`Bus.Undisturbed`), every packet arrives as it was filled in (`packets_arrive`).
-/

namespace PS2Bios.Sif

/-! ### The words of the buffer -/

/-- The words of the buffer are at different addresses. -/
theorem Layout.word_inj (L : Layout) {i j : ℕ} (hi : i < 16) (hj : j < 16)
    (h : L.word i = L.word j) : i = j := by
  unfold Layout.word at h
  have hofNat := congrArg UInt32.toNat ((UInt32.add_right_inj L.outgoing).mp h)
  have hsize : UInt32.size = 2 ^ 32 := rfl
  rw [UInt32.toNat_ofNat_of_lt' (by omega), UInt32.toNat_ofNat_of_lt' (by omega)] at hofNat
  omega

/-- The first `n` words of a packet are in the buffer. -/
def Stored (L : Layout) (memory : Memory) (packet : List UInt32) (n : ℕ) : Prop :=
  ∀ i < n, ∀ word, packet[i]? = some word → memory (L.word i) = word

variable {L : Layout} {memory : Memory} {packet : List UInt32}

theorem stored_zero : Stored L memory packet 0 := nofun

/-- Storing the next word stores that much more of the packet. -/
theorem Stored.succ {n : ℕ} {word : UInt32} (h : Stored L memory packet n)
    (hword : packet[n]? = some word) (hn : n < 16) :
    Stored L (Function.update memory (L.word n) word) packet (n + 1) := by
  intro i hi w hw
  by_cases hin : i = n
  · subst hin
    rw [Function.update_self]
    exact Option.some.inj (hword.symm.trans hw)
  · rw [Function.update_of_ne fun heq => hin (L.word_inj (by omega) hn heq)]
    exact h i (by omega) w hw

/-- A store outside the buffer leaves what was stored. -/
theorem Stored.write {n : ℕ} {address value : UInt32} (h : Stored L memory packet n)
    (hlen : packet.length ≤ 16) (haddress : ∀ i ∈ List.range 16, address ≠ L.word i) :
    Stored L (Function.update memory address value) packet n := by
  intro i hi w hw
  have hlt : i < packet.length := (List.getElem?_eq_some_iff.mp hw).1
  rw [Function.update_of_ne (haddress i (List.mem_range.mpr (by omega))).symm]
  exact h i hi w hw

/-- Filling the buffer changes the memory and nothing else. -/
theorem storeAll_sifman (b : Bus) (i : ℕ) (words : List UInt32) :
    b.storeAll L i words = { b with memory := (b.storeAll L i words).memory } := by
  induction words generalizing b i with
  | nil => rfl
  | cons word words ih =>
    unfold Bus.storeAll
    rw [ih]
    rfl

/-- A packet stored at a stroke is in the buffer. -/
theorem stored_storeAll (b : Bus) (packet : List UInt32) (hlen : packet.length ≤ 16) :
    Stored L (b.storeAll L 0 packet).memory packet packet.length := by
  suffices hgen : ∀ (words done : List UInt32) (b : Bus), packet = done ++ words →
      Stored L b.memory packet done.length →
        Stored L (b.storeAll L done.length words).memory packet packet.length from
    hgen packet [] b rfl stored_zero
  intro words
  induction words with
  | nil =>
    intro done b heq hstored
    obtain rfl : packet = done := heq.trans (List.append_nil done)
    exact hstored
  | cons word words ih =>
    intro done b heq hstored
    have hword : packet[done.length]? = some word := by simp [heq]
    have hlt : done.length < 16 := by
      have := (List.getElem?_eq_some_iff.mp hword).1
      omega
    have hnext := ih (done ++ [word]) (b.store L done.length word) (by simp [heq])
    rw [List.length_append] at hnext
    exact hnext (hstored.succ hword hlt)

/-! ### Who uses the buffer -/

/-- The packet a thread has in the buffer, and how many words of it. -/
def Progress.inBuffer? : Progress → Option (List UInt32 × ℕ)
  | .elsewhere => none
  | .filling packet stored _ => if stored = 0 then none else some (packet, stored)
  | .described _ packet => packet.map fun packet => (packet, packet.length)

namespace Bus

/-- The packets that queued runs carry and the channel is not done with. -/
def undelivered (b : Bus) : List (Option (List UInt32)) :=
  if b.sifman.channel.isFinished then b.carried.tail else b.carried

/-- Something of the shared buffer is still wanted: a thread fills it, or it has not left. -/
def InUse (b : Bus) : Prop :=
  (∃ t, (b.thread t).inBuffer? ≠ none) ∨ ∃ packet, some packet ∈ b.undelivered

/-- The step does not begin a packet while the buffer is in use. -/
def Undisturbed (b : Bus) : BusEvent → Prop
  | .packet p => b.builds? p ≠ none → ¬b.InUse
  | .store t => ∀ packet data, b.thread t = .filling packet 0 data → ¬b.InUse
  | _ => True

end Bus

/-- A thread's packet fits the buffer, and its run ends with the packet. -/
def Progress.Sane (L : Layout) : Progress → Prop
  | .elsewhere => True
  | .filling packet _ _ => packet ≠ [] ∧ packet.length ≤ 16
  | .described _ none => True
  | .described run (some packet) => packet.length ≤ 16 ∧
      ∃ (data : Option Transfer) (destination : UInt32), run = data.toList ++
        [describeTransfer L.outgoing (UInt32.ofNat packet.length) destination true]

/-- A run that carries a packet takes it from the buffer, with its last block. -/
def Carries (L : Layout) (run : Run) (carried : Option (List UInt32)) : Prop :=
  ∀ packet, carried = some packet → packet.length ≤ 16 ∧
    ∃ block, run.blocks.getLast? = some block ∧ Bus.source block = L.outgoing ∧
      packet.length ≤ block.words.toNat

/-- The packets in the buffer are intact, wherever they have got to. -/
structure Intact (L : Layout) (b : Bus) (line : Line.State Run) : Prop where
  holds : Holds b.sifman line
  carries : List.Forall₂ (Carries L) line.waiting b.carried
  sane : ∀ t, (b.thread t).Sane L
  stored : ∀ t packet n, (b.thread t).inBuffer? = some (packet, n) → Stored L b.memory packet n
  posted : ∀ packet, some packet ∈ b.undelivered → Stored L b.memory packet packet.length
  one : ∀ t t', (b.thread t).inBuffer? ≠ none → (b.thread t').inBuffer? ≠ none → t = t'
  apart : ∀ t packet, (b.thread t).inBuffer? ≠ none → some packet ∉ b.undelivered
  /-- What the channel has read of a packet. -/
  read : ∀ slot packet, b.sifman.channel = .running slot →
    b.block + 1 = (b.sifman.sendQueue slot).count.toNat → b.carried.head? = some (some packet) →
      ∀ i < b.read.length, ∀ word, packet[i]? = some word → b.read[i]? = some word
  stopped : (∀ slot, b.sifman.channel ≠ .running slot) → b.read = []

/-- A log in which every packet has arrived as it was filled in. -/
def Arrived (log : List Delivery) : Prop :=
  ∀ d ∈ log, ∀ packet, d.packet = some packet → packet <+: d.words

section Steps

variable {b : Bus} {line : Line.State Run}

/-- Before the first packet everything is intact. -/
theorem intact_start (memory : Memory) : Intact L (Bus.start memory) Line.State.start where
  holds := holds_start
  carries := .nil
  sane _ := trivial
  stored := nofun
  posted := nofun
  one _ _ h := absurd rfl h
  apart _ _ h := absurd rfl h
  read := nofun
  stopped _ := rfl

/-- A write that leaves every packet in use alone. -/
theorem Intact.setMemory (h : Intact L b line) {memory : Memory}
    (hstored : ∀ t packet n, (b.thread t).inBuffer? = some (packet, n) →
      Stored L memory packet n)
    (hposted : ∀ packet, some packet ∈ b.undelivered → Stored L memory packet packet.length) :
    Intact L { b with memory := memory } line where
  holds := h.holds
  carries := h.carries
  sane := h.sane
  stored := hstored
  posted := hposted
  one := h.one
  apart := h.apart
  read := h.read
  stopped := h.stopped

/-- While the buffer is not in use it may be written. -/
theorem Intact.setMemory_of_not_inUse (h : Intact L b line) (hfree : ¬b.InUse)
    (memory : Memory) : Intact L { b with memory := memory } line := by
  refine h.setMemory (fun t packet n hin => ?_) fun packet hmem => ?_
  · exact absurd (.inl ⟨t, by rw [hin]; exact Option.some_ne_none _⟩) hfree
  · exact absurd (.inr ⟨packet, hmem⟩) hfree

@[simp]
theorem Bus.setThread_thread (t t' : ℕ) (progress : Progress) :
    (b.setThread t progress).thread t' = if t' = t then progress else b.thread t' :=
  Function.update_apply ..

/-- A thread goes on, with what it has in the buffer. -/
theorem Intact.setThread (h : Intact L b line) {t : ℕ} {p : Progress}
    (hsane : p.Sane L)
    (hstored : ∀ packet n, p.inBuffer? = some (packet, n) → Stored L b.memory packet n)
    (huse : p.inBuffer? ≠ none → (b.thread t).inBuffer? ≠ none ∨ ¬b.InUse) :
    Intact L (b.setThread t p) line := by
  have hof : ∀ t', ((b.setThread t p).thread t').inBuffer? ≠ none →
      (b.thread t').inBuffer? ≠ none ∨ (t' = t ∧ ¬b.InUse) := by
    intro t' ht'
    rw [Bus.setThread_thread] at ht'
    split at ht'
    · next heq =>
      subst heq
      exact (huse ht').imp_right fun hfree => ⟨rfl, hfree⟩
    · exact .inl ht'
  refine ⟨h.holds, h.carries, ?_, ?_, h.posted, ?_, ?_, h.read, h.stopped⟩
  · intro t'
    rw [Bus.setThread_thread]
    split
    · exact hsane
    · exact h.sane t'
  · intro t' packet n hin
    rw [Bus.setThread_thread] at hin
    split at hin
    · exact hstored packet n hin
    · exact h.stored t' packet n hin
  · intro t₁ t₂ h₁ h₂
    rcases hof t₁ h₁ with hold₁ | ⟨heq₁, hfree⟩
    · rcases hof t₂ h₂ with hold₂ | ⟨-, hfree⟩
      · exact h.one t₁ t₂ hold₁ hold₂
      · exact absurd (.inl ⟨t₁, hold₁⟩) hfree
    · rcases hof t₂ h₂ with hold₂ | ⟨heq₂, -⟩
      · exact absurd (.inl ⟨t₂, hold₂⟩) hfree
      · exact heq₁.trans heq₂.symm
  · intro t' packet ht' hmem
    rcases hof t' ht' with hold | ⟨-, hfree⟩
    · exact h.apart t' packet hold hmem
    · exact hfree (.inr ⟨packet, hmem⟩)

/-- A run is queued, with a packet that nobody has in the buffer any more. -/
theorem Intact.enqueue (h : Intact L b line) (list : ℕ → Transfer) (count function arg : UInt32)
    {carried : Option (List UInt32)}
    (hcarries : Carries L (Run.asked list count function arg) carried)
    (hstored : ∀ packet, carried = some packet → Stored L b.memory packet packet.length ∧
      ∀ t, (b.thread t).inBuffer? = none) :
    ∃ line', Intact L (b.enqueue list count function arg carried) line' := by
  unfold Bus.enqueue
  by_cases hrefused : count = 0 ∨ kTransfersMax < count ∨ b.sifman.sendQueued = kSendGroups
  · rw [queueTransfers_refused hrefused]
    exact ⟨line, h⟩
  have hholds := h.holds.accepted list function arg hrefused
  have hanswer : (b.sifman.queueTransfers list count function arg).answer = 1 := by
    rw [queueTransfers_accepted hrefused]
    dsimp only
    split <;> rfl
  -- a run that is queued is not yet read, so only what is still to be delivered grows
  have hlen : b.carried.length = line.waiting.length := h.carries.length_eq.symm
  dsimp only
  rw [if_pos hanswer]
  have hundelivered : ∀ packet, some packet ∈ (Bus.undelivered { b with
      sifman := (b.sifman.queueTransfers list count function arg).state
      carried := b.carried ++ [carried] }) →
      some packet ∈ b.undelivered ∨ carried = some packet := by
    intro packet hmem
    unfold Bus.undelivered at hmem ⊢
    rw [hholds.isFinished] at hmem
    rw [h.holds.isFinished]
    dsimp only at hmem
    cases hfin : line.finished with
    | false =>
      rw [hfin] at hmem
      simp only [Bool.false_eq_true, if_false, List.mem_append, List.mem_singleton] at hmem ⊢
      exact hmem.imp_right Eq.symm
    | true =>
      obtain ⟨x, xs, hx⟩ : ∃ x xs, b.carried = x :: xs := by
        refine List.exists_cons_of_ne_nil fun hnil => h.holds.finished hfin ?_
        rw [← List.length_eq_zero_iff, ← hlen, hnil]
        rfl
      rw [hfin, hx] at hmem
      rw [hx]
      simp only [if_true, List.cons_append, List.tail_cons, List.mem_append,
        List.mem_singleton] at hmem ⊢
      exact hmem.imp_right Eq.symm
  refine ⟨_, hholds, ?_, h.sane, h.stored, ?_, h.one, ?_, ?_, ?_⟩
  · exact List.rel_append h.carries (.cons hcarries .nil)
  · intro packet hmem
    rcases hundelivered packet hmem with hold | rfl
    · exact h.posted packet hold
    · exact (hstored packet rfl).1
  · intro t packet ht hmem
    rcases hundelivered packet hmem with hold | rfl
    · exact h.apart t packet ht hold
    · exact ht ((hstored packet rfl).2 t)
  -- where the channel is running it reads what it read before
  · intro slot packet hrunning hlast hhead i hi word hword
    rcases h.holds.accepted_channel list function arg hrefused with
      ⟨hidle, -⟩ | ⟨hbusy, hchannel, hsame⟩
    · have hread := h.stopped fun slot hslot => by rw [hidle] at hslot; cases hslot
      rw [hread] at hi
      exact absurd hi (Nat.not_lt_zero i)
    · have hold : b.sifman.channel = .running slot := hchannel ▸ hrunning
      refine h.read slot packet hold ?_ ?_ i hi word hword
      · rw [← hsame slot (by rw [hold]; rfl)]
        exact hlast
      · obtain ⟨x, xs, hx⟩ : ∃ x xs, b.carried = x :: xs := by
          refine List.exists_cons_of_ne_nil fun hnil => hbusy (h.holds.idle_iff.mpr ?_)
          rw [← List.length_eq_zero_iff, ← hlen, hnil]
          rfl
        rw [hx] at hhead ⊢
        exact hhead
  · intro hstopped
    rcases h.holds.accepted_channel list function arg hrefused with ⟨-, hrunning⟩ | ⟨-, hchannel, -⟩
    · exact absurd hrunning (hstopped _)
    · exact h.stopped fun slot hslot => hstopped slot (hchannel.trans hslot)

/-! ### Packets in transfers -/

/-- A packet is sent from the shared buffer. -/
theorem source_describe (words destination : UInt32) (ends : Bool) :
    Bus.source (describe L.outgoing words destination true ends) = L.outgoing := by
  have hor : (L.outgoing ||| kTagEnd) &&& 0x7FFFFFFF = L.outgoing &&& 0x7FFFFFFF := by
    apply UInt32.eq_of_toBitVec_eq
    rw [UInt32.toBitVec_and, UInt32.toBitVec_or, UInt32.toBitVec_and,
      BitVec.and_or_distrib_right]
    exact BitVec.or_zero
  exact hor.trans L.physical

/-- A block is padded to whole quadwords. -/
theorem length_le_words {n : ℕ} (hn : n ≤ 16) :
    n ≤ (quadwords ((UInt32.ofNat n * 4 + 3) / 4) * 4).toNat := by
  have hall : ∀ m ∈ List.range 17, m ≤ (quadwords ((UInt32.ofNat m * 4 + 3) / 4) * 4).toNat := by
    decide
  exact hall n (List.mem_range.mpr (by omega))

/-- A run that ends with a packet carries it. -/
theorem carries_run (data : Option Transfer) (destination : UInt32)
    (hlen : packet.length ≤ 16) :
    let run := data.toList ++
      [describeTransfer L.outgoing (UInt32.ofNat packet.length) destination true]
    Carries L (Run.asked (fun k => run.getD k ⟨0, 0, 0, 0⟩) (UInt32.ofNat run.length) 0 0)
      (some packet) := by
  rintro run packet ⟨⟩
  refine ⟨hlen, describe L.outgoing ((UInt32.ofNat packet.length * 4 + 3) / 4) destination true
    true, ?_, source_describe .., length_le_words hlen⟩
  have hattr : kAttrEndEe ≠ 0 := by decide
  cases data with
  | none => simp [run, Run.asked, Sifman.describeRun, describeTransfer, hattr]
  | some data => simp [run, Run.asked, Sifman.describeRun, describeTransfer, hattr, List.range_succ]

/-! ### One step -/

/-- Whoever is queued, it carries no packet. -/
theorem Intact.send (h : Intact L b line) (list : ℕ → Transfer) (count function arg : UInt32) :
    ∃ line', Intact L (b.enqueue list count function arg none) line' :=
  h.enqueue list count function arg nofun nofun

/-- A packet that the handler builds. -/
theorem Intact.sendPacket (h : Intact L b line) (hfree : ¬b.InUse) (hlen : packet.length ≤ 16) :
    ∃ line', Intact L (b.sendPacket L packet) line' := by
  unfold Bus.sendPacket
  split
  · exact ⟨line, h⟩
  have hwritten : Intact L (b.storeAll L 0 packet) line := by
    rw [storeAll_sifman]
    exact h.setMemory_of_not_inUse hfree _
  refine hwritten.enqueue _ _ _ _ (carries_run none _ hlen) ?_
  rintro _ ⟨⟩
  refine ⟨stored_storeAll b packet hlen, fun t => ?_⟩
  rw [storeAll_sifman]
  exact of_not_not fun hin => hfree (.inl ⟨t, hin⟩)

theorem Intact.setAddress (h : Intact L b line) (address : UInt32) :
    Intact L { b with eePacketBuffer := address } line :=
  ⟨h.holds, h.carries, h.sane, h.stored, h.posted, h.one, h.apart, h.read, h.stopped⟩

/-- A packet served leaves everything intact where the buffer is free, or is not filled. -/
theorem Intact.servePacket (h : Intact L b line) (p : Packet)
    (hfree : b.builds? p ≠ none → ¬b.InUse) : ∃ line', Intact L (b.servePacket L p) line' := by
  by_cases haddress : b.eePacketBuffer = 0
  · refine ⟨line, ?_⟩
    have hidle : ∀ packet, b.sendPacket L packet = b := fun packet => if_pos haddress
    unfold Bus.servePacket Bus.sendSetSreg Bus.serveBind
    simp only [hidle]
    split_ifs
    · exact h.setAddress _
    · exact h
    · exact h.setAddress _
    · exact h
    · exact h
  unfold Bus.builds? at hfree
  rw [if_neg haddress] at hfree
  unfold Bus.servePacket Bus.sendSetSreg Bus.serveBind
  split_ifs at hfree ⊢
  · exact ⟨line, h.setAddress _⟩
  · exact h.sendPacket (hfree (Option.some_ne_none _)) (by decide)
  · exact ⟨line, h.setAddress _⟩
  · exact h.sendPacket (hfree (Option.some_ne_none _)) (by simp [fillEnd])
  · exact ⟨line, h⟩

/-- A thread is about to send something. -/
theorem Intact.answerCall (h : Intact L b line) (t : ℕ) (a : Answer) :
    Intact L (b.answerCall t a) line := by
  unfold Bus.answerCall
  split_ifs
  · exact h
  · exact h.setThread (by simp [Progress.Sane, fillEnd]) nofun fun huse => absurd rfl huse
  · split
    · exact h.setThread trivial nofun fun huse => absurd rfl huse
    · exact h

/-- A thread stores a word: the first, with nobody else in the buffer, or another, being the one
in it. -/
theorem Intact.store (h : Intact L b line) {t stored : ℕ} {data : Option Transfer} {word : UInt32}
    (hthread : b.thread t = .filling packet stored data) (hword : packet[stored]? = some word)
    (hfree : stored = 0 → ¬b.InUse) :
    Intact L ((b.store L stored word).setThread t (.filling packet (stored + 1) data)) line := by
  have hsane : packet ≠ [] ∧ packet.length ≤ 16 := by
    have := h.sane t
    rw [hthread] at this
    exact this
  have hlt : stored < 16 := by
    have := (List.getElem?_eq_some_iff.mp hword).1
    omega
  have hold : Stored L b.memory packet stored := by
    rcases Nat.eq_zero_or_pos stored with rfl | hpos
    · exact stored_zero
    · refine h.stored t packet stored ?_
      rw [hthread]
      exact if_neg hpos.ne'
  have huse : stored ≠ 0 → (b.thread t).inBuffer? ≠ none := by
    intro hne
    rw [hthread, show (Progress.filling packet stored data).inBuffer? = some (packet, stored) from
      if_neg hne]
    exact Option.some_ne_none _
  -- the others that use the buffer are none, and this thread uses what it has stored
  have hgone : Intact L (b.setThread t .elsewhere) line :=
    h.setThread trivial nofun fun huse => absurd rfl huse
  have hnobody : ¬(b.setThread t .elsewhere).InUse := by
    rintro (⟨t', ht'⟩ | ⟨other, hmem⟩)
    · rw [Bus.setThread_thread] at ht'
      split at ht'
      · exact ht' rfl
      · next hne =>
        rcases Nat.eq_zero_or_pos stored with hzero | hpos
        · exact hfree hzero (.inl ⟨t', ht'⟩)
        · exact hne (h.one t' t ht' (huse hpos.ne'))
    · rcases Nat.eq_zero_or_pos stored with hzero | hpos
      · exact hfree hzero (.inr ⟨other, hmem⟩)
      · exact h.apart t other (huse hpos.ne') hmem
  have hwritten := hgone.setMemory_of_not_inUse hnobody
    (Function.update b.memory (L.word stored) word)
  have hnext := hwritten.setThread (t := t) (p := .filling packet (stored + 1) data) hsane
    (by rintro _ _ ⟨⟩; exact hold.succ hword hlt) fun _ => .inr hnobody
  have heq : (b.store L stored word).setThread t (.filling packet (stored + 1) data) =
      Bus.setThread { b.setThread t .elsewhere with
        memory := Function.update b.memory (L.word stored) word } t
        (.filling packet (stored + 1) data) := by
    unfold Bus.setThread Bus.store
    simp only [Function.update_idem]
  rw [heq]
  exact hnext

/-- A thread that has its packet stored describes its run. -/
theorem Intact.describe (h : Intact L b line) {t : ℕ} {data : Option Transfer}
    (hthread : b.thread t = .filling packet packet.length data) :
    Intact L (b.setThread t (.described (data.toList ++
      [describeTransfer L.outgoing (UInt32.ofNat packet.length) b.eePacketBuffer true])
      (some packet))) line := by
  obtain ⟨hne, hlen⟩ : packet ≠ [] ∧ packet.length ≤ 16 := by
    have := h.sane t
    rw [hthread] at this
    exact this
  have huse : (b.thread t).inBuffer? = some (packet, packet.length) := by
    rw [hthread]
    exact if_neg fun hzero => hne (List.length_eq_zero_iff.mp hzero)
  refine h.setThread ⟨hlen, data, _, rfl⟩ ?_ fun _ => .inl (by rw [huse]; exact nofun)
  rintro _ _ ⟨⟩
  exact h.stored t packet _ huse

/-- A thread hands its run over, and is out of the buffer. -/
theorem Intact.queue (h : Intact L b line) {t : ℕ} {run : List Transfer}
    {carried : Option (List UInt32)} (hthread : b.thread t = .described run carried) :
    ∃ line', Intact L ((b.setDma run carried).setThread t .elsewhere) line' := by
  have hgone : Intact L (b.setThread t .elsewhere) line :=
    h.setThread trivial nofun fun huse => absurd rfl huse
  cases carried with
  | none => exact hgone.send _ _ _ _
  | some packet =>
    have huse : (b.thread t).inBuffer? = some (packet, packet.length) := by
      rw [hthread]
      rfl
    have hsane := h.sane t
    rw [hthread] at hsane
    obtain ⟨hlen, data, destination, rfl⟩ := hsane
    refine hgone.enqueue _ _ _ _ (carries_run data destination hlen) ?_
    rintro _ ⟨⟩
    refine ⟨h.stored t packet _ huse, fun t' => ?_⟩
    rw [Bus.setThread_thread]
    split
    · rfl
    · next hne =>
      refine of_not_not fun hin => hne (h.one t' t hin ?_)
      rw [huse]
      exact nofun

theorem SendGroup.run_getLast? {g : SendGroup} {k : ℕ} (h : k + 1 = g.count.toNat) :
    g.run.blocks.getLast? = some (g.blocks k) := by
  unfold SendGroup.run
  rw [← h, List.range_succ]
  simp

/-- A packet that a run carries fits the buffer. -/
theorem length_le_of_carries {runs : List Run} {carried : List (Option (List UInt32))}
    (h : List.Forall₂ (Carries L) runs carried) (hmem : some packet ∈ carried) :
    packet.length ≤ 16 := by
  induction h with
  | nil => cases hmem
  | cons hcarries _ ih =>
    rcases List.mem_cons.mp hmem with heq | htail
    · exact (hcarries packet heq.symm).1
    · exact ih htail

/-- Whatever else is in memory may change. -/
theorem Intact.write (h : Intact L b line) {address value : UInt32}
    (haddress : ∀ i ∈ List.range 16, address ≠ L.word i) :
    Intact L { b with memory := Function.update b.memory address value } line := by
  refine h.setMemory (fun t packet n hin => ?_) fun packet hmem => ?_
  · have hlen : packet.length ≤ 16 := by
      have hsane := h.sane t
      unfold Progress.inBuffer? at hin
      cases hthread : b.thread t with
      | elsewhere => simp [hthread] at hin
      | filling packet' stored data =>
        simp only [hthread, ite_eq_iff, reduceCtorEq, and_false, Option.some.injEq, Prod.mk.injEq,
          false_or] at hin
        rw [hthread] at hsane
        exact hin.2.1 ▸ hsane.2
      | described run carried =>
        cases carried with
        | none => simp [hthread] at hin
        | some packet' =>
          simp only [hthread, Option.map_some, Option.some.injEq, Prod.mk.injEq] at hin
          rw [hthread] at hsane
          exact hin.1 ▸ hsane.1
    exact (h.stored t packet n hin).write hlen haddress
  · have hcarried : some packet ∈ b.carried := by
      unfold Bus.undelivered at hmem
      split at hmem
      · exact List.mem_of_mem_tail hmem
      · exact hmem
    exact (h.posted packet hmem).write (length_le_of_carries h.carries hcarried) haddress

/-- The block the channel is at, when it is to carry a packet, is in the buffer, and as long. -/
theorem Intact.current (h : Intact L b line) {slot : ℕ} (hslot : b.sifman.channel = .running slot)
    (hlast : b.block + 1 = (b.sifman.sendQueue slot).count.toNat)
    (hhead : b.carried.head? = some (some packet)) :
    Bus.source ((b.sifman.sendQueue slot).blocks b.block) = L.outgoing ∧
      packet.length ≤ ((b.sifman.sendQueue slot).blocks b.block).words.toNat ∧
        Stored L b.memory packet packet.length := by
  obtain ⟨rfl, job, rest, rfl, hjob⟩ := h.holds.running hslot
  obtain ⟨_, carried, hcarried⟩ : ∃ x xs, b.carried = x :: xs := by
    cases hc : b.carried with
    | nil => simp [hc] at hhead
    | cons x xs => exact ⟨x, xs, rfl⟩
  rw [hcarried] at hhead
  obtain rfl := Option.some.inj hhead
  have hcarries := h.carries
  rw [hcarried] at hcarries
  obtain ⟨-, block, hblock, hsource, hwords⟩ := (List.forall₂_cons.mp hcarries).1 packet rfl
  rw [← hjob, SendGroup.run_getLast? hlast] at hblock
  obtain rfl := Option.some.inj hblock
  refine ⟨hsource, hwords, h.posted packet ?_⟩
  unfold Bus.undelivered
  rw [h.holds.isFinished, hcarried]
  exact List.mem_cons_self

/-- The channel reads a word. -/
theorem Intact.readWord (h : Intact L b line) {slot : ℕ}
    (hslot : b.sifman.channel = .running slot) :
    Intact L { b with
      read := b.read ++ [b.memory (Bus.source ((b.sifman.sendQueue slot).blocks b.block) +
        UInt32.ofNat (4 * b.read.length))] } line := by
  refine ⟨h.holds, h.carries, h.sane, h.stored, h.posted, h.one, h.apart, ?_, ?_⟩
  · intro slot' packet hslot' hlast hhead i hi word hword
    obtain rfl : slot = slot' := Channel.running.inj (hslot.symm.trans hslot')
    obtain ⟨hsource, -, hstored⟩ := h.current hslot hlast hhead
    dsimp only at hi ⊢
    rw [List.length_append, List.length_singleton] at hi
    rcases Nat.lt_or_ge i b.read.length with hlt | hge
    · rw [List.getElem?_append_left hlt]
      exact h.read slot packet hslot hlast hhead i hlt word hword
    · obtain rfl : i = b.read.length := by omega
      rw [List.getElem?_concat_length, hsource]
      exact congrArg some (hstored _ (List.getElem?_eq_some_iff.mp hword).1 word hword)
  · intro hstopped
    exact absurd hslot (hstopped slot)

/-- A block read whole is the packet it was to carry. -/
theorem Intact.arrived (h : Intact L b line) {slot : ℕ} (hslot : b.sifman.channel = .running slot)
    (hlast : b.block + 1 = (b.sifman.sendQueue slot).count.toNat)
    (hhead : b.carried.head? = some (some packet))
    (hwhole : b.read.length = ((b.sifman.sendQueue slot).blocks b.block).words.toNat) :
    packet <+: b.read := by
  obtain ⟨-, hwords, -⟩ := h.current hslot hlast hhead
  refine List.prefix_iff_getElem?.mpr fun i hi => ?_
  exact h.read slot packet hslot hlast hhead i (by omega) _ (List.getElem?_eq_getElem hi)

/-- A delivery brings the words the packet was filled with. -/
theorem Intact.arrived_deliver (h : Intact L b line) {slot : ℕ}
    (hslot : b.sifman.channel = .running slot)
    (hwhole : b.read.length = ((b.sifman.sendQueue slot).blocks b.block).words.toNat) :
    Arrived [⟨((b.sifman.sendQueue slot).blocks b.block).destination, b.read,
      if b.block + 1 = (b.sifman.sendQueue slot).count.toNat then b.carried.headD none
      else none⟩] := by
  intro d hd packet hpacket
  obtain rfl := List.mem_singleton.mp hd
  dsimp only at hpacket ⊢
  split at hpacket
  · next hlast =>
    refine h.arrived hslot hlast ?_ hwhole
    cases hcarried : b.carried with
    | nil => simp [hcarried] at hpacket
    | cons x xs => simpa [hcarried] using hpacket
  · cases hpacket

/-- The channel goes on to the next block of its run. -/
theorem Intact.nextBlock (h : Intact L b line) (block : ℕ) :
    Intact L { b with block := block, read := [] } line :=
  ⟨h.holds, h.carries, h.sane, h.stored, h.posted, h.one, h.apart,
    fun _ _ _ _ _ _ hi => absurd hi (Nat.not_lt_zero _), fun _ => rfl⟩

/-- The channel is done with its run. -/
theorem Intact.finish (h : Intact L b line) {slot : ℕ} (hslot : b.sifman.channel = .running slot) :
    Intact L
      { b with sifman := { b.sifman with channel := .finished slot }, block := 0, read := [] }
      ⟨line.waiting, true⟩ := by
  have hmem : ∀ packet, some packet ∈ b.carried.tail → some packet ∈ b.undelivered := by
    intro packet hpacket
    unfold Bus.undelivered
    rw [hslot]
    exact List.mem_of_mem_tail hpacket
  exact ⟨h.holds.finish hslot, h.carries, h.sane, h.stored,
    fun packet hpacket => h.posted packet (hmem packet hpacket), h.one,
    fun t packet ht hpacket => h.apart t packet ht (hmem packet hpacket), nofun, fun _ => rfl⟩

/-- The interrupt takes the run off. -/
theorem Intact.interrupt (h : Intact L b line) {slot : ℕ}
    (hslot : b.sifman.channel = .finished slot) :
    Intact L { b with
      sifman := (Sifman.sendFinished { b.sifman with channel := .idle }).state
      carried := b.carried.tail } ⟨line.waiting.tail, false⟩ := by
  have hholds := h.holds.popped hslot
  have hread : b.read = [] := h.stopped fun other hother => by rw [hslot] at hother; cases hother
  have hundelivered : b.undelivered = b.carried.tail := by
    unfold Bus.undelivered
    rw [hslot]
    rfl
  have hmem : ∀ packet, some packet ∈ Bus.undelivered { b with
      sifman := (Sifman.sendFinished { b.sifman with channel := .idle }).state
      carried := b.carried.tail } → some packet ∈ b.undelivered := by
    intro packet hpacket
    unfold Bus.undelivered at hpacket
    rw [hholds.isFinished] at hpacket
    rw [hundelivered]
    exact hpacket
  obtain ⟨-, job, rest, rfl, -⟩ := h.holds.done hslot
  have hcarries : List.Forall₂ (Carries L) rest b.carried.tail := by
    cases hcarried : b.carried with
    | nil => simpa [hcarried] using h.carries
    | cons x xs =>
      have hcons := h.carries
      rw [hcarried] at hcons
      exact (List.forall₂_cons.mp hcons).2
  refine ⟨hholds, hcarries, h.sane, h.stored,
    fun packet hpacket => h.posted packet (hmem _ hpacket), h.one,
    fun t packet ht hpacket => h.apart t packet ht (hmem _ hpacket), ?_, fun _ => hread⟩
  intro _ _ _ _ _ i hi
  dsimp only at hi
  rw [hread] at hi
  exact absurd hi (Nat.not_lt_zero i)

/-- **One step** that begins no packet in a buffer in use. -/
theorem Intact.step (h : Intact L b line) {event : BusEvent} {log : List Delivery} {b' : Bus}
    (hst : b.step L event = some (log, b')) (hundisturbed : b.Undisturbed event) :
    Arrived log ∧ ∃ line', Intact L b' line' := by
  -- only the end of a run delivers; each other event keeps what is stored and where the channel is
  have hquiet : Arrived [] := nofun
  unfold Bus.step at hst
  split at hst
  case h_1 p =>
    obtain ⟨rfl, rfl⟩ := Prod.mk.inj (Option.some.inj hst)
    exact ⟨hquiet, h.servePacket p hundisturbed⟩
  case h_2 t a =>
    split at hst
    · obtain ⟨rfl, rfl⟩ := Prod.mk.inj (Option.some.inj hst)
      exact ⟨hquiet, line, h.answerCall t a⟩
    · cases hst
  case h_3 t =>
    split at hst
    · next packet stored data hthread =>
      split at hst
      · next word hword =>
        obtain ⟨rfl, rfl⟩ := Prod.mk.inj (Option.some.inj hst)
        refine ⟨hquiet, line, h.store hthread hword ?_⟩
        rintro rfl
        exact hundisturbed packet data hthread
      · cases hst
    · cases hst
  case h_4 t =>
    split at hst
    · next packet stored data hthread =>
      split at hst
      · next hstored =>
        subst hstored
        obtain ⟨rfl, rfl⟩ := Prod.mk.inj (Option.some.inj hst)
        exact ⟨hquiet, line, h.describe hthread⟩
      · cases hst
    · cases hst
  case h_5 t =>
    split at hst
    · next run carried hthread =>
      obtain ⟨rfl, rfl⟩ := Prod.mk.inj (Option.some.inj hst)
      exact ⟨hquiet, h.queue hthread⟩
    · cases hst
  case h_6 list count function arg =>
    obtain ⟨rfl, rfl⟩ := Prod.mk.inj (Option.some.inj hst)
    exact ⟨hquiet, h.send list count function arg⟩
  case h_7 address value =>
    split at hst
    · next haddress =>
      obtain ⟨rfl, rfl⟩ := Prod.mk.inj (Option.some.inj hst)
      exact ⟨hquiet, line, h.write haddress⟩
    · cases hst
  case h_8 =>
    split at hst
    · next slot hslot =>
      dsimp only at hst
      split at hst
      · obtain ⟨rfl, rfl⟩ := Prod.mk.inj (Option.some.inj hst)
        exact ⟨hquiet, line, h.readWord hslot⟩
      · cases hst
    · cases hst
  case h_9 =>
    split at hst
    · next slot hslot =>
      dsimp only at hst
      split at hst
      -- the whole of a run has been read, so it arrives as it was filled in
      · next hwhole =>
        have harrived := h.arrived_deliver hslot hwhole
        split at hst
        · obtain ⟨rfl, rfl⟩ := Prod.mk.inj (Option.some.inj hst)
          exact ⟨harrived, _, h.finish hslot⟩
        · obtain ⟨rfl, rfl⟩ := Prod.mk.inj (Option.some.inj hst)
          exact ⟨harrived, line, h.nextBlock _⟩
      · cases hst
    · cases hst
  case h_10 =>
    split at hst
    · next slot hslot =>
      obtain ⟨rfl, rfl⟩ := Prod.mk.inj (Option.some.inj hst)
      exact ⟨hquiet, _, h.interrupt hslot⟩
    · cases hst

end Steps

/-- The blocks a run delivers. -/
abbrev deliveries (l : List (BusEvent × List Delivery)) : List Delivery := l.flatMap (·.2)

/-- One event with the packets it made arrive. -/
def Bus.Step (L : Layout) (b : Bus) (seen : BusEvent × List Delivery) (b' : Bus) : Prop :=
  b.step L seen.1 = some (seen.2, b')

/-- A step that begins no packet in a buffer in use. -/
def Bus.QuietStep (L : Layout) (b : Bus) (seen : BusEvent × List Delivery) (b' : Bus) : Prop :=
  b.Step L seen b' ∧ b.Undisturbed seen.1

/-- **Every packet arrives as it was filled in**, in a run that begins none while the buffer is
in use, from whatever memory holds. -/
theorem packets_arrive {L : Layout} {memory : Memory} {l : List (BusEvent × List Delivery)}
    {b : Bus} (h : Steps (Bus.QuietStep L) (Bus.start memory) l b) : Arrived (deliveries l) := by
  suffices hgen : ∀ a line, Intact L a line → Steps (Bus.QuietStep L) a l b →
      Arrived (deliveries l) from hgen _ _ (intact_start memory) h
  clear h
  intro a line ha h
  induction h generalizing line with
  | nil => exact nofun
  | cons hst _ ih =>
    obtain ⟨harrived, line', hline'⟩ := ha.step hst.1 hst.2
    intro d hd
    rw [deliveries, List.flatMap_cons, List.mem_append] at hd
    exact hd.elim (harrived d) (ih line' hline' d)

/-- One event computed, with what it made arrive. -/
def Bus.perform (L : Layout) (b : Bus) (event : BusEvent) :
    Option ((BusEvent × List Delivery) × Bus) :=
  (b.step L event).map fun r => ((event, r.1), r.2)

/-- What `perform` computes is a step. -/
theorem Bus.step_of_perform {L : Layout} {b b' : Bus} {event : BusEvent}
    {seen : BusEvent × List Delivery} (h : b.perform L event = some (seen, b')) :
    seen.1 = event ∧ b.Step L seen b' := by
  obtain ⟨r, hr, heq⟩ := Option.map_eq_some_iff.mp h
  obtain ⟨rfl, rfl⟩ := Prod.mk.inj heq
  exact ⟨rfl, hr⟩

/-- The client is told where to listen for, and asks for, a SET_SREG, and the channel sends it. -/
theorem packets_arrive_sreg :
    ∃ l b, Steps (Bus.QuietStep ⟨0x1000, by decide⟩) (Bus.start fun _ => 0) l b ∧
      deliveries l = [⟨0x100000, [24, 0, kCidSetSreg, 0, 0, 1, 0, 0], some (setSreg 0 1)⟩] ∧
      Arrived (deliveries l) := by
  let L : Layout := ⟨0x1000, by decide⟩
  let told : Bus := { Bus.start fun _ => 0 with eePacketBuffer := 0x100000 }
  have hfree : ¬told.InUse := by
    rintro (⟨t, ht⟩ | ⟨packet, hmem⟩)
    · exact ht rfl
    · cases hmem
  have hasked : Steps (Bus.QuietStep L) (Bus.start fun _ => 0)
      [(.packet ⟨kCidInitCmd, 0, fun _ => 0x100000, 0, 0⟩, []),
        (.packet ⟨kCidInitCmd, 1, fun _ => 0, 0, 0⟩, [])] (told.sendSetSreg L 0 1) :=
    .cons (t := told) ⟨rfl, fun h => absurd rfl h⟩ (.cons ⟨rfl, fun _ => hfree⟩ (.nil _))
  -- the channel's steps, which are always quiet
  let send (b : Bus) (whole : Bool) := b.perform L (if whole then .deliver else .read)
  have hsend : ∀ b whole seen b', send b whole = some (seen, b') → Bus.QuietStep L b seen b' := by
    intro b whole seen b' h
    obtain ⟨hseen, hst⟩ := Bus.step_of_perform h
    refine ⟨hst, ?_⟩
    rw [hseen]
    cases whole <;> exact trivial
  have hlog : (traceList send (told.sendSetSreg L 0 1) (List.replicate 8 false ++ [true])).map
      (fun r => deliveries r.1) =
        some [⟨0x100000, [24, 0, kCidSetSreg, 0, 0, 1, 0, 0], some (setSreg 0 1)⟩] := by
    decide +kernel
  obtain ⟨⟨l, b⟩, hrun, hdelivered⟩ := Option.map_eq_some_iff.mp hlog
  have hsteps := hasked.append (Steps.of_traceList hsend hrun)
  exact ⟨_, b, hsteps, by simpa [deliveries] using hdelivered, packets_arrive hsteps⟩

/-- A thread answers a call, and a bind arrives before the channel has read the END: the bind's
END takes its place, so that the one the call was waiting for never arrives. -/
theorem packet_overwritten :
    ¬∀ (L : Layout) (memory : Memory) (l : List (BusEvent × List Delivery)) (b : Bus),
      Steps (Bus.Step L) (Bus.start memory) l b → Arrived (deliveries l) := by
  intro h
  let L : Layout := ⟨0x1000, by decide⟩
  have hlog : (traceList (Bus.perform L) (Bus.start fun _ => 0)
      ([.packet ⟨kCidInitCmd, 0, fun _ => 0x100000, 0, 0⟩,
        .answer 0 ⟨0, 0, 0, 1, ⟨1, 2, 3, 4⟩, 0x2000, 0x3000⟩] ++ List.replicate 12 (.store 0) ++
        [.describe 0, .queue 0, .packet ⟨kCidRpcBind, 0, fun _ => 9, 0x2000, 0x3000⟩] ++
        List.replicate 12 .read ++ [.deliver])).map (fun r => deliveries r.1) =
        some [⟨0x100000, fillEnd ⟨9, 9, 9, 9⟩ kCidRpcBind 0x2000 0x3000,
          some (fillEnd ⟨1, 2, 3, 4⟩ kCidRpcCall 0x2000 0x3000)⟩] := by
    decide +kernel
  obtain ⟨⟨l, b⟩, hrun, hdelivered⟩ := Option.map_eq_some_iff.mp hlog
  have harrived := h L _ l b
    (Steps.of_traceList (f := Bus.perform L) (fun _ _ _ _ hp => (Bus.step_of_perform hp).2) hrun)
  rw [hdelivered] at harrived
  have hprefix := harrived _ (List.mem_singleton_self _) _ rfl
  exact absurd hprefix (by decide)

end PS2Bios.Sif
