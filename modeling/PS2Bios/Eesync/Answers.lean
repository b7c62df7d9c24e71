import PS2Bios.Eesync.Fetch

/-!
# An exchange and its answer

An exchange waits until the channel stops, and any run stops it that ends it. What is queued before
the answer is, and what is queued behind it while it has yet to land, decide whose run that is.
When no run that ends the channel is ahead of the answer, and none lands in the kernel's buffers, an
exchange returns with its own answer, and a fetch with its file (`exchange_returns_its_answer`).
A run of another module's that ends the channel, and was queued before the exchange began, has it
return with nothing (`stopped_by_another`).
-/

namespace PS2Bios.Eesync

open Sif

variable (S : Site)

/-- Runs of other modules', which leave the kernel's buffers alone. -/
def Others (xs : List (Run × Option (Parcel ℕ))) : Prop := ∀ x ∈ xs, x.2 = none ∧ Avoids S x.1

/-- They do not stop the channel either. -/
def Passing (xs : List (Run × Option (Parcel ℕ))) : Prop := Others S xs ∧ ∀ x ∈ xs, ¬Ends x.1

/-- How far an exchange is. -/
inductive Phase (s : State) (n : ℕ) (r : Request) (before : UInt32 → UInt8) : Prop
  /-- The answer is not queued: it is still to be, or the ring was full. -/
  | asked (harmed : s.receiver.armed = true) (hflight : s.inFlight = [(n, r)] ∨ s.inFlight = [])
      (hnot : Unanswered s n) (hahead : Passing S s.link.ahead) (hsame : Same S s.ee before)
  /-- The answer is on its way. -/
  | queued (harmed : s.receiver.armed = true) (hflight : s.inFlight = [])
      {xs ys : List (Run × Option (Parcel ℕ))} {run : Run} {p : Parcel ℕ}
      (hahead : s.link.ahead = xs ++ (run, some p) :: ys) (hxs : Passing S xs) (hys : Others S ys)
      (hsent : p ∈ s.link.sent) (howner : p.owner = n) (htransfer : p.transfer = answerTransfer S r)
      (hanswer : (answerTo S r).1 <+: bytesOf p.quads)
      (hsame : Same S s.ee
        (put before r.destination (bytesOf (if xs = [] then p.quads.take s.link.moved else []))))
  /-- The answer has landed, and has stopped the channel. -/
  | landed (hstopped : s.receiver.armed = false) (hflight : s.inFlight = [])
      (hahead : Others S s.link.ahead) (hanswered : Answered S s n r) {bytes : List UInt8}
      (hlength : bytes.length = landing S r) (hanswer : (answerTo S r).1 <+: bytes)
      (hsame : Same S s.ee (put before r.destination bytes))

/-- What a fetch is to end in: for a name and a target, the size it answers, and EE memory. -/
abbrev Goal := List UInt8 → UInt32 → UInt32 → (UInt32 → UInt8) → Prop

variable (G : Goal)

/-- Where the kernel is, it has what it has been told. -/
def ControlSound (s : State) : Control → Prop
  | .idle => s.inFlight = [] ∧ ∀ x ∈ s.link.ahead, x.2 = none
  | .running p => s.inFlight = [] ∧ Others S s.link.ahead ∧
      ∃ memory, Same S s.ee memory ∧ p.wp (fetching S) (G s.name s.target) memory
  | .waiting n r before k => n < s.asked ∧ Phase S s n r before ∧
      ∃ memory, Same S before memory ∧
        (Prog.ask (Op.sifExchange r) k).wp (fetching S) (G s.name s.target) memory
  | .fetched size => s.inFlight = [] ∧ Others S s.link.ahead ∧
      ∃ memory, Same S s.ee memory ∧ G s.name s.target size memory

/-- What every state keeps. -/
structure Sound (s : State) : Prop where
  link : ∃ line, s.link.Sound line
  framed : s.link.Framed
  owner : ∀ p ∈ s.link.sent, p.owner < s.asked
  control : ControlSound S G s s.control

variable {S G} {s t : State} {n : ℕ} {r : Request} {before : UInt32 → UInt8}

/-! ### What leaves the buffers alone -/

theorem Same.symm {ee ee' : UInt32 → UInt8} (h : Same S ee ee') : Same S ee' ee :=
  fun a ha => (h a ha).symm

theorem Same.trans {ee ee' ee'' : UInt32 → UInt8} (h : Same S ee ee') (h' : Same S ee' ee'') :
    Same S ee ee'' := fun a ha => (h a ha).trans (h' a ha)

theorem Same.put {ee ee' : UInt32 → UInt8} (h : Same S ee ee') (address : UInt32)
    (bytes : List UInt8) : Same S (put ee address bytes) (put ee' address bytes) :=
  fun a ha => put_congr (h a ha)

/-- A quadword of a run that lands elsewhere. -/
theorem Avoids.same {run : Run} (h : Avoids S run) {block : SendBlock} (hblock : block ∈ run.blocks)
    {k : ℕ} (hk : k < block.quads) (memory ee : UInt32 → UInt8) :
    Same S (Sif.put ee (quadAt memory block k).address (quadAt memory block k).bytes) ee := by
  intro a ha
  refine put_of_apart fun j hj heq => h block hblock (16 * k + j) ?_ ?_
  · have hlen : (quadAt memory block k).bytes.length = 16 := by
      show ((List.range 16).map _).length = 16
      rw [List.length_map, List.length_range]
    omega
  · have haddress : (quadAt memory block k).address + UInt32.ofNat j =
        block.destination + UInt32.ofNat (16 * k + j) := add_ofNat_add ..
    rw [← haddress, ← heq]
    exact ha

/-- An answer stays one while what it was sent by and where it arrived stay. -/
theorem Answered.congr (h : Answered S s n r) (hsent : ∀ p ∈ s.link.sent, p ∈ t.link.sent)
    (harrived : t.link.arrived = s.link.arrived) (hee : t.ee = s.ee) : Answered S t n r := by
  obtain ⟨p, hp, howner, htransfer, hlanded, hbytes⟩ := h
  unfold Answered
  rw [harrived, hee]
  exact ⟨p, hsent p hp, howner, htransfer, hlanded, hbytes⟩

/-! ### What each step keeps -/

theorem sound_start (memory ee : UInt32 → UInt8) : Sound S G (State.start memory ee) where
  link := ⟨_, Link.sound_start memory⟩
  framed := Link.framed_start memory
  owner := nofun
  control := ⟨rfl, nofun⟩

theorem Others.append {xs ys : List (Run × Option (Parcel ℕ))} (hxs : Others S xs)
    (hys : Others S ys) : Others S (xs ++ ys) :=
  fun x hx => (List.mem_append.mp hx).elim (hxs x) (hys x)

theorem others_nil : Others S [] := nofun

theorem Others.congr {xs ys : List (Run × Option (Parcel ℕ))} (h : Others S xs) (heq : ys = xs) :
    Others S ys := heq ▸ h

/-- Runs of other modules' are queued behind, or nothing is. -/
theorem Sound.setLink (h : Sound S G s) {l : Link ℕ} {extra : List (Run × Option (Parcel ℕ))}
    (hlink : ∃ line, l.Sound line) (hframed : l.Framed) (hahead : l.ahead = s.link.ahead ++ extra)
    (hmoved : l.moved = s.link.moved) (hsent : l.sent = s.link.sent)
    (harrived : l.arrived = s.link.arrived) (hnone : ∀ x ∈ extra, x.2 = none)
    (havoids : s.control ≠ .idle → ∀ x ∈ extra, Avoids S x.1)
    (hends : ∀ n r before k, s.control = .waiting n r before k → Unanswered s n →
      ∀ x ∈ extra, ¬Ends x.1) : Sound S G (s.setLink l) := by
  -- what is queued behind carries no parcel, and ends no run that the program waits for
  have hsent' : ∀ p ∈ s.link.sent, p ∈ (s.setLink l).link.sent := fun p hp => by
    show p ∈ l.sent
    rwa [hsent]
  refine ⟨hlink, hframed, fun p hp => h.owner p (by rwa [← hsent]), ?_⟩
  have hcontrol := h.control
  show ControlSound S G (s.setLink l) s.control
  cases hc : s.control with
  | idle =>
    rw [hc] at hcontrol
    refine ⟨hcontrol.1, fun x hx => ?_⟩
    rw [show (s.setLink l).link.ahead = _ from hahead, List.mem_append] at hx
    exact hx.elim (hcontrol.2 x) (hnone x)
  | running p =>
    rw [hc] at hcontrol havoids
    have hextra : Others S extra := fun x hx => ⟨hnone x hx, havoids nofun x hx⟩
    exact ⟨hcontrol.1, (hcontrol.2.1.append hextra).congr hahead, hcontrol.2.2⟩
  | fetched size =>
    rw [hc] at hcontrol havoids
    have hextra : Others S extra := fun x hx => ⟨hnone x hx, havoids nofun x hx⟩
    exact ⟨hcontrol.1, (hcontrol.2.1.append hextra).congr hahead, hcontrol.2.2⟩
  | waiting n r before k =>
    rw [hc] at hcontrol havoids
    have hextra : Others S extra := fun x hx => ⟨hnone x hx, havoids nofun x hx⟩
    refine ⟨hcontrol.1, ?_, hcontrol.2.2⟩
    cases hcontrol.2.1 with
    | asked harmed hflight hnot hpassing hsame =>
      refine .asked harmed hflight (fun p hp => hnot p (by rwa [← hsent]))
        ⟨?_, fun x hx => ?_⟩ hsame
      · exact (hpassing.1.append hextra).congr hahead
      · rw [show (s.setLink l).link.ahead = _ from hahead, List.mem_append] at hx
        exact hx.elim (hpassing.2 x) (hends n r before k hc hnot x)
    | @queued harmed hflight xs ys run p hfirst hxs hys hp howner htransfer hanswer hsame =>
      have hbehind : (s.setLink l).link.ahead = xs ++ (run, some p) :: (ys ++ extra) := by
        rw [show (s.setLink l).link.ahead = _ from hahead, hfirst, List.append_assoc,
          List.cons_append]
      refine .queued harmed hflight hbehind hxs (hys.append hextra) (hsent' p hp) howner htransfer
        hanswer ?_
      rw [show (s.setLink l).link.moved = _ from hmoved]
      exact hsame
    | landed hstopped hflight hothers hanswered hlength hanswer hsame =>
      exact .landed hstopped hflight ((hothers.append hextra).congr hahead)
        (hanswered.congr hsent' harrived rfl) hlength hanswer hsame

/-- Nothing is still to be taken from IOP memory for the kernel. -/
theorem not_waits_of_others {l : Link ℕ} {line : Line.State Run} (h : l.Sound line)
    (hnone : ∀ x ∈ l.ahead, x.2 = none) (address : UInt32) : ¬l.Waits address := by
  rintro ⟨p, hp, -⟩
  rw [← h.ahead_snd] at hp
  obtain ⟨x, hx, heq⟩ := List.mem_map.mp hp
  exact Option.some_ne_none p (heq.symm.trans (hnone x hx))

/-- What EESYNC has put into its payload is what it hands over. -/
theorem answer_begins (memory : UInt32 → UInt8) :
    (answerTo S r).1 <+: bytesOf (quadsOf (put memory S.payload (answerTo S r).1)
      (answerTransfer S r).block) := by
  have hsource : Bus.source (answerTransfer S r).block = S.payload :=
    (Link.source_block _).trans S.payload_physical
  have hlength : (answerTo S r).1.length ≤ 16 * (answerTransfer S r).block.quads := answerTo_length
  have hlanding : 16 * (answerTransfer S r).block.quads = _ := landing_eq
  have hwords : (answerTo S r).2 ≤ 4096 := answerTo_words
  unfold quadsOf
  rw [bytesOf_quadsOf, hsource, List.prefix_iff_getElem?]
  intro k hk
  rw [List.getElem?_map, List.getElem?_range (by omega)]
  exact congrArg some (put_add (List.getElem?_eq_getElem hk) (by omega))

/-- EESYNC answers, or finds the ring full. -/
theorem Sound.serve (h : Sound S G s) {rest : List (ℕ × Request)}
    (hflight : s.inFlight = (n, r) :: rest) :
    Sound S G { s.setLink (serveFile S s.link n r) with inFlight := rest } := by
  have hcontrol := h.control
  have hempty : s.inFlight ≠ [] := by
    rw [hflight]
    exact List.cons_ne_nil _ _
  show Sound S G _
  cases hc : s.control with
  | idle => rw [hc] at hcontrol; exact absurd hcontrol.1 hempty
  | running p => rw [hc] at hcontrol; exact absurd hcontrol.1 hempty
  | fetched size => rw [hc] at hcontrol; exact absurd hcontrol.1 hempty
  | waiting n' r' before k =>
    rw [hc] at hcontrol
    obtain ⟨hlt, hphase, hwp⟩ := hcontrol
    cases hphase with
    | queued _ hnil => exact absurd hnil hempty
    | landed _ hnil => exact absurd hnil hempty
    | asked harmed hone hnot hpassing hsame =>
      rw [hflight, or_iff_left (List.cons_ne_nil _ _)] at hone
      obtain ⟨hhead, rfl⟩ := List.cons.inj hone
      obtain ⟨rfl, rfl⟩ := Prod.mk.inj hhead
      obtain ⟨line, hline⟩ := h.link
      have hstored : (s.link.store S.payload (answerTo S r).1).Sound line :=
        hline.store fun _ _ => not_waits_of_others hline (fun x hx => (hpassing.1 x hx).1) _
      have hframed : (s.link.store S.payload (answerTo S r).1).Framed :=
        ⟨h.framed.ended, h.framed.within⟩
      generalize hl : s.link.store S.payload (answerTo S r).1 = l at hstored hframed
      have hahead : l.ahead = s.link.ahead := by rw [← hl]; rfl
      have hsent : l.sent = s.link.sent := by rw [← hl]; rfl
      have hmoved : l.moved = s.link.moved := by rw [← hl]; rfl
      have hserve : serveFile S s.link n r = (l.setDma n (answerTransfer S r)).2 := by
        rw [← hl]; rfl
      rw [hserve]
      by_cases hfull : l.sifman.sendQueued = kSendGroups
      · rw [Link.setDma_refused hfull]
        refine ⟨⟨line, hstored⟩, hframed, fun p hp => h.owner p (by rwa [← hsent]), ?_⟩
        show ControlSound S G _ s.control
        rw [hc]
        refine ⟨hlt, .asked harmed (.inr rfl) (fun p hp => hnot p (by rwa [← hsent])) ?_ hsame,
          hwp⟩
        show Passing S l.ahead
        rwa [hahead]
      have haccepted :
          ¬((1 : UInt32) = 0 ∨ kTransfersMax < 1 ∨ l.sifman.sendQueued = kSendGroups) := by
        rintro (hzero | hmany | hfull')
        · exact absurd hzero (by decide)
        · exact absurd hmany (by decide)
        · exact hfull hfull'
      have hlink := hstored.setDma n (answerTransfer S r)
      have hbehind := hstored.ahead_queue (fun _ => answerTransfer S r) 0 0
        (some (l.parcel n (answerTransfer S r))) haccepted
      have hnewsent : (l.setDma n (answerTransfer S r)).2.sent =
          l.sent ++ [l.parcel n (answerTransfer S r)] := by
        rcases hstored.queue_eq (fun _ => answerTransfer S r) 1 0 0
          (some (l.parcel n (answerTransfer S r))) with heq | ⟨-, -, hsent⟩
        · have hanswer : (l.setDma n (answerTransfer S r)).1 = 1 := Link.setDma_accepted hfull
          unfold Link.setDma at hanswer
          rw [heq] at hanswer
          exact absurd (show (0 : UInt32) = 1 from hanswer) (by decide)
        · exact hsent
      refine ⟨hlink, hframed.queue hstored _ 1 0 0 hlink, fun p hp => ?_, ?_⟩
      · rw [show State.link _ = (l.setDma n (answerTransfer S r)).2 from rfl, hnewsent,
          List.mem_append] at hp
        rcases hp with hold | hnew
        · exact h.owner p (by rwa [← hsent])
        · obtain rfl := List.mem_singleton.mp hnew
          exact hlt
      · show ControlSound S G _ s.control
        rw [hc]
        refine ⟨hlt, .queued harmed rfl (hbehind.trans (by rw [hahead])) hpassing others_nil ?_
          rfl rfl ?_ ?_, hwp⟩
        · show _ ∈ (l.setDma n (answerTransfer S r)).2.sent
          rw [hnewsent]
          exact List.mem_append_right _ (.head _)
        · show _ <+: bytesOf (quadsOf l.memory (answerTransfer S r).block)
          rw [← hl]
          exact answer_begins s.link.memory
        · have hnothing : bytesOf (if s.link.ahead = [] then
              (l.parcel n (answerTransfer S r)).quads.take l.moved else []) = [] := by
            split
            next hnil =>
              have hzero : l.moved = 0 := by
                refine (hstored.stopped_of_empty ?_).2
                rw [← hstored.ahead_snd, hahead, hnil]
                rfl
              rw [hzero]
              rfl
            next => rfl
          show Same S s.ee (put _ _ (bytesOf (if s.link.ahead = [] then
              (l.parcel n (answerTransfer S r)).quads.take l.moved else [])))
          rw [hnothing, put_nil]
          exact hsame

/-- The quadwords of a block that have been moved. -/
theorem take_quadsOf {memory : UInt32 → UInt8} {block : SendBlock} {k : ℕ} (hk : k ≤ block.quads) :
    (quadsOf memory block).take k = (List.range k).map (quadAt memory block) := by
  rw [quadsOf, ← List.map_take, List.take_range, Nat.min_eq_left hk]

/-- An answer lands where it was asked to, and no more of it than fits there. -/
theorem answer_lands (hallowed : allowed S (.sifExchange r)) :
    (answerTransfer S r).block.destination = r.destination ∧
      (answerTransfer S r).block.quads ≤ 1024 := by
  have hlanding : 16 * (answerTransfer S r).block.quads = _ := landing_eq
  have hwords : (answerTo S r).2 ≤ 4096 := answerTo_words
  exact ⟨hallowed.1, by omega⟩

/-- A quadword lands. -/
theorem Sound.move (h : Sound S G s) {t : Receiver ℕ} (hmove : s.receiver.move = some t) :
    Sound S G { s with receiver := t } := by
  obtain ⟨line, hline⟩ := h.link
  obtain ⟨⟨harmed, harmed'⟩, hlink, hframed, hahead, hmoved, hsent, -, run, x, rest, block,
    hfirst, hblock, hlt, hof, hee⟩ := Receiver.move_cases hline h.framed hmove
  change t.link.ahead = s.link.ahead at hahead
  change t.link.moved = s.link.moved + 1 at hmoved
  change t.link.sent = s.link.sent at hsent
  change s.link.ahead = (run, x) :: rest at hfirst
  change s.link.moved < block.quads at hlt
  have hmem : (run, x) ∈ s.link.ahead := by
    rw [hfirst]
    exact .head _
  have hsame : Avoids S run → Same S t.ee s.ee := fun havoids => by
    rw [hee]
    exact havoids.same hblock hlt _ _
  refine ⟨⟨line, hlink⟩, hframed, fun p (hp : p ∈ t.link.sent) => h.owner p (hsent ▸ hp), ?_⟩
  have hcontrol := h.control
  show ControlSound S G _ s.control
  cases hc : s.control with
  | idle =>
    rw [hc] at hcontrol
    exact ⟨hcontrol.1, fun y (hy : y ∈ t.link.ahead) => hcontrol.2 y (hahead ▸ hy)⟩
  | running p =>
    rw [hc] at hcontrol
    obtain ⟨hflight, hothers, memory, hmemory, hwp⟩ := hcontrol
    exact ⟨hflight, hothers.congr hahead, memory,
      (hsame (hothers _ hmem).2).trans hmemory, hwp⟩
  | fetched size =>
    rw [hc] at hcontrol
    obtain ⟨hflight, hothers, memory, hmemory, hgoal⟩ := hcontrol
    exact ⟨hflight, hothers.congr hahead, memory,
      (hsame (hothers _ hmem).2).trans hmemory, hgoal⟩
  | waiting n r before k =>
    rw [hc] at hcontrol
    obtain ⟨hasked, hphase, memory, hmemory, hwp⟩ := hcontrol
    refine ⟨hasked, ?_, memory, hmemory, hwp⟩
    cases hphase with
    | asked _ hflight hnot hpassing hbefore =>
      refine .asked harmed' hflight (fun p (hp : p ∈ t.link.sent) => hnot p (hsent ▸ hp)) ?_
        ((hsame (hpassing.1 _ hmem).2).trans hbefore)
      show Passing S t.link.ahead
      rwa [hahead]
    | landed hstopped => exact absurd harmed (by rw [hstopped]; exact Bool.false_ne_true)
    | @queued _ hflight xs ys _ p hqueued hxs hys hp howner htransfer hanswer hbefore =>
      refine .queued harmed' hflight (hahead.trans hqueued) hxs hys (hsent.symm ▸ hp) howner
        htransfer hanswer ?_
      show Same S t.ee (Sif.put before r.destination
        (bytesOf (if xs = [] then p.quads.take t.link.moved else [])))
      rw [hqueued] at hfirst
      cases xs with
      | cons y xs =>
        obtain ⟨rfl, -⟩ := List.cons.inj hfirst
        exact (hsame (hxs.1 _ (.head _)).2).trans hbefore
      | nil =>
        obtain ⟨heq, -⟩ := List.cons.inj hfirst
        obtain ⟨rfl, rfl⟩ := Prod.mk.inj heq
        obtain rfl := hof p rfl
        have hintact : p.quads = quadsOf s.link.memory p.transfer.block := by
          refine hline.intact p ?_
          rw [← hline.ahead_snd, hqueued]
          exact .head _
        obtain ⟨hdestination, hsmall⟩ := answer_lands hwp.1
        rw [htransfer] at hlt hintact hee
        -- one more quadword behind those that have landed
        let q := quadAt s.link.memory (answerTransfer S r).block s.link.moved
        have hnext : Sif.put (Sif.put before (answerTransfer S r).block.destination
              (bytesOf ((List.range s.link.moved).map (quadAt s.link.memory _))))
              q.address q.bytes =
            Sif.put before (answerTransfer S r).block.destination
              (bytesOf ((List.range (s.link.moved + 1)).map (quadAt s.link.memory _))) :=
          put_quadAt (by omega)
        rw [if_pos rfl, hintact, take_quadsOf (Nat.le_of_lt hlt)] at hbefore
        rw [if_pos rfl, hmoved, hintact, take_quadsOf hlt, hee]
        rw [hdestination] at hnext
        rw [← hnext]
        exact hbefore.put _ _

theorem tag_of_not_ends {run : Run} (h : ¬Ends run) {block : SendBlock}
    (hblock : block ∈ run.blocks) : block.tag &&& kTagEnd = 0 := by
  by_contra hne
  exact h ⟨block, hblock, hne⟩

/-- EESYNC's answers end the channel. -/
theorem answer_ends : (answerTransfer S r).block.tag &&& kTagEnd ≠ 0 := by
  have hlast : (decide (0 + 1 = (1 : UInt32).toNat) && decide (kAttrEndEe &&& kAttrEndEe ≠ 0)) =
      true := by decide
  have htag : (answerTransfer S r).block.tag =
      (if decide (0 + 1 = (1 : UInt32).toNat) && decide (kAttrEndEe &&& kAttrEndEe ≠ 0) then
        kTagDestEnd else kTagDest) |||
        quadwords ((UInt32.ofNat ((answerTo S r).2 * 4) + 3) / 4) := rfl
  rw [htag, if_pos hlast]
  intro hzero
  have hnat := congrArg UInt32.toNat hzero
  rw [UInt32.toNat_and, UInt32.toNat_or, Nat.and_or_distrib_right] at hnat
  exact absurd (Nat.or_eq_zero_iff.mp hnat).1 (by decide)

/-- A block has landed whole. -/
theorem Sound.deliver (h : Sound S G s) {t : Receiver ℕ} (hdeliver : s.receiver.deliver = some t) :
    Sound S G { s with receiver := t } := by
  obtain ⟨line, hline⟩ := h.link
  obtain ⟨harmed, hlink, hframed, hzero, hsent, -, hee, run, x, rest, block, hfirst, hblock, hquads,
    hof, harmed', hahead⟩ := Receiver.deliver_cases hline h.framed hdeliver
  change t.link.ahead = rest ∨ t.link.ahead = s.link.ahead ∧ x = none at hahead
  change t.link.sent = s.link.sent at hsent
  change s.link.ahead = (run, x) :: rest at hfirst
  change s.link.moved = block.quads at hquads
  change t.ee = s.ee at hee
  -- a packet that lands leaves the packets behind it as they were
  have hmem : (run, x) ∈ s.link.ahead := by
    rw [hfirst]
    exact .head _
  have hfewer : ∀ y ∈ t.link.ahead, y ∈ s.link.ahead := by
    intro y hy
    rcases hahead with hrest | ⟨hsame, -⟩
    · rw [hfirst]
      exact .tail _ (hrest ▸ hy)
    · exact hsame ▸ hy
  have hsame : Same S t.ee s.ee := fun a _ => by rw [hee]
  have hgoes : ¬Ends run → t.armed = true := fun hnot => by
    rw [harmed']
    exact decide_eq_true (tag_of_not_ends hnot hblock)
  refine ⟨hlink, hframed, fun p (hp : p ∈ t.link.sent) => h.owner p (hsent ▸ hp), ?_⟩
  have hcontrol := h.control
  show ControlSound S G _ s.control
  -- whoever does not wait for an answer sees nothing of it
  cases hc : s.control with
  | idle =>
    rw [hc] at hcontrol
    exact ⟨hcontrol.1, fun y hy => hcontrol.2 y (hfewer y hy)⟩
  | running p =>
    rw [hc] at hcontrol
    obtain ⟨hflight, hothers, memory, hmemory, hwp⟩ := hcontrol
    exact ⟨hflight, fun y hy => hothers y (hfewer y hy), memory, hsame.trans hmemory, hwp⟩
  | fetched size =>
    rw [hc] at hcontrol
    obtain ⟨hflight, hothers, memory, hmemory, hgoal⟩ := hcontrol
    exact ⟨hflight, fun y hy => hothers y (hfewer y hy), memory, hsame.trans hmemory, hgoal⟩
  | waiting n r before k =>
    rw [hc] at hcontrol
    obtain ⟨hasked, hphase, memory, hmemory, hwp⟩ := hcontrol
    refine ⟨hasked, ?_, memory, hmemory, hwp⟩
    -- the one that waits: before its answer is queued, and after it has landed, a packet is
    -- another's
    cases hphase with
    | asked _ hflight hnot hpassing hbefore =>
      refine .asked (hgoes (hpassing.2 _ hmem)) hflight
        (fun p (hp : p ∈ t.link.sent) => hnot p (hsent ▸ hp))
        ⟨fun y hy => hpassing.1 y (hfewer y hy), fun y hy => hpassing.2 y (hfewer y hy)⟩
        (hsame.trans hbefore)
    | landed hstopped => exact absurd harmed (by rw [hstopped]; exact Bool.false_ne_true)
    | @queued _ hflight xs ys first p hqueued hxs hys hp howner htransfer hanswer hbefore =>
      -- behind the answer, or in front of it
      rw [hqueued] at hfirst
      cases xs with
      | cons y xs =>
        obtain ⟨rfl, hrest⟩ := List.cons.inj hfirst
        have hxs' : Passing S xs :=
          ⟨fun y hy => hxs.1 y (.tail _ hy), fun y hy => hxs.2 y (.tail _ hy)⟩
        have hstill : ∀ zs, Same S t.ee (Sif.put before r.destination
            (bytesOf (if zs = ([] : List (Run × Option (Parcel ℕ))) then
              p.quads.take t.link.moved else []))) := by
          intro zs
          have hnothing : bytesOf (if zs = [] then p.quads.take t.link.moved else []) = [] := by
            rw [hzero, List.take_zero, ite_self]
            rfl
          rw [hnothing]
          exact hsame.trans hbefore
        have hgo := hgoes (hxs.2 _ (.head _))
        rcases hahead with hnext | ⟨hnext, -⟩
        · exact .queued hgo hflight (hnext.trans hrest.symm) hxs' hys (hsent.symm ▸ hp) howner
            htransfer hanswer (hstill _)
        · exact .queued hgo hflight (hnext.trans hqueued) hxs hys (hsent.symm ▸ hp) howner htransfer
            hanswer (hstill _)
      -- the answer itself: its bytes are where the request wants them
      | nil =>
        obtain ⟨heq, rfl⟩ := List.cons.inj hfirst
        obtain ⟨rfl, rfl⟩ := Prod.mk.inj heq
        obtain rfl := hof p rfl
        have hrest : t.link.ahead = ys := hahead.resolve_right fun hboth => nomatch hboth.2
        have hintact : p.quads = quadsOf s.link.memory p.transfer.block := by
          refine hline.intact p ?_
          rw [← hline.ahead_snd, hqueued]
          exact .head _
        rw [if_pos rfl, hquads, hintact, take_quadsOf (Nat.le_refl _), ← quadsOf, ← hintact]
          at hbefore
        have hlength : (bytesOf p.quads).length = landing S r := by
          rw [hintact, quadsOf, bytesOf_quadsOf, List.length_map, List.length_range, htransfer]
          rfl
        have hlands : Same S t.ee (Sif.put before r.destination (bytesOf p.quads)) :=
          hsame.trans hbefore
        obtain ⟨line', hline'⟩ := hlink
        -- it has left the link whole
        have hwhole := hline'.landed_of_sent (hsent.symm ▸ hp) fun hwaits => by
          rw [← hline'.ahead_snd, hrest] at hwaits
          obtain ⟨y, hy, heq⟩ := List.mem_map.mp hwaits
          exact Option.some_ne_none p (heq.symm.trans (hys y hy).1)
        refine .landed ?_ hflight (hys.congr hrest)
          ⟨p, hsent.symm ▸ hp, howner, htransfer, hwhole, ?_⟩ hlength hanswer hlands
        · show t.armed = false
          rw [harmed', htransfer]
          exact decide_eq_false answer_ends
        · intro j b hb
          have hj : j < landing S r := by
            rw [← hlength]
            exact (List.getElem?_eq_some_iff.mp (getElem?_of_begins hanswer hb)).1
          show t.ee _ = b
          rw [hlands _ (hwp.1.2 j hj)]
          have hsmall := (answer_lands hwp.1).2
          exact put_add (getElem?_of_begins hanswer hb) (by rw [hlength, landing]; omega)

/-- The kernel reads and writes EE memory as it sees it. -/
theorem Sound.compute (h : Sound S G s) {o : Op} {k : o.Reply → Kernel UInt32}
    (hc : s.control = .running (.ask o k)) {reply : o.Reply} {ee : UInt32 → UInt8}
    (hrelied : ∀ memory, Same S s.ee memory → allowed S o → Relied S memory o reply)
    (hsame : ∀ memory, Same S s.ee memory → allowed S o → Same S ee (seen memory o reply)) :
    Sound S G { s.setEe ee with control := .running (k reply) } := by
  have hcontrol := h.control
  rw [hc] at hcontrol
  obtain ⟨hflight, hothers, memory, hmemory, hallowed, hnext⟩ := hcontrol
  exact ⟨h.link, h.framed, h.owner, hflight, hothers, _, hsame memory hmemory hallowed,
    hnext reply (hrelied memory hmemory hallowed)⟩

/-- A word of the buffers is the same in memories that agree there. -/
theorem wordAt_congr {ee ee' : UInt32 → UInt8} (h : Same S ee ee') {address : UInt32}
    (hroom : ∀ k < 4, S.buffers (address + UInt32.ofNat k)) :
    wordAt ee address = wordAt ee' address := by
  have hzero := hroom 0 (by decide)
  rw [show UInt32.ofNat 0 = 0 from rfl, UInt32.add_zero] at hzero
  unfold wordAt
  rw [h _ hzero, h (address + 1) (hroom 1 (by decide)), h (address + 2) (hroom 2 (by decide)),
    h (address + 3) (hroom 3 (by decide))]

theorem slice_congr {ee ee' : UInt32 → UInt8} (h : Same S ee ee') {address : UInt32} {n : ℕ}
    (hroom : ∀ k < n, S.buffers (address + UInt32.ofNat k)) :
    slice ee address n = slice ee' address n :=
  List.map_congr_left fun k hk => h _ (hroom k (List.mem_range.mp hk))

/-- An exchange begins. -/
theorem Sound.ask (h : Sound S G s) {k : (UInt32 → UInt8) → Kernel UInt32}
    (hc : s.control = .running (.ask (.sifExchange r) k)) (hfits : ∀ x ∈ s.link.ahead, ¬Ends x.1) :
    Sound S G { s with
      receiver := { s.receiver with armed := true }
      inFlight := s.inFlight ++ [(s.asked, r)]
      control := .waiting s.asked r s.ee k
      asked := s.asked + 1 } := by
  have hcontrol := h.control
  rw [hc] at hcontrol
  obtain ⟨hflight, hothers, memory, hmemory, hwp⟩ := hcontrol
  refine ⟨h.link, h.framed, fun p hp => Nat.lt_succ_of_lt (h.owner p hp), Nat.lt_succ_self _, ?_,
    memory, hmemory, hwp⟩
  refine .asked rfl (.inl ?_) (fun p hp => Nat.ne_of_lt (h.owner p hp))
    ⟨hothers, hfits⟩ fun _ _ => rfl
  show s.inFlight ++ [(s.asked, r)] = [(s.asked, r)]
  rw [hflight, List.nil_append]

/-- An exchange returns. -/
theorem Sound.returns (h : Sound S G s) {k : (UInt32 → UInt8) → Kernel UInt32}
    (hc : s.control = .waiting n r before k) (hstopped : s.receiver.armed = false) :
    Sound S G { s with control := .running (k s.ee) } := by
  have hcontrol := h.control
  rw [hc] at hcontrol
  obtain ⟨-, hphase, memory, hmemory, hwp⟩ := hcontrol
  have hnot : s.receiver.armed ≠ true := by
    rw [hstopped]
    exact Bool.false_ne_true
  cases hphase with
  | asked harmed => exact absurd harmed hnot
  | queued harmed => exact absurd harmed hnot
  | @landed _ hflight hothers hanswered bytes hlength hanswer hsame =>
    exact ⟨h.link, h.framed, h.owner, hflight, hothers, s.ee, fun _ _ => rfl,
      hwp.2 s.ee ⟨bytes, hlength, hanswer, hsame.trans (hmemory.put _ _)⟩⟩

/-- A program in user mode does with EE memory and the channel what it likes. -/
theorem Sound.program (h : Sound S G s) (hc : s.control = .idle) (armed : Bool)
    (ee : UInt32 → UInt8) :
    Sound S G { s with receiver := { s.receiver with armed := armed, ee := ee } } := by
  have hcontrol := h.control
  rw [hc] at hcontrol
  refine ⟨h.link, h.framed, h.owner, ?_⟩
  show ControlSound S G _ s.control
  rw [hc]
  exact hcontrol

/-- IOP memory that is not EESYNC's is written. -/
theorem Sound.write (h : Sound S G s) (address : UInt32) (value : UInt8)
    (hout : ∀ k < kPayloadBytes, address ≠ S.payload + UInt32.ofNat k) :
    Sound S G (s.setLink (s.link.store address [value])) := by
  obtain ⟨line, hline⟩ := h.link
  have hwaits : ∀ k < [value].length, ¬s.link.Waits (address + UInt32.ofNat k) := by
    intro k hk
    obtain rfl : k = 0 := Nat.lt_one_iff.mp hk
    rw [show UInt32.ofNat 0 = 0 from rfl, UInt32.add_zero]
    -- only the answer that is on its way may be a parcel, and it is taken from the payload
    have hparcels : ∀ p, some p ∈ s.link.undelivered → ∃ r, p.transfer = answerTransfer S r := by
      intro p hp
      rw [← hline.ahead_snd] at hp
      obtain ⟨x, hx, heq⟩ := List.mem_map.mp hp
      have hsome : x.2 ≠ none := by
        rw [heq]
        exact Option.some_ne_none p
      have hcontrol := h.control
      cases hc : s.control with
      | idle => rw [hc] at hcontrol; exact absurd (hcontrol.2 x hx) hsome
      | running => rw [hc] at hcontrol; exact absurd (hcontrol.2.1 x hx).1 hsome
      | fetched => rw [hc] at hcontrol; exact absurd (hcontrol.2.1 x hx).1 hsome
      | waiting n r before k =>
        rw [hc] at hcontrol
        cases hcontrol.2.1 with
        | asked _ _ _ hpassing => exact absurd (hpassing.1 x hx).1 hsome
        | landed _ _ hothers => exact absurd (hothers x hx).1 hsome
        | queued _ _ hqueued hxs hys _ _ htransfer =>
          rw [hqueued, List.mem_append, List.mem_cons] at hx
          rcases hx with hx | rfl | hx
          · exact absurd (hxs.1 x hx).1 hsome
          · exact ⟨r, Option.some.inj heq ▸ htransfer⟩
          · exact absurd (hys x hx).1 hsome
    rintro ⟨p, hp, j, hj, heq⟩
    obtain ⟨r, hr⟩ := hparcels p hp
    have hlanding : 16 * (answerTransfer S r).block.quads = _ := landing_eq
    have hwords : (answerTo S r).2 ≤ 4096 := answerTo_words
    have hmax : kPayloadBytes = 16384 := rfl
    rw [hr] at hj heq
    refine hout j (by omega) (heq.trans ?_)
    rw [show Bus.source (answerTransfer S r).block = S.payload from
      (Link.source_block _).trans S.payload_physical]
  exact h.setLink ⟨line, hline.store hwaits⟩ ⟨h.framed.ended, h.framed.within⟩
    (List.append_nil _).symm rfl rfl rfl nofun (fun _ => nofun) fun _ _ _ _ _ _ => nofun

/-- Another module hands over a run. -/
theorem Sound.send (h : Sound S G s) (list : ℕ → Transfer) (count function arg : UInt32)
    (hfits : Fits S s (.send list count function arg)) :
    Sound S G (s.setLink (s.link.queue list count function arg none).2) := by
  obtain ⟨line, hline⟩ := h.link
  have hlink : ∃ line', (s.link.queue list count function arg none).2.Sound line' :=
    hline.queue list count function arg nofun nofun
  have hframed := h.framed.queue hline list count function arg hlink
  by_cases hrefused : count = 0 ∨ kTransfersMax < count ∨ s.link.sifman.sendQueued = kSendGroups
  · have hsame : s.link.queue list count function arg none = (0, s.link) := by
      unfold Link.queue
      rw [queueTransfers_refused hrefused]
      rfl
    rw [hsame]
    exact h.setLink ⟨line, hline⟩ h.framed (List.append_nil _).symm rfl rfl rfl nofun
      (fun _ => nofun) fun _ _ _ _ _ _ => nofun
  · obtain ⟨havoids, hends⟩ := hfits hrefused
    have hsent : (s.link.queue list count function arg none).2.sent = s.link.sent := by
      rcases hline.queue_eq list count function arg none with heq | ⟨-, -, hsent⟩
      · rw [heq]
      · exact hsent.trans (List.append_nil _)
    refine h.setLink hlink hframed (hline.ahead_queue list function arg none hrefused) rfl hsent rfl
      (fun x hx => ?_) (fun hne x hx => ?_) fun n r before k hc hnot x hx => ?_
    · rw [List.mem_singleton.mp hx]
    · rw [List.mem_singleton.mp hx]
      exact havoids hne
    · rw [List.mem_singleton.mp hx]
      exact hends n r before k hc hnot

/-- **A step**, other than a fetch being begun. -/
theorem Sound.advance (h : Sound S G s) {e : Event} (hst : Step S s e t) (hfits : Fits S s e)
    (hgoes : ∀ name target, e ≠ .fetch name target) : Sound S G t := by
  have hcontrol := h.control
  cases hst with
  | fetch name target => exact absurd rfl (hgoes name target)
  | ask hc => exact h.ask hc (hfits _ _ hc).2
  | returns hc hstopped => exact h.returns hc hstopped
  | load hc =>
    exact h.compute hc (fun memory hmemory hallowed => wordAt_congr hmemory hallowed)
      fun memory hmemory _ => hmemory
  | copyBytes hc =>
    refine h.compute hc (fun _ _ _ => trivial) fun memory hmemory hallowed => ?_
    rw [slice_congr hmemory hallowed]
    exact hmemory.put _ _
  | clear hc =>
    refine h.compute hc (fun _ _ _ => trivial) fun memory hmemory _ a ha => ?_
    show (if _ then 0 else s.ee a) = if _ then 0 else memory a
    rw [hmemory a ha]
  | done hc =>
    rw [hc] at hcontrol
    exact ⟨h.link, h.framed, h.owner, hcontrol⟩
  | leave hc =>
    rw [hc] at hcontrol
    exact ⟨h.link, h.framed, h.owner, hcontrol.1, fun x hx => (hcontrol.2.1 x hx).1⟩
  | chain start hc => exact h.program hc start s.ee
  | poke address value hc => exact h.program hc s.receiver.armed _
  | serve hflight => exact h.serve hflight
  | send list count function arg => exact h.send list count function arg hfits
  | write address value hout => exact h.write address value hout
  | move hmove => exact h.move hmove
  | deliver hdeliver => exact h.deliver hdeliver
  | interrupt hinterrupt =>
    obtain ⟨line, hline⟩ := h.link
    have hmoved : _ = s.link.moved := Link.moved_interrupt hinterrupt
    exact h.setLink (hline.interrupt hinterrupt) (h.framed.interrupt hline hinterrupt)
      ((hline.ahead_interrupt hinterrupt).trans (List.append_nil _).symm) hmoved
      (hline.fewer_interrupt hinterrupt).2 (Link.arrived_interrupt hinterrupt) nofun
      (fun _ => nofun) fun _ _ _ _ _ _ => nofun

/-- A fetch of the kernel's, to where there is room for the file. -/
def Arrives (S : Site) : Goal := fun name target size memory =>
  Roomy S name target ∧ Staged S name target size memory

/-- A fitting step keeps the exchange sound. -/
theorem Sound.step (h : Sound S (Arrives S) s) {e : Event} (hst : Step S s e t)
    (hfits : Fits S s e) : Sound S (Arrives S) t := by
  by_cases hfetch : ∃ name target, e = .fetch name target
  · obtain ⟨name, target, rfl⟩ := hfetch
    have hcontrol := h.control
    cases hst with
    | fetch _ _ hc hroomy =>
      rw [hc] at hcontrol
      exact ⟨h.link, h.framed, h.owner, hcontrol.1, fun x hx => ⟨hcontrol.2 x hx, hfits x hx⟩,
        s.ee, fun _ _ => rfl, Prog.wp_mono (stage_wp hroomy) fun _ _ hstaged => ⟨hroomy, hstaged⟩⟩
  · exact h.advance hst hfits fun name target heq => hfetch ⟨name, target, heq⟩

/-- **An exchange returns with its own answer, and a fetch with its file**, in every state of a run
in which no run that ends the channel is ahead of an answer, or lands in the kernel's buffers. -/
theorem exchange_returns_its_answer {memory ee : UInt32 → UInt8} {l : List Event}
    (h : Steps (fun s e t => Step S s e t ∧ Fits S s e) (State.start memory ee) l s) :
    (∀ n r before k, s.control = .waiting n r before k → s.receiver.armed = false →
      Answered S s n r) ∧ ∀ size, s.control = .fetched size → Fetched S s size := by
  have hsound : Sound S (Arrives S) s :=
    h.invariant (fun _ _ _ hsound hst => hsound.step hst.1 hst.2) (sound_start memory ee)
  have hcontrol := hsound.control
  constructor
  · intro n r before k hc hstopped
    have hnot : s.receiver.armed ≠ true := by
      rw [hstopped]
      exact Bool.false_ne_true
    rw [hc] at hcontrol
    cases hcontrol.2.1 with
    | asked harmed => exact absurd harmed hnot
    | queued harmed => exact absurd harmed hnot
    | landed _ _ _ hanswered => exact hanswered
  · intro size hc
    rw [hc] at hcontrol
    obtain ⟨-, -, after, hafter, hroomy, hsize, hfile⟩ := hcontrol
    refine ⟨hsize, fun file hsome k x hx => ?_⟩
    have hk := (List.getElem?_eq_some_iff.mp hx).1
    have hin := (hroomy file hsome k (by omega)).1
    exact (hafter _ hin).trans (hfile file hsome k x hk hx)

/-! ### An answer, and a run that is none -/

/-- One file of four bytes, under any name. -/
def oneFile : Site where
  lookup _ := some [1, 2, 3, 4]
  small _ _ h := by
    obtain rfl := Option.some.inj h
    decide
  payload := 0x10000
  payload_physical := rfl
  buffers a := a.toNat < 0x10000000
  buffers_physical a h := by
    apply UInt32.toNat_inj.mp
    unfold physical
    rw [UInt32.toNat_and]
    exact (Nat.and_two_pow_sub_one_eq_mod a.toNat 29).trans (Nat.mod_eq_of_lt (by omega))
  sifReply := 0x20000
  bounce := 0x30000
  sifReply_buffers k hk := by
    rw [UInt32.toNat_add, UInt32.toNat_ofNat_of_lt' (show k < 2 ^ 32 by omega)]
    show (0x20000 + k) % 2 ^ 32 < 0x10000000
    omega
  bounce_buffers k hk := by
    have hwindow : kWindow = 0x4000 := rfl
    rw [UInt32.toNat_add, UInt32.toNat_ofNat_of_lt' (show k < 2 ^ 32 by omega)]
    show (0x30000 + k) % 2 ^ 32 < 0x10000000
    omega

/-- The one file has room at 0x82000. -/
theorem roomy_oneFile (name : List UInt8) : Roomy oneFile name 0x82000 := by
  intro file hfile k hk
  obtain rfl := Option.some.inj hfile
  change k < 16 at hk
  have hnat : ((0x82000 : UInt32) + UInt32.ofNat k).toNat = 0x82000 + k := by
    rw [UInt32.toNat_add, UInt32.toNat_ofNat_of_lt' (show k < 2 ^ 32 by omega)]
    show (0x82000 + k) % 2 ^ 32 = 0x82000 + k
    omega
  refine ⟨?_, fun j hj heq => ?_⟩
  · show ((0x82000 : UInt32) + UInt32.ofNat k).toNat < 0x10000000
    omega
  · have hwindow : kWindow = 0x4000 := rfl
    have heq' := congrArg UInt32.toNat heq
    rw [hnat, UInt32.toNat_add, UInt32.toNat_ofNat_of_lt' (show j < 2 ^ 32 by omega)] at heq'
    have hbounce : 0x82000 + k = (0x30000 + j) % 2 ^ 32 := heq'
    omega

/-- The file is to be fetched. -/
def begun (memory ee : UInt32 → UInt8) : State :=
  { State.start memory ee with
    control := .running (stage oneFile [65] 0x82000)
    name := [65]
    target := 0x82000 }

theorem fetch_oneFile {memory ee : UInt32 → UInt8} :
    Step oneFile (State.start memory ee) (.fetch [65] 0x82000) (begun memory ee) :=
  .fetch _ _ _ rfl (roomy_oneFile _)

/-- The steps that compute. -/
def perform (s : State) : Event → Option State
  | .run =>
    match s.control with
    | .running (.ask (.sifExchange r) k) =>
      some { s with
        receiver := { s.receiver with armed := true }
        inFlight := s.inFlight ++ [(s.asked, r)]
        control := .waiting s.asked r s.ee k
        asked := s.asked + 1 }
    | _ => none
  | .serve =>
    match s.inFlight with
    | (n, r) :: rest => some { s.setLink (serveFile oneFile s.link n r) with inFlight := rest }
    | [] => none
  | .send list count function arg =>
    some (s.setLink (s.link.queue list count function arg none).2)
  | .move => s.receiver.move.map fun t => { s with receiver := t }
  | .deliver => s.receiver.deliver.map fun t => { s with receiver := t }
  | _ => none

/-- What `perform` computes is a step. -/
theorem step_of_perform (s : State) (e : Event) (t : State) (h : perform s e = some t) :
    Step oneFile s e t := by
  cases e with
  | run =>
    simp only [perform] at h
    split at h
    · next r k hc =>
      obtain rfl := Option.some.inj h
      exact .ask s hc
    · cases h
  | serve =>
    simp only [perform] at h
    split at h
    · next n r rest hflight =>
      obtain rfl := Option.some.inj h
      exact .serve s hflight
    · cases h
  | send list count function arg =>
    obtain rfl := Option.some.inj h
    exact .send s list count function arg
  | move =>
    obtain ⟨t', ht', rfl⟩ := Option.map_eq_some_iff.mp h
    exact .move s ht'
  | deliver =>
    obtain ⟨t', ht', rfl⟩ := Option.map_eq_some_iff.mp h
    exact .deliver s ht'
  | _ => cases h

/-- No other module's run is there when an exchange begins. -/
def performAlone (s : State) : Event → Option State
  | .run => if s.link.moved = 0 ∧ s.link.ahead.length = 0 then perform s .run else none
  | .send _ _ _ _ => none
  | e => perform s e

/-- What `performAlone` computes is a step that fits. -/
theorem step_of_performAlone (s : State) (e : Event) (t : State) (h : performAlone s e = some t) :
    Step oneFile s e t ∧ Fits oneFile s e := by
  cases e with
  | run =>
    simp only [performAlone] at h
    split at h
    · next halone =>
      refine ⟨step_of_perform s _ t h, fun r k _ => ⟨halone.1, fun x hx => ?_⟩⟩
      rw [List.length_eq_zero_iff.mp halone.2] at hx
      cases hx
    · cases h
  | send list count function arg => cases h
  | fetch name target => cases h
  | _ => exact ⟨step_of_perform s _ t h, trivial⟩

/-- The kernel asks how large the file is, and is told. -/
theorem size_answered :
    ∃ l s r before k, Steps (fun s e t => Step oneFile s e t ∧ Fits oneFile s e)
        (State.start (fun _ => 0) fun _ => 0) l s ∧
      s.control = .waiting 0 r before k ∧ s.receiver.armed = false ∧
      Answered oneFile s 0 r := by
  obtain ⟨s, r, before, k, hrun, hc, hstopped⟩ : ∃ s r before k,
      runList performAlone (begun (fun _ => 0) fun _ => 0)
        [.run, .serve, .move, .deliver] = some s ∧
      s.control = .waiting 0 r before k ∧ s.receiver.armed = false :=
    ⟨_, _, _, _, rfl, rfl, by decide +kernel⟩
  have hsteps : Steps (fun s e t => Step oneFile s e t ∧ Fits oneFile s e)
      (State.start (fun _ => 0) fun _ => 0)
      [.fetch [65] 0x82000, .run, .serve, .move, .deliver] s :=
    .cons ⟨fetch_oneFile, nofun⟩ (.of_runList step_of_performAlone hrun)
  exact ⟨_, s, r, before, k, hsteps, hc, hstopped,
    (exchange_returns_its_answer hsteps).1 0 r before k hc hstopped⟩

/-- A run of another module's ends the channel that the kernel has started: the exchange returns,
and EESYNC has not been asked yet. -/
theorem stopped_by_another :
    ¬∀ (S : Site) (memory ee : UInt32 → UInt8) (l : List Event) (s : State),
      Steps (Step S) (State.start memory ee) l s → ∀ n r before k,
        s.control = .waiting n r before k → s.receiver.armed = false → Answered S s n r := by
  obtain ⟨s, r, before, k, hrun, hc, hstopped, hsent⟩ : ∃ s r before k,
      runList perform (begun (fun _ => 0) fun _ => 0)
        [.send (fun _ => ⟨0x8000, 0x200000, 16, kAttrEndEe⟩) 1 0 0, .run, .move, .deliver] =
        some s ∧
      s.control = .waiting 0 r before k ∧ s.receiver.armed = false ∧ s.link.sent = [] :=
    ⟨_, _, _, _, rfl, rfl, by decide +kernel, rfl⟩
  have hsteps : Steps (Step oneFile) (State.start (fun _ => 0) fun _ => 0)
      [.fetch [65] 0x82000, .send (fun _ => ⟨0x8000, 0x200000, 16, kAttrEndEe⟩) 1 0 0, .run, .move,
        .deliver] s :=
    .cons fetch_oneFile (.of_runList step_of_perform hrun)
  intro hall
  obtain ⟨p, hp, -⟩ := hall oneFile _ _ _ s hsteps 0 r before k hc hstopped
  rw [hsent] at hp
  cases hp

end PS2Bios.Eesync
