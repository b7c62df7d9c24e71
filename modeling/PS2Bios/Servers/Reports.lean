import PS2Bios.Library.Run
import PS2Bios.Servers.Fileio
import PS2Bios.Servers.Loadfile
import PS2Bios.Servers.Mcserv

/-!
# What the servers report

The four servers run on threads of their own, in any order with each other, with the modules that
queue runs of theirs, with the requests that land and with the channel. An answer may report bytes
that no transfer carries, as a transfer that the full ring refuses is not handed over again
(`full_ring`). In a run in which no server hands a transfer to a full ring, and nothing writes what
a transfer is still to be taken from, every answer is borne out (`reports_are_delivered`): the last
is a condition on MCSERV, which may not wait long enough, and on requests, which may land where a
search's answer is taken from.
-/

namespace PS2Bios.Servers

open Sif

/-- Each server's `serve`. -/
def serve (L : Layout) : Service → UInt32 → Server Answer
  | .fileio, fno => Fileio.serve L fno
  | .loadfile, fno => Loadfile.serve L fno
  | .cdvdfsv, _ => Cdvdfsv.serveSearch L
  | .mcserv, fno => Mcserv.serve L fno

/-- Where the thread of a server is, and which transfers it has handed over since the request, each
with what `sifSetDma` answered. -/
inductive Job
  | idle
  | serving (rest : Server Answer) (handed : List (Transfer × UInt32))
  | answered (answer : Answer) (handed : List (Transfer × UInt32))

/-- The link between the processors, and what each server is doing. -/
structure State where
  link : Link Service
  job : Service → Job

/-- The servers before the first request. -/
def State.start (memory : UInt32 → UInt8) : State := ⟨.start memory, fun _ => .idle⟩

/-- What an operation may be replied. A wait goes on until no run is queued. -/
def Answers (l : Link Service) (i : Service) : (o : Op) → o.Reply → Prop
  | .load a n, r => r.1 = l.load a n
  | .setDma t, r => r = (l.setDma i t).1
  | .dmaStat, r => r = l.sifman.sifDmaStat
  | .await, _ => l.sifman.sifDmaStat < 0
  | _, _ => True

/-- What an operation leaves. -/
def after (l : Link Service) (i : Service) : (o : Op) → o.Reply → Link Service
  | .store a bytes, _ => l.store a bytes
  | .call c, r => c.buffer?.elim l fun b => l.store b.1 (Call.Reply.bytes r)
  | .setDma t, _ => (l.setDma i t).2
  | _, _ => l

/-- The transfers handed to SIFMAN, with the ids they were given. -/
def handedAfter (handed : List (Transfer × UInt32)) : (o : Op) → o.Reply →
    List (Transfer × UInt32)
  | .setDma t, (id : UInt32) => handed ++ [(t, id)]
  | _, _ => handed

/-- What one server is doing. -/
def State.setJob (s : State) (i : Service) (job : Job) : State :=
  { s with job := Function.update s.job i job }

/-- What can happen next. -/
inductive Event
  /-- A server turns to its next request. -/
  | call (i : Service) (fno : UInt32)
  /-- A server's thread goes on. -/
  | run (i : Service)
  /-- The words of a request land. -/
  | request (i : Service) (bytes : List UInt8)
  /-- Another module hands over a run. -/
  | send (list : ℕ → Transfer) (count function arg : UInt32)
  /-- Memory that is no server's changes. -/
  | write (address : UInt32) (value : UInt8)
  | move
  | deliver
  | interrupt

/-- One of them. A request is taken to fit its server's buffer: the EE asks for the size, which the
receiver of the requests does not compare with the buffer. -/
inductive Step (L : Layout) : State → Event → State → Prop
  | call (s : State) (i : Service) (fno : UInt32)
      (h : ∀ rest handed, s.job i ≠ .serving rest handed) :
      Step L s (.call i fno) (s.setJob i (.serving (serve L i fno) []))
  | ask (s : State) (i : Service) {o : Op} {k : o.Reply → Server Answer}
      {handed : List (Transfer × UInt32)} (h : s.job i = .serving (.ask o k) handed) (r : o.Reply)
      (hr : Answers s.link i o r) :
      Step L s (.run i)
        ({ s with link := after s.link i o r }.setJob i
          (.serving (k r) (handedAfter handed o r)))
  | answer (s : State) (i : Service) {a : Answer} {handed : List (Transfer × UInt32)}
      (h : s.job i = .serving (.ret a) handed) :
      Step L s (.run i) (s.setJob i (.answered a handed))
  | request (s : State) (i : Service) {bytes : List UInt8} (h : bytes.length ≤ kRequestBytes i) :
      Step L s (.request i bytes) { s with link := s.link.store (L.request i) bytes }
  | send (s : State) (list : ℕ → Transfer) (count function arg : UInt32) :
      Step L s (.send list count function arg)
        { s with link := (s.link.queue list count function arg none).2 }
  | write (s : State) {address : UInt32} (value : UInt8) (h : ∀ i, ¬L.own i address) :
      Step L s (.write address value) { s with link := s.link.store address [value] }
  | move (s : State) {l : Link Service} (h : s.link.move = some l) :
      Step L s .move { s with link := l }
  | deliver (s : State) {l : Link Service} (h : s.link.deliver = some l) :
      Step L s .deliver { s with link := l }
  | interrupt (s : State) {l : Link Service} (h : s.link.interrupt = some l) :
      Step L s .interrupt { s with link := l }

/-- What an operation is replied, if it is a call with the value and the bytes it leaves. -/
def replyTo (l : Link Service) (i : Service) (value : ℤ) (bytes : List UInt8) :
    (o : Op) → Option o.Reply
  | .load a n => some ⟨l.load a n, by rw [Link.load, List.length_map, List.length_range]⟩
  | .store _ _ => some ()
  | .call c =>
    if h : bytes.length ≤ c.room ∧ c.count?.all fun n => decide (value ≤ (n : ℤ)) then
      some ⟨value, bytes, 0, h.1, fun n hn => by simpa [hn] using h.2⟩
    else none
  | .setDma t => some (l.setDma i t).1
  | .dmaStat => some l.sifman.sifDmaStat
  | .await => if l.sifman.sifDmaStat < 0 then some () else none
  | .delay => some ()

/-- A server's thread goes on. -/
def State.next (s : State) (i : Service) (value : ℤ) (bytes : List UInt8) : Option State :=
  match s.job i with
  | .serving (.ask o k) handed =>
    (replyTo s.link i value bytes o).map fun r =>
      { s with link := after s.link i o r }.setJob i (.serving (k r) (handedAfter handed o r))
  | .serving (.ret a) handed => some (s.setJob i (.answered a handed))
  | _ => none

/-- The steps that compute; `value` and `bytes` are what a call is replied. -/
def State.perform (L : Layout) (s : State) (value : ℤ) (bytes : List UInt8) : Event → Option State
  | .call i fno =>
    match s.job i with
    | .serving _ _ => none
    | _ => some (s.setJob i (.serving (serve L i fno) []))
  | .run i => s.next i value bytes
  | .request i bytes =>
    if bytes.length ≤ kRequestBytes i then
      some { s with link := s.link.store (L.request i) bytes }
    else none
  | .send list count function arg =>
    some { s with link := (s.link.queue list count function arg none).2 }
  | .write _ _ => none
  | .move => s.link.move.map fun l => { s with link := l }
  | .deliver => s.link.deliver.map fun l => { s with link := l }
  | .interrupt => s.link.interrupt.map fun l => { s with link := l }

/-- The operation finds room in the ring, and MCSERV does not write what is still to be taken. -/
def Room (s : State) (i : Service) : Op → Prop
  | .setDma _ => s.link.sifman.sendQueued ≠ kSendGroups
  | .store a bytes => i = .mcserv → ∀ k < bytes.length, ¬s.link.Waits (a + UInt32.ofNat k)
  | .call c => i = .mcserv → ∀ b, c.buffer? = some b →
      ∀ k < b.2, ¬s.link.Waits (b.1 + UInt32.ofNat k)
  | _ => True

/-- A step that the servers do not go wrong in. -/
def Fits (L : Layout) (s : State) : Event → Prop
  | .run i => ∀ o k handed, s.job i = .serving (.ask o k) handed → Room s i o
  | .request i bytes => ∀ k < bytes.length, ¬s.link.Waits (L.request i + UInt32.ofNat k)
  | _ => True

/-- An answer is borne out: every transfer since the request was accepted, they carry all that is
reported, and once the ring has drained they have landed as they were handed over. EE memory then
holds what they carried where it has not been written again. -/
structure Reported (s : State) (i : Service) (a : Answer) (handed : List (Transfer × UInt32)) :
    Prop where
  accepted : ∀ h ∈ handed, h.2 ≠ 0
  carried : ∀ d ∈ a.delivered, Carry (handed.map Prod.fst) d.1 d.2
  landed : s.link.sifman.sendQueued = 0 → ∃ earlier parcels,
    s.link.sent.filter (·.owner = i) = earlier ++ parcels ∧
      parcels.map Parcel.transfer = handed.map Prod.fst ∧
      ∀ p ∈ parcels, ∃ before after, s.link.arrived = before ++ p.quads ++ after ∧
        ∀ address, byteAt p.quads address ≠ none →
          (∀ q ∈ after, q.bytes[(address - q.address).toNat]? = none) →
            byteAt s.link.arrived address = byteAt p.quads address

/-- The reply computed is an answer of the link. -/
theorem answers_of_replyTo {l : Link Service} {i : Service} {value : ℤ} {bytes : List UInt8}
    {o : Op} {r : o.Reply} (h : replyTo l i value bytes o = some r) : Answers l i o r := by
  cases o with
  | load a n => exact (congrArg Subtype.val (Option.some.inj h)).symm
  | setDma t => exact (Option.some.inj h).symm
  | dmaStat => exact (Option.some.inj h).symm
  | await =>
    by_contra hstat
    exact nomatch h.symm.trans (if_neg hstat)
  | _ => trivial

/-- What `State.next` computes is a step. -/
theorem Step.of_next {L : Layout} {s t : State} {i : Service} {value : ℤ} {bytes : List UInt8}
    (h : s.next i value bytes = some t) : Step L s (.run i) t := by
  unfold State.next at h
  split at h
  · next o k handed hjob =>
    obtain ⟨r, hr, rfl⟩ := Option.map_eq_some_iff.mp h
    exact .ask s i hjob r (answers_of_replyTo hr)
  · next a handed hjob =>
    obtain rfl := Option.some.inj h
    exact .answer s i hjob
  · cases h

/-- What `perform` computes is a step. -/
theorem Step.of_perform {L : Layout} {s t : State} {value : ℤ} {bytes : List UInt8} {e : Event}
    (h : s.perform L value bytes e = some t) : Step L s e t := by
  cases e with
  | call i fno =>
    unfold State.perform at h
    dsimp only at h
    split at h
    · cases h
    · next hnot =>
      obtain rfl := Option.some.inj h
      exact .call s i fno fun rest handed heq => hnot rest handed heq
  | run i => exact .of_next h
  | request i bytes =>
    unfold State.perform at h
    dsimp only at h
    split at h
    · next hlen =>
      obtain rfl := Option.some.inj h
      exact .request s i hlen
    · cases h
  | send list count function arg =>
    obtain rfl := Option.some.inj h
    exact .send s list count function arg
  | write address value => cases h
  | move =>
    obtain ⟨l, hl, rfl⟩ := Option.map_eq_some_iff.mp h
    exact .move s hl
  | deliver =>
    obtain ⟨l, hl, rfl⟩ := Option.map_eq_some_iff.mp h
    exact .deliver s hl
  | interrupt =>
    obtain ⟨l, hl, rfl⟩ := Option.map_eq_some_iff.mp h
    exact .interrupt s hl

/-! ### What every state keeps -/

/-- A server has no transfer still to be moved. -/
def Idle (l : Link Service) (i : Service) : Prop :=
  ∀ p, some p ∈ l.undelivered → p.owner ≠ i

/-- What a server has handed over was accepted, and is the last it has sent. -/
def Accepted (l : Link Service) (i : Service) (handed : List (Transfer × UInt32)) : Prop :=
  (∀ h ∈ handed, h.2 ≠ 0) ∧
    ∃ earlier, (l.sent.filter (·.owner = i)).map Parcel.transfer = earlier ++ handed.map Prod.fst

/-- A server's job is as the link has it: what it has handed over was accepted, and what it will
answer was delivered. -/
def JobSound (L : Layout) (l : Link Service) (i : Service) : Job → Prop
  | .idle => i = .mcserv ∨ Idle l i
  | .serving rest handed => Accepted l i handed ∧
      ∃ w : Watch, rest.wp (watch L i) (Delivered i) w ∧ w.sent = handed.map Prod.fst ∧
        (w.Quiet i → i = .mcserv ∨ Idle l i)
  | .answered a handed => Accepted l i handed ∧ (i = .mcserv ∨ Idle l i) ∧
      ∀ d ∈ a.delivered, Carry (handed.map Prod.fst) d.1 d.2

/-- The link is in order, what is under way on it is the servers' own, and so is each job. -/
structure Sound (L : Layout) (s : State) : Prop where
  link : ∃ line, s.link.Sound line
  own : ∀ p, some p ∈ s.link.undelivered → ∀ a, p.transfer.Reads a → L.own p.owner a
  job : ∀ i, JobSound L s.link i (s.job i)

section Keeping

variable {L : Layout} {s : State} {l l' : Link Service} {i : Service} {job : Job}
  {handed : List (Transfer × UInt32)}

theorem sound_start (memory : UInt32 → UInt8) : Sound L (State.start memory) where
  link := ⟨_, Link.sound_start memory⟩
  own := nofun
  job _ := .inr nofun

theorem Idle.mono (h : Idle l i)
    (hsub : ∀ p, some p ∈ l'.undelivered → p.owner = i → some p ∈ l.undelivered) : Idle l' i :=
  fun p hp howner => h p (hsub p hp howner) howner

/-- What was accepted of a server stays so while its own transfers are the same. -/
theorem Accepted.mono (h : Accepted l i handed)
    (hsent : l'.sent.filter (·.owner = i) = l.sent.filter (·.owner = i)) :
    Accepted l' i handed := by
  unfold Accepted
  rw [hsent]
  exact h

/-- What a server does not notice. -/
theorem JobSound.mono (h : JobSound L l i job)
    (hsub : ∀ p, some p ∈ l'.undelivered → p.owner = i → some p ∈ l.undelivered)
    (hsent : l'.sent.filter (·.owner = i) = l.sent.filter (·.owner = i)) :
    JobSound L l' i job := by
  cases job with
  | idle => exact h.imp_right fun hidle => hidle.mono hsub
  | serving rest handed =>
    obtain ⟨haccepted, w, hwp, hw, hquiet⟩ := h
    exact ⟨haccepted.mono hsent, w, hwp, hw,
      fun hq => (hquiet hq).imp_right fun hidle => hidle.mono hsub⟩
  | answered a handed =>
    obtain ⟨haccepted, hidle, hcarry⟩ := h
    exact ⟨haccepted.mono hsent, hidle.imp_right fun hidle => hidle.mono hsub, hcarry⟩

/-- A job that is sound may be put in another's place. -/
theorem Sound.setJob (h : Sound L s) (hjob : JobSound L s.link i job) :
    Sound L (s.setJob i job) where
  link := h.link
  own := h.own
  job j := by
    show JobSound L s.link j (Function.update s.job i job j)
    by_cases hj : j = i
    · subst hj
      rwa [Function.update_self]
    · rw [Function.update_of_ne hj]
      exact h.job j

/-- The channel, and the other modules, leave every server where it was. -/
theorem Sound.setLink (h : Sound L s) (hlink : ∃ line, l'.Sound line) (hfewer : s.link.Fewer l') :
    Sound L { s with link := l' } where
  link := hlink
  own p hp := h.own p (hfewer.1 p hp)
  job j := (h.job j).mono (fun p hp _ => hfewer.1 p hp) (by rw [hfewer.2])

theorem Sound.store (h : Sound L s) {address : UInt32} {bytes : List UInt8}
    (hout : ∀ k < bytes.length, ¬s.link.Waits (address + UInt32.ofNat k)) :
    Sound L { s with link := s.link.store address bytes } := by
  obtain ⟨line, hline⟩ := h.link
  exact h.setLink ⟨line, hline.store hout⟩ ⟨fun _ hp => hp, rfl⟩

/-- Nobody waits for memory that is no server's. -/
theorem Sound.not_waits_of_no_own (h : Sound L s) {address : UInt32}
    (hown : ∀ i, ¬L.own i address) : ¬s.link.Waits address := by
  rintro ⟨p, hp, hreads⟩
  exact hown p.owner (h.own p hp address hreads)

/-- A server that has nothing to be moved may write its own memory. -/
theorem Sound.not_waits_of_idle (h : Sound L s) (hidle : Idle s.link i) {address : UInt32}
    (hown : L.own i address) : ¬s.link.Waits address := by
  rintro ⟨p, hp, hreads⟩
  exact hidle p hp (L.apart _ _ _ (h.own p hp address hreads) hown)

/-- A server writes its own memory, MCSERV where nothing is still to be taken. -/
theorem Sound.own_store (h : Sound L s) {address : UInt32} {bytes : List UInt8} {n : ℕ}
    (hquiet : i = .mcserv ∨ Idle s.link i) (hown : L.Owns i address n) (hn : bytes.length ≤ n)
    (hroom : i = .mcserv → ∀ k < n, ¬s.link.Waits (address + UInt32.ofNat k)) :
    Sound L { s with link := s.link.store address bytes } := by
  refine h.store fun k hk => ?_
  rcases hquiet with hmcserv | hidle
  · exact hroom hmcserv k (by omega)
  · exact h.not_waits_of_idle hidle (hown k (by omega))

/-- A run of another module's is handed over. -/
theorem Sound.send (h : Sound L s) (list : ℕ → Transfer) (count function arg : UInt32) :
    Sound L { s with link := (s.link.queue list count function arg none).2 } := by
  obtain ⟨line, hline⟩ := h.link
  refine h.setLink (hline.queue list count function arg nofun nofun) ?_
  rcases hline.queue_eq list count function arg none with heq | ⟨-, hundelivered, hsent⟩
  · rw [heq]
    exact ⟨fun _ hp => hp, rfl⟩
  · refine ⟨fun p hp => ?_, hsent.trans (List.append_nil _)⟩
    rw [hundelivered, List.mem_append, List.mem_singleton] at hp
    exact hp.resolve_right nofun

/-- A server hands over a transfer out of its own memory, and the ring takes it. -/
theorem Sound.handOver (h : Sound L s) {t : Transfer} (hown : ∀ a, t.Reads a → L.own i a)
    (hroom : s.link.sifman.sendQueued ≠ kSendGroups)
    (hjob : JobSound L (s.link.setDma i t).2 i job) :
    Sound L ({ s with link := (s.link.setDma i t).2 }.setJob i job) := by
  obtain ⟨line, hline⟩ := h.link
  rcases hline.queue_eq (fun _ => t) 1 0 0 (some (s.link.parcel i t)) with
    heq | ⟨-, hundelivered, hsent⟩
  · have hanswer : (s.link.setDma i t).1 = 1 := Link.setDma_accepted hroom
    unfold Link.setDma at hanswer
    rw [heq] at hanswer
    exact absurd (show (0 : UInt32) = 1 from hanswer) (by decide)
  have hmem : ∀ p, some p ∈ (s.link.setDma i t).2.undelivered →
      some p ∈ s.link.undelivered ∨ p = s.link.parcel i t := by
    intro p hp
    unfold Link.setDma at hp
    rw [hundelivered, List.mem_append, List.mem_singleton, Option.some.injEq] at hp
    exact hp
  refine ⟨hline.setDma i t, fun p hp => ?_, fun j => ?_⟩
  · rcases hmem p hp with hold | rfl
    · exact h.own p hold
    · exact hown
  · show JobSound L (s.link.setDma i t).2 j (Function.update s.job i job j)
    by_cases hj : j = i
    · subst hj
      rwa [Function.update_self]
    · rw [Function.update_of_ne hj]
      refine (h.job j).mono (fun p hp howner => ?_) ?_
      · refine (hmem p hp).resolve_right ?_
        rintro rfl
        exact hj howner.symm
      · show List.filter _ (s.link.queue _ _ _ _ _).2.sent = _
        rw [hsent, List.filter_append]
        have hnone : List.filter (·.owner = j) (Option.toList (some (s.link.parcel i t))) = [] :=
          List.filter_eq_nil_iff.mpr fun p hp => by
            obtain rfl := List.mem_singleton.mp hp
            show ¬decide (i = j) = true
            rw [decide_eq_true_eq]
            exact Ne.symm hj
        rw [hnone, List.append_nil]

/-- What a transfer adds to what its server has sent. -/
theorem Sound.accepted_setDma (h : Sound L s) (haccepted : Accepted s.link i handed) (t : Transfer)
    (hroom : s.link.sifman.sendQueued ≠ kSendGroups) :
    Accepted (s.link.setDma i t).2 i (handed ++ [(t, (s.link.setDma i t).1)]) := by
  obtain ⟨line, hline⟩ := h.link
  obtain ⟨hall, earlier, hearlier⟩ := haccepted
  have hanswer : (s.link.setDma i t).1 = 1 := Link.setDma_accepted hroom
  constructor
  · intro x hx
    rcases List.mem_append.mp hx with hold | hnew
    · exact hall x hold
    · obtain rfl := List.mem_singleton.mp hnew
      rw [hanswer]
      exact show (1 : UInt32) ≠ 0 by decide
  · refine ⟨earlier, ?_⟩
    rcases hline.queue_eq (fun _ => t) 1 0 0 (some (s.link.parcel i t)) with heq | ⟨-, -, hsent⟩
    · unfold Link.setDma at hanswer
      rw [heq] at hanswer
      exact absurd (show (0 : UInt32) = 1 from hanswer) (by decide)
    · show ((s.link.queue _ _ _ _ _).2.sent.filter _).map _ = _
      have hown : List.filter (·.owner = i) (Option.toList (some (s.link.parcel i t))) =
          [s.link.parcel i t] :=
        List.filter_eq_self.mpr fun p hp => by
          obtain rfl := List.mem_singleton.mp hp
          exact decide_eq_true rfl
      rw [hsent, List.filter_append, List.map_append, hearlier, hown, List.map_append,
        List.append_assoc]
      rfl

/-- **An operation of a server's.** -/
theorem Sound.ask (h : Sound L s) {o : Op} {k : o.Reply → Server Answer}
    (hjob : s.job i = .serving (.ask o k) handed) {r : o.Reply} (hr : Answers s.link i o r)
    (hroom : Room s i o) :
    Sound L ({ s with link := after s.link i o r }.setJob i
      (.serving (k r) (handedAfter handed o r))) := by
  have hserving := h.job i
  rw [hjob] at hserving
  obtain ⟨haccepted, w, ⟨hallows, hnext⟩, hw, hquiet⟩ := hserving
  -- what neither stores nor hands over leaves the link as it is
  cases o with
  | load a n => exact h.setJob ⟨haccepted, w, hnext r trivial, hw, hquiet⟩
  | dmaStat => exact h.setJob ⟨haccepted, w, hnext r trivial, hw, hquiet⟩
  | delay => exact h.setJob ⟨haccepted, w, hnext r trivial, hw, hquiet⟩
  | store a bytes =>
    have hnow : JobSound L (s.link.store a bytes) i (.serving (k r) handed) :=
      ⟨haccepted, w, hnext r trivial, hw, hquiet⟩
    exact (h.own_store (hquiet hallows.1) hallows.2 (Nat.le_refl _) hroom).setJob hnow
  | call c =>
    have hafter : after s.link i (.call c) r =
        c.buffer?.elim s.link fun b => s.link.store b.1 (Call.Reply.bytes r) := rfl
    rw [hafter]
    cases hb : c.buffer? with
    | none => exact h.setJob ⟨haccepted, w, hnext r trivial, hw, hquiet⟩
    | some b =>
      obtain ⟨hq, hown⟩ := hallows b hb
      have hfits : (Call.Reply.bytes r).length ≤ b.2 := by
        have := Call.Reply.fits r
        rwa [Call.room, hb] at this
      have hnow : JobSound L (s.link.store b.1 (Call.Reply.bytes r)) i (.serving (k r) handed) :=
        ⟨haccepted, w, hnext r trivial, hw, hquiet⟩
      exact (h.own_store (hquiet hq) hown hfits fun hi => hroom hi b hb).setJob hnow
  -- a transfer is accepted, there being room, and from then on it waits to be read
  | setDma t =>
    obtain rfl : r = (s.link.setDma i t).1 := hr
    have hanswer : (s.link.setDma i t).1 = 1 := Link.setDma_accepted hroom
    refine h.handOver hallows.2 hroom
      ⟨h.accepted_setDma haccepted t hroom, _, hnext _ trivial, ?_, ?_⟩
    · show w.sent ++ [t] = (handed ++ [(t, (s.link.setDma i t).1)]).map Prod.fst
      rw [hw, List.map_append]
      rfl
    · rintro (hi | hwaiting)
      · exact .inl hi
      · rw [show ((watch L i).next w (.setDma t) (s.link.setDma i t).1).waiting = true by
          show decide ((s.link.setDma i t).1 ≠ 0) = true
          rw [hanswer]
          decide] at hwaiting
        cases hwaiting
  -- the queue has drained, so nothing of this server's is still to be read
  | await =>
    obtain ⟨line, hline⟩ := h.link
    have hzero : s.link.sifman.sendQueued = 0 := by
      by_contra hne
      have hstat : s.link.sifman.sifDmaStat = 0 := if_pos hne
      have hneg : s.link.sifman.sifDmaStat < 0 := hr
      omega
    refine h.setJob ⟨haccepted, _, hnext r trivial, hw, fun _ => .inr fun p hp => ?_⟩
    rw [hline.undelivered_of_drained hzero] at hp
    cases hp

/-- Every server of the four is watched to its end. -/
theorem serve_wp (i : Service) (fno : UInt32) :
    (serve L i fno).wp (watch L i) (Delivered i) ⟨[], false⟩ := by
  cases i with
  | fileio => exact Fileio.serve_wp (.inr rfl)
  | loadfile => exact Loadfile.serve_wp (.inr rfl)
  | cdvdfsv => exact Cdvdfsv.serveSearch_wp (.inr rfl)
  | mcserv => exact Mcserv.serve_wp

/-- **A step.** -/
theorem Sound.step (h : Sound L s) {e : Event} {t : State} (hst : Step L s e t)
    (hfits : Fits L s e) : Sound L t := by
  cases hst with
  | call i fno hnot =>
    refine h.setJob ⟨⟨nofun, _, (List.append_nil _).symm⟩, _, serve_wp i fno, rfl, fun _ => ?_⟩
    have hjob := h.job i
    cases hi : s.job i with
    | idle =>
      rw [hi] at hjob
      exact hjob
    | serving rest handed => exact absurd hi (hnot rest handed)
    | answered a handed =>
      rw [hi] at hjob
      exact hjob.2.1
  | ask i hjob r hr => exact h.ask hjob hr (hfits _ _ _ hjob)
  | answer i hjob =>
    have hserving := h.job i
    rw [hjob] at hserving
    obtain ⟨haccepted, w, hdone, hw, hquiet⟩ := hserving
    refine h.setJob ⟨haccepted, hquiet hdone.1, ?_⟩
    rw [← hw]
    exact hdone.2
  | request i hlen => exact h.store hfits
  | send list count function arg => exact h.send list count function arg
  | write value hown =>
    refine h.store fun k hk => ?_
    obtain rfl : k = 0 := Nat.lt_one_iff.mp hk
    rw [show UInt32.ofNat 0 = 0 from rfl, UInt32.add_zero]
    exact h.not_waits_of_no_own hown
  | move hmove =>
    obtain ⟨line, hline⟩ := h.link
    exact h.setLink ⟨line, hline.move hmove⟩ (Link.fewer_move hmove)
  | deliver hdeliver =>
    obtain ⟨line, hline⟩ := h.link
    exact h.setLink (hline.deliver hdeliver) (hline.fewer_deliver hdeliver)
  | interrupt hinterrupt =>
    obtain ⟨line, hline⟩ := h.link
    exact h.setLink (hline.interrupt hinterrupt) (hline.fewer_interrupt hinterrupt)

/-- An answer in a sound state is borne out. -/
theorem Sound.reported (h : Sound L s) {a : Answer} (hjob : s.job i = .answered a handed) :
    Reported s i a handed := by
  have hanswered := h.job i
  rw [hjob] at hanswered
  obtain ⟨⟨haccepted, earlier, hearlier⟩, -, hcarry⟩ := hanswered
  refine ⟨haccepted, hcarry, fun hzero => ?_⟩
  obtain ⟨line, hline⟩ := h.link
  obtain ⟨before, parcels, hsplit, -, hparcels⟩ := List.map_eq_append_iff.mp hearlier
  refine ⟨before, parcels, hsplit, hparcels, fun p hp => ?_⟩
  have hmem : p ∈ s.link.sent := by
    have : p ∈ s.link.sent.filter (·.owner = i) := by
      rw [hsplit]
      exact List.mem_append_right _ hp
    exact (List.mem_filter.mp this).1
  obtain ⟨ahead, behind, harrived⟩ := (hline.drained hzero).exists_of_mem hmem
  refine ⟨ahead, behind, harrived, fun address hin hout => ?_⟩
  rw [harrived]
  exact byteAt_of_untouched hin hout

end Keeping

/-- **No result for bytes that were never sent**: in a run in which every transfer finds room in the
ring, and no transfer's source is written while it waits, every answer is borne out, in every state
reached. -/
theorem reports_are_delivered {L : Layout} {memory : UInt32 → UInt8} {l : List Event} {s : State}
    (h : Steps (fun s e t => Step L s e t ∧ Fits L s e) (State.start memory) l s) {i : Service}
    {a : Answer} {handed : List (Transfer × UInt32)} (hjob : s.job i = .answered a handed) :
    Reported s i a handed := by
  have hsound : Sound L s :=
    h.invariant (fun _ _ _ hsound hst => hsound.step hst.1 hst.2) (sound_start memory)
  exact hsound.reported hjob

/-! ### A ring with room, and one without -/

/-- Each server's memory in 64 KiB of its own. -/
def bank : Service → ℕ
  | .fileio => 1
  | .loadfile => 2
  | .cdvdfsv => 3
  | .mcserv => 4

/-- Places of one bank that do not overlap have no address in common. -/
theorem bank_apart {b i j m n : ℕ} (hm : i + m ≤ j ∨ j + n ≤ i)
    (hi : i + m ≤ 0x10000) (hj : j + n ≤ 0x10000) :
    ∀ k < m, ∀ l < n, UInt32.ofNat (0x10000 * b + i) + UInt32.ofNat k ≠
      UInt32.ofNat (0x10000 * b + j) + UInt32.ofNat l := by
  intro k hk l hl heq
  have hnat := congrArg UInt32.toNat heq
  rw [UInt32.toNat_add, UInt32.toNat_add, UInt32.toNat_ofNat', UInt32.toNat_ofNat',
    UInt32.toNat_ofNat', UInt32.toNat_ofNat'] at hnat
  omega

theorem bank_own {b offset n k : ℕ} (hn : offset + n ≤ 0x10000) (hb : b < 0x10000) (hk : k < n) :
    (UInt32.ofNat (0x10000 * b + offset) + UInt32.ofNat k).toNat / 0x10000 = b := by
  rw [UInt32.toNat_add, UInt32.toNat_ofNat', UInt32.toNat_ofNat']
  omega

/-- Each server owns the addresses of one bank. -/
def banks : Layout where
  own i a := a.toNat / 0x10000 = bank i
  apart i j a hi hj := by
    have h : bank i = bank j := hi.symm.trans hj
    cases i <;> cases j <;> first | rfl | exact absurd h (by decide)
  physical i a h := by
    have hbank : bank i ≤ 4 := by cases i <;> decide
    apply UInt32.toNat_inj.mp
    rw [UInt32.toNat_and]
    exact (Nat.and_two_pow_sub_one_eq_mod a.toNat 31).trans (Nat.mod_eq_of_lt (by omega))
  request i := UInt32.ofNat (0x10000 * bank i + 0)
  edge := UInt32.ofNat (0x10000 * 1 + 0x1000)
  bounce := UInt32.ofNat (0x10000 * 1 + 0x2000)
  statBlock := UInt32.ofNat (0x10000 * 1 + 0x1100)
  headers := UInt32.ofNat (0x10000 * 2 + 0x1000)
  chunk := UInt32.ofNat (0x10000 * 2 + 0x2000)
  carry := UInt32.ofNat (0x10000 * 2 + 0x1800)
  record := UInt32.ofNat (0x10000 * 4 + 0x1000)
  request_own i k hk := by
    have hbank : bank i < 0x10000 := by cases i <;> decide
    have hlen : 0 + kRequestBytes i ≤ 0x10000 := by cases i <;> decide
    exact bank_own hlen hbank hk
  edge_own k hk := bank_own (by decide) (by decide) hk
  bounce_own k hk := bank_own (by decide) (by decide) hk
  statBlock_own k hk := bank_own (by decide) (by decide) hk
  headers_own k hk := bank_own (by decide) (by decide) hk
  chunk_own k hk := bank_own (by decide) (by decide) hk
  carry_own k hk := bank_own (by decide) (by decide) hk
  record_own k hk := bank_own (by decide) (by decide) hk
  headers_chunk := bank_apart (.inl (by decide)) (by decide) (by decide)
  headers_carry := bank_apart (.inl (by decide)) (by decide) (by decide)

/-- A read of four bytes to `0x100000`. -/
def readFour (a : UInt32) : UInt8 := if a = 0x10006 then 0x10 else if a = 0x10008 then 4 else 0

/-- FILEIO takes the request up, reads four bytes, and hands them over. -/
def handOver : List (Event × ℤ × List UInt8) :=
  [(.call .fileio 2, 0, []), (.run .fileio, 0, []), (.run .fileio, 0, []), (.run .fileio, 0, []),
    (.run .fileio, 0, []), (.run .fileio, 4, [1, 2, 3, 4]), (.run .fileio, 0, [])]

/-- One event with what it is replied. -/
def perform (s : State) (e : Event × ℤ × List UInt8) : Option (Event × State) :=
  (s.perform banks e.2.1 e.2.2 e.1).map fun t => (e.1, t)

theorem step_of_perform (s : State) (e : Event × ℤ × List UInt8) (i : Event) (t : State)
    (h : perform s e = some (i, t)) : Step banks s i t := by
  obtain ⟨t', ht', heq⟩ := Option.map_eq_some_iff.mp h
  obtain ⟨rfl, rfl⟩ := Prod.mk.inj heq
  exact .of_perform ht'

/-- A step of FILEIO's, of the channel's or of another module's, while the ring has room. -/
def performInRoom (s : State) (e : Event × ℤ × List UInt8) : Option (Event × State) :=
  match e.1 with
  | .run .fileio => if s.link.sifman.sendQueued ≠ kSendGroups then perform s e else none
  | .run _ => none
  | .request _ _ => none
  | _ => perform s e

/-- What `performInRoom` computes is a step of servers that have room. -/
theorem step_of_performInRoom (s : State) (e : Event × ℤ × List UInt8) (i : Event) (t : State)
    (h : performInRoom s e = some (i, t)) : Step banks s i t ∧ Fits banks s i := by
  obtain ⟨event, reply⟩ := e
  have hlabel : perform s (event, reply) = some (i, t) → event = i := by
    intro hperform
    obtain ⟨t', -, heq⟩ := Option.map_eq_some_iff.mp hperform
    exact (Prod.mk.inj heq).1
  cases event with
  | run j =>
    cases j with
    | fileio =>
      simp only [performInRoom] at h
      split at h
      · next hroom =>
        refine ⟨step_of_perform s _ i t h, ?_⟩
        rw [← hlabel h]
        intro o k handed hjob
        cases o with
        | setDma _ => exact hroom
        | store _ _ => exact nofun
        | call _ => exact nofun
        | _ => trivial
      · cases h
    | _ => cases h
  | request j bytes => cases h
  | _ =>
    refine ⟨step_of_perform s _ i t h, ?_⟩
    rw [← hlabel h]
    trivial

/-- Four bytes are read, and are in EE memory when FILEIO answers. -/
theorem four_bytes_delivered :
    ∃ l s handed, Steps (fun s e t => Step banks s e t ∧ Fits banks s e)
        (State.start readFour) l s ∧
      s.job .fileio = .answered ⟨some [4, 0, 0, 0], [(0x100000, 4)]⟩ handed ∧
      s.link.arrived = [⟨0x100000, [1, 2, 3, 4] ++ zeros 12⟩] ∧
      Reported s .fileio ⟨some [4, 0, 0, 0], [(0x100000, 4)]⟩ handed := by
  obtain ⟨l, s, hrun, hjob, harrived⟩ : ∃ l s,
      traceList performInRoom (State.start readFour) (handOver ++ [(.move, 0, []),
        (.deliver, 0, []), (.interrupt, 0, []), (.run .fileio, 0, []), (.run .fileio, 0, [])]) =
          some (l, s) ∧
      s.job .fileio = .answered ⟨some [4, 0, 0, 0], [(0x100000, 4)]⟩
        [(transferOf banks.edge 0x100000 16, 1)] ∧
      s.link.arrived = [⟨0x100000, [1, 2, 3, 4] ++ zeros 12⟩] :=
    ⟨_, _, rfl, rfl, by decide +kernel⟩
  have hsteps := Steps.of_traceList step_of_performInRoom hrun
  exact ⟨l, s, _, hsteps, hjob, harrived, reports_are_delivered hsteps hjob⟩

set_option maxRecDepth 4000 in
/-- The ring is full, and FILEIO answers that it has delivered four bytes: no transfer of its own
was ever accepted. -/
theorem full_ring :
    ¬∀ (L : Layout) (memory : UInt32 → UInt8) (l : List Event) (s : State),
      Steps (Step L) (State.start memory) l s → ∀ i a handed, s.job i = .answered a handed →
        Reported s i a handed := by
  obtain ⟨l, s, hrun, hjob⟩ : ∃ l s,
      traceList perform (State.start readFour) (List.replicate 32
        (.send (fun _ => ⟨0x8000, 0x200000, 16, 0⟩) 1 0 0, 0, []) ++ handOver ++
          [(.run .fileio, 0, [])]) = some (l, s) ∧
      s.job .fileio = .answered ⟨some [4, 0, 0, 0], [(0x100000, 4)]⟩
        [(transferOf banks.edge 0x100000 16, 0)] := ⟨_, _, rfl, rfl⟩
  have hsteps := Steps.of_traceList step_of_perform hrun
  intro hall
  exact (hall banks readFour l s hsteps _ _ _ hjob).accepted _ (.head _) rfl

end PS2Bios.Servers
