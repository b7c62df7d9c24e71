import PS2Bios.Eesync.Answers
import PS2Bios.Sif.Observer

/-!
# A whole file

The size of a file, and then its windows, with nothing else on the bus. What a run leaves of EE
memory is `Whole`: the file, and nothing else changed but `sif_reply`, and `bounce` when the file
has gone through that. As no other run is in the way (`Alone`), every exchange can be brought to its
end, and so can the fetch.
-/

namespace PS2Bios.Eesync

open Sif

/-- The size exchange, and what `fetchFile` makes of the answer. -/
def bring (S : Site) (name : List UInt8) (target : UInt32) : Kernel UInt32 := do
  sifExchange name kVerbSize S.sifReply 0 0
  let size ← load S.sifReply
  fetchFile S name target size.toNat 0
  return size

/-- The destination of a file is in EE memory, and off `bounce` when the file goes through that. -/
def Free (S : Site) (name : List UInt8) (target : UInt32) : Prop :=
  (∀ k < extent target (sizeOf S name),
      physical (target + UInt32.ofNat k) = target + UInt32.ofNat k) ∧
    (target &&& 15 ≠ 0 → ∀ k < sizeOf S name, ∀ j < kWindow,
      target + UInt32.ofNat k ≠ S.bounce + UInt32.ofNat j)

/-- A file has been brought. -/
structure Whole (S : Site) (name : List UInt8) (target : UInt32) (before : UInt32 → UInt8)
    (size : UInt32) (after : UInt32 → UInt8) : Prop where
  size : size.toNat = sizeOf S name
  bytes : ∀ file, S.lookup (nameField name) = some file → ∀ k x, file[k]? = some x →
    after (target + UInt32.ofNat k) = x
  kept : ∀ a, physical a = a →
    (∀ k < extent target (sizeOf S name), a ≠ target + UInt32.ofNat k) →
    (∀ k < 16, a ≠ S.sifReply + UInt32.ofNat k) →
    (target &&& 15 ≠ 0 → ∀ j < kWindow, a ≠ S.bounce + UInt32.ofNat j) → after a = before a
  reply : ∀ k x, (sizeReply S name)[k]? = some x →
    (∀ j < extent target (sizeOf S name),
      S.sifReply + UInt32.ofNat k ≠ target + UInt32.ofNat j) →
    (target &&& 15 ≠ 0 → ∀ j < kWindow,
      S.sifReply + UInt32.ofNat k ≠ S.bounce + UInt32.ofNat j) →
    after (S.sifReply + UInt32.ofNat k) = x

/-- The same place, all of EE memory being the kernel's. -/
def Site.wide (S : Site) : Site :=
  { S with
    buffers := fun a => physical a = a
    buffers_physical := fun _ h => h
    sifReply_buffers := fun k hk => S.buffers_physical _ (S.sifReply_buffers k hk)
    bounce_buffers := fun k hk => S.buffers_physical _ (S.bounce_buffers k hk) }

section Program

variable {S : Site} {name : List UInt8} {target : UInt32} {before : UInt32 → UInt8}

/-- A fetch asks for the same windows whether or not the whole memory may be used. -/
theorem fetchFile_wide (S : Site) (name : List UInt8) (target : UInt32) (size done : ℕ) :
    fetchFile S.wide name target size done = fetchFile S name target size done := by
  have hwindow : kWindow = 0x4000 := rfl
  induction hleft : size - done using Nat.strong_induction_on generalizing done with
  | _ left ih =>
    conv_lhs => rw [fetchFile]
    conv_rhs => rw [fetchFile]
    split
    next hlt =>
      rw [ih (size - (done + kWindow)) (by omega) _ rfl]
      rfl
    next => rfl

/-- The program, as the kernel sees it. -/
theorem bring_wp (hfree : Free S name target) :
    (bring S name target).wp (fetching S.wide) (Whole S name target before) before := by
  have hsmall : sizeOf S name ≤ 0x400000 := sizeOf_le
  have hnat : (UInt32.ofNat (sizeOf S name)).toNat = sizeOf S name :=
    UInt32.toNat_ofNat_of_lt' (show _ < 2 ^ 32 by omega)
  have hsize := @size_wp S.wide name before fun size ee =>
    Prog.wp (fetching S.wide) (do
      fetchFile S name target size.toNat 0
      return size) (Whole S name target before) ee
  rw [Prog.wp_bind] at hsize
  unfold bring
  rw [Prog.wp_bind]
  refine Prog.wp_mono (hsize fun ee hreply hkept => ?_) fun _ ee hee => ?_
  · show Prog.wp _ (fetchFile S name target _ 0 >>= fun _ => _) _ _
    rw [Prog.wp_bind, ← fetchFile_wide, show sizeOf S.wide name = sizeOf S name from rfl, hnat]
    -- with no such file nothing is fetched
    cases hfile : S.lookup (nameField name) with
    | none =>
      have hzero : sizeOf S name = 0 := by
        rw [sizeOf, hfile]
        rfl
      rw [fetchFile, if_neg (by omega)]
      refine ⟨hnat, fun file hsome => ?_, fun a ha _ hreply' _ => hkept a ha hreply',
        fun k x hx _ _ => hreply k x hx⟩
      cases hfile.symm.trans hsome
    | some file =>
      have hlength : sizeOf S name = file.length := sizeOf_eq hfile
      have hroom : Room S.wide target file.length := by
        rw [← hlength]
        exact hfree
      rw [hlength]
      have hfile' : S.wide.lookup (nameField name) = some file := hfile
      -- the file is fetched window by window
      refine Prog.wp_mono (fetchFile_wp hfile' hroom (Nat.dvd_zero _)
        (fun k _ hk => absurd hk (Nat.not_lt_zero k)) fun _ _ _ _ => rfl) fun _ m hm => ?_
      obtain ⟨hbrought, hrest⟩ := hm
      rw [← hlength] at hrest
      refine ⟨by rw [← hlength]; exact hnat, fun file' hfile' k x hx => ?_,
        fun a ha hout hreply' hbounce => ?_, fun k x hx hout hbounce => ?_⟩
      · obtain rfl := Option.some.inj (hfile.symm.trans hfile')
        exact hbrought k x (List.getElem?_eq_some_iff.mp hx).1 hx
      · rw [hrest a ha hout hbounce]
        exact hkept a ha hreply'
      · have hk : k < 16 := (List.getElem?_eq_some_iff.mp hx).1
        exact (hrest _ (S.wide.sifReply_buffers k hk) hout hbounce).trans (hreply k x hx)
  · rw [Prog.wp_bind]
    exact hee

/-- What the kernel sees is there. -/
theorem Whole.congr {size : UInt32} {after after' : UInt32 → UInt8}
    (h : Whole S name target before size after) (hfree : Free S name target)
    (hsame : Same S.wide after' after) : Whole S name target before size after' where
  size := h.size
  bytes file hfile k x hx := by
    have hk := (List.getElem?_eq_some_iff.mp hx).1
    have hextent : sizeOf S name ≤ extent target (sizeOf S name) := by
      unfold extent
      split <;> omega
    rw [sizeOf_eq hfile] at hextent
    have hin := hfree.1 k (by rw [sizeOf_eq hfile]; omega)
    exact (hsame _ hin).trans (h.bytes file hfile k x hx)
  kept a ha hout hreply hbounce := (hsame a ha).trans (h.kept a ha hout hreply hbounce)
  reply k x hx hout hbounce := by
    have hk : k < 16 := (List.getElem?_eq_some_iff.mp hx).1
    exact (hsame _ (S.wide.sifReply_buffers k hk)).trans (h.reply k x hx hout hbounce)

end Program

/-! ### Nothing else on the bus -/

/-- The steps of the exchange itself. -/
def Event.Own : Event → Prop
  | .run | .serve | .move | .deliver | .interrupt => True
  | _ => False

/-- A step with no other traffic. -/
def Quiet (S : Site) (s : State) (e : Event) (t : State) : Prop := Step S s e t ∧ e.Own

/-- No run is queued but the answer to the exchange the kernel is in, when it is. -/
inductive Alone (S : Site) (s : State) : Prop
  | still (hahead : s.link.ahead = [])
      (hwaiting : ∀ n r before k, s.control = .waiting n r before k →
        (s.receiver.armed = true ∧ s.inFlight = [(n, r)]) ∨
          (s.receiver.armed = false ∧ s.inFlight = []))
  | answering {n : ℕ} {r : Request} {before : UInt32 → UInt8}
      {k : (UInt32 → UInt8) → Kernel UInt32} (hcontrol : s.control = .waiting n r before k)
      {run : Run} {p : Parcel ℕ} (hahead : s.link.ahead = [(run, some p)])
      (htransfer : p.transfer = answerTransfer S r)
      (hmoved : s.link.moved ≤ p.transfer.block.quads) (harmed : s.receiver.armed = true)
      (hflight : s.inFlight = [])

variable {S : Site} {G : Goal} {s t : State} {e : Event}

/-- Whose EE memory it is makes no difference to a step. -/
theorem quiet_congr (S' : Site) (hlookup : S'.lookup = S.lookup) (hpayload : S'.payload = S.payload)
    (h : Quiet S s e t) : Quiet S' s e t := by
  refine ⟨?_, h.2⟩
  cases h.1 with
  | ask hc => exact .ask s hc
  | returns hc hstopped => exact .returns s hc hstopped
  | load hc => exact .load s hc
  | copyBytes hc => exact .copyBytes s hc
  | clear hc => exact .clear s hc
  | done hc => exact .done s hc
  | @serve n r rest hflight =>
    have hserve : serveFile S s.link n r = serveFile S' s.link n r := by
      unfold serveFile answerTransfer answerTo
      rw [hlookup, hpayload]
    rw [hserve]
    exact .serve s hflight
  | move hmove => exact .move s hmove
  | deliver hdeliver => exact .deliver s hdeliver
  | interrupt hinterrupt => exact .interrupt s hinterrupt
  | _ => exact h.2.elim

theorem quiet_steps (S' : Site) (hlookup : S'.lookup = S.lookup) (hpayload : S'.payload = S.payload)
    {l : List Event} (h : Steps (Quiet S) s l t) : Steps (Quiet S') s l t := by
  induction h with
  | nil s => exact .nil s
  | cons hst _ ih => exact .cons (quiet_congr S' hlookup hpayload hst) ih

/-- With nothing ahead nothing is halfway. -/
theorem moved_of_still (h : Sound S G s) (hahead : s.link.ahead = []) : s.link.moved = 0 := by
  obtain ⟨line, hline⟩ := h.link
  refine (hline.stopped_of_empty ?_).2
  rw [← hline.ahead_snd, hahead, List.map_nil]

/-- A step with no other traffic goes wrong in no exchange. -/
theorem Alone.fits (ha : Alone S s) (h : Sound S G s) (hst : Quiet S s e t) : Fits S s e := by
  cases e with
  | run =>
    intro r k hc
    cases ha with
    | still hahead =>
      refine ⟨moved_of_still h hahead, fun x hx => ?_⟩
      rw [hahead] at hx
      exact nomatch hx
    | answering hcontrol => exact nomatch hc.symm.trans hcontrol
  | serve => trivial
  | move => trivial
  | deliver => trivial
  | interrupt => trivial
  | _ => exact hst.2.elim

theorem Quiet.sound (hst : Quiet S s e t) (ha : Alone S s) (h : Sound S G s) : Sound S G t := by
  refine h.advance hst.1 (ha.fits h hst) fun name target heq => ?_
  rw [heq] at hst
  exact hst.2

/-- EESYNC's answer is queued, as there is room. -/
theorem Alone.serve {n : ℕ} {r : Request} {before : UInt32 → UInt8}
    {k : (UInt32 → UInt8) → Kernel UInt32} (h : Sound S G s) (hahead : s.link.ahead = [])
    (hc : s.control = .waiting n r before k) (harmed : s.receiver.armed = true) :
    Alone S { s.setLink (serveFile S s.link n r) with inFlight := [] } := by
  obtain ⟨line, hline⟩ := h.link
  have hempty : ∀ address, ¬s.link.Waits address :=
    not_waits_of_others hline fun x hx => by
      rw [hahead] at hx
      exact nomatch hx
  have hstored : (s.link.store S.payload (answerTo S r).1).Sound line :=
    hline.store fun _ _ => hempty _
  generalize hl : s.link.store S.payload (answerTo S r).1 = l at hstored
  have hahead' : l.ahead = [] := by rw [← hl]; exact hahead
  have hmoved : l.moved = 0 := by rw [← hl]; exact moved_of_still h hahead
  have haccepted : ¬((1 : UInt32) = 0 ∨ kTransfersMax < 1 ∨ l.sifman.sendQueued = kSendGroups) := by
    rintro (hzero | hmany | hfull)
    · exact absurd hzero (by decide)
    · exact absurd hmany (by decide)
    · exact hstored.room_of_ahead hahead' hfull
  have hbehind := hstored.ahead_queue (fun _ => answerTransfer S r) 0 0
    (some (l.parcel n (answerTransfer S r))) haccepted
  rw [hahead', List.nil_append] at hbehind
  have hserve : serveFile S s.link n r = (l.setDma n (answerTransfer S r)).2 := by
    rw [← hl]
    rfl
  rw [hserve]
  exact .answering hc hbehind rfl (hmoved.trans_le (Nat.zero_le _)) harmed rfl

/-- While the kernel computes, nothing is queued. -/
theorem Alone.ahead_of_running (ha : Alone S s) {p : Kernel UInt32} (hc : s.control = .running p) :
    s.link.ahead = [] := by
  cases ha with
  | still hahead => exact hahead
  | answering hwaiting => exact nomatch hc.symm.trans hwaiting

theorem alone_of_running {c : Control} (hahead : t.link.ahead = []) (hc : t.control = c)
    (hnot : ∀ n r before k, c ≠ .waiting n r before k) : Alone S t :=
  .still hahead fun n r before k hwaiting => absurd (hc.symm.trans hwaiting) (hnot n r before k)

/-- A quadword lands, or the last one has. -/
theorem Alone.move (ha : Alone S s) (h : Sound S G s) {u : Receiver ℕ}
    (hmove : s.receiver.move = some u) : Alone S { s with receiver := u } := by
  obtain ⟨line, hline⟩ := h.link
  obtain ⟨⟨-, harmed⟩, -, -, hahead', hmoved', -, -, run, x, rest, block, hfirst, -, hlt, hof, -⟩ :=
    Receiver.move_cases hline h.framed hmove
  change s.link.ahead = (run, x) :: rest at hfirst
  change u.link.ahead = s.link.ahead at hahead'
  change u.link.moved = s.link.moved + 1 at hmoved'
  change s.link.moved < block.quads at hlt
  cases ha with
  | still hahead => exact nomatch hahead.symm.trans hfirst
  | answering hwaiting hahead htransfer hmoved _ hflight =>
    obtain ⟨heq, -⟩ := List.cons.inj (hahead.symm.trans hfirst)
    obtain ⟨-, rfl⟩ := Prod.mk.inj heq
    refine .answering hwaiting (hahead'.trans hahead) htransfer ?_ harmed hflight
    show u.link.moved ≤ _
    rw [hmoved', ← hof _ rfl]
    exact hlt

/-- The channel stops after a delivery where nothing else is on its way. -/
theorem Alone.deliver (ha : Alone S s) (h : Sound S G s) {u : Receiver ℕ}
    (hdeliver : s.receiver.deliver = some u) :
    Alone S { s with receiver := u } ∧ u.armed = false := by
  obtain ⟨line, hline⟩ := h.link
  obtain ⟨-, -, -, -, -, -, -, run, x, rest, block, hfirst, -, -, hof, harmed, hahead'⟩ :=
    Receiver.deliver_cases hline h.framed hdeliver
  change s.link.ahead = (run, x) :: rest at hfirst
  cases ha with
  | still hahead => exact nomatch hahead.symm.trans hfirst
  | answering hwaiting hahead htransfer _ _ hflight =>
    obtain ⟨heq, rfl⟩ := List.cons.inj (hahead.symm.trans hfirst)
    obtain ⟨-, rfl⟩ := Prod.mk.inj heq
    have hstopped : u.armed = false := by
      rw [harmed, hof _ rfl, htransfer]
      exact decide_eq_false answer_ends
    have hnil : u.link.ahead = [] := hahead'.resolve_right fun hboth => nomatch hboth.2
    exact ⟨.still hnil fun n r before k _ => .inr ⟨hstopped, hflight⟩, hstopped⟩

/-- What a step leaves. -/
theorem Quiet.alone (hst : Quiet S s e t) (ha : Alone S s) (h : Sound S G s) : Alone S t := by
  have hcontrol := h.control
  cases hst.1 with
  | ask hc =>
    rw [hc] at hcontrol
    refine .still (ha.ahead_of_running hc) fun n r before k hc' => .inl ⟨rfl, ?_⟩
    obtain ⟨rfl, rfl, -⟩ := Control.waiting.inj hc'
    show s.inFlight ++ _ = _
    rw [hcontrol.1, List.nil_append]
  | returns hc hstopped =>
    cases ha with
    | answering _ _ _ _ harmed => exact absurd harmed (by rw [hstopped]; exact Bool.false_ne_true)
    | still hahead => exact alone_of_running hahead rfl nofun
  | load hc => exact alone_of_running (ha.ahead_of_running hc) rfl nofun
  | copyBytes hc => exact alone_of_running (ha.ahead_of_running hc) rfl nofun
  | clear hc => exact alone_of_running (ha.ahead_of_running hc) rfl nofun
  | done hc => exact alone_of_running (ha.ahead_of_running hc) rfl nofun
  | serve hflight =>
    -- what is in flight is the kernel's request
    cases ha with
    | answering _ _ _ _ _ hnil => exact nomatch hnil.symm.trans hflight
    | still hahead hwaiting =>
      cases hc : s.control with
      | waiting n r before k =>
        rcases hwaiting n r before k hc with ⟨harmed, hone⟩ | ⟨-, hnil⟩
        · obtain ⟨heq, rfl⟩ := List.cons.inj (hflight.symm.trans hone)
          obtain ⟨rfl, rfl⟩ := Prod.mk.inj heq
          exact Alone.serve h hahead hc harmed
        · exact nomatch hnil.symm.trans hflight
      | _ =>
        rw [hc] at hcontrol
        exact nomatch hcontrol.1.symm.trans hflight
  | move hmove => exact ha.move h hmove
  | deliver hdeliver => exact (ha.deliver h hdeliver).1
  | @interrupt l hinterrupt =>
    obtain ⟨line, hline⟩ := h.link
    have hahead' : l.ahead = s.link.ahead := hline.ahead_interrupt hinterrupt
    cases ha with
    | still hahead hwaiting => exact .still (hahead'.trans hahead) hwaiting
    | answering hwaiting hahead htransfer hmoved harmed hflight =>
      refine .answering hwaiting (hahead'.trans hahead) htransfer ?_ harmed hflight
      have hsame : l.moved = s.link.moved := Link.moved_interrupt hinterrupt
      show l.moved ≤ _
      rwa [hsame]
  | _ => exact hst.2.elim

/-- A fetch does not stop before its end. -/
theorem Quiet.busy (hst : Quiet S s e t) (h : s.control ≠ .idle) : t.control ≠ .idle := by
  cases hst.1 with
  | serve _ => exact h
  | move _ => exact h
  | deliver _ => exact h
  | interrupt _ => exact h
  | ask _ => exact nofun
  | returns _ _ => exact nofun
  | load _ => exact nofun
  | copyBytes _ => exact nofun
  | clear _ => exact nofun
  | done _ => exact nofun
  | _ => exact hst.2.elim

/-! ### To the end -/

variable (S) in
/-- A fetch can be brought to its end. -/
def Completes (s : State) : Prop :=
  ∃ l t size, Steps (Quiet S) s l t ∧ t.control = .fetched size

theorem Completes.of_step (hst : Quiet S s e t) (h : Completes S t) : Completes S s := by
  obtain ⟨l, u, size, hsteps, hc⟩ := h
  exact ⟨e :: l, u, size, .cons hst hsteps, hc⟩

/-- What a state is in between two steps. -/
structure Going (S : Site) (G : Goal) (s : State) : Prop where
  sound : Sound S G s
  alone : Alone S s
  busy : s.control ≠ .idle

theorem Going.step (h : Going S G s) (hst : Quiet S s e t) : Going S G t :=
  ⟨hst.sound h.alone h.sound, hst.alone h.alone h.sound, hst.busy h.busy⟩

section Waiting

variable {n : ℕ} {r : Request} {before : UInt32 → UInt8} {k : (UInt32 → UInt8) → Kernel UInt32}

/-- An exchange whose channel has stopped returns. -/
theorem Going.returns (h : Going S G s) (hc : s.control = .waiting n r before k)
    (hstopped : s.receiver.armed = false)
    (hnext : ∀ t ee, Going S G t → t.control = .running (k ee) → Completes S t) :
    Completes S s := by
  have hst : Quiet S s .run { s with control := .running (k s.ee) } :=
    ⟨.returns s hc hstopped, trivial⟩
  exact .of_step hst (hnext _ s.ee (h.step hst) rfl)

/-- One whose answer is on the channel comes to that, a quadword at a time. -/
theorem Going.lands (h : Going S G s) (hc : s.control = .waiting n r before k) {slot : ℕ}
    (hslot : s.link.sifman.channel = .running slot)
    (hnext : ∀ t ee, Going S G t → t.control = .running (k ee) → Completes S t) :
    Completes S s := by
  induction hleft : (answerTransfer S r).block.quads - s.link.moved using
    Nat.strong_induction_on generalizing s with
  | _ left ih =>
  obtain ⟨line, hline⟩ := h.sound.link
  obtain ⟨x, rest, hfirsts, -, hfirst⟩ := hline.ahead_running hslot
  cases h.alone with
  | still hahead => exact nomatch hahead.symm.trans hfirsts
  | answering hwaiting hahead htransfer hmoved harmed hflight =>
    obtain ⟨-, rfl, -⟩ := Control.waiting.inj (hc.symm.trans hwaiting)
    obtain ⟨heq, -⟩ := List.cons.inj (hahead.symm.trans hfirsts)
    obtain ⟨-, rfl⟩ := Prod.mk.inj heq
    have hexists := Receiver.exists_next hline harmed hslot hfirst hmoved
    split at hexists
    next hlt =>
      obtain ⟨u, hu⟩ := hexists
      have hst : Quiet S s .move { s with receiver := u } := ⟨.move s hu, trivial⟩
      obtain ⟨-, -, -, -, hmoved', -⟩ := Receiver.move_cases hline h.sound.framed hu
      rw [htransfer] at hlt
      refine .of_step hst (ih _ ?_ (h.step hst) hc (Receiver.channel_move hu ▸ hslot) rfl)
      show _ - u.link.moved < left
      have : u.link.moved = s.link.moved + 1 := hmoved'
      omega
    next =>
      obtain ⟨u, hu⟩ := hexists
      have hst : Quiet S s .deliver { s with receiver := u } := ⟨.deliver s hu, trivial⟩
      have hstopped := (h.alone.deliver h.sound hu).2
      exact .of_step hst ((h.step hst).returns hc hstopped hnext)

/-- Every exchange comes to its end. -/
theorem Going.waiting (h : Going S G s) (hc : s.control = .waiting n r before k)
    (hnext : ∀ t ee, Going S G t → t.control = .running (k ee) → Completes S t) :
    Completes S s := by
  have hqueued : ∀ s : State, Going S G s → s.control = .waiting n r before k →
      s.link.ahead ≠ [] → Completes S s := by
    intro s h hc hne
    obtain ⟨line, hline⟩ := h.sound.link
    rcases hline.channel_of_ahead hne with ⟨slot, hslot⟩ | ⟨slot, hslot⟩
    · exact h.lands hc hslot hnext
    · -- the interrupt of an earlier answer is served first
      obtain ⟨l, slot', hl, hslot'⟩ := hline.running_of_interrupt hne hslot
      have hst : Quiet S s .interrupt (s.setLink l) := ⟨.interrupt s hl, trivial⟩
      exact .of_step hst ((h.step hst).lands hc hslot' hnext)
  cases h.alone with
  | answering _ hahead =>
    refine hqueued s h hc ?_
    rw [hahead]
    exact List.cons_ne_nil _ _
  | still hahead hwaiting =>
    rcases hwaiting n r before k hc with ⟨harmed, hflight⟩ | ⟨hstopped, -⟩
    · have hst : Quiet S s .serve { s.setLink (serveFile S s.link n r) with inFlight := [] } :=
        ⟨.serve s hflight, trivial⟩
      have halone := Alone.serve h.sound hahead hc harmed
      refine .of_step hst (hqueued _ (h.step hst) hc ?_)
      cases halone with
      | still hnil hwaiting' =>
        rcases hwaiting' n r before k hc with ⟨-, hone⟩ | ⟨hstopped, -⟩
        · exact nomatch hone
        · exact absurd harmed (by rw [show s.receiver.armed = false from hstopped]; decide)
      | answering _ hahead' =>
        rw [hahead']
        exact List.cons_ne_nil _ _
    · exact h.returns hc hstopped hnext

end Waiting

/-- Whatever the kernel computes comes to its end. -/
theorem Going.completes (h : Going S G s) {p : Kernel UInt32} (hc : s.control = .running p) :
    Completes S s := by
  induction p generalizing s with
  | ret size =>
    have hst : Quiet S s .run { s with control := .fetched size } := ⟨.done s hc, trivial⟩
    exact .of_step hst ⟨[], _, size, .nil _, rfl⟩
  | ask o k ih =>
    cases o with
    | sifExchange r =>
      have hst : Quiet S s .run { s with
          receiver := { s.receiver with armed := true }
          inFlight := s.inFlight ++ [(s.asked, r)]
          control := .waiting s.asked r s.ee k
          asked := s.asked + 1 } := ⟨.ask s hc, trivial⟩
      exact .of_step hst ((h.step hst).waiting rfl fun t ee ht hct => ih ee ht hct)
    | load address =>
      have hst : Quiet S s .run { s with control := .running (k (wordAt s.ee address)) } :=
        ⟨.load s hc, trivial⟩
      exact .of_step hst (ih _ (h.step hst) rfl)
    | copyBytes target source n =>
      have hst : Quiet S s .run { s.setEe (put s.ee target (slice s.ee source n)) with
          control := .running (k ()) } := ⟨.copyBytes s hc, trivial⟩
      exact .of_step hst (ih _ (h.step hst) rfl)
    | clear first last =>
      have hst : Quiet S s .run { s.setEe (cleared s.ee first last) with
          control := .running (k ()) } := ⟨.clear s hc, trivial⟩
      exact .of_step hst (ih _ (h.step hst) rfl)

/-! ### A whole file -/

/-- The kernel is to bring a file, and an observer begins to note. -/
def bringing (S : Site) (name : List UInt8) (target : UInt32) (s : State) : State :=
  { s.setLink s.link.observed with
    control := .running (bring S name target), name := name, target := target }

/-- A bus that is at rest, in whatever state the machine has come to: no fetch is under way, no
request is in flight, and no run is queued or on the channel but one it is done with. -/
structure Rested (S : Site) (s : State) : Prop where
  reached : ∃ memory ee l, Steps (Step S) (State.start memory ee) l s
  idle : s.control = .idle
  inFlight : s.inFlight = []
  remaining : s.link.remaining = []

/-- The ring is in order in every state the machine comes to. -/
theorem turning_of_steps {memory ee : UInt32 → UInt8} {l : List Event}
    (h : Steps (Step S) (State.start memory ee) l s) : ∃ line, s.link.Turning line := by
  refine h.invariant (I := fun s => ∃ line, s.link.Turning line) ?_ ⟨_, Link.turning_start memory⟩
  rintro s e t ⟨line, hline⟩ hst
  cases hst with
  | @serve n r rest hflight =>
    have hstored : (s.link.store S.payload (answerTo S r).1).Turning line :=
      ⟨hline.holds, hline.stopped⟩
    exact hstored.queue _ 1 0 0 _
  | send list count function arg => exact hline.queue list count function arg none
  | write address value hout => exact ⟨line, hline.holds, hline.stopped⟩
  | move hmove => exact ⟨line, Receiver.turning_move hline hmove⟩
  | deliver hdeliver => exact Receiver.turning_deliver hline hdeliver
  | interrupt hinterrupt => exact hline.interrupt hinterrupt
  | _ => exact ⟨line, hline⟩

/-- What a fetch begins with. -/
theorem Rested.going {name : List UInt8} {target : UInt32} (h : Rested S s)
    (hfree : Free S name target) :
    Going S.wide (fun _ _ => Whole S name target s.ee) (bringing S name target s) := by
  obtain ⟨memory, ee, l, hsteps⟩ := h.reached
  obtain ⟨line, hline⟩ := turning_of_steps hsteps
  have hsound : (bringing S name target s).link.Sound line := hline.sound_observed
  have hahead : (bringing S name target s).link.ahead = [] :=
    Link.observed_ahead s.link h.remaining
  refine ⟨⟨⟨line, hsound⟩, hsound.framed_of_ahead hahead, fun p hp => ?_, h.inFlight,
    fun x hx => ?_, s.ee, fun _ _ => rfl, bring_wp hfree⟩,
    alone_of_running hahead rfl fun _ _ _ _ heq => (by cases heq), fun heq => (by cases heq)⟩
  · cases hp
  · rw [hahead] at hx
    cases hx

section Runs

variable {name : List UInt8} {target : UInt32} {s₀ : State} {l : List Event}

theorem Rested.going_of_steps (h : Rested S s₀) (hfree : Free S name target)
    (hrun : Steps (Quiet S) (bringing S name target s₀) l s) :
    Going S.wide (fun _ _ => Whole S name target s₀.ee) s :=
  (quiet_steps (S := S) S.wide rfl rfl hrun).invariant (fun _ _ _ hg hst => hg.step hst)
    (h.going hfree)

/-- It can be brought to its end from wherever it has come to. -/
theorem Rested.completes (h : Rested S s₀) (hfree : Free S name target)
    (hrun : Steps (Quiet S) (bringing S name target s₀) l s) : Completes S s := by
  have hgoing := h.going_of_steps hfree hrun
  have hcompletes : Completes S.wide s := by
    cases hc : s.control with
    | idle => exact absurd hc hgoing.busy
    | running p => exact hgoing.completes hc
    | waiting n r before k => exact hgoing.waiting hc fun t ee ht hct => ht.completes hct
    | fetched size => exact ⟨[], s, size, .nil s, hc⟩
  obtain ⟨l', t, size, hsteps, hc⟩ := hcompletes
  exact ⟨l', t, size, quiet_steps (S := S.wide) S rfl rfl hsteps, hc⟩

/-- And what it has then brought. -/
theorem Rested.whole (h : Rested S s₀) (hfree : Free S name target)
    (hrun : Steps (Quiet S) (bringing S name target s₀) l s) {size : UInt32}
    (hc : s.control = .fetched size) : Whole S name target s₀.ee size s.ee := by
  have hcontrol := (h.going_of_steps hfree hrun).sound.control
  rw [hc] at hcontrol
  obtain ⟨-, -, memory, hsame, hwhole⟩ := hcontrol
  exact hwhole.congr hfree hsame

end Runs

/-- **A whole file over the bus**: the size exchange and the windows, with no other traffic, can be
brought to their end from every state they come to; and then the file is where it was to be, up to
the next quadword when it goes there itself, and nothing else has changed but the kernel's own
`sif_reply`, and `bounce` when the file has gone through that. -/
theorem whole_file {S : Site} {name : List UInt8} {target : UInt32} {s₀ : State}
    (h : Rested S s₀) (hfree : Free S name target) {l : List Event} {s : State}
    (hrun : Steps (Quiet S) (bringing S name target s₀) l s) :
    Completes S s ∧ ∀ size, s.control = .fetched size → Whole S name target s₀.ee size s.ee :=
  ⟨h.completes hfree hrun, fun _ hc => h.whole hfree hrun hc⟩

theorem rested_start (S : Site) (memory ee : UInt32 → UInt8) : Rested S (State.start memory ee) :=
  ⟨⟨memory, ee, [], .nil _⟩, rfl, rfl, rfl⟩

theorem free_oneFile : Free oneFile [65] 0x82000 := ⟨by decide, fun h => absurd rfl h⟩

/-- The four bytes of a file. -/
theorem one_file_whole : ∃ l t size,
    Steps (Quiet oneFile) (bringing oneFile [65] 0x82000 (State.start (fun _ => 0) fun _ => 0)) l
      t ∧ t.control = .fetched size ∧ Whole oneFile [65] 0x82000 (fun _ => 0) size t.ee := by
  have h := rested_start oneFile (fun _ => 0) fun _ => 0
  obtain ⟨l, t, size, hrun, hc⟩ := (whole_file h free_oneFile (.nil _)).1
  exact ⟨l, t, size, hrun, hc, (whole_file h free_oneFile hrun).2 size hc⟩

/-- `sif_reply` is below the destination here, and holds the size of the file afterwards. -/
theorem reply_below :
    ¬∀ (S : Site) (name : List UInt8) (target : UInt32) (s₀ : State), Rested S s₀ →
      Free S name target → ∀ l s size, Steps (Quiet S) (bringing S name target s₀) l s →
        s.control = .fetched size → ∀ a < target, s.ee a = s₀.ee a := by
  intro hall
  have h := rested_start oneFile (fun _ => 0) fun _ => 0
  obtain ⟨l, t, size, hrun, hc⟩ := h.completes free_oneFile (.nil _)
  have hreply := (h.whole free_oneFile hrun hc).reply 0 4 (by decide) (by decide)
    fun hmis => absurd rfl hmis
  have hsame := hall oneFile [65] 0x82000 _ h free_oneFile l t size hrun hc 0x20000 (by decide)
  have hfour : t.ee 0x20000 = 4 := hreply
  rw [hfour] at hsame
  exact absurd hsame (by decide)

end PS2Bios.Eesync
