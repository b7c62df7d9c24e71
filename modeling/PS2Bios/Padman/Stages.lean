import PS2Bios.Padman.Blank

/-!
# The state machine of the driver

`advance`, stage by stage. Between blanks an id is one the controller gave a probe, if there is one,
and only a port that is polled has a valid reply (`Between`). Behind `advance` what is valid has
been replied to the poll of this blank, and is the controller's (`Ready`).

An open that is accepted in the midst of a stage leaves nothing valid and no id, and the rest of the
stage writes over some of what it has reset.
-/

namespace PS2Bios.Padman

open Driver

/-- No reply is valid. -/
def Off (c : Core) : Prop := c.valid = false

/-- The id is the controller's. -/
def Agreed (c : Core) : Prop := c.id = 0 ∨ c.probed = some c.id

/-- A port that is probed has no id. -/
def Unknown (c : Core) : Prop := c.stage = .ProbeId → c.id = 0

/-- What holds between blanks. -/
structure Between (c : Core) : Prop where
  agreed : Agreed c
  unknown : Unknown c
  polls : c.valid → c.stage = .Poll

/-- The reply to the poll of this blank is the controller's. -/
def Matched (c : Core) : Prop :=
  ∃ r, c.polled = some r ∧ r.good ∧ r.out 2 = kReplyMagic ∧ c.probed = some (r.out 1)

/-- What holds before a record is made. -/
structure Ready (c : Core) : Prop extends Between c where
  matched : c.valid → Matched c

/-- What holds in a blank that does not poll. -/
structure Discovering (c : Core) : Prop where
  off : Off c
  agreed : Agreed c
  unknown : Unknown c

variable {c : Core}

theorem Discovering.ready (h : Discovering c) : Ready c where
  agreed := h.agreed
  unknown := h.unknown
  polls hvalid := absurd hvalid (by rw [h.off]; decide)
  matched hvalid := absurd hvalid (by rw [h.off]; decide)

/-- Only a port that is polled has a valid reply. -/
theorem Between.off (h : Between c) (hstage : c.stage ≠ .Poll) : Off c :=
  Bool.eq_false_iff.mpr fun hvalid => hstage (h.polls hvalid)

theorem Between.discovering (h : Between c) (hstage : c.stage ≠ .Poll) : Discovering c :=
  ⟨h.off hstage, h.agreed, h.unknown⟩

/-- An accepted open leaves no id and nothing valid. -/
theorem discovering_reset (c : Core) : Discovering c.reset := ⟨rfl, .inl rfl, fun _ => rfl⟩

theorem stable_discovering : Stable Discovering := fun c _ => discovering_reset c

theorem stable_between : Stable Between := fun c _ => (discovering_reset c).ready.toBetween

theorem stable_ready : Stable Ready := fun c _ => (discovering_reset c).ready

/-- A blank that does not poll makes no valid record. -/
theorem Runs.ready {K : Core → Prop} {p : Driver Unit}
    (h : Runs (Asserts K) p fun _ => Asserts Discovering) :
    Runs (Asserts K) p fun _ => Asserts Ready :=
  .mono h (fun _ hv => hv) fun _ _ hv => ⟨hv.1, hv.2.ready⟩

/-! ### Discovery -/

/-- A probe that is answered gives the id. -/
def Probed (r : Reply) (c : Core) : Prop :=
  r.good ∧ r.out 1 ≠ 0 ∧ r.out 2 = kReplyMagic → c.probed = some (r.out 1)

theorem probed_exchanged (c : Core) (r : Reply) : Probed r (c.exchanged r .probe) :=
  fun h => if_pos h

/-- What the bytes of the port tell of a probe. -/
def Heard (good : Bool) (p : Port) (c : Core) : Prop :=
  good = true → p.silent = false → c.probed = some (p.reply 1)

/-- What a probe kept of a reply is what was heard. -/
theorem heard_of_probed {v : View} {r : Reply} (h : Probed r v.core)
    (hone : v.core.reply₁ = r.out 1) (htwo : v.core.reply₂ = r.out 2) :
    Heard r.good v.port v.core := by
  intro hgood hsilent
  have hone' : v.port.reply 1 = r.out 1 := hone
  have htwo' : v.port.reply 2 = r.out 2 := htwo
  rw [Port.silent, decide_eq_false_iff_not, not_or, hone', htwo', not_not] at hsilent
  rw [hone']
  exact h ⟨hgood, hsilent⟩

/-- The exchange of a probe, and the look at what it left. -/
theorem probe_runs {K : Core → Prop} {ctrl2 : UInt32} {k : Bool → Port → Driver Unit}
    {Q : Unit → View → Prop} (hK : Stable K) (hprobed : ∀ c p, K c → K { c with probed := p })
    (hreply : ∀ c x y, K c → K { c with reply₁ := x, reply₂ := y })
    (hk : ∀ good p, Runs (Asserts fun c => K c ∧ Heard good p c) (k good p) Q) :
    Runs (Asserts K) (exchange .probe kPollFrame ctrl2 >>= fun good => port >>= fun p => k good p)
      Q := by
  refine .bind (exchange_runs (R := fun r c => K c ∧ Probed r c) (by decide) hK
    (fun r c h => ⟨hK c h.1, h.2⟩) (fun c r h => ⟨hprobed c _ h, probed_exchanged c r⟩)
    fun r c x y h => ⟨hreply c x y h.1, h.2⟩) fun good => ?_
  refine .bind (port_runs (R := fun p c => K c ∧ Heard good p c) ?_ ?_) fun p => hk good p
  · rintro c ⟨r, hgood, ⟨hkept, hprobe⟩, hbytes⟩
    exact ⟨r, hgood, ⟨hK c hkept, hprobe⟩, hbytes⟩
  · rintro v ⟨-, r, rfl, ⟨hkept, hprobe⟩, hone, htwo⟩
    exact ⟨hkept, heard_of_probed hprobe hone htwo⟩

/-- What is not heard of a probe that is not answered. -/
theorem not_heard {good : Bool} {p : Port} (h : ¬(!good || p.silent) = true) :
    good = true ∧ p.silent = false := by
  simpa using h

/-- The first probe leaves the port discovering. -/
theorem probeId_runs : Runs (Asserts fun c => Off c ∧ c.id = 0) probeId
    fun _ => Asserts Discovering := by
  have hstable : Stable fun c => Off c ∧ c.id = 0 := fun _ _ => ⟨rfl, rfl⟩
  have hagreed : Stable fun c => Off c ∧ Agreed c := fun _ _ => ⟨rfl, .inl rfl⟩
  refine .bind (set_runs_aside hstable (fun _ => ⟨rfl, rfl⟩) fun _ => rfl) fun _ => ?_
  refine probe_runs hstable (fun c p h => h) (fun c x y h => h) fun good p => ?_
  split
  next => exact .pure fun v hv => ⟨hv.1, hv.2.1.1, .inl hv.2.1.2, fun _ => hv.2.1.2⟩
  next hanswered =>
    obtain ⟨hgood, hsilent⟩ := not_heard hanswered
    refine .bind (set_runs (L := fun c => Off c ∧ Agreed c) ?_ (fun _ => ⟨rfl, rfl⟩) ?_)
      fun _ => ?_
    · exact fun c h => ⟨⟨rfl, rfl⟩, h.2⟩
    · exact fun v hv => ⟨hv.1.index, hv.2.1.1, .inr (hv.2.2 hgood hsilent)⟩
    refine .bind (set_runs_aside hagreed (fun _ => ⟨rfl, rfl⟩) fun _ => rfl) fun _ => ?_
    refine .bind (set_runs_aside hagreed (fun _ => ⟨rfl, rfl⟩) fun _ => rfl) fun _ => ?_
    exact set_runs hagreed (fun _ => ⟨rfl, rfl⟩) fun v hv => ⟨hv.1.index, hv.2.1, hv.2.2, nofun⟩

/-- The probe behind the configuration leaves the port discovering. -/
theorem reprobeId_runs : Runs (Asserts Discovering) reprobeId fun _ => Asserts Discovering := by
  have hstable : Stable fun c => Off c ∧ Unknown c := fun _ _ => ⟨rfl, fun _ => rfl⟩
  refine .mono (P := Asserts fun c => Off c ∧ Unknown c) ?_
    (fun v hv => ⟨hv.1, hv.2.off, hv.2.unknown⟩) fun _ _ h => h
  refine probe_runs hstable (fun c p h => h) (fun c x y h => h) fun good p => ?_
  split
  next =>
    refine .bind (set_runs (L := fun c => Off c ∧ c.id = 0) ?_ (fun _ => ⟨rfl, rfl⟩) ?_)
      fun _ => ?_
    · exact fun c h => ⟨⟨rfl, fun _ => rfl⟩, h.2⟩
    · exact fun v hv => ⟨hv.1.index, hv.2.1.1, rfl⟩
    · exact set_runs (fun _ _ => ⟨rfl, rfl⟩) (fun _ => ⟨rfl, rfl⟩) fun v hv =>
        ⟨hv.1.index, hv.2.1, .inl hv.2.2, fun _ => hv.2.2⟩
  next hanswered =>
    obtain ⟨hgood, hsilent⟩ := not_heard hanswered
    refine .bind (set_runs (L := fun c => Off c ∧ Agreed c) ?_ (fun _ => ⟨rfl, rfl⟩) ?_)
      fun _ => ?_
    · exact fun c h => ⟨⟨rfl, fun _ => rfl⟩, h.2⟩
    · exact fun v hv => ⟨hv.1.index, hv.2.1.1, .inr (hv.2.2 hgood hsilent)⟩
    · exact set_runs (fun _ _ => ⟨rfl, .inl rfl⟩) (fun _ => ⟨rfl, rfl⟩) fun v hv =>
        ⟨hv.1.index, hv.2.1, hv.2.2, nofun⟩

/-- An exchange that is no probe leaves a port that is being discovered so. -/
theorem configure_runs {bytes : List UInt8} {ctrl2 : UInt32} {R : Core → Prop} (hR : Stable R)
    (hbytes : 2 < bytes.length)
    (hreply : ∀ c x y, R c → R { c with reply₁ := x, reply₂ := y }) :
    Runs (Asserts R) (exchange .configure bytes ctrl2) fun _ => Asserts R :=
  .mono (exchange_runs (R := fun _ => R) hbytes hR (fun _ => hR) (fun _ _ h => h)
    fun _ => hreply) (fun _ h => h) fun _ _ h => ⟨h.1, h.2.elim fun _ hr => hr.2.1⟩

/-- A field that is not looked at. -/
theorem aside_runs {f : Port → Port}
    (hf : ∀ p, (f p).ee_address = p.ee_address ∧ (f p).frame = p.frame)
    (hcore : ∀ v : View, View.core { v with port := f v.port } = v.core) :
    Runs (Asserts Discovering) (set f) fun _ => Asserts Discovering :=
  set_runs_aside stable_discovering hf hcore

/-- A look at a field nothing depends on. -/
theorem look_runs {K : Core → Prop} (hK : Stable K) :
    Runs (Asserts K) port fun _ => Asserts K :=
  port_runs (R := fun _ => K) hK fun _ hv => hv.2

/-- A stage behind which there is an id, or is to be. -/
theorem stage_runs {stage : Stage} (hstage : stage ≠ .ProbeId) :
    Runs (Asserts Discovering) (set fun p => { p with stage }) fun _ => Asserts Discovering :=
  set_runs stable_discovering (fun _ => ⟨rfl, rfl⟩) fun _ hv =>
    ⟨hv.1.index, hv.2.off, hv.2.agreed, fun h => absurd h hstage⟩

/-- The id is forgotten, and discovery begins again. -/
theorem restart_runs : Runs (Asserts Discovering)
    (set (fun p => { p with id := 0 }) >>= fun _ => set fun p => { p with stage := .ProbeId })
    fun _ => Asserts Discovering := by
  refine .bind (set_runs (L := fun c => Discovering c ∧ c.id = 0) stable_discovering
    (fun _ => ⟨rfl, rfl⟩) fun v hv => ⟨hv.1.index, ⟨hv.2.off, .inl rfl, fun _ => rfl⟩, rfl⟩)
    fun _ => ?_
  exact set_runs (fun c h => ⟨discovering_reset c, rfl⟩) (fun _ => ⟨rfl, rfl⟩) fun v hv =>
    ⟨hv.1.index, hv.2.1.off, .inl hv.2.2, fun _ => hv.2.2⟩

/-- Entering the configuration leaves the port discovering. -/
theorem enterConfig_runs : Runs (Asserts Discovering) enterConfig fun _ => Asserts Discovering := by
  refine .bind (configure_runs stable_discovering (by decide) fun c x y h => ?_) fun good => ?_
  · exact ⟨h.off, h.agreed, h.unknown⟩
  split
  next =>
    refine .bind (aside_runs (fun _ => ⟨rfl, rfl⟩) fun _ => rfl) fun _ => ?_
    refine .bind (set_runs (L := Discovering) stable_discovering (fun _ => ⟨rfl, rfl⟩)
      fun v hv => ⟨Nat.zero_lt_succ 5, hv.2.off, hv.2.agreed, hv.2.unknown⟩) fun _ => ?_
    refine .bind (aside_runs (fun _ => ⟨rfl, rfl⟩) fun _ => rfl) fun _ => ?_
    exact stage_runs (by decide)
  next =>
    refine .bind (look_runs stable_discovering) fun p => ?_
    refine .bind (aside_runs (fun _ => ⟨rfl, rfl⟩) fun _ => rfl) fun _ => ?_
    split
    next =>
      refine .bind (aside_runs (fun _ => ⟨rfl, rfl⟩) fun _ => rfl) fun _ => ?_
      exact stage_runs (by decide)
    next => exact .pure fun _ hv => hv

/-- A configuration that fails leaves the port discovering. -/
theorem configFailed_runs : Runs (Asserts Discovering) configFailed
    fun _ => Asserts Discovering := by
  refine .bind (look_runs stable_discovering) fun p => ?_
  refine .bind (aside_runs (fun _ => ⟨rfl, rfl⟩) fun _ => rfl) fun _ => ?_
  split
  next => exact restart_runs
  next => exact .pure fun _ hv => hv

/-- A frame index that is below the last one of the table. -/
def Early (c : Core) : Prop := Discovering c ∧ c.frame_index < kFrameExit

theorem stable_early : Stable Early := fun c _ => ⟨discovering_reset c, Nat.zero_lt_succ 4⟩

/-- The model is kept while the port is discovering. -/
theorem keepModel_runs : Runs (Asserts Discovering) keepModel fun _ => Asserts Discovering := by
  refine .bind (look_runs stable_discovering) fun p => ?_
  split
  next =>
    refine .bind (look_runs stable_discovering) fun p => ?_
    exact aside_runs (fun _ => ⟨rfl, rfl⟩) fun _ => rfl
  next => exact .pure fun _ hv => hv

/-- The frame index goes up by one, from one that has been looked at. -/
theorem increment_runs (p : Port) : Runs (Asserts fun c => Early c ∧ p.frame_index < kFrameExit)
    (set fun q => { q with frame_index := p.frame_index + 1 }) fun _ => Asserts Discovering :=
  set_runs (fun c h => ⟨stable_early c h.1, h.2⟩) (fun _ => ⟨rfl, rfl⟩) fun _ hv =>
    ⟨Nat.succ_lt_succ hv.2.2, hv.2.1.1.off, hv.2.1.1.agreed, hv.2.1.1.unknown⟩

theorem look_early : Runs (Asserts Early) port
    fun p => Asserts fun c => Early c ∧ p.frame_index < kFrameExit :=
  port_runs stable_early fun _ hv => ⟨hv.2, hv.2.2⟩

/-- The next frame is taken while the port is discovering. -/
theorem nextFrame_runs : Runs (Asserts Early) nextFrame fun _ => Asserts Discovering := by
  refine .bind look_early fun p => ?_
  refine .bind (increment_runs p) fun _ => ?_
  refine .bind (port_runs (R := fun p c => Discovering c ∧
    (p.frame_index = kFrameMask → Early c)) ?_ ?_) fun p => ?_
  · exact fun c h => discovering_reset c
  · refine fun v hv => ⟨hv.2, fun hmask => ⟨hv.2, ?_⟩⟩
    exact hmask.trans_lt (Nat.lt_succ_self kFrameMask)
  split
  next hmask =>
    refine .mono (P := Asserts Early) ?_ (fun v hv => ⟨hv.1, hv.2.2 hmask⟩) fun _ _ h => h
    refine .bind (look_runs stable_early) fun p => ?_
    split
    next => exact .bind look_early fun p => increment_runs p
    next => exact .pure fun _ hv => ⟨hv.1, hv.2.1⟩
  next => exact .pure fun _ hv => ⟨hv.1, hv.2.1⟩

/-- A configuration frame that is answered leaves the port discovering. -/
theorem configAnswered_runs : Runs (Asserts Discovering) configAnswered
    fun _ => Asserts Discovering := by
  refine .bind (aside_runs (fun _ => ⟨rfl, rfl⟩) fun _ => rfl) fun _ => ?_
  refine .bind keepModel_runs fun _ => ?_
  refine .bind (port_runs (R := fun p c => Discovering c ∧
    (p.frame_index ≠ kFrameExit → c.frame_index < kFrameExit)) stable_discovering
    fun v hv => ⟨hv.2, fun hexit => ?_⟩) fun p => ?_
  · have hindex : v.port.frame_index < kFrameExit + 1 := hv.1.index
    exact Nat.lt_of_le_of_ne (Nat.le_of_lt_succ hindex) hexit
  split
  next =>
    refine .mono (stage_runs (by decide)) (fun v hv => ⟨hv.1, hv.2.1⟩) fun _ _ h => h
  next hexit => exact .mono nextFrame_runs (fun v hv => ⟨hv.1, hv.2.1, hv.2.2 hexit⟩) fun _ _ h => h

/-- The bytes of a frame of the table are there to be sent. -/
theorem frame_runs {index : ℕ} : Runs
    (Asserts fun c => Discovering c ∧ index < kConfigFrameCount) (frame index)
    fun bytes => Asserts fun c => Discovering c ∧ 2 < bytes.length := by
  refine ask_runs (fun c h => ⟨discovering_reset c, h.2⟩) (fun v hv => hv.2.2) ?_
  intro v bytes hv hbytes
  refine ⟨hv.1, hv.2.1, ?_⟩
  have hall : ∀ b ∈ kConfigFrames, 2 < b.length := by decide
  exact hall bytes (List.mem_of_getElem? hbytes)

/-- And are sent. -/
theorem sent_runs (bytes : List UInt8) : Runs
    (Asserts fun c => Discovering c ∧ 2 < bytes.length) (exchange .configure bytes kCtrl2)
    fun _ => Asserts Discovering := by
  by_cases hbytes : 2 < bytes.length
  · refine .mono (configure_runs stable_discovering hbytes fun c x y h => ?_)
      (fun v hv => ⟨hv.1, hv.2.1⟩) fun _ _ h => h
    exact ⟨h.off, h.agreed, h.unknown⟩
  · exact fun v hv => absurd hv.2.2 hbytes

/-- The configuration frames leave the port discovering. -/
theorem configFrames_runs : Runs (Asserts Discovering) configFrames
    fun _ => Asserts Discovering := by
  refine .bind (port_runs (R := fun p c => Discovering c ∧ p.frame_index < kConfigFrameCount)
    stable_discovering fun v hv => ⟨hv.2, hv.1.index⟩) fun p => ?_
  refine .bind frame_runs fun bytes => ?_
  refine .bind (sent_runs bytes) fun good => ?_
  refine .bind (look_runs stable_discovering) fun p => ?_
  split
  next => exact configAnswered_runs
  next => exact configFailed_runs

/-! ### Polling -/

/-- A port that has been reset since it was found polled has no id. -/
def Polling (c : Core) : Prop := Between c ∧ (c.id = 0 ∨ c.stage = .Poll)

theorem stable_polling : Stable Polling := fun c _ =>
  ⟨(discovering_reset c).ready.toBetween, .inl rfl⟩

/-- What is not valid any more. -/
theorem invalidate_runs : Runs (Asserts Between) (set fun p => { p with valid := false })
    fun _ => Asserts Discovering :=
  set_runs stable_between (fun _ => ⟨rfl, rfl⟩) fun _ hv =>
    ⟨hv.1.index, rfl, hv.2.agreed, hv.2.unknown⟩

/-- A poll that fails sends the port back to discovering. -/
theorem pollFailed_runs : Runs (Asserts Between) pollFailed fun _ => Asserts Discovering := by
  refine .bind invalidate_runs fun _ => ?_
  refine .bind (aside_runs (fun _ => ⟨rfl, rfl⟩) fun _ => rfl) fun _ => ?_
  refine .bind (look_runs stable_discovering) fun p => ?_
  refine .bind (aside_runs (fun _ => ⟨rfl, rfl⟩) fun _ => rfl) fun _ => ?_
  split
  next => exact .bind (aside_runs (fun _ => ⟨rfl, rfl⟩) fun _ => rfl) fun _ => restart_runs
  next => exact .pure fun _ hv => hv

theorem pollStrange_runs : Runs (Asserts Between) pollStrange fun _ => Asserts Discovering := by
  refine .bind invalidate_runs fun _ => ?_
  exact .bind (aside_runs (fun _ => ⟨rfl, rfl⟩) fun _ => rfl) fun _ => restart_runs

/-- A poll has been replied to, and its reply is in the port. -/
def Replied (c : Core) : Prop :=
  Polling c ∧ ∃ r, c.polled = some r ∧ r.good ∧ c.reply₁ = r.out 1 ∧ c.reply₂ = r.out 2

theorem stable_replied : Stable Replied := fun c h => ⟨stable_polling c h.1, h.2⟩

/-- A reply that is taken for the controller's. -/
def Right (c : Core) : Prop := Between c ∧ c.stage = .Poll ∧ Matched c

/-- A reply that is judged good is that of the id the port is known by. -/
theorem judge_runs : Runs (Asserts Replied) judge
    fun b => Asserts fun c => Between c ∧ (b → Right c) := by
  refine ask_runs stable_replied (fun _ _ => trivial) fun v b hv hb => ⟨hv.1, hv.2.1.1, ?_⟩
  intro hright
  obtain ⟨⟨hbetween, hpolled⟩, r, hr, hgood, hone, htwo⟩ := hv.2
  obtain ⟨hanswered, hid⟩ := hb
  have hid := hid hright
  rw [hright, eq_comm, Port.answered, decide_eq_true_eq] at hanswered
  have hmagic : r.out 2 = kReplyMagic := htwo.symm.trans hanswered.1
  have hfirst : r.out 1 = v.port.id := hone.symm.trans hanswered.2
  refine ⟨hbetween, hpolled.resolve_left hid, r, hr, hgood, hmagic, ?_⟩
  rw [hfirst]
  exact hbetween.agreed.resolve_left hid

/-- No open is accepted between the verdict and what it leads to. -/
theorem validate_runs : Runs (Asserts Right) validate fun _ => Asserts Ready := by
  refine Prog.Under.op ?_ (fun v hv => ⟨hv.1.reads, trivial⟩) fun v _ hv _ => ?_
  · rintro v v' (rfl | ⟨hnever, -⟩) hv
    · exact hv
    · exact absurd hnever.1 (by decide)
  · obtain ⟨hcalm, hbetween, hstage, hmatched⟩ := hv
    refine ⟨⟨⟨hcalm.area, hcalm.older, hcalm.newest⟩, hcalm.counter, hcalm.pushing,
      hcalm.index⟩, ?_⟩
    exact ⟨⟨hbetween.agreed, hbetween.unknown, fun _ => hstage⟩, fun _ => hmatched⟩

/-- A poll ends with a record that is ready, or without one. -/
theorem poll_runs : Runs (Asserts Polling) poll fun _ => Asserts Ready := by
  refine .bind (exchange_runs (R := fun r c => Polling c ∧ c.polled = some r) (by decide)
    stable_polling (fun r c h => ⟨stable_polling c h.1, h.2⟩)
    (fun c r h => ⟨⟨⟨h.1.agreed, h.1.unknown, h.1.polls⟩, h.2⟩, rfl⟩)
    fun r c x y h => ⟨⟨⟨h.1.1.agreed, h.1.1.unknown, h.1.1.polls⟩, h.1.2⟩, h.2⟩) fun good => ?_
  split
  next =>
    refine .mono (pollFailed_runs.ready) (fun v hv => ⟨hv.1, ?_⟩) fun _ _ h => h
    exact hv.2.elim fun r hr => hr.2.1.1.1
  next hgood =>
    refine .mono (P := Asserts Replied) ?_ (fun v hv => ⟨hv.1, ?_⟩) fun _ _ h => h
    · refine .bind (set_runs_aside stable_replied (fun _ => ⟨rfl, rfl⟩) fun _ => rfl) fun _ => ?_
      refine .bind judge_runs fun b => ?_
      split
      next hb =>
        refine .mono (P := Asserts Right) ?_ (fun v hv => ⟨hv.1, hv.2.2 hb⟩) fun _ _ h => h
        refine .bind validate_runs fun _ => ?_
        refine .bind (look_runs stable_ready) fun p => ?_
        exact set_runs_aside stable_ready (fun _ => ⟨rfl, rfl⟩) fun _ => rfl
      next =>
        exact .mono (pollStrange_runs.ready) (fun v hv => ⟨hv.1, hv.2.1⟩) fun _ _ h => h
    · obtain ⟨r, hr, ⟨hpolling, hpolled⟩, hbytes⟩ := hv.2
      exact ⟨hpolling, r, hpolled, by simpa [hr] using hgood, hbytes⟩

/-- What is known of a port by the stage it was found in. -/
def Found : Stage → Core → Prop
  | .ProbeId => fun c => Off c ∧ c.id = 0
  | .Poll => Polling
  | _ => Discovering

theorem Between.found {c : Core} (h : Between c) : Found c.stage c := by
  cases hstage : c.stage
  case ProbeId => exact ⟨h.off (by rw [hstage]; decide), h.unknown hstage⟩
  case Poll => exact ⟨h, .inr hstage⟩
  all_goals exact h.discovering (by rw [hstage]; decide)

/-- **A blank's part of the state machine.** -/
theorem advance_runs : Runs (Asserts Between) advance fun _ => Asserts Ready := by
  refine .bind (port_runs (R := fun p => Found p.stage) stable_between
    fun v hv => hv.2.found) fun p => ?_
  cases p.stage with
  | ProbeId => exact probeId_runs.ready
  | EnterConfig => exact enterConfig_runs.ready
  | ConfigFrames => exact configFrames_runs.ready
  | ReprobeId => exact reprobeId_runs.ready
  | Poll => exact poll_runs

end PS2Bios.Padman
