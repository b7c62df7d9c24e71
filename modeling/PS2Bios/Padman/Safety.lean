import PS2Bios.Padman.Pushing

/-!
# The pad's data path

Every state PADMAN reaches is `Good`: what the driver thread is about to ask is allowed, and the
client reads the record delivered last. So it is in every run whose steps are `Careful`: an open is
accepted neither between the verdict on a reply and the store of `valid` it leads to, nor between
the load of the frame counter and the store of the next; and no reply of the id 0 is judged while
the port has no id. A port's fields are reset under the feet of the driver thread, and what that
thread stores next undoes the reset (`reset_undone`).
-/

namespace PS2Bios.Padman

/-- What the driver thread asks next, in a blank. -/
def Place.op : Place → Option Op
  | .working (.ask o _) => some o
  | _ => none

/-- Whether that is the verdict on a reply. -/
def Place.judges : Place → Bool
  | .working (.ask .judge _) => true
  | _ => false

namespace State

/-- The area a client opens the port with is memory. -/
def Lawful (s : State) : Label → Prop
  | .serve request _ => s.accepts request → request.address.toNat + 2 * kRecordBytes ≤ 2 ^ 32
  | _ => True

/-- No open is accepted where it would be undone, and no reply is judged by an id that is not
there. -/
def Careful (s : State) : Label → Prop
  | .vblank => True
  | .serve request _ => s.accepts request → ∀ o ∈ s.place.op, Interruptible s.view o
  | .driver _ _ _ => s.place.judges → s.view.port.answered s.view.port.id → s.view.port.id ≠ 0

/-- A step in which no request names an area that runs past the end of the address space. -/
def Step (s : State) (label : Label) (s' : State) : Prop :=
  s.Lawful label ∧ s.step label = some s'

/-- A step whose request or reply is careful. -/
def CarefulStep (s : State) (label : Label) (s' : State) : Prop :=
  s.Careful label ∧ s.Step label s'

/-- What is claimed of a state: of what the driver thread asks next, and of what the client reads
between two pushes. -/
def Good (s : State) : Prop :=
  Reads s.view ∧ ∀ o ∈ s.place.op, Allowed s.view o

/-- The rest of the blank the driver thread is in runs as it should. -/
def Sound (s : State) : Prop :=
  match s.place with
  | .working p => p.wpUnder monitor Interferes (fun _ => Asserts Between) s.view
  | _ => Asserts Between s.view

variable {s s' : State}

/-- What is claimed of a state holds of a sound one. -/
theorem Sound.good (h : s.Sound) : s.Good := by
  obtain ⟨opened, event, place, v⟩ := s
  match place with
  | .waiting => exact ⟨h.1.reads, nofun⟩
  | .clearing => exact ⟨h.1.reads, nofun⟩
  | .looking => exact ⟨h.1.reads, nofun⟩
  | .working (.ret ()) => exact ⟨h.1.reads, nofun⟩
  | .working (.ask o k) =>
    obtain ⟨⟨hreads, hallowed⟩, -⟩ := Prog.wpUnder.step h (.refl o v)
    refine ⟨hreads, fun o' ho' => ?_⟩
    obtain rfl := Option.some.inj ho'
    exact hallowed

/-- The rest of a blank, or the wait for the next one. -/
theorem sound_of {p : Driver Unit} {opened event : Bool} {v : View}
    (h : p.wpUnder monitor Interferes (fun _ => Asserts Between) v) :
    Sound ⟨opened, event, .of p, v⟩ := by
  cases p with
  | ret a => exact h
  | ask o k => exact h

/-- An accepted open. -/
theorem Sound.opened (h : s.Sound) {address : UInt32} (ee : EeMemory)
    (haddress : address.toNat + 2 * kRecordBytes ≤ 2 ^ 32)
    (hplace : ∀ o ∈ s.place.op, Interruptible s.view o) :
    Sound { s with opened := true, view := s.view.opened address ee } := by
  have hbetween : ∀ v, Asserts Between v → Asserts Between (v.opened address ee) := fun v hv =>
    ⟨hv.1.opened ee haddress, stable_between _ hv.2⟩
  obtain ⟨opened, event, place, v⟩ := s
  match place with
  | .waiting => exact hbetween v h
  | .clearing => exact hbetween v h
  | .looking => exact hbetween v h
  | .working (.ret ()) => exact hbetween v h
  | .working (.ask o k) =>
    have hopen : Interferes o v (v.opened address ee) :=
      .inr ⟨hplace o rfl, address, ee, haddress, rfl⟩
    exact Prog.wpUnder.interfered h fun t ht => hopen.trans ht

/-- A request opens the port, or leaves all but whether it is open. -/
theorem serve_cases (s : State) (request : Request) (ee : EeMemory) :
    s.accepts request = true ∧ (s.serve request ee).2 =
        { s with opened := true, view := s.view.opened request.address ee } ∨
      ∃ opened, (s.serve request ee).2 = { s with opened } := by
  by_cases haccepts : s.accepts request = true
  · left
    obtain ⟨hcode, hfree⟩ := of_decide_eq_true haccepts
    refine ⟨haccepts, ?_⟩
    rw [serve, hcode, if_neg (by decide), if_pos rfl, if_neg hfree]
  · right
    rw [serve]
    split
    next => exact ⟨s.opened, rfl⟩
    split
    next hcode =>
      split
      next => exact ⟨s.opened, rfl⟩
      next hfree => exact absurd (decide_eq_true ⟨hcode, hfree⟩) haccepts
    split
    next => exact ⟨false, rfl⟩
    split
    next => exact ⟨s.opened, rfl⟩
    split
    next => exact ⟨s.opened, rfl⟩
    next => exact ⟨s.opened, rfl⟩

/-- A request served keeps the state sound. -/
theorem Sound.serve (h : s.Sound) {request : Request} {ee : EeMemory}
    (hlaw : s.Lawful (.serve request ee)) (hcare : s.Careful (.serve request ee)) :
    (s.serve request ee).2.Sound := by
  rcases s.serve_cases request ee with ⟨haccepts, heq⟩ | ⟨opened, heq⟩
  · rw [heq]
    exact h.opened ee (hlaw haccepts) (hcare haccepts)
  · rw [heq]
    exact h

/-- The surroundings answer as the driver thread relies on. -/
theorem relied_of_answer {v : View} {stat70 : UInt32} {reply : Reply} {sent : Bool} {o : Op}
    {k : o.Answer → Driver Unit} {r : o.Answer} (h : v.answer stat70 reply sent o = some r)
    (hcare : (Place.working (.ask o k)).judges → v.port.answered v.port.id → v.port.id ≠ 0) :
    Relied v o r := by
  cases o with
  | port => exact (Option.some.inj h).symm
  | frame index => exact h
  | counter => exact (Option.some.inj h).symm
  | judge =>
    obtain rfl := Option.some.inj h
    exact ⟨rfl, hcare rfl⟩
  | _ => trivial

/-- A blank begins without a reply to its poll. -/
theorem between_unpolled {v : View} (h : Asserts Between v) :
    Asserts Between { v with polled := none } :=
  ⟨⟨⟨h.1.area, h.1.older, h.1.newest⟩, h.1.counter, h.1.pushing, h.1.index⟩,
    ⟨h.2.agreed, h.2.unknown, h.2.polls⟩⟩

/-- An access of the driver thread keeps the state sound. -/
theorem Sound.drive (h : s.Sound) {stat70 : UInt32} {reply : Reply} {sent : Bool}
    (hcare : s.Careful (.driver stat70 reply sent)) (hdrive : s.drive stat70 reply sent = some s') :
    s'.Sound := by
  obtain ⟨opened, event, place, v⟩ := s
  match place with
  | .waiting =>
    obtain ⟨-, hs'⟩ := Option.ite_none_right_eq_some.mp hdrive
    obtain rfl := Option.some.inj hs'
    exact h
  | .clearing =>
    obtain rfl := Option.some.inj hdrive
    exact h
  | .looking =>
    cases opened with
    | true =>
      obtain rfl := Option.some.inj hdrive
      exact sound_of (blank_runs _ (between_unpolled h))
    | false =>
      obtain rfl := Option.some.inj hdrive
      exact h
  | .working (.ret ()) =>
    obtain rfl := Option.some.inj hdrive
    exact h
  | .working (.ask o k) =>
    obtain ⟨r, hr, hs'⟩ := Option.bind_eq_some_iff.mp hdrive
    obtain rfl := Option.some.inj hs'
    obtain ⟨-, hnext⟩ := Prog.wpUnder.step h (.refl o v)
    exact sound_of (hnext r (relied_of_answer hr hcare))

/-- Each careful step keeps the state sound. -/
theorem Sound.step (h : s.Sound) {label : Label} (hstep : s.CarefulStep label s') : s'.Sound := by
  obtain ⟨hcare, hlaw, hstep⟩ := hstep
  match label with
  | .vblank =>
    obtain rfl := Option.some.inj hstep
    exact h
  | .serve request ee =>
    obtain rfl := Option.some.inj hstep
    exact h.serve hlaw hcare
  | .driver stat70 reply sent => exact h.drive hcare hstep

theorem sound_start (port : Port) (ee : EeMemory) : (start port ee).Sound := by
  have harea : (0 : UInt32).toNat + 2 * kRecordBytes ≤ 2 ^ 32 := by decide
  have hindex : 0 < kConfigFrameCount := by decide
  exact ⟨⟨⟨harea, nofun, nofun⟩, rfl, rfl, hindex⟩, .inl rfl, fun _ => rfl, nofun⟩

/-- **Every state of a careful run is as it should be.** -/
theorem pad_data_path {port : Port} {ee : EeMemory} {l : List Label} {s : State}
    (h : Steps CarefulStep (start port ee) l s) : s.Good :=
  (h.invariant (fun _ _ _ hs hstep => Sound.step hs hstep) (sound_start port ee)).good

/-! ### Runs that are computed -/

instance (s : State) : DecidablePred s.Lawful
  | .vblank => isTrue trivial
  | .serve _ _ => inferInstanceAs (Decidable (_ → _ ≤ _))
  | .driver _ _ _ => isTrue trivial

instance (s : State) : DecidablePred s.Careful
  | .vblank => isTrue trivial
  | .serve _ _ => inferInstanceAs (Decidable (_ → ∀ o ∈ s.place.op, _ ∧ _))
  | .driver _ _ _ => inferInstanceAs (Decidable (_ → _ → _ ≠ _))

/-- A step of the relation, computed. -/
def lawfulStep (s : State) (label : Label) : Option State :=
  if s.Lawful label then s.step label else none

theorem step_of_lawfulStep {s s' : State} {label : Label} (h : s.lawfulStep label = some s') :
    s.Step label s' :=
  Option.ite_none_right_eq_some.mp h

/-- A careful step, computed. -/
def carefulStep (s : State) (label : Label) : Option State :=
  if s.Careful label then s.lawfulStep label else none

theorem carefulStep_of_carefulStep {s s' : State} {label : Label}
    (h : s.carefulStep label = some s') : s.CarefulStep label s' :=
  (Option.ite_none_right_eq_some.mp h).imp_right step_of_lawfulStep

/-- The port of an image that has just been loaded. -/
def blankPort : Port := ⟨0, 0, .ProbeId, 0, 0, 0, 0, 0, 0, 0, false, fun _ => 0, 0, 0⟩

/-- A controller of an id replies. -/
def replying (id : UInt8) : Reply :=
  ⟨0, fun k => if k = 1 then id else if k = 2 then kReplyMagic else 0⟩

/-- None does. -/
def silence : Reply := ⟨kStatusPortFailed, fun _ => 0⟩

/-- A blank of which the driver thread takes some steps. -/
def blankOf (steps : ℕ) (reply : Reply) : List Label :=
  .vblank :: List.replicate steps (.driver 0 reply true)

/-- The request that opens the port, with its area at 0x1000. -/
def opening : Label := .serve ⟨kCodeOpen, 0, 0, 0x1000⟩ fun _ => 0

/-- The request that closes the port. -/
def closing : Label := .serve ⟨kCodeClose, 0, 0, 0⟩ fun _ => 0

/-- A controller of the id 0x41 is discovered: it is probed, put into the configuration mode, sent
five frames, and probed again. -/
def discovery : List Label :=
  opening :: blankOf 28 (replying 0x41) ++ blankOf 26 (replying 0x41) ++
    blankOf 33 (replying kIdConfig) ++ blankOf 31 (replying kIdConfig) ++
    blankOf 31 (replying kIdConfig) ++ blankOf 34 (replying kIdConfig) ++
    blankOf 29 (replying kIdConfig) ++ blankOf 25 (replying 0x41)

/-- Whether the record about to be pushed, if there is one, is valid. -/
def pushes (s : State) : Option Bool :=
  match s.place with
  | .working (.ask (.send _ r) _) => some (r 0x06 ≠ 0)
  | _ => none

/-- The controller is polled, and a valid record pushed. -/
theorem pad_data_path_discovered :
    ∃ s, Steps CarefulStep (start blankPort fun _ => 0)
        (discovery ++ blankOf 27 (replying 0x41)) s ∧
      s.pushes = some true ∧ s.Good := by
  have h : (runList carefulStep (start blankPort fun _ => 0)
      (discovery ++ blankOf 27 (replying 0x41))).bind pushes = some true := by
    decide +kernel
  obtain ⟨s, hrun, hpushes⟩ := Option.bind_eq_some_iff.mp h
  have hsteps := Steps.of_runList (fun _ _ _ => carefulStep_of_carefulStep) hrun
  exact ⟨s, hsteps, hpushes, pad_data_path hsteps⟩

/-- A state that pushes a valid record is about to send one. -/
theorem op_of_pushes {s : State} (h : s.pushes = some true) :
    ∃ dest r, s.place.op = some (.send dest r) ∧ r 0x06 ≠ 0 := by
  obtain ⟨opened, event, place, v⟩ := s
  match place with
  | .working (.ask (.send dest r) k) =>
    exact ⟨dest, r, rfl, of_decide_eq_true (Option.some.inj h)⟩

/-- The port is closed and opened again behind the verdict on a good reply, and no controller
answers in the blank after. -/
def reopening : List Label :=
  discovery ++ blankOf 11 (replying 0x41) ++ [closing, opening] ++
    List.replicate 18 (.driver 0 silence true) ++ blankOf 24 silence

/-- The driver thread undoes the reset of `valid`, and pushes a valid record in a blank in which
nothing was polled. -/
theorem reset_undone : ¬∀ port ee l s, Steps Step (start port ee) l s → s.Good := by
  intro hall
  have h : (runList lawfulStep (start blankPort fun _ => 0) reopening).map
      (fun s => (s.pushes, s.view.polled.isNone)) = some (some true, true) := by
    decide +kernel
  obtain ⟨s, hrun, hseen⟩ := Option.map_eq_some_iff.mp h
  obtain ⟨hpushes, hnone⟩ := Prod.mk.inj hseen
  obtain ⟨dest, r, hop, hvalid⟩ := op_of_pushes hpushes
  have hgood := hall _ _ _ _ (Steps.of_runList (fun _ _ _ => step_of_lawfulStep) hrun)
  obtain ⟨-, hmatched⟩ := hgood.2 _ hop
  obtain ⟨reply, hpolled, -⟩ := hmatched hvalid
  rw [hpolled] at hnone
  cases hnone

end State

end PS2Bios.Padman
