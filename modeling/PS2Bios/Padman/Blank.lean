import Mathlib.Order.Basic
import PS2Bios.Padman.Record

/-!
# A blank, whatever requests are served in it

What the driver thread asks for in a blank is allowed (`Allowed`): a frame of the table, a record in
the half its counter names, a valid record only of a reply to the poll of that blank. An open may be
accepted before any of its questions but those that undo what the open has reset
(`Interruptible`): the store of `valid` behind the verdict on a reply, and all from the load of the
frame counter to the store of the next.

What is asserted along the way is of a few fields (`Core`), and outlasts an accepted open, which
leaves no id and nothing valid.
-/

namespace PS2Bios.Padman

open Driver

/-! ### What is allowed and what interferes -/

/-- The client finds in the area what was delivered last. -/
def Reads (v : View) : Prop :=
  v.fresh → v.pushes < 2 ^ 32 →
    read v.ee v.port.ee_address = decode (v.last.getD fun _ => 0)

/-- A frame of the table; and a record in its half, valid only if the reply to the poll of this
blank has the magic byte and the id the controller last gave a probe. -/
def Allowed (v : View) : Op → Prop
  | .frame index => index < kConfigFrameCount
  | .send dest record =>
    dest = v.port.ee_address + halfOf (frameOf record) ∧
      (record 0x06 ≠ 0 → ∃ reply, v.polled = some reply ∧ reply.good ∧
        reply.out 2 = kReplyMagic ∧ v.probed = some (reply.out 1))
  | _ => True

/-- Replies are what the port is, and no reply is taken for that of a port without an id. -/
def Relied (v : View) : (o : Op) → o.Answer → Prop
  | .port, p => p = v.port
  | .frame index, bytes => kConfigFrames[index]? = some bytes
  | .judge, b => b = v.port.answered v.port.id ∧ (b → v.port.id ≠ 0)
  | .counter, f => f = v.port.frame
  | _, _ => True

/-- What is watched over the driver: an operation is allowed where it leaves the client's view
right, and its reply is relied on where the controller could have given it. -/
def monitor : Monitor Op.Answer View where
  allows v o := Reads v ∧ Allowed v o
  relies := Relied
  next := View.next

/-- Whether a question is the store a verdict leads to. -/
def Op.validates : Op → Bool
  | .validate => true
  | _ => false

/-- Where an open may be accepted. -/
def Interruptible (v : View) (o : Op) : Prop :=
  o.validates = false ∧ v.pushing = false

/-- An accepted open, or nothing. Other requests do not change what a blank looks at. -/
def Interferes (o : Op) (v v' : View) : Prop :=
  v' = v ∨ Interruptible v o ∧ ∃ address : UInt32, ∃ ee,
    address.toNat + 2 * kRecordBytes ≤ 2 ^ 32 ∧ v' = v.opened address ee

theorem Interferes.refl (o : Op) (v : View) : Interferes o v v := .inl rfl

/-- What happens in two stretches of an access happens in one. -/
theorem Interferes.trans {o : Op} {u v w : View} (h : Interferes o u v) (h' : Interferes o v w) :
    Interferes o u w := by
  rcases h with rfl | ⟨hu, a, ee, ha, rfl⟩
  · exact h'
  · rcases h' with rfl | ⟨-, b, ee', hb, rfl⟩
    · exact .inr ⟨hu, a, ee, ha, rfl⟩
    · exact .inr ⟨hu, b, ee', hb, rfl⟩

/-- What part of a blank comes to. -/
def Runs {α : Type} (P : View → Prop) (p : Driver α) (Q : α → View → Prop) : Prop :=
  p.Under monitor Interferes P Q

/-! ### Assertions -/

/-- What is known of the area. -/
structure Account (v : View) : Prop where
  area : v.port.ee_address.toNat + 2 * kRecordBytes ≤ 2 ^ 32
  older : ∀ r ∈ v.last, frameOf r < v.pushes
  newest : v.fresh → v.pushes ≤ 2 ^ 32 → Newest v.ee v.port.ee_address v.last

/-- And outside the making of a record. -/
structure Calm (v : View) : Prop extends Account v where
  counter : v.port.frame = UInt32.ofNat v.pushes
  pushing : v.pushing = false
  index : v.port.frame_index < kConfigFrameCount

theorem Account.reads {v : View} (h : Account v) : Reads v :=
  fun hfresh hpushes => (h.newest hfresh (Nat.le_of_lt hpushes)).read

theorem newest_of_isClear {ee : EeMemory} {address : UInt32} (h : isClear ee address) :
    Newest ee address none := by
  intro i hi
  exact of_decide_eq_true (List.all_eq_true.mp h i (List.mem_range.mpr hi))

/-- An open of an area that does not run past the end leaves the port calm. -/
theorem Calm.opened {v : View} (h : Calm v) {address : UInt32} (ee : EeMemory)
    (haddress : address.toNat + 2 * kRecordBytes ≤ 2 ^ 32) : Calm (v.opened address ee) where
  area := haddress
  older := nofun
  newest hfresh _ := newest_of_isClear hfresh
  counter := rfl
  pushing := h.pushing
  index := (by decide : 0 < kConfigFrameCount)

/-- The fields the state machine of a blank depends on. -/
structure Core where
  stage : Stage
  frame_index : ℕ
  id : UInt8
  valid : Bool
  reply₁ : UInt8
  reply₂ : UInt8
  polled : Option Reply
  probed : Option UInt8

/-- The part of the view that decides what the driver does next. -/
def View.core (v : View) : Core :=
  ⟨v.port.stage, v.port.frame_index, v.port.id, v.port.valid, v.port.reply 1, v.port.reply 2,
    v.polled, v.probed⟩

/-- What an accepted open makes of them. -/
def Core.reset (c : Core) : Core :=
  { c with stage := .ProbeId, frame_index := 0, id := 0, valid := false }

/-- The assertion of a place. -/
def Asserts (K : Core → Prop) (v : View) : Prop := Calm v ∧ K v.core

/-- An assertion that outlasts an accepted open. -/
def Stable (K : Core → Prop) : Prop := ∀ c, K c → K c.reset

theorem Stable.asserts {K : Core → Prop} (hK : Stable K) {o : Op} {v v' : View}
    (h : Interferes o v v') (hv : Asserts K v) : Asserts K v' := by
  rcases h with rfl | ⟨-, address, ee, haddress, rfl⟩
  · exact hv
  · exact ⟨hv.1.opened ee haddress, hK _ hv.2⟩

/-! ### One question -/

section Questions

variable {K L : Core → Prop}

/-- A question the port is not changed by. -/
theorem ask_runs {o : Op} {Q : o.Answer → View → Prop} (hK : Stable K)
    (hallowed : ∀ v, Asserts K v → Allowed v o)
    (hnext : ∀ v r, Asserts K v → Relied v o r → Q r (v.next o r)) :
    Runs (Asserts K) (Prog.op o : Driver o.Answer) Q :=
  Prog.Under.op (fun _ _ hE hv => hK.asserts hE hv)
    (fun v hv => ⟨hv.1.reads, hallowed v hv⟩) hnext

/-- A field is read. -/
theorem port_runs {R : Port → Core → Prop} (hK : Stable K)
    (h : ∀ v, Asserts K v → R v.port v.core) : Runs (Asserts K) port fun p => Asserts (R p) :=
  ask_runs hK (fun _ _ => trivial) fun v p hv hp => by
    have hport : p = v.port := hp
    subst hport
    exact ⟨hv.1, h v hv⟩

/-- A field is written, one that is neither the counter nor the area's address. -/
theorem set_runs {f : Port → Port} (hK : Stable K)
    (hf : ∀ p, (f p).ee_address = p.ee_address ∧ (f p).frame = p.frame)
    (h : ∀ v, Asserts K v →
      (f v.port).frame_index < kConfigFrameCount ∧ L (View.core { v with port := f v.port })) :
    Runs (Asserts K) (set f) fun _ => Asserts L := by
  refine ask_runs hK (fun _ _ => trivial) fun v _ hv _ => ?_
  have hcalm := hv.1
  obtain ⟨haddress, hframe⟩ := hf v.port
  refine ⟨⟨⟨?_, hcalm.older, ?_⟩, ?_, hcalm.pushing, (h v hv).1⟩, (h v hv).2⟩
  · exact haddress ▸ hcalm.area
  · exact haddress ▸ hcalm.newest
  · exact hframe ▸ hcalm.counter

/-- One that no assertion is about. -/
theorem set_runs_aside {f : Port → Port} (hK : Stable K)
    (hf : ∀ p, (f p).ee_address = p.ee_address ∧ (f p).frame = p.frame)
    (hcore : ∀ v : View, View.core { v with port := f v.port } = v.core) :
    Runs (Asserts K) (set f) fun _ => Asserts K :=
  set_runs hK hf fun v hv =>
    ⟨(congrArg Core.frame_index (hcore v)).trans_lt hv.1.index, hcore v ▸ hv.2⟩

/-- What a transfer is known by. -/
def Core.exchanged (c : Core) (r : Reply) : Purpose → Core
  | .probe =>
    { c with probed := if r.good ∧ r.out 1 ≠ 0 ∧ r.out 2 = kReplyMagic then some (r.out 1)
        else c.probed }
  | .configure => c
  | .poll => { c with polled := some r }

theorem core_exchanged (v : View) (r : Reply) (purpose : Purpose) :
    (v.exchanged r purpose).core = v.core.exchanged r purpose := by
  cases purpose <;> rfl

theorem Calm.exchanged {v : View} (h : Calm v) (r : Reply) (purpose : Purpose) :
    Calm (v.exchanged r purpose) := by
  cases purpose <;> exact ⟨⟨h.area, h.older, h.newest⟩, h.counter, h.pushing, h.index⟩

/-- An exchange: its reply is in the port behind it. -/
theorem exchange_runs {R : Reply → Core → Prop} {purpose : Purpose} {bytes : List UInt8}
    {ctrl2 : UInt32} (hbytes : 2 < bytes.length) (hK : Stable K) (hR : ∀ r, Stable (R r))
    (htransfer : ∀ c r, K c → R r (c.exchanged r purpose))
    (hreply : ∀ r c x y, R r c → R r { c with reply₁ := x, reply₂ := y }) :
    Runs (Asserts K) (exchange purpose bytes ctrl2) fun good =>
      Asserts fun c => ∃ r, good = r.good ∧ R r c ∧ c.reply₁ = r.out 1 ∧ c.reply₂ = r.out 2 := by
  refine .bind (Q := fun r => Asserts (R r)) ?_ fun r => ?_
  · refine ask_runs hK (fun _ _ => trivial) fun v r hv _ => ⟨hv.1.exchanged r purpose, ?_⟩
    change R r (v.exchanged r purpose).core
    rw [core_exchanged]
    exact htransfer _ r hv.2
  · refine .bind (set_runs_aside (hR r) (fun _ => ⟨rfl, rfl⟩) fun _ => rfl) fun _ => ?_
    refine .bind (Q := fun _ => Asserts fun c => R r c ∧ c.reply₁ = r.out 1 ∧ c.reply₂ = r.out 2)
      (set_runs (hR r) (fun _ => ⟨rfl, rfl⟩) fun v hv => ⟨hv.1.index, ?_⟩) fun _ => ?_
    · refine ⟨?_, if_pos (by omega), if_pos hbytes⟩
      exact hreply r v.core _ _ hv.2
    · exact .pure fun v hv => ⟨hv.1, r, rfl, hv.2⟩

end Questions

end PS2Bios.Padman
