import PS2Bios.Padman.Stages

/-!
# The making of a record

`pushRecord`. Nothing interferes from the load of the frame counter to the store of the next, so the
record is that of the port the load found (`recordOf`), lands in the half its counter names, and is
the newest one of the area from then on.
-/

namespace PS2Bios.Padman

open Driver

variable {α : Type} {v₀ : View} {P : View → Prop} {Q : α → View → Prop}

/-- What holds while a record is made. -/
structure Making (v : View) : Prop extends Account v where
  counter : v.port.frame = UInt32.ofNat v.pushes
  index : v.port.frame_index < kConfigFrameCount
  pushing : v.pushing = true
  ready : Ready v.core

theorem Interferes.eq_of_pushing {o : Op} {v v' : View} (h : Interferes o v v')
    (hpushing : v.pushing = true) : v' = v := by
  rcases h with rfl | ⟨hinterruptible, -⟩
  · rfl
  · exact absurd (hpushing.symm.trans hinterruptible.2) (by decide)

/-- The state a program begins in, fixed. -/
theorem Runs.fixed {p : Driver α} (h : ∀ v, P v → Runs (· = v) p Q) : Runs P p Q :=
  fun v hv => h v hv v rfl

/-- A field is read of the port as it is. -/
theorem Making.read_runs {k : Port → Driver α} (h : Making v₀) (hk : Runs (· = v₀) (k v₀.port) Q) :
    Runs (· = v₀) (port >>= k) Q := by
  rintro v rfl v' hE
  obtain rfl := hE.eq_of_pushing h.pushing
  refine ⟨⟨h.reads, trivial⟩, fun p hp => ?_⟩
  have hport : p = v'.port := hp
  subst hport
  exact hk v' rfl

theorem counter_runs : Runs (Asserts Ready) counter fun f v => Making v ∧ f = v.port.frame :=
  ask_runs stable_ready (fun _ _ => trivial) fun _ _ hv hf =>
    ⟨⟨⟨hv.1.area, hv.1.older, hv.1.newest⟩, hv.1.counter, hv.1.index, rfl, hv.2⟩, hf⟩

theorem close_runs : Runs (Asserts Ready) close fun _ => Asserts Between :=
  ask_runs stable_ready (fun _ _ => trivial) fun _ _ hv _ => ⟨hv.1, hv.2.toBetween⟩

/-- The block behind the first eight bytes of `recordOf`. -/
def blockOf (p : Port) (r : Record) : Record :=
  if p.valid then
    put (put (putReply (put (put r 0x08 0) 0x09 p.id) p) 0x27 (p.reply 2)) 0x28 0x20
  else put r 0x08 0xFF

/-- The record's buttons are made from the port as it was when the making began. -/
theorem block_runs {k : Record → Driver α} {r : Record} (h : Making v₀)
    (hk : Runs (· = v₀) (k (blockOf v₀.port r)) Q) : Runs (· = v₀) (block r >>= k) Q := by
  refine .bind (Q := fun b v => b = blockOf v₀.port r ∧ v = v₀) (h.read_runs ?_) fun b => ?_
  · unfold blockOf
    split
    next => exact h.read_runs (h.read_runs (.pure fun _ hv => ⟨rfl, hv⟩))
    next => exact .pure fun _ hv => ⟨rfl, hv⟩
  · rintro v ⟨rfl, rfl⟩
    exact hk v rfl

/-- Nothing interferes with the making of the record. -/
theorem makeRecord_runs (h : Making v₀) : Runs (· = v₀) (makeRecord v₀.port.frame)
    fun r v => r = recordOf v₀.port ∧ v = v₀ := by
  refine h.read_runs (h.read_runs (block_runs h ?_))
  refine h.read_runs (h.read_runs (h.read_runs (h.read_runs (h.read_runs ?_))))
  exact .pure fun _ hv => ⟨rfl, hv⟩

theorem Making.frameOf_record {v : View} (h : Making v) :
    frameOf (recordOf v.port) = v.pushes % 2 ^ 32 := by
  rw [frameOf_recordOf, h.counter, UInt32.toNat_ofNat']

/-- A record that is lost leaves the area. -/
theorem Making.lost {v : View} (h : Making v) : Account { v with pushes := v.pushes + 1 } where
  area := h.area
  older r hr := Nat.lt_succ_of_lt (h.older r hr)
  newest hfresh hpushes := h.newest hfresh (Nat.le_of_succ_le hpushes)

/-- One that is delivered is the newest. -/
theorem Making.delivered {v : View} (h : Making v) :
    Account { v with
      ee := Padman.delivered v.ee
        (v.port.ee_address + halfOf (frameOf (recordOf v.port))) (recordOf v.port)
      pushes := v.pushes + 1
      last := some (recordOf v.port) } where
  area := h.area
  older r hr := by
    have hframe := h.frameOf_record
    have hle := Nat.mod_le v.pushes (2 ^ 32)
    rw [← Option.some.inj hr, hframe]
    exact Nat.lt_succ_of_le hle
  newest hfresh hpushes := by
    have hlt : v.pushes < 2 ^ 32 := hpushes
    have hframe := h.frameOf_record
    rw [Nat.mod_eq_of_lt hlt] at hframe
    refine (h.newest hfresh (Nat.le_of_lt hlt)).push (fun r hr => ?_) h.area
    rw [hframe]
    exact h.older r hr

/-- Whether SIFMAN takes the transfer or not, the area tells of the last record delivered. -/
theorem Making.sent {v : View} (h : Making v) (sent : Bool) :
    Account (v.next (.send (v.port.ee_address + halfOf (frameOf (recordOf v.port)))
      (recordOf v.port)) sent) := by
  cases sent with
  | false => exact h.lost
  | true => exact h.delivered

/-- The half a record is sent to is the one its counter names. -/
theorem half_recordOf (p : Port) : p.ee_address + (if p.frame &&& 1 ≠ 0 then 0x40 else 0) =
    p.ee_address + halfOf (frameOf (recordOf p)) := by
  rw [halfOf, frameOf_recordOf]
  have hbit : (p.frame &&& 1).toNat = p.frame.toNat % 2 := by
    rw [UInt32.toNat_and]
    exact Nat.and_one_is_mod _
  congr 1
  refine if_congr ?_ rfl rfl
  rw [ne_eq, ← UInt32.toNat_inj, hbit]
  exact Nat.mod_two_ne_zero

/-- The record is sent, and the counter goes up. -/
theorem send_runs (h : Making v₀) : Runs (· = v₀)
    (send (v₀.port.ee_address + halfOf (frameOf (recordOf v₀.port))) (recordOf v₀.port) >>=
      fun _ => count (v₀.port.frame + 1)) fun _ => Asserts Between := by
  rintro v rfl v' hE
  obtain rfl := hE.eq_of_pushing h.pushing
  refine ⟨⟨h.reads, rfl, fun hvalid => h.ready.matched (valid_recordOf hvalid)⟩, fun sent _ => ?_⟩
  have hsent := h.sent sent
  intro v'' hE'
  obtain rfl := hE'.eq_of_pushing h.pushing
  have hcounter : v'.port.frame + 1 = UInt32.ofNat (v'.pushes + 1) := by
    rw [h.counter, UInt32.ofNat_add]
    rfl
  refine ⟨⟨hsent.reads, trivial⟩, fun _ _ => ⟨⟨?_, hcounter, rfl, h.index⟩, h.ready.toBetween⟩⟩
  exact ⟨hsent.area, hsent.older, hsent.newest⟩

/-- A record is made and pushed only when it is ready, and then the port is between two pushes. -/
theorem pushRecord_runs : Runs (Asserts Ready) pushRecord fun _ => Asserts Between := by
  refine .bind (look_runs stable_ready) fun p => ?_
  split
  next => exact close_runs
  next =>
    refine .bind counter_runs fun f => ?_
    rintro v ⟨hv, rfl⟩
    refine (Prog.Under.bind (makeRecord_runs hv) fun r => ?_) v rfl
    rintro v' ⟨rfl, rfl⟩
    refine hv.read_runs ?_ v' rfl
    rw [half_recordOf]
    exact send_runs hv

/-- **A blank, whatever requests are served in it.** -/
theorem blank_runs : Runs (Asserts Between) blank fun _ => Asserts Between := by
  refine .bind (ask_runs stable_between (fun _ _ => trivial) fun _ _ hv _ => hv) fun status => ?_
  refine .bind (set_runs_aside stable_between (fun _ => ⟨rfl, rfl⟩) fun _ => rfl) fun _ => ?_
  exact .bind advance_runs fun _ => pushRecord_runs

end PS2Bios.Padman
