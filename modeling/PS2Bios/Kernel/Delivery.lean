import PS2Bios.Kernel.Interrupt

/-!
# Interrupt delivery

A delivery follows the links of records that its own handlers may take off the list and hand out
again. Its run is right as long as a handler that is off the list leaves the link of its record
alone: the handler it leads to is not removed, nor the record given to a handler in front of
another one (`Machine.Careful`). The invariant of the walk is that the list still splits into what
was passed and what is behind (`Running`), with the link of the running handler's record leading to
the second part, whether the record is on the list or not.
-/

namespace PS2Bios.Kernel.Interrupt

open Intrusive

/-- The handlers listed at the start that were not removed before their turn. -/
def Walk.due (w : Walk) (l : List Installed) : List Installed :=
  l.filter fun x => decide (x.id ∉ w.gone)

theorem Walk.due_append (w : Walk) (l l' : List Installed) :
    w.due (l ++ l') = w.due l ++ w.due l' :=
  List.filter_append ..

/-- What is to hold of the deliveries: those on their way have called what was due of the handlers
passed, each once and in order, and those over all that was. No walk makes more turns than there
were handlers, and every call of a slot returns. -/
structure Machine.Delivers (m : Machine) : Prop where
  running : ∀ w ∈ m.walks, ∃ passed current behind, w.listed = passed ++ current :: behind ∧
    w.called = w.due passed ++ [current] ∧ current.id ∉ w.gone
  finished : ∀ w ∈ m.finished, w.called = w.due w.listed
  distinct : ∀ w ∈ m.walks ++ m.finished, (w.listed.map Installed.id).Nodup
  ends : ∀ w ∈ m.walks ++ m.finished,
    w.called.length ≤ w.listed.length ∧ w.listed.length ≤ kHandlers
  answers : ∀ c, (perform m.handlers c).isSome

/-- The steps that leave the links of the running handlers' records alone. An installation also
finds the counter of ids not gone round. -/
def Machine.Careful (m : Machine) : Event → Prop
  | .call (.add line ..) => line.installs → ∀ k ∈ freeRecord m.handlers,
    m.handlers.next_id ≠ 0 ∧ ∀ w ∈ m.walks, w.position = k →
      (prepareLists m.handlers).head line = m.handlers.next k
  | .call (.remove line id) => ∀ w ∈ m.walks, w.line = line →
    (m.handlers.records w.position).id = 0 → m.handlers.next w.position ≠ kNone →
    (m.handlers.records (m.handlers.next w.position)).id ≠ id
  | _ => True

instance (m : Machine) (e : Event) : Decidable (m.Careful e) := by
  unfold Machine.Careful
  split <;> infer_instance

/-- A step that is. -/
def Machine.CarefulStep (m : Machine) (e : Event) (m' : Machine) : Prop :=
  m.Careful e ∧ m.step e = some m'

variable {s s' : Handlers} {L : Line → List ℕ} {line : Line} {k : ℕ} {w : Walk}
  {passed after : List Installed} {current : Installed} {front behind l₁ l₂ : List ℕ}

/-- A delivery on its way: the records passed and those behind. -/
structure Running (s : Handlers) (L : Line → List ℕ) (w : Walk) (passed : List Installed)
    (current : Installed) (after : List Installed) (front behind : List ℕ) : Prop where
  listed : w.listed = passed ++ current :: after
  called : w.called = w.due passed ++ [current]
  list : L w.line = front ++ behind
  pending : (behind.map fun k => (s.records k).toInstalled) = w.due after
  link : s.next w.position = behind.headD kNone
  spared : ∀ x ∈ w.called, x.id ∉ w.gone
  bounded : w.listed.length ≤ kHandlers
  nodup : (w.listed.map Installed.id).Nodup

variable (line) in
/-- Installing keeps every delivery on its way. -/
theorem Running.install (h : Running s L w passed current after front behind) (hs : Lists s L)
    (hk : freeRecord s = some k) (hpos : w.position = k → s.head line = s.next k)
    (handler arg gp : ℕ) : ∃ front', Running (Interrupt.install s line handler arg gp).1
      (Function.update L line (k :: L line)) w passed current after front' behind := by
  have hfree := (freeRecord_eq_some hk).2
  have hrecords : (Interrupt.install s line handler arg gp).1.records =
      Function.update s.records k ⟨⟨handler, arg, gp, s.next_id⟩, s.head line⟩ := by
    rw [install_eq hs.ready hk]
  have hbehind : ∀ j ∈ behind, j ≠ k := by
    rintro j hj rfl
    exact hs.used w.line j (h.list ▸ List.mem_append_right front hj) hfree
  have hpending : (behind.map fun k =>
      ((Interrupt.install s line handler arg gp).1.records k).toInstalled) = w.due after := by
    rw [← h.pending]
    refine List.map_congr_left fun j hj => ?_
    rw [hrecords, Function.update_of_ne (hbehind j hj)]
  have hlink : (Interrupt.install s line handler arg gp).1.next w.position =
      behind.headD kNone := by
    rw [← h.link]
    unfold Handlers.next
    rw [hrecords]
    rcases eq_or_ne w.position k with heq | hne
    · rw [heq, Function.update_self]
      exact hpos heq
    · rw [Function.update_of_ne hne]
  rcases eq_or_ne w.line line with heq | hne
  · refine ⟨k :: front, h.listed, h.called, ?_, hpending, hlink, h.spared, h.bounded, h.nodup⟩
    rw [heq, Function.update_self, ← heq, h.list, List.cons_append]
  · refine ⟨front, h.listed, h.called, ?_, hpending, hlink, h.spared, h.bounded, h.nodup⟩
    rw [Function.update_of_ne hne]
    exact h.list

/-! ### Removing -/

/-- What a removal makes of what is due. -/
theorem Walk.due_removed (w : Walk) (line : Line) (id : ℕ) (l : List Installed) :
    (w.removed line id).due l =
      if w.line = line ∧ id ∉ w.called.map Installed.id then (w.due l).filter (·.id ≠ id)
      else w.due l := by
  unfold Walk.due Walk.removed
  split
  · rw [List.filter_filter]
    refine List.filter_congr fun x _ => ?_
    rw [← Bool.decide_and]
    refine decide_eq_decide.mpr ?_
    rw [List.mem_cons, not_or]
  · rfl

/-- A removal leaves the rest of a delivery as it is. -/
theorem Walk.removed_fields (w : Walk) (line : Line) (id : ℕ) :
    (w.removed line id).line = w.line ∧ (w.removed line id).position = w.position ∧
      (w.removed line id).listed = w.listed ∧ (w.removed line id).called = w.called := by
  unfold Walk.removed
  split <;> exact ⟨rfl, rfl, rfl, rfl⟩

/-- What was called was due, and still is. -/
theorem Running.due_passed (h : Running s L w passed current after front behind) (line : Line)
    (id : ℕ) : (w.removed line id).due passed = w.due passed := by
  rw [Walk.due_removed]
  split
  · rename_i hid
    refine List.filter_eq_self.mpr fun x hx => decide_eq_true fun heq => hid.2 ?_
    rw [h.called, ← heq]
    exact List.mem_map_of_mem (List.mem_append_left _ hx)
  · rfl

/-- A removal during a walk spares the handlers that were called before it. -/
theorem Running.removed_spared (h : Running s L w passed current after front behind) (line : Line)
    (id : ℕ) : ∀ x ∈ w.called, x.id ∉ (w.removed line id).gone := by
  intro x hx
  unfold Walk.removed
  split
  · rename_i hid
    rw [List.mem_cons, not_or]
    refine ⟨?_, h.spared x hx⟩
    rintro rfl
    exact hid.2 (List.mem_map_of_mem hx)
  · exact h.spared x hx

/-- What a removal leaves of a delivery on its way, given what it leaves behind. -/
theorem Running.removed {behind' front' : List ℕ} {L' : Line → List ℕ} {id : ℕ}
    (h : Running s L w passed current after front behind) (hlist : L' w.line = front' ++ behind')
    (hpending : (behind'.map fun k => (s'.records k).toInstalled) =
      (w.removed line id).due after)
    (hlink : s'.next w.position = behind'.headD kNone) :
    Running s' L' (w.removed line id) passed current after front' behind' := by
  obtain ⟨hline, hposition, hlisted, hcalled⟩ := w.removed_fields line id
  constructor
  case listed => rw [hlisted, h.listed]
  case called => rw [hcalled, h.called, h.due_passed]
  case list => rw [hline, hlist]
  case pending => exact hpending
  case link => rw [hposition, hlink]
  case spared =>
    rw [hcalled]
    exact h.removed_spared line id
  case bounded =>
    rw [hlisted]
    exact h.bounded
  case nodup =>
    rw [hlisted]
    exact h.nodup

theorem headD_mem {l : List ℕ} {x d : ℕ} (h : l.headD d = x) (hne : x ≠ d) : x ∈ l := by
  cases l with
  | nil => exact absurd h.symm hne
  | cons a as => exact h ▸ List.mem_cons_self

/-- A list cut in two, and at a member: the member is in the second part, -/
theorem split_behind (h : front ++ behind = l₁ ++ k :: l₂) (hnd : (l₁ ++ k :: l₂).Nodup)
    (hk : k ∈ behind) : ∃ b₁, behind = b₁ ++ k :: l₂ ∧ l₁ = front ++ b₁ := by
  rcases List.append_eq_append_iff.mp h with ⟨b₁, rfl, rfl⟩ | ⟨c, rfl, hc⟩
  · exact ⟨b₁, rfl, rfl⟩
  · cases c with
    | nil => exact ⟨[], hc.symm, (List.append_nil l₁).symm.trans (List.append_nil _).symm⟩
    | cons x f₂ =>
      obtain ⟨rfl, rfl⟩ := List.cons.inj hc
      have hk₂ := (List.nodup_cons.mp (List.nodup_append.mp hnd).2.1).1
      exact absurd (List.mem_append_right f₂ hk) hk₂

/-- or in the first. -/
theorem split_front (h : front ++ behind = l₁ ++ k :: l₂) (hk : k ∉ behind) :
    ∃ f₂, l₂ = f₂ ++ behind := by
  rcases List.append_eq_append_iff.mp h with ⟨b₁, -, rfl⟩ | ⟨c, -, hc⟩
  · exact absurd (List.mem_append_right b₁ List.mem_cons_self) hk
  · cases c with
    | nil =>
      rw [List.nil_append] at hc
      exact absurd (hc ▸ List.mem_cons_self) hk
    | cons x f₂ => exact ⟨f₂, (List.cons.inj hc).2⟩

/-- The link of the running handler's record follows the removal of the handler it leads to, which
the record is then on the list for. -/
theorem Running.link_behind {b₁ : List ℕ}
    (h : Running s L w passed current after front (b₁ ++ k :: l₂)) (hs : Lists s L)
    (hl : L w.line = front ++ b₁ ++ k :: l₂) (hu : Unlinked s s' (front ++ b₁) k)
    (hcare : (s.records w.position).id = 0 → s.next w.position ≠ kNone →
      (s.records (s.next w.position)).id ≠ (s.records k).id) :
    s'.next w.position = (b₁ ++ l₂).headD kNone := by
  have hkL : k ∈ L w.line := hl ▸ List.mem_append_right _ List.mem_cons_self
  have hchain : Chain kNone s.next (s.head w.line) (front ++ b₁ ++ k :: l₂) := hl ▸ hs.chain w.line
  have hnd : (front ++ b₁ ++ k :: l₂).Nodup := hl ▸ hs.nodup w.line
  have hlink := h.link
  cases b₁ with
  | nil =>
    rw [List.nil_append] at hlink
    change s.next w.position = k at hlink
    have hpos : w.position ∈ L w.line := by
      by_contra hoff
      -- off its list the record is free: a list it is on would have the handler behind it too
      refine hcare (hs.free _ fun line' hmem => ?_) ?_ ?_
      · rcases (hs.chain line').next_mem hmem with hnil | hk
        · exact hchain.behind.1 (hlink.symm.trans hnil)
        · rw [hlink] at hk
          exact hoff (hs.disjoint line' w.line k hk hkL ▸ hmem)
      · rw [hlink]
        exact hchain.behind.1
      · rw [hlink]
    rw [hu.last _ (hchain.getLast?_eq hnd (hl ▸ hpos) hlink)]
    have hrest := hchain.behind.2
    cases l₂ with
    | nil => exact hrest
    | cons b bs => exact hrest.1
  | cons b bs =>
    change s.next w.position = b at hlink
    rw [hu.next w.position, hlink]
    · rfl
    · intro heq
      obtain rfl : b = k := hlink.symm.trans (hchain.next_getLast? heq)
      refine (List.nodup_append.mp hnd).2.2 b ?_ b List.mem_cons_self rfl
      exact List.mem_append_right front List.mem_cons_self

/-- A handler behind the running one was not called. -/
theorem Running.uncalled (h : Running s L w passed current after front behind) (hk : k ∈ behind) :
    (s.records k).id ∉ w.called.map Installed.id := by
  have hafter : (s.records k).toInstalled ∈ after := by
    refine List.mem_of_mem_filter (p := fun x => decide (x.id ∉ w.gone)) ?_
    change _ ∈ w.due after
    rw [← h.pending]
    exact List.mem_map_of_mem hk
  have hnd := h.nodup
  rw [h.listed, List.map_append, List.map_cons] at hnd
  obtain ⟨-, hnd₂, hnd₃⟩ := List.nodup_append.mp hnd
  have hid : (s.records k).id ∈ after.map Installed.id := List.mem_map_of_mem hafter
  rw [h.called, List.map_append, List.mem_append]
  rintro (hx | hx)
  · obtain ⟨x, hx, heq⟩ := List.mem_map.mp hx
    refine hnd₃ x.id (List.mem_map_of_mem (List.mem_of_mem_filter hx)) _ ?_ heq
    exact List.mem_cons_of_mem _ hid
  · refine (List.nodup_cons.mp hnd₂).1 ?_
    rw [List.map_singleton, List.mem_singleton] at hx
    exact hx ▸ hid

/-- A removal keeps every delivery on its way. -/
theorem Running.remove (h : Running s L w passed current after front behind) (hs : Lists s L)
    (hl : L line = l₁ ++ k :: l₂) (hu : Unlinked s s' l₁ k)
    (hcare : w.line = line → (s.records w.position).id = 0 → s.next w.position ≠ kNone →
      (s.records (s.next w.position)).id ≠ (s.records k).id) :
    ∃ front' behind', Running s' (Function.update L line (l₁ ++ l₂))
      (w.removed line (s.records k).id) passed current after front' behind' := by
  have hkL : k ∈ L line := hl ▸ List.mem_append_right l₁ List.mem_cons_self
  have hchain : Chain kNone s.next (s.head line) (l₁ ++ k :: l₂) := hl ▸ hs.chain line
  have hnd : (l₁ ++ k :: l₂).Nodup := hl ▸ hs.nodup line
  have hknone : k ≠ kNone := hchain.behind.1
  have hkept : ∀ l : List ℕ, k ∉ l → (l.map fun k => (s'.records k).toInstalled) =
      l.map fun k => (s.records k).toInstalled := fun l hkl =>
    List.map_congr_left fun j hj => hu.kept j fun heq => hkl (heq ▸ hj)
  -- the link of the running handler's record, unless it leads to what is taken out
  have hlink : k ∉ behind → s'.next w.position = behind.headD kNone := by
    intro hk
    rw [← h.link]
    refine hu.next w.position fun heq => hk (headD_mem ?_ hknone)
    rw [← h.link, hchain.next_getLast? heq]
  -- what is due behind, unless it is what is taken out
  have hdue : k ∉ behind → (w.removed line (s.records k).id).due after = w.due after := by
    intro hk
    rw [Walk.due_removed]
    split
    · rw [← h.pending]
      refine List.filter_eq_self.mpr fun x hx => decide_eq_true ?_
      obtain ⟨j, hj, rfl⟩ := List.mem_map.mp hx
      intro heq
      refine hk (hs.ids j k heq ?_ ▸ hj)
      exact hs.used w.line j (h.list ▸ List.mem_append_right front hj)
    · rfl
  by_cases hk : k ∈ behind
  · obtain rfl : line = w.line :=
      hs.disjoint line w.line k hkL (h.list ▸ List.mem_append_right front hk)
    obtain ⟨b₁, rfl, rfl⟩ := split_behind (h.list.symm.trans hl) hnd hk
    refine ⟨front, b₁ ++ l₂, h.removed ?_ ?_ (h.link_behind hs hl hu (hcare rfl))⟩
    · rw [Function.update_self, List.append_assoc]
    · have hrest : k ∉ b₁ ++ l₂ := by
        intro hmem
        refine (List.nodup_cons.mp (List.nodup_middle.mp hnd)).1 ?_
        rw [List.append_assoc]
        exact List.mem_append_right front hmem
      have hids : ∀ j ∈ b₁ ++ l₂, (s.records j).id ≠ (s.records k).id := by
        intro j hj heq
        refine hrest (hs.ids j k heq (hs.used w.line j ?_) ▸ hj)
        rw [hl, List.append_assoc]
        exact List.mem_append_right front (List.mem_append.mpr ((List.mem_append.mp hj).imp_right
          (List.mem_cons_of_mem k)))
      rw [hkept _ hrest, Walk.due_removed, if_pos ⟨rfl, h.uncalled hk⟩, ← h.pending,
        List.filter_map]
      refine congrArg _ ?_
      rw [List.filter_append, List.filter_cons_of_neg (by simp), ← List.filter_append]
      exact (List.filter_eq_self.mpr fun j hj => decide_eq_true (hids j hj)).symm
  · have hdue' := h.pending.trans (hdue hk).symm
    rcases eq_or_ne w.line line with rfl | hne
    · obtain ⟨f₂, rfl⟩ := split_front (h.list.symm.trans hl) hk
      refine ⟨l₁ ++ f₂, behind, h.removed ?_ ((hkept behind hk).trans hdue') (hlink hk)⟩
      rw [Function.update_self, List.append_assoc]
    · refine ⟨front, behind, h.removed ?_ ((hkept behind hk).trans hdue') (hlink hk)⟩
      rw [Function.update_of_ne hne, h.list]

/-! ### Turns -/

theorem prepareLists_records (s : Handlers) : (prepareLists s).records = s.records := by
  unfold prepareLists
  split <;> rfl

theorem prepareLists_ready (s : Handlers) : (prepareLists s).lists_ready = true := by
  unfold prepareLists
  split
  · assumption
  · rfl

theorem prepareLists_prepareLists (s : Handlers) : prepareLists (prepareLists s) = prepareLists s :=
  prepareLists_of_ready (prepareLists_ready s)

/-- The machine, with the lists the links stand for. -/
structure Machine.Sound (m : Machine) (L : Line → List ℕ) : Prop where
  lists : Lists (prepareLists m.handlers) L
  running : ∀ w ∈ m.walks, ∃ passed current after front behind,
    Running (prepareLists m.handlers) L w passed current after front behind
  finished : ∀ w ∈ m.finished, w.called = w.due w.listed ∧ w.listed.length ≤ kHandlers ∧
    (w.listed.map Installed.id).Nodup

variable (passed after front) in
/-- A delivery between two handlers: what is due is what the link leads to. -/
theorem Machine.Sound.turn {m : Machine} (hm : m.Sound L) (hlisted : w.listed = passed ++ after)
    (hcalled : w.called = w.due passed) (hlist : L w.line = front ++ behind)
    (hpending : (behind.map fun k => (m.handlers.records k).toInstalled) = w.due after)
    (hspared : ∀ x ∈ w.called, x.id ∉ w.gone) (hbounded : w.listed.length ≤ kHandlers)
    (hnodup : (w.listed.map Installed.id).Nodup) :
    (m.turn w (behind.headD kNone)).Sound L := by
  unfold Machine.turn
  cases behind with
  | nil =>
    rw [List.headD_nil, if_pos rfl]
    refine ⟨hm.lists, hm.running, List.forall_mem_cons.mpr ⟨⟨?_, hbounded, hnodup⟩, hm.finished⟩⟩
    -- nothing is due behind
    rw [hcalled, hlisted, Walk.due, Walk.due, List.filter_append]
    exact ((congrArg _ hpending.symm).trans (List.append_nil _)).symm
  | cons b bs =>
    have hchain : Chain kNone (prepareLists m.handlers).next
        ((prepareLists m.handlers).head w.line) (front ++ b :: bs) := hlist ▸ hm.lists.chain w.line
    rw [List.headD_cons, if_neg hchain.behind.1]
    refine ⟨hm.lists, List.forall_mem_cons.mpr ⟨?_, hm.running⟩, hm.finished⟩
    obtain ⟨a₁, a₂, rfl, hgone, hb, hrest⟩ := List.filter_eq_cons_iff.mp hpending.symm
    refine ⟨passed ++ a₁, (m.handlers.records b).toInstalled, a₂, front ++ [b], bs, ?_⟩
    constructor
    case listed =>
      rw [List.append_assoc]
      exact hlisted
    case called =>
      show w.called ++ _ = Walk.due w (passed ++ a₁) ++ _
      rw [hcalled, Walk.due, Walk.due, List.filter_append, List.filter_eq_nil_iff.mpr hgone,
        List.append_nil]
    case list =>
      rw [List.append_assoc]
      exact hlist
    case pending =>
      rw [prepareLists_records]
      exact hrest.symm
    case link => exact hchain.behind.2.eq_headD
    case spared =>
      intro x hx
      rcases List.mem_append.mp hx with hx | hx
      · exact hspared x hx
      · rw [List.mem_singleton.mp hx]
        exact of_decide_eq_true hb
    case bounded => exact hbounded
    case nodup => exact hnodup

/-! ### Steps -/

/-- Neither an installation nor a removal sees whether the lists were prepared. -/
theorem install_prepareLists (s : Handlers) (line : Line) (handler arg gp : ℕ) :
    install (prepareLists s) line handler arg gp = install s line handler arg gp := by
  unfold install
  rw [prepareLists_prepareLists]

theorem remove_prepareLists (s : Handlers) (line : Line) (id : ℕ) :
    remove (prepareLists s) line id = remove s line id := by
  unfold remove
  rw [prepareLists_prepareLists]

theorem freeRecord_prepareLists (s : Handlers) : freeRecord (prepareLists s) = freeRecord s := by
  unfold freeRecord
  rw [prepareLists_records]

theorem prepareLists_next (s : Handlers) : (prepareLists s).next = s.next := by
  unfold Handlers.next
  rw [prepareLists_records]

theorem prepareLists_next_id (s : Handlers) : (prepareLists s).next_id = s.next_id := by
  unfold prepareLists
  split <;> rfl

variable {m m' : Machine}

/-- A call that is refused changes nothing. -/
theorem Machine.Sound.prepared (hm : m.Sound L) {s : Handlers}
    (hs : s = m.handlers ∨ s = prepareLists m.handlers) :
    ({ m with handlers := s } : Machine).Sound L := by
  rcases hs with rfl | rfl
  · exact hm
  · refine ⟨?_, fun w hw => ?_, hm.finished⟩
    · show Lists (prepareLists (prepareLists m.handlers)) L
      rw [prepareLists_prepareLists]
      exact hm.lists
    · show ∃ _ _ _ _ _, Running (prepareLists (prepareLists m.handlers)) _ _ _ _ _ _ _
      rw [prepareLists_prepareLists]
      exact hm.running w hw

/-- A registration keeps the machine sound, at every depth of delivery. -/
theorem Machine.Sound.add {handler arg gp : ℕ} (hm : m.Sound L)
    (hcare : m.Careful (.call (.add line handler arg gp)))
    (h : m.step (.call (.add line handler arg gp)) = some m') : ∃ L', m'.Sound L' := by
  have hstep : m' = { m with
      handlers := (if line.installs then Interrupt.install m.handlers line handler arg gp
        else (m.handlers, none)).1 } := by
    simp only [Machine.step, perform_add, Option.map_some, Option.some.injEq] at h
    exact h.symm
  rw [hstep]
  by_cases hline : line.installs = true
  · rw [if_pos hline]
    cases hk : freeRecord m.handlers with
    | none =>
      refine ⟨L, hm.prepared (.inr ?_)⟩
      rw [← install_prepareLists, install_eq_self hm.lists.ready]
      rw [freeRecord_prepareLists, hk]
    | some k =>
      obtain ⟨hid, hpos⟩ := hcare hline k hk
      have hk' : freeRecord (prepareLists m.handlers) = some k := by
        rw [freeRecord_prepareLists, hk]
      have hlists := hm.lists.install line hk' (by rwa [prepareLists_next_id])
        handler arg gp
      rw [install_prepareLists] at hlists
      refine ⟨_, ⟨(prepareLists_of_ready hlists.ready).symm ▸ hlists, fun w hw => ?_, hm.finished⟩⟩
      obtain ⟨passed, current, after, front, behind, hrun⟩ := hm.running w hw
      have hpos' : w.position = k →
          (prepareLists m.handlers).head line = (prepareLists m.handlers).next k := by
        rw [prepareLists_next]
        exact hpos w hw
      obtain ⟨front', hrun'⟩ := hrun.install line hm.lists hk' hpos' handler arg gp
      rw [install_prepareLists] at hrun'
      refine ⟨passed, current, after, front', behind, ?_⟩
      exact (prepareLists_of_ready hlists.ready).symm ▸ hrun'
  · rw [if_neg hline]
    exact ⟨L, hm⟩

/-- A careful removal keeps the machine sound, at every depth of delivery. -/
theorem Machine.Sound.remove {id : ℕ} (hm : m.Sound L)
    (hcare : m.Careful (.call (.remove line id)))
    (h : m.step (.call (.remove line id)) = some m') : ∃ L', m'.Sound L' := by
  simp only [Machine.step, perform_remove] at h
  by_cases hline : line.served = true
  · rw [if_pos hline, ← remove_prepareLists] at h
    by_cases hmem : ∃ k ∈ L line, ((prepareLists m.handlers).records k).id = id
    · obtain ⟨k, hk, rfl⟩ := hmem
      obtain ⟨l₁, l₂, hl⟩ := List.append_of_mem hk
      obtain ⟨s', hremove, hlists, hunlinked⟩ := hm.lists.remove_some hl
      rw [hremove, Option.map_some, Option.some.injEq] at h
      subst h
      refine ⟨_, ⟨(prepareLists_of_ready hlists.ready).symm ▸ hlists, fun w hw => ?_, hm.finished⟩⟩
      obtain ⟨v, hv, rfl⟩ := List.mem_map.mp hw
      obtain ⟨passed, current, after, front, behind, hrun⟩ := hm.running v hv
      have hcare' := hcare v hv
      rw [← prepareLists_next, ← prepareLists_records] at hcare'
      obtain ⟨front', behind', hrun'⟩ := hrun.remove hm.lists hl hunlinked hcare'
      refine ⟨passed, current, after, front', behind', ?_⟩
      exact (prepareLists_of_ready hlists.ready).symm ▸ hrun'
    · rw [hm.lists.remove_none fun k hk heq => hmem ⟨k, hk, heq⟩, Option.map_some,
        Option.some.injEq] at h
      subst h
      exact ⟨L, hm.prepared (.inr rfl)⟩
  · rw [if_neg hline, Option.map_some, Option.some.injEq] at h
    subst h
    exact ⟨L, hm⟩

/-- Every careful step keeps the lists and the deliveries. -/
theorem Machine.Sound.step {e : Event} (hm : m.Sound L) (h : m.CarefulStep e m') :
    ∃ L', m'.Sound L' := by
  obtain ⟨hcare, h⟩ := h
  cases e with
  | call c =>
    cases c with
    | add line handler arg gp => exact hm.add hcare h
    | remove line id => exact hm.remove hcare h
  | enter line =>
    simp only [Machine.step] at h
    split at h
    · obtain rfl := Option.some.inj h
      refine ⟨L, ?_⟩
      have hready := prepareLists_ready m.handlers
      rw [hm.lists.listedFrom, (hm.lists.chain line).eq_headD]
      have hall : ∀ l : List Installed, (Walk.mk line kNone l [] []).due l = l := fun l =>
        List.filter_eq_self.mpr fun x _ => decide_eq_true List.not_mem_nil
      refine (hm.prepared (.inr rfl)).turn [] _ [] rfl rfl rfl
        (hall _).symm nofun ?_ ?_
      · rw [List.length_map]
        exact Nat.le_of_lt_succ (hm.lists.length_lt line)
      · -- the ids of different records differ
        rw [List.map_map]
        refine (hm.lists.nodup line).map_on fun i hi j hj heq => ?_
        exact hm.lists.ids i j heq (hm.lists.used line i hi)
    · exact absurd h nofun
  | leave =>
    simp only [Machine.step] at h
    split at h
    · exact absurd h nofun
    · rename_i w walks hwalks
      obtain rfl := Option.some.inj h
      refine ⟨L, ?_⟩
      obtain ⟨passed, current, after, front, behind, hrun⟩ := hm.running w
        (hwalks ▸ List.mem_cons_self)
      have hrest : ({ m with walks } : Machine).Sound L :=
        ⟨hm.lists, fun v hv => hm.running v (hwalks ▸ List.mem_cons_of_mem w hv), hm.finished⟩
      have hlink : (m.handlers.records w.position).next = behind.headD kNone := by
        rw [← hrun.link, prepareLists_next]
        rfl
      rw [hlink]
      refine hrest.turn (passed ++ [current]) after _ ?_ ?_ hrun.list ?_
        hrun.spared hrun.bounded hrun.nodup
      · rw [List.append_assoc]
        exact hrun.listed
      · have hcurrent : current.id ∉ w.gone :=
          hrun.spared current (hrun.called ▸ List.mem_append_right _ List.mem_cons_self)
        have hdue : w.due [current] = [current] := List.filter_eq_self.mpr fun x hx =>
          decide_eq_true (List.mem_singleton.mp hx ▸ hcurrent)
        rw [hrun.called, Walk.due_append, hdue]
      · rw [← hrun.pending, prepareLists_records]

/-- The machine without handlers is sound. -/
theorem Machine.started_sound : Machine.started.Sound fun _ => [] where
  lists := by
    refine ⟨rfl, fun _ => rfl, fun _ => List.nodup_nil, nofun, nofun, nofun, fun _ _ => rfl,
      ?_, ?_, ?_⟩
    · exact fun _ _ _ hne => absurd rfl hne
    · exact fun _ => .inl Nat.zero_lt_one
    · exact Nat.one_lt_two_pow (by decide)
  running := nofun
  finished := nofun

/-- In a sound machine every delivery has called what it should. -/
theorem Machine.Sound.delivers (hm : m.Sound L) : m.Delivers := by
  constructor
  case running =>
    intro w hw
    obtain ⟨passed, current, after, front, behind, hrun⟩ := hm.running w hw
    refine ⟨passed, current, after, hrun.listed, hrun.called, hrun.spared current ?_⟩
    exact hrun.called ▸ List.mem_append_right _ List.mem_cons_self
  case finished => exact fun w hw => (hm.finished w hw).1
  case distinct =>
    intro w hw
    rcases List.mem_append.mp hw with hw | hw
    · obtain ⟨passed, current, after, front, behind, hrun⟩ := hm.running w hw
      exact hrun.nodup
    · exact (hm.finished w hw).2.2
  case ends =>
    intro w hw
    rcases List.mem_append.mp hw with hw | hw
    · obtain ⟨passed, current, after, front, behind, hrun⟩ := hm.running w hw
      refine ⟨?_, hrun.bounded⟩
      have hle : (w.due passed).length ≤ passed.length := List.length_filter_le _ _
      simp only [hrun.called, hrun.listed, List.length_append, List.length_cons, List.length_nil]
      omega
    · obtain ⟨hcalled, hbounded, -⟩ := hm.finished w hw
      refine ⟨?_, hbounded⟩
      rw [hcalled]
      exact List.length_filter_le _ _
  case answers =>
    intro c
    cases c with
    | add line handler arg gp =>
      rw [perform_add]
      rfl
    | remove line id =>
      rw [perform_remove, ← remove_prepareLists]
      split
      · by_cases hmem : ∃ k ∈ L line, ((prepareLists m.handlers).records k).id = id
        · obtain ⟨k, hk, rfl⟩ := hmem
          obtain ⟨l₁, l₂, hl⟩ := List.append_of_mem hk
          obtain ⟨s', hremove, -⟩ := hm.lists.remove_some hl
          rw [hremove]
          rfl
        · rw [hm.lists.remove_none fun k hk heq => hmem ⟨k, hk, heq⟩]
          rfl
      · rfl

/-- **Every delivery of a careful run is right.** -/
theorem Machine.delivers_of_careful {events : List Event}
    (h : Steps Machine.CarefulStep Machine.started events m) : m.Delivers := by
  have hsound : ∃ L, m.Sound L :=
    h.invariant (I := fun m => ∃ L, m.Sound L) (fun _ _ _ ⟨_, hm⟩ hstep => hm.step hstep)
      ⟨_, Machine.started_sound⟩
  obtain ⟨L, hm⟩ := hsound
  exact hm.delivers

/-- Two handlers on a cause, of which the first removes itself: the second is called all the
same. -/
def lastingRun : List Event :=
  [.call (.add (.intc 2) 0x100 0 0), .call (.add (.intc 2) 0x200 0 0), .enter (.intc 2),
    .call (.remove (.intc 2) 2), .leave]

/-- A run in which a handler is put in front of another one calls both in their order. -/
theorem delivers_lastingRun : ∃ m, Steps Machine.CarefulStep Machine.started lastingRun m ∧
    m.Delivers ∧ m.walks.map Walk.called = [[⟨0x200, 0, 0, 2⟩, ⟨0x100, 0, 0, 1⟩]] := by
  have hrun : (runList (fun m e => if m.Careful e then m.step e else none) Machine.started
      lastingRun).map (fun m => m.walks.map Walk.called) =
      some [[⟨0x200, 0, 0, 2⟩, ⟨0x100, 0, 0, 1⟩]] := by
    decide +kernel
  obtain ⟨m, hm, hcalled⟩ := Option.map_eq_some_iff.mp hrun
  have hsteps : Steps Machine.CarefulStep Machine.started lastingRun m := by
    refine Steps.of_runList (fun m e m' hstep => ?_) hm
    split at hstep
    · exact ⟨‹_›, hstep⟩
    · exact absurd hstep nofun
  exact ⟨m, hsteps, Machine.delivers_of_careful hsteps, hcalled⟩

/-- A handler that removes itself, and then the one its record still leads to: that one is called
when it has been removed. -/
theorem not_delivers_of_run : ¬∀ (events : List Event) (m : Machine),
    runList Machine.step Machine.started events = some m → m.Delivers := by
  intro h
  have hrun : (runList Machine.step Machine.started
      [.call (.add (.intc 2) 0x100 0 0), .call (.add (.intc 2) 0x200 0 0), .enter (.intc 2),
        .call (.remove (.intc 2) 2), .call (.remove (.intc 2) 1), .leave]).map
        (fun m => m.walks.map fun w => (w.listed, w.called)) =
      some [([⟨0x200, 0, 0, 2⟩, ⟨0x100, 0, 0, 1⟩], [⟨0x200, 0, 0, 2⟩, ⟨0x100, 0, 0, 0⟩])] := by
    decide +kernel
  obtain ⟨m, hm, hwalks⟩ := Option.map_eq_some_iff.mp hrun
  obtain ⟨w, hw, heq⟩ := List.map_eq_singleton_iff.mp hwalks
  obtain ⟨hlisted, hcalled⟩ := Prod.mk.inj heq
  obtain ⟨passed, current, behind, hsplit, hlast, -⟩ :=
    (h _ m hm).running w (hw ▸ List.mem_cons_self)
  -- the last one called was not listed
  have hmem : current ∈ w.listed := hsplit ▸ List.mem_append_right _ List.mem_cons_self
  have hcurrent : current = ⟨0x100, 0, 0, 0⟩ := by
    have hback := congrArg List.getLast? (hlast.symm.trans hcalled)
    rw [List.getLast?_append, List.getLast?_singleton, Option.some_or] at hback
    exact Option.some.inj hback
  rw [hlisted, hcurrent] at hmem
  exact absurd hmem (by decide)

end PS2Bios.Kernel.Interrupt
