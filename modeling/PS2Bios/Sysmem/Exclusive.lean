import Mathlib.Data.List.Perm.Basic
import PS2Bios.Library.Run
import PS2Bios.Sysmem.Placement

/-!
# SYSMEM: grants are exclusive

A client of the allocator sees calls and answers. From them it keeps a list of the grants that
are live: one more at each answer of ordinal 4 that is not 0, one less at each release that
answers 0. `Lawful` is what the client may expect of its next call. A grant is at least as
large as what was asked for, meets no live grant and starts where none of them starts; a
release of a live grant succeeds and frees that grant and nothing else.

Rounding is done in 32 bits, before any bound is checked, so a request of more than
`0xFFFFFF00` bytes rounds to no bytes at all and is granted an empty record. `Within` excludes
just these calls, and the law holds of a call exactly when it is `Within`
(`lawful_iff_within`).
-/

namespace PS2Bios.Sysmem

/-- The records, in address order. -/
def records (s : State) : List Block := (List.range s.blockCount).map s.blocks

/-- The grants that are live after a call, by its answer. -/
def observe (s : State) (live : List Block) : Call → List Block
  | .allocate mode size address =>
    let a := (allocate s mode size address).1
    if a = 0 then live else ⟨a, rounded size⟩ :: live
  | .release address =>
    if (deallocate s address).1 = 0 then live.filter fun g => g.start ≠ address.toNat else live

/-- Two ranges share no byte. -/
def Apart (a b : Block) : Prop := a.start + a.size ≤ b.start ∨ b.start + b.size ≤ a.start

/-- What a client that holds `live` may expect of its next call. -/
def Lawful (s : State) (live : List Block) : Call → Prop
  | .allocate mode size address =>
    let a := (allocate s mode size address).1
    a ≠ 0 → size.toNat ≤ rounded size ∧
      ∀ g ∈ live, g.start ≠ a ∧ Apart g ⟨a, rounded size⟩
  | .release address =>
    ∀ g ∈ live, g.start = address.toNat →
      (deallocate s address).1 = 0 ∧
        (records (deallocate s address).2).Perm (live.erase g)

/-- The calls the law covers: releases, requests whose rounding does not wrap, and requests
that are refused whatever their size. -/
def Within (s : State) : Call → Prop
  | .allocate mode size address => size.toNat ≤ 0xFFFFFF00 ∨ Refused s mode size address
  | .release _ => True

/-- One call of a client that keeps within the law's reach. -/
def ClientStep (x : State × List Block) (c : Call) (y : State × List Block) : Prop :=
  Within x.1 c ∧ y = (step x.1 c, observe x.1 x.2 c)

/-! ### The records as a list -/

section Records

variable {s : State}

theorem records_length (s : State) : (records s).length = s.blockCount := by
  simp [records]

theorem mem_records {b : Block} : b ∈ records s ↔ ∃ i < s.blockCount, s.blocks i = b := by
  simp [records]

/-- An insertion adds one record. -/
theorem records_insertAt {i : ℕ} (b : Block) (hi : i ≤ s.blockCount) :
    (records (insertAt s i b)).Perm (b :: records s) := by
  have h : records (insertAt s i b) = (records s).insertIdx i b := by
    refine List.ext_getElem ?_ fun j h₁ h₂ => ?_
    · rw [List.length_insertIdx_of_le_length (by rwa [records_length]), records_length,
        records_length]
      rfl
    · have hj : j < s.blockCount + 1 := by rwa [records_length] at h₁
      simp only [records, List.getElem_map, List.getElem_range, List.getElem_insertIdx]
      rcases insertAt_cases s b hj with ⟨hji, e⟩ | ⟨hji, e⟩ | ⟨hij, e⟩ <;> rw [e]
      · rw [dif_pos hji]
      · rw [dif_neg (by omega), dif_pos hji]
      · rw [dif_neg (by omega), dif_neg (by omega)]
  rw [h]
  exact List.perm_insertIdx _ _ (by rwa [records_length])

/-- A removal takes one record away. -/
theorem records_removeAt {i : ℕ} (hi : i < s.blockCount) :
    (s.blocks i :: records (removeAt s i)).Perm (records s) := by
  have hlen : i < (records s).length := by rwa [records_length]
  have h : records (removeAt s i) = (records s).eraseIdx i := by
    refine List.ext_getElem ?_ fun j h₁ h₂ => ?_
    · rw [List.length_eraseIdx_of_lt hlen, records_length, records_length]
      rfl
    · have hj : j < s.blockCount - 1 := by rwa [records_length] at h₁
      simp only [records, List.getElem_map, List.getElem_range, List.getElem_eraseIdx]
      rcases removeAt_cases s hi (show j + 1 < s.blockCount by omega) with ⟨hji, e⟩ | ⟨hji, e⟩ <;>
        rw [e]
      · rw [dif_pos hji]
      · rw [dif_neg (by omega)]
  have hget : (records s)[i] = s.blocks i := by simp [records]
  rw [h, ← hget]
  exact List.getElem_cons_eraseIdx_perm hlen

/-- Records that are not empty have different starts. -/
theorem WellFormed.start_inj (h : WellFormed s) (hpos : ∀ i < s.blockCount, 0 < (s.blocks i).size)
    {i j : ℕ} (hi : i < s.blockCount) (hj : j < s.blockCount) (e : s.start i = s.start j) :
    i = j := by
  have hlt : ∀ {i j}, i < j → j < s.blockCount → s.start i < s.start j := fun {i j} hij hj => by
    have h₁ := h.stop_le_start hij hj
    have h₂ := hpos i (hij.trans hj)
    simp only [State.stop] at h₁
    simp only [State.start] at *
    omega
  rcases Nat.lt_trichotomy i j with hij | rfl | hji
  · exact absurd e (hlt hij hj).ne
  · rfl
  · exact absurd e (hlt hji hi).ne'

end Records

/-! ### The law -/

/-- What holds between the array and the grants its clients hold, as long as they keep within
the law's reach: the records are the live grants, and none of them is empty. -/
structure Holds (s : State) (live : List Block) : Prop where
  wellFormed : WellFormed s
  perm : (records s).Perm live
  pos : ∀ i < s.blockCount, 0 < (s.blocks i).size

section Law

variable {s : State} {live : List Block}

theorem Holds.mem_iff (h : Holds s live) {g : Block} :
    g ∈ live ↔ ∃ i < s.blockCount, s.blocks i = g := by
  rw [← h.perm.mem_iff, mem_records]

/-- A place that is free meets no live grant. -/
theorem Holds.apart (h : Holds s live) {a n : ℕ} (hn : 0 < n) (hf : Free s a (a + n)) :
    ∀ g ∈ live, g.start ≠ a ∧ Apart g ⟨a, n⟩ := by
  intro g hg
  obtain ⟨i, hi, rfl⟩ := h.mem_iff.mp hg
  have hpos := h.pos i hi
  rcases hf.2.2 i hi with h₁ | h₁
  · exact ⟨by simp only [State.start] at h₁; omega, .inr h₁⟩
  · exact ⟨by simp only [State.stop] at h₁; omega, .inl h₁⟩

/-- The record a release closes is the live grant that starts at the address. -/
theorem Holds.release (h : Holds s live) {i : ℕ} (hi : i < s.blockCount) {g : Block}
    (hg : g ∈ live) (e : s.start i = g.start) :
    (records (removeAt s i)).Perm (live.erase g) := by
  obtain ⟨j, hj, rfl⟩ := h.mem_iff.mp hg
  obtain rfl := h.wellFormed.start_inj h.pos hi hj e
  refine List.Perm.cons_inv (a := s.blocks i) ?_
  exact ((records_removeAt hi).trans h.perm).trans (List.perm_cons_erase hg)

theorem holds_start (ramSizeByte : UInt32) : Holds (moduleStart ramSizeByte) [] where
  wellFormed := moduleStart_wellFormed ramSizeByte
  perm := .refl _
  pos i hi := absurd hi (Nat.not_lt_zero i)

/-- A grant is above the bottom of the heap, so it is not 0. -/
theorem grant_ne_zero (h : WellFormed s) {mode size address : UInt32} {i a : ℕ}
    (hr : ¬Refused s mode size address) (hi : i ≤ s.blockCount) (ha : gapStart s i ≤ a) :
    a ≠ 0 := by
  have h₁ : s.heapLow ≠ 0 := fun hz => hr (.inr (.inl hz))
  have h₂ := h.le_gapStart hi
  omega

/-- Ordinal 4 keeps the records and the live grants the same. -/
theorem Holds.outcome (h : Holds s live) {mode size address : UInt32} {r : ℕ × State}
    (ho : Outcome s mode size address r) (hw : WellFormed r.2)
    (hc : size.toNat ≤ 0xFFFFFF00 ∨ Refused s mode size address) :
    Holds r.2 (if r.1 = 0 then live else ⟨r.1, rounded size⟩ :: live) := by
  cases ho with
  | refused _ => exact h
  | @granted i a hr hi h₁ h₂ hp =>
    refine ⟨hw, ?_, fun j hj => ?_⟩
    · rw [if_neg (grant_ne_zero h.wellFormed hr hi h₁)]
      exact (records_insertAt _ hi).trans (h.perm.cons _)
    · simp only [insertAt] at hj
      rcases insertAt_cases s ⟨a, rounded size⟩ hj with ⟨_, e⟩ | ⟨_, e⟩ | ⟨_, e⟩ <;> rw [e]
      · exact h.pos j (by omega)
      · exact rounded_pos (fun hz => hr (.inl hz)) (hc.resolve_right hr)
      · exact h.pos (j - 1) (by omega)

/-- Closing up a record drops the live grants that start where it does: just its own. -/
theorem Holds.removeAt (h : Holds s live) {i : ℕ} (hi : i < s.blockCount) :
    Holds (removeAt s i) (live.filter fun g => g.start ≠ s.start i) := by
  refine ⟨h.wellFormed.removeAt hi, ?_, fun j hj => ?_⟩
  · have hne : ∀ b ∈ records (Sysmem.removeAt s i), b.start ≠ s.start i := by
      intro b hb e
      obtain ⟨j, hj, rfl⟩ := mem_records.mp hb
      simp only [Sysmem.removeAt] at hj
      rcases removeAt_cases s hi (show j + 1 < s.blockCount by omega) with ⟨hji, e'⟩ | ⟨hij, e'⟩ <;>
        rw [e'] at e
      · have := h.wellFormed.start_inj h.pos (by omega) hi e
        omega
      · have := h.wellFormed.start_inj h.pos (by omega) hi e
        omega
    have hfilter : (s.blocks i :: records (Sysmem.removeAt s i)).filter
        (fun g => g.start ≠ s.start i) = records (Sysmem.removeAt s i) := by
      rw [List.filter_cons_of_neg (by simp), List.filter_eq_self]
      simpa using hne
    rw [← hfilter]
    exact ((records_removeAt hi).trans h.perm).filter _
  · simp only [Sysmem.removeAt] at hj
    rcases removeAt_cases s hi (show j + 1 < s.blockCount by omega) with ⟨_, e⟩ | ⟨_, e⟩ <;> rw [e]
    · exact h.pos j (by omega)
    · exact h.pos (j + 1) (by omega)

/-- One call within the law's reach keeps the records and the live grants the same. -/
theorem Holds.step (h : Holds s live) {c : Call} (hc : Within s c) :
    Holds (step s c) (observe s live c) := by
  cases c with
  | allocate mode size address =>
    exact h.outcome (allocate_outcome h.wellFormed mode size address)
      (step_wellFormed h.wellFormed (.allocate mode size address)) hc
  | release address =>
    rcases deallocate_cases s address with ⟨-, e⟩ | ⟨-, i, hi, hs, -, e⟩
    · simp only [Sysmem.step, observe, e]
      exact h
    · simp only [Sysmem.step, observe, e, if_true]
      rw [← hs]
      exact h.removeAt hi

/-- The law holds of a call exactly when the call is within its reach. -/
theorem Holds.lawful_iff (h : Holds s live) (c : Call) : Lawful s live c ↔ Within s c := by
  cases c with
  | allocate mode size address =>
    have ho := allocate_outcome h.wellFormed mode size address
    simp only [Lawful, Within]
    generalize Sysmem.allocate s mode size address = r at ho
    cases ho with
    | refused hr => exact ⟨fun _ => .inr hr, fun _ hc => absurd rfl hc⟩
    | @granted i a hr hi h₁ h₂ hp =>
      have hne := grant_ne_zero h.wellFormed hr hi h₁
      have hsize : size ≠ 0 := fun hz => hr (.inl hz)
      constructor
      · intro hl
        obtain ⟨hle, -⟩ := hl hne
        -- a request that wraps rounds to nothing
        have hpos : size.toNat ≠ 0 := fun hz => hsize (UInt32.toNat_inj.mp hz)
        have hlt := size.toNat_lt
        rw [rounded_eq] at hle
        exact .inl (by omega)
      · intro hc _
        have hc := hc.resolve_right hr
        exact ⟨le_rounded hc, h.apart (rounded_pos hsize hc) hp.free⟩
  | release address =>
    refine ⟨fun _ => trivial, fun _ g hg e => ?_⟩
    obtain ⟨j, hj, rfl⟩ := h.mem_iff.mp hg
    rcases deallocate_cases s address with ⟨hno, -⟩ | ⟨-, i, hi, hs, -, e'⟩
    · exfalso
      rcases hno with hno | hno
      · exact hno (e ▸ (h.wellFormed.aligned j hj).1)
      · exact hno j hj e
    · rw [e']
      exact ⟨rfl, h.release hi hg (hs.trans e.symm)⟩

end Law

/-- In every run of calls from the entry that are within the law's reach, the records are the
live grants, and the law holds of the next call exactly when it is within reach too. -/
theorem grants_are_exclusive (ramSizeByte : UInt32) (calls : List Call)
    (s : State) (live : List Block)
    (h : Steps ClientStep (moduleStart ramSizeByte, []) calls (s, live)) :
    (records s).Perm live ∧ ∀ c, Lawful s live c ↔ Within s c := by
  have hs : Holds s live :=
    Steps.invariant (I := fun x => Holds x.1 x.2)
      (fun x c y hx hstep => by
        obtain ⟨hc, rfl⟩ := hstep
        exact hx.step hc)
      h (holds_start ramSizeByte)
  exact ⟨hs.perm, hs.lawful_iff⟩

/-- Two grants and a release: the second grant is the rest of the heap, to the byte. -/
theorem grants_are_exclusive_exact_fit :
    let calls : List Call := [.allocate lowest 0x100 0, .allocate atAddress 0x1CFF00 0x20100,
      .release 0x20000]
    let x := calls.foldl (fun x c => (step x.1 c, observe x.1 x.2 c)) (moduleStart 0, [])
    (records x.1).Perm x.2 ∧ ∀ c, Lawful x.1 x.2 c ↔ Within x.1 c := by
  intro calls x
  refine grants_are_exclusive 0 calls x.1 x.2 ?_
  refine .cons ⟨.inl (by decide), rfl⟩ (.cons ⟨.inl (by decide), rfl⟩ (.cons ⟨trivial, rfl⟩ ?_))
  exact .nil _

/-- Asked for `0xFFFFFFFF` bytes, ordinal 4 grants the bottom of the heap with a record of no
bytes, and grants it again. -/
theorem wrapped_request_is_granted_nothing :
    ¬(∀ c, Lawful (moduleStart 0) [] c) ∧
      (let s := (allocate (moduleStart 0) lowest 0xFFFFFFFF 0).2
       (allocate (moduleStart 0) lowest 0xFFFFFFFF 0).1 = 0x20000 ∧ (s.blocks 0).size = 0 ∧
        (allocate s lowest 0xFFFFFFFF 0).1 = 0x20000) := by
  refine ⟨fun h => ?_, by decide⟩
  have hne : (allocate (moduleStart 0) lowest 0xFFFFFFFF 0).1 ≠ 0 := by decide
  have hle := (h (.allocate lowest 0xFFFFFFFF 0) hne).1
  exact absurd hle (by decide)

end PS2Bios.Sysmem
