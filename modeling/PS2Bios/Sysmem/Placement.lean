import PS2Bios.Sysmem.Invariant

/-!
# SYSMEM: what ordinal 4 grants and what it refuses

A call of ordinal 4 has one of two outcomes (`allocate_outcome`). Either it is `Refused`, for a
reason that speaks of the arguments and of free ranges only, and nothing changes; or it opens
one record, at a place that `Placed` describes: the least address the rounded size fits at for
mode 0, the greatest for mode 1, the address asked for in mode 2.

The three searches are followed one by one (`lowest_search`, `highest_search`,
`atAddress_search`); everything else is the array lemmas of `PS2Bios.Sysmem.Invariant`.
-/

namespace PS2Bios.Sysmem

/-- The range `[a, a + need)` can be granted to a caller who names its start. The last clause
only has something to say about records of no bytes: any other record that starts at `a` is
met by the range already. -/
def Available (s : State) (a need : ℕ) : Prop :=
  a % kAlignment = 0 ∧ a < s.heapHigh ∧ Free s a (a + need) ∧
    (need ≠ 0 → ∀ i < s.blockCount, s.start i ≠ a)

/-- Why ordinal 4 answers 0. -/
def Refused (s : State) (mode size address : UInt32) : Prop :=
  size = 0 ∨ s.heapLow = 0 ∨ s.blockCount = kMaxBlocks ∨
    if mode = atAddress then ¬Available s address.toNat (rounded size)
    else mode = lowest ∨ mode = highest → ∀ a, ¬Free s a (a + rounded size)

/-- Where ordinal 4 places `need` bytes. -/
structure Placed (s : State) (mode : UInt32) (need : ℕ) (address : UInt32) (a : ℕ) : Prop where
  aligned : a % kAlignment = 0
  free : Free s a (a + need)
  lowest : mode = lowest → IsLeast {x | Free s x (x + need)} a
  highest : mode = highest → IsGreatest {x | Free s x (x + need)} a
  atAddress : mode = atAddress → a = address.toNat

section Searches

variable {s : State}

/-- Where the gaps start and end is on the allocator's boundary. -/
theorem WellFormed.gap_aligned (h : WellFormed s) {i : ℕ} (hi : i ≤ s.blockCount) :
    gapStart s i % kAlignment = 0 ∧ gapStop s i % kAlignment = 0 := by
  constructor
  · unfold gapStart
    split
    · rcases h.heapLow with e | e <;> rw [e] <;> decide
    · have ⟨h₁, h₂⟩ := h.aligned (i - 1) (by omega)
      simp only [State.stop, State.start, kAlignment] at *
      omega
  · unfold gapStop
    split
    · exact h.highAligned
    · exact (h.aligned i (by omega)).1

/-- The `lowest` search finds the first gap that fits, or there is no free range that large. -/
theorem lowest_search (h : WellFormed s) (need : ℕ) :
    (∃ i ≤ s.blockCount, (List.range (s.blockCount + 1)).find? (gapFits s need) = some i ∧
      gapStart s i + need ≤ gapStop s i ∧
      IsLeast {x | Free s x (x + need)} (gapStart s i)) ∨
    ((List.range (s.blockCount + 1)).find? (gapFits s need) = none ∧
      ∀ a, ¬Free s a (a + need)) := by
  cases hf : (List.range (s.blockCount + 1)).find? (gapFits s need) with
  | none =>
    refine .inr ⟨rfl, fun a ha => ?_⟩
    obtain ⟨i, hi, hfit, -⟩ := h.exists_fit_of_free ha
    have := List.find?_range_eq_none.mp hf i (by omega)
    simp [hfit] at this
  | some i =>
    obtain ⟨hfit, hmem, hmin⟩ := List.find?_range_eq_some.mp hf
    have hi : i ≤ s.blockCount := by
      have := List.mem_range.mp hmem
      omega
    have hgap := (h.gapFits_iff hi).mp hfit
    refine .inl ⟨i, hi, rfl, hgap, h.free_of_gap hi le_rfl hgap, fun x hx => ?_⟩
    -- a free range below the gap would lie in an earlier gap that fits
    obtain ⟨j, hj, hjfit, hjx, -⟩ := h.exists_fit_of_free hx
    rcases Nat.lt_trichotomy j i with hji | rfl | hij
    · have := hmin j hji
      simp [hjfit] at this
    · exact hjx
    · calc gapStart s i ≤ gapStop s i := h.gapStart_le_gapStop hi
        _ ≤ gapStart s j := h.gapStop_le_gapStart hij hj
        _ ≤ x := hjx

/-- `highestFit` is the last gap below `n` that fits. -/
theorem highestFit_eq_some {need n i : ℕ} (h : highestFit s need n = some i) :
    i < n ∧ gapFits s need i = true ∧ ∀ j < n, i < j → gapFits s need j = false := by
  induction n with
  | zero => simp [highestFit] at h
  | succ n ih =>
    unfold highestFit at h
    split at h
    · rename_i hfit
      obtain rfl : n = i := Option.some.inj h
      exact ⟨by omega, hfit, fun j hj hij => by omega⟩
    · rename_i hfit
      obtain ⟨hin, hi, hmax⟩ := ih h
      refine ⟨by omega, hi, fun j hj hij => ?_⟩
      rcases Nat.lt_or_ge j n with hlt | hge
      · exact hmax j hlt hij
      · obtain rfl : j = n := by omega
        simpa using hfit

/-- Where no gap is the highest that fits, none fits. -/
theorem highestFit_eq_none {need n : ℕ} (h : highestFit s need n = none) :
    ∀ j < n, gapFits s need j = false := by
  induction n with
  | zero => intro j hj; omega
  | succ n ih =>
    unfold highestFit at h
    split at h
    · cases h
    · rename_i hfit
      intro j hj
      rcases Nat.lt_or_ge j n with hlt | hge
      · exact ih h j hlt
      · obtain rfl : j = n := by omega
        simpa using hfit

/-- The `highest` search finds the last gap that fits, or there is no free range that large. -/
theorem highest_search (h : WellFormed s) (need : ℕ) :
    (∃ i ≤ s.blockCount, highestFit s need (s.blockCount + 1) = some i ∧
      gapStart s i + need ≤ gapStop s i ∧
      IsGreatest {x | Free s x (x + need)} (gapStop s i - need)) ∨
    (highestFit s need (s.blockCount + 1) = none ∧ ∀ a, ¬Free s a (a + need)) := by
  cases hf : highestFit s need (s.blockCount + 1) with
  | none =>
    refine .inr ⟨rfl, fun a ha => ?_⟩
    obtain ⟨i, hi, hfit, -⟩ := h.exists_fit_of_free ha
    have := highestFit_eq_none hf i (by omega)
    simp [hfit] at this
  | some i =>
    obtain ⟨hlt, hfit, hmax⟩ := highestFit_eq_some hf
    have hi : i ≤ s.blockCount := by omega
    have hgap := (h.gapFits_iff hi).mp hfit
    refine .inl ⟨i, hi, rfl, hgap, h.free_of_gap hi (by omega) (by omega), fun x hx => ?_⟩
    -- a free range above the gap would lie in a later gap that fits
    obtain ⟨j, hj, hjfit, -, hjx⟩ := h.exists_fit_of_free hx
    rcases Nat.lt_trichotomy j i with hji | rfl | hij
    · have := h.gapStop_le_gapStart hji hi
      omega
    · omega
    · have := hmax j (by omega) hij
      simp [hjfit] at this

/-- `lowerBound` splits the records at the address. -/
theorem lowerBound_spec (h : WellFormed s) (a : ℕ) :
    lowerBound s a ≤ s.blockCount ∧ (∀ i < lowerBound s a, s.start i < a) ∧
      ∀ i < s.blockCount, lowerBound s a ≤ i → a ≤ s.start i := by
  unfold lowerBound
  cases hf : (List.range s.blockCount).find? fun i => a ≤ (s.blocks i).start with
  | none =>
    refine ⟨le_rfl, fun i hi => ?_, fun i hi hle => absurd hle (by simpa using hi)⟩
    simpa using List.find?_range_eq_none.mp hf i hi
  | some j =>
    obtain ⟨hj, hmem, hmin⟩ := List.find?_range_eq_some.mp hf
    have hj : a ≤ s.start j := by simpa using hj
    have hjc : j < s.blockCount := List.mem_range.mp hmem
    refine ⟨hjc.le, fun i hi => by simpa using hmin i hi, fun i hi hle => ?_⟩
    rcases Nat.lt_or_ge j i with hlt | hge
    · calc a ≤ s.start j := hj
        _ ≤ s.stop j := Nat.le_add_right _ _
        _ ≤ s.start i := h.stop_le_start hlt hi
    · obtain rfl : i = j := by simp only [Option.getD_some] at hle; omega
      exact hj

/-- The gap at `lowerBound` does not end below the address it was looked up for. -/
theorem le_gapStop_lowerBound (h : WellFormed s) {a : ℕ} (hhigh : a < s.heapHigh) :
    a ≤ gapStop s (lowerBound s a) := by
  obtain ⟨hle, -, habove⟩ := lowerBound_spec h a
  unfold gapStop
  split
  · exact hhigh.le
  · exact habove _ (by omega) le_rfl

/-- In mode 2 the gap at `lowerBound` holds the range exactly when the range is available. -/
theorem atAddress_search (h : WellFormed s) {a : ℕ} (halign : a % kAlignment = 0)
    (hhigh : a < s.heapHigh) (need : ℕ) :
    Available s a need ↔
      gapStart s (lowerBound s a) ≤ a ∧ a + need ≤ gapStop s (lowerBound s a) := by
  obtain ⟨hle, hbelow, habove⟩ := lowerBound_spec h a
  constructor
  · rintro ⟨-, -, ⟨hlow, htop, hrec⟩, hstart⟩
    constructor
    · unfold gapStart
      split
      · exact hlow
      · -- the record before starts below `a`, so it must end there too
        have h₁ := hbelow (lowerBound s a - 1) (by omega)
        rcases hrec (lowerBound s a - 1) (by omega) with h₂ | h₂
        · omega
        · exact h₂
    · unfold gapStop
      split
      · exact htop
      · have hlt : lowerBound s a < s.blockCount := by omega
        have h₁ := habove _ hlt le_rfl
        rcases hrec _ hlt with h₂ | h₂
        · exact h₂
        · -- a record that ends at `a` and does not start below it starts at it
          rcases Nat.eq_zero_or_pos need with rfl | hneed
          · exact h₁
          · have h₃ : s.start (lowerBound s a) = a :=
              le_antisymm ((Nat.le_add_right _ _).trans h₂) h₁
            exact absurd h₃ (hstart (by omega) _ hlt)
  · rintro ⟨h₁, h₂⟩
    refine ⟨halign, hhigh, h.free_of_gap hle h₁ h₂, fun hneed i hi e => ?_⟩
    rcases Nat.lt_or_ge i (lowerBound s a) with hlt | hge
    · have := hbelow i hlt
      omega
    · have h₃ := h.gapStop_le_start hi hge
      omega

end Searches

/-- The outcome of a call of ordinal 4: it refuses, and nothing changes; or it opens one record
in a gap that holds it, at the place its mode names. -/
inductive Outcome (s : State) (mode size address : UInt32) : ℕ × State → Prop
  | refused : Refused s mode size address → Outcome s mode size address (0, s)
  | granted {i a : ℕ} : ¬Refused s mode size address → i ≤ s.blockCount → gapStart s i ≤ a →
      a + rounded size ≤ gapStop s i → Placed s mode (rounded size) address a →
      Outcome s mode size address (a, insertAt s i ⟨a, rounded size⟩)

section Modes

variable {s : State} {size : UInt32}

/-- What is left of `Refused` once the checks that all modes share have passed. -/
theorem refused_iff (size mode address : UInt32) (hsize : size ≠ 0) (hlow : s.heapLow ≠ 0)
    (hroom : s.blockCount ≠ kMaxBlocks) :
    Refused s mode size address ↔
      if mode = atAddress then ¬Available s address.toNat (rounded size)
      else mode = lowest ∨ mode = highest → ∀ a, ¬Free s a (a + rounded size) := by
  simp only [Refused, hsize, hlow, hroom, false_or]

theorem grant_of_room (hroom : s.blockCount ≠ kMaxBlocks) (i a n : ℕ) :
    grant s i a n = (a, insertAt s i ⟨a, n⟩) := by
  rw [grant_eq, if_neg hroom]

/-- With 256 records every mode refuses. -/
theorem allocate_full (hfull : s.blockCount = kMaxBlocks) (mode size address : UInt32) :
    allocate s mode size address = (0, s) := by
  have hgrant : ∀ i a n, grant s i a n = (0, s) := fun i a n => by rw [grant_eq, if_pos hfull]
  unfold allocate
  simp only [hgrant]
  split
  · rfl
  split
  · simp only [ite_self]
  split
  · split <;> rfl
  split
  · split <;> rfl
  · rfl

/-- From below, the first gap that fits is taken at its start. -/
theorem outcome_lowest (h : WellFormed s) (address : UInt32) (hsize : size ≠ 0)
    (hlow : s.heapLow ≠ 0) (hroom : s.blockCount ≠ kMaxBlocks) :
    Outcome s lowest size address (allocate s lowest size address) := by
  have hrefused := refused_iff size lowest address hsize hlow hroom
  rw [if_neg (by decide)] at hrefused
  unfold allocate
  rw [if_neg (not_or_intro hsize hlow)]
  dsimp only
  rw [if_neg (by decide), if_pos rfl]
  rcases lowest_search h (rounded size) with ⟨i, hi, hfind, hfit, hleast⟩ | ⟨hfind, hnone⟩
  · rw [hfind]
    dsimp only
    rw [grant_of_room hroom, h.gapBefore_eq hi]
    refine .granted (fun hr => hrefused.mp hr (.inl rfl) _ hleast.1) hi le_rfl hfit
      ⟨(h.gap_aligned hi).1, hleast.1, fun _ => hleast, fun hc => ?_, fun hc => ?_⟩
    · exact absurd hc (by decide)
    · exact absurd hc (by decide)
  · rw [hfind]
    exact .refused (hrefused.mpr fun _ => hnone)

/-- From above, the last gap that fits is taken at its end. -/
theorem outcome_highest (h : WellFormed s) (address : UInt32) (hsize : size ≠ 0)
    (hlow : s.heapLow ≠ 0) (hroom : s.blockCount ≠ kMaxBlocks) :
    Outcome s highest size address (allocate s highest size address) := by
  have hrefused := refused_iff size highest address hsize hlow hroom
  rw [if_neg (by decide)] at hrefused
  unfold allocate
  rw [if_neg (not_or_intro hsize hlow)]
  dsimp only
  rw [if_neg (by decide), if_neg (by decide), if_pos rfl]
  rcases highest_search h (rounded size) with ⟨i, hi, hfind, hfit, hgreatest⟩ | ⟨hfind, hnone⟩
  · have hsub : sub32 (gapStop s i) (rounded size) = gapStop s i - rounded size :=
      sub32_eq (by omega) ((h.gapStop_le hi).trans_lt h.high_lt)
    have halign : (gapStop s i - rounded size) % kAlignment = 0 := by
      have h₁ := (h.gap_aligned hi).2
      have h₂ := rounded_aligned size
      simp only [kAlignment] at *
      omega
    rw [hfind]
    dsimp only
    rw [grant_of_room hroom, h.gapBefore_eq hi]
    dsimp only
    rw [hsub]
    refine .granted (fun hr => hrefused.mp hr (.inr rfl) _ hgreatest.1) hi (by omega) (by omega)
      ⟨halign, hgreatest.1, fun hc => ?_, fun _ => hgreatest, fun hc => ?_⟩
    · exact absurd hc (by decide)
    · exact absurd hc (by decide)
  · rw [hfind]
    exact .refused (hrefused.mpr fun _ => hnone)

/-- At an address, the gap that holds it is taken there. -/
theorem outcome_atAddress (h : WellFormed s) (address : UInt32) (hsize : size ≠ 0)
    (hlow : s.heapLow ≠ 0) (hroom : s.blockCount ≠ kMaxBlocks) :
    Outcome s atAddress size address (allocate s atAddress size address) := by
  have hrefused := refused_iff size atAddress address hsize hlow hroom
  rw [if_pos rfl] at hrefused
  unfold allocate
  rw [if_neg (not_or_intro hsize hlow)]
  dsimp only
  rw [if_pos rfl, grant_of_room hroom]
  have hhigh := h.high_lt
  split_ifs with hout hgap
  · refine .refused (hrefused.mpr fun ⟨h₁, h₂, h₃, _⟩ => ?_)
    rw [sub32_eq h₂.le hhigh] at hout
    have h₄ := h₃.1
    have h₅ := h₃.2.1
    omega
  all_goals
    simp only [not_or, not_not, not_lt, not_le] at hout
    obtain ⟨halign, -, hlt, -⟩ := hout
    have hle := (lowerBound_spec h address.toNat).1
    have hsearch := atAddress_search h halign hlt (rounded size)
    have hstop := le_gapStop_lowerBound h hlt
    have hstop' := h.gapStop_le hle
    rw [h.gapBefore_eq hle] at hgap
    dsimp only at hgap
    rw [sub32_eq hstop (by omega)] at hgap
  · refine .refused (hrefused.mpr fun hav => ?_)
    obtain ⟨h₁, h₂⟩ := hsearch.mp hav
    omega
  · have hav := hsearch.mpr ⟨by omega, by omega⟩
    exact .granted (fun hr => hrefused.mp hr hav) hle (by omega) (by omega)
      ⟨halign, hav.2.2.1, fun hc => absurd hc (by decide), fun hc => absurd hc (by decide),
        fun _ => rfl⟩

end Modes

/-- **What ordinal 4 does**, in every well-formed state and for any arguments. -/
theorem allocate_outcome {s : State} (h : WellFormed s) (mode size address : UInt32) :
    Outcome s mode size address (allocate s mode size address) := by
  by_cases hsize : size = 0
  · rw [allocate, if_pos (.inl hsize)]
    exact .refused (.inl hsize)
  by_cases hlow : s.heapLow = 0
  · rw [allocate, if_pos (.inr hlow)]
    exact .refused (.inr (.inl hlow))
  by_cases hfull : s.blockCount = kMaxBlocks
  · rw [allocate_full hfull]
    exact .refused (.inr (.inr (.inl hfull)))
  by_cases h₀ : mode = lowest
  · rw [h₀]
    exact outcome_lowest h address hsize hlow hfull
  by_cases h₁ : mode = highest
  · rw [h₁]
    exact outcome_highest h address hsize hlow hfull
  by_cases h₂ : mode = atAddress
  · rw [h₂]
    exact outcome_atAddress h address hsize hlow hfull
  · -- there is no fourth mode
    rw [allocate, if_neg (not_or_intro hsize hlow)]
    dsimp only
    rw [if_neg h₂, if_neg h₀, if_neg h₁]
    refine .refused ((refused_iff size mode address hsize hlow hfull).mpr ?_)
    rw [if_neg h₂]
    exact fun hc => absurd hc (not_or_intro h₀ h₁)

/-- **What ordinal 5 does.** It refuses, and nothing changes; or it closes one record that
starts at the address. -/
theorem deallocate_cases (s : State) (address : UInt32) :
    ((address.toNat % kAlignment ≠ 0 ∨ ∀ i < s.blockCount, s.start i ≠ address.toNat) ∧
      deallocate s address = (-1, s)) ∨
    (address.toNat % kAlignment = 0 ∧ ∃ i < s.blockCount, s.start i = address.toNat ∧
      (∀ j < i, s.start j ≠ address.toNat) ∧ deallocate s address = (0, removeAt s i)) := by
  unfold deallocate
  by_cases halign : address.toNat % kAlignment ≠ 0
  · rw [if_pos halign]
    exact .inl ⟨.inl halign, rfl⟩
  rw [if_neg halign]
  cases hf : (List.range s.blockCount).find? fun i => (s.blocks i).start = address.toNat with
  | none =>
    refine .inl ⟨.inr fun i hi => ?_, rfl⟩
    simpa using List.find?_range_eq_none.mp hf i hi
  | some i =>
    obtain ⟨hi, hmem, hmin⟩ := List.find?_range_eq_some.mp hf
    exact .inr ⟨by omega, i, List.mem_range.mp hmem, by simpa using hi,
      fun j hj => by simpa using hmin j hj, rfl⟩

/-! ### Every run -/

/-- The module entry leaves a well-formed, empty array. -/
theorem moduleStart_wellFormed (ramSizeByte : UInt32) : WellFormed (moduleStart ramSizeByte) := by
  set top := (ramSizeByte &&& ~~~0xFF).toNat with htop
  have halign : top % kAlignment = 0 := by
    rw [htop, UInt32.toNat_and_not_mask (k := 8) _ _ (by decide) (by decide), kAlignment]
    omega
  have hlow : (moduleStart ramSizeByte).heapLow =
      if kHeapStart + kAlignment ≤ (moduleStart ramSizeByte).heapHigh then kHeapStart else 0 := rfl
  have hhigh : (moduleStart ramSizeByte).heapHigh =
      if top ≠ 0 ∧ top < kHeapEnd then top else kHeapEnd := rfl
  have hno : ∀ {P : ℕ → Prop}, ∀ i < (moduleStart ramSizeByte).blockCount, P i :=
    fun i hi => absurd hi (Nat.not_lt_zero i)
  refine ⟨?_, ?_, ?_, ?_, fun _ => rfl, Nat.zero_le _, hno, hno, hno,
    fun i hi => absurd hi (Nat.not_lt_zero _)⟩
  · rw [hlow]
    split
    · exact .inl rfl
    · exact .inr rfl
  · rw [hhigh]
    split <;> omega
  · rw [hlow]
    split
    · omega
    · exact Nat.zero_le _
  · rw [hhigh]
    split
    · exact halign
    · decide

/-- One call keeps the array well formed. -/
theorem step_wellFormed {s : State} (h : WellFormed s) (c : Call) : WellFormed (step s c) := by
  cases c with
  | allocate mode size address =>
    have ho := allocate_outcome h mode size address
    rw [step]
    generalize allocate s mode size address = r at ho
    cases ho with
    | refused _ => exact h
    | granted hr hi h₁ h₂ hp =>
      exact h.insertAt hi (fun hc => hr (.inr (.inr (.inl hc)))) (fun hc => hr (.inr (.inl hc)))
        ⟨hp.aligned, rounded_aligned size⟩ h₁ h₂
  | release address =>
    rcases deallocate_cases s address with ⟨-, e⟩ | ⟨-, i, hi, -, -, e⟩
    · rw [step, e]
      exact h
    · rw [step, e]
      exact h.removeAt hi

/-- So does any sequence of calls. -/
theorem foldl_step_wellFormed {s : State} (h : WellFormed s) (calls : List Call) :
    WellFormed (calls.foldl step s) := by
  induction calls generalizing s with
  | nil => exact h
  | cons c calls ih => exact ih (step_wellFormed h c)

/-- After the entry and any sequence of calls with any arguments, the records are sorted,
aligned, apart and inside the heap; a call that answers 0 (ordinal 4) or -1 (ordinal 5) changes
nothing; a grant is placed where its mode says and adds just its own record; and ordinal 4
answers 0 exactly when the call is `Refused`. -/
theorem records_stay_sorted_and_placed (ramSizeByte : UInt32) (calls : List Call) :
    let s := calls.foldl step (moduleStart ramSizeByte)
    WellFormed s ∧
    (∀ mode size address,
      ((allocate s mode size address).1 = 0 ↔ Refused s mode size address) ∧
      ((allocate s mode size address).1 = 0 → (allocate s mode size address).2 = s) ∧
      ((allocate s mode size address).1 ≠ 0 →
        Placed s mode (rounded size) address (allocate s mode size address).1 ∧
        ∃ i ≤ s.blockCount, (allocate s mode size address).2 =
          insertAt s i ⟨(allocate s mode size address).1, rounded size⟩)) ∧
    ∀ address,
      ((deallocate s address).1 = -1 → (deallocate s address).2 = s) ∧
      ((deallocate s address).1 ≠ -1 → ∃ i < s.blockCount, s.start i = address.toNat ∧
        (deallocate s address).2 = removeAt s i) := by
  intro s
  have h : WellFormed s := foldl_step_wellFormed (moduleStart_wellFormed ramSizeByte) calls
  refine ⟨h, fun mode size address => ?_, fun address => ?_⟩
  · have ho := allocate_outcome h mode size address
    generalize allocate s mode size address = r at ho
    cases ho with
    | refused hr => exact ⟨⟨fun _ => hr, fun _ => rfl⟩, fun _ => rfl, fun hc => absurd rfl hc⟩
    | @granted i a hr hi h₁ h₂ hp =>
      have hne : a ≠ 0 := by
        have h₃ : s.heapLow ≠ 0 := fun hc => hr (.inr (.inl hc))
        have h₄ := h.le_gapStart hi
        omega
      exact ⟨⟨fun hc => absurd hc hne, fun hc => absurd hc hr⟩, fun hc => absurd hc hne,
        fun _ => ⟨hp, i, hi, rfl⟩⟩
  · rcases deallocate_cases s address with ⟨-, e⟩ | ⟨-, i, hi, hs, -, e⟩
    · rw [e]
      exact ⟨fun _ => rfl, fun hc => absurd rfl hc⟩
    · rw [e]
      exact ⟨fun hc => absurd (show (0 : ℤ) = -1 from hc) (by decide), fun _ => ⟨i, hi, hs, rfl⟩⟩

/-- Ordinal 4 refuses a request for no bytes although a gap holds the zero bytes it rounds to,
and the array is empty. -/
theorem refused_although_a_gap_fits :
    (allocate (moduleStart 0) lowest 0 0).1 = 0 ∧
      (∃ i ≤ (moduleStart 0).blockCount, gapFits (moduleStart 0) (rounded 0) i = true) ∧
      (moduleStart 0).blockCount ≠ kMaxBlocks :=
  ⟨by decide, ⟨0, by decide, by decide⟩, by decide⟩

end PS2Bios.Sysmem
