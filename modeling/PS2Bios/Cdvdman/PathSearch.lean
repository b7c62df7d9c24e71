import PS2Bios.Cdvdman.RecordBounds

/-!
# When a path is resolved inside the buffer

A search of a directory comes to a record when it can look at all before it inside the buffer and
the component names none of them (`Reaches`). So a path is resolved without leaving the buffer
exactly when every record that is come to can be looked at inside, in each directory on the way
(`isSome_resolvePath_iff`).
-/

namespace PS2Bios.Cdvdman

variable {sectors : Sectors} {component : List UInt8} {path : List UInt8} {lba size left : ℕ}
  {r : Record} {l : List Record}

/-- The search of a directory's records for a component comes to a record. -/
def Reaches (component : List UInt8) (l : List Record) (r : Record) : Prop :=
  ∃ before behind, l = before ++ r :: behind ∧
    ∀ r' ∈ before, r'.Inside component ∧ ¬Names component r'.id

/-- The first record that a component names. -/
def named (component : List UInt8) (l : List Record) : Option Record :=
  l.find? fun r => Names component r.id

/-- Every record that is come to can be looked at inside the buffer, in the directory at `lba` and
those the path goes on to. -/
def StaysInside (sectors : Sectors) : (left lba size : ℕ) → (path : List UInt8) → Prop
  | 0, _, _, _ => True
  | left + 1, lba, size, path =>
    let component := path.takeWhile isNameByte
    let rest := path.dropWhile isNameByte
    component ≠ [] →
      (∀ r, Reaches component (records sectors lba size) r → r.Inside component) ∧
      ∀ r, named component (records sectors lba size) = some r → rest.headD 0 ≠ 0 →
        r.isDirectory → StaysInside sectors left r.lba r.size (rest.drop 1)

/-- The same from the root on. -/
def PathStaysInside (sectors : Sectors) (path : List UInt8) : Prop :=
  path.headD 0 = kBackslash → ∀ pvd, sectors kPvdLba = some pvd → isPvd pvd →
    StaysInside sectors kMaxLevel (Record.lba ⟨pvd, kRootRecordOffset⟩)
      (Record.size ⟨pvd, kRootRecordOffset⟩) (path.drop 1)

/-- A record is passed over where the comparison ends in the sector and the name is another one. -/
theorem Record.examine_eq_false_iff :
    r.examine component = some false ↔ r.Inside component ∧ ¬Names component r.id := by
  constructor
  · intro h
    have hinside := Record.isSome_examine_iff.mp (Option.isSome_of_eq_some h)
    rw [Record.examine_eq hinside, Option.some.injEq, decide_eq_false_iff_not] at h
    exact ⟨hinside, h⟩
  · rintro ⟨hinside, hnot⟩
    rw [Record.examine_eq hinside, decide_eq_false hnot]

/-! ### A directory -/

/-- A search stays inside its sectors when every record it comes to does. -/
theorem isSome_findInDirectory_iff : (findInDirectory sectors lba size component).isSome ↔
    ∀ r, Reaches component (records sectors lba size) r → r.Inside component := by
  rw [findInDirectory_eq, Option.isSome_map, Search.isSome_findM?_iff]
  constructor
  · rintro h r ⟨before, behind, heq, hbefore⟩
    exact Record.isSome_examine_iff.mp (h before r behind heq fun r' hr' =>
      Record.examine_eq_false_iff.mpr (hbefore r' hr'))
  · intro h before r behind heq hbefore
    exact Record.isSome_examine_iff.mpr (h r ⟨before, behind, heq, fun r' hr' =>
      Record.examine_eq_false_iff.mp (hbefore r' hr')⟩)

/-- A search that stays inside answers the first record the component names. -/
theorem findInDirectory_eq_named
    (h : ∀ r, Reaches component (records sectors lba size) r → r.Inside component) :
    findInDirectory sectors lba size component =
      some ((named component (records sectors lba size)).map Record.entry) := by
  have hsome := isSome_findInDirectory_iff.mpr h
  rw [findInDirectory_eq, Option.isSome_map] at hsome
  rw [findInDirectory_eq, Search.findM?_eq_some (q := fun r => Names component r.id) hsome]
  · rfl
  · intro r _ b hb
    have hinside := Record.isSome_examine_iff.mp (Option.isSome_of_eq_some hb)
    rw [Record.examine_eq hinside] at hb
    exact Option.some.inj hb

/-! ### A path -/

/-- One component is looked for among the records, and the rest below the record it names. -/
theorem resolveFrom_succ (left : ℕ) (hcomponent : path.takeWhile isNameByte ≠ [])
    (h : ∀ r, Reaches (path.takeWhile isNameByte) (records sectors lba size) r →
      r.Inside (path.takeWhile isNameByte)) :
    resolveFrom sectors (left + 1) lba size path =
      match named (path.takeWhile isNameByte) (records sectors lba size) with
      | none => some none
      | some r =>
        if (path.dropWhile isNameByte).headD 0 = 0 then
          some (if r.isDirectory then none else some r.entry)
        else if !r.isDirectory then some none
        else resolveFrom sectors left r.lba r.size ((path.dropWhile isNameByte).drop 1) := by
  rw [resolveFrom, if_neg (by simpa using hcomponent), findInDirectory_eq_named h,
    Option.bind_some]
  cases named (path.takeWhile isNameByte) (records sectors lba size) with
  | none => rfl
  | some r => rfl

/-- A path is resolved without reading past a sector exactly where it stays inside. -/
theorem isSome_resolveFrom_iff : (resolveFrom sectors left lba size path).isSome ↔
    StaysInside sectors left lba size path := by
  induction left generalizing lba size path with
  | zero => exact iff_of_true rfl trivial
  | succ left ih =>
    rw [StaysInside]
    by_cases hcomponent : path.takeWhile isNameByte = []
    · rw [resolveFrom, if_pos (by rw [hcomponent]; rfl)]
      exact iff_of_true rfl fun h => absurd hcomponent h
    by_cases hreach : ∀ r, Reaches (path.takeWhile isNameByte) (records sectors lba size) r →
      r.Inside (path.takeWhile isNameByte)
    · rw [resolveFrom_succ left hcomponent hreach, forall_prop_of_true hcomponent,
        and_iff_right hreach]
      cases named (path.takeWhile isNameByte) (records sectors lba size) with
      | none => exact iff_of_true rfl nofun
      | some r =>
        simp only [Option.some.injEq, forall_eq']
        by_cases hlast : (path.dropWhile isNameByte).headD 0 = 0
        · rw [if_pos hlast]
          exact iff_of_true rfl fun h => absurd hlast h
        · rw [if_neg hlast, forall_prop_of_true hlast]
          cases hdirectory : r.isDirectory with
          | false => exact iff_of_true rfl nofun
          | true =>
            rw [forall_prop_of_true rfl]
            exact ih
    · have hnone : ¬(findInDirectory sectors lba size (path.takeWhile isNameByte)).isSome :=
        fun h => hreach (isSome_findInDirectory_iff.mp h)
      rw [resolveFrom, if_neg (by simpa using hcomponent), Option.not_isSome_iff_eq_none.mp hnone,
        Option.bind_none]
      exact iff_of_false (by simp) fun h => hreach (h hcomponent).1

/-- A path is resolved from the root's record in the volume descriptor, if there is one. -/
theorem resolvePath_eq (sectors : Sectors) (path : List UInt8) : resolvePath sectors path =
    if path.headD 0 ≠ kBackslash then some none
    else
      match sectors kPvdLba with
      | none => some none
      | some pvd =>
        if isPvd pvd then
          resolveFrom sectors kMaxLevel (Record.lba ⟨pvd, kRootRecordOffset⟩)
            (Record.size ⟨pvd, kRootRecordOffset⟩) (path.drop 1)
        else some none := by
  rw [resolvePath]
  cases sectors kPvdLba with
  | none => rfl
  | some pvd =>
    dsimp only
    rw [readLe32_eq (by decide), readLe32_eq (by decide)]
    rfl

/-- The whole search stays inside the sectors exactly where the path does. -/
theorem isSome_resolvePath_iff :
    (resolvePath sectors path).isSome ↔ PathStaysInside sectors path := by
  rw [resolvePath_eq, PathStaysInside]
  by_cases hpath : path.headD 0 = kBackslash
  · rw [if_neg (not_not.mpr hpath), forall_prop_of_true hpath]
    cases sectors kPvdLba with
    | none => exact iff_of_true rfl nofun
    | some pvd =>
      dsimp only
      simp only [Option.some.injEq, forall_eq']
      by_cases hpvd : isPvd pvd
      · rw [if_pos hpvd, forall_prop_of_true hpvd]
        exact isSome_resolveFrom_iff
      · rw [if_neg hpvd]
        exact iff_of_true rfl fun h => absurd h hpvd
  · rw [if_pos hpath]
    exact iff_of_true rfl fun h => absurd h hpath

end PS2Bios.Cdvdman
