import PS2Bios.Ioman.Romdrv
import PS2Bios.Library.Ownership

/-!
# Records and handles

The two tables, `IOMAN`'s of records and `ROMDRV`'s of handles, over every sequence of calls. A
call claims a handle for a record, gives one back, moves the position of one, or leaves both alone
(`Effect`); so what is open holds what is in use and every position stays within its file
(`Kept`, `calls_kept`). A descriptor of a file is then a `Reading` of the file's bytes (`Views`),
which the calls on other descriptors do not touch (`Effect.views`).
-/

namespace PS2Bios.Ioman.Romdrv

open Bytes

variable {τ : Type} {M : Machine τ} {s s' : State (World τ)} {files : List File} {file : File}
  {handles : List Handle} {handle : Handle} {fd k : ℕ}

/-- The handle that a record of `ROMDRV`'s holds. -/
def Machine.owner (M : Machine τ) (files : List File) (fd : ℕ) : Option ℕ :=
  (files[fd]?.filter fun file => file.device = some M.device).map fun file => file.privdata.toNat

/-- The handle of this index is open. -/
def InUse (handles : List Handle) (k : ℕ) : Prop :=
  ∃ handle, handles[k]? = some handle ∧ handle.inUse

/-- What a handle is given of a file is what a lookup answered. -/
def Machine.Found (M : Machine τ) (handle : Handle) : Prop :=
  ∃ unit < kUnits, ∃ ram name, M.lookup unit (nameAt ram name) = some ⟨handle.bytes, handle.size⟩

/-- No file of the images is too long for its handle. -/
def Machine.Sized (M : Machine τ) : Prop :=
  ∀ unit < kUnits, ∀ ram name found, M.lookup unit (nameAt ram name) = some found →
    found.size < 2 ^ 32

/-- What holds between calls. -/
structure Kept (M : Machine τ) (s : State (World τ)) : Prop where
  owns : Owns (M.owner s.files) (InUse s.world.handles)
  length_handles : s.world.handles.length = kHandles
  found : ∀ handle ∈ s.world.handles, handle.inUse → M.Found handle
  size_lt : ∀ handle ∈ s.world.handles, handle.inUse → handle.size < 2 ^ 32
  position_le : ∀ handle ∈ s.world.handles, handle.inUse → handle.position ≤ handle.size

/-- What a call does to the two tables. -/
inductive Effect (M : Machine τ) (c : FileCall) (s s' : State (World τ)) : Prop
  | same (howner : M.owner s'.files = M.owner s.files)
      (hhandles : s'.world.handles = s.world.handles)
  | claim (fd k : ℕ) (handle : Handle) (hfree : M.owner s.files fd = none)
      (hk : k < s.world.handles.length) (hunused : ¬InUse s.world.handles k)
      (hhandle : handle.inUse) (hfound : M.Found handle) (hsize : handle.size < 2 ^ 32)
      (hstart : handle.position = 0)
      (howner : M.owner s'.files = Function.update (M.owner s.files) fd (some k))
      (hhandles : s'.world.handles = s.world.handles.set k handle)
  | release (fd k : ℕ) (handle : Handle) (hcall : c.fd = some (fd : ℤ))
      (hholds : M.owner s.files fd = some k) (hhandle : handle.inUse = false)
      (howner : M.owner s'.files = Function.update (M.owner s.files) fd none)
      (hhandles : s'.world.handles = s.world.handles.set k handle)
  | move (fd k position : ℕ) (handle : Handle) (hcall : c.fd = some (fd : ℤ))
      (hholds : M.owner s.files fd = some k) (hhandle : s.world.handles[k]? = some handle)
      (hposition : position ≤ handle.size) (howner : M.owner s'.files = M.owner s.files)
      (hhandles : s'.world.handles = s.world.handles.set k { handle with position := position })

theorem InUse.lt (h : InUse handles k) : k < handles.length := by
  obtain ⟨handle, hhandle, -⟩ := h
  exact (List.getElem?_eq_some_iff.mp hhandle).1

/-- A handle that is stored changes what is known of that handle only. -/
theorem inUse_set {l : ℕ} (hk : k < handles.length) :
    InUse (handles.set k handle) l ↔ l = k ∧ handle.inUse ∨ l ≠ k ∧ InUse handles l := by
  unfold InUse
  rw [List.getElem?_set]
  by_cases hl : l = k
  · subst hl
    simp [hk]
  · simp [hl, Ne.symm hl]

/-- The handles that are in use satisfy what the old ones and a new one satisfy. -/
theorem forall_set {P : Handle → Prop} (hold : ∀ h ∈ handles, h.inUse → P h)
    (hnew : handle.inUse → P handle) : ∀ h ∈ handles.set k handle, h.inUse → P h := by
  intro h hmem hin
  rcases List.mem_or_eq_of_mem_set hmem with hmem | rfl
  · exact hold h hmem hin
  · exact hnew hin

/-- What a call does to the descriptors and handles keeps them in step. -/
theorem Effect.kept {c : FileCall} (he : Effect M c s s') (h : Kept M s) : Kept M s' := by
  cases he with
  -- a call moves no handle, claims one, gives one back, or moves the position of one
  | same howner hhandles =>
    constructor
    · exact h.owns.congr (fun fd => congrFun howner fd) fun k => by rw [hhandles]
    · rw [hhandles, h.length_handles]
    · rw [hhandles]
      exact h.found
    · rw [hhandles]
      exact h.size_lt
    · rw [hhandles]
      exact h.position_le
  | claim fd k handle hfree hk hunused hhandle hfound hsize hstart howner hhandles =>
    constructor
    · refine (h.owns.claim hfree hunused).congr (fun fd => congrFun howner fd) fun l => ?_
      rw [hhandles, inUse_set hk]
      by_cases hl : l = k <;> simp [hl, hhandle]
    · rw [hhandles, List.length_set, h.length_handles]
    · rw [hhandles]
      exact forall_set h.found fun _ => hfound
    · rw [hhandles]
      exact forall_set h.size_lt fun _ => hsize
    · rw [hhandles]
      exact forall_set h.position_le fun _ => by omega
  | release fd k handle hcall hholds hhandle howner hhandles =>
    have hk : k < s.world.handles.length := (h.owns.used_of fd k hholds).lt
    constructor
    · refine (h.owns.release hholds).congr (fun fd => congrFun howner fd) fun l => ?_
      rw [hhandles, inUse_set hk]
      simp [hhandle]
    · rw [hhandles, List.length_set, h.length_handles]
    · rw [hhandles]
      exact forall_set h.found fun hin => absurd hin (by simp [hhandle])
    · rw [hhandles]
      exact forall_set h.size_lt fun hin => absurd hin (by simp [hhandle])
    · rw [hhandles]
      exact forall_set h.position_le fun hin => absurd hin (by simp [hhandle])
  | move fd k position handle hcall hholds hhandle hposition howner hhandles =>
    have hk : k < s.world.handles.length := (h.owns.used_of fd k hholds).lt
    have hmem := List.mem_of_getElem? hhandle
    have hin : handle.inUse := by
      obtain ⟨old, hold, hin⟩ := h.owns.used_of fd k hholds
      rwa [Option.some.inj (hhandle.symm.trans hold)]
    constructor
    · refine h.owns.congr (fun fd => congrFun howner fd) fun l => ?_
      rw [hhandles, inUse_set hk]
      by_cases hl : l = k
      · subst hl
        simpa [hin] using ⟨handle, hhandle, hin⟩
      · simp [hl]
    · rw [hhandles, List.length_set, h.length_handles]
    · rw [hhandles]
      exact forall_set h.found fun _ => h.found handle hmem hin
    · rw [hhandles]
      exact forall_set h.size_lt fun _ => h.size_lt handle hmem hin
    · rw [hhandles]
      exact forall_set h.position_le fun _ => hposition

/-! ### What a descriptor reads -/

/-- The descriptor is of a file of these bytes, and at this position. -/
structure Views (M : Machine τ) (s : State (World τ)) (fd : ℕ) (r : Reading UInt8) : Prop where
  holds : ∃ k handle, M.owner s.files fd = some k ∧ s.world.handles[k]? = some handle ∧
    r.data = readBytes M.rom handle.bytes handle.size ∧ r.position = handle.position

/-- A call that is not made on a descriptor leaves what it reads. -/
theorem Effect.views {c : FileCall} {r : Reading UInt8} (he : Effect M c s s') (h : Kept M s)
    (hr : Views M s fd r) (hfd : c.fd ≠ some (fd : ℤ)) : Views M s' fd r := by
  obtain ⟨k, handle, hholds, hhandle, hdata, hposition⟩ := hr.holds
  -- another descriptor is another handle
  have hother : ∀ fd' k' : ℕ, c.fd = some (fd' : ℤ) → M.owner s.files fd' = some k' →
      fd ≠ fd' ∧ k' ≠ k := by
    intro fd' k' hcall howner
    have hne : fd ≠ fd' := fun heq => hfd (heq ▸ hcall)
    exact ⟨hne, fun heq => hne (h.owns.unique fd fd' k hholds (heq ▸ howner))⟩
  refine ⟨k, handle, ?_, ?_, hdata, hposition⟩
  · cases he with
    | same howner hhandles => rw [howner, hholds]
    | claim fd' k' new hfree hk hunused hnew hfound hsize hstart howner hhandles =>
      rw [howner, Function.update_of_ne, hholds]
      rintro rfl
      rw [hfree] at hholds
      cases hholds
    | release fd' k' new hcall hholds' hnew howner hhandles =>
      rw [howner, Function.update_of_ne (hother fd' k' hcall hholds').1, hholds]
    | move fd' k' position old hcall hholds' hold hposition' howner hhandles =>
      rw [howner, hholds]
  · cases he with
    | same howner hhandles => rw [hhandles, hhandle]
    | claim fd' k' new hfree hk hunused hnew hfound hsize hstart howner hhandles =>
      rw [hhandles, List.getElem?_set_ne, hhandle]
      rintro rfl
      exact hunused (h.owns.used_of fd k' hholds)
    | release fd' k' new hcall hholds' hnew howner hhandles =>
      rw [hhandles, List.getElem?_set_ne (hother fd' k' hcall hholds').2, hhandle]
    | move fd' k' position old hcall hholds' hold hposition' howner hhandles =>
      rw [hhandles, List.getElem?_set_ne (hother fd' k' hcall hholds').2, hhandle]

/-! ### What the calls do -/

theorem owner_eq_some_iff : M.owner files fd = some k ↔
    ∃ file, files[fd]? = some file ∧ file.device = some M.device ∧ file.privdata.toNat = k := by
  simp only [Machine.owner, Option.map_eq_some_iff, Option.filter_eq_some_iff, decide_eq_true_eq,
    and_assoc]

theorem owner_eq_none (hfile : files[fd]? = some file) (hdevice : file.device ≠ some M.device) :
    M.owner files fd = none := by
  rw [Machine.owner, hfile, Option.filter_some, if_neg (by simpa using hdevice), Option.map_none]

/-- A record that is stored changes the owner of one handle only. -/
theorem owner_set (hfd : fd < files.length) : M.owner (files.set fd file) =
    Function.update (M.owner files) fd
      (if file.device = some M.device then some file.privdata.toNat else none) := by
  funext j
  rcases eq_or_ne j fd with rfl | hne
  · rw [Function.update_self, Machine.owner, List.getElem?_set_self hfd, Option.filter_some]
    split <;> simp_all
  · rw [Function.update_of_ne hne, Machine.owner, Machine.owner, List.getElem?_set_ne hne.symm]

/-- A record that was not `ROMDRV`'s and is not now. -/
theorem owner_set_none (hold : M.owner files fd = none) (hfd : fd < files.length)
    (hdevice : file.device ≠ some M.device) : M.owner (files.set fd file) = M.owner files := by
  rw [owner_set hfd, if_neg hdevice, ← hold, Function.update_eq_self]

/-- A record of `ROMDRV`'s has its handle. -/
theorem Kept.handleOf (h : Kept M s) (hfile : s.files[fd]? = some file)
    (hdevice : file.device = some M.device) : ∃ handle,
      M.owner s.files fd = some file.privdata.toNat ∧
      s.world.handles[file.privdata.toNat]? = some handle ∧ handle.inUse ∧
      Romdrv.handleOf file s.world.handles = some handle := by
  have howner : M.owner s.files fd = some file.privdata.toNat :=
    owner_eq_some_iff.mpr ⟨file, hfile, hdevice, rfl⟩
  obtain ⟨handle, hhandle, hin⟩ := h.owns.used_of fd _ howner
  refine ⟨handle, howner, hhandle, hin, ?_⟩
  rw [Romdrv.handleOf, hhandle, Option.filter_some, if_pos hin]

/-- A handle is claimed, or nothing is done. -/
theorem openFile_cases (file : File) (name : ℕ) (flags : UInt32) (w : World τ) :
    (∃ e < 0, M.openFile file name flags w = (e, file, w)) ∨
    ∃ found k, file.unit.toNat < kUnits ∧
      M.lookup file.unit.toNat (nameAt w.ram name) = some found ∧
      w.handles.findIdx? (fun handle => !handle.inUse) = some k ∧
      M.openFile file name flags w = (0, { file with privdata := UInt32.ofNat k },
        { w with handles := w.handles.set k ⟨true, found.address, found.size, 0⟩ }) := by
  rw [Machine.openFile]
  split
  · exact Or.inl ⟨kErrorBadUnit, by decide, rfl⟩
  rename_i hunit
  split
  · exact Or.inl ⟨kErrorBadFlags, by decide, rfl⟩
  cases hfound : M.lookup file.unit.toNat (nameAt w.ram name) with
  | none => exact Or.inl ⟨kErrorNotFound, by decide, rfl⟩
  | some found =>
    cases hk : w.handles.findIdx? fun handle => !handle.inUse with
    | none => exact Or.inl ⟨kErrorHandlesFull, by decide, rfl⟩
    | some k => exact Or.inr ⟨found, k, Nat.lt_of_not_le hunit, rfl, rfl, rfl⟩

/-- Which openings do not fail. -/
theorem openFile_nonneg_iff {file : File} {name : ℕ} {flags : UInt32} {w : World τ} :
    0 ≤ (M.openFile file name flags w).1 ↔ file.unit.toNat < kUnits ∧ flags = 1 ∧
      (M.lookup file.unit.toNat (nameAt w.ram name)).isSome ∧
      ∃ handle ∈ w.handles, handle.inUse = false := by
  have hany : (w.handles.findIdx? fun handle => !handle.inUse).isSome ↔
      ∃ handle ∈ w.handles, handle.inUse = false := by
    rw [List.findIdx?_isSome, List.any_eq_true]
    simp only [Bool.not_eq_true']
  rw [Machine.openFile, ← hany]
  split
  · exact iff_of_false (show ¬ 0 ≤ kErrorBadUnit by decide) fun h => by omega
  split
  · rename_i hflags
    exact iff_of_false (show ¬ 0 ≤ kErrorBadFlags by decide) fun h => hflags h.2.1
  cases M.lookup file.unit.toNat (nameAt w.ram name) with
  | none =>
    exact iff_of_false (show ¬ 0 ≤ kErrorNotFound by decide) fun h => Bool.false_ne_true h.2.2.1
  | some found =>
    cases w.handles.findIdx? fun handle => !handle.inUse with
    | none =>
      exact iff_of_false (show ¬ 0 ≤ kErrorHandlesFull by decide)
        fun h => Bool.false_ne_true h.2.2.2
    | some k => exact iff_of_true le_rfl ⟨by omega, by simp_all, rfl, rfl⟩

/-- An opening that fails leaves both tables, and one that does not has claimed a handle. -/
structure Opened (M : Machine τ) (path : ℕ) (flags : UInt32) (s : State (World τ))
    (r : ℤ × State (World τ)) : Prop where
  effect : Kept M s → Effect M (.openFile path flags) s r.2
  failed : r.1 < 0 → SameFiles s.files r.2.files ∧ r.2.world.handles = s.world.handles
  file : 0 ≤ r.1 → ∀ unit rest, parse s.world.ram s.drivers path = ⟨some M.device, unit, rest⟩ →
    ∃ k found, M.lookup unit.toNat (nameAt s.world.ram rest) = some found ∧ unit.toNat < kUnits ∧
      M.owner r.2.files r.1.toNat = some k ∧
      r.2.world.handles[k]? = some ⟨true, found.address, found.size, 0⟩

/-- What `IOMAN` has of the drivers when it opens a path. -/
abbrev Machine.opening (M : Machine τ) (device : Device) : Operations (World τ) :=
  (M.operations device).toOperations

/-- An open of one of this driver's files takes a handle for the record. -/
theorem openAs_romdrv {path rest : ℕ} {flags unit : UInt32}
    (hsized : M.Sized) (hhandles : s.world.handles.length = kHandles)
    (hfd : allocateFile s.files = some fd)
    (hparse : parse s.world.ram s.drivers path = ⟨some M.device, unit, rest⟩) :
    Opened M path flags s (openAs M.opening M.device unit rest flags fd s) := by
  obtain ⟨old, hold, hfree⟩ := allocateFile_eq_some hfd
  have hlt : fd < s.files.length := (List.getElem?_eq_some_iff.mp hold).1
  have hnone : M.owner s.files fd = none := owner_eq_none hold (by rw [hfree]; nofun)
  have hopen : (M.opening M.device).openFile = M.openFile := by
    rw [Machine.opening, Machine.operations, if_pos rfl]
    rfl
  rcases openFile_cases (M := M) ⟨flags, unit, some M.device, 0⟩ rest flags s.world with
    ⟨e, he, heq⟩ | ⟨found, k, hunit, hfound, hk, heq⟩
  · rw [openAs_failed (hopen ▸ heq) he]
    refine ⟨fun _ => .same (owner_set_none hnone hlt nofun) rfl, fun _ => ⟨?_, rfl⟩, fun h => ?_⟩
    · exact sameFiles_set ⟨old, hold, hfree⟩ rfl
    · exact absurd he (Int.not_lt.mpr h)
  · obtain ⟨hklt, hunused, -⟩ := List.findIdx?_eq_some_iff_getElem.mp hk
    have hk32 : (UInt32.ofNat k).toNat = k := by
      rw [UInt32.toNat_ofNat', Nat.mod_eq_of_lt]
      rw [hhandles, kHandles] at hklt
      omega
    have howner : M.owner (s.files.set fd ⟨flags, unit, some M.device, UInt32.ofNat k⟩) =
        Function.update (M.owner s.files) fd (some k) := by
      rw [owner_set hlt, if_pos rfl, hk32]
    rw [openAs_succeeded (hopen ▸ heq) (lt_irrefl 0)]
    refine ⟨fun _ => ?_, fun h => ?_, fun _ unit' rest' hparse' => ?_⟩
    · refine .claim fd k _ hnone hklt ?_ rfl ⟨_, hunit, _, _, hfound⟩
        (hsized _ hunit _ _ _ hfound) rfl howner rfl
      rintro ⟨handle, hhandle, hin⟩
      rw [List.getElem?_eq_getElem hklt] at hhandle
      rw [Option.some.inj hhandle, hin] at hunused
      exact absurd hunused Bool.false_ne_true
    · omega
    · obtain ⟨-, rfl, rfl⟩ := Parsed.mk.inj (hparse.symm.trans hparse')
      refine ⟨k, found, hfound, hunit, ?_, ?_⟩
      · rw [howner, Int.toNat_natCast, Function.update_self]
      · exact List.getElem?_set_self hklt

/-- An open of another driver's file takes no handle. -/
theorem openAs_other {path rest : ℕ} {flags unit : UInt32} {device : Device}
    (hfd : allocateFile s.files = some fd)
    (hparse : parse s.world.ram s.drivers path = ⟨some device, unit, rest⟩)
    (hdevice : device ≠ M.device) :
    Opened M path flags s (openAs M.opening device unit rest flags fd s) := by
  obtain ⟨old, hold, hfree⟩ := allocateFile_eq_some hfd
  have hlt : fd < s.files.length := (List.getElem?_eq_some_iff.mp hold).1
  have hnone : M.owner s.files fd = none := owner_eq_none hold (by rw [hfree]; nofun)
  have hopen : (M.opening device).openFile ⟨flags, unit, some device, 0⟩ rest flags s.world =
      Driver.leave ⟨flags, unit, some device, 0⟩ s.world ((M.others device).openFile
        ⟨flags, unit, some device, 0⟩ rest flags (s.world.ram, s.world.elsewhere)) := by
    rw [Machine.opening, Machine.operations, if_neg hdevice]
    rfl
  by_cases hneg : ((M.others device).openFile ⟨flags, unit, some device, 0⟩ rest flags
      (s.world.ram, s.world.elsewhere)).1 < 0
  · rw [openAs_failed hopen hneg]
    refine ⟨fun _ => .same (owner_set_none hnone hlt nofun) rfl, fun _ => ⟨?_, rfl⟩, fun h => ?_⟩
    · exact sameFiles_set ⟨old, hold, hfree⟩ rfl
    · exact absurd hneg (Int.not_lt.mpr h)
  · rw [openAs_succeeded hopen hneg]
    refine ⟨fun _ => .same (owner_set_none hnone hlt (by simpa using hdevice)) rfl, fun h => ?_,
      fun _ unit' rest' hparse' => ?_⟩
    · dsimp only at h
      omega
    · obtain ⟨heq, -, -⟩ := Parsed.mk.inj (hparse.symm.trans hparse')
      exact absurd (Option.some.inj heq) hdevice

theorem Opened.refused {path : ℕ} {flags : UInt32} {e : ℤ} (he : e < 0) :
    Opened M path flags s (e, s) where
  effect _ := .same rfl rfl
  failed _ := ⟨⟨fun _ => rfl, rfl⟩, rfl⟩
  file h := absurd he (Int.not_lt.mpr h)

/-- An open takes a record and, for one of this driver's files, a handle. -/
theorem openFile_opened (hsized : M.Sized) (hhandles : s.world.handles.length = kHandles)
    (path : ℕ) (flags : UInt32) : Opened M path flags s (M.call (.openFile path flags) s) := by
  rw [Machine.call, FileCall.run, Ioman.openFile]
  cases hparse : parse s.world.ram s.drivers path with
  | mk device unit rest =>
    cases device with
    | none => exact Opened.refused (show kErrorNoDevice < 0 by decide)
    | some device =>
      cases hfd : allocateFile s.files with
      | none => exact Opened.refused (show kErrorNoFd < 0 by decide)
      | some fd =>
        by_cases hdevice : device = M.device
        · subst hdevice
          exact openAs_romdrv hsized hhandles hfd hparse
        · exact openAs_other hfd hparse hdevice

theorem allocateFile_isSome_iff :
    (allocateFile files).isSome ↔ ∃ file ∈ files, file.device = none := by
  rw [allocateFile, List.findIdx?_isSome, List.any_eq_true]
  simp only [Option.isNone_iff_eq_none]

/-- Which paths to `ROMDRV` are opened. -/
theorem call_openFile_nonneg_iff {path rest : ℕ} {flags unit : UInt32}
    (hparse : parse s.world.ram s.drivers path = ⟨some M.device, unit, rest⟩) :
    0 ≤ (M.call (.openFile path flags) s).1 ↔ (∃ file ∈ s.files, file.device = none) ∧
      unit.toNat < kUnits ∧ flags = 1 ∧
      (M.lookup unit.toNat (nameAt s.world.ram rest)).isSome ∧
      ∃ handle ∈ s.world.handles, handle.inUse = false := by
  have hopen : (M.opening M.device).openFile = M.openFile := by
    rw [Machine.opening, Machine.operations, if_pos rfl]
    rfl
  rw [Machine.call, FileCall.run, Ioman.openFile, hparse, ← allocateFile_isSome_iff]
  dsimp only
  cases hfd : allocateFile s.files with
  | none => exact iff_of_false (show ¬ 0 ≤ kErrorNoFd by decide) fun h => Bool.false_ne_true h.1
  | some fd =>
    have hiff : 0 ≤ (M.openFile ⟨flags, unit, some M.device, 0⟩ rest flags s.world).1 ↔ _ :=
      openFile_nonneg_iff
    have hopened : 0 ≤ (openAs M.opening M.device unit rest flags fd s).1 ↔ _ := openAs_nonneg_iff
    rw [Option.isSome_some, eq_self_iff_true, true_and]
    exact (hopened.trans (by rw [hopen])).trans hiff

/-! ### The calls on a descriptor -/

theorem operations_device : M.operations M.device = M.romdrv := if_pos rfl

theorem toNat_le_of_clamped {position : ℤ} {size : ℕ} (hsize : size < 2 ^ 32) :
    toWord (clamped position size) ≤ size := by
  rw [clamped, toWord, int32, Nat.mod_eq_of_lt hsize]
  split <;> split <;> omega

theorem readLength_le (size : ℤ) (h : handle.position ≤ handle.size)
    (hsize : handle.size < 2 ^ 32) :
    readLength handle size ≤ handle.size - handle.position := by
  rw [readLength, sub32_eq h hsize]
  exact Nat.min_le_right _ _

/-- A descriptor of `ROMDRV`'s, its record, and the handle it holds. -/
structure IsRomFile (M : Machine τ) (s : State (World τ)) (fd : ℕ) (file : File) (handle : Handle) :
    Prop where
  get : s.files[fd]? = some file
  device : file.device = some M.device
  owner : M.owner s.files fd = some file.privdata.toNat
  handle_get : s.world.handles[file.privdata.toNat]? = some handle
  handleOf_eq : handleOf file s.world.handles = some handle
  position_le : handle.position ≤ handle.size
  size_lt : handle.size < 2 ^ 32

/-- A descriptor that is open for this driver has a handle that is in use. -/
theorem Kept.isRomFile (h : Kept M s) {file : File} {fd : ℤ}
    (hfile : fileOf s.files fd = some (file, M.device)) :
    fd = (fd.toNat : ℤ) ∧ ∃ handle, IsRomFile M s fd.toNat file handle := by
  obtain ⟨hfd, hget, hdevice⟩ := fileOf_eq_some_iff.mp hfile
  obtain ⟨handle, howner, hhandle, hin, hof⟩ := h.handleOf hget hdevice
  have hmem := List.mem_of_getElem? hhandle
  exact ⟨(Int.toNat_of_nonneg hfd).symm, handle, hget, hdevice, howner, hhandle, hof,
    h.position_le handle hmem hin, h.size_lt handle hmem hin⟩

namespace IsRomFile

variable {buffer : ℕ} {size : ℤ}

theorem fileOf_eq (h : IsRomFile M s fd file handle) :
    fileOf s.files (fd : ℤ) = some (file, M.device) :=
  fileOf_eq_some_iff.mpr ⟨Int.natCast_nonneg fd, h.get, h.device⟩

/-- A read delivers bytes of the file, and the position is behind them. -/
theorem readFile_eq (h : IsRomFile M s fd file handle) :
    M.call (.readFile fd buffer size) s = ((readLength handle size : ℤ), { s with
      world := { s.world with
        handles := s.world.handles.set file.privdata.toNat
          { handle with position := handle.position + readLength handle size }
        ram := write s.world.ram buffer
          (readBytes M.rom (handle.bytes + handle.position) (readLength handle size)) } }) := by
  have hle := readLength_le size h.position_le h.size_lt
  have hadd : add32 handle.position (readLength handle size) =
      handle.position + readLength handle size := by
    have hposition := h.position_le
    have hsize := h.size_lt
    exact add32_eq (by omega)
  obtain ⟨hlt, hself⟩ := List.getElem?_eq_some_iff.mp h.get
  have hset : s.files.set fd file = s.files := by rw [← hself, List.set_getElem_self]
  rw [Machine.call, FileCall.run, readFile, h.fileOf_eq]
  dsimp only
  rw [operations_device]
  simp only [Machine.romdrv, readHandle, h.handleOf_eq, hadd, Int.toNat_natCast, hset]

/-- A descriptor that is closed gives its handle back. -/
theorem closeFile_eq (h : IsRomFile M s fd file handle) :
    M.call (.closeFile fd) s = (0, { s with
      files := s.files.set fd { file with device := none }
      world := { s.world with
        handles := s.world.handles.set file.privdata.toNat { handle with inUse := false } } }) := by
  rw [Machine.call, FileCall.run, closeFile, h.fileOf_eq]
  dsimp only
  rw [operations_device]
  simp only [Machine.romdrv, closeHandle, h.handleOf_eq, Int.toNat_natCast]

/-- A seek from nowhere is refused. -/
theorem lseekFile_refused (h : IsRomFile M s fd file handle) (offset : ℤ) {whence : ℤ}
    (hbase : seekBase handle whence = none) :
    M.call (.lseekFile fd offset whence) s = (kErrorBadWhence, s) := by
  obtain ⟨hlt, hself⟩ := List.getElem?_eq_some_iff.mp h.get
  have hset : s.files.set fd file = s.files := by rw [← hself, List.set_getElem_self]
  rw [Machine.call, FileCall.run, lseekFile, h.fileOf_eq]
  dsimp only
  split
  · rfl
  · rw [operations_device]
    simp only [Machine.romdrv, lseekHandle, h.handleOf_eq, hbase, Int.toNat_natCast, hset]

/-- Another moves the position within the file, and answers it. -/
theorem lseekFile_eq (h : IsRomFile M s fd file handle) (offset : ℤ) {whence base : ℤ}
    (hbase : seekBase handle whence = some base) :
    M.call (.lseekFile fd offset whence) s =
      (clamped (int32 (toWord (base + offset))) handle.size, { s with
        world := { s.world with
          handles := s.world.handles.set file.privdata.toNat { handle with
            position := toWord (clamped (int32 (toWord (base + offset))) handle.size) } } }) := by
  obtain ⟨hlt, hself⟩ := List.getElem?_eq_some_iff.mp h.get
  have hset : s.files.set fd file = s.files := by rw [← hself, List.set_getElem_self]
  have hwhence : ¬(whence < 0 ∨ whence > 2) := by
    rintro (hlt | hgt)
    · rw [seekBase, if_neg (by omega), if_neg (by omega), if_neg (by omega)] at hbase
      cases hbase
    · rw [seekBase, if_neg (by omega), if_neg (by omega), if_neg (by omega)] at hbase
      cases hbase
  rw [Machine.call, FileCall.run, lseekFile, h.fileOf_eq]
  dsimp only
  rw [if_neg hwhence, operations_device]
  simp only [Machine.romdrv, lseekHandle, h.handleOf_eq, hbase, Int.toNat_natCast, hset]

end IsRomFile

/-- A descriptor of another driver's holds no handle, and gets none. -/
theorem other_effect {c : FileCall} {fd : ℤ} {device : Device} (hc : c.fd = some fd)
    (hfile : fileOf s.files fd = some (file, device)) (hdevice : device ≠ M.device) :
    Effect M c s (M.call c s).2 := by
  obtain ⟨hfd, hget, hfiledevice⟩ := fileOf_eq_some_iff.mp hfile
  have hlt : fd.toNat < s.files.length := (List.getElem?_eq_some_iff.mp hget).1
  have hnot : ∀ word, ({ file with privdata := word } : File).device ≠ some M.device := by
    intro word
    rw [show ({ file with privdata := word } : File).device = some device from hfiledevice]
    simpa using hdevice
  have hnone : M.owner s.files fd.toNat = none := owner_eq_none hget (hnot file.privdata)
  have hops : M.operations device = (M.others device).operations := if_neg hdevice
  cases c with
  | openFile path flags => cases hc
  | closeFile fd' =>
    obtain rfl : fd' = fd := Option.some.inj hc
    rw [Machine.call, FileCall.run, closeFile, hfile]
    dsimp only
    rw [hops]
    exact .same (owner_set_none hnone hlt nofun) rfl
  | readFile fd' buffer size =>
    obtain rfl : fd' = fd := Option.some.inj hc
    rw [Machine.call, FileCall.run, readFile, hfile]
    dsimp only
    rw [hops]
    exact .same (owner_set_none hnone hlt (hnot _)) rfl
  | lseekFile fd' offset whence =>
    obtain rfl : fd' = fd := Option.some.inj hc
    rw [Machine.call, FileCall.run, lseekFile, hfile]
    dsimp only
    split
    · exact .same rfl rfl
    · rw [hops]
      exact .same (owner_set_none hnone hlt (hnot _)) rfl

/-- A call on no descriptor is refused. -/
theorem call_none {c : FileCall} {fd : ℤ} (hc : c.fd = some fd) (hfile : fileOf s.files fd = none) :
    M.call c s = (kErrorBadFd, s) := by
  cases c with
  | openFile path flags => cases hc
  | closeFile fd' =>
    obtain rfl : fd' = fd := Option.some.inj hc
    rw [Machine.call, FileCall.run, closeFile, hfile]
  | readFile fd' buffer size =>
    obtain rfl : fd' = fd := Option.some.inj hc
    rw [Machine.call, FileCall.run, readFile, hfile]
  | lseekFile fd' offset whence =>
    obtain rfl : fd' = fd := Option.some.inj hc
    rw [Machine.call, FileCall.run, lseekFile, hfile]

/-- A call on a descriptor of `ROMDRV`'s moves its position, or gives its handle back. -/
theorem IsRomFile.effect {c : FileCall} (h : IsRomFile M s fd file handle)
    (hc : c.fd = some (fd : ℤ)) : Effect M c s (M.call c s).2 := by
  have hlt : fd < s.files.length := (List.getElem?_eq_some_iff.mp h.get).1
  cases c with
  | openFile path flags => cases hc
  | closeFile fd' =>
    obtain rfl : fd' = fd := Option.some.inj hc
    rw [h.closeFile_eq]
    refine .release fd _ { handle with inUse := false } rfl h.owner rfl ?_ rfl
    rw [owner_set hlt, if_neg nofun]
  | readFile fd' buffer size =>
    obtain rfl : fd' = fd := Option.some.inj hc
    have hle := readLength_le size h.position_le h.size_lt
    have hposition := h.position_le
    rw [h.readFile_eq]
    exact .move fd _ _ handle rfl h.owner h.handle_get (by omega) rfl rfl
  | lseekFile fd' offset whence =>
    obtain rfl : fd' = fd := Option.some.inj hc
    cases hbase : seekBase handle whence with
    | none =>
      rw [h.lseekFile_refused offset hbase]
      exact .same rfl rfl
    | some base =>
      rw [h.lseekFile_eq offset hbase]
      exact .move fd _ _ handle rfl h.owner h.handle_get (toNat_le_of_clamped h.size_lt) rfl rfl

/-- What each call does to the descriptors and the handles. -/
theorem call_effect (hsized : M.Sized) (h : Kept M s) (c : FileCall) :
    Effect M c s (M.call c s).2 := by
  cases hc : c.fd with
  | none =>
    cases c with
    | openFile path flags => exact (openFile_opened hsized h.length_handles path flags).effect h
    | closeFile fd => cases hc
    | readFile fd buffer size => cases hc
    | lseekFile fd offset whence => cases hc
  | some fd =>
    cases hfile : fileOf s.files fd with
    | none =>
      rw [call_none hc hfile]
      exact .same rfl rfl
    | some found =>
      obtain ⟨file, device⟩ := found
      by_cases hdevice : device = M.device
      · subst hdevice
        obtain ⟨hfd, handle, hrom⟩ := h.isRomFile hfile
        exact hrom.effect (hfd ▸ hc)
      · exact other_effect hc hfile hdevice

theorem calls_kept (hsized : M.Sized) (h : Kept M s) (cs : List FileCall) :
    Kept M (M.calls cs s) := by
  induction cs generalizing s with
  | nil => exact h
  | cons c cs ih => exact ih ((call_effect hsized h c).kept h)

end PS2Bios.Ioman.Romdrv
