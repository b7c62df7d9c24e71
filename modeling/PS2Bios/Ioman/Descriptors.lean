import PS2Bios.Ioman.Drivers

/-!
# Calls on a descriptor

`close`, `read` and `lseek` of `ioman.cpp`. A descriptor is the index of a file's record; the call
goes to the record's driver, which may write to the record.

A call finds nothing of a free record but that it is free (`SameFiles`).
-/

namespace PS2Bios.Ioman

open Bytes

/-- The answer to a descriptor that is not open. -/
def kErrorBadFd : ℤ := -9

/-- The answer to a seek from nowhere there is. -/
def kErrorBadWhence : ℤ := -22

/-- The operations a descriptor's calls go to. They answer, and leave the record and the world. -/
structure FileOperations (σ : Type) extends Operations σ where
  closeFile : File → σ → ℤ × File × σ
  /-- The record, the buffer and the size. -/
  readFile : File → ℕ → ℤ → σ → ℤ × File × σ
  /-- The record, the offset and `whence`. -/
  lseekFile : File → ℤ → ℤ → σ → ℤ × File × σ

/-- A record in use, and its driver. -/
def fileOf (files : List File) (fd : ℤ) : Option (File × Device) :=
  if fd < 0 then none
  else files[fd.toNat]?.bind fun file => file.device.map (file, ·)

variable {σ : Type} (ops : Device → FileOperations σ) (ram : σ → Ram)

/-- `close`: the driver closes, and the descriptor is free whatever it answers. -/
def closeFile (fd : ℤ) (s : State σ) : ℤ × State σ :=
  match fileOf s.files fd with
  | none => (kErrorBadFd, s)
  | some (file, device) =>
    let (result, file, world) := (ops device).closeFile file s.world
    (result, { s with
      files := s.files.set fd.toNat { file with device := none }
      world := world })

/-- `read`: the driver of the descriptor reads. -/
def readFile (fd : ℤ) (buffer : ℕ) (size : ℤ) (s : State σ) : ℤ × State σ :=
  match fileOf s.files fd with
  | none => (kErrorBadFd, s)
  | some (file, device) =>
    let (result, file, world) := (ops device).readFile file buffer size s.world
    (result, { s with files := s.files.set fd.toNat file, world := world })

/-- `lseek`: the origin is checked before the driver seeks. -/
def lseekFile (fd offset whence : ℤ) (s : State σ) : ℤ × State σ :=
  match fileOf s.files fd with
  | none => (kErrorBadFd, s)
  | some (file, device) =>
    if whence < 0 ∨ whence > 2 then (kErrorBadWhence, s)
    else
      let (result, file, world) := (ops device).lseekFile file offset whence s.world
      (result, { s with files := s.files.set fd.toNat file, world := world })

/-- A call that opens a descriptor or is made on one. -/
inductive FileCall
  | openFile (path : ℕ) (flags : UInt32)
  | closeFile (fd : ℤ)
  | readFile (fd : ℤ) (buffer : ℕ) (size : ℤ)
  | lseekFile (fd offset whence : ℤ)
deriving DecidableEq, Repr

/-- The descriptor a call is made on. -/
def FileCall.fd : FileCall → Option ℤ
  | .openFile _ _ => none
  | .closeFile fd => some fd
  | .readFile fd _ _ => some fd
  | .lseekFile fd _ _ => some fd

/-- What a call answers, and what it leaves. -/
def FileCall.run : FileCall → State σ → ℤ × State σ
  | .openFile path flags, s =>
    Ioman.openFile (fun device => (ops device).toOperations) ram path flags s
  | .closeFile fd, s => Ioman.closeFile ops fd s
  | .readFile fd buffer size, s => Ioman.readFile ops fd buffer size s
  | .lseekFile fd offset whence, s => Ioman.lseekFile ops fd offset whence s

/-- The state a sequence of calls leads to. -/
def runFiles (calls : List FileCall) (s : State σ) : State σ :=
  calls.foldl (fun s call => (call.run ops ram s).2) s

/-! ### What a call sees of the table -/

/-- The same records are in use, for the same files; the others are free. -/
structure SameFiles (files files' : List File) : Prop where
  inUse : ∀ fd, fileOf files' fd = fileOf files fd
  free : allocateFile files' = allocateFile files

variable {files : List File} {file : File} {device : Device} {fd : ℤ} {k : ℕ}

/-- A descriptor's file is found where the record of its number is open. -/
theorem fileOf_eq_some_iff : fileOf files fd = some (file, device) ↔
    0 ≤ fd ∧ files[fd.toNat]? = some file ∧ file.device = some device := by
  rw [fileOf]
  split
  · simp only [reduceCtorEq, false_iff, not_and]
    omega
  · simp only [Option.bind_eq_some_iff, Option.map_eq_some_iff, Prod.mk.injEq]
    constructor
    · rintro ⟨f, hf, d, hd, rfl, rfl⟩
      exact ⟨by omega, hf, hd⟩
    · rintro ⟨-, hf, hd⟩
      exact ⟨file, hf, device, hd, rfl, rfl⟩

theorem allocateFile_eq_some (h : allocateFile files = some k) :
    ∃ file, files[k]? = some file ∧ file.device = none := by
  obtain ⟨hk, hfree, -⟩ := List.findIdx?_eq_some_iff_getElem.mp h
  exact ⟨files[k], List.getElem?_eq_getElem hk, Option.isNone_iff_eq_none.mp hfree⟩

/-- A free record may be written to, as long as it stays free. -/
theorem sameFiles_set (hfree : ∃ old, files[k]? = some old ∧ old.device = none)
    (hfile : file.device = none) : SameFiles files (files.set k file) := by
  obtain ⟨old, hold, hnone⟩ := hfree
  obtain ⟨hk, rfl⟩ := List.getElem?_eq_some_iff.mp hold
  constructor
  · intro fd
    rw [fileOf, fileOf]
    split
    · rfl
    · rw [List.getElem?_set]
      split
      · rename_i heq
        rw [← heq, List.getElem?_eq_getElem hk]
        simp [hfile, hnone]
      · rfl
  · -- the two tables are searched with the same answers
    have hmap : (files.set k file).map (fun f => f.device.isNone) =
        files.map fun f => f.device.isNone := by
      rw [List.map_set, hfile]
      refine List.ext_getElem? fun i => ?_
      rw [List.getElem?_set]
      split
      · rename_i heq
        subst heq
        simp [hk, hnone]
      · rfl
    have hfind : ∀ l : List File, allocateFile l =
        (l.map fun f => f.device.isNone).findIdx? id := fun l => by
      rw [allocateFile, List.findIdx?_map]
      rfl
    rw [hfind, hfind, hmap]

/-! ### What a driver's answer does to the record -/

variable {opening : Device → Operations σ} {s : State σ} {unit flags : UInt32} {rest : ℕ}
  {result : ℤ} {world : σ}

/-- An open the driver refuses gives the record back. -/
theorem openAs_failed (h : (opening device).openFile ⟨flags, unit, some device, 0⟩ rest flags
      s.world = (result, file, world)) (hresult : result < 0) :
    openAs opening device unit rest flags k s =
      (result, { s with files := s.files.set k { file with device := none }, world := world }) := by
  rw [openAs, h]
  exact if_pos hresult

/-- An open the driver accepts keeps the record as the driver left it. -/
theorem openAs_succeeded (h : (opening device).openFile ⟨flags, unit, some device, 0⟩ rest flags
      s.world = (result, file, world)) (hresult : ¬result < 0) :
    openAs opening device unit rest flags k s =
      ((k : ℤ), { s with files := s.files.set k file, world := world }) := by
  rw [openAs, h]
  exact if_neg hresult

/-- A path is opened if its driver opens it. -/
theorem openAs_nonneg_iff : 0 ≤ (openAs opening device unit rest flags k s).1 ↔
    0 ≤ ((opening device).openFile ⟨flags, unit, some device, 0⟩ rest flags s.world).1 := by
  obtain ⟨result, file, world, hopen⟩ : ∃ result file world, (opening device).openFile
      ⟨flags, unit, some device, 0⟩ rest flags s.world = (result, file, world) := ⟨_, _, _, rfl⟩
  by_cases hneg : result < 0
  · rw [openAs_failed hopen hneg, hopen]
  · rw [openAs_succeeded hopen hneg, hopen]
    exact iff_of_true (Int.natCast_nonneg k) (Int.not_lt.mp hneg)

end PS2Bios.Ioman
