import PS2Bios.Rom.Readers

/-!
# `UDNL`'s reader

`UDNL` opens an archive once, finding the table and the `EXTINFO` file, and then looks names up in
it. Where it finds a file it reads the version out of the file's slice of `EXTINFO`.
-/

namespace PS2Bios.Rom

open Bytes

namespace Udnl

/-- `Archive`: an open archive. -/
structure Archive where
  table : ℕ
  base : ℕ
  extinfo : Option Place
  label : ℕ
deriving DecidableEq, Repr

/-- `Candidate`: a file of an archive, with the version that a merge compares. -/
structure Candidate where
  file : Place
  version : ℕ
deriving DecidableEq, Repr

/-- The tests of the module's walks, the end first. -/
def look (m : Ram) (isNamed : ℕ → Bool) (entry : ℕ) : Look :=
  if terminator m entry then .over else if isNamed entry then .here else .on

/-- `openArchive`. -/
def openArchive (m : Ram) (start last label n : ℕ) : Option (Option Archive) :=
  (scan m (fun entry => add32 entry kEntrySize ≤ last) n start).bind fun
    | none => some none
    | some table =>
      (walk (look m (isPacked m kExtinfo)) m n table (imageBase m table) 0).map fun hit =>
        some ⟨table, imageBase m table, hit.map Hit.file, label⟩

/-- The range of `EXTINFO` that `extinfoVersion` reads, when it reads any. -/
def slice (archive : Archive) (extinfoOffset length : ℕ) : Option Place :=
  archive.extinfo.bind fun extinfo =>
    if extinfo.size < add32 extinfoOffset length then none
    else some ⟨add32 extinfo.address extinfoOffset, length⟩

/-- The loop of `extinfoVersion`. -/
def versionFrom (m : Ram) (last : ℕ) : ℕ → ℕ → Option ℕ
  | 0, _ => none
  | n + 1, record =>
    if add32 record 4 ≤ last then
      if m (record + 3) = kExtinfoVersion then some (readHalf m record)
      else versionFrom m last n (add32 record (4 + (m (record + 2)).toNat))
    else some 0

/-- `extinfoVersion`. -/
def extinfoVersion (m : Ram) (archive : Archive) (extinfoOffset length n : ℕ) : Option ℕ :=
  match slice archive extinfoOffset length with
  | none => some 0
  | some records => versionFrom m (add32 records.address records.size) n records.address

/-- The walk of `lookup`. -/
def locate (m : Ram) (archive : Archive) (name : List UInt8) (n : ℕ) : Option (Option Hit) :=
  walk (look m (isBytes m name)) m n archive.table archive.base 0

/-- `lookup`. -/
def lookup (m : Ram) (archive : Archive) (name : List UInt8) (n : ℕ) :
    Option (Option Candidate) :=
  (locate m archive name n).bind fun
    | none => some none
    | some hit =>
      (extinfoVersion m archive hit.extinfoOffset hit.extinfoSize n).map fun version =>
        some ⟨hit.file, version⟩

variable {m : Ram} {base last label : ℕ} {name image : List UInt8} {files : List File} {f : File}
  {i : ℕ} {archive : Archive}

/-- UDNL's comparison tells a name. -/
theorem tells_look (hname : IsName name) : Tells m (look m (isBytes m name)) name := by
  constructor
  · intro entry f hf hfname
    unfold look isBytes
    rw [if_neg (hf.not_terminator hfname)]
    simp only [hf.namedBytes_iff hfname hname, decide_eq_true_eq]
  · intro entry hat
    exact if_pos (terminator_of_at hat)

/-- An archive as `openArchive` leaves it. -/
structure IsOpen (files : List File) (base label : ℕ) (archive : Archive) : Prop where
  table_eq : archive.table = base + offset files 1
  base_eq : archive.base = base
  label_eq : archive.label = label
  extinfo : Finds files kExtinfo base (archive.extinfo = ·)

/-- An archive that is placed is opened where it lies. -/
theorem openArchive_yields (h : Placed m base files image) (label : ℕ)
    (hlast : base + offset files 1 + kEntrySize ≤ last) :
    ∃ archive, IsOpen files base label archive ∧
      Yields (openArchive m base last label) (some archive) := by
  have hextinfo : ∃ extinfo, Finds files kExtinfo base (extinfo = ·) ∧
      Yields (fun n => (walk (look m (isBytes m kExtinfo)) m n (base + offset files 1) base 0).map
        (Option.map Hit.file)) extinfo := by
    have hfinds := Answers.finds h (h.walk_answers (tells_look isName_kExtinfo)) fun r hr =>
      hr.map (Option.map Hit.file)
    rcases exists_isFirst_or files kExtinfo with ⟨i, f, hf⟩ | hnone
    · refine ⟨_, ⟨fun j g hg => ?_, fun hnone => ?_⟩, hfinds.1 i f hf⟩
      · obtain ⟨rfl, rfl⟩ := hf.unique hg
        rfl
      · exact absurd hf.name_eq (hnone f (List.mem_of_getElem? hf.get))
    · refine ⟨none, ⟨fun j g hg => ?_, fun _ => rfl⟩, hfinds.2 hnone⟩
      exact absurd hg.name_eq (hnone g (List.mem_of_getElem? hg.get))
  obtain ⟨extinfo, hfinds, hwalk⟩ := hextinfo
  refine ⟨⟨base + offset files 1, base, extinfo, label⟩, ⟨rfl, rfl, rfl, hfinds⟩, ?_⟩
  refine Yields.bind (h.scan_yields fun a _ ha => ?_) ?_
  · have hfits := h.fits
    have hle := offset_le files 1
    have htable := h.table_fits
    refine decide_eq_true (Nat.le_trans (Nat.mod_le _ _) ?_)
    omega
  · simp only [h.imageBase_eq, isPacked_eq]
    refine (hwalk.map fun extinfo =>
      some (Archive.mk (base + offset files 1) base extinfo label)).congr fun n => ?_
    rw [Option.map_map]
    rfl

/-- `UDNL` walks to the first file of a name. -/
theorem locate_answers (h : Placed m base files image) (hopen : IsOpen files base label archive)
    (hname : IsName name) :
    Answers files name base 0 fun r => Yields (locate m archive name) r := by
  unfold locate
  rw [hopen.table_eq, hopen.base_eq]
  exact h.walk_answers (tells_look hname)

/-- The slice of the `i`-th file is its own, when `EXTINFO` is the slices of all. -/
theorem slice_eq (h : Placed m base files image) (hopen : IsOpen files base label archive)
    {j : ℕ} {x : File} (hx : IsFirst files kExtinfo j x)
    (hdata : x.data = files.flatMap File.extinfo) (hi : files[i]? = some f) :
    slice archive (extinfoOffset files i % 2 ^ 32) f.extinfo.length =
        some ⟨base + offset files j + extinfoOffset files i, f.extinfo.length⟩ ∧
      At m (base + offset files j + extinfoOffset files i) f.extinfo := by
  have hle := extinfoOffset_add_le hi
  have hlt := h.archive.data_lt x (List.mem_of_getElem? hx.get)
  have hfile := h.file_at hx.get
  have hplace := offset_add_le hx.get
  have hup := le_alignUp x.data.length
  have hfits := h.fits
  rw [hdata] at hfile
  rw [← hdata] at hle
  refine ⟨?_, at_of_extinfo hfile hi⟩
  rw [slice, hopen.extinfo.1 j x hx, Option.bind_some, Nat.mod_eq_of_lt (by omega),
    add32_eq (by omega), if_neg (by simp only; omega), add32_eq (by simp only; omega)]

/-- The loop reads the version of the records that begin `d` bytes into the slice; the last record
may have run over the slice's end. -/
theorem versionFrom_yields {start d k : ℕ} {slice : List UInt8} (hat : At m start slice)
    (hfits : start + slice.length + 512 ≤ 2 ^ 32) (hd : d < slice.length + 256)
    (hk : slice.length ≤ d + k) :
    Yields (fun n => versionFrom m (start + slice.length) n (start + d))
      (versionOf k (slice.drop d)) := by
  induction k generalizing d with
  | zero =>
    refine Yields.succ rfl (fun n => ?_) (Yields.const 0)
    rw [versionFrom, add32_eq (by omega), if_neg (by omega)]
  | succ k ih =>
    by_cases hend : slice.length < d + 4
    · rw [versionOf_of_length_lt (by rw [List.length_drop]; omega)]
      refine Yields.succ rfl (fun n => ?_) (Yields.const 0)
      rw [versionFrom, add32_eq (by omega), if_neg (by omega)]
    · have hbyte : ∀ i, (hi : d + i < slice.length) → m (start + d + i) = slice[d + i] := by
        intro i hi
        rw [Nat.add_assoc]
        exact hat _ _ (List.getElem?_eq_getElem hi)
      have hrecord : slice.drop d = slice[d] :: slice[d + 1] :: slice[d + 2] :: slice[d + 3] ::
          slice.drop (d + 4) := by
        rw [List.drop_eq_getElem_cons (by omega), List.drop_eq_getElem_cons (by omega : d + 1 < _),
          List.drop_eq_getElem_cons (by omega : d + 2 < _),
          List.drop_eq_getElem_cons (by omega : d + 3 < _)]
      have hfirst : m (start + d) = slice[d] := hbyte 0 (by omega)
      have hloop : ∀ n, versionFrom m (start + slice.length) (n + 1) (start + d) =
          if slice[d + 3] = kExtinfoVersion then
            some ((slice[d]).toNat + 256 * (slice[d + 1]).toNat)
          else versionFrom m (start + slice.length) n
            (start + (d + 4 + (slice[d + 2]).toNat)) := by
        intro n
        have hlt := (slice[d + 2]).toNat_lt
        rw [versionFrom, add32_eq (by omega), if_pos (by omega), readHalf, hbyte 3 (by omega),
          hfirst, hbyte 1 (by omega), hbyte 2 (by omega), add32_eq (by omega), Nat.add_assoc start,
          Nat.add_assoc d]
      rw [hrecord, versionOf]
      by_cases htype : slice[d + 3] = kExtinfoVersion
      · rw [if_pos htype]
        refine Yields.succ rfl (fun n => ?_) (Yields.const _)
        rw [hloop, if_pos htype]
      · rw [if_neg htype, List.drop_drop]
        refine Yields.succ rfl (fun n => ?_) (ih ?_ (by omega))
        · rw [hloop, if_neg htype]
        · have hlt := (slice[d + 2]).toNat_lt
          omega

/-- A file's version is the one its own slice declares, or 0 without an `EXTINFO`. -/
theorem lookup_yields (h : Placed m base files image) (hopen : IsOpen files base label archive)
    (hextinfo : ∀ j x, IsFirst files kExtinfo j x → x.data = files.flatMap File.extinfo)
    (hname : IsName name) :
    (∀ i f, IsFirst files name i f → ∃ version,
      ((∃ j x, IsFirst files kExtinfo j x) ∧ version = sliceVersion f.extinfo ∨
        (∀ x ∈ files, x.name ≠ kExtinfo) ∧ version = 0) ∧
        Yields (lookup m archive name) (some ⟨⟨base + offset files i, f.data.length⟩, version⟩)) ∧
    ((∀ f ∈ files, f.name ≠ name) → Yields (lookup m archive name) none) := by
  have hlocate := locate_answers h hopen hname
  refine ⟨fun i f hf => ?_, fun hnone => (hlocate.2 hnone).bind (Yields.const none)⟩
  have hhit := hlocate.1 i f hf
  rw [Nat.mod_eq_of_lt (h.offset_lt i), Nat.zero_add] at hhit
  rcases exists_isFirst_or files kExtinfo with ⟨j, x, hx⟩ | hnone
  · obtain ⟨hslice, hat⟩ := slice_eq h hopen hx (hextinfo j x hx) hf.get
    refine ⟨sliceVersion f.extinfo, .inl ⟨⟨j, x, hx⟩, rfl⟩, hhit.bind (Yields.map _ ?_)⟩
    have hle := extinfoOffset_add_le hf.get
    have hplace := offset_add_le hx.get
    have hup := le_alignUp x.data.length
    have hfits := h.fits
    rw [← hextinfo j x hx] at hle
    have hversion : Yields (fun n => versionFrom m (base + offset files j + extinfoOffset files i +
        f.extinfo.length) n (base + offset files j + extinfoOffset files i + 0))
        (versionOf f.extinfo.length (f.extinfo.drop 0)) :=
      versionFrom_yields hat (by omega) (by omega) (by omega)
    refine hversion.congr fun n => ?_
    simp only [extinfoVersion, hslice]
    rw [add32_eq (by omega), Nat.add_zero]
  · refine ⟨0, .inr ⟨hnone, rfl⟩, hhit.bind (Yields.map _ ?_)⟩
    have hnull := hopen.extinfo.2 hnone
    refine (Yields.const 0).congr fun n => ?_
    rw [extinfoVersion, slice, hnull]
    rfl

end Udnl

end PS2Bios.Rom
