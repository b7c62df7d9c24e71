import Mathlib.Algebra.GroupWithZero.Nat
import Mathlib.Data.List.Basic
import Mathlib.Tactic.Common
import PS2Bios.Library.Bytes

/-!
# ROM archives

An archive is files stored back to back, each on a sixteen-byte boundary, with a table that lists
them in storage order: ten bytes of name, the size of the file's slice of `EXTINFO`, the size of
the file. No offset is stored. A file's is the sum of the aligned sizes before it, a slice's the
sum of the slices before it.

`File` is one file of an archive and a list of them the whole of it, whatever wrote the image;
`layout` is where the bytes go.
-/

namespace PS2Bios.Rom

open Bytes

/-- The bytes of a directory entry. -/
def kEntrySize : ℕ := 16

/-- The bytes of a name in it. -/
def kNameLength : ℕ := 10

/-- One file of an archive, with its slice of `EXTINFO`. -/
structure File where
  name : List UInt8
  extinfo : List UInt8
  data : List UInt8
deriving DecidableEq, Repr

/-- A name as a table holds it: one to ten characters. -/
structure IsName (name : List UInt8) : Prop where
  ne_nil : name ≠ []
  length_le : name.length ≤ kNameLength
  ascii : ∀ c ∈ name, c ≠ 0 ∧ c < 128

/-- Whether it is a name can be computed. -/
theorem isName_of_all {name : List UInt8} (hne : name ≠ []) (hle : name.length ≤ kNameLength)
    (hall : name.all fun c => c != 0 && decide (c < 128)) : IsName name := by
  refine ⟨hne, hle, fun c hc => ?_⟩
  simpa using List.all_eq_true.mp hall c hc

theorem IsName.zero_notMem {name : List UInt8} (h : IsName name) : 0 ∉ name :=
  fun h0 => (h.ascii 0 h0).1 rfl

/-- `alignUp`: a size rounded up to the next boundary. -/
def alignUp (n : ℕ) : ℕ := (n + 15) / 16 * 16

theorem le_alignUp (n : ℕ) : n ≤ alignUp n := by
  unfold alignUp
  omega

theorem alignUp_of_dvd {n : ℕ} (h : n % 16 = 0) : alignUp n = n := by
  unfold alignUp
  omega

/-! ### The table -/

/-- A name in its field. -/
def padName (name : List UInt8) : List UInt8 :=
  name ++ List.replicate (kNameLength - name.length) 0

/-- A table entry. -/
def entryBytes (name : List UInt8) (extinfoSize size : ℕ) : List UInt8 :=
  padName name ++ halfBytes extinfoSize ++ wordBytes size

/-- The entry that ends a table. -/
def terminatorBytes : List UInt8 := List.replicate kEntrySize 0

/-- A whole table. -/
def tableBytes (files : List File) : List UInt8 :=
  files.flatMap (fun f => entryBytes f.name f.extinfo.length f.data.length) ++ terminatorBytes

theorem length_padName {name : List UInt8} (h : name.length ≤ kNameLength) :
    (padName name).length = kNameLength := by
  simp only [padName, List.length_append, List.length_replicate]
  omega

theorem length_entryBytes {name : List UInt8} (h : name.length ≤ kNameLength) (e n : ℕ) :
    (entryBytes name e n).length = kEntrySize := by
  simp only [entryBytes, List.length_append, length_padName h]
  rfl

theorem tableBytes_cons (f : File) (files : List File) :
    tableBytes (f :: files) =
      entryBytes f.name f.extinfo.length f.data.length ++ tableBytes files := by
  simp [tableBytes]

/-- The directory has an entry for each file and one for its end. -/
theorem length_tableBytes {files : List File} (hname : ∀ f ∈ files, IsName f.name) :
    (tableBytes files).length = kEntrySize * (files.length + 1) := by
  induction files with
  | nil => rfl
  | cons g files ih =>
    rw [tableBytes_cons, List.length_append,
      length_entryBytes (hname g List.mem_cons_self).length_le,
      ih fun f hf => hname f (.tail _ hf), List.length_cons]
    simp only [kEntrySize]
    omega

/-- A name is read off its field. -/
theorem padName_injective {n n' : List UInt8} (hn : 0 ∉ n) (hn' : 0 ∉ n')
    (h : padName n = padName n') : n = n' := by
  -- the field with one more zero ends both names
  have hend : n ++ [0] ++ List.replicate (kNameLength - n.length) 0 =
      n' ++ [0] ++ List.replicate (kNameLength - n'.length) 0 := by
    have hshift : ∀ k, [0] ++ List.replicate k (0 : UInt8) = List.replicate k 0 ++ [0] := by
      intro k
      rw [List.singleton_append, ← List.replicate_succ, List.replicate_succ']
    rw [List.append_assoc, List.append_assoc, hshift, hshift, ← List.append_assoc,
      ← List.append_assoc]
    exact congrArg (· ++ [0]) h
  exact (string_inj hn hn' hend).1

/-! ### The image -/

/-- Files back to back, each but the last padded to the boundary. -/
def layout : List (List UInt8) → List UInt8
  | [] => []
  | [d] => d
  | d :: d' :: ds => d ++ List.replicate (alignUp d.length - d.length) 0 ++ layout (d' :: ds)

/-- Where the `i`-th file starts. -/
def offset (files : List File) (i : ℕ) : ℕ :=
  ((files.take i).map fun f => alignUp f.data.length).sum

/-- Where the `i`-th file's slice of `EXTINFO` starts. -/
def extinfoOffset (files : List File) (i : ℕ) : ℕ :=
  ((files.take i).map fun f => f.extinfo.length).sum

@[simp]
theorem offset_zero (files : List File) : offset files 0 = 0 := rfl

@[simp]
theorem extinfoOffset_zero (files : List File) : extinfoOffset files 0 = 0 := rfl

theorem offset_cons_succ (f : File) (files : List File) (i : ℕ) :
    offset (f :: files) (i + 1) = alignUp f.data.length + offset files i := by
  simp [offset]

theorem extinfoOffset_cons_succ (f : File) (files : List File) (i : ℕ) :
    extinfoOffset (f :: files) (i + 1) = f.extinfo.length + extinfoOffset files i := by
  simp [extinfoOffset]

/-- `RESET`, the first file. -/
def kReset : List UInt8 := [0x52, 0x45, 0x53, 0x45, 0x54]

/-- `ROMDIR`, the table. -/
def kRomdir : List UInt8 := [0x52, 0x4F, 0x4D, 0x44, 0x49, 0x52]

/-- `EXTINFO`, the slices. -/
def kExtinfo : List UInt8 := [0x45, 0x58, 0x54, 0x49, 0x4E, 0x46, 0x4F]

theorem isName_kReset : IsName kReset := isName_of_all (by decide) (by decide) (by decide)

theorem isName_kRomdir : IsName kRomdir := isName_of_all (by decide) (by decide) (by decide)

theorem isName_kExtinfo : IsName kExtinfo := isName_of_all (by decide) (by decide) (by decide)

/-- The image of an archive: it begins with the files, the first of them `RESET` and the second
the table of all of them. -/
structure IsArchive (files : List File) (image : List UInt8) : Prop where
  begins : layout (files.map File.data) <+: image
  reset : ∃ f, files[0]? = some f ∧ f.name = kReset ∧ f.data.length % 16 = 0
  romdir : ∃ f, files[1]? = some f ∧ f.name = kRomdir ∧ f.data = tableBytes files
  isName : ∀ f ∈ files, IsName f.name
  extinfo_lt : ∀ f ∈ files, f.extinfo.length < 2 ^ 16
  data_lt : ∀ f ∈ files, f.data.length < 2 ^ 32

/-- `f` is the first file of its name, the `i`-th of all. -/
structure IsFirst (files : List File) (name : List UInt8) (i : ℕ) (f : File) : Prop where
  get : files[i]? = some f
  name_eq : f.name = name
  least : ∀ j < i, ∀ g, files[j]? = some g → g.name ≠ name

variable {m : Ram} {base : ℕ} {files : List File} {f : File} {i : ℕ}

theorem offset_succ (hi : files[i]? = some f) :
    offset files (i + 1) = offset files i + alignUp f.data.length := by
  unfold offset
  rw [List.take_add_one, hi, List.map_append, List.sum_append]
  simp

/-- No file lies behind the end. -/
theorem offset_le (files : List File) (i : ℕ) : offset files i ≤ offset files files.length := by
  have hsplit : files.map (fun f => alignUp f.data.length) =
      (files.take i).map (fun f => alignUp f.data.length) ++
        (files.drop i).map fun f => alignUp f.data.length := by
    rw [← List.map_append, List.take_append_drop]
  unfold offset
  rw [List.take_length, hsplit, List.sum_append]
  exact Nat.le_add_right _ _

/-- A file ends where all of them do or before. -/
theorem offset_add_le (hi : files[i]? = some f) :
    offset files i + alignUp f.data.length ≤ offset files files.length := by
  rw [← offset_succ hi]
  exact offset_le files (i + 1)

theorem IsFirst.eq_head {name : List UInt8} {g : File} (h : IsFirst (g :: files) name i f)
    (hg : g.name = name) : i = 0 ∧ g = f := by
  match i, h with
  | 0, h => exact ⟨rfl, Option.some.inj h.get⟩
  | i + 1, h => exact absurd hg (h.least 0 (by omega) g rfl)

/-- The first file of a name that the head does not have is the tail's first. -/
theorem IsFirst.tail {name : List UInt8} {g : File} (h : IsFirst (g :: files) name i f)
    (hg : g.name ≠ name) : ∃ j, i = j + 1 ∧ IsFirst files name j f := by
  match i, h with
  | 0, h => exact absurd (Option.some.inj h.get ▸ h.name_eq) hg
  | i + 1, h =>
    exact ⟨i, rfl, h.get, h.name_eq, fun j hj g' hg' => h.least (j + 1) (by omega) g' hg'⟩

/-- At most one file is the first of a name. -/
theorem IsFirst.unique {name : List UInt8} {g : File} {j : ℕ} (h : IsFirst files name i f)
    (h' : IsFirst files name j g) : i = j ∧ f = g := by
  have hij : i = j := by
    by_contra hne
    rcases Nat.lt_or_gt_of_ne hne with hlt | hlt
    · exact h'.least i hlt f h.get h.name_eq
    · exact h.least j hlt g h'.get h'.name_eq
  subst hij
  exact ⟨rfl, Option.some.inj (h.get.symm.trans h'.get)⟩

/-- Every name is that of a first file or of none. -/
theorem exists_isFirst_or (files : List File) (name : List UInt8) :
    (∃ i f, IsFirst files name i f) ∨ ∀ f ∈ files, f.name ≠ name := by
  induction files with
  | nil => exact .inr nofun
  | cons g files ih =>
    by_cases hg : g.name = name
    · exact .inl ⟨0, g, rfl, hg, nofun⟩
    · rcases ih with ⟨i, f, hf⟩ | hnone
      · refine .inl ⟨i + 1, f, hf.get, hf.name_eq, ?_⟩
        rintro (_ | j) hj g' hg'
        · obtain rfl : g = g' := by simpa using hg'
          exact hg
        · exact hf.least j (by omega) g' (by simpa using hg')
      · refine .inr fun f hf => ?_
        rcases List.mem_cons.mp hf with rfl | hf
        · exact hg
        · exact hnone f hf

/-- In an image, every file is at its offset. -/
theorem at_of_layout (h : At m base (layout (files.map File.data))) (hi : files[i]? = some f) :
    At m (base + offset files i) f.data := by
  induction files generalizing base i with
  | nil => simp at hi
  | cons g files ih =>
    cases files with
    | nil =>
      obtain ⟨rfl, rfl⟩ : i = 0 ∧ g = f := by
        cases i with
        | zero => simpa using hi
        | succ i => simp at hi
      exact h
    | cons g' files =>
      simp only [List.map_cons, layout] at h
      rw [at_append, at_append] at h
      obtain ⟨⟨hg, -⟩, hrest⟩ := h
      cases i with
      | zero =>
        obtain rfl : g = f := by simpa using hi
        exact hg
      | succ i =>
        have hlen : (g.data ++ List.replicate (alignUp g.data.length - g.data.length)
            (0 : UInt8)).length = alignUp g.data.length := by
          have hle := le_alignUp g.data.length
          simp only [List.length_append, List.length_replicate]
          omega
        rw [hlen] at hrest
        rw [offset_cons_succ, ← Nat.add_assoc]
        exact ih hrest (by simpa using hi)

/-- In an image, every file ends within it. -/
theorem offset_add_length_le (hi : files[i]? = some f) :
    offset files i + f.data.length ≤ (layout (files.map File.data)).length := by
  induction files generalizing i with
  | nil => simp at hi
  | cons g files ih =>
    cases files with
    | nil =>
      obtain ⟨rfl, rfl⟩ : i = 0 ∧ g = f := by
        cases i with
        | zero => simpa using hi
        | succ i => simp at hi
      simp [layout]
    | cons g' files =>
      have hup := le_alignUp g.data.length
      simp only [List.map_cons, layout, List.length_append, List.length_replicate] at ih ⊢
      cases i with
      | zero =>
        obtain rfl : g = f := by simpa using hi
        rw [offset_zero]
        omega
      | succ i =>
        have hle := ih (show (g' :: files)[i]? = some f by simpa using hi)
        rw [offset_cons_succ]
        omega

/-- All files together end with the padding of the last. -/
theorem offset_length_le (files : List File) :
    offset files files.length ≤ alignUp (layout (files.map File.data)).length := by
  induction files with
  | nil => exact Nat.zero_le _
  | cons g files ih =>
    rw [List.length_cons, offset_cons_succ]
    cases files with
    | nil => simp [layout]
    | cons g' files =>
      simp only [List.map_cons, layout, List.length_append, List.length_replicate] at ih ⊢
      unfold alignUp at ih ⊢
      omega

/-- Slices back to back, each at its offset. -/
theorem at_of_extinfo (h : At m base (files.flatMap File.extinfo)) (hi : files[i]? = some f) :
    At m (base + extinfoOffset files i) f.extinfo := by
  induction files generalizing base i with
  | nil => simp at hi
  | cons g files ih =>
    rw [List.flatMap_cons, at_append] at h
    cases i with
    | zero =>
      obtain rfl : g = f := by simpa using hi
      exact h.1
    | succ i =>
      rw [extinfoOffset_cons_succ, ← Nat.add_assoc]
      exact ih h.2 (by simpa using hi)

/-- A slice ends within all of them. -/
theorem extinfoOffset_add_le (hi : files[i]? = some f) :
    extinfoOffset files i + f.extinfo.length ≤ (files.flatMap File.extinfo).length := by
  induction files generalizing i with
  | nil => simp at hi
  | cons g files ih =>
    rw [List.flatMap_cons, List.length_append]
    cases i with
    | zero =>
      obtain rfl : g = f := by simpa using hi
      simp
    | succ i =>
      have hle := ih (show files[i]? = some f by simpa using hi)
      rw [extinfoOffset_cons_succ]
      omega

/-! ### Records -/

/-- The type of a record whose value is the version. -/
def kExtinfoVersion : UInt8 := 0x02

/-- The version of some records: that of the first version record, or 0. -/
def versionOf : ℕ → List UInt8 → ℕ
  | n + 1, low :: high :: payload :: type :: records =>
    if type = kExtinfoVersion then low.toNat + 256 * high.toNat
    else versionOf n (records.drop payload.toNat)
  | _, _ => 0

/-- The version that a slice declares. -/
def sliceVersion (slice : List UInt8) : ℕ := versionOf slice.length slice

/-- Records too short to hold a version give none. -/
theorem versionOf_of_length_lt {k : ℕ} {records : List UInt8} (h : records.length < 4) :
    versionOf k records = 0 := by
  match k, records, h with
  | 0, _, _ => rfl
  | _ + 1, [], _ => rfl
  | _ + 1, [_], _ => rfl
  | _ + 1, [_, _], _ => rfl
  | _ + 1, [_, _, _], _ => rfl
  | _ + 1, _ :: _ :: _ :: _ :: _, h => simp only [List.length_cons] at h; omega

/-- Records back to back that fill a slice: a value, the payload's length, the type, the payload. -/
inductive WholeRecords : List UInt8 → Prop where
  | nil : WholeRecords []
  | cons {low high payload type : UInt8} {bytes rest : List UInt8}
      (hlen : bytes.length = payload.toNat) (hrest : WholeRecords rest) :
      WholeRecords (low :: high :: payload :: type :: (bytes ++ rest))

end PS2Bios.Rom
