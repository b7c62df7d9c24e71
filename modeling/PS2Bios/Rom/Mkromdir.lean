import PS2Bios.Rom.Walk

/-!
# The writer

`mkromdir.py` makes an image out of a manifest. An entry's data is a file's, or zeros, or generated:
the table, or all slices of `EXTINFO` one after the other. What is generated has its size from the
manifest alone, so that the table can be written before the data it describes.
-/

namespace PS2Bios.Rom

namespace Mkromdir

/-- Where an entry's data comes from: `=table`, `=extinfo`, `=pad:N`, or the bytes of a file. -/
inductive Source where
  | table
  | extinfo
  | pad (n : ℕ)
  | file (data : List UInt8)
deriving DecidableEq, Repr

/-- `Entry`, once its `EXTINFO` source has been read. -/
structure Entry where
  name : List Char
  source : Source
  extinfo : List UInt8
deriving DecidableEq, Repr

/-- `name.encode("ascii")`, for a name that is. -/
def encode (name : List Char) : List UInt8 := name.map fun c => UInt8.ofNat c.toNat

/-- `solveLayout`: the size of an entry's data. -/
def dataSize (es : List Entry) : Source → ℕ
  | .table => (es.length + 1) * kEntrySize
  | .extinfo => (es.map fun e => e.extinfo.length).sum
  | .pad n => n
  | .file data => data.length

/-- What `renderTable` can write: an ASCII name, and sizes that fit their fields. -/
def Renders (es : List Entry) (e : Entry) : Prop :=
  (e.name.all fun c => c.toNat < 128) ∧ e.extinfo.length < 2 ^ 16 ∧ dataSize es e.source < 2 ^ 32

instance (es : List Entry) (e : Entry) : Decidable (Renders es e) :=
  inferInstanceAs (Decidable (_ ∧ _ ∧ _))

/-- The rows of the table, and the row that ends it. -/
def rows (es : List Entry) : List UInt8 :=
  es.flatMap (fun e => entryBytes (encode e.name) e.extinfo.length (dataSize es e.source)) ++
    terminatorBytes

/-- `renderTable`. -/
def renderTable (es : List Entry) : Option (List UInt8) :=
  if ∀ e ∈ es, Renders es e then some (rows es) else none

/-- An entry's data, the generated ones included. -/
def dataOf (es : List Entry) (table : List UInt8) : Source → List UInt8
  | .table => table
  | .extinfo => es.flatMap Entry.extinfo
  | .pad n => List.replicate n 0
  | .file data => data

/-- `assemble`. -/
def assemble (es : List Entry) (imageSize : Option ℕ) : Option (List UInt8) :=
  (renderTable es).bind fun table =>
    let out := layout (es.map fun e => dataOf es table e.source)
    match imageSize with
    | none => some out
    | some size =>
      if size < out.length then none else some (out ++ List.replicate (size - out.length) 0)

/-- The files of a manifest's archive. -/
def files (es : List Entry) : List File :=
  es.map fun e => ⟨encode e.name, e.extinfo, dataOf es (rows es) e.source⟩

theorem getElem?_files {es : List Entry} {i : ℕ} {e : Entry} (h : es[i]? = some e) :
    (files es)[i]? = some ⟨encode e.name, e.extinfo, dataOf es (rows es) e.source⟩ := by
  rw [files, List.getElem?_map, h]
  rfl

variable {es : List Entry} {e : Entry} {image : List UInt8} {imageSize : Option ℕ}

/-- A name of a manifest: one to ten characters, none of them the zero that ends a field. -/
def IsManifestName (name : List Char) : Prop :=
  name ≠ [] ∧ name.length ≤ kNameLength ∧ ∀ c ∈ name, c.toNat ≠ 0

/-- Whether it is a name of a manifest can be computed. -/
theorem isManifestName_of_all {name : List Char}
    (h : name ≠ [] ∧ name.length ≤ kNameLength ∧ name.all fun c => c.toNat != 0) :
    IsManifestName name := by
  refine ⟨h.1, h.2.1, fun c hc => ?_⟩
  simpa using List.all_eq_true.mp h.2.2 c hc

/-- A name that a manifest may have is one the directory may have. -/
theorem isName_encode (h : IsManifestName e.name) (hr : Renders es e) : IsName (encode e.name) := by
  refine ⟨by simpa [encode] using h.1, by simpa [encode] using h.2.1, ?_⟩
  intro c hc
  obtain ⟨x, hx, rfl⟩ := List.mem_map.mp hc
  have hlt : x.toNat < 128 := by simpa using List.all_eq_true.mp hr.1 x hx
  have hne := h.2.2 x hx
  have hval : (UInt8.ofNat x.toNat).toNat = x.toNat := by
    rw [UInt8.toNat_ofNat']
    omega
  refine ⟨fun h0 => hne ?_, UInt8.lt_iff_toNat_lt.mpr (by rw [hval]; exact hlt)⟩
  rw [← hval, h0]
  rfl

/-- What the table says of an entry's size is so. -/
theorem length_dataOf (hname : ∀ e ∈ es, IsManifestName e.name) (hr : ∀ e ∈ es, Renders es e)
    (s : Source) : (dataOf es (rows es) s).length = dataSize es s := by
  match s with
  | .table =>
    have hrows : ∀ l : List Entry, (∀ e ∈ l, e ∈ es) →
        (l.flatMap fun e => entryBytes (encode e.name) e.extinfo.length
          (dataSize es e.source)).length = l.length * kEntrySize := by
      intro l hl
      induction l with
      | nil => rfl
      | cons e l ih =>
        have he := hl e List.mem_cons_self
        rw [List.flatMap_cons, List.length_append,
          length_entryBytes (isName_encode (hname e he) (hr e he)).length_le,
          ih fun e he => hl e (.tail _ he), List.length_cons]
        simp only [kEntrySize]
        omega
    have hlen : (rows es).length = es.length * kEntrySize + kEntrySize := by
      rw [rows, List.length_append, hrows es fun e he => he, terminatorBytes,
        List.length_replicate]
    rw [dataOf, hlen, dataSize, Nat.succ_mul]
  | .extinfo => simp [dataOf, dataSize, List.length_flatMap]
  | .pad n => simp [dataOf, dataSize]
  | .file data => rfl

/-- The generated table is the table of the archive. -/
theorem rows_eq (hname : ∀ e ∈ es, IsManifestName e.name) (hr : ∀ e ∈ es, Renders es e) :
    rows es = tableBytes (files es) := by
  unfold rows tableBytes files
  rw [List.flatMap_map]
  congr 1
  refine List.flatMap_congr fun e _ => ?_
  rw [length_dataOf hname hr]

/-- An assembled image begins with the files of the manifest. -/
theorem assemble_eq_some (h : assemble es imageSize = some image) :
    (∀ e ∈ es, Renders es e) ∧ layout ((files es).map File.data) <+: image := by
  unfold assemble renderTable at h
  split at h
  · next hr =>
    refine ⟨hr, ?_⟩
    have hmap : (files es).map File.data = es.map fun e => dataOf es (rows es) e.source := by
      rw [files, List.map_map]
      rfl
    rw [hmap]
    rw [Option.bind_some] at h
    dsimp only at h
    match imageSize with
    | none => exact Option.some.inj h ▸ List.prefix_refl _
    | some size =>
      simp only at h
      split at h
      · exact absurd h (by simp)
      · exact Option.some.inj h ▸ List.prefix_append _ _
  · exact absurd h (by simp)

/-- A manifest whose first entry is `RESET`, of a size that is a multiple of sixteen, and whose
second is `ROMDIR` from `=table`. -/
structure IsManifest (es : List Entry) : Prop where
  isName : ∀ e ∈ es, IsManifestName e.name
  reset : ∃ e, es[0]? = some e ∧ e.name = ['R', 'E', 'S', 'E', 'T'] ∧
    dataSize es e.source % 16 = 0
  romdir : ∃ e, es[1]? = some e ∧ e.name = ['R', 'O', 'M', 'D', 'I', 'R'] ∧ e.source = .table

/-- `mkromdir` builds archives. -/
theorem isArchive (hm : IsManifest es) (h : assemble es imageSize = some image) :
    IsArchive (files es) image := by
  obtain ⟨hr, hbegins⟩ := assemble_eq_some h
  have hname := hm.isName
  have hfile : ∀ f ∈ files es, ∃ e ∈ es, f = ⟨encode e.name, e.extinfo,
      dataOf es (rows es) e.source⟩ := by
    intro f hf
    obtain ⟨e, he, rfl⟩ := List.mem_map.mp hf
    exact ⟨e, he, rfl⟩
  refine ⟨hbegins, ?_, ?_, ?_, ?_, ?_⟩
  · obtain ⟨e, he, hename, hsize⟩ := hm.reset
    refine ⟨_, getElem?_files he, by simp only [hename]; rfl, ?_⟩
    rw [length_dataOf hname hr]
    exact hsize
  · obtain ⟨e, he, hename, hsource⟩ := hm.romdir
    refine ⟨_, getElem?_files he, by simp only [hename]; rfl, ?_⟩
    rw [← rows_eq hname hr]
    simp only [hsource, dataOf]
  · intro f hf
    obtain ⟨e, he, rfl⟩ := hfile f hf
    exact isName_encode (hname e he) (hr e he)
  · intro f hf
    obtain ⟨e, he, rfl⟩ := hfile f hf
    exact (hr e he).2.1
  · intro f hf
    obtain ⟨e, he, rfl⟩ := hfile f hf
    rw [length_dataOf hname hr]
    exact (hr e he).2.2

end Mkromdir

end PS2Bios.Rom
