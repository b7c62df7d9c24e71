import PS2Bios.Rom.Mkromdir
import PS2Bios.Rom.Readers
import PS2Bios.Rom.Romdir
import PS2Bios.Rom.Udnl

/-!
# What is written is read

An image that `mkromdir` builds, read back by every reader of the repository. Each finds the same
place for a name, that of the first entry of the name, and nothing for a name the manifest has not.
Where the manifest has an entry `EXTINFO`, the two readers that slice it give every entry the bytes
its `EXTINFO` source made, as long as the entry is `=extinfo`: a manifest may as well embed any
file under that name (`slice_of_another`).
-/

namespace PS2Bios.Rom

open Bytes Mkromdir

/-- The readers, each with what it keeps of an archive once it has found the table. -/
structure Readers where
  entries : List Romdir.Entry
  archive : Udnl.Archive
  image : Romdrv.Image
  table : ℕ

variable {m : Ram} {base last label i : ℕ} {name image : List UInt8} {files : List File} {f : File}
  {r : Readers}

/-- The readers' first steps. -/
structure Opens (m : Ram) (base last label : ℕ) (image : List UInt8) (romdir : ℕ) (r : Readers) :
    Prop where
  romdir : Romdir.parseEntries image romdir = some r.entries
  udnl : Yields (Udnl.openArchive m base last label) (some r.archive)
  romdrv : Yields (Romdrv.bindImage m base last) (some r.image)
  eesync : Yields (Eesync.bootTable m base last) r.table

/-- All readers give the same answer to a name. -/
structure AgreeOn (m : Ram) (base last : ℕ) (r : Readers) (name : List UInt8)
    (answer : Option Place) : Prop where
  romdir : (Romdir.first r.entries (Romdir.text name)).map (fun e => ⟨base + e.offset, e.size⟩) =
    answer
  find : Yields (Rom.find m base last (isPacked m name)) answer
  findBytes : Yields (Rom.find m base last (isBytes m name)) answer
  udnl : ∃ candidate, candidate.map Udnl.Candidate.file = answer ∧
    Yields (Udnl.lookup m r.archive name) candidate
  romdrv : Yields (Romdrv.lookup m r.image name) answer
  eesync : Yields (Eesync.lookup m r.table name) answer

/-- The readers that slice `EXTINFO` give a name the slice `extinfo`. -/
structure SliceIs (m : Ram) (image : List UInt8) (r : Readers) (name extinfo : List UInt8) :
    Prop where
  romdir : ∃ e x, Romdir.first r.entries (Romdir.text name) = some e ∧
    Romdir.first r.entries (Romdir.text kExtinfo) = some x ∧
    Romdir.bytesAt image (x.offset + e.extinfoOffset) e.extinfoSize = extinfo
  udnl : ∃ hit p, Yields (Udnl.locate m r.archive name) (some hit) ∧
    Udnl.slice r.archive hit.extinfoOffset hit.extinfoSize = some p ∧
    p.size = extinfo.length ∧ At m p.address extinfo

/-- An archive in memory is opened by all readers, and all agree on every name. -/
theorem Placed.agree (h : Placed m base files image) (label : ℕ)
    (hlast : base + offset files 1 + kEntrySize ≤ last)
    (hextinfo : ∀ j x, IsFirst files kExtinfo j x → x.data = files.flatMap File.extinfo) :
    ∃ r, Opens m base last label image (offset files 1) r ∧ ∀ name, IsName name →
      (∀ i f, IsFirst files name i f →
        AgreeOn m base last r name (some ⟨base + offset files i, f.data.length⟩) ∧
        ((∃ j x, IsFirst files kExtinfo j x) → SliceIs m image r name f.extinfo)) ∧
      ((∀ f ∈ files, f.name ≠ name) → AgreeOn m base last r name none) := by
  have hlt : base + offset files 1 < last := by
    simp only [kEntrySize] at hlast
    omega
  obtain ⟨archive, hopen, hudnl⟩ := Udnl.openArchive_yields h label hlast
  refine ⟨⟨Romdir.entries files 0 0, archive, _, _⟩, ⟨Romdir.parseEntries_eq h.archive, hudnl,
    Romdrv.bindImage_yields h hlt, Eesync.bootTable_yields h hlt⟩, fun name hname => ?_⟩
  have hfirst := Romdir.first_entries (o := 0) (x := 0) h.archive.isName hname
  have hfind := find_yields h hlt hname
  have hlookup := Udnl.lookup_yields h hopen hextinfo hname
  have hromdrv := Romdrv.lookup_yields h hname
    (base + offset files 1 + kEntrySize * files.length)
  have heesync := Eesync.lookup_yields h hname
  refine ⟨fun i f hf => ⟨⟨?_, ?_, hfind.1 i f hf, ?_, hromdrv.1 i f hf, heesync.1 i f hf⟩, ?_⟩,
    fun hnone => ⟨?_, ?_, hfind.2 hnone, ⟨none, rfl, hlookup.2 hnone⟩, hromdrv.2 hnone,
      heesync.2 hnone⟩⟩
  · rw [hfirst.1 i f hf, Option.map_some, Nat.zero_add]
    rfl
  · rw [isPacked_eq]
    exact hfind.1 i f hf
  · obtain ⟨version, -, hversion⟩ := hlookup.1 i f hf
    exact ⟨_, rfl, hversion⟩
  · rintro ⟨j, x, hx⟩
    have hdata := hextinfo j x hx
    constructor
    · have hx' := (Romdir.first_entries (o := 0) (x := 0) h.archive.isName isName_kExtinfo).1 j x hx
      refine ⟨_, _, hfirst.1 i f hf, hx', ?_⟩
      simp only [Romdir.entryOf, Nat.zero_add]
      exact Romdir.bytesAt_extinfo h.archive hx.get hdata hf.get
    · obtain ⟨hslice, hat⟩ := Udnl.slice_eq h hopen hx hdata hf.get
      have hlocate := (Udnl.locate_answers h hopen hname).1 i f hf
      rw [Nat.zero_add] at hlocate
      exact ⟨_, _, hlocate, hslice, rfl, hat⟩
  · rw [hfirst.2 hnone]
    rfl
  · rw [isPacked_eq]
    exact hfind.2 hnone

/-! ### An assembled image -/

/-- The entry `EXTINFO`, when there is one, is generated. -/
def GeneratesExtinfo (es : List Entry) : Prop :=
  ∀ e : Entry, es.find? (fun e => e.name = ['E', 'X', 'T', 'I', 'N', 'F', 'O']) = some e →
    e.source = .extinfo

/-- Two texts of ASCII that are encoded alike are the same. -/
theorem encode_inj {s t : List Char} (hs : s.all fun c => c.toNat < 128)
    (ht : t.all fun c => c.toNat < 128)
    (h : encode s = encode t) : s = t := by
  have hlen : s.length = t.length := by simpa [encode] using congrArg List.length h
  refine List.ext_getElem hlen fun i hi hi' => ?_
  have hget : (encode s)[i]? = (encode t)[i]? := by rw [h]
  simp only [encode, List.getElem?_map, List.getElem?_eq_getElem hi, List.getElem?_eq_getElem hi',
    Option.map_some, Option.some_inj] at hget
  have hval := congrArg UInt8.toNat hget
  have hlt := decide_eq_true_eq.mp (List.all_eq_true.mp hs _ (List.getElem_mem hi))
  have hlt' := decide_eq_true_eq.mp (List.all_eq_true.mp ht _ (List.getElem_mem hi'))
  rw [UInt8.toNat_ofNat', UInt8.toNat_ofNat', Nat.mod_eq_of_lt (by omega),
    Nat.mod_eq_of_lt (by omega)] at hval
  exact Char.toNat_inj.mp hval

variable {es : List Entry} {imageSize : Option ℕ}

/-- The generated `EXTINFO` holds the slices of the whole archive. -/
theorem GeneratesExtinfo.data_eq (h : GeneratesExtinfo es) (hr : ∀ e ∈ es, Renders es e) {j : ℕ}
    {x : File} (hx : IsFirst (Mkromdir.files es) kExtinfo j x) :
    x.data = (Mkromdir.files es).flatMap File.extinfo := by
  have hnamed : ∀ (k : ℕ) (e : Entry), es[k]? = some e → (encode e.name = kExtinfo ↔
      e.name = ['E', 'X', 'T', 'I', 'N', 'F', 'O']) := by
    intro k e he
    refine ⟨fun heq => encode_inj (hr e (List.mem_of_getElem? he)).1 (by decide) heq, ?_⟩
    intro heq
    rw [heq]
    rfl
  have hget := hx.get
  rw [Mkromdir.files, List.getElem?_map, Option.map_eq_some_iff] at hget
  obtain ⟨e, he, rfl⟩ := hget
  have hsource : e.source = .extinfo := by
    refine h e (List.find?_eq_some_iff_getElem.mpr ?_)
    obtain ⟨hj, hej⟩ := List.getElem?_eq_some_iff.mp he
    refine ⟨by simpa using (hnamed j e he).mp hx.name_eq, j, hj, hej, fun k hk => ?_⟩
    have hkget : es[k]? = some es[k] := List.getElem?_eq_getElem (by omega)
    have hne := hx.least k hk _ (getElem?_files hkget)
    simpa using fun heq => hne ((hnamed k _ hkget).mpr heq)
  simp only [hsource, dataOf]
  rw [Mkromdir.files, List.flatMap_map]

/-- An image that `mkromdir` builds, anywhere in memory, is read back by every reader: all find the
first entry of a name, with its bytes and with the bytes of its `EXTINFO` source. -/
theorem round_trip (label : ℕ) (hm : IsManifest es) (hextinfo : GeneratesExtinfo es)
    (himage : assemble es imageSize = some image) (hfirst : FirstReset (Mkromdir.files es) image)
    (hat : At m base image) (hbase : 0 < base)
    (hfits : base + offset (Mkromdir.files es) (Mkromdir.files es).length + 512 ≤ 2 ^ 32)
    (hlast : base + offset (Mkromdir.files es) 1 + kEntrySize ≤ last) :
    ∃ r, Opens m base last label image (offset (Mkromdir.files es) 1) r ∧ ∀ name, IsName name →
      (∀ i f, IsFirst (Mkromdir.files es) name i f →
        AgreeOn m base last r name
          (some ⟨base + offset (Mkromdir.files es) i, f.data.length⟩) ∧
        At m (base + offset (Mkromdir.files es) i) f.data ∧
        Romdir.bytesAt image (offset (Mkromdir.files es) i) f.data.length = f.data ∧
        ((∃ j x, IsFirst (Mkromdir.files es) kExtinfo j x) → SliceIs m image r name f.extinfo)) ∧
      ((∀ f ∈ Mkromdir.files es, f.name ≠ name) → AgreeOn m base last r name none) := by
  have harchive := isArchive hm himage
  have hplaced : Placed m base (Mkromdir.files es) image :=
    ⟨harchive, hfirst, hat, hbase, hfits⟩
  obtain ⟨r, hopens, hagree⟩ := hplaced.agree label hlast fun j x hx =>
    hextinfo.data_eq (assemble_eq_some himage).1 hx
  refine ⟨r, hopens, fun name hname => ⟨fun i f hf => ?_, (hagree name hname).2⟩⟩
  obtain ⟨hanswer, hslice⟩ := (hagree name hname).1 i f hf
  exact ⟨hanswer, hplaced.file_at hf.get, Romdir.bytesAt_offset harchive hf.get, hslice⟩

/-- A manifest of `RESET`, with a version, the table and `EXTINFO` from the given source. -/
def versioned (s : Source) : List Entry :=
  [⟨['R', 'E', 'S', 'E', 'T'], .pad 0, [0x01, 0x01, 0, 0x02]⟩,
    ⟨['R', 'O', 'M', 'D', 'I', 'R'], .table, []⟩,
    ⟨['E', 'X', 'T', 'I', 'N', 'F', 'O'], s, []⟩]

/-- The small versioned image has a manifest. -/
theorem isManifest_versioned (s : Source) : IsManifest (versioned s) := by
  refine ⟨?_, ⟨_, rfl, rfl, rfl⟩, ⟨_, rfl, rfl, rfl⟩⟩
  have hnames : ∀ name ∈ (versioned s).map Entry.name,
      name ≠ [] ∧ name.length ≤ kNameLength ∧ name.all fun c => c.toNat != 0 := by
    show ∀ name ∈ [['R', 'E', 'S', 'E', 'T'], ['R', 'O', 'M', 'D', 'I', 'R'],
      ['E', 'X', 'T', 'I', 'N', 'F', 'O']], _
    decide
  exact fun e he => isManifestName_of_all (hnames e.name (List.mem_map_of_mem he))

/-- With a file of three bytes, and its version, behind the others. -/
def withFile : List Entry :=
  versioned .extinfo ++ [⟨['A'], .file [0x61, 0x62, 0x63], [0x02, 0x01, 0, 0x02]⟩]

/-- The manifest with a file is one. -/
theorem isManifest_withFile : IsManifest withFile := by
  obtain ⟨hnames, -, -⟩ := isManifest_versioned .extinfo
  refine ⟨fun e he => ?_, ⟨_, rfl, rfl, rfl⟩, ⟨_, rfl, rfl, rfl⟩⟩
  rcases List.mem_append.mp he with he | he
  · exact hnames e he
  · obtain rfl := List.mem_singleton.mp he
    exact isManifestName_of_all (by decide)

theorem isName_singleton {c : UInt8} (h : c ≠ 0 ∧ c < 128) : IsName [c] :=
  ⟨List.cons_ne_nil c [], Nat.le_of_lt (by decide : 1 < kNameLength), by simpa using h⟩

/-- A versioned image with a file in it is assembled, opened and read, an absent name included. -/
theorem round_trip_versioned :
    ∃ image r, assemble withFile none = some image ∧
      Opens (write (fun _ => 0) 16 image) 16 32 0 image 0 r ∧
      AgreeOn (write (fun _ => 0) 16 image) 16 32 r kReset (some ⟨16, 0⟩) ∧
      SliceIs (write (fun _ => 0) 16 image) image r kReset [0x01, 0x01, 0, 0x02] ∧
      AgreeOn (write (fun _ => 0) 16 image) 16 32 r [0x41] (some ⟨112, 3⟩) ∧
      At (write (fun _ => 0) 16 image) 112 [0x61, 0x62, 0x63] ∧
      SliceIs (write (fun _ => 0) 16 image) image r [0x41] [0x02, 0x01, 0, 0x02] ∧
      AgreeOn (write (fun _ => 0) 16 image) 16 32 r [0x42] none := by
  obtain ⟨image, himage⟩ : ∃ image, assemble withFile none = some image :=
    Option.isSome_iff_exists.mp (by decide +kernel)
  have hoffset : offset (Mkromdir.files withFile) 1 = 0 := by decide +kernel
  have hbehind : offset (Mkromdir.files withFile) 3 = 96 := by decide +kernel
  have hextinfo : GeneratesExtinfo withFile := by
    intro e he
    obtain rfl : _ = e := Option.some.inj he
    rfl
  obtain ⟨r, hopens, hagree⟩ := round_trip 0 isManifest_withFile hextinfo himage
    (fun a ha => absurd ha (by omega)) (at_write (m := fun _ => 0) (a := 16)) (by decide)
    (by decide +kernel) (by decide +kernel :
      16 + offset (Mkromdir.files withFile) 1 + kEntrySize ≤ 32)
  have hextinfo_first : ∃ j x, IsFirst (Mkromdir.files withFile) kExtinfo j x :=
    ⟨2, _, rfl, rfl, by decide +kernel⟩
  obtain ⟨hreset, -, -, hresetSlice⟩ := (hagree kReset isName_kReset).1 0 _
    ⟨rfl, rfl, fun k hk => absurd hk (Nat.not_lt_zero k)⟩
  obtain ⟨hfile, hat, -, hslice⟩ := (hagree [0x41] (isName_singleton (by decide))).1 3 _
    ⟨rfl, rfl, by decide +kernel⟩
  rw [hoffset] at hopens
  rw [hbehind] at hfile hat
  refine ⟨image, r, himage, hopens, hreset, hresetSlice hextinfo_first, hfile, hat,
    hslice hextinfo_first, ?_⟩
  exact (hagree [0x42] (isName_singleton (by decide))).2 (by decide +kernel)

/-- A manifest whose `EXTINFO` is a file of its own gives its entries whatever the file says. -/
theorem slice_of_another :
    IsManifest (versioned (.file [0x00, 0x02, 0, 0x02])) ∧
      ∃ image, assemble (versioned (.file [0x00, 0x02, 0, 0x02])) none = some image ∧
        FirstReset (Mkromdir.files (versioned (.file [0x00, 0x02, 0, 0x02]))) image ∧
        (Udnl.openArchive (write (fun _ => 0) 16 image) 16 32 0 9).bind (fun archive =>
          archive.map fun archive => (Udnl.lookup (write (fun _ => 0) 16 image) archive kReset 9,
            Udnl.slice archive 0 4)) =
          some (some (some ⟨⟨16, 0⟩, 0x0200⟩), some ⟨80, 4⟩) ∧
        ¬At (write (fun _ => 0) 16 image) 80 [0x01, 0x01, 0, 0x02] := by
  refine ⟨isManifest_versioned _, ?_⟩
  obtain ⟨image, himage⟩ : ∃ image,
      assemble (versioned (.file [0x00, 0x02, 0, 0x02])) none = some image :=
    Option.isSome_iff_exists.mp (by decide +kernel)
  obtain rfl : _ = image := Option.some.inj himage
  refine ⟨_, himage, fun a ha => ?_, by decide +kernel, ?_⟩
  · rw [show offset (Mkromdir.files (versioned (.file [0x00, 0x02, 0, 0x02]))) 1 = 0 by
      decide +kernel] at ha
    exact absurd ha (Nat.not_lt_zero a)
  · rw [at_cons]
    rintro ⟨hbyte, -⟩
    exact absurd hbyte (by decide +kernel)

end PS2Bios.Rom
