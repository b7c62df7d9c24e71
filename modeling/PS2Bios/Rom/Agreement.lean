import PS2Bios.Rom.Merge
import PS2Bios.Rom.RoundTrip

/-!
# The merge agrees with its model

Over sources that are archives, `UDNL` and `iopmerge` both compute what a pool is for: the order
from the newest archive with a boot list, and for each name the greatest version, the newest of
equals. `UDNL` keeps the first 64 names of a boot list; the tool has no such bound.
-/

namespace PS2Bios.Rom

open Bytes Iopmerge

variable {m : Ram} (rom0 : List UInt8 × Member) (named : List (List UInt8 × Member)) {buffer : ℕ}

/-- What the tool's merge comes to. -/
def Iopmerge.outcome (r : Source × List Resolution) : ℕ × List (List Char × Choice) :=
  (r.1.label, r.2.map fun x => (x.name, ⟨x.source, x.version⟩))

/-- `iopmerge` merges the pool over all names of the boot list. -/
theorem merge_eq (hsources : ∀ s ∈ rom0 :: named, IsSource s.1 s.2) :
    (merge (named.map fun s => sourceOf s.1 s.2) (sourceOf rom0.1 rom0.2)).map outcome =
      (orderFrom ((rom0 :: named).reverse.map Prod.snd)).bind fun o =>
        (merged ((rom0 :: named).reverse.map Prod.snd) (bootNames o.2)).map fun list =>
          (o.1, list.map fun p => (Romdir.text p.1, p.2)) := by
  have hpool : ∀ s ∈ (rom0 :: named).reverse, IsSource s.1 s.2 := fun s hs =>
    hsources s (List.mem_reverse.mp hs)
  have hnewest : (named.map fun s => sourceOf s.1 s.2).reverse ++ [sourceOf rom0.1 rom0.2] =
      (rom0 :: named).reverse.map fun s => sourceOf s.1 s.2 := by
    rw [List.reverse_cons, List.map_append, List.map_reverse]
    rfl
  have horder := findBootConfig_eq hpool
  rw [merge, hnewest]
  cases hfrom : orderFrom ((rom0 :: named).reverse.map Prod.snd) with
  | none =>
    rw [hfrom, Option.map_none, Option.map_eq_none_iff] at horder
    rw [horder]
    rfl
  | some o =>
    rw [hfrom, Option.map_some, Option.map_eq_some_iff] at horder
    obtain ⟨order, hconfig, heq⟩ := horder
    obtain ⟨hlabel, hnames⟩ := Prod.mk.inj heq
    obtain ⟨k, a, f, hk, -, hfile, hdata, -⟩ := orderFrom_eq_some hfrom
    obtain ⟨s, hs, rfl⟩ := List.mem_map.mp (List.mem_of_getElem? hk)
    obtain ⟨i, hf⟩ := exists_isFirst_of_file hfile
    have hlist := (hpool s hs).bootList i f hf
    rw [hdata] at hlist
    have hresolve := resolveVersions_eq hpool fun name hname =>
      ⟨hlist.isName hname, hlist.ne_padding name hname⟩
    rw [hconfig, Option.bind_some, Option.bind_some, hnames, hresolve, Option.map_map]
    have htool : ((bootNames o.2).mapM fun name =>
        (chosen ((rom0 :: named).reverse.map Prod.snd) name).map fun c =>
          (⟨Romdir.text name, c.label, c.version⟩ : Resolution)).map
            (List.map fun x => (x.name, Choice.mk x.source x.version)) =
        (merged ((rom0 :: named).reverse.map Prod.snd) (bootNames o.2)).map
          (List.map fun p => (Romdir.text p.1, p.2)) := by
      rw [merged, mapM_map, mapM_map]
      simp only [Option.map_map]
      rfl
    have hpair := congrArg (Option.map (Prod.mk o.1)) htool
    rw [Option.map_map, Option.map_map] at hpair
    rw [← hlabel]
    rw [← hlabel] at hpair
    exact hpair

/-- `UDNL` and `iopmerge` agree, for boot lists that `UDNL` has room for: on where the order is
from, and for each name on the source and the version. The order is from the newest archive with a
boot list, the version the greatest of the pool, and greater than that of anything newer. -/
theorem udnl_agrees (hrom : Placed m Udnl.kRomSearchStart rom0.2.files rom0.1)
    (hwindow : Udnl.kRomSearchStart + offset rom0.2.files 1 + kEntrySize ≤ Udnl.kRomSearchEnd)
    (hsources : ∀ s ∈ rom0 :: named, IsSource s.1 s.2) (hcount : named.length ≤ 3)
    (hpos : 0 < buffer)
    (hroom : buffer + Udnl.kHeaderSize + Udnl.room named ≤ Udnl.kRomSearchStart)
    (hnames : ∀ o, orderFrom ((rom0 :: named).reverse.map Prod.snd) = some o →
      (bootNames o.2).length ≤ Udnl.kNamesMax) :
    (∀ s ∈ rom0 :: named, loadArchive s.2.label s.1 = some (sourceOf s.1 s.2)) ∧
    ∃ r, Yields (fun n => Udnl.moduleStart m buffer rom0.2.label
        (named.map fun s => (s.2.label, s.1)) n) r ∧
      r.map Udnl.outcome =
        (merge (named.map fun s => sourceOf s.1 s.2) (sourceOf rom0.1 rom0.2)).map outcome ∧
      ∀ o, r.map Udnl.outcome = some o →
        ∃ (k : ℕ) (a : Member) (f : File),
          ((rom0 :: named).reverse.map Prod.snd)[k]? = some a ∧ a.label = o.1 ∧
          a.file kIopbtconf = some f ∧ o.2.map Prod.fst = (bootNames f.data).map Romdir.text ∧
          (∀ j < k, ∀ b : Member, ((rom0 :: named).reverse.map Prod.snd)[j]? = some b →
            b.file kIopbtconf = none) ∧
          ∀ name ∈ bootNames f.data, ∀ c, (Romdir.text name, c) ∈ o.2 →
            ∃ (k : ℕ) (a : Member), ((rom0 :: named).reverse.map Prod.snd)[k]? = some a ∧
              a.label = c.label ∧ a.version name = some c.version ∧
              ∀ (j : ℕ) (b : Member) (v : ℕ), ((rom0 :: named).reverse.map Prod.snd)[j]? = some b →
                b.version name = some v → v ≤ c.version ∧ (j < k → v < c.version) := by
  obtain ⟨r, hyields, hr⟩ := Udnl.moduleStart_yields rom0 named hrom hwindow hsources
    (Nat.le_trans hcount (by decide)) hpos hroom
  -- both take the order from the newest list and the winner for each of its names
  have hall : r.map Udnl.outcome =
      (orderFrom ((rom0 :: named).reverse.map Prod.snd)).bind fun o =>
        (merged ((rom0 :: named).reverse.map Prod.snd) (bootNames o.2)).map fun list =>
          (o.1, list.map fun p => (Romdir.text p.1, p.2)) := by
    rw [hr]
    cases hfrom : orderFrom ((rom0 :: named).reverse.map Prod.snd) with
    | none => rfl
    | some o => rw [Option.bind_some, Option.bind_some, List.take_of_length_le (hnames o hfrom)]
  refine ⟨fun s hs => loadArchive_eq (hsources s hs), r, hyields,
    hall.trans (merge_eq rom0 named hsources).symm, fun o ho => ?_⟩
  rw [hall] at ho
  obtain ⟨o', hfrom, ho⟩ := Option.bind_eq_some_iff.mp ho
  obtain ⟨list, hmerged, rfl⟩ := Option.map_eq_some_iff.mp ho
  obtain ⟨k, a, f, hk, hlabel, hfile, hdata, hnewer⟩ := orderFrom_eq_some hfrom
  obtain ⟨hfst, hchosen⟩ := chosen_of_merged hmerged
  refine ⟨k, a, f, hk, hlabel, hfile, ?_, hnewer, ?_⟩
  · rw [List.map_map, hdata, ← hfst, List.map_map]
    rfl
  · intro name hname c hc
    obtain ⟨p, hp, heq⟩ := List.mem_map.mp hc
    obtain ⟨htext, rfl⟩ := Prod.mk.inj heq
    obtain ⟨s, hs, rfl⟩ := List.mem_map.mp (List.mem_of_getElem? hk)
    -- names that read the same are the same
    obtain ⟨i, hf⟩ := exists_isFirst_of_file hfile
    have hlist := (hsources s (List.mem_reverse.mp hs)).bootList i f hf
    have hpmem : p.1 ∈ bootNames f.data := by
      rw [hdata, ← hfst]
      exact List.mem_map_of_mem hp
    have hpname : p.1 = name :=
      Romdir.text_inj (hlist.isName hpmem) (hlist.isName hname) htext
    rw [← hpname]
    exact chosen_eq_some (hchosen p hp)

/-! ### Sources out of manifests -/

open Mkromdir

/-- What `mkromdir` builds is a source, with `EXTINFO` generated from whole records. -/
theorem isSource_files {es : List Mkromdir.Entry} {imageSize : Option ℕ} {image : List UInt8}
    {label : ℕ} (hm : IsManifest es) (hextinfo : GeneratesExtinfo es)
    (himage : assemble es imageSize = some image) (hfirst : FirstReset (Mkromdir.files es) image)
    (htable : Romdir.FirstTable (Mkromdir.files es) image)
    (hrecords : ∀ e ∈ es, WholeRecords e.extinfo)
    (hlist : ∀ e ∈ es, encode e.name = kIopbtconf → IsBootList (dataOf es (rows es) e.source)) :
    IsSource image ⟨label, Mkromdir.files es⟩ := by
  refine ⟨isArchive hm himage, hfirst, htable,
    fun j x hx => hextinfo.data_eq (assemble_eq_some himage).1 hx, ?_, ?_⟩
  · intro f hf
    obtain ⟨e, he, rfl⟩ := List.mem_map.mp hf
    exact hrecords e he
  · intro i f hf
    obtain ⟨e, he, rfl⟩ := List.mem_map.mp (List.mem_of_getElem? hf.get)
    exact hlist e he hf.name_eq

/-- The image of a manifest that assembles. -/
def imageOf (es : List Mkromdir.Entry) : List UInt8 := (assemble es none).getD []

/-- A small source: `RESET` is empty, so that nothing comes before the table. -/
theorem isSource_small {es : List Mkromdir.Entry} {label : ℕ}
    (hnames : ∀ name ∈ es.map Mkromdir.Entry.name,
      name ≠ [] ∧ name.length ≤ kNameLength ∧ name.all fun c => c.toNat != 0)
    (hreset : es[0]? = some ⟨['R', 'E', 'S', 'E', 'T'], .pad 0, []⟩)
    (hromdir : es[1]? = some ⟨['R', 'O', 'M', 'D', 'I', 'R'], .table, []⟩)
    (hextinfo : GeneratesExtinfo es) (himage : (assemble es none).isSome)
    (hrecords : ∀ e ∈ es, WholeRecords e.extinfo)
    (hlist : ∀ e ∈ es, encode e.name = kIopbtconf → IsBootList (dataOf es (rows es) e.source)) :
    IsSource (imageOf es) ⟨label, Mkromdir.files es⟩ := by
  have hm : IsManifest es :=
    ⟨fun e he => isManifestName_of_all (hnames e.name (List.mem_map_of_mem he)),
      ⟨_, hreset, rfl, rfl⟩, ⟨_, hromdir, rfl, rfl⟩⟩
  have hzero : offset (Mkromdir.files es) 1 = 0 := by
    rw [offset_succ (getElem?_files hreset), offset_zero]
    simp [dataOf, alignUp]
  obtain ⟨image, heq⟩ := Option.isSome_iff_exists.mp himage
  have himage : assemble es none = some (imageOf es) := by rw [imageOf, heq]; rfl
  refine isSource_files hm hextinfo himage (fun a ha => ?_) (fun a ha => ?_) hrecords hlist
  · exact absurd ha (by omega)
  · exact absurd ha (by omega)

/-- A small `rom0`: a boot list, and modules it may name. -/
def smallRom (list : List UInt8) : List Mkromdir.Entry :=
  [⟨['R', 'E', 'S', 'E', 'T'], .pad 0, []⟩, ⟨['R', 'O', 'M', 'D', 'I', 'R'], .table, []⟩,
    ⟨['I', 'O', 'P', 'B', 'T', 'C', 'O', 'N', 'F'], .file list, []⟩,
    ⟨['A'], .file [0x61, 0x62, 0x63], []⟩, ⟨['B'], .file [0x64], []⟩,
    ⟨['A', 'B', 'C', 'D', 'E', 'F', 'G', 'H', 'I', 'J'], .pad 0, []⟩, ⟨['!', 'a'], .pad 0, []⟩]

/-- A small image with a newer module, and one that is as old as that of `rom0`. -/
def smallImage : List Mkromdir.Entry :=
  [⟨['R', 'E', 'S', 'E', 'T'], .pad 0, []⟩, ⟨['R', 'O', 'M', 'D', 'I', 'R'], .table, []⟩,
    ⟨['A'], .file [0x65], [0x01, 0x02, 0, 0x02]⟩, ⟨['B'], .file [0x66], []⟩,
    ⟨['E', 'X', 'T', 'I', 'N', 'F', 'O'], .extinfo, []⟩]

/-- The small archive with a boot list is a source. -/
theorem isSource_smallRom {list : List UInt8} (h : IsBootList list)
    (himage : (assemble (smallRom list) none).isSome) :
    IsSource (imageOf (smallRom list)) ⟨0, Mkromdir.files (smallRom list)⟩ := by
  refine isSource_small ?_ rfl rfl ?_ himage ?_ ?_
  · show ∀ name ∈ [['R', 'E', 'S', 'E', 'T'], ['R', 'O', 'M', 'D', 'I', 'R'],
      ['I', 'O', 'P', 'B', 'T', 'C', 'O', 'N', 'F'], ['A'], ['B'],
      ['A', 'B', 'C', 'D', 'E', 'F', 'G', 'H', 'I', 'J'], ['!', 'a']], _
    decide
  · intro e he
    exact absurd he (by simp [smallRom])
  · intro e he
    simp only [smallRom, List.mem_cons, List.not_mem_nil, or_false] at he
    rcases he with rfl | rfl | rfl | rfl | rfl | rfl | rfl <;> exact .nil
  · intro e he hname
    simp only [smallRom, List.mem_cons, List.not_mem_nil, or_false] at he
    rcases he with rfl | rfl | rfl | rfl | rfl | rfl | rfl
    · exact absurd hname (by decide)
    · exact absurd hname (by decide)
    · exact h
    all_goals exact absurd hname (by decide)

theorem wholeRecords_version : WholeRecords [0x01, 0x02, 0, 0x02] :=
  @WholeRecords.cons 0x01 0x02 0 0x02 [] [] rfl .nil

/-- The second archive is a source. -/
theorem isSource_smallImage :
    IsSource (imageOf smallImage) ⟨1, Mkromdir.files smallImage⟩ := by
  refine isSource_small (by decide) rfl rfl ?_ (by decide +kernel) ?_ ?_
  · intro e he
    obtain rfl : _ = e := Option.some.inj he
    rfl
  · intro e he
    simp only [smallImage, List.mem_cons, List.not_mem_nil, or_false] at he
    rcases he with rfl | rfl | rfl | rfl | rfl
    · exact .nil
    · exact .nil
    · exact wholeRecords_version
    · exact .nil
    · exact .nil
  · intro e he hname
    have hnone : ∀ e ∈ smallImage, encode e.name ≠ kIopbtconf := by decide
    exact absurd hname (hnone e he)

/-- The image of a small archive whose boot list is this one. -/
def romSource (list : List UInt8) : List UInt8 × Member :=
  (imageOf (smallRom list), ⟨0, Mkromdir.files (smallRom list)⟩)

/-- The image of the second archive. -/
def imageSource : List UInt8 × Member := (imageOf smallImage, ⟨1, Mkromdir.files smallImage⟩)

/-- `rom0` where the boot looks for it. -/
def romRam (list : List UInt8) : Ram :=
  write (fun _ => 0) Udnl.kRomSearchStart (romSource list).1

/-- The small archive lies at the search's start. -/
theorem placed_romSource {list : List UInt8} (h : IsBootList list)
    (himage : (assemble (smallRom list) none).isSome)
    (hfits : Udnl.kRomSearchStart + offset (romSource list).2.files
      (romSource list).2.files.length + 512 ≤ 2 ^ 32) :
    Placed (romRam list) Udnl.kRomSearchStart (romSource list).2.files (romSource list).1 :=
  have hs := isSource_smallRom h himage
  ⟨hs.archive, hs.first, at_write, by decide, hfits⟩

/-- Both archives are sources. -/
theorem isSource_small_pool {list : List UInt8} (h : IsBootList list)
    (himage : (assemble (smallRom list) none).isSome) :
    ∀ s ∈ [romSource list, imageSource], IsSource s.1 s.2 := by
  intro s hs
  rcases List.mem_cons.mp hs with rfl | hs
  · exact isSource_smallRom h himage
  · obtain rfl := List.mem_singleton.mp hs
    exact isSource_smallImage

/-- A boot list of two names. -/
def twoNames : List UInt8 := [0x41, 0x0A, 0x42]

theorem isBootList_twoNames : IsBootList twoNames :=
  isBootList_of_all (by decide) (by decide) (by decide) (by decide)

/-- A boot list of two names, one of them in both archives at one version, gives the same image both
ways. -/
theorem udnl_agrees_small :
    ∃ r, Yields (fun n => Udnl.moduleStart (romRam twoNames) 0x100000 0
        [(1, imageSource.1)] n) r ∧
      r.map Udnl.outcome = (merge [sourceOf imageSource.1 imageSource.2]
        (sourceOf (romSource twoNames).1 (romSource twoNames).2)).map outcome ∧
      r.map Udnl.outcome = some (0, [(['A'], ⟨1, 0x0201⟩), (['B'], ⟨1, 0⟩)]) := by
  have himage : (assemble (smallRom twoNames) none).isSome := by decide +kernel
  have hnames : ∀ o, orderFrom (([romSource twoNames, imageSource]).reverse.map Prod.snd) = some o →
      (bootNames o.2).length ≤ Udnl.kNamesMax := by
    intro o ho
    obtain rfl : _ = o := Option.some.inj ho
    decide +kernel
  obtain ⟨-, r, hyields, hr, -⟩ := udnl_agrees (romSource twoNames) [imageSource]
    (placed_romSource isBootList_twoNames himage (by decide +kernel)) (by decide +kernel)
    (isSource_small_pool isBootList_twoNames himage) (by decide) (by decide : 0 < 0x100000)
    (by decide +kernel) hnames
  exact ⟨r, hyields, hr, hr.trans (by decide +kernel)⟩

/-- A boot list of 65 names. -/
def longList : List UInt8 := (List.replicate 65 [0x41, 0x0A]).flatten

theorem isBootList_longList : IsBootList longList :=
  isBootList_of_all (by decide +kernel) (by decide +kernel) (by decide +kernel) (by decide +kernel)

/-- `UDNL` leaves out the 65th name of a boot list, which the tool resolves. -/
theorem order_is_cut :
    (∀ s ∈ [romSource longList, imageSource], IsSource s.1 s.2) ∧
      Placed (romRam longList) Udnl.kRomSearchStart (romSource longList).2.files
        (romSource longList).1 ∧
      (∃ r, Yields (fun n => Udnl.moduleStart (romRam longList) 0x100000 0
          [(1, imageSource.1)] n) r ∧
        (r.map Udnl.outcome).map (fun o => o.2.length) = some 64) ∧
      ((merge [sourceOf imageSource.1 imageSource.2]
        (sourceOf (romSource longList).1 (romSource longList).2)).map outcome).map
          (fun o => o.2.length) = some 65 := by
  have himage : (assemble (smallRom longList) none).isSome := by decide +kernel
  have hsources := isSource_small_pool isBootList_longList himage
  have hplaced := placed_romSource isBootList_longList himage (by decide +kernel)
  obtain ⟨r, hyields, hr⟩ := Udnl.moduleStart_yields (romSource longList) [imageSource] hplaced
    (by decide +kernel) hsources (by decide) (by decide : 0 < 0x100000) (by decide +kernel)
  refine ⟨hsources, hplaced, ⟨r, hyields, ?_⟩, ?_⟩
  · rw [hr]
    decide +kernel
  · have hmerge := merge_eq (romSource longList) [imageSource] hsources
    rw [List.map_singleton] at hmerge
    rw [hmerge]
    decide +kernel

end PS2Bios.Rom
