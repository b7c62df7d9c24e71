import PS2Bios.Rom.Walk

/-!
# The readers

`archive::find`, which the boot block and `ROMDRV` share, `ROMDRV`'s own lookup over the image it
bound, and `EESYNC`'s over the table the boot block left behind. Each is a walk with tests of its
own, and each tells the names of a table apart.
-/

namespace PS2Bios.Rom

open Bytes

variable {m : Ram} {entry base last n : ℕ} {name image : List UInt8} {files : List File} {f : File}

/-- What a reader that knows files by their place is to answer: the first file of the name, or
nothing. -/
def Finds (files : List File) (name : List UInt8) (base : ℕ) (P : Option Place → Prop) : Prop :=
  (∀ i f, IsFirst files name i f → P (some ⟨base + offset files i, f.data.length⟩)) ∧
    ((∀ f ∈ files, f.name ≠ name) → P none)

/-- Nothing in an image wraps. -/
theorem Placed.offset_lt (h : Placed m base files image) (i : ℕ) :
    base + offset files i < 2 ^ 32 := by
  have hle := offset_le files i
  have hfits := h.fits
  omega

/-- What is answered of the entries is found of the files. -/
theorem Answers.finds (h : Placed m base files image) {P : Option Hit → Prop}
    {Q : Option Place → Prop} (hP : Answers files name base 0 P)
    (hPQ : ∀ r, P r → Q (r.map Hit.file)) : Finds files name base Q := by
  refine ⟨fun i f hf => ?_, fun hnone => hPQ none (hP.2 hnone)⟩
  have hplace := hPQ _ (hP.1 i f hf)
  rwa [Option.map_some, Nat.mod_eq_of_lt (h.offset_lt i)] at hplace

/-! ### `archive::find` -/

/-- The tests of `find`'s inner loop, the name first. -/
def lookNamed (m : Ram) (isNamed : ℕ → Bool) (entry : ℕ) : Look :=
  if isNamed entry then .here else if terminator m entry then .over else .on

/-- `find`, for either overload of `named`. -/
def find (m : Ram) (start last : ℕ) (isNamed : ℕ → Bool) (n : ℕ) : Option (Option Place) :=
  (scan m (fun entry => entry < last) n start).bind fun
    | none => some none
    | some table =>
      (walk (lookNamed m isNamed) m n table (imageBase m table) 0).map (Option.map Hit.file)

/-- `find`'s test, for a name folded into the instructions. -/
def isPacked (m : Ram) (name : List UInt8) (entry : ℕ) : Bool := named m entry (packName name)

/-- `find`'s test, for a name in memory. -/
def isBytes (m : Ram) (name : List UInt8) (entry : ℕ) : Bool := namedBytes m entry name

theorem isPacked_eq : isPacked m name = isBytes m name := by
  funext entry
  simp only [isPacked, isBytes, named_packName_iff]

/-- The loader's comparison tells a name. -/
theorem tells_lookNamed (hname : IsName name) : Tells m (lookNamed m (isBytes m name)) name := by
  constructor
  · intro entry f hf hfname
    unfold lookNamed isBytes
    by_cases heq : f.name = name
    · rw [if_pos heq, if_pos (by simpa using (hf.namedBytes_iff hfname hname).mpr heq)]
    · have hnot : ¬namedBytes m entry name := fun h => heq ((hf.namedBytes_iff hfname hname).mp h)
      rw [if_neg heq, if_neg (by simpa using hnot), if_neg (hf.not_terminator hfname)]
  · intro entry hat
    unfold lookNamed isBytes
    rw [if_neg (by simpa using not_namedBytes_of_at hat hname), if_pos (terminator_of_at hat)]

/-- `find` finds the first file of a name. -/
theorem find_yields (h : Placed m base files image) (hlast : base + offset files 1 < last)
    (hname : IsName name) :
    Finds files name base fun r => Yields (find m base last (isBytes m name)) r := by
  refine Answers.finds h (h.walk_answers (tells_lookNamed hname)) fun r hr => ?_
  refine Yields.bind (h.scan_yields fun a _ ha => ?_) ?_
  · exact decide_eq_true (by omega)
  · simp only [h.imageBase_eq]
    exact hr.map _

/-- The table has a name of its own. -/
theorem find_romdir (h : Placed m base files image) (hlast : base + offset files 1 < last) :
    ∃ size, Yields (find m base last (isPacked m kRomdir))
      (some ⟨base + offset files 1, size⟩) := by
  obtain ⟨f, hf, hname, -⟩ := h.archive.romdir
  obtain ⟨g, hg, hgname, -⟩ := h.archive.reset
  refine ⟨f.data.length, ?_⟩
  rw [isPacked_eq]
  refine (find_yields h hlast isName_kRomdir).1 1 f ⟨hf, hname, ?_⟩
  intro j hj k hk
  obtain rfl : j = 0 := by omega
  obtain rfl : g = k := Option.some.inj (hg.symm.trans hk)
  rw [hgname]
  decide

/-! ### `ROMDRV` -/

namespace Romdrv

/-- `Image`: a bound image. -/
structure Image where
  imageStart : ℕ
  romdirStart : ℕ
  romdirEnd : ℕ
deriving DecidableEq, Repr

/-- The last loop of `bindImage`. -/
def romdirEnd (m : Ram) : ℕ → ℕ → Option ℕ
  | 0, _ => none
  | n + 1, entry =>
    if terminator m entry then some entry else romdirEnd m n (add32 entry kEntrySize)

/-- `bindImage`. -/
def bindImage (m : Ram) (searchStart searchEnd n : ℕ) : Option (Option Image) :=
  (find m searchStart searchEnd (isPacked m kRomdir) n).bind fun
    | none => some none
    | some romdir =>
      if romdir.address = 0 then some none
      else
        (romdirEnd m n romdir.address).map fun last =>
          some ⟨imageBase m romdir.address, romdir.address, last⟩

/-- The comparison of `lookup`, of a string with the `n` bytes of a field: it stops at the string's
zero byte, which the field has to have too. -/
def sameString (m : Ram) : ℕ → ℕ → List UInt8 → Bool
  | 0, _, _ => true
  | _ + 1, entry, [] => m entry == 0
  | n + 1, entry, c :: name => m entry == c && sameString m n (entry + 1) name

/-- The tests of `lookup`, the end first. -/
def look (m : Ram) (name : List UInt8) (entry : ℕ) : Look :=
  if terminator m entry then .over
  else if sameString m kNameLength entry name then .here else .on

/-- `lookup`, in a bound image. -/
def lookup (m : Ram) (image : Image) (name : List UInt8) (n : ℕ) : Option (Option Place) :=
  if image.romdirStart = 0 then some none
  else (walk (look m name) m n image.romdirStart image.imageStart 0).map (Option.map Hit.file)

/-- A comparison with a string holds where the bytes agree and the string ends. -/
theorem sameString_iff {k : ℕ} (hlen : name.length ≤ k) :
    sameString m k entry name ↔
      At m entry name ∧ (name.length < k → m (entry + name.length) = 0) := by
  induction name generalizing entry k with
  | nil =>
    match k with
    | 0 => simp [sameString]
    | k + 1 => simp [sameString]
  | cons c name ih =>
    match k, hlen with
    | k + 1, hlen =>
      have hle : name.length ≤ k := Nat.le_of_succ_le_succ hlen
      rw [sameString, Bool.and_eq_true, beq_iff_eq, ih hle, at_cons, and_assoc, List.length_cons,
        Nat.add_lt_add_iff_right, Nat.add_assoc entry 1, Nat.add_comm 1]

/-- A string compares as the names do. -/
theorem sameString_iff_eq (h : Holds m entry f) (hf : IsName f.name)
    (hlen : name.length ≤ kNameLength) (hzero : 0 ∉ name) :
    sameString m kNameLength entry name ↔ f.name = name := by
  rw [sameString_iff hlen]
  have hfield : ∀ i < kNameLength, m (entry + i) = f.name.getD i 0 := fun i hi => h.byte hi
  have hfle := hf.length_le
  constructor
  · rintro ⟨hat, hend⟩
    -- neither name is longer than the other
    have hle : f.name.length ≤ name.length := by
      by_contra hlt
      have hlt : name.length < f.name.length := by omega
      have hzero := hend (by omega)
      rw [hfield _ (by omega), List.getD_eq_getElem _ _ hlt] at hzero
      exact (hf.ascii _ (List.getElem_mem hlt)).1 hzero
    have hge : name.length ≤ f.name.length := by
      by_contra hlt
      have hlt : f.name.length < name.length := by omega
      have hbyte := hat _ _ (List.getElem?_eq_getElem hlt)
      rw [hfield _ (by omega), List.getD_eq_default _ _ (Nat.le_refl _)] at hbyte
      exact hzero (hbyte ▸ List.getElem_mem hlt)
    refine List.ext_getElem (by omega) fun i hi hi' => ?_
    have hbyte := hat i _ (List.getElem?_eq_getElem hi')
    rw [hfield i (by omega), List.getD_eq_getElem _ _ hi] at hbyte
    exact hbyte
  · rintro rfl
    refine ⟨fun i x hx => ?_, fun hlt => ?_⟩
    · have hi := (List.getElem?_eq_some_iff.mp hx).1
      rw [hfield i (by omega), List.getD_eq_getElem?_getD, hx]
      rfl
    · rw [hfield _ hlt, List.getD_eq_default _ _ (Nat.le_refl _)]

/-- The stub's comparison tells a name. -/
theorem tells_look (hlen : name.length ≤ kNameLength) (hzero : 0 ∉ name) :
    Tells m (look m name) name := by
  constructor
  · intro entry f hf hfname
    unfold look
    rw [if_neg (hf.not_terminator hfname)]
    simp only [sameString_iff_eq hf hfname hlen hzero]
  · intro entry hat
    exact if_pos (terminator_of_at hat)

/-- The directory's end is found behind its last entry. -/
theorem romdirEnd_yields (hat : At m entry (tableBytes files)) (hname : ∀ f ∈ files, IsName f.name)
    (hx : ∀ f ∈ files, f.extinfo.length < 2 ^ 16) (hd : ∀ f ∈ files, f.data.length < 2 ^ 32)
    (hentry : entry + kEntrySize * files.length < 2 ^ 32) :
    Yields (fun n => romdirEnd m n entry) (entry + kEntrySize * files.length) := by
  induction files generalizing entry with
  | nil =>
    refine Yields.succ rfl (fun n => ?_) (Yields.const _)
    rw [romdirEnd, if_pos (terminator_of_at hat)]
    rfl
  | cons g files ih =>
    have hg := hname g List.mem_cons_self
    rw [tableBytes_cons, at_append, length_entryBytes hg.length_le] at hat
    have hholds : Holds m entry g :=
      holds_of_at hg (hx g List.mem_cons_self) (hd g List.mem_cons_self) hat.1
    have hlen : entry + kEntrySize * (g :: files).length =
        entry + kEntrySize + kEntrySize * files.length := by
      simp only [List.length_cons, kEntrySize]
      omega
    rw [hlen] at hentry ⊢
    have hrest := ih hat.2 (fun f hf => hname f (.tail _ hf)) (fun f hf => hx f (.tail _ hf))
      (fun f hf => hd f (.tail _ hf)) hentry
    refine Yields.succ rfl (fun n => ?_) hrest
    rw [romdirEnd, if_neg (hholds.not_terminator hg), add32_eq (by omega)]

/-- A placed archive is bound at its table. -/
theorem bindImage_yields (h : Placed m base files image) (hlast : base + offset files 1 < last) :
    Yields (bindImage m base last) (some ⟨base, base + offset files 1,
      base + offset files 1 + kEntrySize * files.length⟩) := by
  obtain ⟨size, hfind⟩ := find_romdir h hlast
  refine hfind.bind ?_
  have hpos := h.base_pos
  have hend := romdirEnd_yields h.table_at h.archive.isName h.archive.extinfo_lt
    h.archive.data_lt h.table_fits
  simp only [show base + offset files 1 ≠ 0 by omega, if_false, h.imageBase_eq]
  exact hend.map _

/-- `ROMDRV` finds the first file of a string. -/
theorem lookup_finds (h : Placed m base files image) (hlen : name.length ≤ kNameLength)
    (hzero : 0 ∉ name) (k : ℕ) : Finds files name base fun r =>
      Yields (lookup m ⟨base, base + offset files 1, k⟩ name) r := by
  refine Answers.finds h (h.walk_answers (tells_look hlen hzero)) fun r hr => ?_
  have hpos := h.base_pos
  unfold lookup
  simp only [show base + offset files 1 ≠ 0 by omega, if_false]
  exact hr.map _

/-- A name is a string. -/
theorem lookup_yields (h : Placed m base files image) (hname : IsName name) (k : ℕ) :
    Finds files name base fun r =>
      Yields (lookup m ⟨base, base + offset files 1, k⟩ name) r :=
  lookup_finds h hname.length_le hname.zero_notMem k

/-- It ends within as many turns as the table has entries. -/
theorem lookup_isSome (h : Placed m base files image) (hlen : name.length ≤ kNameLength)
    (hzero : 0 ∉ name) (k : ℕ) (hn : files.length < n) :
    (lookup m ⟨base, base + offset files 1, k⟩ name n).isSome := by
  have hpos := h.base_pos
  rw [lookup, if_neg (show base + offset files 1 ≠ 0 by omega), Option.isSome_map]
  exact walk_isSome (tells_look hlen hzero) h.table_at h.archive.isName h.archive.extinfo_lt
    h.archive.data_lt h.table_fits hn

end Romdrv

/-! ### `EESYNC` -/

namespace Eesync

/-- The tests of `lookup`: the end is a name that begins with a zero byte, with both sizes zero. -/
def look (m : Ram) (name : List UInt8) (entry : ℕ) : Look :=
  if m entry = 0 ∧ extinfoSize m entry = 0 ∧ entrySize m entry = 0 then .over
  else if namedBytes m entry name then .here else .on

/-- The word the boot block leaves for the table: `find`'s address, null when it found none. -/
def bootTable (m : Ram) (searchStart searchEnd n : ℕ) : Option ℕ :=
  (find m searchStart searchEnd (isPacked m kRomdir) n).map fun romdir =>
    (romdir.map Place.address).getD 0

/-- `lookup`, from the table the boot block left. -/
def lookup (m : Ram) (table : ℕ) (name : List UInt8) (n : ℕ) : Option (Option Place) :=
  if table = 0 then some none
  else (walk (look m name) m n table (imageBase m table) 0).map (Option.map Hit.file)

/-- The kernel's comparison tells a name. -/
theorem tells_look (hname : IsName name) : Tells m (look m name) name := by
  constructor
  · intro entry f hf hfname
    unfold look
    rw [if_neg fun h => hf.first_ne hfname h.1]
    simp only [hf.namedBytes_iff hfname hname]
  · intro entry hat
    have hz := fun i hi => zero_of_terminator hat (i := i) hi
    refine if_pos ⟨hz 0 (by omega), ?_, (terminator_of_at hat).2.2⟩
    simp only [extinfoSize, readHalf, Nat.add_assoc, Nat.reduceAdd]
    rw [hz 10 (by omega), hz 11 (by omega)]
    rfl

theorem bootTable_yields (h : Placed m base files image) (hlast : base + offset files 1 < last) :
    Yields (bootTable m base last) (base + offset files 1) := by
  obtain ⟨size, hfind⟩ := find_romdir h hlast
  exact hfind.map _

/-- `EESYNC` finds the first file of a name. -/
theorem lookup_yields (h : Placed m base files image) (hname : IsName name) :
    Finds files name base fun r => Yields (lookup m (base + offset files 1) name) r := by
  refine Answers.finds h (h.walk_answers (tells_look hname)) fun r hr => ?_
  have hpos := h.base_pos
  unfold lookup
  simp only [show base + offset files 1 ≠ 0 by omega, if_false, h.imageBase_eq]
  exact hr.map _

end Eesync

end PS2Bios.Rom
