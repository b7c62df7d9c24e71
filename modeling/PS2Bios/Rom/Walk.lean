import PS2Bios.Library.Fuel
import PS2Bios.Library.Word
import PS2Bios.Rom.Format

/-!
# Walking a table in memory

Whoever needs a file walks the table, adding up the aligned sizes as it goes: `archive::find` and
the modules `UDNL`, `ROMDRV` and `EESYNC` each have a loop of their own, with their own comparison
of names and their own test for the end. `walk` is that loop with the two tests left open, and
`scan` the search for the table that comes before it. A walk whose tests tell a name of the table
from the others and from its end finds the first file of the name (`walk_yields`).

Addresses and sizes are 32-bit words; `{0, 0}` and a null pointer are `none`.
-/

namespace PS2Bios.Rom

open Bytes

/-! ### An entry in memory -/

/-- `Entry::extinfo_size`. -/
def extinfoSize (m : Ram) (entry : ℕ) : ℕ := readHalf m (entry + 10)

/-- `Entry::size`. -/
def entrySize (m : Ram) (entry : ℕ) : ℕ := readWord m (entry + 12)

/-- `align16`. -/
def align16 (size : ℕ) : ℕ := add32 size 15 / 16 * 16

/-- A name to look for: two words and a halfword. -/
structure Name where
  low : ℕ
  high : ℕ
  tail : ℕ
deriving DecidableEq, Repr

/-- The words a name fills in its field. Every byte has a place of its own there, so that the
shifted bytes of the source are added. -/
def packName (text : List UInt8) : Name :=
  let field : Ram := fun i => text.getD i 0
  ⟨readWord field 0, readWord field 4, readHalf field 8⟩

/-- `named`, for a name folded into the instructions. -/
def named (m : Ram) (entry : ℕ) (want : Name) : Prop :=
  readWord m entry = want.low ∧ readWord m (entry + 4) = want.high ∧
    readHalf m (entry + 8) = want.tail

instance : Decidable (named m entry want) :=
  inferInstanceAs (Decidable (_ ∧ _ ∧ _))

/-- `named`, for ten bytes a caller assembled. -/
def namedBytes (m : Ram) (entry : ℕ) (want : List UInt8) : Prop :=
  ∀ i < kNameLength, m (entry + i) = want.getD i 0

instance : Decidable (namedBytes m entry want) :=
  inferInstanceAs (Decidable (∀ i < kNameLength, _))

/-- `terminator`: the end of a table. -/
def terminator (m : Ram) (entry : ℕ) : Prop :=
  readWord m entry = 0 ∧ readWord m (entry + 4) = 0 ∧ entrySize m entry = 0

instance : Decidable (terminator m entry) :=
  inferInstanceAs (Decidable (_ ∧ _ ∧ _))

variable {m : Ram} {entry start table base file extinfo : ℕ} {name : List UInt8}
  {files : List File} {f : File}

theorem align16_mod (file n : ℕ) : add32 file (align16 n) = (file + alignUp n) % 2 ^ 32 := by
  unfold add32 align16 alignUp add32
  omega

/-- The two comparisons are one: the words agree when the ten bytes do. -/
theorem named_packName_iff : named m entry (packName name) ↔ namedBytes m entry name := by
  constructor
  · rintro ⟨hlow, hhigh, htail⟩ i hi
    have hi : i < 10 := hi
    have hlow : readWord m entry = readWord (fun i => name.getD i 0) 0 := hlow
    have hhigh : readWord m (entry + 4) = readWord (fun i => name.getD i 0) 4 := hhigh
    have htail : readHalf m (entry + 8) = readHalf (fun i => name.getD i 0) 8 := htail
    rcases Nat.lt_or_ge i 4 with h | h
    · simpa using readWord_inj hlow i h
    · rcases Nat.lt_or_ge i 8 with h' | h'
      · have hbyte := readWord_inj hhigh (i - 4) (by omega)
        rwa [show entry + 4 + (i - 4) = entry + i by omega,
          show 4 + (i - 4) = i by omega] at hbyte
      · have hbyte := readHalf_inj htail (i - 8) (by omega)
        rwa [show entry + 8 + (i - 8) = entry + i by omega,
          show 8 + (i - 8) = i by omega] at hbyte
  · intro h
    have hbyte : ∀ i < 10, m (entry + i) = name.getD i 0 := h
    refine ⟨?_, ?_, ?_⟩
    · simp only [packName, readWord, Nat.zero_add]
      rw [← hbyte 0 (by omega), ← hbyte 1 (by omega), ← hbyte 2 (by omega), ← hbyte 3 (by omega)]
      rfl
    · simp only [packName, readWord, Nat.reduceAdd]
      rw [← hbyte 4 (by omega), ← hbyte 5 (by omega), ← hbyte 6 (by omega), ← hbyte 7 (by omega)]
    · simp only [packName, readHalf, Nat.reduceAdd]
      rw [← hbyte 8 (by omega), ← hbyte 9 (by omega)]

/-- An entry of a table in memory: the name's field and the two sizes. -/
structure Holds (m : Ram) (entry : ℕ) (f : File) : Prop where
  field : At m entry (padName f.name)
  extinfoSize_eq : extinfoSize m entry = f.extinfo.length
  entrySize_eq : entrySize m entry = f.data.length

/-- A name is padded with noughts. -/
theorem padName_getElem? {i : ℕ} (hi : i < kNameLength) :
    (padName name)[i]? = some (name.getD i 0) := by
  unfold padName
  rcases Nat.lt_or_ge i name.length with h | h
  · rw [List.getElem?_append_left h, List.getD_eq_getElem?_getD, List.getElem?_eq_getElem h]
    rfl
  · rw [List.getElem?_append_right h, List.getElem?_replicate, if_pos (by omega),
      List.getD_eq_getElem?_getD, List.getElem?_eq_none h]
    rfl

/-- Where an entry's bytes lie, the entry is held. -/
theorem holds_of_at (hf : IsName f.name) (hx : f.extinfo.length < 2 ^ 16)
    (hd : f.data.length < 2 ^ 32)
    (h : At m entry (entryBytes f.name f.extinfo.length f.data.length)) : Holds m entry f := by
  rw [entryBytes, at_append, at_append, List.length_append, length_padName hf.length_le] at h
  obtain ⟨⟨hfield, hhalf⟩, hword⟩ := h
  exact ⟨hfield, readHalf_of_at hx hhalf, readWord_of_at hd hword⟩

namespace Holds

theorem byte (h : Holds m entry f) {i : ℕ} (hi : i < kNameLength) :
    m (entry + i) = f.name.getD i 0 :=
  h.field i _ (padName_getElem? hi)

/-- Ten bytes compare as the names do. -/
theorem namedBytes_iff (h : Holds m entry f) (hf : IsName f.name) (hname : IsName name) :
    namedBytes m entry name ↔ f.name = name := by
  constructor
  · intro hbytes
    refine padName_injective hf.zero_notMem hname.zero_notMem ?_
    refine List.ext_getElem? fun i => ?_
    rcases Nat.lt_or_ge i kNameLength with hi | hi
    · rw [padName_getElem? hi, padName_getElem? hi, ← h.byte hi, hbytes i hi]
    · rw [List.getElem?_eq_none (by rw [length_padName hf.length_le]; exact hi),
        List.getElem?_eq_none (by rw [length_padName hname.length_le]; exact hi)]
  · rintro rfl i hi
    exact h.byte hi

/-- The field of a name does not begin with a zero byte. -/
theorem first_ne (h : Holds m entry f) (hf : IsName f.name) : m entry ≠ 0 := by
  have hbyte := h.byte (i := 0) (by decide)
  obtain ⟨c, cs, hname⟩ := List.exists_cons_of_ne_nil hf.ne_nil
  rw [Nat.add_zero, hname] at hbyte
  rw [hbyte]
  exact (hf.ascii c (by rw [hname]; exact List.mem_cons_self)).1

/-- An entry of a file does not end the directory. -/
theorem not_terminator (h : Holds m entry f) (hf : IsName f.name) : ¬terminator m entry := by
  rintro ⟨hlow, -, -⟩
  refine h.first_ne hf (UInt8.toNat_inj.mp ?_)
  unfold readWord at hlow
  simp only [UInt8.toNat_zero]
  omega

end Holds

/-- The end of a table in memory is sixteen zero bytes. -/
theorem zero_of_terminator (h : At m entry terminatorBytes) {i : ℕ} (hi : i < 16) :
    m (entry + i) = 0 :=
  h i 0 (by rw [terminatorBytes, List.getElem?_replicate, if_pos (show i < kEntrySize from hi)])

/-- The last entry ends the directory. -/
theorem terminator_of_at (h : At m entry terminatorBytes) : terminator m entry := by
  have hz := fun i hi => zero_of_terminator h (i := i) hi
  refine ⟨?_, ?_, ?_⟩
  · rw [readWord, show m entry = 0 from hz 0 (by omega), hz 1 (by omega), hz 2 (by omega),
      hz 3 (by omega)]
    rfl
  · simp only [readWord, Nat.add_assoc, Nat.reduceAdd]
    rw [hz 4 (by omega), hz 5 (by omega), hz 6 (by omega), hz 7 (by omega)]
    rfl
  · simp only [entrySize, readWord, Nat.add_assoc, Nat.reduceAdd]
    rw [hz 12 (by omega), hz 13 (by omega), hz 14 (by omega), hz 15 (by omega)]
    rfl

/-- The last entry has nobody's name. -/
theorem not_namedBytes_of_at (h : At m entry terminatorBytes) (hname : IsName name) :
    ¬namedBytes m entry name := by
  intro hbytes
  obtain ⟨c, cs, rfl⟩ := List.exists_cons_of_ne_nil hname.ne_nil
  have hzero := zero_of_terminator h (i := 0) (by omega)
  rw [hbytes 0 (by decide)] at hzero
  exact (hname.ascii c List.mem_cons_self).1 hzero

/-! ### The loops -/

/-- What a loop does at an entry: stop with the file, stop without one, go on. -/
inductive Look where
  | here
  | over
  | on
deriving DecidableEq, Repr

/-- A file's bytes: where they start and how many they are. -/
structure Place where
  address : ℕ
  size : ℕ
deriving DecidableEq, Repr

/-- Where a walk stops: the file, and its slice of `EXTINFO`. -/
structure Hit where
  file : Place
  extinfoOffset : ℕ
  extinfoSize : ℕ
deriving DecidableEq, Repr

/-- Walk a table from `entry` on, its file being at `file` and its slice at `extinfo`. -/
def walk (look : ℕ → Look) (m : Ram) : ℕ → ℕ → ℕ → ℕ → Option (Option Hit)
  | 0, _, _, _ => none
  | n + 1, entry, file, extinfo =>
    match look entry with
    | .here => some (some ⟨⟨file, entrySize m entry⟩, extinfo, extinfoSize m entry⟩)
    | .over => some none
    | .on =>
      walk look m n (add32 entry kEntrySize) (add32 file (align16 (entrySize m entry)))
        (add32 extinfo (extinfoSize m entry))

/-- A candidate for the first entry of a table. -/
def isReset (m : Ram) (entry : ℕ) : Prop :=
  named m entry (packName kReset) ∧ entrySize m entry % 16 = 0

instance : Decidable (isReset m entry) :=
  inferInstanceAs (Decidable (_ ∧ _))

/-- Step to the first candidate. -/
def scan (m : Ram) (inRange : ℕ → Bool) : ℕ → ℕ → Option (Option ℕ)
  | 0, _ => none
  | n + 1, entry =>
    if inRange entry then
      if isReset m entry then some (some entry) else scan m inRange n (add32 entry kEntrySize)
    else some none

/-- The archive's first byte: the `RESET` file lies below the table. -/
def imageBase (m : Ram) (table : ℕ) : ℕ := sub32 table (align16 (entrySize m table))

/-- The tests of a loop tell a name of a table from the others and from the table's end. -/
structure Tells (m : Ram) (look : ℕ → Look) (name : List UInt8) : Prop where
  at_file : ∀ entry f, Holds m entry f → IsName f.name →
    look entry = if f.name = name then .here else .on
  at_end : ∀ entry, At m entry terminatorBytes → look entry = .over

/-- The answer to a name: its first file, counted from `file` and `extinfo`, or nothing. -/
def Answers (files : List File) (name : List UInt8) (file extinfo : ℕ)
    (P : Option Hit → Prop) : Prop :=
  (∀ i f, IsFirst files name i f →
    P (some ⟨⟨(file + offset files i) % 2 ^ 32, f.data.length⟩,
      (extinfo + extinfoOffset files i) % 2 ^ 32, f.extinfo.length⟩)) ∧
  ((∀ f ∈ files, f.name ≠ name) → P none)

/-- A walk finds the first file of its name. -/
theorem walk_yields {look : ℕ → Look} (hlook : Tells m look name)
    (hat : At m entry (tableBytes files)) (hname : ∀ f ∈ files, IsName f.name)
    (hx : ∀ f ∈ files, f.extinfo.length < 2 ^ 16) (hd : ∀ f ∈ files, f.data.length < 2 ^ 32)
    (hentry : entry + kEntrySize * files.length < 2 ^ 32) (hfile : file < 2 ^ 32)
    (hextinfo : extinfo < 2 ^ 32) :
    Answers files name file extinfo fun r =>
      Yields (fun n => walk look m n entry file extinfo) r := by
  induction files generalizing entry file extinfo with
  | nil =>
    refine ⟨fun i f hf => absurd hf.get (by simp), fun _ => ?_⟩
    refine Yields.succ rfl (fun n => ?_) (Yields.const none)
    show walk look m (n + 1) entry file extinfo = some none
    rw [walk, hlook.at_end entry hat]
  | cons g files ih =>
    have hg := hname g List.mem_cons_self
    rw [tableBytes_cons, at_append, length_entryBytes hg.length_le] at hat
    have hholds : Holds m entry g :=
      holds_of_at hg (hx g List.mem_cons_self) (hd g List.mem_cons_self) hat.1
    have hstep := hlook.at_file entry g hholds hg
    by_cases heq : g.name = name
    · rw [if_pos heq] at hstep
      refine ⟨fun i f hf => ?_, fun hnone => absurd heq (hnone g List.mem_cons_self)⟩
      obtain ⟨rfl, rfl⟩ := hf.eq_head heq
      refine Yields.succ rfl (fun n => ?_) (Yields.const _)
      show walk look m (n + 1) entry file extinfo = some _
      rw [walk, hstep, hholds.entrySize_eq, hholds.extinfoSize_eq, offset_zero, extinfoOffset_zero,
        Nat.add_zero, Nat.add_zero, Nat.mod_eq_of_lt hfile, Nat.mod_eq_of_lt hextinfo]
    · rw [if_neg heq] at hstep
      -- the sums so far, as the next entry finds them
      have hnext : ∀ n, walk look m (n + 1) entry file extinfo =
          walk look m n (entry + kEntrySize) ((file + alignUp g.data.length) % 2 ^ 32)
            ((extinfo + g.extinfo.length) % 2 ^ 32) := by
        intro n
        have hadd : add32 entry kEntrySize = entry + kEntrySize := by
          refine add32_eq ?_
          simp only [List.length_cons, kEntrySize] at hentry ⊢
          omega
        rw [walk, hstep, hholds.entrySize_eq, hholds.extinfoSize_eq, align16_mod, hadd]
        rfl
      have htail : Answers files name ((file + alignUp g.data.length) % 2 ^ 32)
          ((extinfo + g.extinfo.length) % 2 ^ 32) fun r => Yields (fun n =>
            walk look m n (entry + kEntrySize) ((file + alignUp g.data.length) % 2 ^ 32)
              ((extinfo + g.extinfo.length) % 2 ^ 32)) r :=
        ih hat.2 (fun f hf => hname f (.tail _ hf)) (fun f hf => hx f (.tail _ hf))
          (fun f hf => hd f (.tail _ hf))
          (by simp only [List.length_cons, kEntrySize] at hentry ⊢; omega)
          (Nat.mod_lt _ (by decide)) (Nat.mod_lt _ (by decide))
      refine ⟨fun i f hf => ?_, fun hnone => ?_⟩
      · obtain ⟨j, rfl, hj⟩ := hf.tail heq
        have hyields := htail.1 j f hj
        rw [Nat.mod_add_mod, Nat.mod_add_mod, Nat.add_assoc, Nat.add_assoc] at hyields
        rw [offset_cons_succ, extinfoOffset_cons_succ]
        exact Yields.succ rfl hnext hyields
      · exact Yields.succ rfl hnext (htail.2 fun f hf => hnone f (.tail _ hf))

/-- A walk ends within as many turns as its table has entries. -/
theorem walk_isSome {look : ℕ → Look} {n : ℕ} (hlook : Tells m look name)
    (hat : At m entry (tableBytes files)) (hname : ∀ f ∈ files, IsName f.name)
    (hx : ∀ f ∈ files, f.extinfo.length < 2 ^ 16) (hd : ∀ f ∈ files, f.data.length < 2 ^ 32)
    (hentry : entry + kEntrySize * files.length < 2 ^ 32) (hn : files.length < n) :
    (walk look m n entry file extinfo).isSome := by
  induction files generalizing entry file extinfo n with
  | nil =>
    obtain ⟨n, rfl⟩ : ∃ k, n = k + 1 := ⟨n - 1, by rw [List.length_nil] at hn; omega⟩
    rw [walk, hlook.at_end entry hat]
    rfl
  | cons g files ih =>
    obtain ⟨n, rfl⟩ : ∃ k, n = k + 1 := ⟨n - 1, by omega⟩
    have hg := hname g List.mem_cons_self
    rw [tableBytes_cons, at_append, length_entryBytes hg.length_le] at hat
    have hholds : Holds m entry g :=
      holds_of_at hg (hx g List.mem_cons_self) (hd g List.mem_cons_self) hat.1
    have hnext : entry + kEntrySize + kEntrySize * files.length < 2 ^ 32 := by
      simp only [List.length_cons, kEntrySize] at hentry ⊢
      omega
    rw [walk, hlook.at_file entry g hholds hg]
    by_cases heq : g.name = name
    · rw [if_pos heq]
      rfl
    · rw [if_neg heq, add32_eq (by omega)]
      refine ih hat.2 (fun f hf => hname f (.tail _ hf)) (fun f hf => hx f (.tail _ hf))
        (fun f hf => hd f (.tail _ hf)) hnext ?_
      rw [List.length_cons] at hn
      omega

/-- A scan stops at the first candidate. -/
theorem scan_yields {inRange : ℕ → Bool} {k : ℕ} (hrange : ∀ i ≤ k, inRange (start + 16 * i))
    (hnot : ∀ i < k, ¬isReset m (start + 16 * i)) (hreset : isReset m (start + 16 * k))
    (hlt : start + 16 * k < 2 ^ 32) :
    Yields (fun n => scan m inRange n start) (some (start + 16 * k)) := by
  induction k generalizing start with
  | zero =>
    refine Yields.succ rfl (fun n => ?_) (Yields.const _)
    show scan m inRange (n + 1) start = some (some start)
    rw [scan, if_pos (show inRange start from hrange 0 (Nat.le_refl 0)),
      if_pos (show isReset m start from hreset)]
  | succ k ih =>
    have hshift : ∀ i, start + 16 + 16 * i = start + 16 * (i + 1) := fun i => by omega
    have hrest : Yields (fun n => scan m inRange n (start + 16)) (some (start + 16 + 16 * k)) := ih
      (fun i hi => by rw [hshift]; exact hrange (i + 1) (by omega))
      (fun i hi => by rw [hshift]; exact hnot (i + 1) (by omega))
      (by rw [hshift]; exact hreset) (by rw [hshift]; exact hlt)
    rw [hshift] at hrest
    refine Yields.succ rfl (fun n => ?_) hrest
    rw [scan, if_pos (show inRange start from hrange 0 (Nat.zero_le _)),
      if_neg (show ¬isReset m start from hnot 0 (Nat.succ_pos k)),
      show add32 start kEntrySize = start + 16 from add32_eq (by simp only [kEntrySize]; omega)]

/-! ### An image in memory -/

/-- Bytes as a memory of their own. -/
def ofImage (image : List UInt8) : Ram := fun i => image.getD i 0

theorem at_ofImage (image : List UInt8) : At (ofImage image) 0 image := by
  intro i x hx
  simp [ofImage, hx]

/-- The image of an archive begins with its files, one behind the other. -/
theorem IsArchive.at_layout {image : List UInt8} (h : IsArchive files image) :
    At (ofImage image) 0 (layout (files.map File.data)) := by
  obtain ⟨rest, hrest⟩ := h.begins
  have hat := at_ofImage image
  nth_rewrite 2 [← hrest] at hat
  rw [at_append] at hat
  exact hat.1

/-- Above the table no aligned bytes look like its first entry. -/
def FirstReset (files : List File) (image : List UInt8) : Prop :=
  ∀ a < offset files 1, a % 16 = 0 → ¬isReset (ofImage image) a

/-- The image of an archive in memory: at an address that is not null, and with room behind it for
the padding of the last file and for a record that overruns. -/
structure Placed (m : Ram) (base : ℕ) (files : List File) (image : List UInt8) : Prop where
  archive : IsArchive files image
  first : FirstReset files image
  at_image : At m base image
  base_pos : 0 < base
  fits : base + offset files files.length + 512 ≤ 2 ^ 32

/-- A candidate is told from sixteen bytes. -/
theorem isReset_iff_of_eq {m' : Ram} {a : ℕ} (h : ∀ i < 16, m (entry + i) = m' (a + i)) :
    isReset m entry ↔ isReset m' a := by
  have h0 : m entry = m' a := h 0 (by omega)
  simp only [isReset, named, entrySize, readWord, readHalf, Nat.add_assoc, Nat.reduceAdd]
  rw [h0, h 1 (by omega), h 2 (by omega), h 3 (by omega), h 4 (by omega), h 5 (by omega),
    h 6 (by omega), h 7 (by omega), h 8 (by omega), h 9 (by omega), h 12 (by omega),
    h 13 (by omega), h 14 (by omega), h 15 (by omega)]

namespace Placed

variable {image : List UInt8} {i : ℕ}

theorem at_layout (h : Placed m base files image) : At m base (layout (files.map File.data)) := by
  obtain ⟨rest, hrest⟩ := h.archive.begins
  have hat := h.at_image
  rw [← hrest, at_append] at hat
  exact hat.1

/-- Every file is at its offset. -/
theorem file_at (h : Placed m base files image) (hi : files[i]? = some f) :
    At m (base + offset files i) f.data :=
  at_of_layout h.at_layout hi

theorem table_at (h : Placed m base files image) :
    At m (base + offset files 1) (tableBytes files) := by
  obtain ⟨f, hf, -, hdata⟩ := h.archive.romdir
  rw [← hdata]
  exact h.file_at hf

/-- The directory of a placed archive does not wrap around. -/
theorem table_fits (h : Placed m base files image) :
    base + offset files 1 + kEntrySize * files.length < 2 ^ 32 := by
  obtain ⟨f, hf, -, hdata⟩ := h.archive.romdir
  have hle := offset_add_le hf
  have hup := le_alignUp f.data.length
  have hfits := h.fits
  rw [hdata, length_tableBytes h.archive.isName] at hup
  rw [hdata, length_tableBytes h.archive.isName] at hle
  simp only [kEntrySize] at hup hle ⊢
  omega

/-- The second file begins where the first one, whose length is a multiple of 16, ends. -/
theorem offset_one (h : Placed m base files image) :
    ∃ f, files[0]? = some f ∧ f.name = kReset ∧ f.data.length % 16 = 0 ∧
      offset files 1 = f.data.length := by
  obtain ⟨f, hf, hname, hsize⟩ := h.archive.reset
  refine ⟨f, hf, hname, hsize, ?_⟩
  rw [offset_succ hf, offset_zero, Nat.zero_add, alignUp_of_dvd hsize]

/-- The table's first entry is that of the first file. -/
theorem first_holds (h : Placed m base files image) (hf : files[0]? = some f) :
    Holds m (base + offset files 1) f := by
  have hat := h.table_at
  obtain ⟨rest, rfl⟩ : ∃ rest, files = f :: rest := by
    match files, hf with
    | g :: rest, hf => exact ⟨rest, by rw [show g = f by simpa using hf]⟩
  rw [tableBytes_cons, at_append] at hat
  exact holds_of_at (h.archive.isName f List.mem_cons_self)
    (h.archive.extinfo_lt f List.mem_cons_self) (h.archive.data_lt f List.mem_cons_self) hat.1

/-- The directory is recognised by its first entry. -/
theorem isReset_table (h : Placed m base files image) : isReset m (base + offset files 1) := by
  obtain ⟨f, hf, hname, hsize, -⟩ := h.offset_one
  have hholds := h.first_holds hf
  have hmem := List.mem_of_getElem? hf
  refine ⟨named_packName_iff.mpr ?_, by rw [hholds.entrySize_eq]; exact hsize⟩
  exact (hholds.namedBytes_iff (h.archive.isName f hmem) isName_kReset).mpr hname

/-- Nothing in front of the directory is taken for it. -/
theorem not_isReset (h : Placed m base files image) {a : ℕ} (ha : a < offset files 1)
    (halign : a % 16 = 0) : ¬isReset m (base + a) := by
  obtain ⟨f, hf, -, hsize, hoffset⟩ := h.offset_one
  have hdata : At m base f.data := h.file_at hf
  have hdata' : At (ofImage image) 0 f.data := at_of_layout h.archive.at_layout hf
  rw [isReset_iff_of_eq fun i hi => ?_]
  · exact h.first a ha halign
  · have hlt : a + i < f.data.length := by omega
    have hbyte := hdata (a + i) _ (List.getElem?_eq_getElem hlt)
    have hbyte' := hdata' (a + i) _ (List.getElem?_eq_getElem hlt)
    rw [Nat.zero_add] at hbyte'
    rw [Nat.add_assoc, hbyte, hbyte']

/-- A scan from the image's start finds the table. -/
theorem scan_yields (h : Placed m base files image) {inRange : ℕ → Bool}
    (hrange : ∀ a, base ≤ a → a ≤ base + offset files 1 → inRange a) :
    Yields (fun n => scan m inRange n base) (some (base + offset files 1)) := by
  obtain ⟨f, -, -, hsize, hoffset⟩ := h.offset_one
  have hk : 16 * (offset files 1 / 16) = offset files 1 := by omega
  have hfits := h.table_fits
  have hyields : Yields (fun n => scan m inRange n base)
      (some (base + 16 * (offset files 1 / 16))) := Rom.scan_yields
    (fun i hi => hrange _ (by omega) (by omega))
    (fun i hi => h.not_isReset (by omega) (by omega)) (by rw [hk]; exact h.isReset_table)
    (by omega)
  rwa [hk] at hyields

/-- The image's base is found back from its directory. -/
theorem imageBase_eq (h : Placed m base files image) :
    imageBase m (base + offset files 1) = base := by
  obtain ⟨f, hf, -, hsize, hoffset⟩ := h.offset_one
  have hholds := h.first_holds hf
  have hfits := h.table_fits
  have halign : align16 f.data.length = f.data.length := by
    unfold align16 add32
    omega
  rw [imageBase, hholds.entrySize_eq, halign, hoffset, sub32_eq (by omega) (by omega),
    Nat.add_sub_cancel]

/-- The walk every reader makes. -/
theorem walk_answers (h : Placed m base files image) {look : ℕ → Look}
    (hlook : Tells m look name) :
    Answers files name base 0 fun r =>
      Yields (fun n => walk look m n (base + offset files 1) base 0) r :=
  walk_yields hlook h.table_at h.archive.isName h.archive.extinfo_lt h.archive.data_lt
    h.table_fits (by have := h.fits; omega) (by decide)

end Placed

end PS2Bios.Rom
