import Mathlib.Data.List.DropRight
import PS2Bios.Rom.Walk

/-!
# The tools' reader

`romdir.py` parses a whole table into a list of entries, and looks a name up in the list. It reads
bytes of a file where the other readers read memory, and its sums do not wrap. Text is a list of
characters.
-/

namespace PS2Bios.Rom

open Bytes

namespace Romdir

/-- `Entry`. -/
structure Entry where
  name : List Char
  extinfoSize : ℕ
  size : ℕ
  offset : ℕ
  extinfoOffset : ℕ
deriving DecidableEq, Repr

/-- A byte decoded as ASCII, with the replacement character for what is not. -/
def decode (c : UInt8) : Char := if c < 128 then Char.ofNat c.toNat else Char.ofNat 0xFFFD

/-- The text of some bytes. -/
def text (bytes : List UInt8) : List Char := bytes.map decode

/-- `data[start:start + size]`. -/
def bytesAt (data : List UInt8) (start size : ℕ) : List UInt8 := (data.drop start).take size

/-- The loop of `parseEntries`; unpacking beyond the end raises an error. -/
def parseFrom (data : List UInt8) : ℕ → ℕ → ℕ → ℕ → Option (List Entry)
  | 0, _, _, _ => none
  | n + 1, entry, offset, extinfoOffset =>
    if data.length < entry + kEntrySize then none
    else
      let name := text ((bytesAt data entry kNameLength).rdropWhile (· == 0))
      let extinfoSize := extinfoSize (ofImage data) entry
      let size := entrySize (ofImage data) entry
      if name = [] then some []
      else
        (parseFrom data n (entry + kEntrySize) (offset + alignUp size)
          (extinfoOffset + extinfoSize)).map (⟨name, extinfoSize, size, offset, extinfoOffset⟩ :: ·)

/-- `parseEntries`. Every round needs sixteen bytes more, so the fuel lasts. -/
def parseEntries (data : List UInt8) (table : ℕ) : Option (List Entry) :=
  parseFrom data (data.length + 1) table 0 0

/-- The first entry of a name. -/
def first (entries : List Entry) (name : List Char) : Option Entry :=
  entries.find? fun e => e.name == name

variable {data image name : List UInt8} {files : List File} {f : File} {i entry o x : ℕ}

theorem toNat_decode {c : UInt8} (hc : c.toNat < 128) : (decode c).toNat = c.toNat := by
  have hascii : ∀ k : Fin 128, (Char.ofNat k).toNat = k := by decide +kernel
  rw [decode, if_pos (UInt8.lt_iff_toNat_lt.mpr hc)]
  exact hascii ⟨c.toNat, hc⟩

theorem decode_inj {c d : UInt8} (hc : c < 128) (hd : d < 128) (h : decode c = decode d) :
    c = d := by
  refine UInt8.toNat_inj.mp ?_
  rw [← toNat_decode (UInt8.lt_iff_toNat_lt.mp hc), ← toNat_decode (UInt8.lt_iff_toNat_lt.mp hd), h]

/-- Names with the same text are the same. -/
theorem text_inj {name' : List UInt8} (hname : IsName name) (hname' : IsName name')
    (h : text name = text name') : name = name' := by
  have hlen : name.length = name'.length := by simpa [text] using congrArg List.length h
  refine List.ext_getElem hlen fun i hi hi' => ?_
  refine decode_inj (hname.ascii _ (List.getElem_mem hi)).2
    (hname'.ascii _ (List.getElem_mem hi')).2 ?_
  have hget : (text name)[i]? = (text name')[i]? := by rw [h]
  simpa [text, List.getElem?_eq_getElem hi, List.getElem?_eq_getElem hi'] using hget

/-- The zeros of a field are stripped off again. -/
theorem rdropWhile_padName (h : 0 ∉ name) : (padName name).rdropWhile (· == 0) = name := by
  unfold padName
  induction kNameLength - name.length with
  | zero =>
    rw [List.replicate_zero, List.append_nil, List.rdropWhile_eq_self_iff]
    intro hne hlast
    have hmem := List.getLast_mem hne
    rw [beq_iff_eq.mp hlast] at hmem
    exact h hmem
  | succ k ih =>
    rw [List.replicate_succ', ← List.append_assoc, List.rdropWhile_concat_pos _ _ _ (by rfl), ih]

/-- Bytes of a file as of a memory. -/
theorem bytesAt_eq {l : List UInt8} {a : ℕ} (h : At (ofImage data) a l)
    (hle : a + l.length ≤ data.length) : bytesAt data a l.length = l := by
  refine List.ext_getElem? fun k => ?_
  rw [bytesAt, List.getElem?_take]
  by_cases hk : k < l.length
  · rw [if_pos hk, List.getElem?_drop, List.getElem?_eq_getElem (by omega : a + k < data.length),
      List.getElem?_eq_getElem hk, Option.some_inj]
    have hbyte := h k _ (List.getElem?_eq_getElem hk)
    rwa [ofImage, List.getD_eq_getElem _ _ (by omega)] at hbyte
  · rw [if_neg hk, List.getElem?_eq_none (by omega)]

/-- The entry of the `i`-th file. -/
def entryOf (f : File) (offset extinfoOffset : ℕ) : Entry :=
  ⟨text f.name, f.extinfo.length, f.data.length, offset, extinfoOffset⟩

/-- The entries of an archive. -/
def entries : List File → ℕ → ℕ → List Entry
  | [], _, _ => []
  | f :: files, o, x =>
    entryOf f o x :: entries files (o + alignUp f.data.length) (x + f.extinfo.length)

/-- Parsing the directory's bytes gives its files. -/
theorem parseFrom_eq (hat : At (ofImage data) entry (tableBytes files))
    (hle : entry + (tableBytes files).length ≤ data.length) (hname : ∀ f ∈ files, IsName f.name)
    (hx : ∀ f ∈ files, f.extinfo.length < 2 ^ 16) (hd : ∀ f ∈ files, f.data.length < 2 ^ 32)
    {n : ℕ} (hn : files.length < n) :
    parseFrom data n entry o x = some (entries files o x) := by
  induction files generalizing entry o x n with
  | nil =>
    -- the table ends with a name of no characters
    obtain ⟨n, rfl⟩ := Nat.exists_eq_add_of_lt hn
    have hfield : bytesAt data entry kNameLength = List.replicate kNameLength 0 := by
      have hten : At (ofImage data) entry (List.replicate kNameLength 0) := by
        have hsplit : tableBytes [] = List.replicate kNameLength 0 ++ List.replicate 6 0 := rfl
        rw [hsplit, at_append] at hat
        exact hat.1
      have hlen : (List.replicate kNameLength (0 : UInt8)).length = kNameLength := by simp
      have hlt : kNameLength ≤ (tableBytes []).length := by decide
      have hbytes := bytesAt_eq hten (by omega)
      rwa [hlen] at hbytes
    have hfit : ¬data.length < entry + kEntrySize := Nat.not_lt.mpr hle
    rw [show [].length + n + 1 = n + 1 by simp, parseFrom, if_neg hfit, hfield]
    rfl
  | cons g files ih =>
    obtain ⟨n, rfl⟩ := Nat.exists_eq_add_of_lt hn
    have hg := hname g List.mem_cons_self
    have hglen := length_entryBytes hg.length_le g.extinfo.length g.data.length
    rw [tableBytes_cons, List.length_append, hglen] at hle
    rw [tableBytes_cons, at_append, hglen] at hat
    -- one entry, and the rest by the induction
    have hholds : Holds (ofImage data) entry g :=
      holds_of_at hg (hx g List.mem_cons_self) (hd g List.mem_cons_self) hat.1
    have hfield : bytesAt data entry kNameLength = padName g.name := by
      have hbytes := bytesAt_eq hholds.field (by
        rw [length_padName hg.length_le]
        simp only [kNameLength, kEntrySize] at hle ⊢
        omega)
      rwa [length_padName hg.length_le] at hbytes
    have hne : text g.name ≠ [] := by
      simpa [text] using hg.ne_nil
    have hrest : ∀ n, files.length < n → parseFrom data n (entry + kEntrySize)
        (o + alignUp g.data.length) (x + g.extinfo.length) =
          some (entries files (o + alignUp g.data.length) (x + g.extinfo.length)) := fun n hn =>
      ih hat.2 (by omega) (fun f hf => hname f (.tail _ hf)) (fun f hf => hx f (.tail _ hf))
        (fun f hf => hd f (.tail _ hf)) hn
    rw [parseFrom, if_neg (by omega)]
    dsimp only
    rw [hfield, rdropWhile_padName hg.zero_notMem, hholds.entrySize_eq, hholds.extinfoSize_eq,
      if_neg hne, hrest _ (by simp only [List.length_cons]; omega)]
    rfl

/-- An entry's name is its file's. -/
theorem first_entries (hname : ∀ f ∈ files, IsName f.name) (hasked : IsName name) :
    (∀ i f, IsFirst files name i f → first (entries files o x) (text name) =
      some (entryOf f (o + offset files i) (x + extinfoOffset files i))) ∧
    ((∀ f ∈ files, f.name ≠ name) → first (entries files o x) (text name) = none) := by
  induction files generalizing o x with
  | nil => exact ⟨fun i f hf => absurd hf.get (by simp), fun _ => rfl⟩
  | cons g files ih =>
    have hg := hname g List.mem_cons_self
    have hrest := ih (fun f hf => hname f (.tail _ hf))
      (o := o + alignUp g.data.length) (x := x + g.extinfo.length)
    by_cases heq : g.name = name
    · refine ⟨fun i f hf => ?_, fun hnone => absurd heq (hnone g List.mem_cons_self)⟩
      obtain ⟨rfl, rfl⟩ := hf.eq_head heq
      refine List.find?_cons_of_pos ?_
      simp [entryOf, heq]
    · have hne : ¬((entryOf g o x).name == text name) = true := by
        intro h
        exact heq (text_inj hg hasked (beq_iff_eq.mp h))
      have htail : first (entries (g :: files) o x) (text name) =
          first (entries files (o + alignUp g.data.length) (x + g.extinfo.length)) (text name) :=
        List.find?_cons_of_neg hne
      refine ⟨fun i f hf => ?_, fun hnone => ?_⟩
      · obtain ⟨j, rfl, hj⟩ := hf.tail heq
        rw [htail, hrest.1 j f hj, offset_cons_succ, extinfoOffset_cons_succ, Nat.add_assoc,
          Nat.add_assoc]
      · rw [htail]
        exact hrest.2 fun f hf => hnone f (.tail _ hf)

/-! ### An image in a file -/

/-- The bytes of the `i`-th file are in the image. -/
theorem bytesAt_offset (h : IsArchive files image) (hi : files[i]? = some f) :
    bytesAt image (offset files i) f.data.length = f.data := by
  have hat := at_of_layout h.at_layout hi
  rw [Nat.zero_add] at hat
  obtain ⟨rest, hrest⟩ := h.begins
  have hle := offset_add_length_le hi
  refine bytesAt_eq hat (Nat.le_trans hle ?_)
  rw [← hrest, List.length_append]
  exact Nat.le_add_right _ _

/-- An archive's table parses to its entries. -/
theorem parseEntries_eq (h : IsArchive files image) :
    parseEntries image (offset files 1) = some (entries files 0 0) := by
  obtain ⟨f, hf, -, hdata⟩ := h.romdir
  have hat := at_of_layout h.at_layout hf
  rw [Nat.zero_add, hdata] at hat
  obtain ⟨rest, hrest⟩ := h.begins
  have hle := offset_add_length_le hf
  rw [hdata] at hle
  have hlen : (layout (files.map File.data)).length ≤ image.length := by
    rw [← hrest, List.length_append]
    exact Nat.le_add_right _ _
  have htable := length_tableBytes h.isName
  refine parseFrom_eq hat (by omega) h.isName h.extinfo_lt h.data_lt ?_
  simp only [kEntrySize] at htable
  omega

/-- The slice of the `i`-th file is its own, when `EXTINFO` is the slices of all. -/
theorem bytesAt_extinfo (h : IsArchive files image) {j : ℕ} {x : File} (hx : files[j]? = some x)
    (hdata : x.data = files.flatMap File.extinfo) (hi : files[i]? = some f) :
    bytesAt image (offset files j + extinfoOffset files i) f.extinfo.length = f.extinfo := by
  have hat := at_of_layout h.at_layout hx
  rw [Nat.zero_add, hdata] at hat
  have hslice := at_of_extinfo hat hi
  obtain ⟨rest, hrest⟩ := h.begins
  have hle := offset_add_length_le hx
  have hwithin := extinfoOffset_add_le hi
  rw [hdata] at hle
  refine bytesAt_eq hslice (Nat.le_trans (by omega) (Nat.le_trans hle ?_))
  rw [← hrest, List.length_append]
  exact Nat.le_add_right _ _

end Romdir

end PS2Bios.Rom
