import PS2Bios.Rom.Pool
import PS2Bios.Rom.Romdir

/-!
# The tool's merge

`iopmerge.py` over parsed archives. A pass that raises an error or exits is `none`.
-/

namespace PS2Bios.Rom

open Bytes

namespace Romdir

/-- `findTable`: step through the occurrences of `RESET` and a zero byte to one that `ROMDIR`
follows, with a size of whole entries. -/
def findTableFrom (data : List UInt8) : ℕ → ℕ → Option ℕ
  | 0, _ => none
  | n + 1, entry =>
    if data.length < entry + 6 then none
    else if bytesAt data entry 6 = kReset ++ [0] ∧
        (bytesAt data (entry + kEntrySize) kNameLength).rdropWhile (· == 0) = kRomdir then
      if data.length < entry + kEntrySize + kEntrySize then none
      else
        let size := entrySize (ofImage data) (entry + kEntrySize)
        if size % kEntrySize = 0 ∧ 0 < size then some entry else findTableFrom data n (entry + 1)
    else findTableFrom data n (entry + 1)

/-- Where an image's directory begins. -/
def findTable (data : List UInt8) : Option ℕ := findTableFrom data (data.length + 1) 0

/-- `entryMap`: the first entry of a name, those that mark padding left out. -/
def entryMap (entries : List Entry) (name : List Char) : Option Entry :=
  entries.find? fun e => e.name != ['-'] && e.name == name

/-- Nothing before the table looks like one to `findTable`. -/
def FirstTable (files : List File) (image : List UInt8) : Prop :=
  ∀ a < offset files 1, bytesAt image a 6 = kReset ++ [0] →
    (bytesAt image (a + kEntrySize) kNameLength).rdropWhile (· == 0) ≠ kRomdir

variable {files : List File} {image : List UInt8}

/-- The map keeps the first entry of a name. -/
theorem entryMap_eq_first {entries : List Entry} {name : List Char} (h : name ≠ ['-']) :
    entryMap entries name = first entries name := by
  unfold entryMap first
  congr 1
  funext e
  by_cases heq : e.name = name
  · subst heq
    simp [h]
  · simp [heq]

/-- `findTable` finds an archive's table. -/
theorem findTable_eq (h : IsArchive files image) (hfirst : FirstTable files image) :
    findTable image = some (offset files 1) := by
  obtain ⟨g, hg, hgname, -⟩ := h.reset
  obtain ⟨f, hf, hname, hdata⟩ := h.romdir
  have hat := at_of_layout h.at_layout hf
  rw [Nat.zero_add, hdata] at hat
  have hlen := length_tableBytes h.isName
  have hwithin := offset_add_length_le hf
  obtain ⟨rest, hrest⟩ := h.begins
  have hle : offset files 1 + (tableBytes files).length ≤ image.length := by
    rw [← hdata, ← hrest, List.length_append]
    exact Nat.le_trans hwithin (Nat.le_add_right _ _)
  obtain ⟨tail, rfl⟩ : ∃ tail, files = g :: f :: tail := by
    match files, hg, hf with
    | a :: b :: tail, hg, hf =>
      exact ⟨tail, by rw [show a = g by simpa using hg, show b = f by simpa using hf]⟩
  have hgN : IsName g.name := h.isName g List.mem_cons_self
  have hfN : IsName f.name := h.isName f (.tail _ List.mem_cons_self)
  rw [tableBytes_cons, at_append, length_entryBytes hgN.length_le, tableBytes_cons,
    at_append] at hat
  obtain ⟨hatg, hatf, -⟩ := hat
  have hgHolds : Holds (ofImage image) (offset (g :: f :: tail) 1) g :=
    holds_of_at hgN (h.extinfo_lt g List.mem_cons_self) (h.data_lt g List.mem_cons_self) hatg
  have hfHolds : Holds (ofImage image) (offset (g :: f :: tail) 1 + kEntrySize) f :=
    holds_of_at hfN (h.extinfo_lt f (.tail _ List.mem_cons_self))
      (h.data_lt f (.tail _ List.mem_cons_self)) hatf
  simp only [List.length_cons, kEntrySize] at hlen
  have hreset : bytesAt image (offset (g :: f :: tail) 1) 6 = kReset ++ [0] := by
    have hfield := hgHolds.field
    rw [hgname] at hfield
    have hsix : At (ofImage image) (offset (g :: f :: tail) 1) (kReset ++ [0]) :=
      (at_append.mp (show At (ofImage image) (offset (g :: f :: tail) 1)
        ((kReset ++ [0]) ++ List.replicate 4 0) from hfield)).1
    exact bytesAt_eq hsix (by simp only [kReset, List.cons_append, List.nil_append,
      List.length_cons, List.length_nil]; omega)
  have hromdir : bytesAt image (offset (g :: f :: tail) 1 + kEntrySize) kNameLength =
      padName f.name := by
    have hbytes := bytesAt_eq hfHolds.field (by
      rw [length_padName hfN.length_le]
      simp only [kNameLength, kEntrySize]
      omega)
    rwa [length_padName hfN.length_le] at hbytes
  have hsize : entrySize (ofImage image) (offset (g :: f :: tail) 1 + kEntrySize) =
      16 * (tail.length + 1 + 1 + 1) := by
    rw [hfHolds.entrySize_eq, hdata, hlen]
  -- the search runs up to the table and stops there
  have hsearch : ∀ k a n, a + k = offset (g :: f :: tail) 1 → k < n →
      findTableFrom image n a = some (offset (g :: f :: tail) 1) := by
    intro k
    induction k with
    | zero =>
      rintro a (_ | n) ha hn
      · exact absurd hn (Nat.not_lt_zero _)
      · obtain rfl : a = offset (g :: f :: tail) 1 := by omega
        rw [findTableFrom, if_neg (by omega), hreset, hromdir, rdropWhile_padName hfN.zero_notMem,
          if_pos ⟨rfl, hname⟩, if_neg (by simp only [kEntrySize]; omega)]
        dsimp only
        rw [hsize, if_pos (by simp only [kEntrySize]; omega)]
    | succ k ih =>
      rintro a (_ | n) ha hn
      · exact absurd hn (Nat.not_lt_zero _)
      · rw [findTableFrom, if_neg (by omega), if_neg fun hboth =>
          hfirst a (by omega) hboth.1 hboth.2]
        exact ih (a + 1) n (by omega) (by omega)
  exact hsearch (offset (g :: f :: tail) 1) 0 _ (Nat.zero_add _) (by omega)

end Romdir

namespace Iopmerge

open Romdir

/-- `Source`: an archive of the pool. -/
structure Source where
  label : ℕ
  data : List UInt8
  entries : List Entry
deriving DecidableEq, Repr

/-- `Resolution`: a name, the source it resolves to and the version there. -/
structure Resolution where
  name : List Char
  source : ℕ
  version : ℕ
deriving DecidableEq, Repr

/-- `loadArchive`. -/
def loadArchive (label : ℕ) (data : List UInt8) : Option Source :=
  (findTable data).bind fun table => (parseEntries data table).map (Source.mk label data)

/-- The loop of `entryVersion`; unpacking beyond the end raises an error. -/
def versionFrom (data : List UInt8) (last : ℕ) : ℕ → ℕ → Option ℕ
  | 0, _ => none
  | n + 1, record =>
    if record < last then
      if data.length < record + 4 then none
      else
        let m := ofImage data
        if m (record + 3) = kExtinfoVersion then some (readHalf m record)
        else versionFrom data last n (record + 4 + (m (record + 2)).toNat)
    else some 0

/-- `entryVersion`: the inner `none` is Python's. Every record needs four bytes more, so the fuel
lasts. -/
def entryVersion (source : Source) (name : List Char) : Option (Option ℕ) :=
  match entryMap source.entries name with
  | none => some none
  | some entry =>
    match entryMap source.entries (text kExtinfo) with
    | none => some (some 0)
    | some extinfo =>
      if entry.extinfoSize = 0 then some (some 0)
      else
        let record := extinfo.offset + entry.extinfoOffset
        (versionFrom source.data (record + entry.extinfoSize) (source.data.length + 1) record).map
          some

/-- White space to `str.split`, of what decoded ASCII can hold. -/
def isSpace (c : Char) : Bool :=
  decide (9 ≤ c.toNat ∧ c.toNat ≤ 13 ∨ 28 ≤ c.toNat ∧ c.toNat ≤ 32)

/-- `BOOTCONFIG_SKIP_PREFIXES`: what a token that is no name begins with. -/
def skips (token : List Char) : Bool :=
  token.head? = some '@' || token.head? = some '#' || token.head? = some '!'

/-- `parseBootConfig`. -/
def parseBootConfig (bytes : List UInt8) : List (List Char) :=
  (Tokens.tokens isSpace (text bytes)).filter fun token => !skips token

/-- `findBootConfig`. -/
def findBootConfig : List Source → Option (Source × List (List Char))
  | [] => none
  | source :: older =>
    match entryMap source.entries (text kIopbtconf) with
    | none => findBootConfig older
    | some entry => some (source, parseBootConfig (bytesAt source.data entry.offset entry.size))

/-- The inner loop of `resolveVersions`: the champion, a label and a version. -/
def championOf (name : List Char) : List Source → Option (ℕ × ℕ) → Option (Option (ℕ × ℕ))
  | [], champion => some champion
  | source :: older, champion =>
    (entryVersion source name).bind fun
      | none => championOf name older champion
      | some version =>
        if champion.all fun c => c.2 < version then
          championOf name older (some (source.label, version))
        else championOf name older champion

/-- `resolveVersions`. -/
def resolveVersions (names : List (List Char)) (newestFirst : List Source) :
    Option (List Resolution) :=
  names.mapM fun name =>
    (championOf name newestFirst none).bind fun champion =>
      champion.map fun c => ⟨name, c.1, c.2⟩

/-- `merge`. -/
def merge (sources : List Source) (rom0 : Source) : Option (Source × List Resolution) :=
  let newestFirst := sources.reverse ++ [rom0]
  (findBootConfig newestFirst).bind fun order =>
    (resolveVersions order.2 newestFirst).map (Prod.mk order.1)

/-! ### What the passes compute -/

/-- An archive of the pool in its image. -/
structure IsSource (image : List UInt8) (a : Member) : Prop where
  archive : IsArchive a.files image
  first : FirstReset a.files image
  table : FirstTable a.files image
  extinfo : ∀ j x, IsFirst a.files kExtinfo j x → x.data = a.files.flatMap File.extinfo
  records : ∀ f ∈ a.files, WholeRecords f.extinfo
  bootList : ∀ i f, IsFirst a.files kIopbtconf i f → IsBootList f.data

/-- The source that a member's image is loaded as. -/
def sourceOf (image : List UInt8) (a : Member) : Source := ⟨a.label, image, entries a.files 0 0⟩

variable {a : Member} {image data name : List UInt8} {pool : List (List UInt8 × Member)}

theorem loadArchive_eq (h : IsSource image a) :
    loadArchive a.label image = some (sourceOf image a) := by
  rw [loadArchive, findTable_eq h.archive h.table, Option.bind_some,
    parseEntries_eq h.archive]
  rfl

/-- Whole records are read up to the first version. -/
theorem versionFrom_eq {slice : List UInt8} (hrecords : WholeRecords slice) {start k n : ℕ}
    (hat : At (ofImage data) start slice) (hle : start + slice.length ≤ data.length)
    (hk : slice.length ≤ k) (hn : slice.length < n) :
    versionFrom data (start + slice.length) n start = some (versionOf k slice) := by
  induction hrecords generalizing start k n with
  | nil =>
    obtain ⟨n, rfl⟩ := Nat.exists_eq_add_of_lt hn
    rw [versionOf_of_length_lt (by simp), List.length_nil, Nat.zero_add, versionFrom,
      if_neg (by omega)]
  | @cons low high payload type bytes rest hlen hrest ih =>
    obtain ⟨n, rfl⟩ := Nat.exists_eq_add_of_lt hn
    simp only [List.length_cons, List.length_append] at hle hk hn ⊢
    obtain ⟨k, rfl⟩ : ∃ k', k = k' + 1 := ⟨k - 1, by omega⟩
    simp only [at_cons, at_append, Nat.add_assoc, Nat.reduceAdd] at hat
    obtain ⟨hlow, hhigh, hpayload, htype, -, hat⟩ := hat
    rw [versionFrom, if_pos (by omega), if_neg (by omega), versionOf]
    dsimp only
    rw [htype, readHalf, hlow, hhigh, hpayload]
    by_cases hversion : type = kExtinfoVersion
    · rw [if_pos hversion, if_pos hversion]
    · rw [if_neg hversion, if_neg hversion, ← hlen, List.drop_left]
      have hnext : versionFrom data (start + (4 + bytes.length) + rest.length)
          (bytes.length + rest.length + 1 + 1 + 1 + 1 + n) (start + (4 + bytes.length)) =
            some (versionOf k rest) := ih hat (by omega) (by omega) (by omega)
      rw [show start + 4 + bytes.length = start + (4 + bytes.length) by omega,
        show start + (bytes.length + rest.length + 1 + 1 + 1 + 1) =
          start + (4 + bytes.length) + rest.length by omega]
      exact hnext

theorem text_ne_padding (hname : IsName name) (hne : name ≠ [0x2D]) : text name ≠ ['-'] := by
  intro h
  exact hne (text_inj hname (isName_of_all (by decide) (by decide) (by decide)) h)

/-- `entryVersion` is the version the archive has of the name. -/
theorem entryVersion_eq (h : IsSource image a) (hname : IsName name) (hne : name ≠ [0x2D]) :
    entryVersion (sourceOf image a) (text name) = some (a.version name) := by
  have hfirst := first_entries (o := 0) (x := 0) h.archive.isName hname
  have hfirstx := first_entries (o := 0) (x := 0) h.archive.isName isName_kExtinfo
  unfold entryVersion
  simp only [sourceOf, entryMap_eq_first (text_ne_padding hname hne),
    entryMap_eq_first (text_ne_padding isName_kExtinfo (by decide))]
  rcases exists_isFirst_or a.files name with ⟨i, f, hf⟩ | hnone
  · rw [hfirst.1 i f hf, Member.version, file_eq_some hf]
    simp only [Option.map_some, Nat.zero_add]
    rcases exists_isFirst_or a.files kExtinfo with ⟨j, x, hx⟩ | hnonex
    · rw [hfirstx.1 j x hx, file_eq_some hx]
      simp only [entryOf, Nat.zero_add, Option.isSome_some, if_true]
      by_cases hzero : f.extinfo.length = 0
      · rw [if_pos hzero, List.eq_nil_of_length_eq_zero hzero]
        rfl
      · have hdata := h.extinfo j x hx
        have hat := at_of_layout h.archive.at_layout hx.get
        rw [Nat.zero_add, hdata] at hat
        have hslice := at_of_extinfo hat hf.get
        have hwithin := extinfoOffset_add_le hf.get
        have hend := offset_add_length_le hx.get
        obtain ⟨rest, hrest⟩ := h.archive.begins
        have hlen : (layout (a.files.map File.data)).length ≤ image.length := by
          rw [← hrest, List.length_append]
          exact Nat.le_add_right _ _
        rw [hdata] at hend
        rw [if_neg hzero, versionFrom_eq (h.records f (List.mem_of_getElem? hf.get)) hslice
          (by omega) (Nat.le_refl _) (by omega)]
        rfl
    · rw [hfirstx.2 hnonex, file_eq_none hnonex]
      rfl
  · rw [hfirst.2 hnone, Member.version, file_eq_none hnone]
    rfl

/-- The champion of a pool is its choice. -/
theorem championOf_eq (hpool : ∀ s ∈ pool, IsSource s.1 s.2) (hname : IsName name)
    (hne : name ≠ [0x2D]) (best : Option Choice) :
    championOf (text name) (pool.map fun s => sourceOf s.1 s.2)
        (best.map fun c => (c.label, c.version)) =
      some (((candidates (pool.map Prod.snd) name).foldl better best).map
        fun c => (c.label, c.version)) := by
  induction pool generalizing best with
  | nil => rfl
  | cons s pool ih =>
    have hrest := ih fun s hs => hpool s (.tail _ hs)
    have hversion := entryVersion_eq (hpool s List.mem_cons_self) hname hne
    rw [List.map_cons, List.map_cons, championOf, hversion, Option.bind_some]
    cases hv : s.2.version name with
    | none =>
      rw [candidates_cons_none hv]
      exact hrest best
    | some v =>
      rw [candidates_cons_some hv, List.foldl_cons, ← hrest]
      have hall : (best.map fun c => (c.label, c.version)).all (fun c => decide (c.2 < v)) =
          best.all fun c => decide (c.version < v) := by
        cases best <;> rfl
      simp only [hall, better]
      split <;> rfl

/-- Decoding makes a space of the separators only. -/
theorem isSpace_decode {c : UInt8} (h : isSeparator c ∨ 0x21 ≤ c.toNat ∧ c.toNat < 0x80) :
    isSpace (decode c) = isSeparator c := by
  have hlt : c.toNat < 128 := by
    rcases h with h | h
    · simp only [isSeparator, decide_eq_true_eq] at h
      omega
    · omega
  simp only [isSpace, isSeparator, toNat_decode hlt]
  refine decide_eq_decide.mpr ?_
  rcases h with h | h
  · simp only [isSeparator, decide_eq_true_eq] at h
    omega
  · omega

/-- A text of white space and other characters is read as the names it has. -/
theorem parseBootConfig_of {list : List UInt8}
    (hall : ∀ c ∈ list, isSeparator c ∨ 0x21 ≤ c.toNat ∧ c.toNat < 0x80)
    (hhead : ∀ t ∈ Tokens.tokens isSeparator list, t.head? ≠ some 0x21) :
    parseBootConfig list = (bootNames list).map text := by
  have htokens : Tokens.tokens isSpace (text list) = (Tokens.tokens isSeparator list).map text := by
    rw [text, Tokens.tokens_map, Tokens.tokens_congr fun c hc => isSpace_decode (hall c hc)]
    rfl
  rw [parseBootConfig, htokens, List.filter_map, bootNames]
  refine congrArg _ (List.filter_congr fun t ht => ?_)
  obtain ⟨hne, hmem⟩ := Tokens.mem_of_mem_tokens ht
  obtain ⟨c, t, rfl⟩ := List.exists_cons_of_ne_nil hne
  have hc : c < 128 := by
    obtain ⟨hclist, hsep⟩ := hmem c List.mem_cons_self
    rcases hall c hclist with hp | hp
    · exact absurd hp hsep
    · exact UInt8.lt_iff_toNat_lt.mpr hp.2
  have hhead_iff : ∀ d : UInt8, d < 128 → (decode c = decode d ↔ c = d) := fun d hd =>
    ⟨decode_inj hc hd, congrArg decode⟩
  have hbang : c ≠ 0x21 := fun heq => hhead _ ht (by rw [heq]; rfl)
  simp only [Function.comp_apply, skips, text, List.map_cons, List.head?_cons, Option.some_inj]
  rw [show '@' = decode 0x40 by decide, show '#' = decode 0x23 by decide,
    show '!' = decode 0x21 by decide]
  simp only [hhead_iff 0x40 (by decide), hhead_iff 0x23 (by decide), hhead_iff 0x21 (by decide),
    hbang]
  simp

/-- A boot list is read as the names it has. -/
theorem parseBootConfig_eq {list : List UInt8} (h : IsBootList list) :
    parseBootConfig list = (bootNames list).map text :=
  parseBootConfig_of (fun c hc => (h.printable c hc).imp_right fun hp => ⟨hp.1, by omega⟩)
    h.head_ne

/-- The order comes from the newest archive with a boot list. -/
theorem findBootConfig_eq (hpool : ∀ s ∈ pool, IsSource s.1 s.2) :
    (findBootConfig (pool.map fun s => sourceOf s.1 s.2)).map (fun o => (o.1.label, o.2)) =
      (orderFrom (pool.map Prod.snd)).map fun o => (o.1, (bootNames o.2).map text) := by
  induction pool with
  | nil => rfl
  | cons s pool ih =>
    have hs := hpool s List.mem_cons_self
    have hfirst := first_entries (o := 0) (x := 0) hs.archive.isName isName_kIopbtconf
    rw [List.map_cons, List.map_cons, findBootConfig, orderFrom]
    simp only [sourceOf, entryMap_eq_first (text_ne_padding isName_kIopbtconf (by decide))]
    rcases exists_isFirst_or s.2.files kIopbtconf with ⟨i, f, hf⟩ | hnone
    · rw [hfirst.1 i f hf, file_eq_some hf]
      simp only [entryOf, Nat.zero_add, Option.map_some]
      rw [bytesAt_offset hs.archive hf.get, parseBootConfig_eq (hs.bootList i f hf)]
    · rw [hfirst.2 hnone, file_eq_none hnone]
      exact ih fun t ht => hpool t (.tail _ ht)

/-- Every name resolves to the pool's choice, or the pass exits. -/
theorem resolveVersions_eq (hpool : ∀ s ∈ pool, IsSource s.1 s.2) {names : List (List UInt8)}
    (hnames : ∀ name ∈ names, IsName name ∧ name ≠ [0x2D]) :
    resolveVersions (names.map text) (pool.map fun s => sourceOf s.1 s.2) =
      names.mapM fun name => (chosen (pool.map Prod.snd) name).map fun c =>
        ⟨text name, c.label, c.version⟩ := by
  unfold resolveVersions
  induction names with
  | nil => rfl
  | cons name names ih =>
    have hchampion := championOf_eq hpool (hnames name List.mem_cons_self).1
      (hnames name List.mem_cons_self).2 none
    rw [foldl_better, Option.map_none] at hchampion
    rw [List.map_cons, List.mapM_cons, List.mapM_cons, hchampion,
      ih fun n hn => hnames n (.tail _ hn), Option.bind_some, Option.map_map]
    rfl

end Iopmerge

end PS2Bios.Rom
