import PS2Bios.Rom.Agreement

/-!
# The boot block's list

`IOPBOOT` reads the boot list before there is a module to do it: it resolves every name against
`rom0` as it comes, and stops the boot over one that is not there. `UDNL` and the tool read the
same file with loops of their own. On a text of characters and white space without directives the
three come to the same names, and the two on the machine to the same base.
-/

namespace PS2Bios.Rom

open Bytes Iopmerge

namespace Iopboot

/-- Where the search for the first image begins. -/
def kRomSearchStart : ℕ := 0xBFC00000

/-- Where it ends. -/
def kRomSearchEnd : ℕ := 0xBFC80000

/-- The modules a boot list may name. -/
def kBootListMax : ℕ := 64

/-- `text[i] < 0x20`; a `uint8_t` is unsigned. -/
def isControl (c : UInt8) : Bool := decide (c.toNat < 0x20)

/-- The address after an `@`. -/
def baseOf (digits : List UInt8) : ℕ :=
  digits.foldl (fun base c => add32 (base <<< 4 % 2 ^ 32) (Udnl.hexDigit c.toNat)) 0

/-- A token in a field of ten bytes: cut, or padded. -/
def nameField (token : List UInt8) : List UInt8 := padName (token.take kNameLength)

/-- An entry of the boot list: the name that was read, and the module's address. -/
structure Listed where
  name : List UInt8
  address : ℕ
deriving DecidableEq, Repr

/-- What comes of a name: the module that was found is added to the entries, or `stop`. -/
def writeBootEntry (entries : List Listed) (name : List UInt8) :
    Option Place → Option (List Listed)
  | none => none
  | some module =>
    if module.address = 0 ∨ kBootListMax ≤ entries.length then none
    else some (entries ++ [⟨name, module.address⟩])

/-- The token loop of `iopboot` over the rest of a boot list, with the entries and the base so far;
the inner `none` is `stop`. -/
def readList (m : Ram) : ℕ → List UInt8 → List Listed → ℕ → Option (Option (List Listed × ℕ))
  | 0, _, _, _ => none
  | n + 1, rest, entries, base =>
    match rest.dropWhile isControl with
    | [] => some (some (entries, base))
    | c :: start =>
      let token := start.takeWhile fun c => !isControl c
      let rest := start.dropWhile fun c => !isControl c
      if c = 0x40 then readList m n rest entries (baseOf token)
      else if c = 0x23 then readList m n rest entries base
      else
        let name := nameField (c :: token)
        (find m kRomSearchStart kRomSearchEnd (isBytes m name) n).bind fun found =>
          (writeBootEntry entries name found).elim (some none) fun entries =>
            readList m n rest entries base

variable {m : Ram} {files : List File} {image token text : List UInt8} {entry : ℕ}

/-! ### Resolving a name -/

/-- A name is compared by the bytes an entry has for it. -/
theorem isBytes_nameField (token : List UInt8) :
    isBytes m (nameField token) = isBytes m (token.take kNameLength) := by
  funext entry
  refine decide_eq_decide.mpr (forall₂_congr fun i hi => ?_)
  rw [List.getD_eq_getElem?_getD, nameField, padName_getElem? hi]
  rfl

/-- A token of printable characters, cut to the field, is a name. -/
theorem isName_take (hne : token ≠ []) (hall : ∀ c ∈ token, c < 0x80 ∧ ¬isControl c) :
    IsName (token.take kNameLength) := by
  refine ⟨?_, List.length_take_le _ _, fun c hc => ?_⟩
  · simpa [List.take_eq_nil_iff, kNameLength] using hne
  · obtain ⟨hlt, hcontrol⟩ := hall c (List.mem_of_mem_take hc)
    refine ⟨?_, hlt⟩
    rintro rfl
    exact hcontrol rfl

/-- A name is found when the archive has a file whose name the token begins with. -/
theorem find_nameField (h : Placed m kRomSearchStart files image)
    (hlast : kRomSearchStart + offset files 1 < kRomSearchEnd) (hne : token ≠ [])
    (hall : ∀ c ∈ token, c < 0x80 ∧ ¬isControl c) :
    ∃ r, Yields (find m kRomSearchStart kRomSearchEnd (isBytes m (nameField token))) r ∧
      (∀ module, r = some module → module.address ≠ 0) ∧
      (r.isSome ↔ ∃ f ∈ files, f.name = token.take kNameLength) := by
  have hfinds := find_yields h hlast (isName_take hne hall)
  rw [isBytes_nameField]
  rcases exists_isFirst_or files (token.take kNameLength) with ⟨i, f, hf⟩ | hnone
  · refine ⟨_, hfinds.1 i f hf, ?_, ?_⟩
    · rintro module hmodule
      obtain rfl := Option.some.inj hmodule
      have hpos := h.base_pos
      show kRomSearchStart + offset files i ≠ 0
      omega
    · exact ⟨fun _ => ⟨f, List.mem_of_getElem? hf.get, hf.name_eq⟩, fun _ => rfl⟩
  · refine ⟨none, hfinds.2 hnone, nofun, iff_of_false Bool.false_ne_true ?_⟩
    rintro ⟨f, hf, hname⟩
    exact hnone f hf hname

/-! ### Reading the list -/

/-- What the loop answers for the names that are still to come. -/
structure Reads (files : List File) (names : List (List UInt8)) (entries : List Listed) (base : ℕ)
    (r : Option (List Listed × ℕ)) : Prop where
  names_eq : ∀ o, r = some o →
    o.1.map Listed.name = entries.map Listed.name ++ names.map nameField ∧ o.2 = base
  isSome_iff : r.isSome ↔ (∀ t ∈ names, ∃ f ∈ files, f.name = t.take kNameLength) ∧
    (names ≠ [] → entries.length + names.length ≤ kBootListMax)

/-- A list without tokens reads as nothing. -/
theorem Reads.nil (entries : List Listed) (base : ℕ) :
    Reads files [] entries base (some (entries, base)) := by
  refine ⟨?_, iff_of_true rfl ⟨nofun, fun hne => absurd rfl hne⟩⟩
  rintro o ho
  obtain rfl := Option.some.inj ho
  exact ⟨(List.append_nil _).symm, rfl⟩

/-- A name that is found, with room for it. -/
theorem Reads.cons {names : List (List UInt8)} {entries : List Listed} {base address : ℕ}
    {r : Option (List Listed × ℕ)}
    (h : Reads files names (entries ++ [⟨nameField token, address⟩]) base r)
    (hfile : ∃ f ∈ files, f.name = token.take kNameLength)
    (hroom : entries.length < kBootListMax) : Reads files (token :: names) entries base r := by
  have hlen : (entries ++ [Listed.mk (nameField token) address]).length = entries.length + 1 :=
    List.length_append
  constructor
  · intro o ho
    have hnames := h.names_eq o ho
    rw [List.map_append, List.append_assoc] at hnames
    exact hnames
  · rw [h.isSome_iff, List.forall_mem_cons, and_assoc, and_iff_right hfile, hlen]
    refine and_congr_right fun _ => ?_
    match names with
    | [] => simpa using Nat.succ_le_of_lt hroom
    | t :: names => simp [Nat.add_assoc, Nat.add_comm 1]

/-- A name that is not found, or no room for it. -/
theorem Reads.stop {names : List (List UInt8)} {entries : List Listed} {base : ℕ}
    (h : ¬(∃ f ∈ files, f.name = token.take kNameLength) ∨ kBootListMax ≤ entries.length) :
    Reads files (token :: names) entries base none := by
  refine ⟨nofun, iff_of_false Bool.false_ne_true ?_⟩
  rintro ⟨hfiles, hroom⟩
  rcases h with hnone | hfull
  · exact hnone (hfiles token List.mem_cons_self)
  · have hle := hroom (List.cons_ne_nil token names)
    rw [List.length_cons] at hle
    omega

/-- The loop reads the tokens of a text. -/
theorem readList_yields (h : Placed m kRomSearchStart files image)
    (hlast : kRomSearchStart + offset files 1 < kRomSearchEnd) {k : ℕ} {rest : List UInt8}
    (hk : rest.length ≤ k) (hall : ∀ c ∈ rest, c < 0x80) (entries : List Listed) (base : ℕ) :
    ∃ r, Yields (fun n => readList m n rest entries base) r ∧
      Reads files ((Tokens.tokens isControl rest).filter Udnl.isListed) entries
        (Udnl.baseFrom baseOf (Tokens.tokens isControl rest) base) r := by
  induction k generalizing rest entries base with
  | zero =>
    obtain rfl := List.eq_nil_of_length_eq_zero (Nat.le_zero.mp hk)
    exact ⟨_, Yields.succ rfl (fun n => rfl) (Yields.const _), Reads.nil entries base⟩
  | succ k ih =>
    rcases Tokens.tokens_cases isControl rest with
      ⟨hdrop, htokens⟩ | ⟨c, start, hdrop, hc, -, -, htokens, hlen⟩
    · rw [htokens]
      exact ⟨_, Yields.succ rfl (fun n => by rw [readList, hdrop]) (Yields.const _),
        Reads.nil entries base⟩
    · have hmem : ∀ d ∈ c :: start, d < 0x80 := fun d hd =>
        hall d ((List.dropWhile_suffix isControl).mem (hdrop ▸ hd))
      have hread := fun entries base =>
        @ih (start.dropWhile fun c => !isControl c) (by omega)
          (fun d hd => hmem d (.tail _ ((List.dropWhile_suffix _).mem hd))) entries base
      rw [htokens]
      -- the three kinds of a token
      by_cases hat : c = 0x40
      · obtain ⟨r, hyields, hr⟩ := hread entries (baseOf (start.takeWhile fun c => !isControl c))
        rw [List.filter_cons_of_neg (by simp [Udnl.isListed, hat]), Udnl.baseFrom,
          List.foldl_cons, List.head?_cons, if_pos (congrArg some hat), List.tail_cons]
        refine ⟨r, Yields.succ rfl (fun n => ?_) hyields, hr⟩
        rw [readList, hdrop]
        exact if_pos hat
      · have hbase : Udnl.baseFrom baseOf ((c :: start.takeWhile fun c => !isControl c) ::
            Tokens.tokens isControl (start.dropWhile fun c => !isControl c)) base =
              Udnl.baseFrom baseOf (Tokens.tokens isControl (start.dropWhile fun c => !isControl c))
                base := by
          rw [Udnl.baseFrom, List.foldl_cons, List.head?_cons,
            if_neg fun h => hat (Option.some.inj h)]
          rfl
        rw [hbase]
        by_cases hhash : c = 0x23
        · obtain ⟨r, hyields, hr⟩ := hread entries base
          rw [List.filter_cons_of_neg (by simp [Udnl.isListed, hhash])]
          refine ⟨r, Yields.succ rfl (fun n => ?_) hyields, hr⟩
          rw [readList, hdrop]
          exact (if_neg hat).trans (if_pos hhash)
        · rw [List.filter_cons_of_pos (by simp [Udnl.isListed, hat, hhash])]
          have htoken : ∀ d ∈ c :: start.takeWhile fun c => !isControl c,
              d < 0x80 ∧ ¬isControl d := by
            intro d hd
            rcases List.mem_cons.mp hd with rfl | hd
            · exact ⟨hmem d List.mem_cons_self, hc⟩
            · exact ⟨hmem d (.tail _ ((List.takeWhile_prefix _).mem hd)),
                by simpa using List.mem_takeWhile_imp hd⟩
          obtain ⟨found, hfind, hne, hsome⟩ :=
            find_nameField h hlast (List.cons_ne_nil c _) htoken
          have hloop : ∃ r, Yields (fun n => (writeBootEntry entries
                (nameField (c :: start.takeWhile fun c => !isControl c)) found).elim (some none)
                  fun entries => readList m n (start.dropWhile fun c => !isControl c) entries base)
                    r ∧
              Reads files ((c :: start.takeWhile fun c => !isControl c) ::
                (Tokens.tokens isControl (start.dropWhile fun c => !isControl c)).filter
                  Udnl.isListed) entries (Udnl.baseFrom baseOf
                    (Tokens.tokens isControl (start.dropWhile fun c => !isControl c)) base) r := by
            cases found with
            | none =>
              exact ⟨none, Yields.const none, .stop (.inl fun h =>
                Bool.false_ne_true (hsome.mpr h))⟩
            | some module =>
              rw [writeBootEntry]
              by_cases hfull : kBootListMax ≤ entries.length
              · rw [if_pos (.inr hfull)]
                exact ⟨none, Yields.const none, .stop (.inr hfull)⟩
              · rw [if_neg (not_or_intro (hne module rfl) hfull)]
                obtain ⟨r, hyields, hr⟩ := hread (entries ++
                  [⟨nameField (c :: start.takeWhile fun c => !isControl c), module.address⟩]) base
                exact ⟨r, hyields, hr.cons (hsome.mp rfl) (by omega)⟩
          obtain ⟨r, hyields, hr⟩ := hloop
          refine ⟨r, Yields.succ rfl (fun n => ?_) (Yields.bind hfind
            (k := fun n found => (writeBootEntry entries
              (nameField (c :: start.takeWhile fun c => !isControl c)) found).elim (some none)
                fun entries => readList m n (start.dropWhile fun c => !isControl c) entries base)
            hyields), hr⟩
          rw [readList, hdrop]
          exact (if_neg hat).trans (if_neg hhash)

/-- With hexadecimal digits, adding one is setting its bits. -/
theorem baseOf_eq {digits : List UInt8} (h : ∀ c ∈ digits, Udnl.hexDigit c.toNat < 16) :
    baseOf digits = Udnl.listBaseOf digits := by
  have hdigit : ∀ base d, d < 16 → add32 (base <<< 4 % 2 ^ 32) d = base <<< 4 % 2 ^ 32 ||| d := by
    intro base d hd
    have hlow : base <<< 4 % 2 ^ 32 = (base % 2 ^ 28) <<< 4 := by
      simp only [Nat.shiftLeft_eq]
      omega
    rw [hlow, ← Nat.shiftLeft_add_eq_or_of_lt (by omega), Nat.shiftLeft_eq]
    exact add32_eq (by omega)
  exact List.foldl_ext _ _ 0 fun base c hc => hdigit base _ (h c hc)

theorem baseFrom_eq {tokens : List (List UInt8)} (base : ℕ)
    (h : ∀ t ∈ tokens, t.head? = some 0x40 → ∀ c ∈ t.tail, Udnl.hexDigit c.toNat < 16) :
    Udnl.baseFrom baseOf tokens base = Udnl.baseFrom Udnl.listBaseOf tokens base :=
  List.foldl_ext _ _ base fun _ t ht =>
    ite_congr rfl (fun hat => baseOf_eq (h t ht hat)) fun _ => rfl

/-- Of a row's bytes the field has the first ones. -/
theorem take_nameRow (token : List UInt8) :
    (Udnl.nameRow token).take kNameLength = nameField token := by
  refine List.ext_getElem? fun i => ?_
  rcases Nat.lt_or_ge i kNameLength with hi | hi
  · have hi' : i < kNameLength + 1 := Nat.lt_succ_of_lt hi
    rw [List.getElem?_take_of_lt hi, Udnl.nameRow, List.getElem?_map, List.getElem?_range hi',
      nameField, padName_getElem? hi, Option.map_some, List.getD_eq_getElem?_getD,
      List.getD_eq_getElem?_getD, List.getElem?_take_of_lt hi]
  · have hfield := length_padName (List.length_take_le kNameLength token)
    rw [List.getElem?_eq_none (by rw [List.length_take]; omega), nameField,
      List.getElem?_eq_none (by omega)]

end Iopboot

/-- A name of the tool's in a field of ten bytes. -/
def Iopmerge.nameField (name : List Char) : List UInt8 :=
  Iopboot.nameField (name.map fun c => UInt8.ofNat c.toNat)

/-- A name's field is the same from its text as from its bytes. -/
theorem Iopmerge.nameField_text {token : List UInt8} (h : ∀ c ∈ token, c < 0x80) :
    Iopmerge.nameField (Romdir.text token) = Iopboot.nameField token := by
  have hmap : (Romdir.text token).map (fun c => UInt8.ofNat c.toNat) = token := by
    rw [Romdir.text, List.map_map]
    refine (List.map_congr_left fun c hc => ?_).trans (List.map_id token)
    have hlt : c.toNat < 128 := UInt8.lt_iff_toNat_lt.mp (h c hc)
    rw [Function.comp_apply, Romdir.toNat_decode hlt, UInt8.ofNat_toNat]
    rfl
  rw [Iopmerge.nameField, hmap]

/-! ### The three readers -/

variable {m : Ram} {files : List File} {image text : List UInt8}

/-- The names that `IOPBOOT` and `UDNL` find in a text, in fields of ten bytes. -/
def fieldsOf (text : List UInt8) : List (List UInt8) :=
  ((Tokens.tokens Iopboot.isControl text).filter Udnl.isListed).map Iopboot.nameField

theorem tokens_isControl (hall : ∀ c ∈ text, c < 0x80) :
    Tokens.tokens Udnl.isControl text = Tokens.tokens Iopboot.isControl text := by
  refine Tokens.tokens_congr fun c hc => decide_eq_decide.mpr ?_
  have hlt : c.toNat < 128 := UInt8.lt_iff_toNat_lt.mp (hall c hc)
  omega

/-- The tool reads the same names where the only other characters are white space. -/
theorem Iopmerge.parseBootConfig_fields (hall : ∀ c ∈ text, c < 0x80)
    (hhead : ∀ t ∈ Tokens.tokens Iopboot.isControl text, t.head? ≠ some 0x21)
    (hspace : ∀ c ∈ text, isSeparator c ∨ 0x21 ≤ c.toNat) :
    (parseBootConfig text).map Iopmerge.nameField = fieldsOf text := by
  have hplain : ∀ c ∈ text, isSeparator c ∨ 0x21 ≤ c.toNat ∧ c.toNat < 0x80 := fun c hc =>
    (hspace c hc).imp_right fun hle => ⟨hle, UInt8.lt_iff_toNat_lt.mp (hall c hc)⟩
  have htokens : Tokens.tokens Iopboot.isControl text = Tokens.tokens isSeparator text := by
    refine Tokens.tokens_congr fun c hc => decide_eq_decide.mpr ?_
    rcases hplain c hc with hp | hp
    · simp only [isSeparator, decide_eq_true_eq] at hp
      omega
    · omega
  rw [fieldsOf, htokens]
  rw [htokens] at hhead
  rw [parseBootConfig_of hplain hhead, List.map_map]
  refine List.map_congr_left fun t ht => nameField_text fun c hc => ?_
  exact hall c ((Tokens.mem_of_mem_tokens (List.mem_filter.mp ht).1).2 c hc).1

/-- A boot list of characters below 0x80, with no directive of `UDNL`'s own, has one meaning.
`IOPBOOT` resolves its names one for one unless `rom0` lacks one or there are more than 64, and then
it stops; `UDNL` reads the first 64; the tool reads them all where the only other characters are
white space. The base is the same where the digits are hexadecimal and none comes after the 64th
name. -/
theorem boot_list_has_one_meaning (h : Placed m Iopboot.kRomSearchStart files image)
    (hlast : Iopboot.kRomSearchStart + offset files 1 < Iopboot.kRomSearchEnd)
    (hall : ∀ c ∈ text, c < 0x80)
    (hhead : ∀ t ∈ Tokens.tokens Iopboot.isControl text, t.head? ≠ some 0x21) :
    ∃ boot rows listBase,
      Yields (fun n => Iopboot.readList m n text [] 0) boot ∧
      Yields (fun n => Udnl.readNames n text [] 0) (rows, listBase) ∧
      (boot.isSome ↔ (∀ t ∈ (Tokens.tokens Iopboot.isControl text).filter Udnl.isListed,
        ∃ f ∈ files, f.name = t.take kNameLength) ∧
          (fieldsOf text).length ≤ Iopboot.kBootListMax) ∧
      (∀ o, boot = some o → o.1.map Iopboot.Listed.name = fieldsOf text) ∧
      rows.map (List.take kNameLength) = (fieldsOf text).take Udnl.kNamesMax ∧
      ((∀ c ∈ text, isSeparator c ∨ 0x21 ≤ c.toNat) →
        (parseBootConfig text).map Iopmerge.nameField = fieldsOf text) ∧
      ((∀ t ∈ Tokens.tokens Iopboot.isControl text, t.head? = some 0x40 →
          ∀ c ∈ t.tail, Udnl.hexDigit c.toNat < 16) →
        (∀ before after, Tokens.tokens Iopboot.isControl text = before ++ after →
          Udnl.kNamesMax ≤ (before.filter Udnl.isListed).length →
            ∀ t ∈ after, t.head? ≠ some 0x40) →
        ∀ o, boot = some o → o.2 = listBase) := by
  have htokens := tokens_isControl hall
  obtain ⟨boot, hboot, hreads⟩ :=
    Iopboot.readList_yields h hlast (Nat.le_refl text.length) hall [] 0
  have hudnl := Udnl.readNames_yields [] 0 (Nat.le_refl text.length) (by rwa [htokens])
  have hrows := Udnl.readTokens_fst (Tokens.tokens Iopboot.isControl text) [] 0
  rw [htokens] at hudnl
  refine ⟨boot, _, _, hboot, hudnl, ?_, ?_, ?_, ?_, ?_⟩
  · rw [hreads.isSome_iff, fieldsOf, List.length_map, List.length_nil, Nat.zero_add]
    refine and_congr_right fun _ => ⟨fun hle => ?_, fun hle _ => hle⟩
    by_cases hnil : (Tokens.tokens Iopboot.isControl text).filter Udnl.isListed = []
    · rw [hnil]
      exact Nat.zero_le _
    · exact hle hnil
  · intro o ho
    exact (hreads.names_eq o ho).1
  · rw [hrows, List.nil_append, List.length_nil, Nat.sub_zero, List.map_map, fieldsOf,
      ← List.map_take]
    exact List.map_congr_left fun t _ => Iopboot.take_nameRow t
  · exact Iopmerge.parseBootConfig_fields hall hhead
  · intro hhex hroom o ho
    rw [(hreads.names_eq o ho).2, Iopboot.baseFrom_eq 0 hhex]
    refine (Udnl.readTokens_snd _ [] 0 fun before after heq hle => hroom before after heq ?_).symm
    simpa using hle

/-- A name that is too long for a field. -/
def longName : List UInt8 := [0x41, 0x42, 0x43, 0x44, 0x45, 0x46, 0x47, 0x48, 0x49, 0x4A, 0x4B]

/-- A boot list of a base, a token that is no name, and two names. -/
def mixedList : List UInt8 :=
  [0x40, 0x38, 0x30, 0x30, 0x0A, 0x23, 0x78, 0x0A, 0x41, 0x0A] ++ longName

/-- A list with a comment, an address and a long name is read alike by all the readers. -/
theorem boot_list_has_one_meaning_small :
    ∃ boot rows listBase,
      Yields (fun n => Iopboot.readList (romRam twoNames) n mixedList [] 0) boot ∧
      Yields (fun n => Udnl.readNames n mixedList [] 0) (rows, listBase) ∧
      boot.map (fun o => (o.1.map Iopboot.Listed.name, o.2)) =
        some ([Iopboot.nameField [0x41], longName.take kNameLength], 0x800) ∧
      rows.map (List.take kNameLength) = [Iopboot.nameField [0x41], longName.take kNameLength] ∧
      listBase = 0x800 ∧
      (parseBootConfig mixedList).map Iopmerge.nameField =
        [Iopboot.nameField [0x41], longName.take kNameLength] := by
  have himage : (Mkromdir.assemble (smallRom twoNames) none).isSome := by decide +kernel
  have hall : ∀ c ∈ mixedList, c < 0x80 := by decide +kernel
  have hspace : ∀ c ∈ mixedList, isSeparator c ∨ 0x21 ≤ c.toNat := by decide +kernel
  have htokens : Tokens.tokens Iopboot.isControl mixedList =
      [[0x40, 0x38, 0x30, 0x30], [0x23, 0x78], [0x41], longName] := by
    decide +kernel
  obtain ⟨boot, rows, listBase, hboot, hudnl, hsome, hnames, hrows, htool, hbase⟩ :=
    boot_list_has_one_meaning (placed_romSource isBootList_twoNames himage (by decide +kernel))
      (by decide +kernel) hall (by decide +kernel)
  have hfields : fieldsOf mixedList = [Iopboot.nameField [0x41], longName.take kNameLength] := by
    rw [fieldsOf, htokens]
    decide
  rw [hfields] at hsome hnames hrows htool
  have hfound := hsome.mpr ⟨by rw [htokens]; decide +kernel, by decide⟩
  obtain ⟨o, rfl⟩ := Option.isSome_iff_exists.mp hfound
  have hsame : o.2 = listBase := by
    refine hbase (by rw [htokens]; decide +kernel) (fun before after heq hle => ?_) o rfl
    have hlen := congrArg List.length (htokens.symm.trans heq)
    have hfilter := List.length_filter_le Udnl.isListed before
    rw [List.length_append] at hlen
    simp only [Udnl.kNamesMax, List.length_cons, List.length_nil] at hle hlen
    omega
  have hvalue : listBase = 0x800 := by
    have hread : Udnl.readNames 8 mixedList [] 0 =
        some ([Udnl.nameRow [0x41], Udnl.nameRow longName], 0x800) := by decide +kernel
    exact congrArg Prod.snd (hudnl.eq hread).symm
  refine ⟨some o, rows, listBase, hboot, hudnl, ?_, hrows, hvalue, htool hspace⟩
  rw [Option.map_some, hnames o rfl, hsame, hvalue]

/-- What `UDNL` takes for a directive is a name to `IOPBOOT`, whose grammar has none. -/
theorem directive_is_a_name :
    (∃ o, Yields (fun n => Iopboot.readList (romRam twoNames) n [0x21, 0x61] [] 0) (some o) ∧
      o.1.map Iopboot.Listed.name = [Iopboot.nameField [0x21, 0x61]]) ∧
      Yields (fun n => Udnl.readNames n [0x21, 0x61] [] 0) ([], 0) := by
  have himage : (Mkromdir.assemble (smallRom twoNames) none).isSome := by decide +kernel
  have hplaced := placed_romSource isBootList_twoNames himage (by decide +kernel)
  have hall : ∀ c ∈ ([0x21, 0x61] : List UInt8), c < 0x80 := by decide +kernel
  obtain ⟨boot, hboot, hreads⟩ := Iopboot.readList_yields hplaced (by decide +kernel)
    (Nat.le_refl 2) hall [] 0
  have htokens : Tokens.tokens Iopboot.isControl ([0x21, 0x61] : List UInt8) = [[0x21, 0x61]] := by
    decide +kernel
  rw [htokens] at hreads
  obtain ⟨o, rfl⟩ := Option.isSome_iff_exists.mp
    (hreads.isSome_iff.mpr ⟨by decide +kernel, fun _ => by decide⟩)
  refine ⟨⟨o, hboot, (hreads.names_eq o rfl).1⟩, ?_⟩
  exact Yields.succ rfl (fun n => rfl) (Yields.succ rfl (fun n => rfl) (Yields.const _))

end PS2Bios.Rom
