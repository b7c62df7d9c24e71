import Mathlib.Data.List.Forall2
import PS2Bios.Rom.Iopmerge
import PS2Bios.Rom.UdnlMerge

/-!
# The module merges a pool

Over sources that are archives, `UDNL` computes what a pool is for, as far as it has room for names:
its loops read the names off the boot list, keep a champion for each, and write to the new boot
list without disturbing a source.
-/

namespace PS2Bios.Rom

open Bytes Iopmerge

namespace Udnl

variable {m m' : Ram} {low base label i : ℕ} {name image text : List UInt8} {files : List File}
  {f : File} {archive : Archive} {s : List UInt8 × Member} {pool : List (List UInt8 × Member)}
  {archives : List Archive}

/-! ### An open source -/

/-- A source that `UDNL` has opened: its image is in memory, not below `low`. -/
def Opened (m : Ram) (low : ℕ) (s : List UInt8 × Member) (archive : Archive) : Prop :=
  ∃ base, low ≤ base ∧ Placed m base s.2.files s.1 ∧ IsOpen s.2.files base s.2.label archive

/-- Writing below a source does not disturb it. -/
theorem Opened.congr (h : Opened m low s archive) (hm : ∀ x, low ≤ x → m' x = m x) :
    Opened m' low s archive := by
  obtain ⟨base, hle, hplaced, hopen⟩ := h
  refine ⟨base, hle, ⟨hplaced.archive, hplaced.first, ?_, hplaced.base_pos, hplaced.fits⟩, hopen⟩
  exact hplaced.at_image.congr fun x hx _ => hm x (Nat.le_trans hle hx)

theorem Opened.label_eq (h : Opened m low s archive) : archive.label = s.2.label := by
  obtain ⟨base, -, -, hopen⟩ := h
  exact hopen.label_eq

/-- A lookup answers with the version the archive has of the name, and the file's bytes. -/
theorem Opened.lookup (h : Opened m low s archive) (hs : IsSource s.1 s.2) (hname : IsName name) :
    (∃ f c, s.2.file name = some f ∧ s.2.version name = some c.version ∧
      Yields (lookup m archive name) (some c) ∧ c.file.size = f.data.length ∧
      At m c.file.address f.data) ∨
    s.2.file name = none ∧ s.2.version name = none ∧ Yields (lookup m archive name) none := by
  obtain ⟨base, -, hplaced, hopen⟩ := h
  have hlookup := lookup_yields hplaced hopen hs.extinfo hname
  rcases exists_isFirst_or s.2.files name with ⟨i, f, hf⟩ | hnone
  · obtain ⟨version, hversion, hyields⟩ := hlookup.1 i f hf
    refine .inl ⟨f, _, file_eq_some hf, ?_, hyields, rfl, hplaced.file_at hf.get⟩
    rw [Member.version, file_eq_some hf]
    rcases hversion with ⟨⟨j, x, hx⟩, rfl⟩ | ⟨hnonex, rfl⟩
    · rw [file_eq_some hx]
      rfl
    · rw [file_eq_none hnonex]
      rfl
  · refine .inr ⟨file_eq_none hnone, ?_, hlookup.2 hnone⟩
    rw [Member.version, file_eq_none hnone]
    rfl

theorem getD_nameRow {k : ℕ} (hk : k < kNameLength) : (nameRow name).getD k 0 = name.getD k 0 := by
  rw [nameRow, List.getD_eq_getElem _ _ (by simp only [List.length_map, List.length_range]; omega),
    List.getElem_map, List.getElem_range]

/-- A row compares as the token it holds. -/
theorem lookup_nameRow : lookup m archive (nameRow name) = lookup m archive name := by
  have hbytes : isBytes m (nameRow name) = isBytes m name := by
    funext entry
    refine decide_eq_decide.mpr (forall₂_congr fun k hk => ?_)
    rw [getD_nameRow hk]
  funext n
  rw [lookup, lookup, locate, locate, hbytes]

/-! ### The order -/

/-- Whether a token is a name: it begins with neither `@` nor `#`. -/
def isListed (t : List UInt8) : Bool := t.head? ≠ some 0x40 ∧ t.head? ≠ some 0x23

/-- The base a list of tokens leaves, given what the digits after an `@` come to. -/
def baseFrom (digits : List UInt8 → ℕ) (tokens : List (List UInt8)) (base : ℕ) : ℕ :=
  tokens.foldl (fun base t => if t.head? = some 0x40 then digits t.tail else base) base

/-- What is read off a list of tokens, as far as there is room for names. -/
def readTokens : List (List UInt8) → List (List UInt8) → ℕ → List (List UInt8) × ℕ
  | [], names, listBase => (names, listBase)
  | t :: tokens, names, listBase =>
    if names.length < kNamesMax then
      if t.head? = some 0x40 then readTokens tokens names (listBaseOf t.tail)
      else if t.head? = some 0x23 then readTokens tokens names listBase
      else readTokens tokens (names ++ [nameRow t]) listBase
    else (names, listBase)

/-- The loop reads the tokens of a text without directives. -/
theorem readNames_yields (names : List (List UInt8)) (listBase : ℕ) {k : ℕ} {rest : List UInt8}
    (hk : rest.length ≤ k) (hhead : ∀ t ∈ Tokens.tokens isControl rest, t.head? ≠ some 0x21) :
    Yields (fun n => readNames n rest names listBase)
      (readTokens (Tokens.tokens isControl rest) names listBase) := by
  -- on the length of what is left of the list
  induction k generalizing rest names listBase with
  | zero =>
    obtain rfl := List.eq_nil_of_length_eq_zero (Nat.le_zero.mp hk)
    refine Yields.succ rfl (fun n => ?_) (Yields.const _)
    rw [readNames, if_neg fun h => h.1 rfl]
    rfl
  | succ k ih =>
    rcases Tokens.tokens_cases isControl rest with
      ⟨hdrop, htokens⟩ | ⟨c, start, hdrop, -, htake, hnext, htokens, hlen⟩
    · rw [htokens]
      refine Yields.succ rfl (fun n => ?_) (Yields.const _)
      rw [readNames]
      simp only [hdrop, List.takeWhile_nil, ite_self]
      rfl
    · have hrest : rest ≠ [] := by
        rintro rfl
        exact absurd hlen (Nat.not_lt_zero _)
      have hread := fun names listBase =>
        @ih names listBase (start.dropWhile fun c => !isControl c) (by omega) fun t ht =>
          hhead t (htokens ▸ .tail _ ht)
      rw [htokens, readTokens, List.head?_cons, List.tail_cons]
      -- there is room for the name, or the reading has stopped
      by_cases hroom : names.length < kNamesMax
      · have hbang : ¬directive c := by
          have hne := hhead _ (htokens ▸ List.mem_cons_self)
          simpa [directive] using hne
        have hloop : ∀ n, readNames (n + 1) rest names listBase =
            if c = 0x40 then readNames n (start.dropWhile fun c => !isControl c) names
              (listBaseOf (start.takeWhile fun c => !isControl c))
            else if c = 0x23 then
              readNames n (start.dropWhile fun c => !isControl c) names listBase
            else readNames n (start.dropWhile fun c => !isControl c)
              (names ++ [nameRow (c :: start.takeWhile fun c => !isControl c)]) listBase := by
          intro n
          rw [readNames, if_pos ⟨hrest, hroom⟩]
          dsimp only
          rw [hdrop, htake, hnext]
          simp only [hbang]
          rfl
        rw [if_pos hroom]
        -- an address, a comment, or a name
        by_cases hat : c = 0x40
        · rw [if_pos (congrArg some hat)]
          exact Yields.succ rfl (fun n => by rw [hloop, if_pos hat]) (hread _ _)
        · rw [if_neg fun h => hat (Option.some.inj h)]
          by_cases hhash : c = 0x23
          · rw [if_pos (congrArg some hhash)]
            exact Yields.succ rfl (fun n => by rw [hloop, if_neg hat, if_pos hhash]) (hread _ _)
          · rw [if_neg fun h => hhash (Option.some.inj h)]
            exact Yields.succ rfl (fun n => by rw [hloop, if_neg hat, if_neg hhash]) (hread _ _)
      · rw [if_neg hroom]
        refine Yields.succ rfl (fun n => ?_) (Yields.const _)
        rw [readNames, if_neg fun h => hroom h.2]

/-- The names are those of the text, as many as there is room for. -/
theorem readTokens_fst (tokens names : List (List UInt8)) (listBase : ℕ) :
    (readTokens tokens names listBase).1 =
      names ++ ((tokens.filter isListed).take (kNamesMax - names.length)).map nameRow := by
  induction tokens generalizing names listBase with
  | nil => simp [readTokens]
  | cons t tokens ih =>
    rw [readTokens]
    split
    · next hroom =>
      split
      · next hat =>
        rw [ih, List.filter_cons_of_neg (by simp [isListed, hat])]
      · next hat =>
        split
        · next hhash =>
          rw [ih, List.filter_cons_of_neg (by simp [isListed, hhash])]
        · next hhash =>
          obtain ⟨room, hroom⟩ : ∃ room, kNamesMax - names.length = room + 1 :=
            ⟨kNamesMax - names.length - 1, by omega⟩
          rw [ih, List.filter_cons_of_pos (by simp [isListed, hat, hhash]), List.length_append,
            List.length_singleton, ← Nat.sub_sub, hroom, Nat.add_sub_cancel, List.take_succ_cons,
            List.map_cons, List.append_assoc]
          rfl
    · next hfull =>
      have hzero : kNamesMax - names.length = 0 := by omega
      rw [hzero]
      simp

/-- Without a directive the base stays. -/
theorem baseFrom_eq_self {digits : List UInt8 → ℕ} {tokens : List (List UInt8)} (base : ℕ)
    (h : ∀ t ∈ tokens, t.head? ≠ some 0x40) : baseFrom digits tokens base = base := by
  induction tokens with
  | nil => rfl
  | cons t tokens ih =>
    rw [baseFrom, List.foldl_cons, if_neg (h t List.mem_cons_self)]
    exact ih fun t ht => h t (.tail _ ht)

/-- The base is the text's when no base comes after the last name there is room for. -/
theorem readTokens_snd (tokens names : List (List UInt8)) (listBase : ℕ)
    (h : ∀ before after, tokens = before ++ after →
      kNamesMax ≤ names.length + (before.filter isListed).length →
        ∀ t ∈ after, t.head? ≠ some 0x40) :
    (readTokens tokens names listBase).2 = baseFrom listBaseOf tokens listBase := by
  induction tokens generalizing names listBase with
  | nil => rfl
  | cons t tokens ih =>
    rw [readTokens]
    split
    · rw [baseFrom, List.foldl_cons]
      split
      · next hat =>
        refine ih _ _ fun before after heq hle => h (t :: before) after (by rw [heq]; rfl) ?_
        rwa [List.filter_cons_of_neg (by simp [isListed, hat])]
      · next hat =>
        split
        · next hhash =>
          refine ih _ _ fun before after heq hle => h (t :: before) after (by rw [heq]; rfl) ?_
          rwa [List.filter_cons_of_neg (by simp [isListed, hhash])]
        · next hhash =>
          refine ih _ _ fun before after heq hle => h (t :: before) after (by rw [heq]; rfl) ?_
          rw [List.filter_cons_of_pos (by simp [isListed, hat, hhash]), List.length_cons]
          rw [List.length_append, List.length_singleton] at hle
          omega
    · next hfull =>
      exact (baseFrom_eq_self listBase (h [] (t :: tokens) rfl (by simpa using hfull))).symm

/-- A slice where a list lies holds the list. -/
theorem bytesOf_eq {address : ℕ} {l : List UInt8} (h : At m address l) :
    bytesOf m ⟨address, l.length⟩ = l := by
  refine List.ext_getElem? fun k => ?_
  rw [bytesOf, List.getElem?_map]
  by_cases hk : k < l.length
  · rw [List.getElem?_range hk, List.getElem?_eq_getElem hk, Option.map_some,
      h k _ (List.getElem?_eq_getElem hk)]
  · rw [List.getElem?_eq_none (by simpa using hk), List.getElem?_eq_none (by omega)]
    rfl

/-- A boot list is read as the first of the names it has. -/
theorem readNames_bootList (h : IsBootList text) :
    ∃ listBase, Yields (fun n => readNames n text [] 0)
      (((bootNames text).take kNamesMax).map nameRow, listBase) := by
  have htokens : Tokens.tokens isControl text = Tokens.tokens isSeparator text := by
    refine Tokens.tokens_congr fun c hc => decide_eq_decide.mpr ?_
    rcases h.printable c hc with hp | hp
    · simp only [isSeparator, decide_eq_true_eq] at hp
      omega
    · omega
  have hyields := readNames_yields [] 0 (Nat.le_refl text.length)
    (by rw [htokens]; exact h.head_ne)
  have hnames := readTokens_fst (Tokens.tokens isControl text) [] 0
  rw [htokens] at hyields hnames
  exact ⟨(readTokens (Tokens.tokens isSeparator text) [] 0).2,
    hyields.congr_eq (Prod.ext hnames rfl)⟩

/-- `resolveOrder` takes the order from the newest archive with a boot list. -/
theorem resolveOrder_yields (hpool : ∀ s ∈ pool, IsSource s.1 s.2)
    (hopen : List.Forall₂ (Opened m low) pool archives) :
    ∃ order, Yields (fun n => resolveOrder m n archives) order ∧
      order.map (fun o => (o.label, o.names)) = (orderFrom (pool.map Prod.snd)).map
        fun o => (o.1, ((bootNames o.2).take kNamesMax).map nameRow) := by
  induction hopen with
  | nil => exact ⟨none, Yields.const none, rfl⟩
  | @cons s archive pool archives hs hrest ih =>
    have hsource := hpool s List.mem_cons_self
    rcases hs.lookup hsource isName_kIopbtconf with
      ⟨f, c, hfile, -, hyields, hsize, hat⟩ | ⟨hfile, -, hyields⟩
    · obtain ⟨i, hf⟩ := exists_isFirst_of_file hfile
      obtain ⟨listBase, hread⟩ := readNames_bootList (hsource.bootList i f hf)
      refine ⟨some ⟨archive.label, ((bootNames f.data).take kNamesMax).map nameRow, listBase⟩,
        hyields.bind ?_, ?_⟩
      · have hbytes : bytesOf m c.file = f.data := by
          rw [show c.file = ⟨c.file.address, f.data.length⟩ by rw [← hsize]]
          exact bytesOf_eq hat
        simp only [hbytes]
        exact hread.map fun read => some (Order.mk archive.label read.1 read.2)
      · rw [List.map_cons, orderFrom, hfile, hs.label_eq]
        rfl
    · obtain ⟨order, horder, heq⟩ := ih fun t ht => hpool t (.tail _ ht)
      refine ⟨order, hyields.bind horder, ?_⟩
      rw [List.map_cons, orderFrom, hfile]
      exact heq

/-! ### The winners -/

/-- A winner as a choice. -/
def Winner.choice (w : Winner) : Choice := ⟨w.label, w.best.version⟩

/-- The winner of a name is chosen among the archives that have it. -/
theorem winnerOf_yields (hpool : ∀ s ∈ pool, IsSource s.1 s.2)
    (hopen : List.Forall₂ (Opened m low) pool archives) (hname : IsName name)
    (winner : Option Winner) :
    ∃ winner', Yields (fun n => winnerOf m (nameRow name) n archives winner) winner' ∧
      winner'.map Winner.choice =
        (candidates (pool.map Prod.snd) name).foldl better (winner.map Winner.choice) := by
  induction hopen generalizing winner with
  | nil => exact ⟨winner, Yields.const winner, rfl⟩
  | @cons s archive pool archives hs hrest ih =>
    have hsource := hpool s List.mem_cons_self
    have ih := fun winner => ih (fun t ht => hpool t (.tail _ ht)) winner
    rcases hs.lookup hsource hname with
      ⟨f, c, -, hversion, hyields, -, -⟩ | ⟨-, hversion, hyields⟩
    · have hall : (winner.map Winner.choice).all (fun d => decide (d.version < c.version)) =
          winner.all fun w => decide (w.best.version < c.version) := by
        cases winner <;> rfl
      rw [List.map_cons, candidates_cons_some hversion, List.foldl_cons, better, hall]
      by_cases hbetter : winner.all fun w => decide (w.best.version < c.version)
      · obtain ⟨winner', hwinner, heq⟩ := ih (some ⟨archive.label, c⟩)
        refine ⟨winner', Yields.bind (by rw [lookup_nameRow]; exact hyields) ?_, ?_⟩
        · simp only [hbetter, if_true]
          exact hwinner
        · rw [heq, if_pos hbetter, Option.map_some, Winner.choice, hs.label_eq]
      · obtain ⟨winner', hwinner, heq⟩ := ih winner
        refine ⟨winner', Yields.bind (by rw [lookup_nameRow]; exact hyields) ?_, ?_⟩
        · simp only [hbetter]
          exact hwinner
        · rw [heq, if_neg hbetter]
    · obtain ⟨winner', hwinner, heq⟩ := ih winner
      refine ⟨winner', Yields.bind (by rw [lookup_nameRow]; exact hyields) ?_, ?_⟩
      · exact hwinner
      rw [heq, List.map_cons, candidates_cons_none hversion]

/-- Every name gets the pool's choice, or the module stops. -/
theorem mergeNames_yields (hpool : ∀ s ∈ pool, IsSource s.1 s.2)
    (hopen : List.Forall₂ (Opened m low) pool archives) {names : List (List UInt8)}
    (hnames : ∀ name ∈ names, IsName name) {list : ℕ} (hlist : list + 4 * names.length ≤ low) :
    ∃ winners, Yields (fun n => mergeNames n archives m list (names.map nameRow)) winners ∧
      winners.map (fun ws => names.zip (ws.map Winner.choice)) =
        merged (pool.map Prod.snd) names := by
  unfold merged
  induction names generalizing m list with
  | nil => exact ⟨some [], Yields.const _, rfl⟩
  | cons name names ih =>
    obtain ⟨winner, hwinner, heq⟩ :=
      winnerOf_yields hpool hopen (hnames name List.mem_cons_self) none
    rw [Option.map_none, foldl_better] at heq
    match winner with
    | none =>
      refine ⟨none, hwinner.bind (Yields.const none), ?_⟩
      rw [List.mapM_cons, ← heq]
      rfl
    | some w =>
      rw [List.length_cons] at hlist
      have hframe : ∀ x, low ≤ x → writeWord m list w.best.file.address x = m x := fun x hx =>
        writeWord_of_not (by omega)
      obtain ⟨winners, hwinners, hrest⟩ := ih (hopen.imp fun _ _ h => h.congr hframe)
        (fun n hn => hnames n (.tail _ hn)) (show list + 4 + 4 * names.length ≤ low by omega)
      refine ⟨winners.map (w :: ·), hwinner.bind (hwinners.map _), ?_⟩
      rw [List.mapM_cons, ← heq, ← hrest]
      cases winners <;> rfl

/-! ### The sources -/

/-- The room that sources take in the buffer. -/
def room (pool : List (List UInt8 × Member)) : ℕ := (pool.map fun s => alignUp s.1.length).sum

/-- A source read into memory is an archive there. -/
theorem placed_write (hs : IsSource s.1 s.2) {cursor : ℕ} (hpos : 0 < cursor)
    (hfits : cursor + alignUp s.1.length + 512 ≤ 2 ^ 32) :
    Placed (write m cursor s.1) cursor s.2.files s.1 ∧
      cursor + offset s.2.files 1 + kEntrySize ≤ cursor + s.1.length := by
  obtain ⟨rest, hrest⟩ := hs.archive.begins
  have hlen : (layout (s.2.files.map File.data)).length ≤ s.1.length := by
    rw [← hrest, List.length_append]
    exact Nat.le_add_right _ _
  have htotal := offset_length_le s.2.files
  refine ⟨⟨hs.archive, hs.first, at_write, hpos, ?_⟩, ?_⟩
  · unfold alignUp at htotal hfits
    omega
  · obtain ⟨f, hf, -, hdata⟩ := hs.archive.romdir
    have hle := offset_add_length_le hf
    rw [hdata, length_tableBytes hs.archive.isName] at hle
    simp only [kEntrySize] at hle ⊢
    omega

/-- All sources are read in, each above the one before, and opened. -/
theorem readSources_yields (hpool : ∀ s ∈ pool, IsSource s.1 s.2) {cursor : ℕ} (hpos : 0 < cursor)
    (hfits : cursor + room pool + 512 ≤ 2 ^ 32) :
    ∃ m' archives,
      Yields (fun n => readSources n (pool.map fun s => (s.2.label, s.1)) m cursor)
        (m', archives) ∧
      List.Forall₂ (Opened m' cursor) pool archives ∧
      ∀ x, x < cursor ∨ cursor + room pool ≤ x → m' x = m x := by
  induction pool generalizing m cursor with
  | nil => exact ⟨m, [], Yields.const _, .nil, fun _ _ => rfl⟩
  | cons s pool ih =>
    have hs := hpool s List.mem_cons_self
    have hroom : room (s :: pool) = alignUp s.1.length + room pool := List.sum_cons
    have hup := le_alignUp s.1.length
    have halign : add32 cursor (align16 s.1.length) = cursor + alignUp s.1.length := by
      rw [align16_mod]
      omega
    obtain ⟨hplaced, hlast⟩ := placed_write (m := m) hs hpos (by omega)
    obtain ⟨archive, hopen, hyields⟩ := openArchive_yields hplaced s.2.label hlast
    obtain ⟨m', archives, hread, hopened, hframe⟩ :=
      ih (m := write m cursor s.1) (fun t ht => hpool t (.tail _ ht))
        (show 0 < cursor + alignUp s.1.length by omega) (by omega)
    refine ⟨m', archive :: archives, ?_, .cons ⟨cursor, Nat.le_refl _, ?_, hopen⟩ ?_, ?_⟩
    · simp only [List.map_cons, readSources, halign, add32_eq (by omega :
        cursor + s.1.length < 2 ^ 32)]
      exact hyields.bind (hread.map fun read => (read.1, archive :: read.2))
    · refine ⟨hplaced.archive, hplaced.first, ?_, hplaced.base_pos, hplaced.fits⟩
      exact hplaced.at_image.congr fun x _ hx => hframe x (.inl (by omega))
    · exact hopened.imp fun t a ⟨base, hle, hrest⟩ => ⟨base, by omega, hrest⟩
    · intro x hx
      rw [hframe x (by omega), write_of_not (by omega)]

/-! ### The whole pass -/

/-- The name in a row, a C string. -/
def nameOf (row : List UInt8) : List UInt8 := row.takeWhile (· != 0)

/-- A row holds its name. -/
theorem nameOf_nameRow (hname : IsName name) : nameOf (nameRow name) = name := by
  have hlen := hname.length_le
  have hsplit : nameRow name = name ++ 0 :: List.replicate (kNameLength - name.length) 0 := by
    rw [← List.replicate_succ]
    refine List.ext_getElem? fun k => ?_
    rw [nameRow, List.getElem?_map]
    by_cases hk : k < kNameLength + 1
    · rw [List.getElem?_range hk, Option.map_some]
      by_cases hin : k < name.length
      · rw [List.getElem?_append_left hin, List.getD_eq_getElem _ _ hin,
          List.getElem?_eq_getElem hin]
      · rw [List.getElem?_append_right (by omega), List.getElem?_replicate, if_pos (by omega),
          List.getD_eq_default _ _ (by omega)]
    · rw [List.getElem?_eq_none (by simpa using hk), List.getElem?_eq_none (by
        simp only [List.length_append, List.length_replicate]
        omega)]
      rfl
  rw [nameOf, hsplit, List.takeWhile_append_of_pos fun c hc => by
    simpa using (hname.ascii c hc).1]
  simp

/-- What a merge comes to: where the order is from, and for each name the source and version. -/
def outcome (r : Order × List Winner) : ℕ × List (List Char × Choice) :=
  (r.1.label, (r.1.names.map fun row => Romdir.text (nameOf row)).zip (r.2.map Winner.choice))

/-- What is left to do when the sources have been read. -/
theorem moduleStart_of_read {buffer rom0 : ℕ} {named : List (ℕ × List UInt8)} {archive : Archive}
    {archives : List Archive} {r : Option (Order × List Winner)}
    (hopen : Yields (openArchive m kRomSearchStart kRomSearchEnd rom0) (some archive))
    (hgo : ¬(¬Measures named ∨ buffer = 0)) (hroom : buffer + kHeaderSize < 2 ^ 32)
    (hread : Yields (fun n => readSources n named
      (write m buffer (List.replicate kBlockSize 0)) (buffer + kHeaderSize)) (m', archives))
    (hr : Yields (fun n => (resolveOrder m' n (archive :: archives).reverse).bind fun
      | none => some none
      | some order =>
        (mergeNames n (archive :: archives).reverse m' (buffer + kBlockSize)
          (order.names.take (kListMax - 1))).map (Option.map (Prod.mk order))) r) :
    Yields (fun n => moduleStart m buffer rom0 named n) r := by
  have hheader : kHeaderSize = 0x420 := rfl
  have hblock : kBlockSize = 0x20 := rfl
  refine hopen.bind ?_
  simp only [if_neg hgo, add32_eq hroom, add32_eq (by omega : buffer + kBlockSize < 2 ^ 32)]
  exact hread.bind hr

/-- `UDNL` merges the pool over the names it has room for. -/
theorem moduleStart_yields (rom0 : List UInt8 × Member) (named : List (List UInt8 × Member))
    {buffer : ℕ} (hrom : Placed m kRomSearchStart rom0.2.files rom0.1)
    (hwindow : kRomSearchStart + offset rom0.2.files 1 + kEntrySize ≤ kRomSearchEnd)
    (hsources : ∀ s ∈ rom0 :: named, IsSource s.1 s.2) (hcount : named.length ≤ kSourcesMax)
    (hpos : 0 < buffer) (hroom : buffer + kHeaderSize + room named ≤ kRomSearchStart) :
    ∃ r, Yields (fun n => moduleStart m buffer rom0.2.label
        (named.map fun s => (s.2.label, s.1)) n) r ∧
      r.map outcome = (orderFrom ((rom0 :: named).reverse.map Prod.snd)).bind fun o =>
        (merged ((rom0 :: named).reverse.map Prod.snd) ((bootNames o.2).take kNamesMax)).map
          fun list => (o.1, list.map fun p => (Romdir.text p.1, p.2)) := by
  have hstart : kRomSearchStart = 0xBFC00000 := rfl
  have hheader : kHeaderSize = 0x420 := rfl
  have hblock : kBlockSize = 0x20 := rfl
  obtain ⟨archive, hopen, hyields⟩ := openArchive_yields hrom rom0.2.label hwindow
  obtain ⟨m', archives, hread, hopened, hframe⟩ :=
    readSources_yields (m := write m buffer (List.replicate kBlockSize 0))
      (fun s hs => hsources s (.tail _ hs)) (show 0 < buffer + kHeaderSize by omega)
      (by omega)
  -- the first source is where it was, the others above the header
  have hall : List.Forall₂ (Opened m' (buffer + kHeaderSize)) (rom0 :: named).reverse
      (archive :: archives).reverse := by
    refine List.forall₂_reverse_iff.mpr (.cons ⟨kRomSearchStart, by omega, ?_, hopen⟩ hopened)
    refine ⟨hrom.archive, hrom.first, ?_, hrom.base_pos, hrom.fits⟩
    refine hrom.at_image.congr fun x hx _ => ?_
    rw [hframe x (by omega), write_of_not]
    rw [List.length_replicate]
    omega
  have hpool : ∀ s ∈ (rom0 :: named).reverse, IsSource s.1 s.2 := fun s hs =>
    hsources s (List.mem_reverse.mp hs)
  obtain ⟨order, horder, heq⟩ := resolveOrder_yields hpool hall
  have hmeasures : Measures (named.map fun s => (s.2.label, s.1)) := by
    refine ⟨by rw [List.length_map]; exact hcount, fun p hp => ?_⟩
    obtain ⟨s, hs, rfl⟩ := List.mem_map.mp hp
    have hsource := hsources s (.tail _ hs)
    obtain ⟨f, hf, -, hdata⟩ := hsource.archive.romdir
    obtain ⟨rest, hrest⟩ := hsource.archive.begins
    have hle := offset_add_length_le hf
    rw [hdata, length_tableBytes hsource.archive.isName] at hle
    intro hnil
    rw [show s.1 = [] from hnil] at hrest
    rw [(List.append_eq_nil_iff.mp hrest).1] at hle
    simp only [kEntrySize, List.length_nil] at hle
    omega
  have hgo : ¬(¬Measures (named.map fun s => (s.2.label, s.1)) ∨ buffer = 0) := by
    rintro (h | h)
    · exact h hmeasures
    · omega
  have hwhole := fun r => @moduleStart_of_read m m' buffer rom0.2.label
    (named.map fun s => (s.2.label, s.1)) archive archives r hyields hgo (by omega) hread
  cases order with
  | none =>
    refine ⟨none, hwhole _ (horder.bind (Yields.const none)), ?_⟩
    cases hfrom : orderFrom ((rom0 :: named).reverse.map Prod.snd) with
    | none => rfl
    | some o =>
      rw [hfrom] at heq
      exact absurd heq (by simp)
  | some order =>
    obtain ⟨o, hfrom, ho⟩ := Option.map_eq_some_iff.mp heq.symm
    obtain ⟨hlabel, hnames⟩ := Prod.mk.inj ho
    have hisName : ∀ name ∈ (bootNames o.2).take kNamesMax, IsName name := by
      obtain ⟨k, a, f, hk, -, hfile, hdata, -⟩ := orderFrom_eq_some hfrom
      obtain ⟨s, hs, rfl⟩ := List.mem_map.mp (List.mem_of_getElem? hk)
      intro name hname
      obtain ⟨i, hf⟩ := exists_isFirst_of_file hfile
      have hlist := (hpool s hs).bootList i f hf
      rw [hdata] at hlist
      exact hlist.isName (List.mem_of_mem_take hname)
    have hlen : ((bootNames o.2).take kNamesMax).length ≤ 64 := List.length_take_le _ _
    obtain ⟨winners, hwinners, hmerged⟩ := mergeNames_yields hpool hall hisName
      (show buffer + kBlockSize + 4 * ((bootNames o.2).take kNamesMax).length ≤
        buffer + kHeaderSize by omega)
    have htake :
        order.names.take (kListMax - 1) = ((bootNames o.2).take kNamesMax).map nameRow := by
      rw [← hnames, List.take_of_length_le]
      rw [List.length_map]
      exact Nat.le_trans hlen (by decide)
    refine ⟨winners.map (Prod.mk order), hwhole _ (horder.bind ?_), ?_⟩
    · simp only [htake]
      exact hwinners.map _
    · rw [hfrom, Option.bind_some, ← hmerged, Option.map_map, Option.map_map]
      refine congrArg (Option.map · winners) (funext fun ws => ?_)
      have hrows : (order.names.map fun row => Romdir.text (nameOf row)) =
          ((bootNames o.2).take kNamesMax).map Romdir.text := by
        rw [← hnames, List.map_map]
        refine List.map_congr_left fun name hname => ?_
        exact congrArg Romdir.text (nameOf_nameRow (hisName name hname))
      simp only [Function.comp_apply, outcome]
      rw [hrows, ← hlabel, List.zip_map_left]
      rfl

end Udnl

end PS2Bios.Rom
