import PS2Bios.Irx.Relocation

/-!
# Placing a module

`readHeaders` and `place` of the loader: the load segment is copied to the base, the bss behind it
is cleared and the fixups are applied. The file is read from a memory that placing does not write,
the callers having allocated the block apart from it, and `written` lists the words stored.

A read or a store off a word boundary traps, and a loop whose counter goes around the word never
ends. Both are `none`. The theorem says which accepted files are placed as their sizes say.
-/

namespace PS2Bios.Irx.Loader

open Bytes

/-- The type of a segment that takes memory. -/
def ptLoad : ℕ := 1

/-- The type of the segment that holds the module's record. -/
def ptIopMod : ℕ := 0x70000080

/-- `peek32`. -/
def peek32 (m : Ram) (address : ℕ) : Option ℕ :=
  if address % 4 = 0 then some (readWord m address) else none

/-- `peek16`. -/
def peek16 (m : Ram) (address : ℕ) : Option ℕ :=
  if address % 2 = 0 then some (readHalf m address) else none

/-- `Segments`. -/
structure Segments where
  load_offset : ℕ
  load_filesz : ℕ
  load_memsz : ℕ
  iopmod_offset : ℕ
deriving DecidableEq, Repr

/-- The body of the loop of `readHeaders`, over the program header at `phdr`. -/
def readProgramHeader (file : Ram) (phdr : ℕ) (segments : Segments) : Option Segments := do
  let type ← peek32 file phdr
  if type = ptLoad then
    let offset ← peek32 file (add32 phdr 4)
    let filesz ← peek32 file (add32 phdr 16)
    let memsz ← peek32 file (add32 phdr 20)
    some { segments with load_offset := offset, load_filesz := filesz, load_memsz := memsz }
  else if type = ptIopMod then
    let offset ← peek32 file (add32 phdr 4)
    some { segments with iopmod_offset := offset }
  else some segments

/-- The program headers that are left, from `phdr` on. -/
def readProgramHeaders (file : Ram) (phentsize : ℕ) : ℕ → ℕ → Segments → Option Segments
  | 0, _, segments => some segments
  | left + 1, phdr, segments => do
    let segments ← readProgramHeader file phdr segments
    readProgramHeaders file phentsize left (add32 phdr phentsize) segments

/-- `readHeaders`, of the file at `start`: the segments, when it accepts them. -/
def readHeaders (file : Ram) (start : ℕ) : Option Segments := do
  let type ← peek16 file (add32 start 16)
  if type ≠ 0xFF80 then none
  else
    let phoff ← peek32 file (add32 start 28)
    let phentsize ← peek16 file (add32 start 42)
    let phnum ← peek16 file (add32 start 44)
    let segments ← readProgramHeaders file phentsize phnum (add32 start phoff) ⟨0, 0, 0, 0⟩
    if segments.load_filesz ≠ 0 ∧ segments.iopmod_offset ≠ 0 then some segments else none

/-! ### Copying and clearing -/

/-- The two pointers and the counter of `place`, over the memory it stores to. -/
structure Moving where
  src : ℕ
  dst : ℕ
  moved : ℕ
  ram : Ram
  written : List ℕ

/-- `*dst++ = value`, with the counter. -/
def Moving.store (c : Moving) (value : ℕ) : Option Moving :=
  if c.dst % 4 = 0 then
    some { c with dst := add32 c.dst 4, moved := add32 c.moved 4,
                  ram := writeWord c.ram c.dst value, written := c.written ++ [c.dst] }
  else none

/-- The turns a loop over words can make before its counter is where it began. -/
def kTurns : ℕ := 2 ^ 30

/-- The loop that copies the file's words. -/
def copyWords (file : Ram) (filesz : ℕ) : ℕ → Moving → Option Moving
  | 0, _ => none
  | turns + 1, c =>
    if c.moved < filesz then do
      let word ← peek32 file c.src
      let c ← { c with src := add32 c.src 4 }.store word
      copyWords file filesz turns c
    else some c

/-- The loop that clears the words behind them. -/
def clearWords (memsz : ℕ) : ℕ → Moving → Option Moving
  | 0, _ => none
  | turns + 1, c =>
    if c.moved < memsz then do
      let c ← c.store 0
      clearWords memsz turns c
    else some c

/-- The load segment in place, before relocation. -/
def moveSegment (file : Ram) (start : ℕ) (segments : Segments) (base : ℕ) (ram : Ram) :
    Option Moving := do
  let c ← copyWords file segments.load_filesz kTurns
    ⟨add32 start segments.load_offset, base, 0, ram, []⟩
  clearWords segments.load_memsz kTurns c

/-! ### The fixups of a file -/

/-- The `REL` entries from `rel` up to `relEnd`. -/
def readEntries (file : Ram) (relEnd : ℕ) : ℕ → ℕ → Option (List Rel)
  | 0, _ => none
  | turns + 1, rel =>
    if rel < relEnd then do
      let offset ← peek32 file rel
      let info ← peek32 file (add32 rel 4)
      let entries ← readEntries file relEnd turns (add32 rel 8)
      some (⟨offset, info⟩ :: entries)
    else some []

/-- The type of the section whose header is at `header`, and its entries when it is a `REL` one. -/
def readSectionHeader (file : Ram) (start header : ℕ) : Option (ℕ × List Rel) := do
  let type ← peek32 file (add32 header 4)
  if type ≠ shtRel then some (type, [])
  else
    let offset ← peek32 file (add32 header 16)
    let size ← peek32 file (add32 header 20)
    let rel := add32 start offset
    let entries ← readEntries file (add32 rel size) kTurns rel
    some (type, entries)

/-- The sections that are left, from the header at `header` on. -/
def readSectionHeaders (file : Ram) (start shentsize : ℕ) :
    ℕ → ℕ → Option (List (ℕ × List Rel))
  | 0, _ => some []
  | left + 1, header => do
    let s ← readSectionHeader file start header
    let sections ← readSectionHeaders file start shentsize left (add32 header shentsize)
    some (s :: sections)

/-- What `relocate` reads of the file. -/
def readSections (file : Ram) (start : ℕ) : Option (List (ℕ × List Rel)) := do
  let shoff ← peek32 file (add32 start 32)
  let shentsize ← peek16 file (add32 start 46)
  let shnum ← peek16 file (add32 start 48)
  readSectionHeaders file start shentsize shnum (add32 start shoff)

/-- The words `applyRelocation` stores to, `held` being where the `HI16`s held are. -/
def stored (base : ℕ) (held : List ℕ) (entry : Rel) : List ℕ :=
  match entry.info % 256 with
  | 2 | 4 => [add32 base entry.offset]
  | 6 => add32 base entry.offset :: held
  | _ => []

/-- Where the `HI16`s held after it are. -/
def heldAfter (base : ℕ) (held : List ℕ) (entry : Rel) : List ℕ :=
  match entry.info % 256 with
  | 5 => (if kHeldHi16Max ≤ held.length then [] else held) ++ [add32 base entry.offset]
  | 6 => []
  | _ => held

/-- The words stored to over the entries of a section. -/
def rewritten (base : ℕ) : List ℕ → List Rel → List ℕ
  | _, [] => []
  | held, entry :: entries =>
    stored base held entry ++ rewritten base (heldAfter base held entry) entries

/-- The words `relocate` stores to. -/
def rewrites (base : ℕ) (sections : List (ℕ × List Rel)) : List ℕ :=
  sections.flatMap fun s => if s.1 ≠ shtRel then [] else rewritten base [] s.2

/-- Whether the word `applyRelocation` goes to, if it does, is on a word boundary. -/
def entryAligned (base : ℕ) (entry : Rel) : Bool :=
  entry.info % 256 ∉ [rMips32, rMips26, rMipsHi16, rMipsLo16] || add32 base entry.offset % 4 = 0

/-- Whether every word `relocate` goes to is. -/
def aligned (base : ℕ) (sections : List (ℕ × List Rel)) : Bool :=
  sections.all fun s => s.1 ≠ shtRel || s.2.all (entryAligned base)

/-! ### Placing -/

/-- `Placed`. -/
structure Placed where
  entry : ℕ
  gp : ℕ
  fin : ℕ
  text_size : ℕ
  data_size : ℕ
  bss_size : ℕ

/-- `place`: what it answers, the memory after it and the words it stored to. -/
def place (file : Ram) (start : ℕ) (segments : Segments) (base : ℕ) (ram : Ram) :
    Option (Placed × Ram × List ℕ) := do
  let iopmod := add32 start segments.iopmod_offset
  let entry ← peek32 file (add32 iopmod 4)
  let gp ← peek32 file (add32 iopmod 8)
  let text_size ← peek32 file (add32 iopmod 12)
  let data_size ← peek32 file (add32 iopmod 16)
  let bss_size ← peek32 file (add32 iopmod 20)
  let c ← moveSegment file start segments base ram
  let sections ← readSections file start
  if aligned base sections then
    some (⟨add32 entry base, if gp ≠ 0 then add32 gp base else 0, add32 base segments.load_memsz,
      text_size, data_size, bss_size⟩, relocate base c.ram sections,
      c.written ++ rewrites base sections)
  else none

variable {file ram : Ram} {start base : ℕ} {segments : Segments}

/-! ### What relocation stores to -/

/-- Which upper halves are held after an entry depends on the entries only, not on the memory. -/
theorem heldAfter_applyRelocation {s : Ram × HeldHi16} {entry : Rel} :
    (applyRelocation base s entry).2.map Prod.fst = heldAfter base (s.2.map Prod.fst) entry := by
  unfold applyRelocation heldAfter
  dsimp only
  generalize entry.info % 256 = kind
  split
  · rfl
  · rfl
  · rw [List.map_append, List.length_map]
    split <;> rfl
  · split <;> rfl
  · split
    · rename_i h5 _
      exact absurd rfl h5
    · rename_i h6
      exact absurd rfl h6
    · rfl

/-- Patching the held upper halves leaves every other byte alone. -/
theorem foldl_writeWord_of_not {held : HeldHi16} {w : Ram → ℕ × ℕ → ℕ} {m : Ram} {x : ℕ}
    (hx : ∀ a ∈ held.map Prod.fst, ¬(a ≤ x ∧ x < a + 4)) :
    held.foldl (fun m hi => writeWord m hi.1 (w m hi)) m x = m x := by
  induction held generalizing m with
  | nil => rfl
  | cons hi held ih =>
    rw [List.foldl_cons, ih fun a ha => hx a (.tail _ ha)]
    exact writeWord_of_not (hx hi.1 List.mem_cons_self)

/-- Applying a fixup changes no byte of a word it does not store to. -/
theorem applyRelocation_of_not {s : Ram × HeldHi16} {entry : Rel} {x : ℕ}
    (hx : ∀ a ∈ stored base (s.2.map Prod.fst) entry, ¬(a ≤ x ∧ x < a + 4)) :
    (applyRelocation base s entry).1 x = s.1 x := by
  unfold stored at hx
  unfold applyRelocation
  dsimp only at hx ⊢
  generalize entry.info % 256 = kind at hx
  split
  · exact writeWord_of_not (hx _ List.mem_cons_self)
  · exact writeWord_of_not (hx _ List.mem_cons_self)
  · rfl
  · -- the `LO16` goes to its own word and to the one held
    split
    · exact writeWord_of_not (hx _ List.mem_cons_self)
    · exact (foldl_writeWord_of_not fun a ha => hx a (.tail _ ha)).trans
        (writeWord_of_not (hx _ List.mem_cons_self))
  · rfl

/-- The entries leave every byte alone outside the words they rewrite. -/
theorem foldl_applyRelocation_of_not {entries : List Rel} {s : Ram × HeldHi16} {x : ℕ}
    (hx : ∀ a ∈ rewritten base (s.2.map Prod.fst) entries, ¬(a ≤ x ∧ x < a + 4)) :
    (entries.foldl (applyRelocation base) s).1 x = s.1 x := by
  induction entries generalizing s with
  | nil => rfl
  | cons entry entries ih =>
    have hrest : (applyRelocation base s entry).1 x = s.1 x :=
      applyRelocation_of_not fun a ha => hx a (List.mem_append_left _ ha)
    rw [List.foldl_cons, ih, hrest]
    intro a ha
    rw [heldAfter_applyRelocation] at ha
    exact hx a (List.mem_append_right _ ha)

/-- `relocate` changes no byte but of the words `rewrites` lists. -/
theorem relocate_of_not {m : Ram} {sections : List (ℕ × List Rel)} {x : ℕ}
    (hx : ∀ a ∈ rewrites base sections, ¬(a ≤ x ∧ x < a + 4)) :
    relocate base m sections x = m x := by
  unfold relocate
  induction sections generalizing m with
  | nil => rfl
  | cons s sections ih =>
    rw [rewrites, List.flatMap_cons] at hx
    rw [List.foldl_cons, ih fun a ha => hx a (List.mem_append_right _ ha)]
    by_cases hs : s.1 ≠ shtRel
    · rw [if_pos hs]
    · rw [if_neg hs]
      exact foldl_applyRelocation_of_not fun a ha =>
        hx a (List.mem_append_left _ (by rwa [if_neg hs]))

/-- Fixups on word boundaries store to words. -/
theorem rewritten_aligned {held : List ℕ} {entries : List Rel} (hheld : ∀ a ∈ held, a % 4 = 0)
    (h : entries.all (entryAligned base)) : ∀ a ∈ rewritten base held entries, a % 4 = 0 := by
  induction entries generalizing held with
  | nil => exact nofun
  | cons entry entries ih =>
    rw [List.all_cons, Bool.and_eq_true] at h
    obtain ⟨hentry, hentries⟩ := h
    unfold entryAligned at hentry
    intro a ha
    rcases List.mem_append.mp ha with ha | ha
    · unfold stored at ha
      generalize entry.info % 256 = kind at hentry ha
      split at ha
      · rw [List.mem_singleton.mp ha]
        simpa [rMips32] using hentry
      · rw [List.mem_singleton.mp ha]
        simpa [rMips26] using hentry
      · rcases List.mem_cons.mp ha with rfl | ha
        · simpa [rMipsLo16] using hentry
        · exact hheld a ha
      · exact absurd ha List.not_mem_nil
    · refine ih (fun b hb => ?_) hentries a ha
      unfold heldAfter at hb
      generalize entry.info % 256 = kind at hentry hb
      split at hb
      · rcases List.mem_append.mp hb with hb | hb
        · split at hb
          · exact absurd hb List.not_mem_nil
          · exact hheld b hb
        · rw [List.mem_singleton.mp hb]
          simpa [rMipsHi16] using hentry
      · exact absurd hb List.not_mem_nil
      · exact hheld b hb

/-- Where the entries' sites are aligned, every rewritten word is. -/
theorem rewrites_aligned {sections : List (ℕ × List Rel)} (h : aligned base sections = true) :
    ∀ a ∈ rewrites base sections, a % 4 = 0 := by
  intro a ha
  obtain ⟨s, hs, ha⟩ := List.mem_flatMap.mp ha
  have hsection := List.all_eq_true.mp h s hs
  split at ha
  · exact absurd ha List.not_mem_nil
  · rename_i htype
    rw [Bool.or_eq_true, decide_eq_true_eq] at hsection
    exact rewritten_aligned (fun b hb => absurd hb List.not_mem_nil)
      (hsection.resolve_left htype) a ha

/-! ### What the loops leave -/

/-- The words that cover `size` bytes. -/
def wordsOf (size : ℕ) : ℕ := (size + 3) / 4

/-- The first `k` words from the base hold the bytes `content`, and they are the words stored. -/
structure Filled (base : ℕ) (content : ℕ → UInt8) (k : ℕ) (c : Moving) : Prop where
  dst : c.dst = add32 base (4 * k)
  moved : c.moved = 4 * k
  bytes : ∀ i < 4 * k, c.ram (add32 base i) = content i
  written : c.written = (List.range k).map fun j => add32 base (4 * j)

theorem add32_inj {base i j : ℕ} (hi : i < 2 ^ 32) (hj : j < 2 ^ 32)
    (h : add32 base i = add32 base j) : i = j := by
  unfold add32 at h
  omega

theorem add32_word {base k j : ℕ} (hbase : base % 4 = 0) (hj : j < 4) :
    add32 base (4 * k) + j = add32 base (4 * k + j) := by
  unfold add32
  omega

/-- The bytes of a word that was read are those it was read from. -/
theorem writeWord_readWord {m m' : Ram} {a b j : ℕ} (hj : j < 4) :
    writeWord m a (readWord m' b) (a + j) = m' (b + j) :=
  readWord_inj (readWord_writeWord (readWord_lt m' b)) j hj

variable {content : ℕ → UInt8} {c : Moving} {k value : ℕ}

variable (value) in
/-- Storing a word fills one more. -/
theorem Filled.store (h : Filled base content k c) (hbase : base % 4 = 0)
    (hk : 4 * k + 4 < 2 ^ 32)
    (hvalue : ∀ j < 4, writeWord c.ram c.dst value (c.dst + j) = content (4 * k + j)) :
    ∃ c', c.store value = some c' ∧ c'.src = c.src ∧ Filled base content (k + 1) c' := by
  have hdst : c.dst % 4 = 0 := by
    rw [h.dst]
    unfold add32
    omega
  refine ⟨_, if_pos hdst, rfl, ?_, ?_, fun i hi => ?_, ?_⟩
  · show add32 c.dst 4 = add32 base (4 * (k + 1))
    rw [h.dst]
    unfold add32
    omega
  · show add32 c.moved 4 = 4 * (k + 1)
    rw [h.moved, add32_eq (by omega), Nat.mul_succ]
  · show writeWord c.ram c.dst value (add32 base i) = content i
    by_cases hlt : i < 4 * k
    · rw [writeWord_of_not, h.bytes i hlt]
      -- an earlier word is another one
      rw [h.dst]
      unfold add32
      omega
    · obtain ⟨j, rfl⟩ := Nat.exists_eq_add_of_le (Nat.le_of_not_lt hlt)
      rw [← add32_word hbase (by omega), ← h.dst]
      exact hvalue j (by omega)
  · show c.written ++ [c.dst] = _
    rw [h.written, h.dst, List.range_succ, List.map_append, List.map_singleton]

/-- The loop over the file's words fills as many as cover `filesz`. -/
theorem copyWords_eq {src filesz n : ℕ} (h : Filled base content k c) (hbase : base % 4 = 0)
    (hsrc : src % 4 = 0) (hc : c.src = add32 src (4 * k)) (hsize : filesz ≤ 2 ^ 32 - 4)
    (hk : k ≤ wordsOf filesz) (hn : wordsOf filesz - k < n)
    (hcontent : ∀ i < 4 * wordsOf filesz, content i = file (add32 src i)) :
    ∃ c', copyWords file filesz n c = some c' ∧ Filled base content (wordsOf filesz) c' := by
  unfold wordsOf at hk hn hcontent ⊢
  induction n generalizing k c with
  | zero => omega
  | succ n ih =>
    unfold copyWords
    by_cases hlt : c.moved < filesz
    · have hread : peek32 file c.src = some (readWord file c.src) := by
        refine if_pos ?_
        rw [hc]
        unfold add32
        omega
      have hmoved := h.moved
      obtain ⟨c', hc', hsrc', h'⟩ := Filled.store (readWord file c.src)
        (c := { c with src := add32 c.src 4 }) ⟨h.dst, h.moved, h.bytes, h.written⟩ hbase
        (by omega) fun j hj => by
          rw [writeWord_readWord hj, hc, add32_word hsrc hj]
          exact (hcontent _ (by omega)).symm
      rw [if_pos hlt, hread, Option.bind_eq_bind, Option.bind_some, hc', Option.bind_eq_bind,
        Option.bind_some]
      refine ih h' ?_ (by omega) (by omega)
      rw [show c'.src = add32 c.src 4 from hsrc', hc]
      unfold add32
      omega
    · have hmoved := h.moved
      rw [if_neg hlt]
      obtain rfl : k = (filesz + 3) / 4 := by omega
      exact ⟨c, rfl, h⟩

/-- The loop behind it fills as many as cover `memsz`, with zeros. -/
theorem clearWords_eq {memsz n : ℕ} (h : Filled base content k c) (hbase : base % 4 = 0)
    (hsize : memsz ≤ 2 ^ 32 - 4) (hn : wordsOf memsz - k < n)
    (hcontent : ∀ i, 4 * k ≤ i → content i = 0) :
    ∃ c', clearWords memsz n c = some c' ∧ Filled base content (max k (wordsOf memsz)) c' := by
  unfold wordsOf at hn ⊢
  induction n generalizing k c with
  | zero => omega
  | succ n ih =>
    unfold clearWords
    have hmoved := h.moved
    by_cases hlt : c.moved < memsz
    · obtain ⟨c', hc', -, h'⟩ := h.store 0 hbase (by omega) fun j hj => by
        rw [hcontent _ (by omega)]
        obtain rfl | rfl | rfl | rfl : j = 0 ∨ j = 1 ∨ j = 2 ∨ j = 3 := by omega
        all_goals exact at_write _ _ rfl
      rw [if_pos hlt, hc', Option.bind_eq_bind, Option.bind_some]
      obtain ⟨c'', hc'', h''⟩ := ih h' (by omega) fun i hi => hcontent i (by omega)
      have hmax : max (k + 1) ((memsz + 3) / 4) = max k ((memsz + 3) / 4) := by omega
      exact ⟨c'', hc'', hmax ▸ h''⟩
    · rw [if_neg hlt]
      have hmax : max k ((memsz + 3) / 4) = k := by omega
      exact ⟨c, rfl, hmax.symm ▸ h⟩

/-- A counter on a word boundary never gets to a size in the last word, and no loop ends there. -/
theorem Moving.store_moved {c c' : Moving} (h : c.store value = some c') :
    c'.moved = add32 c.moved 4 := by
  unfold Moving.store at h
  split at h
  · obtain rfl := Option.some.inj h
    rfl
  · exact absurd h nofun

/-- A file size that wraps when it is rounded up never ends the copy. -/
theorem copyWords_eq_none {filesz n : ℕ} (hmoved : c.moved % 4 = 0) (hlt : c.moved < 2 ^ 32)
    (hsize : 2 ^ 32 - 4 < filesz) : copyWords file filesz n c = none := by
  induction n generalizing c with
  | zero => rfl
  | succ n ih =>
    unfold copyWords
    rw [if_pos (by omega)]
    refine Option.bind_eq_none_iff.mpr fun word _ => Option.bind_eq_none_iff.mpr fun c' hc' => ?_
    have hmoved' : c'.moved = add32 c.moved 4 :=
      Moving.store_moved (c := { c with src := add32 c.src 4 }) hc'
    refine ih ?_ ?_
    · rw [hmoved']
      unfold add32
      omega
    · rw [hmoved']
      exact add32_lt _ _

/-- A memory size that wraps when it is rounded up never ends the clearing. -/
theorem clearWords_eq_none {memsz n : ℕ} (hmoved : c.moved % 4 = 0) (hlt : c.moved < 2 ^ 32)
    (hsize : 2 ^ 32 - 4 < memsz) : clearWords memsz n c = none := by
  induction n generalizing c with
  | zero => rfl
  | succ n ih =>
    unfold clearWords
    rw [if_pos (by omega)]
    refine Option.bind_eq_none_iff.mpr fun c' hc' => ?_
    have hmoved' : c'.moved = add32 c.moved 4 := Moving.store_moved hc'
    refine ih ?_ ?_
    · rw [hmoved']
      unfold add32
      omega
    · rw [hmoved']
      exact add32_lt _ _

/-- What the loops put at the base: the file's words, then zeros. -/
def contentOf (file : Ram) (start : ℕ) (segments : Segments) (i : ℕ) : UInt8 :=
  if i < 4 * wordsOf segments.load_filesz then
    file (add32 (add32 start segments.load_offset) i)
  else 0

variable (file ram) in

/-- The copy of an aligned segment fills the words of its file size and nothing else. -/
theorem copySegment_eq (hbase : base % 4 = 0) (hlt : base < 2 ^ 32)
    (hsrc : add32 start segments.load_offset % 4 = 0)
    (hfile : segments.load_filesz ≤ 2 ^ 32 - 4) :
    ∃ c, copyWords file segments.load_filesz kTurns
        ⟨add32 start segments.load_offset, base, 0, ram, []⟩ = some c ∧
      Filled base (contentOf file start segments) (wordsOf segments.load_filesz) c := by
  have hstart : Filled base (contentOf file start segments) 0
      ⟨add32 start segments.load_offset, base, 0, ram, []⟩ := by
    refine ⟨?_, rfl, fun i hi => absurd hi (by omega), rfl⟩
    show base = add32 base (4 * 0)
    unfold add32
    omega
  have hsrc₀ : add32 start segments.load_offset =
      add32 (add32 start segments.load_offset) (4 * 0) := by
    unfold add32
    omega
  exact copyWords_eq hstart hbase hsrc hsrc₀ hfile (Nat.zero_le _)
    (by unfold wordsOf kTurns; omega) fun i hi => if_pos hi

variable (file ram) in

/-- The segment's place is filled from the file, and cleared behind that. -/
theorem moveSegment_eq (hbase : base % 4 = 0) (hlt : base < 2 ^ 32)
    (hsrc : add32 start segments.load_offset % 4 = 0)
    (hfile : segments.load_filesz ≤ 2 ^ 32 - 4) (hmem : segments.load_memsz ≤ 2 ^ 32 - 4) :
    ∃ c, moveSegment file start segments base ram = some c ∧
      Filled base (contentOf file start segments)
        (max (wordsOf segments.load_filesz) (wordsOf segments.load_memsz)) c := by
  obtain ⟨c, hc, h⟩ := copySegment_eq file ram hbase hlt hsrc hfile
  obtain ⟨c', hc', h'⟩ := clearWords_eq (n := kTurns) h hbase hmem
    (by unfold wordsOf kTurns; omega) fun i hi => if_neg (by omega)
  refine ⟨c', ?_, h'⟩
  unfold moveSegment
  rw [hc, Option.bind_eq_bind, Option.bind_some, hc']

/-- The loops end only where the file's words are aligned and neither size is in the last word. -/
theorem moveSegment_sizes {c : Moving} (hbase : base % 4 = 0) (hlt : base < 2 ^ 32)
    (h : moveSegment file start segments base ram = some c) (hpos : segments.load_filesz ≠ 0) :
    add32 start segments.load_offset % 4 = 0 ∧ segments.load_filesz ≤ 2 ^ 32 - 4 ∧
      segments.load_memsz ≤ 2 ^ 32 - 4 := by
  unfold moveSegment at h
  obtain ⟨c₁, h₁, h₂⟩ := Option.bind_eq_some_iff.mp h
  have hsrc : add32 start segments.load_offset % 4 = 0 := by
    by_contra hne
    have hnone : copyWords file segments.load_filesz kTurns
        ⟨add32 start segments.load_offset, base, 0, ram, []⟩ = none := by
      have hread : peek32 file (add32 start segments.load_offset) = none := if_neg hne
      obtain ⟨n, hn⟩ : ∃ n, kTurns = n + 1 := ⟨2 ^ 30 - 1, rfl⟩
      rw [hn, copyWords, if_pos (Nat.pos_of_ne_zero hpos), hread]
      rfl
    exact absurd (hnone.symm.trans h₁) nofun
  have hfile : segments.load_filesz ≤ 2 ^ 32 - 4 := by
    by_contra hgt
    have hnone : copyWords file segments.load_filesz kTurns
        ⟨add32 start segments.load_offset, base, 0, ram, []⟩ = none :=
      copyWords_eq_none rfl (Nat.two_pow_pos 32) (Nat.lt_of_not_le hgt)
    exact absurd (hnone.symm.trans h₁) nofun
  refine ⟨hsrc, hfile, ?_⟩
  by_contra hgt
  obtain ⟨c₂, hc₂, hfilled⟩ := copySegment_eq file ram hbase hlt hsrc hfile
  obtain rfl : c₁ = c₂ := Option.some.inj (h₁.symm.trans hc₂)
  have hmoved := hfilled.moved
  have hnone := clearWords_eq_none (n := kTurns) (c := c₁) (by omega)
    (by unfold wordsOf at hmoved; omega) (Nat.lt_of_not_le hgt)
  exact absurd (hnone.symm.trans h₂) nofun

/-! ### When a module is placed as its sizes say -/

/-- The file's bytes are at the base and zeros behind them before the fixups are applied, and no
byte is stored to but the `load_memsz` from the base. -/
def Places (file : Ram) (start : ℕ) (segments : Segments) (base : ℕ) (ram : Ram) : Prop :=
  ∃ c placed after written, moveSegment file start segments base ram = some c ∧
    place file start segments base ram = some (placed, after, written) ∧
    (∀ i < segments.load_filesz,
      c.ram (add32 base i) = file (add32 (add32 start segments.load_offset) i)) ∧
    (∀ i, segments.load_filesz ≤ i → i < segments.load_memsz → c.ram (add32 base i) = 0) ∧
    ∀ a ∈ written, ∀ j < 4, ∃ i < segments.load_memsz, a + j = add32 base i

/-- The files that are: whole words, no less memory than bytes of the file, zeros in the file up
to the next word, and fixups inside the segment. -/
structure Fits (file : Ram) (start : ℕ) (segments : Segments) (base : ℕ) : Prop where
  segment_aligned : add32 start segments.load_offset % 4 = 0
  iopmod_aligned : add32 start segments.iopmod_offset % 4 = 0
  whole : segments.load_memsz % 4 = 0
  ordered : segments.load_filesz ≤ segments.load_memsz
  padding : ∀ i, segments.load_filesz ≤ i → i < 4 * wordsOf segments.load_filesz →
    file (add32 (add32 start segments.load_offset) i) = 0
  fixups : ∃ sections, readSections file start = some sections ∧ aligned base sections = true ∧
    ∀ a ∈ rewrites base sections, ∃ i, i + 4 ≤ segments.load_memsz ∧ a = add32 base i

/-- What placing that comes to an end has read and stored. -/
theorem place_eq_some {placed : Placed} {after : Ram} {written : List ℕ}
    (h : place file start segments base ram = some (placed, after, written)) :
    add32 start segments.iopmod_offset % 4 = 0 ∧ ∃ c sections,
      moveSegment file start segments base ram = some c ∧
      readSections file start = some sections ∧ aligned base sections = true ∧
      after = relocate base c.ram sections ∧ written = c.written ++ rewrites base sections := by
  unfold place at h
  obtain ⟨entry, hentry, h⟩ := Option.bind_eq_some_iff.mp h
  obtain ⟨gp, -, h⟩ := Option.bind_eq_some_iff.mp h
  obtain ⟨text, -, h⟩ := Option.bind_eq_some_iff.mp h
  obtain ⟨data, -, h⟩ := Option.bind_eq_some_iff.mp h
  obtain ⟨bss, -, h⟩ := Option.bind_eq_some_iff.mp h
  obtain ⟨c, hc, h⟩ := Option.bind_eq_some_iff.mp h
  obtain ⟨sections, hsections, h⟩ := Option.bind_eq_some_iff.mp h
  have haligned : add32 start segments.iopmod_offset % 4 = 0 := by
    by_contra hne
    refine absurd (hentry.symm.trans (if_neg ?_)) nofun
    unfold add32 at hne ⊢
    omega
  split at h
  · rename_i hfixups
    simp only [Option.some.injEq, Prod.mk.injEq] at h
    exact ⟨haligned, c, sections, hc, hsections, hfixups, h.2.1.symm, h.2.2.symm⟩
  · exact absurd h nofun

/-- A module is placed where its segment and its sections can be read, and all its words are
aligned. -/
theorem place_eq {sections : List (ℕ × List Rel)} {c : Moving}
    (hiopmod : add32 start segments.iopmod_offset % 4 = 0)
    (hc : moveSegment file start segments base ram = some c)
    (hsections : readSections file start = some sections)
    (hfixups : aligned base sections = true) :
    ∃ placed, place file start segments base ram =
      some (placed, relocate base c.ram sections, c.written ++ rewrites base sections) := by
  have hread : ∀ k, k % 4 = 0 → peek32 file (add32 (add32 start segments.iopmod_offset) k) =
      some (readWord file (add32 (add32 start segments.iopmod_offset) k)) := by
    intro k hk
    refine if_pos ?_
    unfold add32 at hiopmod ⊢
    omega
  apply Exists.intro
  unfold place
  simp only [hread 4 rfl, hread 8 rfl, hread 12 rfl, hread 16 rfl, hread 20 rfl, hc, hsections,
    Option.bind_eq_bind, Option.bind_some]
  exact if_pos hfixups

/-- A word at an offset inside the segment is one of the segment's. -/
theorem Filled.inside {size : ℕ} (h : Filled base content k c) (hbase : base % 4 = 0)
    (hk : 4 * k ≤ size) : ∀ a ∈ c.written, ∀ j < 4, ∃ i < size, a + j = add32 base i := by
  intro a ha j hj
  rw [h.written, List.mem_map] at ha
  obtain ⟨w, hw, rfl⟩ := ha
  have hw' := List.mem_range.mp hw
  exact ⟨4 * w + j, by omega, add32_word hbase hj⟩

/-- And the last word stored to is inside it only where all are. -/
theorem Filled.le_of_inside {size : ℕ} (h : Filled base content k c) (hbase : base % 4 = 0)
    (hk : 4 * k ≤ 2 ^ 32) (hinside : ∀ a ∈ c.written, ∀ j < 4, ∃ i < size, a + j = add32 base i)
    (hsize : size < 2 ^ 32) : 4 * k ≤ size := by
  cases k with
  | zero => omega
  | succ k =>
    have hmem : add32 base (4 * k) ∈ c.written := by
      rw [h.written, List.mem_map]
      exact ⟨k, List.mem_range.mpr (Nat.lt_succ_self k), rfl⟩
    obtain ⟨i, hi, heq⟩ := hinside _ hmem 3 (by decide)
    rw [add32_word hbase (by decide)] at heq
    have hij := add32_inj (by omega) (by omega) heq
    omega

/-- A file that fits is placed. -/
theorem Fits.places (h : Fits file start segments base) (hbase : base % 4 = 0)
    (hlt : base < 2 ^ 32) (hmem : segments.load_memsz < 2 ^ 32) :
    Places file start segments base ram := by
  obtain ⟨hsrc, hiopmod, hwhole, hle, hpadding, sections, hsections, hfixups, hinside⟩ := h
  obtain ⟨c, hc, hfilled⟩ := moveSegment_eq file ram hbase hlt hsrc
    (by omega) (show segments.load_memsz ≤ 2 ^ 32 - 4 by omega)
  obtain ⟨placed, hplace⟩ := place_eq hiopmod hc hsections hfixups
  have hwords : 4 * max (wordsOf segments.load_filesz) (wordsOf segments.load_memsz) =
      segments.load_memsz := by
    unfold wordsOf
    omega
  have hbytes : ∀ i < segments.load_memsz,
      c.ram (add32 base i) = contentOf file start segments i := fun i hi =>
    hfilled.bytes i (hwords.symm ▸ hi)
  refine ⟨c, placed, _, _, hc, hplace, fun i hi => ?_, fun i hi hi' => ?_, fun a ha => ?_⟩
  · rw [hbytes i (by omega), contentOf, if_pos (by unfold wordsOf; omega)]
  · rw [hbytes i hi', contentOf]
    split
    · exact hpadding i hi ‹_›
    · rfl
  · rcases List.mem_append.mp ha with ha | ha
    · exact hfilled.inside hbase (Nat.le_of_eq hwords) a ha
    · have halign := rewrites_aligned hfixups a ha
      obtain ⟨i, hi, rfl⟩ := hinside a ha
      intro j hj
      refine ⟨i + j, by omega, ?_⟩
      unfold add32 at halign ⊢
      omega

/-- A file that is placed fits. -/
theorem Places.fits (h : Places file start segments base ram) (hbase : base % 4 = 0)
    (hlt : base < 2 ^ 32) (hpos : segments.load_filesz ≠ 0)
    (hmem : segments.load_memsz < 2 ^ 32) : Fits file start segments base := by
  obtain ⟨c, placed, after, written, hc, hplace, hfile, hzero, hinside⟩ := h
  obtain ⟨hiopmod, c', sections, hc', hsections, hfixups, -, rfl⟩ := place_eq_some hplace
  obtain rfl : c = c' := Option.some.inj (hc.symm.trans hc')
  obtain ⟨hsrc, hf, hm⟩ := moveSegment_sizes hbase hlt hc hpos
  obtain ⟨c', hc', hfilled⟩ := moveSegment_eq file ram hbase hlt hsrc hf hm
  obtain rfl : c = c' := Option.some.inj (hc.symm.trans hc')
  have hle := hfilled.le_of_inside hbase (by unfold wordsOf; omega)
    (fun a ha => hinside a (List.mem_append_left _ ha)) hmem
  refine ⟨hsrc, hiopmod, ?_, ?_, fun i hi hi' => ?_, sections, hsections, hfixups,
    fun a ha => ?_⟩
  · unfold wordsOf at hle
    omega
  · unfold wordsOf at hle
    omega
  · have hbyte := hzero i hi (by omega)
    rw [hfilled.bytes i (by omega), contentOf, if_pos hi'] at hbyte
    exact hbyte
  · obtain ⟨i, hi, hai⟩ := hinside a (List.mem_append_right _ ha) 0 (by decide)
    obtain ⟨i', hi', hai'⟩ := hinside a (List.mem_append_right _ ha) 3 (by decide)
    refine ⟨i, ?_, hai⟩
    unfold add32 at hai hai'
    omega

theorem peek32_lt {m : Ram} {a w : ℕ} (h : peek32 m a = some w) : w < 2 ^ 32 := by
  unfold peek32 at h
  split at h
  · exact Option.some.inj h ▸ readWord_lt m a
  · exact absurd h nofun

/-- The memory size that a header gives is one of 32 bits. -/
theorem readProgramHeader_memsz_lt {phdr : ℕ} {s s' : Segments}
    (h : readProgramHeader file phdr s = some s') (hlt : s.load_memsz < 2 ^ 32) :
    s'.load_memsz < 2 ^ 32 := by
  unfold readProgramHeader at h
  obtain ⟨type, -, h⟩ := Option.bind_eq_some_iff.mp h
  split at h
  · obtain ⟨offset, -, h⟩ := Option.bind_eq_some_iff.mp h
    obtain ⟨filesz, -, h⟩ := Option.bind_eq_some_iff.mp h
    obtain ⟨memsz, hmemsz, h⟩ := Option.bind_eq_some_iff.mp h
    obtain rfl := Option.some.inj h
    exact peek32_lt hmemsz
  · split at h
    · obtain ⟨offset, -, h⟩ := Option.bind_eq_some_iff.mp h
      obtain rfl := Option.some.inj h
      exact hlt
    · obtain rfl := Option.some.inj h
      exact hlt

/-- The memory size that the headers give is one of 32 bits. -/
theorem readProgramHeaders_memsz_lt {phentsize left phdr : ℕ} {s s' : Segments}
    (h : readProgramHeaders file phentsize left phdr s = some s')
    (hlt : s.load_memsz < 2 ^ 32) : s'.load_memsz < 2 ^ 32 := by
  induction left generalizing phdr s with
  | zero => exact Option.some.inj h ▸ hlt
  | succ left ih =>
    obtain ⟨s₁, hs₁, h⟩ := Option.bind_eq_some_iff.mp h
    exact ih h (readProgramHeader_memsz_lt hs₁ hlt)

/-- What an accepted file says: a word for the memory, and some bytes to copy. -/
theorem readHeaders_eq_some (h : readHeaders file start = some segments) :
    segments.load_filesz ≠ 0 ∧ segments.load_memsz < 2 ^ 32 := by
  unfold readHeaders at h
  obtain ⟨type, -, h⟩ := Option.bind_eq_some_iff.mp h
  split at h
  · exact absurd h nofun
  · obtain ⟨phoff, -, h⟩ := Option.bind_eq_some_iff.mp h
    obtain ⟨phentsize, -, h⟩ := Option.bind_eq_some_iff.mp h
    obtain ⟨phnum, -, h⟩ := Option.bind_eq_some_iff.mp h
    obtain ⟨s, hs, h⟩ := Option.bind_eq_some_iff.mp h
    split at h
    · rename_i haccept
      obtain rfl := Option.some.inj h
      exact ⟨haccept.1, readProgramHeaders_memsz_lt hs (Nat.two_pow_pos 32)⟩
    · exact absurd h nofun

/-- An accepted file is placed as its sizes say exactly when it fits. -/
theorem places_iff_fits (h : readHeaders file start = some segments) (hbase : base % 4 = 0)
    (hlt : base < 2 ^ 32) :
    Places file start segments base ram ↔ Fits file start segments base := by
  obtain ⟨hpos, hmem⟩ := readHeaders_eq_some h
  exact ⟨fun hplaces => hplaces.fits hbase hlt hpos hmem, fun hfits => hfits.places hbase hlt hmem⟩

/-- A file of one load segment and its `.iopmod`, without fixups. -/
def plainImage (filesz memsz : ℕ) (bytes : List UInt8) : List UInt8 :=
  List.replicate 16 0 ++ halfBytes 0xFF80 ++ List.replicate 10 0 ++ wordBytes 52 ++
    List.replicate 10 0 ++ halfBytes 32 ++ halfBytes 2 ++ halfBytes 40 ++ halfBytes 0 ++
    List.replicate 2 0 ++
    wordBytes ptIopMod ++ wordBytes 116 ++ List.replicate 24 0 ++
    wordBytes ptLoad ++ wordBytes 140 ++ List.replicate 8 0 ++ wordBytes filesz ++
    wordBytes memsz ++ List.replicate 8 0 ++ List.replicate 24 0 ++ bytes

/-- Two words of which the file has one are placed. -/
theorem places_plain : Places (write (fun _ => 0) 0 (plainImage 4 8 [1, 2, 3, 4, 5])) 0
    ⟨140, 4, 8, 116⟩ 0x1000 (fun _ => 0xFF) := by
  refine (places_iff_fits (by decide +kernel) rfl (by decide)).mpr
    ⟨rfl, rfl, rfl, by decide, ?_, ?_⟩
  · intro i hi hi'
    -- the file's one word is whole
    exact absurd (show i < 4 from hi') (Nat.not_lt.mpr hi)
  · refine ⟨[], by decide +kernel, rfl, fun a ha => ?_⟩
    exact absurd ha List.not_mem_nil

/-- A segment of one byte takes the bytes that follow it in the file into its bss. -/
theorem not_places_of_accepted : ¬∀ (file : Ram) (start : ℕ) (segments : Segments) (base : ℕ)
    (ram : Ram), readHeaders file start = some segments → base % 4 = 0 → base < 2 ^ 32 →
    Places file start segments base ram := by
  intro h
  have hplaces := h (write (fun _ => 0) 0 (plainImage 1 8 [1, 2])) 0 ⟨140, 1, 8, 116⟩ 0x1000
    (fun _ => 0xFF) (by decide +kernel) rfl (by decide)
  have hfits := hplaces.fits rfl (by decide) (by decide) (by decide)
  exact absurd (hfits.padding 1 (by decide) (by decide)) (by decide +kernel)

end PS2Bios.Irx.Loader
