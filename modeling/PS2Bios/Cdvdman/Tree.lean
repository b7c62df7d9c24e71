import PS2Bios.Cdvdman.PathSearch

/-!
# Paths of a disc's tree

What a disc is for: a tree of directories whose items have names, and are files or directories
(`FileTree`). A path leads to the file it names (`FileTree.Leads`), or fails, since a component
names nothing, or since it names a directory where the file should be or a file where a directory
should be (`FileTree.Fails`); a component names the first item of a directory whose name it has.

`FileTree.On` says that a disc has a tree: each directory's sectors have its items as records, and
zeros behind them. Then every record can be looked at inside the buffer, and the search of a path
tells what the tree does of it (`FileTree.On.resolvePath_answers`). On any other disc the search may
leave the buffer (`last_byte`), and `resolvePath_right_iff` says when it does not.
-/

namespace PS2Bios.Cdvdman

/-- An item of a directory: a file, or the directory `directory`. -/
structure Item (D : Type) where
  name : List UInt8
  lba : ℕ
  size : ℕ
  directory : Option D

/-- Directories, with their extents and the items of each of their sectors. -/
structure FileTree (D : Type) where
  root : D
  lba : D → ℕ
  size : D → ℕ
  items : D → List (List (Item D))

variable {D : Type} {t : FileTree D} {d d' : D} {item : Item D} {c : List UInt8}
  {cs : List (List UInt8)} {lba size left : ℕ} {sectors : Sectors} {sector : Sector}
  {path : List UInt8}

namespace FileTree

/-- The item that a component names. -/
def find (t : FileTree D) (d : D) (component : List UInt8) : Option (Item D) :=
  (t.items d).flatten.find? fun item => Names component item.name

/-- The components lead from a directory to the file with this extent. -/
inductive Leads (t : FileTree D) : D → List (List UInt8) → (lba size : ℕ) → Prop
  | file {d : D} {c : List UInt8} {item : Item D} (hfind : t.find d c = some item)
      (hfile : item.directory = none) : Leads t d [c] item.lba item.size
  | down {d d' : D} {c : List UInt8} {cs : List (List UInt8)} {item : Item D} {lba size : ℕ}
      (hfind : t.find d c = some item) (hdirectory : item.directory = some d')
      (hrest : Leads t d' cs lba size) : Leads t d (c :: cs) lba size

/-- The components lead to no file. -/
inductive Fails (t : FileTree D) : D → List (List UInt8) → Prop
  | nothing {d : D} {c : List UInt8} {cs : List (List UInt8)} (hfind : t.find d c = none) :
      Fails t d (c :: cs)
  | directory {d d' : D} {c : List UInt8} {item : Item D} (hfind : t.find d c = some item)
      (hdirectory : item.directory = some d') : Fails t d [c]
  | file {d : D} {c : List UInt8} {cs : List (List UInt8)} {item : Item D}
      (hfind : t.find d c = some item) (hfile : item.directory = none) (hcs : cs ≠ []) :
      Fails t d (c :: cs)
  | down {d d' : D} {c : List UInt8} {cs : List (List UInt8)} {item : Item D}
      (hfind : t.find d c = some item) (hdirectory : item.directory = some d') (hcs : cs ≠ [])
      (hrest : Fails t d' cs) : Fails t d (c :: cs)

end FileTree

/-- An item is at a record, which ends in its sector. -/
structure IsRecord (item : Item D) (r : Record) : Prop where
  length : 33 + r.idLength ≤ r.length
  inside : r.pos + r.length ≤ kSectorSize
  name : r.id = item.name
  lba : r.lba = item.lba
  size : r.size = item.size
  directory : r.isDirectory = item.directory.isSome

/-- Items lie in a sector from `pos` on, and then zeros, or the sector's end. -/
def Lies (sector : Sector) : (pos : ℕ) → List (Item D) → Prop
  | pos, [] => pos < kSectorSize → sector pos = 0
  | pos, item :: items => IsRecord item ⟨sector, pos⟩ ∧
      Lies sector (pos + (sector pos).toNat) items

/-- A disc has a tree. -/
structure FileTree.On (t : FileTree D) (sectors : Sectors) : Prop where
  pvd : ∃ pvd, sectors kPvdLba = some pvd ∧ isPvd pvd ∧
    Record.lba ⟨pvd, kRootRecordOffset⟩ = t.lba t.root ∧
    Record.size ⟨pvd, kRootRecordOffset⟩ = t.size t.root
  size : ∀ d, t.size d = kSectorSize * (t.items d).length ∧ t.size d < 2 ^ 32
  extent : ∀ d, t.lba d + (t.items d).length ≤ 2 ^ 32
  lies : ∀ d s items, (t.items d)[s]? = some items →
    ∃ sector, sectors (t.lba d + s) = some sector ∧ Lies sector 0 items
  name : ∀ d, ∀ item ∈ (t.items d).flatten, baseName item.name ≠ []
  directory : ∀ d, ∀ item ∈ (t.items d).flatten, ∀ d', item.directory = some d' →
    item.lba = t.lba d' ∧ item.size = t.size d'

/-! ### What a path comes to is one thing -/

namespace FileTree

/-- The cases of `Leads`, by what the first component names. -/
theorem Leads.unique {lba' size' : ℕ} (h : t.Leads d cs lba size) (h' : t.Leads d cs lba' size') :
    lba = lba' ∧ size = size' := by
  induction h with
  | file hfind hfile =>
    cases h' with
    | file hfind' hfile' =>
      obtain rfl := Option.some.inj (hfind.symm.trans hfind')
      exact ⟨rfl, rfl⟩
    | down hfind' hdirectory' hrest' => cases hrest'
  | down hfind hdirectory hrest ih =>
    cases h' with
    | file hfind' hfile' => cases hrest
    | down hfind' hdirectory' hrest' =>
      obtain rfl := Option.some.inj (hfind.symm.trans hfind')
      obtain rfl := Option.some.inj (hdirectory.symm.trans hdirectory')
      exact ih hrest'

/-- A path that leads to a record does not fail. -/
theorem Leads.not_fails (h : t.Leads d cs lba size) : ¬t.Fails d cs := by
  induction h with
  | file hfind hfile =>
    intro h'
    cases h' with
    | nothing hfind' => simp [hfind] at hfind'
    | directory hfind' hdirectory' =>
      obtain rfl := Option.some.inj (hfind.symm.trans hfind')
      simp [hfile] at hdirectory'
    | file hfind' hfile' hcs => exact hcs rfl
    | down hfind' hdirectory' hcs hrest' => exact hcs rfl
  | down hfind hdirectory hrest ih =>
    intro h'
    cases h' with
    | nothing hfind' => simp [hfind] at hfind'
    | directory hfind' hdirectory' => cases hrest
    | file hfind' hfile' hcs =>
      obtain rfl := Option.some.inj (hfind.symm.trans hfind')
      simp [hdirectory] at hfile'
    | down hfind' hdirectory' hcs hrest' =>
      obtain rfl := Option.some.inj (hfind.symm.trans hfind')
      obtain rfl := Option.some.inj (hdirectory.symm.trans hdirectory')
      exact ih hrest'

end FileTree

/-! ### The records of a tree's directory -/

/-- The records that a sector is cut into are those of the items that lie in it. -/
theorem Lies.records {items : List (Item D)} {pos : ℕ} (h : Lies sector pos items) :
    List.Forall₂ IsRecord items (recordsFrom sector pos) := by
  induction items generalizing pos with
  | nil =>
    rw [recordsFrom]
    split
    next hpos => rw [dif_pos (.inl (by rw [h hpos]; rfl))]; exact .nil
    next => exact .nil
  | cons item items ih =>
    obtain ⟨hrecord, hrest⟩ := h
    have hlength : 33 + Record.idLength ⟨sector, pos⟩ ≤ (sector pos).toNat := hrecord.length
    have hinside : pos + (sector pos).toNat ≤ kSectorSize := hrecord.inside
    rw [recordsFrom, if_pos (by omega), dif_neg (by omega)]
    exact .cons hrecord (ih hrest)

/-- The records of a directory on the disc are its items, in their order. -/
theorem FileTree.On.recordsOf (h : t.On sectors) (d : D) {s : ℕ} {behind : List (List (Item D))}
    (hs : (t.items d).drop s = behind) :
    List.Forall₂ IsRecord behind.flatten (recordsOf sectors (t.lba d) behind.length s) := by
  induction behind generalizing s with
  | nil => exact .nil
  | cons items behind ih =>
    have hget : (t.items d)[s]? = some items := by
      rw [← List.head?_drop, hs, List.head?_cons]
    have hlt := (List.getElem?_eq_some_iff.mp hget).1
    obtain ⟨sector, hsector, hlies⟩ := h.lies d s items hget
    have hextent := h.extent d
    rw [List.flatten_cons, List.length_cons, Cdvdman.recordsOf, add32_eq (by omega), hsector]
    refine List.rel_append hlies.records (ih ?_)
    rw [← List.drop_drop, hs, List.drop_one, List.tail_cons]

/-- The records of a directory are its items. -/
theorem FileTree.On.records (h : t.On sectors) (d : D) :
    List.Forall₂ IsRecord (t.items d).flatten (records sectors (t.lba d) (t.size d)) := by
  obtain ⟨hsize, hlt⟩ := h.size d
  have hcount : add32 (t.size d) (kSectorSize - 1) / kSectorSize = (t.items d).length := by
    rw [kSectorSize] at hsize ⊢
    rw [add32_eq (by omega)]
    omega
  rw [Cdvdman.records, hcount]
  exact h.recordsOf d List.drop_zero

/-- Everything of a record that ends in its sector is inside the buffer. -/
theorem IsRecord.inside_component {r : Record} (h : IsRecord item r) (c : List UInt8) :
    r.Inside c := by
  have hlength := h.length
  have hinside := h.inside
  refine ⟨by omega, .inl ?_⟩
  rw [Record.length_id]
  omega

/-- On a disc that holds a tree every comparison ends inside its sector. -/
theorem FileTree.On.reaches (h : t.On sectors) (d : D) (c : List UInt8) :
    ∀ r, Reaches c (Cdvdman.records sectors (t.lba d) (t.size d)) r → r.Inside c := by
  rintro r ⟨before, behind, heq, -⟩
  have hinside : List.Forall₂ (fun r item => r.Inside c ∧ IsRecord item r)
      (Cdvdman.records sectors (t.lba d) (t.size d)) (t.items d).flatten :=
    List.Forall₂.flip ((h.records d).imp fun item r hr => ⟨hr.inside_component c, hr⟩)
  refine ((List.forall₂_and_left _ _).mp hinside).1 r ?_
  rw [heq]
  exact List.mem_append_right before List.mem_cons_self

/-- The record that a component names is the item that it names. -/
theorem FileTree.On.named (h : t.On sectors) (d : D) (c : List UInt8) :
    Option.Rel IsRecord (t.find d c)
      (Cdvdman.named c (Cdvdman.records sectors (t.lba d) (t.size d))) :=
  Search.find?_of_forall₂ (h.records d) fun item r hr => by rw [hr.name]

/-! ### Paths -/

/-- What resolving a path from a directory answers is what the tree has. -/
def FileTree.Answers (t : FileTree D) (d : D) (cs : List (List UInt8))
    (result : Option (Option DirEntry)) : Prop :=
  (∃ e, result = some (some e) ∧ t.Leads d cs e.lba e.size) ∨ result = some none ∧ t.Fails d cs

/-- What is behind a component: the end of the path, or a separator. -/
theorem span_component (hc : ∀ b ∈ c, isNameByte b) (cs : List (List UInt8)) :
    (c ++ cs.flatMap (kBackslash :: ·)).takeWhile isNameByte = c ∧
      (c ++ cs.flatMap (kBackslash :: ·)).dropWhile isNameByte =
        cs.flatMap (kBackslash :: ·) := by
  have hback : isNameByte kBackslash = false := by decide
  rw [List.takeWhile_append_of_pos hc, List.dropWhile_append_of_pos hc]
  cases cs with
  | nil => exact ⟨List.append_nil c, rfl⟩
  | cons c' cs =>
    rw [List.flatMap_cons, List.cons_append, List.takeWhile_cons_of_neg (by simp [hback]),
      List.dropWhile_cons_of_neg (by simp [hback]), List.append_nil]
    exact ⟨rfl, rfl⟩

theorem FileTree.On.find_nil (h : t.On sectors) (d : D) : t.find d [] = none := by
  rw [FileTree.find, List.find?_eq_none]
  intro item hitem hnames
  exact h.name d item hitem ((names_plain List.not_mem_nil).mp (of_decide_eq_true hnames)).symm

/-- One level of a path: what the component names decides. -/
theorem FileTree.On.resolveFrom_level (h : t.On sectors) (d : D) (left : ℕ)
    (hc : ∀ b ∈ c, isNameByte b) (cs : List (List UInt8)) :
    (t.find d c = none ∧ resolveFrom sectors (left + 1) (t.lba d) (t.size d)
      (c ++ cs.flatMap (kBackslash :: ·)) = some none) ∨
    ∃ item r, t.find d c = some item ∧ IsRecord item r ∧
      resolveFrom sectors (left + 1) (t.lba d) (t.size d) (c ++ cs.flatMap (kBackslash :: ·)) =
        if (cs.flatMap (kBackslash :: ·)).headD 0 = 0 then
          some (if r.isDirectory then none else some r.entry)
        else if !r.isDirectory then some none
        else resolveFrom sectors left r.lba r.size ((cs.flatMap (kBackslash :: ·)).drop 1) := by
  obtain ⟨htake, hdrop⟩ := span_component hc cs
  rcases eq_or_ne c [] with rfl | hne
  · refine .inl ⟨h.find_nil d, ?_⟩
    rw [resolveFrom, if_pos (by rw [htake]; rfl)]
  have hlevel := resolveFrom_succ left (htake.symm ▸ hne) (htake.symm ▸ h.reaches d c)
  rw [htake, hdrop] at hlevel
  have hnamed := h.named d c
  generalize Cdvdman.named c (Cdvdman.records sectors (t.lba d) (t.size d)) = found at *
  generalize t.find d c = first at *
  cases hnamed with
  | none => exact .inl ⟨rfl, hlevel⟩
  | some hrecord => exact .inr ⟨_, _, rfl, hrecord, hlevel⟩

/-- Below a directory the search answers what the tree has there. -/
theorem FileTree.On.resolveFrom_answers (h : t.On sectors)
    (hcs : ∀ c' ∈ c :: cs, ∀ b ∈ c', isNameByte b) (hleft : (c :: cs).length ≤ left) :
    t.Answers d (c :: cs) (resolveFrom sectors left (t.lba d) (t.size d)
      (c ++ cs.flatMap (kBackslash :: ·))) := by
  -- on the components of the path
  induction cs generalizing c d left with
  | nil =>
    obtain ⟨left, rfl⟩ := Nat.exists_eq_succ_of_ne_zero (Nat.ne_zero_of_lt hleft)
    have hc := hcs c List.mem_cons_self
    have hlast : (([] : List (List UInt8)).flatMap (kBackslash :: ·)).headD 0 = 0 := rfl
    rcases h.resolveFrom_level d left hc [] with
      ⟨hfind, heq⟩ | ⟨item, r, hfind, hrecord, heq⟩
    · exact .inr ⟨heq, .nothing hfind⟩
    -- the last component names a file, or a directory, which is not opened
    · rw [if_pos hlast, hrecord.directory] at heq
      cases hdirectory : item.directory with
      | none =>
        rw [hdirectory] at heq
        refine .inl ⟨r.entry, heq, ?_⟩
        have hleads := FileTree.Leads.file hfind hdirectory
        rwa [← hrecord.lba, ← hrecord.size] at hleads
      | some d' =>
        rw [hdirectory] at heq
        exact .inr ⟨heq, .directory hfind hdirectory⟩
  | cons c' cs ih =>
    obtain ⟨left, rfl⟩ := Nat.exists_eq_succ_of_ne_zero (Nat.ne_zero_of_lt hleft)
    have hc := hcs c List.mem_cons_self
    have hback : ((c' :: cs).flatMap (kBackslash :: ·)).headD 0 ≠ 0 := by
      rw [List.flatMap_cons, List.cons_append, List.headD_cons]
      decide
    rcases h.resolveFrom_level d left hc (c' :: cs) with
      ⟨hfind, heq⟩ | ⟨item, r, hfind, hrecord, heq⟩
    · exact .inr ⟨heq, .nothing hfind⟩
    · rw [if_neg hback, hrecord.directory] at heq
      cases hdirectory : item.directory with
      | none =>
        rw [hdirectory] at heq
        exact .inr ⟨heq, .file hfind hdirectory (List.cons_ne_nil c' cs)⟩
      | some d' =>
        -- a component in front of it is a directory, in which the rest is looked for
        have hmem := List.mem_of_find?_eq_some hfind
        obtain ⟨hlba, hsize⟩ := h.directory d item hmem d' hdirectory
        rw [hdirectory, hrecord.lba, hrecord.size, hlba, hsize] at heq
        rw [heq]
        rcases ih (d := d') (fun c'' hc'' => hcs c'' (List.mem_cons_of_mem c hc''))
          (Nat.le_of_succ_le_succ hleft) with ⟨e, hresult, hleads⟩ | ⟨hresult, hfails⟩
        · exact .inl ⟨e, hresult, .down hfind hdirectory hleads⟩
        · exact .inr ⟨hresult, .down hfind hdirectory (List.cons_ne_nil c' cs) hfails⟩

/-- A path is its components, each behind a separator. -/
structure IsPath (cs : List (List UInt8)) (path : List UInt8) : Prop where
  ne_nil : cs ≠ []
  text : ∀ c ∈ cs, ∀ b ∈ c, isNameByte b
  path : path = cs.flatMap (kBackslash :: ·)

/-- The search of a path answers what the tree has at it. -/
theorem FileTree.On.resolvePath_answers (h : t.On sectors) (hpath : IsPath cs path)
    (hdepth : cs.length ≤ kMaxLevel) : t.Answers t.root cs (resolvePath sectors path) := by
  obtain ⟨pvd, hpvd, his, hlba, hsize⟩ := h.pvd
  obtain ⟨hne, htext, rfl⟩ := hpath
  obtain ⟨c, cs, rfl⟩ := List.exists_cons_of_ne_nil hne
  rw [List.flatMap_cons, List.cons_append, resolvePath_eq, hpvd]
  dsimp only
  rw [if_neg (by simp), if_pos his, hlba, hsize]
  exact h.resolveFrom_answers htext hdepth

/-! ### The whole search -/

/-- Resolving a path reads nothing outside the buffer, and where the disc has a tree it answers the
file that the path leads to, and finds none exactly when the path fails. -/
structure Resolves (sectors : Sectors) (path : List UInt8) : Prop where
  inside : (resolvePath sectors path).isSome
  found : ∀ (D : Type) (t : FileTree D), t.On sectors → ∀ cs, IsPath cs path →
    cs.length ≤ kMaxLevel → ∀ lba size,
      (∃ e, resolvePath sectors path = some (some e) ∧ e.lba = lba ∧ e.size = size) ↔
        t.Leads t.root cs lba size
  notFound : ∀ (D : Type) (t : FileTree D), t.On sectors → ∀ cs, IsPath cs path →
    cs.length ≤ kMaxLevel →
      (resolvePath sectors path = some none ↔ t.Fails t.root cs)

/-- Found is what the path leads to, with its place and size. -/
theorem FileTree.Answers.found {result : Option (Option DirEntry)} (h : t.Answers d cs result) :
    (∃ e, result = some (some e) ∧ e.lba = lba ∧ e.size = size) ↔ t.Leads d cs lba size := by
  constructor
  · rintro ⟨e, rfl, rfl, rfl⟩
    rcases h with ⟨e', heq, hleads⟩ | ⟨heq, -⟩
    · rwa [Option.some.inj (Option.some.inj heq)]
    · cases heq
  · intro hleads
    rcases h with ⟨e, heq, hleads'⟩ | ⟨-, hfails⟩
    · exact ⟨e, heq, hleads'.unique hleads⟩
    · exact absurd hfails hleads.not_fails

/-- Not found is what the path leads nowhere to. -/
theorem FileTree.Answers.notFound {result : Option (Option DirEntry)}
    (h : t.Answers d cs result) : result = some none ↔ t.Fails d cs := by
  constructor
  · rintro rfl
    rcases h with ⟨e, heq, -⟩ | ⟨-, hfails⟩
    · cases heq
    · exact hfails
  · intro hfails
    rcases h with ⟨e, -, hleads⟩ | ⟨heq, -⟩
    · exact absurd hfails hleads.not_fails
    · exact heq

/-- A path is resolved as it should be exactly when the search comes to no record that it cannot
look at inside the buffer. -/
theorem resolvePath_right_iff (sectors : Sectors) (path : List UInt8) :
    Resolves sectors path ↔ PathStaysInside sectors path := by
  rw [← isSome_resolvePath_iff]
  refine ⟨Resolves.inside, fun hinside => ⟨hinside, ?_, ?_⟩⟩
  · intro D t ht cs hpath hdepth lba size
    exact (ht.resolvePath_answers hpath hdepth).found
  · intro D t ht cs hpath hdepth
    exact (ht.resolvePath_answers hpath hdepth).notFound

/-! ### Two discs -/

/-- A disc with a root directory of one sector. -/
def discOf (directory : Sector) : Sectors := fun n =>
  if n = kPvdLba then some fun i => [1, 0x43, 0x44, 0x30, 0x30, 0x31].getD i
    (if i = kRootRecordOffset + 2 then 17 else if i = kRootRecordOffset + 11 then 8 else 0)
  else some directory

/-- A record of the file `A;1`. -/
def oneFileSector : Sector := fun i =>
  if i = 0 then 36 else if i = 2 then 30 else if i = 10 then 5 else if i = 32 then 3
  else if i = 33 then 0x41 else if i = 34 then kSemicolon else if i = 35 then 0x31 else 0

/-- A root with one file in it. -/
def oneFile : FileTree Unit where
  root := ()
  lba _ := 17
  size _ := 2048
  items _ := [[⟨[0x41, kSemicolon, 0x31], 30, 5, none⟩]]

/-- The disc holds the root with its one file. -/
theorem oneFile_on : oneFile.On (discOf oneFileSector) where
  pvd := ⟨_, rfl, by decide, by decide, by decide⟩
  size _ := ⟨rfl, (by decide : 2048 < 2 ^ 32)⟩
  extent _ := (by decide : 17 + 1 ≤ 2 ^ 32)
  lies _ s items h := by
    obtain rfl : s = 0 := by
      have hlt := (List.getElem?_eq_some_iff.mp h).1
      exact Nat.lt_one_iff.mp hlt
    obtain rfl := Option.some.inj h
    exact ⟨oneFileSector, rfl, ⟨by decide, by decide, by decide, by decide, by decide, by decide⟩,
      fun _ => rfl⟩
  name _ item h := by
    obtain rfl := List.mem_singleton.mp h
    decide
  directory _ item h _ hdirectory := by
    obtain rfl := List.mem_singleton.mp h
    cases hdirectory

example : ∃ e, resolvePath (discOf oneFileSector) [kBackslash, 0x41] = some (some e) ∧
    e.lba = 30 ∧ e.size = 5 := by
  have hpath : IsPath [[0x41]] [kBackslash, 0x41] :=
    ⟨by simp, by simp [isNameByte, kBackslash], rfl⟩
  have hfind : oneFile.find () [0x41] = some ⟨[0x41, kSemicolon, 0x31], 30, 5, none⟩ := rfl
  have hleads : oneFile.Leads () [[0x41]] 30 5 := .file hfind rfl
  exact (oneFile_on.resolvePath_answers hpath (by decide)).found.mpr hleads

/-- Records as long as can be, and eight bytes for the last one. -/
def fullSector : Sector := fun i => if i = 2040 then 8 else if i % 255 = 0 then 255 else 0

/-- A sector full of long records has a last one that is cut off by its end. -/
theorem recordsFrom_fullSector : recordsFrom fullSector 0 =
    ((List.range 8).map fun k => ⟨fullSector, 255 * k⟩) ++ [⟨fullSector, 2040⟩] := by
  have hstep : ∀ k < 8, recordsFrom fullSector (255 * k) =
      ⟨fullSector, 255 * k⟩ :: recordsFrom fullSector (255 * (k + 1)) := by
    intro k hk
    have hlength : (fullSector (255 * k)).toNat = 255 :=
      (by decide : ∀ k < 8, (fullSector (255 * k)).toNat = 255) k hk
    rw [recordsFrom, if_pos (by rw [kSectorSize]; omega), dif_neg (by rw [kSectorSize]; omega),
      hlength]
    rfl
  have hlast : recordsFrom fullSector (255 * 8) = [⟨fullSector, 2040⟩] := by
    rw [recordsFrom, if_pos (by decide), dif_neg (by decide), recordsFrom, if_neg (by decide)]
  calc recordsFrom fullSector 0 = recordsFrom fullSector (255 * 0) := rfl
    _ = _ := by
      rw [hstep 0 (by decide), hstep 1 (by decide), hstep 2 (by decide), hstep 3 (by decide),
        hstep 4 (by decide), hstep 5 (by decide), hstep 6 (by decide), hstep 7 (by decide), hlast]
      rfl

/-- The length of the last record's name is behind the buffer. -/
theorem last_byte : ¬Resolves (discOf fullSector) [kBackslash, 0x41] := by
  intro h
  have hroot := isSome_resolvePath_iff.mp h.inside rfl _ rfl (by decide)
  have hrecords : records (discOf fullSector) 17 2048 = recordsFrom fullSector 0 :=
    List.append_nil _
  have hreach := (hroot (by decide)).1 ⟨fullSector, 2040⟩
    ⟨_, [], hrecords.trans recordsFrom_fullSector, ?_⟩
  · exact absurd hreach.1 (by decide)
  · intro r hr
    obtain ⟨k, hk, rfl⟩ := List.mem_map.mp hr
    -- the names of the records before have no bytes
    exact (by decide : ∀ k < 8, Record.Inside [0x41] ⟨fullSector, 255 * k⟩ ∧
      ¬Names [0x41] (Record.id ⟨fullSector, 255 * k⟩)) k (List.mem_range.mp hk)

end PS2Bios.Cdvdman
