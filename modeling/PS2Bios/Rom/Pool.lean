import Mathlib.Data.List.MinMax
import PS2Bios.Library.Tokens
import PS2Bios.Rom.Format

/-!
# A pool of archives

What merging archives is for. A pool is a list of archives, the newest first. The boot list comes
from the newest that has one; a name of it is taken from the archive where its version is greatest,
and of equals from the newest. Both the tool and the module are compared with this.
-/

namespace PS2Bios.Rom

/-- `IOPBTCONF`, the boot list. -/
def kIopbtconf : List UInt8 := [0x49, 0x4F, 0x50, 0x42, 0x54, 0x43, 0x4F, 0x4E, 0x46]

theorem isName_kIopbtconf : IsName kIopbtconf :=
  isName_of_all (by decide) (by decide) (by decide)

/-! ### Boot lists -/

/-- The separators of a boot list: white space and control characters that end a token for every
reader. -/
def isSeparator (c : UInt8) : Bool :=
  decide (9 ≤ c.toNat ∧ c.toNat ≤ 13 ∨ 28 ≤ c.toNat ∧ c.toNat ≤ 31)

/-- The names of a boot list: the tokens that begin with neither `@` nor `#`. -/
def bootNames (text : List UInt8) : List (List UInt8) :=
  (Tokens.tokens isSeparator text).filter fun t => t.head? ≠ some 0x40 ∧ t.head? ≠ some 0x23

/-- A boot list of printable names of at most ten characters: without the directives that begin
with an exclamation mark, and without the name that marks padding. -/
structure IsBootList (text : List UInt8) : Prop where
  printable : ∀ c ∈ text, isSeparator c ∨ 0x21 ≤ c.toNat ∧ c.toNat ≤ 0x7E
  head_ne : ∀ t ∈ Tokens.tokens isSeparator text, t.head? ≠ some 0x21
  length_le : ∀ t ∈ bootNames text, t.length ≤ kNameLength
  ne_padding : ∀ t ∈ bootNames text, t ≠ [0x2D]

/-- Whether it is a boot list can be computed. -/
theorem isBootList_of_all {text : List UInt8}
    (hall : text.all fun c => isSeparator c || decide (0x21 ≤ c.toNat ∧ c.toNat ≤ 0x7E))
    (hhead : ∀ t ∈ Tokens.tokens isSeparator text, t.head? ≠ some 0x21)
    (hle : ∀ t ∈ bootNames text, t.length ≤ kNameLength)
    (hne : ∀ t ∈ bootNames text, t ≠ [0x2D]) : IsBootList text := by
  refine ⟨fun c hc => ?_, hhead, hle, hne⟩
  simpa using List.all_eq_true.mp hall c hc

/-- The names of a boot list are names. -/
theorem IsBootList.isName {text t : List UInt8} (h : IsBootList text) (ht : t ∈ bootNames text) :
    IsName t := by
  have htoken := Tokens.mem_of_mem_tokens (List.mem_filter.mp ht).1
  refine ⟨htoken.1, h.length_le t ht, fun c hc => ?_⟩
  obtain ⟨hmem, hsep⟩ := htoken.2 c hc
  rcases h.printable c hmem with hc | hc
  · exact absurd hc hsep
  · refine ⟨fun h0 => ?_, UInt8.lt_iff_toNat_lt.mpr (Nat.lt_of_le_of_lt hc.2 (by decide))⟩
    rw [h0] at hc
    exact absurd hc.1 (by decide)

/-! ### Choosing -/

/-- An archive of a pool. -/
structure Member where
  label : ℕ
  files : List File
deriving DecidableEq, Repr

/-- An archive chosen for a name, and the version it has of it. -/
structure Choice where
  label : ℕ
  version : ℕ
deriving DecidableEq, Repr

/-- The first file of a name. -/
def Member.file (a : Member) (name : List UInt8) : Option File :=
  a.files.find? fun f => f.name == name

/-- The version an archive has of a name: 0 when there is no version record, or no `EXTINFO` to
hold one. -/
def Member.version (a : Member) (name : List UInt8) : Option ℕ :=
  (a.file name).map fun f => if (a.file kExtinfo).isSome then sliceVersion f.extinfo else 0

/-- The archives that have a name, the newest first. -/
def candidates (pool : List Member) (name : List UInt8) : List Choice :=
  pool.filterMap fun a => (a.version name).map (Choice.mk a.label)

/-- The choice for a name. -/
def chosen (pool : List Member) (name : List UInt8) : Option Choice :=
  (candidates pool name).argmax Choice.version

/-- The archive the order comes from, and its boot list. -/
def orderFrom : List Member → Option (ℕ × List UInt8)
  | [] => none
  | a :: pool =>
    match a.file kIopbtconf with
    | some f => some (a.label, f.data)
    | none => orderFrom pool

/-- The choices for the names of a boot list, when every name has one. -/
def merged (pool : List Member) (names : List (List UInt8)) :
    Option (List (List UInt8 × Choice)) :=
  names.mapM fun name => (chosen pool name).map (Prod.mk name)

variable {a : Member} {pool : List Member} {name : List UInt8} {c : Choice} {i : ℕ} {f : File}

theorem candidates_cons_none (h : a.version name = none) :
    candidates (a :: pool) name = candidates pool name := by
  simp [candidates, h]

theorem candidates_cons_some {v : ℕ} (h : a.version name = some v) :
    candidates (a :: pool) name = ⟨a.label, v⟩ :: candidates pool name := by
  simp [candidates, h]

/-- Nothing is chosen for a name that no archive has. -/
theorem chosen_eq_none_iff : chosen pool name = none ↔ ∀ a ∈ pool, a.version name = none := by
  rw [chosen, List.argmax_eq_none, candidates, List.filterMap_eq_nil_iff]
  exact forall₂_congr fun a _ => Option.map_eq_none_iff

/-- What is chosen has the greatest version, and a greater one than everything newer. -/
theorem chosen_eq_some (h : chosen pool name = some c) :
    ∃ k a, pool[k]? = some a ∧ a.label = c.label ∧ a.version name = some c.version ∧
      ∀ (j : ℕ) (b : Member) (v : ℕ), pool[j]? = some b → b.version name = some v →
        v ≤ c.version ∧ (j < k → v < c.version) := by
  induction pool generalizing c with
  | nil => exact absurd h (by simp [chosen, candidates])
  | cons a pool ih =>
    have hold : chosen pool name = some c → (∀ v, a.version name = some v → v < c.version) →
        ∃ k b, (a :: pool)[k]? = some b ∧ b.label = c.label ∧ b.version name = some c.version ∧
          ∀ (j : ℕ) (b : Member) (v : ℕ), (a :: pool)[j]? = some b → b.version name = some v →
            v ≤ c.version ∧ (j < k → v < c.version) := by
      intro hc ha
      obtain ⟨k, b, hk, hlabel, hversion, hmax⟩ := ih hc
      refine ⟨k + 1, b, hk, hlabel, hversion, ?_⟩
      rintro (_ | j) b' v hb' hv
      · obtain rfl : a = b' := Option.some.inj hb'
        have hlt := ha v hv
        exact ⟨Nat.le_of_lt hlt, fun _ => hlt⟩
      · exact ⟨(hmax j b' v hb' hv).1, fun hj => (hmax j b' v hb' hv).2 (Nat.lt_of_succ_lt_succ hj)⟩
    cases ha : a.version name with
    | none =>
      rw [chosen, candidates_cons_none ha] at h
      exact hold h fun v hv => absurd (ha.symm.trans hv) (by simp)
    | some v =>
      rw [chosen, candidates_cons_some ha, List.argmax_cons] at h
      -- the newest archive is chosen unless an older one has more
      have hnew : (∀ (j : ℕ) (b : Member) (w : ℕ), pool[j]? = some b → b.version name = some w →
          w ≤ v) → some ⟨a.label, v⟩ = some c →
          ∃ k b, (a :: pool)[k]? = some b ∧ b.label = c.label ∧ b.version name = some c.version ∧
            ∀ (j : ℕ) (b : Member) (w : ℕ), (a :: pool)[j]? = some b → b.version name = some w →
              w ≤ c.version ∧ (j < k → w < c.version) := by
        intro hmax hc
        obtain rfl := Option.some.inj hc
        refine ⟨0, a, rfl, rfl, ha, ?_⟩
        rintro (_ | j) b w hb hw
        · obtain rfl : a = b := Option.some.inj hb
          obtain rfl : v = w := Option.some.inj (ha.symm.trans hw)
          exact ⟨Nat.le_refl _, fun hlt => absurd hlt (Nat.not_lt_zero _)⟩
        · exact ⟨hmax j b w hb hw, fun hlt => absurd hlt (Nat.not_lt_zero _)⟩
      cases hrest : (candidates pool name).argmax Choice.version with
      | none =>
        rw [hrest] at h
        refine hnew (fun j b w hb hw => ?_) h
        have hnone := chosen_eq_none_iff.mp hrest b (List.mem_of_getElem? hb)
        exact absurd (hnone.symm.trans hw) (by simp)
      | some d =>
        rw [hrest] at h
        simp only at h
        split at h
        · next hlt =>
          obtain rfl := Option.some.inj h
          refine hold hrest fun w hw => ?_
          obtain rfl : v = w := Option.some.inj (ha.symm.trans hw)
          exact hlt
        · next hge =>
          obtain ⟨k, b, -, -, -, hmax⟩ := ih hrest
          refine hnew (fun j b w hb hw => ?_) h
          exact Nat.le_trans (hmax j b w hb hw).1 (Nat.not_lt.mp hge)

/-- The order comes from an archive with a boot list, and nothing newer has one. -/
theorem orderFrom_eq_some {o : ℕ × List UInt8} (h : orderFrom pool = some o) :
    ∃ (k : ℕ) (a : Member) (f : File), pool[k]? = some a ∧ a.label = o.1 ∧
      a.file kIopbtconf = some f ∧ f.data = o.2 ∧
      ∀ j < k, ∀ b : Member, pool[j]? = some b → b.file kIopbtconf = none := by
  induction pool with
  | nil => exact absurd h (by simp [orderFrom])
  | cons a pool ih =>
    rw [orderFrom] at h
    cases ha : a.file kIopbtconf with
    | some f =>
      rw [ha] at h
      obtain rfl := Option.some.inj h
      exact ⟨0, a, f, rfl, rfl, ha, rfl, nofun⟩
    | none =>
      rw [ha] at h
      obtain ⟨k, b, f, hk, hlabel, hfile, hdata, hnewer⟩ := ih h
      refine ⟨k + 1, b, f, hk, hlabel, hfile, hdata, ?_⟩
      rintro (_ | j) hj c hc
      · obtain rfl : a = c := Option.some.inj hc
        exact ha
      · exact hnewer j (Nat.lt_of_succ_lt_succ hj) c hc

/-- What a merge lists are choices. -/
theorem chosen_of_merged {names : List (List UInt8)} {list : List (List UInt8 × Choice)}
    (h : merged pool names = some list) :
    list.map Prod.fst = names ∧ ∀ p ∈ list, chosen pool p.1 = some p.2 := by
  induction names generalizing list with
  | nil =>
    obtain rfl : [] = list := Option.some.inj h
    exact ⟨rfl, nofun⟩
  | cons name names ih =>
    rw [merged, List.mapM_cons] at h
    obtain ⟨p, hp, h⟩ := Option.bind_eq_some_iff.mp h
    obtain ⟨ps, hps, h⟩ := Option.bind_eq_some_iff.mp h
    obtain rfl := Option.some.inj h
    obtain ⟨c, hc, rfl⟩ := Option.map_eq_some_iff.mp hp
    obtain ⟨hnames, hchosen⟩ := ih hps
    refine ⟨by rw [List.map_cons, hnames], fun p hp => ?_⟩
    rcases List.mem_cons.mp hp with rfl | hp
    · exact hc
    · exact hchosen p hp

/-- What is made of each choice of a merge. -/
theorem mapM_map {β γ : Type} (g : List UInt8 → Option β) (h : β → γ) (l : List (List UInt8)) :
    (l.mapM g).map (List.map h) = l.mapM fun x => (g x).map h := by
  induction l with
  | nil => rfl
  | cons x l ih =>
    rw [List.mapM_cons, List.mapM_cons, ← ih]
    cases g x with
    | none => rfl
    | some b => cases l.mapM g <;> rfl

/-- A champion as each pass leaves it: replaced by a strictly greater version. -/
def better (best : Option Choice) (d : Choice) : Option Choice :=
  if best.all fun c => c.version < d.version then some d else best

/-- Keeping a champion from the newest archive to the oldest makes the choice. -/
theorem foldl_better : (candidates pool name).foldl better none = chosen pool name := by
  have hstep : better = List.argAux fun d c : Choice => c.version < d.version := by
    funext best d
    match best with
    | none => rfl
    | some c =>
      rw [better, Option.all_some]
      simp only [decide_eq_true_eq]
      rfl
  rw [hstep]
  rfl

theorem file_eq_some (h : IsFirst a.files name i f) : a.file name = some f := by
  obtain ⟨hi, hget⟩ := List.getElem?_eq_some_iff.mp h.get
  refine List.find?_eq_some_iff_getElem.mpr ⟨beq_iff_eq.mpr h.name_eq, i, hi, hget, fun j hj => ?_⟩
  have hne := h.least j hj _ (List.getElem?_eq_getElem (by omega))
  simpa using hne

/-- A file that a member has under a name is the first of that name. -/
theorem exists_isFirst_of_file (h : a.file name = some f) : ∃ i, IsFirst a.files name i f := by
  rcases exists_isFirst_or a.files name with ⟨i, g, hg⟩ | hnone
  · exact ⟨i, Option.some.inj (h.symm.trans (file_eq_some hg)) ▸ hg⟩
  · exact absurd h (by
      rw [Member.file, List.find?_eq_none.mpr fun f hf => by simpa using hnone f hf]
      simp)

theorem file_eq_none (h : ∀ f ∈ a.files, f.name ≠ name) : a.file name = none :=
  List.find?_eq_none.mpr fun f hf => by simpa using h f hf

end PS2Bios.Rom
