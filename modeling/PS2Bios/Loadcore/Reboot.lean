import PS2Bios.Loadcore.Residency

/-!
# A reboot starts from its own registry

`MODLOAD`'s reboot core jumps back into `IOPBOOT` with RAM as the old kernel left it, the word
that heads the registry included. `IOPBOOT` places `SYSMEM` and `LOADCORE`, binding each over its
text as it goes (`src/boot/iopboot.cpp`); `LOADCORE`'s entry then starts the registry at
`SYSMEM`'s table, binds itself and registers its own.

`LOADCORE` has an import table, so the binding that `IOPBOOT` does for it walks the registry as
the head word has it. That is harmless exactly when the head word is null:
`starts_afresh_iff`.
-/

namespace PS2Bios.Loadcore

open Intrusive

/-- The first two modules of a boot list, as placed. `SYSMEM`'s export table is at its load base
and it imports nothing; `LOADCORE` has an export table of its own and one import table, of
`SYSMEM`'s library. -/
structure Core where
  sysmem : Module
  loadcore : Module
  exports : ℕ
  imports : ℕ
  apart : ∀ a ∈ sysmem.space, a ∉ loadcore.space
  sysmem_mem : sysmem.start ∈ sysmem.space
  sysmem_stored : Stored (sysmem.image sysmem.start)
  sysmem_imports : ∀ a ∈ scanned sysmem.start sysmem.textStop, ¬(sysmem.image a).Imports
  exports_mem : exports ∈ loadcore.space
  exports_magic : (loadcore.image exports).link = kExportMagic
  exports_stored : Stored (loadcore.image exports)
  exports_library : ¬(sysmem.image sysmem.start).SameLibrary (loadcore.image exports)
  imports_mem : imports ∈ scanned loadcore.start loadcore.textStop
  imports_iff : ∀ a ∈ scanned loadcore.start loadcore.textStop,
    (loadcore.image a).Imports ↔ a = imports
  imports_library : (sysmem.image sysmem.start).SameLibrary (loadcore.image imports)

/-- `IOPBOOT`'s placing loop up to `LOADCORE`'s entry. `SYSMEM`'s entry, in between, writes no
table. -/
def placeCore (fuel : ℕ) (core : Core) (s : Registry) : Option Registry :=
  (bootModule fuel core.sysmem s).bind fun (_, s) =>
    (bootModule fuel core.loadcore s).map Prod.snd

/-- `LOADCORE`'s `_module_start` up to its own registration: the registry starts at `sysmem`,
this module's imports are bound, and its table registered. -/
def coreEntry (fuel : ℕ) (core : Core) (s : Registry) : Option (ℤ × Registry) :=
  let base := core.sysmem.start
  let started := { s.setTable base { s.table base with link := 0 } with head := base }
  (bind fuel core.loadcore.start core.loadcore.textStop started).bind fun (_, s) =>
    registerVersioned fuel core.exports s

/-- From `IOPBOOT` entered again to the registry `LOADCORE` has started. -/
def reboot (fuel : ℕ) (core : Core) (s : Registry) : Option (ℤ × Registry) :=
  (placeCore fuel core s).bind (coreEntry fuel core)

/-- The tables a walk of the binder for `importTable` looks at. -/
def lookedAt (s : Registry) (importTable : ℕ) : ℕ → ℕ → List ℕ
  | 0, _ => []
  | fuel + 1, exporter =>
    if exporter = 0 then []
    else if s.Serves importTable exporter then [exporter]
    else exporter :: lookedAt s importTable fuel (s.table exporter).link

/-- Binding `m` in `s` looks at a table of the registry. -/
def Follows (m : Module) (s : Registry) : Prop :=
  ∃ i ∈ scanned m.start m.textStop, (s.table i).Imports ∧
    ∃ fuel, lookedAt s i fuel s.head ≠ []

/-- A reboot that starts from its own registry: no exporter of the old one is looked at while
the two modules are placed, and then the registry is `LOADCORE`'s table and `SYSMEM`'s, with
`LOADCORE`'s import table once on `SYSMEM`'s list. -/
structure StartsAfresh (core : Core) (s : Registry) : Prop where
  sysmem : ¬Follows core.sysmem (s.place core.sysmem)
  loadcore : ∀ fuel unbound s', bootModule fuel core.sysmem s = some (unbound, s') →
    ¬Follows core.loadcore (s'.place core.loadcore)
  registry : ∃ fuel s', reboot fuel core s = some (0, s') ∧
    Chain 0 (fun a => (s'.table a).link) s'.head [core.exports, core.sysmem.start] ∧
    Chain 0 s'.clientNext (s'.clientNext core.sysmem.start) [core.imports]

variable {core : Core} {s s' : Registry} {m : Module} {fuel unbound : ℕ}

/-! ### Placing -/

theorem place_of_mem {a : ℕ} (ha : a ∈ m.space) : (s.place m).table a = m.image a := if_pos ha

theorem place_of_notMem {a : ℕ} (ha : a ∉ m.space) : (s.place m).table a = s.table a := if_neg ha

/-- A null head is not followed. -/
theorem not_follows (h : s.head = 0) : ¬Follows m s := by
  rintro ⟨i, -, -, fuel, hlooked⟩
  refine hlooked ?_
  rw [h]
  cases fuel with
  | zero => rfl
  | succ fuel => simp [lookedAt]

/-- Any other head is, by the first import table there is. -/
theorem follows_of_head (h : s.head ≠ 0) {i : ℕ} (hi : i ∈ scanned m.start m.textStop)
    (himports : (s.table i).Imports) : Follows m s := by
  refine ⟨i, hi, himports, 1, ?_⟩
  by_cases hserves : s.Serves i s.head
  · simp [lookedAt, h, hserves]
  · simp [lookedAt, h, hserves]

/-- A text without imports is bound by doing nothing. -/
theorem bindFrom_none {words address : ℕ} (h : ∀ i ∈ scan words address, ¬(s.table i).Imports)
    (unbound : ℕ) : bindFrom fuel words address unbound s = some (unbound, s) := by
  induction words generalizing address with
  | zero => rfl
  | succ words ih =>
    rw [bindFrom, if_pos (h address List.mem_cons_self)]
    exact ih fun i hi => h i (List.mem_cons_of_mem address hi)

/-- So is one with imports, while the registry is empty. -/
theorem bindFrom_empty {words address : ℕ} (h : s.head = 0) (unbound : ℕ) :
    ∃ count, bindFrom (fuel + 1) words address unbound s = some (count, s) := by
  induction words generalizing address unbound with
  | zero => exact ⟨unbound, rfl⟩
  | succ words ih =>
    rw [bindFrom]
    by_cases himports : (s.table address).Imports
    · rw [if_neg (not_not_intro himports)]
      have hfind : findExporter s address (fuel + 1) s.head = some 0 := by
        simp [findExporter, h]
      rw [hfind]
      exact ih (unbound + 1)
    · rw [if_pos himports]
      exact ih unbound

theorem bootModule_sysmem (fuel : ℕ) :
    bootModule fuel core.sysmem s = some (0, s.place core.sysmem) := by
  refine bindFrom_none (fun i hi => ?_) 0
  rw [place_of_mem (Module.mem_space core.sysmem.text_le hi)]
  exact core.sysmem_imports i hi

/-! ### The entry -/

/-- What the two placed modules leave in memory. -/
structure Placed (core : Core) (s : Registry) : Prop where
  sysmem : ∀ a ∈ core.sysmem.space, s.table a = core.sysmem.image a
  loadcore : ∀ a ∈ core.loadcore.space, s.table a = core.loadcore.image a

theorem placed_place (core : Core) (s : Registry) :
    Placed core ((s.place core.sysmem).place core.loadcore) := by
  refine ⟨fun a ha => ?_, fun a ha => place_of_mem ha⟩
  rw [place_of_notMem (core.apart a ha), place_of_mem ha]

/-- A list that holds one value once is that value. -/
theorem eq_singleton {l : List ℕ} {a : ℕ} (hmem : a ∈ l) (hnodup : l.Nodup)
    (hall : ∀ b ∈ l, b = a) : l = [a] := by
  match l with
  | [] => exact absurd hmem List.not_mem_nil
  | b :: bs =>
    obtain rfl := hall b List.mem_cons_self
    congr
    refine List.eq_nil_iff_forall_not_mem.mpr fun c hc => ?_
    rw [hall c (List.mem_cons_of_mem b hc)] at hc
    exact (List.nodup_cons.mp hnodup).1 hc

/-- **`LOADCORE`'s entry** starts the registry from the two modules alone. -/
theorem Placed.coreEntry (h : Placed core s) :
    ∃ s', Yields (fun n => Loadcore.coreEntry n core s) (0, s') ∧
      Chain 0 (fun a => (s'.table a).link) s'.head [core.exports, core.sysmem.start] ∧
      Chain 0 s'.clientNext (s'.clientNext core.sysmem.start) [core.imports] := by
  have hsysmem : s.table core.sysmem.start = core.sysmem.image core.sysmem.start :=
    h.sysmem _ core.sysmem_mem
  have hne : ∀ a ∈ core.loadcore.space, a ≠ core.sysmem.start := by
    rintro a ha rfl
    exact core.apart _ core.sysmem_mem ha
  have hstart : Binding (Loader.start s.table core.sysmem.start).registry [core.sysmem.start] ∅
      fun _ => [] :=
    binding_start (Nat.ne_of_gt core.sysmem.start_pos)
      (lt_of_lt_of_le core.sysmem_mem.2 core.sysmem.ram) (hsysmem ▸ core.sysmem_stored)
  -- the registry as started, and the two tables in it
  generalize hs : (Loader.start s.table core.sysmem.start).registry = started at hstart
  have hbase : started.table core.sysmem.start =
      { core.sysmem.image core.sysmem.start with link := 0 } := by
    rw [← hs, ← hsysmem]
    exact Function.update_self ..
  have himage : ∀ a ∈ core.loadcore.space, started.table a = core.loadcore.image a := by
    intro a ha
    rw [← hs, ← h.loadcore a ha]
    exact Function.update_of_ne (hne a ha) ..
  have hscan : ∀ a ∈ scanned core.loadcore.start core.loadcore.textStop,
      a ∈ core.loadcore.space := fun a ha => Module.mem_space core.loadcore.text_le ha
  have hexporter : started.exporterOf [core.sysmem.start] core.imports =
      some core.sysmem.start := by
    have hserves : started.Serves core.imports core.sysmem.start := by
      unfold Registry.Serves
      rw [hbase, himage _ (hscan _ core.imports_mem)]
      exact ⟨core.imports_library, core.sysmem_stored.unpinned⟩
    simp [Registry.exporterOf, hserves]
  -- the one import table joins `sysmem`'s list
  have honce : ∀ i ∈ scanned core.loadcore.start core.loadcore.textStop, i ∉ (∅ : Set ℕ) :=
    fun i _ => Set.notMem_empty i
  obtain ⟨s₁, clientsOf, hbind, hb, hkeeps⟩ :=
    hstart.bindFrom_yields core.loadcore.start_pos honce 0
  have hserved : ∀ i ∈ scanned core.loadcore.start core.loadcore.textStop,
      (started.table i).Imports ↔ i = core.imports := by
    intro i hi
    rw [himage i (hscan i hi)]
    exact core.imports_iff i hi
  have himports : core.imports ∈ clientsOf core.sysmem.start := by
    obtain ⟨e, he, hie⟩ := hb.listed core.imports (.inr ⟨core.imports_mem,
      (hserved _ core.imports_mem).mpr rfl, by simp [hexporter]⟩)
    rwa [List.mem_singleton.mp he] at hie
  have hlist : clientsOf core.sysmem.start = [core.imports] := by
    refine eq_singleton himports (hb.once _ List.mem_cons_self) fun i hi => ?_
    rcases hb.client _ List.mem_cons_self i hi with hi | ⟨hi, hserves⟩
    · exact absurd hi (Set.notMem_empty i)
    · exact (hserved i hi).mp hserves.1
  -- `LOADCORE`'s own table is as placed, and of another library
  have hexports : s₁.table core.exports = core.loadcore.image core.exports := by
    rw [hkeeps.table, himage _ core.exports_mem]
    intro hm
    rcases List.mem_append.mp hm with hm | hm
    · exact hne _ core.exports_mem (List.mem_singleton.mp hm)
    · have himp : (started.table core.exports).Imports := by
        simpa using (List.mem_filter.mp hm).2
      rw [himage _ core.exports_mem] at himp
      have hlink := himp.1
      rw [core.exports_magic] at hlink
      exact absurd hlink (by decide)
  have hother : ¬(s₁.table core.sysmem.start).SameLibrary (s₁.table core.exports) := by
    rw [hkeeps.sameLibrary_iff, hbase, himage _ core.exports_mem]
    exact core.exports_library
  have hnot : s₁.exporterOf [core.sysmem.start] core.exports = none := by
    have hserves : ¬s₁.Serves core.exports core.sysmem.start := fun hs => hother hs.1
    simp [Registry.exporterOf, hserves]
  have h₀ : core.exports ≠ 0 :=
    Nat.ne_of_gt (lt_of_lt_of_le core.loadcore.start_pos core.exports_mem.1)
  have hmagic : (s₁.table core.exports).link = kExportMagic := by
    rw [hexports]
    exact core.exports_magic
  obtain ⟨s₂, hregister, -, -, -, hkeeps₂⟩ := hb.registerVersioned_yields h₀ hmagic
    (by rw [Registry.clientNext, hexports]; exact core.exports_stored.clients)
    (fun e he hr => by
      rw [List.mem_singleton.mp he] at hr
      exact hother hr.1)
  simp only [moved, hnot, Option.elim_none, Option.toList_none, List.append_nil] at hkeeps₂
  have hstay : ∀ a ∈ [core.sysmem.start, core.imports], a ≠ core.exports := by
    intro a ha
    rcases List.mem_pair.mp ha with rfl | rfl
    · exact (hne _ core.exports_mem).symm
    · rintro heq
      have hlink := ((hserved _ core.imports_mem).mpr rfl).1
      rw [himage _ (hscan _ core.imports_mem), heq, core.exports_magic] at hlink
      exact absurd hlink (by decide)
  refine ⟨s₂.registerAccept core.exports, ?_, ?_, ?_⟩
  · unfold Loadcore.coreEntry
    subst hs
    exact hbind.bind hregister
  · refine registerAccept_registry h₀ (hb.not_mem_of_magic hmagic) ?_
    rw [hkeeps₂.head]
    exact hkeeps₂.registry hb.registry
  · have hchain := hb.list core.sysmem.start List.mem_cons_self
    rw [hlist] at hchain
    rw [registerAccept_clientNext, hkeeps₂.clientNext]
    · refine hkeeps₂.list (fun a ha hm => ?_) hchain
      refine hstay a ?_ (List.mem_singleton.mp hm)
      exact List.mem_cons_of_mem _ ha
    · exact fun hm => hstay _ List.mem_cons_self (List.mem_singleton.mp hm)

/-! ### The reboot -/

/-- **A reboot starts from its own registry exactly when the head word is null**: whatever the
old kernel left in memory. -/
theorem starts_afresh_iff (core : Core) (s : Registry) : StartsAfresh core s ↔ s.head = 0 := by
  constructor
  · intro h
    by_contra hhead
    refine h.loadcore 0 0 _ (bootModule_sysmem 0) ?_
    refine follows_of_head hhead core.imports_mem ?_
    rw [place_of_mem (Module.mem_space core.loadcore.text_le core.imports_mem)]
    exact (core.imports_iff _ core.imports_mem).mpr rfl
  · intro hhead
    refine ⟨not_follows hhead, fun fuel unbound s' hboot => not_follows ?_, ?_⟩
    · rw [bootModule_sysmem] at hboot
      obtain ⟨-, rfl⟩ := Prod.mk.inj (Option.some.inj hboot)
      exact hhead
    · obtain ⟨s', hyields, hregistry, hclients⟩ := (placed_place core s).coreEntry
      obtain ⟨bound, hbound⟩ := hyields.2
      refine ⟨bound + 1, s', ?_, hregistry, hclients⟩
      have hhead' : ((s.place core.sysmem).place core.loadcore).head = 0 := hhead
      obtain ⟨count, hloadcore⟩ : ∃ count, bootModule (bound + 1) core.loadcore
          (s.place core.sysmem) = some (count, (s.place core.sysmem).place core.loadcore) :=
        bindFrom_empty hhead' 0
      have hplace : placeCore (bound + 1) core s =
          some ((s.place core.sysmem).place core.loadcore) := by
        simp [placeCore, bootModule_sysmem, hloadcore]
      rw [reboot, hplace]
      exact hbound (bound + 1) (Nat.le_succ bound)

/-- `LOADCORE` at `0x2000`: its export table there, and its import table at `0x2080`. -/
def kLoadcore : Module where
  start := 0x2000
  textStop := 0x2100
  stop := 0x2200
  image a :=
    { link := if a = 0x2000 then kExportMagic else if a = 0x2080 then kImportMagic else 0
      clients := 0, version := 0x0101, flags := 0
      tag := if a = 0x2080 then (1, 2) else (3, 4)
      entries := [0x2100], stubs := [⟨kReturn, 0x24000004⟩] }
  start_pos := by decide
  start_le := by decide
  text_le := by decide
  ram := by decide

/-- A core of two modules. -/
def kCore : Core where
  sysmem := kSysmem
  loadcore := kLoadcore
  exports := 0x2000
  imports := 0x2080
  apart := by
    rintro a ⟨-, hstop⟩ ⟨hstart, -⟩
    have h₁ : a < 0x1200 := hstop
    have h₂ : 0x2000 ≤ a := hstart
    omega
  sysmem_mem := by decide
  sysmem_stored := ⟨rfl, by decide⟩
  sysmem_imports := by decide +kernel
  exports_mem := by decide
  exports_magic := rfl
  exports_stored := ⟨rfl, by decide⟩
  exports_library := by decide
  imports_mem := by decide +kernel
  imports_iff := by decide +kernel
  imports_library := by decide

/-- What a kernel with `LOADCORE` elsewhere left: its table at `0x3000`, and behind that
`sysmem`'s, where the new one is placed. -/
def kStale : Registry where
  head := 0x3000
  table _ :=
    { link := 0x1000, clients := 0, version := 0x0101, flags := 0, tag := (3, 4)
      entries := [], stubs := [] }

/-- From `kStale`, `LOADCORE`'s import table joins `SYSMEM`'s list twice, and is its own
successor. -/
theorem import_follows_itself :
    (∃ s', reboot 4 kCore kStale = some (0, s') ∧
      s'.clientNext kCore.imports = kCore.imports) ∧ ¬StartsAfresh kCore kStale := by
  constructor
  · have hrun : (reboot 4 kCore kStale).map
        (fun x => (x.1, x.2.clientNext kCore.imports)) = some (0, kCore.imports) := by
      decide +kernel
    obtain ⟨⟨answer, s'⟩, hreboot, heq⟩ := Option.map_eq_some_iff.mp hrun
    obtain ⟨rfl, hnext⟩ := Prod.mk.inj heq
    exact ⟨s', hreboot, hnext⟩
  · intro h
    refine h.loadcore 0 0 _ (bootModule_sysmem 0) ?_
    refine follows_of_head (by decide) kCore.imports_mem ?_
    decide +kernel

end PS2Bios.Loadcore
