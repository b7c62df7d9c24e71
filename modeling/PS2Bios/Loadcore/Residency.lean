import PS2Bios.Loadcore.Supersession

/-!
# Modules that leave memory

`LOADCORE`'s boot-list loop places a module, binds it and enters it; when the entry's answer has
one of its low two bits set, the next module goes over it. `MODLOAD` places a module in a block
of `SYSMEM`, links it, and gives the block back when a table found no exporter. Neither takes
a table off the client list it has joined.

So a client list names only tables that are there as long as no module leaves with a table of its
own on a list. `clients_are_live` is that condition and what it gives; `released_while_bound` is
the load that breaks it.
-/

namespace PS2Bios.Loadcore

open Intrusive

/-- A module as it is placed: its space in memory, the end of its text, and the tables its image
has there. -/
structure Module where
  start : ℕ
  textStop : ℕ
  stop : ℕ
  image : ℕ → LibraryTable
  start_pos : 0 < start
  start_le : start ≤ stop
  text_le : textStop ≤ stop
  ram : stop ≤ kRamSize

/-- The addresses of a module's space. -/
def Module.space (m : Module) : Set ℕ := {a | m.start ≤ a ∧ a < m.stop}

instance (m : Module) (a : ℕ) : Decidable (a ∈ m.space) :=
  inferInstanceAs (Decidable (m.start ≤ a ∧ a < m.stop))

/-- `place`: the image is in memory, whatever was there. -/
def Registry.place (s : Registry) (m : Module) : Registry :=
  { s with table := fun a => if a ∈ m.space then m.image a else s.table a }

/-- `KE_LINKERR`. -/
def kLinkError : ℤ := -200

/-- The boot-list loop up to the entry: place, and bind the text. -/
def bootModule (fuel : ℕ) (m : Module) (s : Registry) : Option (ℕ × Registry) :=
  bind fuel m.start m.textStop (s.place m)

/-- `loadImage` from the block on: load, and link the whole image. -/
def loadImage (fuel : ℕ) (m : Module) (s : Registry) : Option (ℤ × Registry) :=
  (linkLibraryEntries fuel m.start (m.stop - m.start) (s.place m)).map fun (answer, s) =>
    (if answer < 0 then kLinkError else 0, s)

/-- The registry, and the modules whose space is their own. -/
structure Memory where
  loader : Loader
  resident : List Module

/-- What happens to the modules. `StartModule` enters a module, and what its entry does to the
registry are registrations of their own; its answer decides nothing. -/
inductive Event
  /-- The boot-list loop places and binds a module. -/
  | boot (m : Module) (unbound : ℕ)
  /-- The entry of the boot module at `base` answers. -/
  | entered (base : ℕ) (answer : UInt32)
  /-- `LoadModule`, or the first half of `LoadStartModule`. -/
  | load (m : Module) (answer : ℤ)
  | registerVersioned (table : ℕ) (answer : ℤ)
  | registerPinned (table : ℕ) (answer : ℤ)

namespace Memory

variable (s : Memory)

/-- The address is in a module that is there. -/
def Holds (a : ℕ) : Prop := ∃ m ∈ s.resident, a ∈ m.space

/-- The loader once `m` has been bound over `stop`. -/
def bound (m : Module) (stop : ℕ) (r : Registry) : Loader :=
  ⟨r, s.loader.registered, s.loader.linked ∪
    {i | i ∈ scanned m.start stop ∧
      Served (s.loader.registry.place m) s.loader.registered i}⟩

/-- The space of `m` is nobody's. -/
def Vacant (m : Module) : Prop := ∀ a ∈ m.space, ¬s.Holds a

/-- One step of the loading of modules. -/
inductive Step : Memory → Event → Memory → Prop
  | boot {s : Memory} {fuel unbound : ℕ} {m : Module} {r : Registry} (hvacant : s.Vacant m)
      (hboot : bootModule fuel m s.loader.registry = some (unbound, r)) :
      Step s (.boot m unbound) ⟨s.bound m m.textStop r, m :: s.resident⟩
  /-- A module that asks not to stay: its space is the next module's. -/
  | entered {s : Memory} {base : ℕ} {answer : UInt32} :
      Step s (.entered base answer)
        { s with resident :=
            if answer &&& 3 = 0 then s.resident
            else s.resident.filter fun m => m.start ≠ base }
  /-- A load that fails gives the block back. -/
  | load {s : Memory} {fuel : ℕ} {m : Module} {answer : ℤ} {r : Registry} (hvacant : s.Vacant m)
      (hload : loadImage fuel m s.loader.registry = some (answer, r)) :
      Step s (.load m answer)
        ⟨s.bound m m.stop r, if answer < 0 then s.resident else m :: s.resident⟩
  | registerVersioned {s : Memory} {fuel table : ℕ} {answer : ℤ} {r : Registry}
      (hoffered : s.loader.Offered table) (hholds : table = 0 ∨ s.Holds table)
      (hregister : Loadcore.registerVersioned fuel table s.loader.registry = some (answer, r)) :
      Step s (.registerVersioned table answer)
        ⟨⟨r, s.loader.accept table answer, s.loader.linked⟩, s.resident⟩
  | registerPinned {s : Memory} {table : ℕ} {answer : ℤ} {r : Registry}
      (hoffered : s.loader.Offered table) (hholds : table = 0 ∨ s.Holds table)
      (hregister : Loadcore.registerPinned table s.loader.registry = (answer, r)) :
      Step s (.registerPinned table answer)
        ⟨⟨r, s.loader.accept table answer, s.loader.linked⟩, s.resident⟩

/-- Every client list names only import tables of modules that are there. -/
def ClientsLive : Prop :=
  Chain 0 (fun a => (s.loader.registry.table a).link) s.loader.registry.head
      s.loader.registered ∧
    ∀ e ∈ s.loader.registered, s.Holds e ∧
      ∃ l, Chain 0 s.loader.registry.clientNext (s.loader.registry.clientNext e) l ∧
        ∀ i ∈ l, s.Holds i ∧ (s.loader.registry.table i).link = kImportMagic

/-- No module leaves with a table of its own on a list: a load that fails has had no import
table served, and a boot module that asks not to stay has none linked and no library
registered. -/
def Leaves : Event → Prop
  | .load m answer => answer < 0 → ∀ i ∈ scanned m.start m.stop,
      ¬Served (s.loader.registry.place m) s.loader.registered i
  | .entered base answer => answer &&& 3 ≠ 0 → ∀ m ∈ s.resident, m.start = base →
      ∀ a ∈ m.space, a ∉ s.loader.linked ∧ a ∉ s.loader.registered
  | _ => True

/-- A step at which nothing is left behind. -/
def CleanStep (s : Memory) (e : Event) (t : Memory) : Prop := Step s e t ∧ s.Leaves e

end Memory

/-! ### One step -/

variable {s t : Memory} {e : Event} {clientsOf : ℕ → List ℕ} {m : Module}

/-- A scan finds tables at word addresses. -/
theorem eq_of_mem_scan {a words address : ℕ} (h : a ∈ scan words address) :
    ∃ k < words, a = address + 4 * k := by
  induction words generalizing address with
  | zero => exact absurd h List.not_mem_nil
  | succ words ih =>
    rcases List.mem_cons.mp h with rfl | h
    · exact ⟨0, by omega, by omega⟩
    · obtain ⟨k, hk, rfl⟩ := ih h
      exact ⟨k + 1, by omega, by omega⟩

/-- The addresses the scan looks at are the module's. -/
theorem Module.mem_space {stop a : ℕ} (hstop : stop ≤ m.stop) (h : a ∈ scanned m.start stop) :
    a ∈ m.space := by
  obtain ⟨k, hk, rfl⟩ := eq_of_mem_scan h
  constructor
  · omega
  · omega

/-- A registry in good order, all of it in modules that are there. -/
structure Memory.InPlace (s : Memory) (clientsOf : ℕ → List ℕ) : Prop where
  binding : Binding s.loader.registry s.loader.registered s.loader.linked clientsOf
  registered : ∀ e ∈ s.loader.registered, s.Holds e
  linked : ∀ i ∈ s.loader.linked, s.Holds i

namespace Memory.InPlace

variable (h : s.InPlace clientsOf)
include h

/-- Nothing of the registry is where a module is placed. -/
theorem place (hvacant : s.Vacant m) :
    Binding (s.loader.registry.place m) s.loader.registered s.loader.linked clientsOf := by
  refine h.binding.congr rfl (fun e he => if_neg ?_) fun i hi => if_neg ?_
  · exact fun hm => hvacant e hm (h.registered e he)
  · exact fun hm => hvacant i hm (h.linked i hi)

/-- Placing a module and binding it leaves the registry in good order. -/
theorem bound (hvacant : s.Vacant m) {fuel stop unbound : ℕ} {r : Registry}
    (hstop : stop ≤ m.stop)
    (hbind : bind fuel m.start stop (s.loader.registry.place m) = some (unbound, r)) :
    ∃ clientsOf', Binding r s.loader.registered (s.bound m stop r).linked clientsOf' := by
  obtain ⟨r', clientsOf', hyields, hbinding, -⟩ := (h.place hvacant).bindFrom_yields m.start_pos
    (fun i hi hm => hvacant i (m.mem_space hstop hi) (h.linked i hm)) 0
  obtain ⟨-, rfl⟩ := Prod.mk.inj (hyields.eq hbind)
  exact ⟨clientsOf', hbinding⟩

/-- Registration keeps the modules where they are. -/
theorem accept {table : ℕ} {answer : ℤ} (hholds : table = 0 ∨ s.Holds table) {r : Registry}
    {clientsOf' : ℕ → List ℕ}
    (hbinding : Binding r (s.loader.accept table answer) s.loader.linked clientsOf') :
    Memory.InPlace ⟨⟨r, s.loader.accept table answer, s.loader.linked⟩, s.resident⟩
      clientsOf' := by
  refine ⟨hbinding, fun e he => ?_, h.linked⟩
  have hne : e ≠ 0 := hbinding.ne_zero he
  replace he : e ∈ s.loader.accept table answer := he
  unfold Loader.accept at he
  split_ifs at he with hneg
  · exact h.registered e he
  · rcases List.mem_cons.mp he with rfl | he
    · exact hholds.resolve_left hne
    · exact h.registered e he

/-- **One clean step** keeps the registry within the modules that are there. -/
theorem step (hstep : s.CleanStep e t) : ∃ clientsOf', t.InPlace clientsOf' := by
  obtain ⟨hstep, hleaves⟩ := hstep
  cases hstep with
  | @boot fuel unbound m r hvacant hboot =>
    obtain ⟨clientsOf', hbinding⟩ := h.bound hvacant m.text_le hboot
    refine ⟨clientsOf', hbinding, fun e he => ?_, fun i hi => ?_⟩
    · obtain ⟨m', hm', hem'⟩ := h.registered e he
      exact ⟨m', List.mem_cons_of_mem m hm', hem'⟩
    · rcases hi with hi | ⟨hi, -⟩
      · obtain ⟨m', hm', him'⟩ := h.linked i hi
        exact ⟨m', List.mem_cons_of_mem m hm', him'⟩
      · exact ⟨m, List.mem_cons_self, m.mem_space m.text_le hi⟩
  | @entered base answer =>
    by_cases hstays : answer &&& 3 = 0
    · rw [if_pos hstays]
      exact ⟨clientsOf, h.binding, h.registered, h.linked⟩
    · rw [if_neg hstays]
      -- what leaves holds nothing of the registry
      have hkept : ∀ a, a ∈ s.loader.linked ∨ a ∈ s.loader.registered → s.Holds a →
          ∃ m ∈ s.resident.filter fun m => m.start ≠ base, a ∈ m.space := by
        rintro a ha ⟨m, hm, ham⟩
        refine ⟨m, List.mem_filter.mpr ⟨hm, ?_⟩, ham⟩
        simp only [ne_eq, decide_not, Bool.not_eq_true', decide_eq_false_iff_not]
        intro hbase
        obtain ⟨hlinked, hregistered⟩ := hleaves hstays m hm hbase a ham
        exact ha.elim hlinked hregistered
      exact ⟨clientsOf, h.binding, fun e he => hkept e (.inr he) (h.registered e he),
        fun i hi => hkept i (.inl hi) (h.linked i hi)⟩
  | @load fuel m answer r hvacant hload =>
    obtain ⟨⟨answer', r'⟩, hlink, heq⟩ := Option.map_eq_some_iff.mp hload
    obtain ⟨hanswer, rfl⟩ := Prod.mk.inj heq
    obtain ⟨⟨unbound, r⟩, hbind, heq⟩ := Option.map_eq_some_iff.mp hlink
    obtain ⟨-, rfl⟩ := Prod.mk.inj heq
    rw [Nat.add_sub_cancel' m.start_le] at hbind
    obtain ⟨clientsOf', hbinding⟩ := h.bound hvacant (Nat.le_refl _) hbind
    refine ⟨clientsOf', hbinding, fun e he => ?_, fun i hi => ?_⟩
    · obtain ⟨m', hm', hem'⟩ := h.registered e he
      refine ⟨m', ?_, hem'⟩
      split_ifs
      · exact hm'
      · exact List.mem_cons_of_mem m hm'
    · show ∃ m' ∈ if answer < 0 then s.resident else m :: s.resident, i ∈ m'.space
      rcases hi with hi | ⟨hi, hserved⟩
      · obtain ⟨m', hm', him'⟩ := h.linked i hi
        refine ⟨m', ?_, him'⟩
        split_ifs
        · exact hm'
        · exact List.mem_cons_of_mem m hm'
      · -- a load that fails has had none served
        split_ifs with hneg
        · exact absurd hserved (hleaves hneg i hi)
        · exact ⟨m, List.mem_cons_self, m.mem_space (Nat.le_refl _) hi⟩
  | registerVersioned hoffered hholds hregister =>
    obtain ⟨answer', r', hyields, -, clientsOf', hbinding⟩ :=
      h.binding.registerVersioned hoffered
    obtain ⟨rfl, rfl⟩ := Prod.mk.inj (hyields.eq hregister)
    exact ⟨clientsOf', h.accept hholds hbinding⟩
  | registerPinned hoffered hholds hregister =>
    obtain ⟨-, clientsOf', hbinding⟩ := h.binding.registerPinned hoffered
    rw [hregister] at hbinding
    exact ⟨clientsOf', h.accept hholds hbinding⟩

/-- Where the registry is within the modules that are there, so are the clients. -/
theorem clientsLive : s.ClientsLive := by
  refine ⟨h.binding.registry, fun e he => ⟨h.registered e he, clientsOf e, h.binding.list e he,
    fun i hi => ?_⟩⟩
  have hlinked := h.binding.client e he i hi
  exact ⟨h.linked i hlinked, (h.binding.imports i hlinked).1⟩

/-- **A load that fails with a table bound** leaves it on a list and its memory to the next
asker. -/
theorem released_while_bound {answer : ℤ} (hstep : Memory.Step s (.load m answer) t)
    (hfails : answer < 0) (hserved : ∃ i ∈ scanned m.start m.stop,
      Served (s.loader.registry.place m) s.loader.registered i) : ¬t.ClientsLive := by
  rintro ⟨-, hlive⟩
  obtain ⟨i, hi, hserved⟩ := hserved
  cases hstep with
  | @load fuel _ _ r hvacant hload =>
    obtain ⟨⟨answer', r'⟩, hlink, heq⟩ := Option.map_eq_some_iff.mp hload
    obtain ⟨-, rfl⟩ := Prod.mk.inj heq
    obtain ⟨⟨unbound, r⟩, hbind, heq⟩ := Option.map_eq_some_iff.mp hlink
    obtain ⟨-, rfl⟩ := Prod.mk.inj heq
    rw [Nat.add_sub_cancel' m.start_le] at hbind
    obtain ⟨clientsOf', hbinding⟩ := h.bound hvacant (Nat.le_refl _) hbind
    obtain ⟨e, he, hie⟩ := hbinding.listed i (.inr ⟨hi, hserved⟩)
    obtain ⟨-, l, hl, hmem⟩ := hlive e he
    obtain rfl := (hbinding.list e he).unique hl
    obtain ⟨⟨m', hm', him'⟩, -⟩ := hmem i hie
    replace hm' : m' ∈ if answer < 0 then s.resident else m :: s.resident := hm'
    rw [if_pos hfails] at hm'
    exact hvacant i (m.mem_space (Nat.le_refl _) hi) ⟨m', hm', him'⟩

end Memory.InPlace

/-! ### Runs -/

/-- Memory as `LOADCORE`'s entry finds it: the modules `IOPBOOT` has placed, and `sysmem` on the
registry. -/
def Memory.start (memory : ℕ → LibraryTable) (sysmem : ℕ) (placed : List Module) : Memory :=
  ⟨Loader.start memory sysmem, placed⟩

/-- **Every client list names only live import tables**, in every run that leaves nothing
behind. -/
theorem clients_are_live {memory : ℕ → LibraryTable} {sysmem : ℕ} {placed : List Module}
    {events : List Event} (h₀ : sysmem ≠ 0) (hram : sysmem < kRamSize)
    (hstored : Stored (memory sysmem)) (hplaced : ∃ m ∈ placed, sysmem ∈ m.space)
    (h : Steps Memory.CleanStep (Memory.start memory sysmem placed) events s) :
    s.ClientsLive := by
  have hstart : (Memory.start memory sysmem placed).InPlace fun _ => [] := by
    refine ⟨binding_start h₀ hram hstored, fun e he => ?_, fun i hi => ?_⟩
    · rw [List.mem_singleton.mp he]
      exact hplaced
    · exact absurd hi (Set.notMem_empty i)
  have hinv : ∃ clientsOf, s.InPlace clientsOf :=
    h.invariant (I := fun s => ∃ clientsOf, s.InPlace clientsOf)
      (fun _ _ _ ⟨_, hp⟩ hstep => hp.step hstep) ⟨_, hstart⟩
  obtain ⟨clientsOf, hp⟩ := hinv
  exact hp.clientsLive

/-- `sysmem` at `0x1000`. -/
def kSysmem : Module where
  start := 0x1000
  textStop := 0x1100
  stop := 0x1200
  image := twoGenerations
  start_pos := by decide
  start_le := by decide
  text_le := by decide
  ram := by decide

/-- A module that imports `sysmem`, at `0x4000`, and a library nobody exports, at `0x4040`. -/
def kUnlinked : Module where
  start := 0x4000
  textStop := 0x4080
  stop := 0x4080
  image a :=
    { link := if a = 0x4000 ∨ a = 0x4040 then kImportMagic else 0
      clients := 0, version := 0x0101, flags := 0
      tag := if a = 0x4000 then (1, 2) else (3, 4)
      entries := [], stubs := [⟨kReturn, 0x24000001⟩] }
  start_pos := by decide
  start_le := by decide
  text_le := by decide
  ram := by decide

/-- The table that is not linked lies where nothing else does. -/
theorem kUnlinked_vacant : (Memory.start twoGenerations 0x1000 [kSysmem]).Vacant kUnlinked := by
  rintro a ⟨hlow, -⟩ ⟨m, hm, -, hstop⟩
  obtain rfl := List.mem_singleton.mp hm
  have h₁ : 0x4000 ≤ a := hlow
  have h₂ : a < 0x1200 := hstop
  omega

/-- Two generations are booted, and their clients live. -/
theorem clients_are_live_boot : ∃ s,
    Steps Memory.CleanStep (Memory.start twoGenerations 0x1000 [kSysmem])
      [.boot kUnlinked 1, .entered 0x4000 0] s ∧ s.ClientsLive := by
  have hrun : (bootModule 3 kUnlinked
      (Memory.start twoGenerations 0x1000 [kSysmem]).loader.registry).map Prod.fst = some 1 := by
    decide +kernel
  obtain ⟨⟨unbound, r⟩, hboot, rfl⟩ := Option.map_eq_some_iff.mp hrun
  have hstays : ∀ s : Memory, s.Leaves (.entered 0x4000 0) := fun s hleaves =>
    absurd rfl hleaves
  have hfirst : Memory.CleanStep _ _ _ := ⟨.boot kUnlinked_vacant hboot, trivial⟩
  have hsecond : ∀ s : Memory, Memory.CleanStep s (.entered 0x4000 0) _ := fun s =>
    ⟨.entered, hstays s⟩
  have hsteps := Steps.cons hfirst (.cons (hsecond _) (.nil _))
  exact ⟨_, hsteps, clients_are_live (by decide) (by decide) ⟨rfl, by decide⟩
    ⟨kSysmem, List.mem_singleton.mpr rfl, by decide⟩ hsteps⟩

/-- The load of `kUnlinked` fails, and its table stays on `sysmem`'s list. -/
theorem bound_table_released : ∃ s,
    Steps Memory.Step (Memory.start twoGenerations 0x1000 [kSysmem])
      [.load kUnlinked kLinkError] s ∧ ¬s.ClientsLive := by
  have hrun : (loadImage 3 kUnlinked
      (Memory.start twoGenerations 0x1000 [kSysmem]).loader.registry).map
        (fun x => (x.1, x.2.clientNext 0x1000)) = some (kLinkError, 0x4000) := by
    decide +kernel
  obtain ⟨⟨answer, r⟩, hload, heq⟩ := Option.map_eq_some_iff.mp hrun
  obtain ⟨rfl, hclient⟩ := Prod.mk.inj heq
  refine ⟨_, .cons (.load kUnlinked_vacant hload) (.nil _), ?_⟩
  rintro ⟨-, hlive⟩
  obtain ⟨-, l, hl, hmem⟩ := hlive 0x1000 (List.mem_singleton.mpr rfl)
  replace hl : Chain 0 r.clientNext (r.clientNext 0x1000) l := hl
  rw [show r.clientNext 0x1000 = 0x4000 from hclient] at hl
  obtain ⟨l', rfl, -⟩ := hl.eq_cons (by decide)
  obtain ⟨⟨m, hm, -, hstop⟩, -⟩ := hmem 0x4000 List.mem_cons_self
  obtain rfl : m = kSysmem := List.mem_singleton.mp hm
  exact absurd hstop (by decide)

end PS2Bios.Loadcore
