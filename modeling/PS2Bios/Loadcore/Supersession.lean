import PS2Bios.Library.Run
import PS2Bios.Loadcore.Binding

/-!
# Who is bound to what, over whole runs

Modules come into memory, are linked, and register their libraries, in any order: `Loader.Step`.
A module that is in memory stays there, and what a module writes into its tables it writes
before they are registered or linked (`SYSCLIB` lowers the version of its `stdio` table so that
`STDIO` may supersede it).

`Loader.WellBound` is what such a run may rely on: the import tables linked so far are each on
one client list, that of the newest unpinned table of their library, and call into it.
-/

namespace PS2Bios.Loadcore

open Intrusive

/-- The registry as it is in memory, with the export tables registered so far, newest first, and
the import tables linked so far. -/
structure Loader where
  registry : Registry
  registered : List ℕ
  linked : Set ℕ

/-- The header of an export table as a module's file stores it: no client and flags `0`. -/
structure Stored (t : LibraryTable) : Prop where
  clients : t.clients = 0
  unpinned : ¬t.Pinned

/-- What happens to the registry, with what the call answered. -/
inductive Call
  /-- Modules write these tables: one is loaded, or edits its own. -/
  | store (tables : Set ℕ)
  /-- `bind(start, stop)`, with the number of import tables that found no exporter. -/
  | link (start stop unbound : ℕ)
  | registerVersioned (table : ℕ) (answer : ℤ)
  | registerPinned (table : ℕ) (answer : ℤ)

/-- The words from `start` to `stop`. -/
def scanned (start stop : ℕ) : List ℕ := scan ((stop - start + 3) / 4) start

namespace Loader

/-- The export tables after a registration. -/
def accept (s : Loader) (table : ℕ) (answer : ℤ) : List ℕ :=
  if answer < 0 then s.registered else table :: s.registered

/-- A table handed to a registration: an export table that still has its magic is in RAM, as its
file stored it. -/
def Offered (s : Loader) (table : ℕ) : Prop :=
  (s.registry.table table).link = kExportMagic →
    table < kRamSize ∧ Stored (s.registry.table table)

/-- One step of the loading of modules. -/
inductive Step : Loader → Call → Loader → Prop
  | store {s : Loader} {p : Set ℕ} {table' : ℕ → LibraryTable}
      (hregistered : ∀ a ∈ p, a ∉ s.registered) (hlinked : ∀ a ∈ p, a ∉ s.linked)
      (htable : ∀ a ∉ p, table' a = s.registry.table a) :
      Step s (.store p) { s with registry := { s.registry with table := table' } }
  | link {s : Loader} {fuel start stop unbound : ℕ} {r : Registry} (hstart : 0 < start)
      (honce : ∀ i ∈ scanned start stop, i ∉ s.linked)
      (hbind : bind fuel start stop s.registry = some (unbound, r)) :
      Step s (.link start stop unbound)
        ⟨r, s.registered,
          s.linked ∪ {i | i ∈ scanned start stop ∧ Served s.registry s.registered i}⟩
  | registerVersioned {s : Loader} {fuel table : ℕ} {answer : ℤ} {r : Registry}
      (hoffered : s.Offered table)
      (hregister : Loadcore.registerVersioned fuel table s.registry = some (answer, r)) :
      Step s (.registerVersioned table answer) ⟨r, s.accept table answer, s.linked⟩
  | registerPinned {s : Loader} {table : ℕ} {answer : ℤ} {r : Registry}
      (hoffered : s.Offered table)
      (hregister : Loadcore.registerPinned table s.registry = (answer, r)) :
      Step s (.registerPinned table answer) ⟨r, s.accept table answer, s.linked⟩

/-- The registry as `LOADCORE`'s entry starts it: `sysmem`'s table and nothing behind it. -/
def start (memory : ℕ → LibraryTable) (sysmem : ℕ) : Loader :=
  { registry :=
      { head := sysmem
        table := Function.update memory sysmem { memory sysmem with link := 0 } }
    registered := [sysmem]
    linked := ∅ }

/-- Everyone is bound to the newest. -/
structure WellBound (s : Loader) (clientsOf : ℕ → List ℕ) : Prop where
  registry : Chain 0 (fun a => (s.registry.table a).link) s.registry.head s.registered
  clients : ∀ e ∈ s.registered,
    Chain 0 s.registry.clientNext (s.registry.clientNext e) (clientsOf e) ∧ (clientsOf e).Nodup
  /-- A linked import table is on one list; the table it is on serves it; every other that does
  is older; and its stubs call that table. -/
  newest : ∀ i ∈ s.linked, ∃ e ∈ s.registered, i ∈ clientsOf e ∧
    (∀ e' ∈ s.registered, i ∈ clientsOf e' → e' = e) ∧
    s.registry.Serves i e ∧
    (∀ e' ∈ s.registered, s.registry.Serves i e' → e' ≠ e →
      (s.registry.table e').minor < (s.registry.table e).minor) ∧
    BoundTo (s.registry.table e).entries (s.registry.table i).stubs
  descending : s.registered.Pairwise fun e e' =>
    ¬(s.registry.table e).Pinned → ¬(s.registry.table e').Pinned →
    (s.registry.table e').SameLibrary (s.registry.table e) →
    (s.registry.table e').minor < (s.registry.table e).minor

end Loader

/-! ### One step -/

variable {s t : Loader} {clientsOf : ℕ → List ℕ} {c : Call} {table fuel : ℕ}

/-- What a versioned registration answers, and that it answers. -/
theorem Binding.registerVersioned {s : Registry} {registered : List ℕ} {linked : Set ℕ}
    (h : Binding s registered linked clientsOf)
    (hoffered : (s.table table).link = kExportMagic → table < kRamSize ∧ Stored (s.table table)) :
    ∃ answer s', Yields (fun n => Loadcore.registerVersioned n table s) (answer, s') ∧
      (answer < 0 → s' = s) ∧
      ∃ clientsOf',
        Binding s' (if answer < 0 then registered else table :: registered) linked clientsOf' := by
  by_cases hguard : table = 0 ∨ (s.table table).link ≠ kExportMagic
  · refine ⟨kErrorIllegalLibrary, s, ?_, fun _ => rfl, clientsOf, ?_⟩
    · simp only [Loadcore.registerVersioned, if_pos hguard]
      exact Yields.const _
    · rw [if_pos (by decide)]
      exact h
  · obtain ⟨h₀, hmagic⟩ := not_or.mp hguard
    have hmagic := not_not.mp hmagic
    by_cases hrefused : ∃ e ∈ registered, Refuses s table e
    · refine ⟨kErrorLibraryFound, s, ?_, fun _ => rfl, clientsOf, ?_⟩
      · simp only [Loadcore.registerVersioned, if_neg hguard]
        exact (h.takeClients_refused hrefused).bind (Yields.const _)
      · rw [if_pos (by decide)]
        exact h
    · obtain ⟨hram, hstored⟩ := hoffered hmagic
      obtain ⟨s', clientsOf', hyields, hbinding⟩ := h.registerVersioned_accepted h₀ hram hmagic
        hstored.clients hstored.unpinned fun e he hr => hrefused ⟨e, he, hr⟩
      refine ⟨0, s', hyields, fun hneg => absurd hneg (by decide), clientsOf', ?_⟩
      rw [if_neg (by decide)]
      exact hbinding

/-- What a pinned registration answers. -/
theorem Binding.registerPinned {s : Registry} {registered : List ℕ} {linked : Set ℕ}
    (h : Binding s registered linked clientsOf)
    (hoffered : (s.table table).link = kExportMagic → table < kRamSize ∧ Stored (s.table table)) :
    ((Loadcore.registerPinned table s).1 < 0 → (Loadcore.registerPinned table s).2 = s) ∧
      ∃ clientsOf', Binding (Loadcore.registerPinned table s).2
        (if (Loadcore.registerPinned table s).1 < 0 then registered else table :: registered)
        linked clientsOf' := by
  by_cases hguard : table = 0 ∨ (s.table table).link ≠ kExportMagic
  · have hrefused : Loadcore.registerPinned table s = (kErrorIllegalLibrary, s) := if_pos hguard
    rw [hrefused]
    refine ⟨fun _ => rfl, clientsOf, ?_⟩
    rw [if_pos (show kErrorIllegalLibrary < 0 by decide)]
    exact h
  · obtain ⟨h₀, hmagic⟩ := not_or.mp hguard
    have hmagic := not_not.mp hmagic
    obtain ⟨hram, hstored⟩ := hoffered hmagic
    obtain ⟨hanswer, clientsOf', hbinding⟩ :=
      h.registerPinned_accepted h₀ hram hmagic hstored.clients
    rw [hanswer, if_neg (by decide)]
    exact ⟨fun hneg => absurd hneg (by decide), clientsOf', hbinding⟩

/-- **One step** leaves the registry in good order. -/
theorem Binding.step (h : Binding s.registry s.registered s.linked clientsOf)
    (hstep : Loader.Step s c t) :
    ∃ clientsOf', Binding t.registry t.registered t.linked clientsOf' := by
  cases hstep with
  | @store p table' hregistered hlinked htable =>
    refine ⟨clientsOf, h.congr rfl (fun e he => htable e ?_) fun i hi => htable i ?_⟩
    · exact fun hm => hregistered e hm he
    · exact fun hm => hlinked i hm hi
  | link hstart honce hbind =>
    obtain ⟨r', clientsOf', hyields, hbinding, -⟩ := h.bindFrom_yields hstart honce 0
    obtain ⟨-, rfl⟩ := Prod.mk.inj (hyields.eq hbind)
    exact ⟨clientsOf', hbinding⟩
  | registerVersioned hoffered hregister =>
    obtain ⟨answer', r', hyields, -, clientsOf', hbinding⟩ := h.registerVersioned hoffered
    obtain ⟨rfl, rfl⟩ := Prod.mk.inj (hyields.eq hregister)
    exact ⟨clientsOf', hbinding⟩
  | registerPinned hoffered hregister =>
    obtain ⟨-, clientsOf', hbinding⟩ := h.registerPinned hoffered
    rw [hregister] at hbinding
    exact ⟨clientsOf', hbinding⟩

/-! ### Runs -/

/-- The registry starts in good order. -/
theorem binding_start {memory : ℕ → LibraryTable} {sysmem : ℕ} (h₀ : sysmem ≠ 0)
    (hram : sysmem < kRamSize) (hstored : Stored (memory sysmem)) :
    Binding (Loader.start memory sysmem).registry (Loader.start memory sysmem).registered
      (Loader.start memory sysmem).linked fun _ => [] := by
  have htable : (Loader.start memory sysmem).registry.table sysmem =
      { memory sysmem with link := 0 } := Function.update_self ..
  constructor
  case registry =>
    refine ⟨rfl, h₀, ?_⟩
    show ((Loader.start memory sysmem).registry.table sysmem).link = 0
    rw [htable]
  case nodup => exact List.nodup_singleton sysmem
  case ram =>
    intro e he
    rw [List.mem_singleton.mp he]
    exact hram
  case list =>
    intro e he
    rw [List.mem_singleton.mp he]
    show ((Loader.start memory sysmem).registry.table sysmem).clients = 0
    rw [htable]
    exact hstored.clients
  case once => exact fun _ _ => List.nodup_nil
  case newest => exact fun _ _ _ hi => absurd hi List.not_mem_nil
  case client => exact fun _ _ _ hi => absurd hi List.not_mem_nil
  case listed => exact fun _ hi => absurd hi (Set.notMem_empty _)
  case imports => exact fun _ hi => absurd hi (Set.notMem_empty _)
  case bound => exact fun _ _ _ hi => absurd hi List.not_mem_nil
  case descending => exact List.pairwise_singleton _ sysmem

/-- A registry in good order binds everyone to the newest. -/
theorem Binding.wellBound (h : Binding s.registry s.registered s.linked clientsOf) :
    s.WellBound clientsOf := by
  refine ⟨h.registry, fun e he => ⟨h.list e he, h.once e he⟩, fun i hi => ?_, ?_⟩
  · obtain ⟨e, he, hie⟩ := h.listed i hi
    have hnewest := h.newest e he i hie
    have hserves := Registry.serves_of_exporterOf hnewest
    refine ⟨e, he, hie, fun e' he' hie' => h.unique he' he hie' hie, hserves, ?_,
      h.bound e he i hie⟩
    intro e' he' hserves' hne
    -- the binder meets `e` first, so `e'` is behind it
    obtain ⟨-, l, rest, hl, hbefore⟩ := List.find?_eq_some_iff_append.mp hnewest
    have hbehind : e' ∈ rest := by
      rw [hl] at he'
      rcases List.mem_append.mp he' with hm | hm
      · exact absurd hserves' (by simpa using hbefore e' hm)
      · exact (List.mem_cons.mp hm).resolve_left hne
    have hdescending := h.descending
    rw [hl] at hdescending
    have htail := (List.pairwise_append.mp hdescending).2.1
    exact (List.pairwise_cons.mp htail).1 e' hbehind hserves.2
      (Registry.sameLibrary_trans hserves'.1 (Registry.sameLibrary_symm hserves.1))
  · exact h.descending.imp fun hlt hun _ hsame => hlt hun hsame

/-- **Everyone is bound to the newest, after any run** of loadings, links and registrations; a
registration that is refused leaves memory as it was; and both registrations and links return. -/
theorem clients_are_on_the_newest {memory : ℕ → LibraryTable} {sysmem : ℕ} {calls : List Call}
    (h₀ : sysmem ≠ 0) (hram : sysmem < kRamSize) (hstored : Stored (memory sysmem))
    (h : Steps Loader.Step (Loader.start memory sysmem) calls s) :
    (∃ clientsOf, s.WellBound clientsOf) ∧
      (∀ table, s.Offered table →
        (∃ fuel answer r, registerVersioned fuel table s.registry = some (answer, r)) ∧
        (∀ fuel answer r, registerVersioned fuel table s.registry = some (answer, r) →
          answer < 0 → r = s.registry) ∧
        ((registerPinned table s.registry).1 < 0 →
          (registerPinned table s.registry).2 = s.registry)) ∧
      ∀ start stop, 0 < start → (∀ i ∈ scanned start stop, i ∉ s.linked) →
        ∃ fuel unbound r, bind fuel start stop s.registry = some (unbound, r) := by
  have hinv : ∃ clientsOf, Binding s.registry s.registered s.linked clientsOf :=
    h.invariant (I := fun s => ∃ clientsOf, Binding s.registry s.registered s.linked clientsOf)
      (fun _ _ _ ⟨_, hb⟩ hstep => hb.step hstep) ⟨_, binding_start h₀ hram hstored⟩
  obtain ⟨clientsOf, hb⟩ := hinv
  refine ⟨⟨clientsOf, hb.wellBound⟩, fun table hoffered => ?_, fun start stop hstart honce => ?_⟩
  · obtain ⟨answer, r, hyields, hrefused, -⟩ := hb.registerVersioned hoffered
    refine ⟨?_, fun fuel answer' r' hregister hneg => ?_, (hb.registerPinned hoffered).1⟩
    · obtain ⟨fuel, hfuel⟩ := hyields.returns
      exact ⟨fuel, answer, r, hfuel⟩
    · obtain ⟨rfl, rfl⟩ := Prod.mk.inj (hyields.eq hregister)
      exact hrefused hneg
  · obtain ⟨r, -, hyields, -⟩ := hb.bindFrom_yields hstart honce 0
    obtain ⟨fuel, hfuel⟩ := hyields.returns
    exact ⟨fuel, _, r, hfuel⟩

/-- Two generations of `sysmem`, at `0x1000` and `0x3000`, and an importer of it at `0x2000`. -/
def twoGenerations (a : ℕ) : LibraryTable :=
  if a = 0x2000 then
    { link := kImportMagic, clients := 0, version := 0x0101, flags := 0, tag := (1, 2)
      entries := [], stubs := [⟨kReturn, 0x24000001⟩] }
  else
    { link := kExportMagic, clients := 0, version := if a = 0x3000 then 0x0102 else 0x0101
      flags := 0, tag := (1, 2), entries := [0x1100, (a + 0x100).toUInt32], stubs := [] }

/-- A second version of a library is registered behind the first, and the client is moved to it. -/
theorem clients_are_on_the_newest_two : ∃ s,
    Steps Loader.Step (Loader.start twoGenerations 0x1000)
      [.link 0x2000 0x2004 0, .registerVersioned 0x3000 0] s ∧
    ∃ clientsOf, s.WellBound clientsOf := by
  have hrun : ((bind 3 0x2000 0x2004 (Loader.start twoGenerations 0x1000).registry).bind fun x =>
      (registerVersioned 3 0x3000 x.2).map fun y =>
        (x.1, y.1, x.2.table 0x3000)) = some (0, 0, twoGenerations 0x3000) := by
    decide +kernel
  obtain ⟨⟨unbound, r⟩, hbind, hrest⟩ := Option.bind_eq_some_iff.mp hrun
  obtain ⟨⟨answer, r'⟩, hregister, heq⟩ := Option.map_eq_some_iff.mp hrest
  obtain ⟨rfl, heq⟩ := Prod.mk.inj heq
  obtain ⟨rfl, htable⟩ := Prod.mk.inj heq
  have hlink := Loader.Step.link (s := Loader.start twoGenerations 0x1000)
    (show 0 < 0x2000 by decide) (fun i _ => Set.notMem_empty i) hbind
  have hsteps := Steps.cons hlink (.cons (.registerVersioned (fun _ => ?_) hregister) (.nil _))
  · exact ⟨_, hsteps, (clients_are_on_the_newest (by decide) (by decide) ⟨rfl, by decide⟩
      hsteps).1⟩
  · show 0x3000 < kRamSize ∧ Stored (r.table 0x3000)
    rw [show r.table 0x3000 = twoGenerations 0x3000 from htable]
    exact ⟨by decide, rfl, by decide⟩

end PS2Bios.Loadcore
