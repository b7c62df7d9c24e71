import Mathlib.Data.Set.Insert
import PS2Bios.Loadcore.Walks

/-!
# The binding invariant

`Binding s registered linked clientsOf` says what a registry in good order looks like: it is the
list `registered`, newest first; the client list of each table `e` is `clientsOf e`; the import
tables in `linked` are each on the list of the table a walk of the binder would find for them
now; and of the unpinned tables of one library each is newer than every table behind it.

The last is what makes a refusal harmless. A registration takes clients while it is still
comparing versions, but the one table that has any is the first unpinned one of its library, and
behind that one every version is smaller.
-/

namespace PS2Bios.Loadcore

open Intrusive

variable {s s' : Registry} {registered : List ℕ} {linked : Set ℕ} {clientsOf : ℕ → List ℕ}
variable {a e i table u words address unbound : ℕ}

/-- The table a walk of the binder finds for `i`. -/
def Registry.exporterOf (s : Registry) (registered : List ℕ) (i : ℕ) : Option ℕ :=
  registered.find? fun e => s.Serves i e

/-- A registry in good order. -/
structure Binding (s : Registry) (registered : List ℕ) (linked : Set ℕ)
    (clientsOf : ℕ → List ℕ) : Prop where
  registry : Chain 0 (fun a => (s.table a).link) s.head registered
  nodup : registered.Nodup
  ram : ∀ e ∈ registered, e < kRamSize
  list : ∀ e ∈ registered, Chain 0 s.clientNext (s.clientNext e) (clientsOf e)
  once : ∀ e ∈ registered, (clientsOf e).Nodup
  newest : ∀ e ∈ registered, ∀ i ∈ clientsOf e, s.exporterOf registered i = some e
  client : ∀ e ∈ registered, ∀ i ∈ clientsOf e, i ∈ linked
  listed : ∀ i ∈ linked, ∃ e ∈ registered, i ∈ clientsOf e
  imports : ∀ i ∈ linked, (s.table i).Imports
  bound : ∀ e ∈ registered, ∀ i ∈ clientsOf e,
    BoundTo (s.table e).entries (s.table i).stubs
  descending : registered.Pairwise fun e e' => ¬(s.table e).Pinned →
    (s.table e').SameLibrary (s.table e) → (s.table e').minor < (s.table e).minor

namespace Registry

theorem sameLibrary_symm {t v : LibraryTable} (h : t.SameLibrary v) : v.SameLibrary t :=
  ⟨h.1.symm, h.2.symm⟩

theorem sameLibrary_trans {t v w : LibraryTable} (h : t.SameLibrary v) (h' : v.SameLibrary w) :
    t.SameLibrary w :=
  ⟨h.1.trans h'.1, h.2.trans h'.2⟩

/-- Only the importer's library matters to what serves it. -/
theorem serves_congr (h : (s.table i).SameLibrary (s.table a)) :
    s.Serves i e ↔ s.Serves a e :=
  and_congr_left fun _ =>
    ⟨fun hs => sameLibrary_trans hs h, fun hs => sameLibrary_trans hs (sameLibrary_symm h)⟩

/-- The exporter depends on the library's name and version only. -/
theorem exporterOf_congr (h : (s.table i).SameLibrary (s.table a)) (l : List ℕ) :
    s.exporterOf l i = s.exporterOf l a := by
  unfold exporterOf
  congr 1
  funext e
  exact decide_eq_decide.mpr (serves_congr h)

/-- What serves an importer is settled by the registered tables and its own. -/
theorem exporterOf_agree {l : List ℕ} (hl : ∀ e ∈ l, s'.table e = s.table e)
    (hi : s'.table i = s.table i) : s'.exporterOf l i = s.exporterOf l i := by
  induction l with
  | nil => rfl
  | cons x xs ih =>
    have hx : s'.Serves i x ↔ s.Serves i x := by
      unfold Serves
      rw [hi, hl x List.mem_cons_self]
    have hxs := ih fun e he => hl e (List.mem_cons_of_mem x he)
    unfold exporterOf at hxs ⊢
    simp only [List.find?_cons, hx, hxs]

theorem exporterOf_mem (h : s.exporterOf registered i = some e) : e ∈ registered :=
  List.mem_of_find?_eq_some h

theorem serves_of_exporterOf (h : s.exporterOf registered i = some e) : s.Serves i e := by
  simpa using List.find?_some h

end Registry

open Registry

namespace Binding

variable (h : Binding s registered linked clientsOf)
include h

theorem ne_zero (he : e ∈ registered) : e ≠ 0 := by
  rintro rfl
  exact h.registry.nil_not_mem he

/-- The link word of a registered table is an address in RAM, or null. -/
theorem link_lt (he : e ∈ registered) : (s.table e).link < kRamSize := by
  rcases h.registry.next_mem he with hnil | hmem
  · rw [hnil]
    decide
  · exact h.ram _ hmem

theorem not_mem_of_magic (ha : (s.table a).link = kExportMagic) : a ∉ registered := by
  intro hm
  have hlt := h.link_lt hm
  rw [ha] at hlt
  exact absurd hlt (by decide)

theorem not_mem_of_linked (hi : i ∈ linked) : i ∉ registered := by
  intro hm
  have hlt := h.link_lt hm
  rw [(h.imports i hi).1] at hlt
  exact absurd hlt (by decide)

theorem not_linked_of_magic (ha : (s.table a).link = kExportMagic) : a ∉ linked := by
  intro hm
  have hlink := (h.imports a hm).1
  rw [ha] at hlink
  exact absurd hlink (by decide)

theorem not_client (he : e ∈ registered) (ha : a ∈ registered) : a ∉ clientsOf e := fun hm =>
  h.not_mem_of_linked (h.client e he a hm) ha

/-- An import table is on one client list only. -/
theorem unique (he : e ∈ registered) (ha : a ∈ registered) (hi : i ∈ clientsOf e)
    (hia : i ∈ clientsOf a) : e = a :=
  Option.some.inj ((h.newest e he i hi).symm.trans (h.newest a ha i hia))

/-- No client is pinned. -/
theorem not_pinned (hi : i ∈ linked) : ¬(s.table i).Pinned := by
  have hflags : (s.table i).flags &&& 7 = 0 := (h.imports i hi).2
  have hbit : (s.table i).flags &&& 1 = (s.table i).flags &&& 7 &&& 1 := by
    rw [UInt16.and_assoc]
    rfl
  rw [LibraryTable.Pinned, hbit, hflags]
  decide

/-- A table of `table`'s library with a client is the one the binder finds for that library. -/
theorem exporterOf_of_client (he : e ∈ registered) (hi : i ∈ clientsOf e)
    (hsame : (s.table e).SameLibrary (s.table table)) :
    s.exporterOf registered table = some e := by
  have hnewest := h.newest e he i hi
  have hserves := serves_of_exporterOf hnewest
  rw [← hnewest]
  exact (exporterOf_congr (sameLibrary_trans (sameLibrary_symm hserves.1) hsame) registered).symm

/-- Every other table of the library has an empty client list. -/
theorem clientNext_eq_zero (he : e ∈ registered)
    (hsame : (s.table e).SameLibrary (s.table table))
    (hne : s.exporterOf registered table ≠ some e) : s.clientNext e = 0 := by
  have hlist := h.list e he
  match hl : clientsOf e with
  | [] =>
    rw [hl] at hlist
    exact hlist
  | i :: is =>
    have hi : i ∈ clientsOf e := by
      rw [hl]
      exact List.mem_cons_self
    exact absurd (h.exporterOf_of_client he hi hsame) hne

end Binding

/-! ### Registration, versioned -/

/-- The clients a registration of `table` moves. -/
def moved (s : Registry) (registered : List ℕ) (clientsOf : ℕ → List ℕ) (table : ℕ) : List ℕ :=
  (s.exporterOf registered table).elim [] clientsOf

/-- A client that moves was one of a registered table that exported its library. -/
theorem mem_moved (hi : i ∈ moved s registered clientsOf table) :
    ∃ u ∈ registered, s.exporterOf registered table = some u ∧ i ∈ clientsOf u := by
  unfold moved at hi
  cases hu : s.exporterOf registered table with
  | none =>
    rw [hu] at hi
    exact absurd hi List.not_mem_nil
  | some u =>
    rw [hu] at hi
    exact ⟨u, exporterOf_mem hu, rfl, hi⟩

namespace Binding

variable (h : Binding s registered linked clientsOf)
include h

theorem moved_linked (hi : i ∈ moved s registered clientsOf table) : i ∈ linked := by
  obtain ⟨u, hu, -, hiu⟩ := mem_moved hi
  exact h.client u hu i hiu

theorem moved_nodup : (moved s registered clientsOf table).Nodup := by
  unfold moved
  cases hu : s.exporterOf registered table with
  | none => exact List.nodup_nil
  | some u => exact h.once u (exporterOf_mem hu)

/-- A registration that some table refuses has written nothing when it meets that table. -/
theorem takeClients_refused (hrefused : ∃ e ∈ registered, Refuses s table e) :
    Yields (fun n => takeClients table n s.head 0 s) (none, s) := by
  -- the first table that refuses
  obtain ⟨e, he⟩ : ∃ e, registered.find? (fun e => Refuses s table e) = some e := by
    rw [← Option.isSome_iff_exists, List.find?_isSome]
    simpa using hrefused
  obtain ⟨hrefuses, l, rest, hl, hbefore⟩ := List.find?_eq_some_iff_append.mp he
  simp only [decide_eq_true_eq] at hrefuses
  have hpass : ∀ x ∈ l, ¬Refuses s table x := fun x hx => by simpa using hbefore x hx
  have hmem : ∀ x ∈ l, x ∈ registered := fun x hx => by
    rw [hl]
    exact List.mem_append_left _ hx
  refine Loadcore.takeClients_refused (hl ▸ h.registry) hpass (fun x hx hsame => ?_) hrefuses
  -- were `x` the table with clients, the one that refuses would be older than it, and so than
  -- `table`
  refine h.clientNext_eq_zero (hmem x hx) hsame fun hex => ?_
  have hserves := serves_of_exporterOf hex
  have hordered : (s.table e).minor < (s.table x).minor := by
    have hpair := h.descending
    rw [hl] at hpair
    exact (List.pairwise_append.mp hpair).2.2 x hx e List.mem_cons_self hserves.2
      (sameLibrary_trans hrefuses.1 (sameLibrary_symm hserves.1))
  exact hpass x hx ⟨hserves.1, le_of_lt (lt_of_le_of_lt hrefuses.2 hordered)⟩

/-- A registration that no table refuses takes the clients of the newest table of the library. -/
theorem takeClients_accepted (hpass : ∀ e ∈ registered, ¬Refuses s table e) :
    ∃ t s', Yields (fun n => takeClients table n s.head 0 s) (some t, s') ∧
      Chain 0 s'.clientNext t (moved s registered clientsOf table).reverse ∧
      (∀ u, s.exporterOf registered table = some u → s'.clientNext u = 0) ∧
      Keeps ((s.exporterOf registered table).toList ++ moved s registered clientsOf table)
        s s' := by
  cases hex : s.exporterOf registered table with
  | none =>
    have hl : Chain 0 (fun a => (s.table a).link) s.head (registered ++ []) := by
      simpa using h.registry
    refine ⟨0, s, takeClients_past hl hpass (fun x hx hsame => ?_) (fun w hw => ?_), ?_, ?_, ?_⟩
    · exact h.clientNext_eq_zero hx hsame (by simp [hex])
    · obtain rfl : w = 0 := hw
      exact takeClients_end
    · simp [moved, hex, Chain]
    · exact fun u hu => absurd hu (by simp)
    · exact Keeps.refl _ s
  | some u =>
    obtain ⟨hserves, l, rest, hl, -⟩ := List.find?_eq_some_iff_append.mp hex
    simp only [decide_eq_true_eq] at hserves
    have hu : u ∈ registered := exporterOf_mem hex
    have hmem : ∀ x ∈ l ++ rest, x ∈ registered ∧ x ≠ u := by
      intro x hx
      have hnodup := h.nodup
      rw [hl, List.nodup_append] at hnodup
      obtain ⟨-, hrest, hdisj⟩ := hnodup
      rcases List.mem_append.mp hx with hx | hx
      · exact ⟨by rw [hl]; exact List.mem_append_left _ hx, hdisj x hx u List.mem_cons_self⟩
      · refine ⟨by rw [hl]; exact List.mem_append_right _ (List.mem_cons_of_mem u hx), ?_⟩
        rintro rfl
        exact (List.nodup_cons.mp hrest).1 hx
    have hempty : ∀ x ∈ l ++ rest, (s.table x).SameLibrary (s.table table) →
        s.clientNext x = 0 := by
      intro x hx hsame
      refine h.clientNext_eq_zero (hmem x hx).1 hsame ?_
      rw [hex]
      exact fun hc => (hmem x hx).2 (Option.some.inj hc).symm
    have hmoved : moved s registered clientsOf table = clientsOf u := by simp [moved, hex]
    have hnewer : (s.table u).minor < (s.table table).minor :=
      lt_of_not_ge fun hge => hpass u hu ⟨hserves.1, hge⟩
    obtain ⟨t, s', hchain, hclear, hkeeps, htake⟩ := takeClients_take
      (h.ne_zero hu) hserves.1 hnewer (h.list u hu) (h.not_client hu hu) (h.once u hu)
      (fun x hx => h.not_pinned (h.client u hu x hx))
    -- behind `u` nothing refuses and nothing has a client, before the taking and after it
    have hbehind : ∀ x ∈ rest, x ∉ u :: clientsOf u := by
      intro x hx
      obtain ⟨hxr, hxu⟩ := hmem x (List.mem_append_right l hx)
      exact List.not_mem_cons_of_ne_of_not_mem hxu (h.not_client hu hxr)
    refine ⟨t, s', ?_, by rwa [hmoved], ?_, ?_⟩
    · refine takeClients_past (hl ▸ h.registry) (fun x hx => hpass x
        (hmem x (List.mem_append_left rest hx)).1)
        (fun x hx => hempty x (List.mem_append_left rest hx)) (fun w hw => ?_)
      obtain ⟨rfl, -, hrest⟩ := hw
      have hrest' : Chain 0 (fun a => (s'.table a).link) ((fun a => (s.table a).link) w)
          (rest ++ []) := by
        simpa using hkeeps.registry hrest
      refine htake (some t, s') (takeClients_past hrest' ?_ ?_ ?_)
      · intro x hx hrefuses
        refine hpass x (hmem x (List.mem_append_right l hx)).1 ?_
        simpa only [Refuses, hkeeps.sameLibrary_iff, hkeeps.minor] using hrefuses
      · intro x hx hsame
        rw [hkeeps.clientNext (hbehind x hx)]
        exact hempty x (List.mem_append_right l hx) ((hkeeps.sameLibrary_iff x table).mp hsame)
      · intro w hw
        obtain rfl : w = 0 := hw
        exact takeClients_end
    · intro v hv
      obtain rfl := Option.some.inj hv
      exact hclear
    · rw [hmoved]
      exact hkeeps

end Binding

/-! ### A table joins the registry -/

@[simp]
theorem registerAccept_head : (s.registerAccept table).head = table := rfl

theorem registerAccept_of_ne (h : a ≠ table) : (s.registerAccept table).table a = s.table a :=
  setTable_of_ne _ h

/-- Only the link word is written. -/
theorem registerAccept_header (s : Registry) (table a : ℕ) :
    ∃ link, (s.registerAccept table).table a = { s.table a with link := link } := by
  rcases eq_or_ne a table with rfl | ha
  · exact ⟨s.head, setTable_self _⟩
  · exact ⟨(s.table a).link, registerAccept_of_ne ha⟩

@[simp]
theorem registerAccept_clientNext : (s.registerAccept table).clientNext = s.clientNext := by
  funext a
  obtain ⟨link, heq⟩ := registerAccept_header s table a
  show ((s.registerAccept table).table a).clients = (s.table a).clients
  rw [heq]

/-- Registering a table changes nobody's fit to another. -/
theorem registerAccept_serves_iff : (s.registerAccept table).Serves i e ↔ s.Serves i e := by
  obtain ⟨link, heq⟩ := registerAccept_header s table e
  obtain ⟨link', heq'⟩ := registerAccept_header s table i
  unfold Serves
  rw [heq, heq']
  rfl

/-- Registering a table changes no library's name. -/
theorem registerAccept_sameLibrary_iff : ((s.registerAccept table).table a).SameLibrary
    ((s.registerAccept table).table e) ↔ (s.table a).SameLibrary (s.table e) := by
  obtain ⟨link, heq⟩ := registerAccept_header s table a
  obtain ⟨link', heq'⟩ := registerAccept_header s table e
  rw [heq, heq']
  rfl

theorem registerAccept_minor : ((s.registerAccept table).table a).minor = (s.table a).minor := by
  obtain ⟨link, heq⟩ := registerAccept_header s table a
  rw [heq]
  rfl

theorem registerAccept_pinned_iff :
    ((s.registerAccept table).table a).Pinned ↔ (s.table a).Pinned := by
  obtain ⟨link, heq⟩ := registerAccept_header s table a
  rw [heq]
  rfl

/-- In front of a registry it is not on, a table heads the longer one. -/
theorem registerAccept_registry (h₀ : table ≠ 0) (hnew : table ∉ registered)
    (h : Chain 0 (fun a => (s.table a).link) s.head registered) :
    Chain 0 (fun a => ((s.registerAccept table).table a).link) table (table :: registered) := by
  refine ⟨rfl, h₀, ?_⟩
  have hlink : ((s.registerAccept table).table table).link = s.head :=
    congrArg LibraryTable.link (setTable_self _)
  show Chain 0 _ ((s.registerAccept table).table table).link registered
  rw [hlink]
  refine h.congr fun y hy => ?_
  have hy' : y ≠ table := by
    rintro rfl
    exact hnew hy
  exact congrArg LibraryTable.link (registerAccept_of_ne hy')

namespace Binding

/-- What `exporterOf` answers once `table`, which serves nothing new, is on the registry. -/
theorem exporterOf_cons_of_not (hs : ∀ e, s'.Serves i e ↔ s.Serves i e) (h : ¬s.Serves i table) :
    s'.exporterOf (table :: registered) i = s.exporterOf registered i := by
  simp only [exporterOf, hs, List.find?_cons, h, decide_false]

theorem exporterOf_cons (h : s'.Serves i table) :
    s'.exporterOf (table :: registered) i = some table := by
  simp only [exporterOf, List.find?_cons, h, decide_true]

variable (h : Binding s registered linked clientsOf)
include h

/-- What a versioned registration that is accepted has written by the time it links the table
in: the clients of its library's newest table are its own, and bound against it. -/
theorem registerVersioned_yields (h₀ : table ≠ 0) (hmagic : (s.table table).link = kExportMagic)
    (hclients : s.clientNext table = 0) (hpass : ∀ e ∈ registered, ¬Refuses s table e) :
    ∃ s', Yields (fun n => registerVersioned n table s) (0, s'.registerAccept table) ∧
      Chain 0 s'.clientNext (s'.clientNext table) (moved s registered clientsOf table) ∧
      (∀ i ∈ moved s registered clientsOf table,
        BoundTo (s.table table).entries (s'.table i).stubs) ∧
      (∀ u, s.exporterOf registered table = some u → s'.clientNext u = 0) ∧
      Keeps (table :: ((s.exporterOf registered table).toList ++
        moved s registered clientsOf table)) s s' := by
  obtain ⟨t, s₁, htake, hchain, hclear, hkeeps₁⟩ := h.takeClients_accepted hpass
  have hlinked : ∀ i ∈ moved s registered clientsOf table, i ∈ linked := fun i hi =>
    h.moved_linked hi
  have hnodup : (moved s registered clientsOf table).reverse.Nodup :=
    List.nodup_reverse.mpr h.moved_nodup
  generalize moved s registered clientsOf table = l at *
  have htable : table ∉ (s.exporterOf registered table).toList ++ l := by
    intro hm
    rcases List.mem_append.mp hm with hm | hm
    · exact h.not_mem_of_magic hmagic (exporterOf_mem (Option.mem_toList.mp hm))
    · exact h.not_linked_of_magic hmagic (hlinked table hm)
  have hempty : Chain 0 s₁.clientNext (s₁.clientNext table) [] :=
    (hkeeps₁.clientNext htable).trans hclients
  obtain ⟨s₂, hadopt, hchain₂, hbound, hkeeps₂⟩ := adoptClients_yields hchain hnodup hempty
    (fun hm => htable (List.mem_append_right _ (List.mem_reverse.mp hm))) List.not_mem_nil
    (fun _ _ => List.not_mem_nil)
  have hreverse : ∀ i, i ∈ l.reverse ↔ i ∈ l := fun i => List.mem_reverse
  refine ⟨s₂, ?_, by simpa using hchain₂, fun i hi => ?_, fun u hu => ?_, ?_⟩
  · have hguard : ¬(table = 0 ∨ (s.table table).link ≠ kExportMagic) := by
      simp [h₀, hmagic]
    unfold registerVersioned
    simp only [if_neg hguard]
    exact htake.bind (hadopt.map fun s => ((0 : ℤ), s.registerAccept table))
  · rw [← hkeeps₁.entries]
    exact hbound i ((hreverse i).mpr hi)
  · rw [hkeeps₂.clientNext, hclear u hu]
    intro hm
    rcases List.mem_cons.mp hm with rfl | hm
    · exact h.not_mem_of_magic hmagic (exporterOf_mem hu)
    · exact h.not_mem_of_linked (hlinked u ((hreverse u).mp hm)) (exporterOf_mem hu)
  · refine (hkeeps₁.mono (List.subset_cons_self table _)).trans (hkeeps₂.mono ?_)
    exact List.cons_subset_cons table fun i hi =>
      List.mem_append_right _ ((hreverse i).mp hi)

/-- **A versioned registration that is accepted** leaves the registry in good order. -/
theorem registerVersioned_accepted (h₀ : table ≠ 0) (hram : table < kRamSize)
    (hmagic : (s.table table).link = kExportMagic) (hclients : s.clientNext table = 0)
    (hunpinned : ¬(s.table table).Pinned) (hpass : ∀ e ∈ registered, ¬Refuses s table e) :
    ∃ s' clientsOf', Yields (fun n => registerVersioned n table s) (0, s') ∧
      Binding s' (table :: registered) linked clientsOf' := by
  have hnew : table ∉ registered := h.not_mem_of_magic hmagic
  have hnot : table ∉ linked := h.not_linked_of_magic hmagic
  obtain ⟨s₁, hyields, hchain, hbound, hclear, hkeeps⟩ :=
    h.registerVersioned_yields h₀ hmagic hclients hpass
  have hmoved : ∀ i ∈ moved s registered clientsOf table, ∃ u ∈ registered,
      s.exporterOf registered table = some u ∧ i ∈ clientsOf u := fun i hi => mem_moved hi
  have hmoved_of : ∀ u, s.exporterOf registered table = some u →
      moved s registered clientsOf table = clientsOf u := fun u hu => by simp [moved, hu]
  have hnodup : (moved s registered clientsOf table).Nodup := h.moved_nodup
  generalize moved s registered clientsOf table = l at *
  -- a table other than the one superseded is as it was, and so are its clients
  have htable : ∀ e ∈ registered, s.exporterOf registered table ≠ some e →
      e ∉ table :: ((s.exporterOf registered table).toList ++ l) := by
    intro e he hne hm
    rcases List.mem_cons.mp hm with rfl | hm
    · exact hnew he
    rcases List.mem_append.mp hm with hm | hm
    · exact hne (Option.mem_toList.mp hm)
    · obtain ⟨u, hu, -, heu⟩ := hmoved e hm
      exact h.not_client hu he heu
  have hclient : ∀ e ∈ registered, s.exporterOf registered table ≠ some e →
      ∀ i ∈ clientsOf e, i ∉ table :: ((s.exporterOf registered table).toList ++ l) := by
    intro e he hne i hi hm
    have hil : i ∈ linked := h.client e he i hi
    rcases List.mem_cons.mp hm with rfl | hm
    · exact hnot hil
    rcases List.mem_append.mp hm with hm | hm
    · exact h.not_mem_of_linked hil (exporterOf_mem (Option.mem_toList.mp hm))
    · obtain ⟨u, hu, hex, hiu⟩ := hmoved i hm
      exact hne (hex.trans (congrArg some (h.unique hu he hiu hi)))
  have hserves : ∀ i e, (s₁.registerAccept table).Serves i e ↔ s.Serves i e := fun i e =>
    registerAccept_serves_iff.trans (hkeeps.serves_iff i e)
  have hold : ∀ e, e ∈ registered → e ≠ table := by
    rintro e he rfl
    exact hnew he
  have hkept : ∀ i ∈ linked, i ≠ table := by
    rintro i hi rfl
    exact hnot hi
  refine ⟨s₁.registerAccept table, fun e =>
    if e = table then l else if s.exporterOf registered table = some e then [] else clientsOf e,
    hyields, ?_⟩
  constructor
  case registry =>
    rw [registerAccept_head]
    refine registerAccept_registry h₀ hnew ?_
    rw [hkeeps.head]
    exact hkeeps.registry h.registry
  case nodup => exact List.nodup_cons.mpr ⟨hnew, h.nodup⟩
  case ram =>
    intro e he
    rcases List.mem_cons.mp he with rfl | he
    · exact hram
    · exact h.ram e he
  case list =>
    intro e he
    rw [registerAccept_clientNext]
    rcases List.mem_cons.mp he with rfl | he
    · rw [if_pos rfl]
      exact hchain
    · rw [if_neg (hold e he)]
      split_ifs with hex
      · exact hclear e hex
      · rw [hkeeps.clientNext (htable e he hex)]
        exact hkeeps.list (hclient e he hex) (h.list e he)
  case once =>
    intro e he
    rcases List.mem_cons.mp he with rfl | he
    · rw [if_pos rfl]
      exact hnodup
    · rw [if_neg (hold e he)]
      split_ifs with hex
      · exact List.nodup_nil
      · exact h.once e he
  case newest =>
    intro e he i hi
    rcases List.mem_cons.mp he with rfl | he
    · rw [if_pos rfl] at hi
      obtain ⟨u, hu, hex, hiu⟩ := hmoved i hi
      -- `u` served both `e` and its client
      have hsame := (serves_of_exporterOf hex).1
      have hsame' := (serves_of_exporterOf (h.newest u hu i hiu)).1
      exact exporterOf_cons ((hserves i e).mpr
        ⟨sameLibrary_trans (sameLibrary_symm hsame) hsame', hunpinned⟩)
    · rw [if_neg (hold e he)] at hi
      split_ifs at hi with hex
      · exact absurd hi List.not_mem_nil
      · have hnewest := h.newest e he i hi
        rw [exporterOf_cons_of_not (hserves i), hnewest]
        intro hs
        refine hex ((exporterOf_congr ?_ registered).trans hnewest)
        exact hs.1
  case client =>
    intro e he i hi
    rcases List.mem_cons.mp he with rfl | he
    · rw [if_pos rfl] at hi
      obtain ⟨u, hu, -, hiu⟩ := hmoved i hi
      exact h.client u hu i hiu
    · rw [if_neg (hold e he)] at hi
      split_ifs at hi with hex
      · exact absurd hi List.not_mem_nil
      · exact h.client e he i hi
  case listed =>
    intro i hi
    obtain ⟨e, he, hie⟩ := h.listed i hi
    by_cases hex : s.exporterOf registered table = some e
    · refine ⟨table, List.mem_cons_self, ?_⟩
      rw [if_pos rfl, hmoved_of e hex]
      exact hie
    · refine ⟨e, List.mem_cons_of_mem table he, ?_⟩
      rw [if_neg (hold e he), if_neg hex]
      exact hie
  case imports =>
    intro i hi
    rw [registerAccept_of_ne (hkept i hi), hkeeps.imports_iff]
    exact h.imports i hi
  case bound =>
    intro e he i hi
    rcases List.mem_cons.mp he with rfl | he
    · rw [if_pos rfl] at hi
      obtain ⟨u, hu, -, hiu⟩ := hmoved i hi
      obtain ⟨link, heq⟩ := registerAccept_header s₁ e e
      rw [registerAccept_of_ne (hkept i (h.client u hu i hiu)), heq]
      show BoundTo (s₁.table e).entries (s₁.table i).stubs
      rw [hkeeps.entries]
      exact hbound i hi
    · rw [if_neg (hold e he)] at hi
      split_ifs at hi with hex
      · exact absurd hi List.not_mem_nil
      · have hil := h.client e he i hi
        rw [registerAccept_of_ne (hkept i hil), registerAccept_of_ne (hold e he),
          hkeeps.entries, hkeeps.table i (hclient e he hex i hi)]
        exact h.bound e he i hi
  case descending =>
    simp only [registerAccept_sameLibrary_iff, registerAccept_minor, registerAccept_pinned_iff,
      hkeeps.sameLibrary_iff, hkeeps.minor, hkeeps.pinned_iff]
    refine List.pairwise_cons.mpr ⟨fun e he _ hs => ?_, h.descending⟩
    exact lt_of_not_ge fun hge => hpass e he ⟨hs, hge⟩

/-- **A pinned registration** leaves the registry in good order: the table serves nobody. -/
theorem registerAccept_pinned (h₀ : table ≠ 0) (hram : table < kRamSize) (hnew : table ∉ registered)
    (hnot : table ∉ linked) (hclients : s.clientNext table = 0) (hpinned : (s.table table).Pinned) :
    ∃ clientsOf', Binding (s.registerAccept table) (table :: registered) linked clientsOf' := by
  -- the new table is apart from what is registered and from what is linked
  have hold : ∀ e, e ∈ registered → e ≠ table := by
    rintro e he rfl
    exact hnew he
  have hkept : ∀ i ∈ linked, i ≠ table := by
    rintro i hi rfl
    exact hnot hi
  refine ⟨fun e => if e = table then [] else clientsOf e, ?_⟩
  constructor
  case registry => exact registerAccept_registry h₀ hnew h.registry
  case nodup => exact List.nodup_cons.mpr ⟨hnew, h.nodup⟩
  case ram =>
    intro e he
    rcases List.mem_cons.mp he with rfl | he
    · exact hram
    · exact h.ram e he
  case list =>
    intro e he
    rw [registerAccept_clientNext]
    rcases List.mem_cons.mp he with rfl | he
    · rw [if_pos rfl]
      exact hclients
    · rw [if_neg (hold e he)]
      exact h.list e he
  case once =>
    intro e he
    rcases List.mem_cons.mp he with rfl | he
    · rw [if_pos rfl]
      exact List.nodup_nil
    · rw [if_neg (hold e he)]
      exact h.once e he
  case newest =>
    intro e he i hi
    split_ifs at hi with het
    · exact absurd hi List.not_mem_nil
    · have he := (List.mem_cons.mp he).resolve_left het
      rw [exporterOf_cons_of_not fun _ => registerAccept_serves_iff]
      · exact h.newest e he i hi
      -- it serves nobody, being pinned, so the newest exporter of each client is the same
      · exact fun hs => hs.2 hpinned
  case client =>
    intro e he i hi
    split_ifs at hi with het
    · exact absurd hi List.not_mem_nil
    · exact h.client e ((List.mem_cons.mp he).resolve_left het) i hi
  case listed =>
    intro i hi
    obtain ⟨e, he, hie⟩ := h.listed i hi
    refine ⟨e, List.mem_cons_of_mem table he, ?_⟩
    rw [if_neg (hold e he)]
    exact hie
  case imports =>
    intro i hi
    rw [registerAccept_of_ne (hkept i hi)]
    exact h.imports i hi
  case bound =>
    intro e he i hi
    split_ifs at hi with het
    · exact absurd hi List.not_mem_nil
    · have he := (List.mem_cons.mp he).resolve_left het
      rw [registerAccept_of_ne (hkept i (h.client e he i hi)), registerAccept_of_ne het]
      exact h.bound e he i hi
  case descending =>
    simp only [registerAccept_sameLibrary_iff, registerAccept_minor, registerAccept_pinned_iff]
    exact List.pairwise_cons.mpr ⟨fun e _ hun => absurd hpinned hun, h.descending⟩

/-- Only registered and linked tables matter. -/
theorem congr (hhead : s'.head = s.head) (hr : ∀ e ∈ registered, s'.table e = s.table e)
    (hl : ∀ i ∈ linked, s'.table i = s.table i) : Binding s' registered linked clientsOf := by
  have hmem : ∀ e ∈ registered, ∀ i ∈ clientsOf e, s'.table i = s.table i := fun e he i hi =>
    hl i (h.client e he i hi)
  constructor
  case registry =>
    rw [hhead]
    exact h.registry.congr fun e he => congrArg LibraryTable.link (hr e he)
  case nodup => exact h.nodup
  case ram => exact h.ram
  case list =>
    intro e he
    have hnext : s'.clientNext e = s.clientNext e := congrArg LibraryTable.clients (hr e he)
    rw [hnext]
    exact (h.list e he).congr fun i hi => congrArg LibraryTable.clients (hmem e he i hi)
  case once => exact h.once
  case newest =>
    intro e he i hi
    rw [← h.newest e he i hi]
    exact exporterOf_agree hr (hmem e he i hi)
  case client => exact h.client
  case listed => exact h.listed
  case imports =>
    intro i hi
    rw [hl i hi]
    exact h.imports i hi
  case bound =>
    intro e he i hi
    rw [hr e he, hmem e he i hi]
    exact h.bound e he i hi
  case descending =>
    refine h.descending.imp_of_mem fun {e e'} he he' hlt => ?_
    rw [hr e he, hr e' he']
    exact hlt

/-- **A pinned registration** leaves the registry in good order. -/
theorem registerPinned_accepted (h₀ : table ≠ 0) (hram : table < kRamSize)
    (hmagic : (s.table table).link = kExportMagic) (hclients : s.clientNext table = 0) :
    (registerPinned table s).1 = 0 ∧
      ∃ clientsOf', Binding (registerPinned table s).2 (table :: registered) linked clientsOf' := by
  have hguard : ¬(table = 0 ∨ (s.table table).link ≠ kExportMagic) := by simp [h₀, hmagic]
  have hnew : table ∉ registered := h.not_mem_of_magic hmagic
  have hnot : table ∉ linked := h.not_linked_of_magic hmagic
  rw [registerPinned, if_neg hguard]
  refine ⟨rfl, ?_⟩
  have hset : Binding (s.setTable table
      { s.table table with flags := (s.table table).flags ||| 1 }) registered linked clientsOf := by
    refine h.congr rfl (fun e he => setTable_of_ne _ ?_) fun i hi => setTable_of_ne _ ?_
    · rintro rfl
      exact hnew he
    · rintro rfl
      exact hnot hi
  refine hset.registerAccept_pinned h₀ hram hnew hnot ?_ ?_
  · simpa [Registry.clientNext] using hclients
  · rw [setTable_self]
    intro hflags
    have hbit := congrArg UInt16.toNat hflags
    simp only [UInt16.toNat_and, UInt16.toNat_or] at hbit
    rw [show UInt16.toNat 1 = 2 ^ 1 - 1 by decide, Nat.and_two_pow_sub_one_eq_mod,
      Nat.or_mod_two_pow] at hbit
    simp at hbit

/-! ### Linking -/

/-- **An import table that some table serves joins that table's list.** -/
theorem join (hi : (s.table i).Imports) (hi₀ : i ≠ 0) (hnew : i ∉ linked)
    (hex : s.exporterOf registered i = some e) :
    Binding (s.join i e) registered (insert i linked)
      (Function.update clientsOf e (i :: clientsOf e)) := by
  have he : e ∈ registered := exporterOf_mem hex
  have hir : i ∉ registered := by
    intro hm
    have hlt := h.link_lt hm
    rw [hi.1] at hlt
    exact absurd hlt (by decide)
  have hie : i ≠ e := by
    rintro rfl
    exact hir he
  have hfresh : ∀ a ∈ registered, i ∉ clientsOf a := fun a ha hm => hnew (h.client a ha i hm)
  have hkeeps := join_keeps s i e
  obtain ⟨hchain, hbound⟩ := join_spec hie hi₀ (h.list e he) (hfresh e he)
    (h.not_client he he)
  have hout : ∀ a, a ≠ i → a ≠ e → a ∉ [i, e] := by
    intro a hai hae
    simp [hai, hae]
  have hold : ∀ a ∈ registered, a ≠ i := by
    rintro a ha rfl
    exact hir ha
  have hexporter : ∀ a, (s.join i e).exporterOf registered a = s.exporterOf registered a := by
    intro a
    simp only [exporterOf, hkeeps.serves_iff]
  -- a client of some table is an old one, or the new one of `e`
  have hclient : ∀ a ∈ registered, ∀ c ∈ Function.update clientsOf e (i :: clientsOf e) a,
      c ∈ clientsOf a ∨ a = e ∧ c = i := by
    intro a _ c hc
    rcases eq_or_ne a e with rfl | hae
    · rw [Function.update_self] at hc
      exact (List.mem_cons.mp hc).symm.imp id fun hci => ⟨rfl, hci⟩
    · rw [Function.update_of_ne hae] at hc
      exact .inl hc
  constructor
  case registry =>
    rw [hkeeps.head]
    exact hkeeps.registry h.registry
  case nodup => exact h.nodup
  case ram => exact h.ram
  case list =>
    intro a ha
    rcases eq_or_ne a e with rfl | hae
    · rw [Function.update_self]
      exact hchain
    · rw [Function.update_of_ne hae, hkeeps.clientNext (hout a (hold a ha) hae)]
      refine hkeeps.list (fun c hc => hout c ?_ ?_) (h.list a ha)
      · rintro rfl
        exact hfresh a ha hc
      · rintro rfl
        exact h.not_client ha he hc
  case once =>
    intro a ha
    rcases eq_or_ne a e with rfl | hae
    · rw [Function.update_self]
      exact List.nodup_cons.mpr ⟨hfresh a ha, h.once a ha⟩
    · rw [Function.update_of_ne hae]
      exact h.once a ha
  case newest =>
    intro a ha c hc
    rw [hexporter]
    rcases hclient a ha c hc with hc | ⟨rfl, rfl⟩
    · exact h.newest a ha c hc
    · exact hex
  case client =>
    intro a ha c hc
    rcases hclient a ha c hc with hc | ⟨-, rfl⟩
    · exact Set.mem_insert_of_mem i (h.client a ha c hc)
    · exact Set.mem_insert c linked
  case listed =>
    intro c hc
    rcases Set.mem_insert_iff.mp hc with rfl | hc
    · exact ⟨e, he, by rw [Function.update_self]; exact List.mem_cons_self⟩
    · obtain ⟨a, ha, hca⟩ := h.listed c hc
      refine ⟨a, ha, ?_⟩
      rcases eq_or_ne a e with rfl | hae
      · rw [Function.update_self]
        exact List.mem_cons_of_mem i hca
      · rw [Function.update_of_ne hae]
        exact hca
  case imports =>
    intro c hc
    rw [hkeeps.imports_iff]
    rcases Set.mem_insert_iff.mp hc with rfl | hc
    · exact hi
    · exact h.imports c hc
  case bound =>
    intro a ha c hc
    rw [hkeeps.entries]
    rcases hclient a ha c hc with hca | ⟨rfl, rfl⟩
    · rw [hkeeps.table c (hout c ?_ ?_)]
      · exact h.bound a ha c hca
      · rintro rfl
        exact hfresh a ha hca
      · rintro rfl
        exact h.not_client ha he hca
    · exact hbound
  case descending =>
    simp only [hkeeps.pinned_iff, hkeeps.sameLibrary_iff, hkeeps.minor]
    exact h.descending

end Binding

/-- The addresses the scan of `bind` looks at. -/
def scan : ℕ → ℕ → List ℕ
  | 0, _ => []
  | words + 1, address => address :: scan words (address + 4)

/-- A table that a scan finds lies behind where the scan began. -/
theorem le_of_mem_scan (h : a ∈ scan words address) : address ≤ a := by
  induction words generalizing address with
  | zero => exact absurd h List.not_mem_nil
  | succ words ih =>
    rcases List.mem_cons.mp h with rfl | h
    · exact Nat.le_refl a
    · have hle := ih h
      omega

/-- An import table that a registered table serves. -/
def Served (s : Registry) (registered : List ℕ) (i : ℕ) : Prop :=
  (s.table i).Imports ∧ (s.exporterOf registered i).isSome

/-- An import table that no registered table serves. -/
def Unserved (s : Registry) (registered : List ℕ) (i : ℕ) : Prop :=
  (s.table i).Imports ∧ s.exporterOf registered i = none

instance (s : Registry) (registered : List ℕ) (i : ℕ) : Decidable (Unserved s registered i) := by
  unfold Unserved
  exact inferInstance

theorem join_served_iff : Served (s.join a e) registered i ↔ Served s registered i := by
  have hkeeps := join_keeps s a e
  simp only [Served, exporterOf, hkeeps.imports_iff, hkeeps.serves_iff]

theorem join_unserved_iff : Unserved (s.join a e) registered i ↔ Unserved s registered i := by
  have hkeeps := join_keeps s a e
  simp only [Unserved, exporterOf, hkeeps.imports_iff, hkeeps.serves_iff]

/-- **Linking** leaves the registry in good order: every import table that is served is on a
list, and the others are counted. Only registered tables and import tables are written. -/
theorem Binding.bindFrom_yields (h : Binding s registered linked clientsOf) (h₀ : 0 < address)
    (hnew : ∀ i ∈ scan words address, i ∉ linked) (unbound : ℕ) :
    ∃ s' clientsOf', Yields (fun n => bindFrom n words address unbound s)
        (unbound + (scan words address).countP fun i => Unserved s registered i, s') ∧
      Binding s' registered (linked ∪ {i | i ∈ scan words address ∧ Served s registered i})
        clientsOf' ∧
      Keeps (registered ++ (scan words address).filter fun i => (s.table i).Imports) s s' := by
  -- word by word over the text; what is linked so far has grown by the tables behind it
  induction words generalizing address unbound s linked clientsOf with
  | zero =>
    refine ⟨s, clientsOf, Yields.const _, ?_, Keeps.refl _ s⟩
    simpa [scan] using h
  | succ words ih =>
    -- the tables still to come are new, and are not this one
    have hnew' : ∀ i ∈ scan words (address + 4), i ∉ linked := fun i hi =>
      hnew i (List.mem_cons_of_mem address hi)
    have hself : address ∉ scan words (address + 4) := by
      intro hm
      have hle := le_of_mem_scan hm
      omega
    have hsub : registered ++ (scan words (address + 4)).filter (fun i => (s.table i).Imports) ⊆
        registered ++ (scan (words + 1) address).filter fun i => (s.table i).Imports := by
      intro a ha
      rcases List.mem_append.mp ha with ha | ha
      · exact List.mem_append_left _ ha
      · obtain ⟨hscan, himports⟩ := List.mem_filter.mp ha
        refine List.mem_append_right _ (List.mem_filter.mpr ⟨?_, himports⟩)
        exact List.mem_cons_of_mem address hscan
    by_cases himports : (s.table address).Imports
    · have hfind : Yields (fun n => findExporter s address n s.head)
          ((s.exporterOf registered address).getD 0) := findExporter_yields h.registry
      -- nobody exports for this table, or one does and the table joins its clients
      cases hex : s.exporterOf registered address with
      | none =>
        rw [hex] at hfind
        obtain ⟨s', clientsOf', hyields, hbinding, hkeeps⟩ :=
          ih h (show 0 < address + 4 by omega) hnew' (unbound + 1)
        refine ⟨s', clientsOf', ?_, ?_, hkeeps.mono hsub⟩
        · have hun : Unserved s registered address := ⟨himports, hex⟩
          simp only [scan, List.countP_cons, hun, decide_true, if_true]
          have hcount : ∀ k, unbound + (k + 1) = unbound + 1 + k := by omega
          rw [hcount]
          simp only [bindFrom, himports, not_true_eq_false, if_false]
          exact hfind.bind hyields
        · convert hbinding using 2
          ext i
          simp only [scan, List.mem_cons, Set.mem_ofPred_eq]
          refine ⟨?_, fun hi => ⟨.inr hi.1, hi.2⟩⟩
          rintro ⟨rfl | hi, hserved⟩
          · exact absurd hserved.2 (by simp [hex])
          · exact ⟨hi, hserved⟩
      | some e =>
        rw [hex] at hfind
        have he : e ≠ 0 := h.ne_zero (exporterOf_mem hex)
        have hjoin := h.join himports (Nat.ne_of_gt h₀) (hnew address List.mem_cons_self) hex
        obtain ⟨s', clientsOf', hyields, hbinding, hkeeps⟩ := ih hjoin
          (show 0 < address + 4 by omega) (fun i hi hm => by
            rcases Set.mem_insert_iff.mp hm with rfl | hm
            · exact hself hi
            · exact hnew' i hi hm) unbound
        refine ⟨s', clientsOf', ?_, ?_, ?_⟩
        · have hun : ¬Unserved s registered address := fun hun =>
            absurd (hex.symm.trans hun.2) (by simp)
          simp only [join_unserved_iff] at hyields
          simp only [scan, List.countP_cons, hun, decide_false, Bool.false_eq_true, if_false,
            Nat.add_zero]
          simp only [bindFrom, himports, not_true_eq_false, if_false]
          refine hfind.bind ?_
          simpa only [Option.getD_some, he, if_false] using hyields
        · simp only [join_served_iff] at hbinding
          convert hbinding using 1
          ext i
          simp only [scan, List.mem_cons, Set.mem_union, Set.mem_ofPred_eq, Set.mem_insert_iff]
          constructor
          · rintro (hi | ⟨rfl | hi, hserved⟩)
            · exact .inl (.inr hi)
            · exact .inl (.inl rfl)
            · exact .inr ⟨hi, hserved⟩
          · rintro ((rfl | hi) | ⟨hi, hserved⟩)
            · exact .inr ⟨.inl rfl, himports, by simp [hex]⟩
            · exact .inl hi
            · exact .inr ⟨.inr hi, hserved⟩
        · simp only [(join_keeps s address e).imports_iff] at hkeeps
          refine ((join_keeps s address e).mono ?_).trans (hkeeps.mono hsub)
          intro a ha
          rcases List.mem_pair.mp ha with rfl | rfl
          · refine List.mem_append_right _ (List.mem_filter.mpr ⟨List.mem_cons_self, ?_⟩)
            simpa using himports
          · exact List.mem_append_left _ (exporterOf_mem hex)
    -- no import table here
    · obtain ⟨s', clientsOf', hyields, hbinding, hkeeps⟩ :=
        ih h (show 0 < address + 4 by omega) hnew' unbound
      refine ⟨s', clientsOf', ?_, ?_, hkeeps.mono hsub⟩
      · have hun : ¬Unserved s registered address := fun hun => himports hun.1
        simp only [scan, List.countP_cons, hun, decide_false, Bool.false_eq_true, if_false,
          Nat.add_zero]
        simpa only [bindFrom, himports, not_false_eq_true, if_true] using hyields
      · convert hbinding using 2
        ext i
        simp only [scan, List.mem_cons, Set.mem_ofPred_eq]
        refine ⟨?_, fun hi => ⟨.inr hi.1, hi.2⟩⟩
        rintro ⟨rfl | hi, hserved⟩
        · exact absurd hserved.1 himports
        · exact ⟨hi, hserved⟩

end PS2Bios.Loadcore
