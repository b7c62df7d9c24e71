import Mathlib.Data.List.Basic
import Mathlib.Data.List.Nodup
import Mathlib.Tactic.Common
import PS2Bios.Loadcore.Tables

/-!
# What the walks over the lists do

One lemma for each loop of the binder and of registration: from the list its walk follows, that
it ends and what it leaves. A client list is taken off by reversing it in place, and put on the
new table by reversing it again.
-/

namespace PS2Bios.Loadcore

open Intrusive

variable {s s' s'' : Registry} {a c e i table taken walk : ℕ} {l l' rest : List ℕ}

/-! ### Writing one table -/

namespace Registry

@[simp]
theorem setTable_head (t : LibraryTable) : (s.setTable a t).head = s.head := rfl

@[simp]
theorem setTable_self (t : LibraryTable) : (s.setTable a t).table a = t := by
  simp [setTable]

@[simp]
theorem setTable_of_ne (t : LibraryTable) (h : c ≠ a) : (s.setTable a t).table c = s.table c := by
  simp [setTable, h]

@[simp]
theorem setClientNext_head (n : ℕ) : (s.setClientNext a n).head = s.head := rfl

/-- The link of one client changed. -/
theorem clientNext_setClientNext (n : ℕ) :
    (s.setClientNext a n).clientNext = Function.update s.clientNext a n := by
  funext x
  rcases eq_or_ne x a with rfl | hx
  · simp [clientNext, setClientNext]
  · simp [clientNext, setClientNext, hx]

/-- Writing the link that is there writes nothing. -/
theorem setClientNext_eq_self {n : ℕ} (h : s.clientNext a = n) : s.setClientNext a n = s := by
  subst h
  simp [setClientNext, setTable, clientNext]

/-- From `s` to `s'` no header has changed but for the word at `+4`, and outside `l` no table has
changed at all. -/
structure Keeps (l : List ℕ) (s s' : Registry) : Prop where
  head : s'.head = s.head
  header : ∀ a, ∃ clients stubs, s'.table a = { s.table a with clients := clients, stubs := stubs }
  table : ∀ a ∉ l, s'.table a = s.table a

namespace Keeps

theorem refl (l : List ℕ) (s : Registry) : Keeps l s s :=
  ⟨rfl, fun a => ⟨(s.table a).clients, (s.table a).stubs, rfl⟩, fun _ _ => rfl⟩

theorem trans (h : Keeps l s s') (h' : Keeps l s' s'') : Keeps l s s'' := by
  refine ⟨h'.head.trans h.head, fun a => ?_, fun a ha => (h'.table a ha).trans (h.table a ha)⟩
  obtain ⟨clients, stubs, heq⟩ := h.header a
  obtain ⟨clients', stubs', heq'⟩ := h'.header a
  exact ⟨clients', stubs', by rw [heq', heq]⟩

theorem mono (h : Keeps l s s') (hl : l ⊆ l') : Keeps l' s s' :=
  ⟨h.head, h.header, fun a ha => h.table a fun hm => ha (hl hm)⟩

/-- Changing a link keeps what the tables say of their libraries. -/
theorem setClientNext (ha : a ∈ l) (n : ℕ) : Keeps l s (s.setClientNext a n) := by
  refine ⟨rfl, fun x => ?_, fun x hx => ?_⟩
  · rcases eq_or_ne x a with rfl | hx
    · exact ⟨n, (s.table x).stubs, setTable_self _⟩
    · exact ⟨(s.table x).clients, (s.table x).stubs, setTable_of_ne _ hx⟩
  · refine setTable_of_ne _ ?_
    rintro rfl
    exact hx ha

/-- Binding a table keeps what the tables say of their libraries. -/
theorem bindTable (hi : i ∈ l) (e : ℕ) : Keeps l s (s.bindTable i e) := by
  refine ⟨rfl, fun x => ?_, fun x hx => ?_⟩
  · rcases eq_or_ne x i with rfl | hx
    · exact ⟨(s.table x).clients, _, setTable_self _⟩
    · exact ⟨(s.table x).clients, (s.table x).stubs, setTable_of_ne _ hx⟩
  · refine setTable_of_ne _ ?_
    rintro rfl
    exact hx hi

variable (h : Keeps l s s')
include h

theorem link (a : ℕ) : (s'.table a).link = (s.table a).link := by
  obtain ⟨_, _, heq⟩ := h.header a
  rw [heq]

theorem entries (a : ℕ) : (s'.table a).entries = (s.table a).entries := by
  obtain ⟨_, _, heq⟩ := h.header a
  rw [heq]

theorem minor (a : ℕ) : (s'.table a).minor = (s.table a).minor := by
  obtain ⟨_, _, heq⟩ := h.header a
  rw [heq]
  rfl

theorem pinned_iff (a : ℕ) : (s'.table a).Pinned ↔ (s.table a).Pinned := by
  obtain ⟨_, _, heq⟩ := h.header a
  rw [heq]
  rfl

theorem imports_iff (a : ℕ) : (s'.table a).Imports ↔ (s.table a).Imports := by
  obtain ⟨_, _, heq⟩ := h.header a
  rw [heq]
  rfl

/-- Tables that are kept have the same library as before. -/
theorem sameLibrary_iff (a c : ℕ) :
    (s'.table a).SameLibrary (s'.table c) ↔ (s.table a).SameLibrary (s.table c) := by
  obtain ⟨_, _, heq⟩ := h.header a
  obtain ⟨_, _, heq'⟩ := h.header c
  rw [heq, heq']
  rfl

theorem serves_iff (i e : ℕ) : s'.Serves i e ↔ s.Serves i e := by
  simp only [Serves, h.sameLibrary_iff, h.pinned_iff]

theorem clientNext (ha : a ∉ l) : s'.clientNext a = s.clientNext a :=
  congrArg LibraryTable.clients (h.table a ha)

/-- A client list that nothing of is written stays. -/
theorem list (hdisj : ∀ x ∈ rest, x ∉ l) (hc : Chain 0 s.clientNext c rest) :
    Chain 0 s'.clientNext c rest :=
  hc.congr fun x hx => h.clientNext (hdisj x hx)

/-- The registry stays. -/
theorem registry (hc : Chain 0 (fun a => (s.table a).link) c rest) :
    Chain 0 (fun a => (s'.table a).link) c rest :=
  hc.congr fun x _ => h.link x

end Keeps

end Registry

/-! ### The binder -/

/-- A code address: a word's, in the segment a `j` in IOP RAM reaches. -/
def IsCode (target : UInt32) : Prop := target % 4 = 0 ∧ target < 0x10000000

/-- Where a `j` in IOP RAM goes. -/
def jumpTarget (instruction : UInt32) : Option UInt32 :=
  if instruction >>> 26 = 2 then some ((instruction &&& 0x03FFFFFF) <<< 2) else none

/-- The instruction stored in a stub is a jump. -/
theorem opcode_jumpTo (target : UInt32) : jumpTo target >>> 26 = 2 := by
  apply UInt32.toNat_inj.mp
  simp only [jumpTo, UInt32.toNat_shiftRight, UInt32.toNat_or, UInt32.toNat_and,
    UInt32.toNat_ofNat]
  have hfield : ((target.toNat >>> (2 % 2 ^ 32 % 32)) &&& 67108863 % 2 ^ 32) >>> 26 = 0 := by
    rw [show 67108863 % 2 ^ 32 = 2 ^ 26 - 1 by decide, Nat.and_two_pow_sub_one_eq_mod,
      Nat.shiftRight_eq_div_pow]
    omega
  rw [show 26 % 2 ^ 32 % 32 = 26 by decide, Nat.shiftRight_or_distrib, hfield]
  decide

/-- A bound stub jumps to the entry. -/
theorem jumpTarget_jumpTo {target : UInt32} (h : IsCode target) :
    jumpTarget (jumpTo target) = some target := by
  obtain ⟨haligned, hlow⟩ := h
  rw [jumpTarget, if_pos (opcode_jumpTo target)]
  congr 1
  apply UInt32.toNat_inj.mp
  have h₁ : target.toNat % 4 = 0 := by simpa using congrArg UInt32.toNat haligned
  have h₂ : target.toNat < 0x10000000 := by simpa using UInt32.lt_iff_toNat_lt.mp hlow
  simp only [jumpTo, UInt32.toNat_shiftRight, UInt32.toNat_shiftLeft, UInt32.toNat_or,
    UInt32.toNat_and, UInt32.toNat_ofNat]
  rw [show 67108863 % 2 ^ 32 = 2 ^ 26 - 1 by decide, Nat.and_two_pow_sub_one_eq_mod,
    Nat.and_two_pow_sub_one_eq_mod, Nat.or_mod_two_pow]
  simp only [Nat.shiftRight_eq_div_pow, Nat.shiftLeft_eq]
  simp
  omega

/-- What the binder makes of a stub: a jump to the entry of its ordinal, or a return when the
ordinal is past the table's end. -/
def Stub.Calls (entries : List UInt32) (stub : Stub) : Prop :=
  match entries[stub.ordinal]? with
  | some target =>
    stub.first = jumpTo target ∧ (IsCode target → jumpTarget stub.first = some target)
  | none => stub.first = kReturn

/-- Every `addiu` stub is bound. -/
def BoundTo (entries : List UInt32) (stubs : List Stub) : Prop :=
  ∀ stub ∈ stubs, stub.IsAddiu → stub.Calls entries

/-- A stub that is bound calls the entry its number names. -/
theorem bindStub_calls (entries : List UInt32) (stub : Stub)
    (h : (bindStub entries stub).IsAddiu) : (bindStub entries stub).Calls entries := by
  have haddiu : stub.IsAddiu := by
    revert h
    unfold bindStub
    split
    · exact id
    · split <;> exact id
  rw [bindStub, if_neg (not_not_intro haddiu)]
  cases hentry : entries[stub.ordinal]? with
  | none =>
    show Stub.Calls entries { stub with first := kReturn }
    unfold Stub.Calls
    rw [show Stub.ordinal { stub with first := kReturn } = stub.ordinal from rfl, hentry]
  | some target =>
    show Stub.Calls entries { stub with first := jumpTo target }
    unfold Stub.Calls
    rw [show Stub.ordinal { stub with first := jumpTo target } = stub.ordinal from rfl, hentry]
    exact ⟨rfl, jumpTarget_jumpTo⟩

/-- A table that is bound has its stubs bound to the exporter's entries. -/
theorem boundTo_bindTable (s : Registry) (i e : ℕ) :
    BoundTo (s.table e).entries ((s.bindTable i e).table i).stubs := by
  intro stub hstub haddiu
  simp only [Registry.bindTable, Registry.setTable_self, List.mem_map] at hstub
  obtain ⟨old, -, rfl⟩ := hstub
  exact bindStub_calls _ old haddiu

/-- The walk for an exporter answers the first table of the registry that serves. -/
theorem findExporter_yields (h : Chain 0 (fun a => (s.table a).link) e rest) :
    Yields (fun n => findExporter s i n e) ((rest.find? fun e => s.Serves i e).getD 0) := by
  induction rest generalizing e with
  | nil =>
    obtain rfl : e = 0 := h
    exact Yields.succ rfl (fun n => by simp [findExporter]) (Yields.const 0)
  | cons x xs ih =>
    obtain ⟨rfl, hne, hxs⟩ := h
    by_cases hserves : s.Serves i e
    · refine Yields.succ rfl (g := fun _ => some e) (fun n => ?_) ?_
      · simp [findExporter, hne, hserves]
      · simpa [hserves] using Yields.const e
    · refine Yields.succ rfl (g := fun n => findExporter s i n (s.table e).link) (fun n => ?_) ?_
      · simp [findExporter, hne, hserves]
      · simpa [hserves] using ih hxs

theorem join_keeps (s : Registry) (i e : ℕ) : Registry.Keeps [i, e] s (s.join i e) :=
  ((Registry.Keeps.bindTable (by simp) e).trans
    (Registry.Keeps.setClientNext (by simp) _)).trans
    (Registry.Keeps.setClientNext (by simp) _)

/-- Joining a client list: the importer is in front, and its stubs are bound. -/
theorem join_spec (hi : i ≠ e) (hi₀ : i ≠ 0) (hl : Chain 0 s.clientNext (s.clientNext e) l)
    (hil : i ∉ l) (hel : e ∉ l) :
    Chain 0 (s.join i e).clientNext ((s.join i e).clientNext e) (i :: l) ∧
      BoundTo (s.table e).entries ((s.join i e).table i).stubs := by
  have hbound : (s.bindTable i e).clientNext = s.clientNext := by
    funext x
    rcases eq_or_ne x i with rfl | hx
    · simp [Registry.clientNext, Registry.bindTable]
    · simp [Registry.clientNext, Registry.bindTable, hx]
  have hnext : (s.join i e).clientNext =
      Function.update (Function.update s.clientNext i (s.clientNext e)) e i := by
    simp only [Registry.join, Registry.clientNext_setClientNext, hbound]
  refine ⟨?_, ?_⟩
  · rw [hnext, Function.update_self]
    refine (hl.push hil hi₀).congr fun x hx => Function.update_of_ne ?_ _ _
    rintro rfl
    rcases List.mem_cons.mp hx with rfl | hx
    · exact hi rfl
    · exact hel hx
  · have hstubs : ((s.join i e).table i).stubs = ((s.bindTable i e).table i).stubs := by
      simp [Registry.join, Registry.setClientNext, hi]
    rw [hstubs]
    exact boundTo_bindTable s i e

/-! ### Supersession -/

/-- The loop of `detachUnpinnedClients` reverses a list of unpinned clients in place. -/
theorem detachLoop_yields (hl : Chain 0 s.clientNext c l) (ht : Chain 0 s.clientNext taken rest)
    (hnodup : l.Nodup) (hdisj : ∀ x ∈ l, x ∉ rest) (hfree : ∀ x ∈ l, ¬(s.table x).Pinned)
    (kept : ℕ) :
    ∃ t s', Yields (fun n => detachLoop n c kept taken s) (t, s') ∧
      Chain 0 s'.clientNext t (l.reverse ++ rest) ∧ Registry.Keeps l s s' := by
  induction l generalizing c taken rest s with
  | nil =>
    obtain rfl : c = 0 := hl
    exact ⟨taken, s, Yields.succ rfl (fun n => by simp [detachLoop]) (Yields.const _), ht,
      Registry.Keeps.refl [] s⟩
  | cons x xs ih =>
    obtain ⟨rfl, hne, hxs⟩ := hl
    obtain ⟨hx, hnodup⟩ := List.nodup_cons.mp hnodup
    have hpinned : ¬(s.table c).Pinned := hfree c List.mem_cons_self
    have hset : Registry.Keeps [c] s (s.setClientNext c taken) :=
      Registry.Keeps.setClientNext (by simp) taken
    -- `c` goes in front of what has been taken
    have hpush : Chain 0 (s.setClientNext c taken).clientNext c (c :: rest) := by
      rw [Registry.clientNext_setClientNext]
      exact ht.push (hdisj c List.mem_cons_self) hne
    have hxs' : Chain 0 (s.setClientNext c taken).clientNext (s.clientNext c) xs := by
      refine hset.list (fun y hy => ?_) hxs
      rintro hyc
      rw [List.mem_singleton.mp hyc] at hy
      exact hx hy
    obtain ⟨t, s', hyields, hchain, hkeeps⟩ := ih hxs' hpush hnodup
      (fun y hy => List.not_mem_cons_of_ne_of_not_mem (by rintro rfl; exact hx hy)
        (hdisj y (List.mem_cons_of_mem c hy)))
      (fun y hy => by
        rw [hset.pinned_iff]
        exact hfree y (List.mem_cons_of_mem c hy))
    refine ⟨t, s', Yields.succ rfl (fun n => ?_) hyields, ?_, ?_⟩
    · simp [detachLoop, hne, hpinned]
    · simpa using hchain
    · exact (hset.mono (by simp)).trans (hkeeps.mono (List.subset_cons_self c xs))

/-- Detaching takes the whole list off when none of it is pinned. -/
theorem detachUnpinnedClients_yields (hl : Chain 0 s.clientNext (s.clientNext e) l) (he : e ∉ l)
    (hnodup : l.Nodup) (hfree : ∀ x ∈ l, ¬(s.table x).Pinned) :
    ∃ t s', Yields (fun n => detachUnpinnedClients n e s) (t, s') ∧
      Chain 0 s'.clientNext t l.reverse ∧ s'.clientNext e = 0 ∧ Registry.Keeps (e :: l) s s' := by
  have hset : Registry.Keeps [e] s (s.setClientNext e 0) :=
    Registry.Keeps.setClientNext (by simp) 0
  have hl' : Chain 0 (s.setClientNext e 0).clientNext (s.clientNext e) l := by
    refine hset.list (fun x hx hxe => ?_) hl
    rw [List.mem_singleton.mp hxe] at hx
    exact he hx
  have hnil : Chain 0 (s.setClientNext e 0).clientNext 0 [] := rfl
  obtain ⟨t, s', hyields, hchain, hkeeps⟩ := detachLoop_yields hl' hnil hnodup
    (fun _ _ => List.not_mem_nil)
    (fun x hx => by
      rw [hset.pinned_iff]
      exact hfree x hx) e
  refine ⟨t, s', hyields, by simpa using hchain, ?_, ?_⟩
  · rw [hkeeps.clientNext he, Registry.clientNext_setClientNext, Function.update_self]
  · exact (hset.mono (by simp)).trans (hkeeps.mono (List.subset_cons_self e l))

/-- Detaching from a table without clients writes nothing. -/
theorem detachUnpinnedClients_empty (h : s.clientNext e = 0) :
    Yields (fun n => detachUnpinnedClients n e s) (0, s) := by
  refine Yields.succ rfl (g := fun _ => some (0, s)) (fun n => ?_) (Yields.const _)
  simp [detachUnpinnedClients, detachLoop, h, Registry.setClientNext_eq_self h]

/-- With nothing newly taken, what was taken stays. -/
theorem joinTaken_empty (f t : ℕ) : Yields (fun n => joinTaken f n 0 t s) (t, s) :=
  Yields.succ rfl (fun n => by simp [joinTaken]) (Yields.const _)

/-- With nothing taken before, what is newly taken is all. -/
theorem joinTaken_first (f : ℕ) (hl : Chain 0 s.clientNext c l) (hne : l ≠ []) :
    Yields (fun n => joinTaken f n c 0 s) (f, s) := by
  induction l generalizing c with
  | nil => exact absurd rfl hne
  | cons x xs ih =>
    obtain ⟨rfl, hc, hxs⟩ := hl
    by_cases hlast : s.clientNext c = 0
    · refine Yields.succ rfl (g := fun _ => some (f, s)) (fun n => ?_) (Yields.const _)
      simp [joinTaken, hc, hlast, Registry.setClientNext_eq_self hlast]
    · refine Yields.succ rfl (g := fun n => joinTaken f n (s.clientNext c) 0 s) (fun n => ?_) ?_
      · simp [joinTaken, hc, hlast]
      · refine ih hxs ?_
        rintro rfl
        exact hlast hxs

/-- A table of the registry that refuses `table`: the same library, at least as new. -/
def Refuses (s : Registry) (table e : ℕ) : Prop :=
  (s.table e).SameLibrary (s.table table) ∧ (s.table table).minor ≤ (s.table e).minor

instance (s : Registry) (table e : ℕ) : Decidable (Refuses s table e) := by
  unfold Refuses
  exact inferInstance

/-- One turn of the walk, at a table that neither refuses nor has a client to give: on to the
next, nothing written. -/
theorem takeClients_pass {r : Option ℕ × Registry} (hwalk : walk ≠ 0)
    (hpass : ¬Refuses s table walk)
    (hempty : (s.table walk).SameLibrary (s.table table) → s.clientNext walk = 0)
    (hrest : Yields (fun n => takeClients table n (s.table walk).link taken s) r) :
    Yields (fun n => takeClients table n walk taken s) r := by
  by_cases hsame : (s.table walk).SameLibrary (s.table table)
  · have hminor : ¬(s.table table).minor ≤ (s.table walk).minor := fun h => hpass ⟨hsame, h⟩
    refine Yields.succ rfl (fun n => ?_)
      ((detachUnpinnedClients_empty (hempty hsame)).bind
        (k := fun n x => (joinTaken x.1 n x.1 taken x.2).bind fun y =>
          takeClients table n (y.2.table walk).link y.1 y.2)
        ((joinTaken_empty 0 taken).bind
          (k := fun n y => takeClients table n (y.2.table walk).link y.1 y.2) hrest))
    simp only [takeClients, hwalk, hsame, hminor, not_true_eq_false, if_false]
  · refine Yields.succ rfl (fun n => ?_) hrest
    simp only [takeClients, hwalk, hsame, not_false_eq_true, if_true, if_false]

/-- Along tables that have no client to give, the walk writes nothing and stops at the first
that refuses. -/
theorem takeClients_refused (hl : Chain 0 (fun a => (s.table a).link) walk (l ++ e :: rest))
    (hpass : ∀ x ∈ l, ¬Refuses s table x)
    (hempty : ∀ x ∈ l, (s.table x).SameLibrary (s.table table) → s.clientNext x = 0)
    (hrefuses : Refuses s table e) :
    Yields (fun n => takeClients table n walk taken s) (none, s) := by
  induction l generalizing walk with
  | nil =>
    obtain ⟨rfl, hwalk, -⟩ := hl
    refine Yields.succ rfl (g := fun _ => some (none, s)) (fun n => ?_) (Yields.const _)
    simp only [takeClients, hwalk, hrefuses.1, hrefuses.2, not_true_eq_false, if_true, if_false]
  | cons x xs ih =>
    obtain ⟨rfl, hwalk, hxs⟩ := hl
    exact takeClients_pass hwalk (hpass walk List.mem_cons_self)
      (hempty walk List.mem_cons_self)
      (ih hxs (fun y hy => hpass y (List.mem_cons_of_mem walk hy))
        fun y hy => hempty y (List.mem_cons_of_mem walk hy))

/-- Along tables that neither refuse nor have a client to give, the walk goes on. -/
theorem takeClients_past {r : Option ℕ × Registry}
    (hl : Chain 0 (fun a => (s.table a).link) walk (l ++ rest))
    (hpass : ∀ x ∈ l, ¬Refuses s table x)
    (hempty : ∀ x ∈ l, (s.table x).SameLibrary (s.table table) → s.clientNext x = 0)
    (hrest : ∀ w, Chain 0 (fun a => (s.table a).link) w rest →
      Yields (fun n => takeClients table n w taken s) r) :
    Yields (fun n => takeClients table n walk taken s) r := by
  induction l generalizing walk with
  | nil => exact hrest walk hl
  | cons x xs ih =>
    obtain ⟨rfl, hwalk, hxs⟩ := hl
    exact takeClients_pass hwalk (hpass walk List.mem_cons_self)
      (hempty walk List.mem_cons_self)
      (ih hxs (fun y hy => hpass y (List.mem_cons_of_mem walk hy))
        fun y hy => hempty y (List.mem_cons_of_mem walk hy))

/-- The end of the registry. -/
theorem takeClients_end : Yields (fun n => takeClients table n 0 taken s) (some taken, s) :=
  Yields.succ rfl (fun n => by simp [takeClients]) (Yields.const _)

/-- The one turn that takes clients. -/
theorem takeClients_take (hwalk : walk ≠ 0)
    (hsame : (s.table walk).SameLibrary (s.table table))
    (hnewer : (s.table walk).minor < (s.table table).minor)
    (hl : Chain 0 s.clientNext (s.clientNext walk) l) (he : walk ∉ l) (hnodup : l.Nodup)
    (hfree : ∀ x ∈ l, ¬(s.table x).Pinned) :
    ∃ t s', Chain 0 s'.clientNext t l.reverse ∧ s'.clientNext walk = 0 ∧
      Registry.Keeps (walk :: l) s s' ∧
      ∀ r, Yields (fun n => takeClients table n (s.table walk).link t s') r →
        Yields (fun n => takeClients table n walk 0 s) r := by
  obtain ⟨t, s', hdetach, hchain, hempty, hkeeps⟩ :=
    detachUnpinnedClients_yields hl he hnodup hfree
  have hjoin : Yields (fun n => joinTaken t n t 0 s') (t, s') := by
    rcases eq_or_ne l [] with rfl | hne
    · obtain rfl : t = 0 := hchain
      exact joinTaken_empty 0 0
    · exact joinTaken_first t hchain (by simpa using hne)
  refine ⟨t, s', hchain, hempty, hkeeps, fun r hr => ?_⟩
  rw [← hkeeps.link] at hr
  refine Yields.succ rfl (fun n => ?_)
    (hdetach.bind
      (k := fun n x => (joinTaken x.1 n x.1 0 x.2).bind fun y =>
        takeClients table n (y.2.table walk).link y.1 y.2)
      (hjoin.bind (k := fun n y => takeClients table n (y.2.table walk).link y.1 y.2) hr))
  simp only [takeClients, hwalk, hsame, Nat.not_le_of_lt hnewer, not_true_eq_false, if_false]

/-- The clients taken end up on the new table's list, each bound against it. -/
theorem adoptClients_yields (hl : Chain 0 s.clientNext taken l) (hnodup : l.Nodup)
    (hr : Chain 0 s.clientNext (s.clientNext table) rest) (htable : table ∉ l)
    (hrest : table ∉ rest) (hdisj : ∀ x ∈ l, x ∉ rest) :
    ∃ s', Yields (fun n => adoptClients table n taken s) s' ∧
      Chain 0 s'.clientNext (s'.clientNext table) (l.reverse ++ rest) ∧
      (∀ x ∈ l, BoundTo (s.table table).entries (s'.table x).stubs) ∧
      Registry.Keeps (table :: l) s s' := by
  induction l generalizing taken rest s with
  | nil =>
    obtain rfl : taken = 0 := hl
    exact ⟨s, Yields.succ rfl (fun n => by simp [adoptClients]) (Yields.const _), hr, by simp,
      Registry.Keeps.refl _ s⟩
  | cons x xs ih =>
    obtain ⟨rfl, hne, hxs⟩ := hl
    obtain ⟨hx, hnodup⟩ := List.nodup_cons.mp hnodup
    have hxt : taken ≠ table := by
      rintro rfl
      exact htable List.mem_cons_self
    have hjoin := join_keeps s taken table
    obtain ⟨hchain, hbound⟩ := join_spec hxt hne hr (hdisj taken List.mem_cons_self) hrest
    have hxs' : Chain 0 (s.join taken table).clientNext (s.clientNext taken) xs := by
      refine hjoin.list (fun y hy hyl => ?_) hxs
      rcases List.mem_pair.mp hyl with rfl | rfl
      · exact hx hy
      · exact htable (List.mem_cons_of_mem taken hy)
    obtain ⟨s', hyields, hchain', hbound', hkeeps⟩ := ih hxs' hnodup hchain
      (fun hm => htable (List.mem_cons_of_mem taken hm))
      (List.not_mem_cons_of_ne_of_not_mem hxt.symm hrest)
      (fun y hy => List.not_mem_cons_of_ne_of_not_mem (by rintro rfl; exact hx hy)
        (hdisj y (List.mem_cons_of_mem taken hy)))
    refine ⟨s', Yields.succ rfl (fun n => ?_) hyields, ?_, ?_, ?_⟩
    · simp [adoptClients, hne]
    · simpa using hchain'
    · intro y hy
      rcases List.mem_cons.mp hy with rfl | hy
      · rw [hkeeps.table y (List.not_mem_cons_of_ne_of_not_mem hxt hx)]
        exact hbound
      · rw [← hjoin.entries]
        exact hbound' y hy
    · refine (hjoin.mono ?_).trans (hkeeps.mono ?_)
      · simp
      · exact List.cons_subset_cons _ (List.subset_cons_self taken xs)

end PS2Bios.Loadcore
