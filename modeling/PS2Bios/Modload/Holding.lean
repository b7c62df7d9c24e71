import Mathlib.Data.List.ReduceOption
import PS2Bios.Library.Word
import PS2Bios.Modload.Accounts
import PS2Bios.Modload.FirstArgument
import PS2Bios.Modload.Loading

/-!
# The hold list and the ledger

`Holding` connects what MODLOAD and LOADCORE keep of the modules with the `Ledger`: the slots hold
the modules that have not been started, and the ids answered are those of LOADCORE's list, which
count up from the boot list's. With no more modules than SYSMEM has blocks the next id is always a
new one.
-/

namespace PS2Bios.Modload

open Bytes Loadcore.CommandLine
open Sysmem (kMaxBlocks)

/-! ### The slots -/

section Slots

variable {loaded rest : List (Option UInt32)} {record : UInt32 → ModuleRecord} {id : ℤ}
  {r block : UInt32}

/-- A record goes into a free slot, if there is one. -/
theorem reduceOption_holdLoaded (h : canHold loaded) :
    (holdLoaded block loaded).reduceOption.Perm (block :: loaded.reduceOption) := by
  induction loaded with
  | nil => exact absurd h (by decide)
  | cons slot loaded ih =>
    cases slot with
    | none => exact .refl _
    | some r =>
      rw [holdLoaded, List.reduceOption_cons_of_some, List.reduceOption_cons_of_some]
      exact ((ih h).cons r).trans (.swap block r _)

/-- The record found has the id, and only its slot is cleared. -/
theorem takeLoaded_some (h : takeLoaded record id loaded = some (r, rest)) :
    ((record r).id.toNat : ℤ) = id ∧ loaded.reduceOption.Perm (r :: rest.reduceOption) := by
  induction loaded generalizing rest with
  | nil => cases h
  | cons slot loaded ih =>
    cases slot with
    | none =>
      obtain ⟨⟨r', rest'⟩, hfound, heq⟩ := Option.map_eq_some_iff.mp h
      obtain ⟨rfl, rfl⟩ := Prod.mk.inj heq
      obtain ⟨hid, hperm⟩ := ih hfound
      refine ⟨hid, ?_⟩
      rwa [List.reduceOption_cons_of_none, List.reduceOption_cons_of_none]
    | some q =>
      rw [takeLoaded] at h
      split at h
      next =>
        obtain ⟨⟨r', rest'⟩, hfound, heq⟩ := Option.map_eq_some_iff.mp h
        obtain ⟨rfl, rfl⟩ := Prod.mk.inj heq
        obtain ⟨hid, hperm⟩ := ih hfound
        refine ⟨hid, ?_⟩
        rw [List.reduceOption_cons_of_some, List.reduceOption_cons_of_some]
        exact (hperm.cons q).trans (.swap r' q _)
      next hid =>
        obtain ⟨rfl, rfl⟩ := Prod.mk.inj (Option.some.inj h)
        refine ⟨not_not.mp hid, ?_⟩
        rw [List.reduceOption_cons_of_some, List.reduceOption_cons_of_none]

/-- Where no record is taken, none has the id. -/
theorem takeLoaded_none (h : takeLoaded record id loaded = none) :
    ∀ r ∈ loaded.reduceOption, ((record r).id.toNat : ℤ) ≠ id := by
  induction loaded with
  | nil => exact fun r hr => absurd hr List.not_mem_nil
  | cons slot loaded ih =>
    cases slot with
    | none =>
      rw [takeLoaded, Option.map_eq_none_iff] at h
      exact ih h
    | some q =>
      rw [takeLoaded] at h
      split at h
      next hid =>
        rw [List.reduceOption_cons_of_some]
        exact List.forall_mem_cons.mpr ⟨hid, ih (Option.map_eq_none_iff.mp h)⟩
      next => cases h

end Slots

/-! ### Holding -/

/-- What is kept of the modules is what the ledger says. -/
structure Holding (s : Shared) (L : Ledger) : Prop where
  boot : s.bootListCount ≤ kBootListMax
  modules : s.module_list = L.modules
  next : s.next_module_id.toNat =
    if L.modules = [] then 0 else s.bootListCount.toNat + 1 + L.modules.length
  answered : L.answered = L.modules.map fun r => (s.record r).id
  ids : ∀ id ∈ L.answered, id.toNat ≤ s.bootListCount.toNat + L.modules.length
  nodup : L.answered.Nodup
  waiting : s.loaded.reduceOption.Perm (L.unstarted.map Loaded.record)
  known : ∀ m ∈ L.unstarted, m.record ∈ L.modules ∧ s.loadedAt m.record = m

namespace Holding

variable {s : Shared} {L : Ledger} {block : UInt32}

/-- SYSMEM's blocks and the callers' memory are not part of it. -/
theorem congr {held : List UInt32} {memory : Ram} (h : Holding s L) :
    Holding { s with held, memory } L :=
  ⟨h.boot, h.modules, h.next, h.answered, h.ids, h.nodup, h.waiting, h.known⟩

/-- The id the next module gets. -/
def nextId (s : Shared) : UInt16 :=
  if s.next_module_id = 0 then (s.bootListCount + 1).toUInt16 else s.next_module_id

/-- The next id is one more than the modules there have been. -/
theorem toNat_nextId (h : Holding s L) :
    (nextId s).toNat = s.bootListCount.toNat + 1 + L.modules.length := by
  have hboot : s.bootListCount.toNat ≤ 64 := UInt32.le_iff_toNat_le.mp h.boot
  have hnext := h.next
  unfold nextId
  split at hnext
  next hnil =>
    rw [if_pos (UInt16.toNat_inj.mp hnext), hnil, UInt32.toNat_toUInt16, UInt32.toNat_add]
    change (_ + 1) % 2 ^ 32 % 2 ^ 16 = _ + 1 + 0
    omega
  next =>
    rw [if_neg, hnext]
    intro hzero
    rw [hzero] at hnext
    change 0 = _ at hnext
    omega

/-- The module of a record that a load answers. -/
def answeredModule (s : Shared) (record : ModuleRecord) (origin : Option (List UInt8))
    (block : UInt32) : Loaded :=
  ⟨nextId s, block, record.entry, record.gp, origin⟩

/-- A module is registered and held. -/
theorem load (h : Holding s L) (hroom : L.modules.length < kMaxBlocks) (hblock : block ∉ L.modules)
    (hcan : canHold s.loaded) (record : ModuleRecord) (origin : Option (List UInt8)) :
    ∃ m L', (s.registerModule block record).answered origin block =
        (.loaded m, ((s.registerModule block record).answered origin block).2) ∧
      L.Step (.loaded m) L' ∧ L'.modules = block :: L.modules ∧
      Holding ((s.registerModule block record).answered origin block).2 L' := by
  have hid := h.toNat_nextId
  have hboot : s.bootListCount.toNat ≤ 64 := UInt32.le_iff_toNat_le.mp h.boot
  have hnew : nextId s ∉ L.answered := by
    intro hmem
    have hle := h.ids _ hmem
    omega
  -- the other records are left as they were
  have hother : ∀ r ∈ L.modules, r ≠ block := fun r hr hrb => hblock (hrb ▸ hr)
  refine ⟨answeredModule s record origin block, ⟨block :: L.modules, nextId s :: L.answered,
    answeredModule s record origin block :: L.unstarted⟩, ?_, .loaded hnew hblock, rfl, ?_⟩
  · simp [Shared.answered, Shared.loadedAt, Shared.registerModule, answeredModule, nextId]
  · constructor
    · exact h.boot
    · exact congrArg (block :: ·) h.modules
    · rw [if_neg (List.cons_ne_nil _ _), List.length_cons]
      change (nextId s + 1).toNat = _
      rw [UInt16.toNat_add, hid]
      change (_ + 1) % 2 ^ 16 = _
      unfold kMaxBlocks at hroom
      change _ = s.bootListCount.toNat + _ + _
      omega
    · rw [List.map_cons, h.answered]
      refine congrArg₂ List.cons ?_ (List.map_congr_left fun r hr => ?_)
      · simp [Shared.answered, Shared.registerModule, nextId]
      · simp [Shared.answered, Shared.registerModule, Function.update_of_ne (hother r hr)]
    · intro id hmem
      change _ ≤ s.bootListCount.toNat + _
      rw [List.length_cons]
      rcases List.mem_cons.mp hmem with rfl | hmem
      · omega
      · have hle := h.ids id hmem
        omega
    · exact List.nodup_cons.mpr ⟨hnew, h.nodup⟩
    · exact (reduceOption_holdLoaded hcan).trans (h.waiting.cons block)
    · intro m hm
      rcases List.mem_cons.mp hm with rfl | hm
      · refine ⟨List.mem_cons_self, ?_⟩
        simp [Shared.answered, Shared.loadedAt, Shared.registerModule, answeredModule, nextId]
      · obtain ⟨hmem, hknown⟩ := h.known m hm
        refine ⟨List.mem_cons_of_mem _ hmem, ?_⟩
        rw [← hknown]
        simp [Shared.answered, Shared.loadedAt, Shared.registerModule,
          Function.update_of_ne (hother _ hmem)]

/-- The module in a slot. -/
theorem exists_of_mem (h : Holding s L) {r : UInt32} (hr : r ∈ s.loaded.reduceOption) :
    ∃ m ∈ L.unstarted, m.record = r ∧ s.loadedAt r = m := by
  obtain ⟨m, hm, rfl⟩ := List.mem_map.mp (h.waiting.subset hr)
  exact ⟨m, hm, rfl, (h.known m hm).2⟩

/-- A module is taken from its slot. -/
theorem take (h : Holding s L) {id : ℤ} {r : UInt32} {rest : List (Option UInt32)}
    (htake : takeLoaded s.record id s.loaded = some (r, rest)) :
    s.loadedAt r ∈ L.unstarted ∧
      Holding { s with loaded := rest }
        { L with unstarted := L.unstarted.erase (s.loadedAt r) } := by
  obtain ⟨-, hperm⟩ := takeLoaded_some htake
  obtain ⟨m, hm, rfl, hknown⟩ := h.exists_of_mem (hperm.symm.subset List.mem_cons_self)
  rw [hknown]
  refine ⟨hm, h.boot, h.modules, h.next, h.answered, h.ids, h.nodup, ?_, ?_⟩
  · refine List.Perm.cons_inv (a := m.record) ?_
    have herase := (List.perm_cons_erase hm).map Loaded.record
    rw [List.map_cons] at herase
    exact (hperm.symm.trans h.waiting).trans herase
  · exact fun m' hm' => h.known m' (List.mem_of_mem_erase hm')

/-- An id that no slot has is nobody's. -/
theorem none_of_refused (h : Holding s L) {id : ℤ}
    (htake : takeLoaded s.record id s.loaded = none) :
    ∀ m ∈ L.unstarted, (m.id.toNat : ℤ) ≠ id := by
  intro m hm
  have hmem := h.waiting.symm.subset (List.mem_map_of_mem hm)
  have hid := takeLoaded_none htake _ hmem
  have hknown := (h.known m hm).2
  rwa [show (s.record m.record).id = m.id from congrArg Loaded.id hknown] at hid

/-- And the module of an id is found. -/
theorem take_of_waiting (h : Holding s L) {m : Loaded} (hm : m ∈ L.unstarted) :
    ∃ rest, takeLoaded s.record m.id.toNat s.loaded = some (m.record, rest) := by
  cases htake : takeLoaded s.record m.id.toNat s.loaded with
  | none => exact absurd rfl (h.none_of_refused htake m hm)
  | some found =>
    obtain ⟨r, rest⟩ := found
    obtain ⟨hid, hperm⟩ := takeLoaded_some htake
    obtain ⟨m', hm', rfl, hknown'⟩ := h.exists_of_mem (hperm.symm.subset List.mem_cons_self)
    -- the ids of LOADCORE's list are different, so it is the same record
    obtain ⟨hmem, hknown⟩ := h.known m hm
    obtain ⟨hmem', -⟩ := h.known m' hm'
    have hnodup := h.nodup
    rw [h.answered] at hnodup
    have hids : (s.record m'.record).id = (s.record m.record).id := by
      rw [show (s.record m.record).id = m.id from congrArg Loaded.id hknown]
      exact UInt16.toNat_inj.mp (Int.ofNat_inj.mp hid)
    rw [List.inj_on_of_nodup_map hnodup hmem' hmem hids]
    exact ⟨rest, rfl⟩

end Holding

end PS2Bios.Modload
