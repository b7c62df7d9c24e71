import Mathlib.Data.List.Nodup
import Mathlib.Data.List.Perm.Subperm
import PS2Bios.Library.Ownership
import PS2Bios.Sysmem.Exclusive

/-!
# What SYSMEM's blocks are for

The blocks MODLOAD has been granted and has not given back are the records of the modules loaded and
the file buffers of the loads in progress, each of which is one block and no other's. A load that
fails ends with neither, so it leaves SYSMEM as it was.
-/

namespace PS2Bios.Modload

open Sysmem (kMaxBlocks)

/-- What SYSMEM may answer to a request, 0 being no block, while `held` is out: a block that is not
out, of the `kMaxBlocks` there are. A request so large that its rounding wraps may be answered with
anything. -/
def Grants (held : List UInt32) (size block : UInt32) : Prop :=
  size.toNat ≤ 0xFFFFFF00 → block ≠ 0 → block ∉ held ∧ held.length < kMaxBlocks

/-- The allocator does: it has a live grant for each block that is out. -/
theorem grants_allocate {s : Sysmem.State} {live : List Sysmem.Block} {held : List UInt32}
    (h : Sysmem.Holds s live) (hnodup : held.Nodup)
    (hlive : ∀ b ∈ held, ∃ g ∈ live, g.start = b.toNat) (mode size address : UInt32) :
    Grants held size (UInt32.ofNat (Sysmem.allocate s mode size address).1) := by
  intro hsize hne
  have hzero : (Sysmem.allocate s mode size address).1 ≠ 0 := fun hz => hne (by rw [hz]; rfl)
  have hlawful := (h.lawful_iff (.allocate mode size address)).mpr (.inl hsize) hzero
  have hnext := h.step (c := .allocate mode size address) (.inl hsize)
  rw [Sysmem.observe, if_neg hzero] at hnext
  generalize (Sysmem.allocate s mode size address).1 = a at *
  -- the grant is inside the heap, so it is a word
  have ha : a < 2 ^ 32 := by
    obtain ⟨i, hi, hblock⟩ := hnext.mem_iff.mp List.mem_cons_self
    have hhigh := hnext.wellFormed.high i hi
    have hend := hnext.wellFormed.high_lt
    rw [Sysmem.State.stop, hblock] at hhigh
    exact (Nat.le_of_add_right_le hhigh).trans_lt hend
  constructor
  · intro hmem
    obtain ⟨g, hg, hstart⟩ := hlive _ hmem
    rw [UInt32.toNat_ofNat_of_lt' ha] at hstart
    exact (hlawful.2 g hg).1 hstart
  · -- the blocks that are out are different live grants
    have hsub : (held.map UInt32.toNat).Subperm (live.map Sysmem.Block.start) := by
      refine (hnodup.map fun b c hbc => UInt32.toNat_inj.mp hbc).subperm fun n hn => ?_
      obtain ⟨b, hb, rfl⟩ := List.mem_map.mp hn
      obtain ⟨g, hg, hstart⟩ := hlive b hb
      exact List.mem_map.mpr ⟨g, hg, hstart⟩
    have hle := hsub.length_le
    have hcount := hnext.wellFormed.count
    rw [← Sysmem.records_length, hnext.perm.length_eq, List.length_cons] at hcount
    rw [List.length_map, List.length_map] at hle
    omega

/-- What is held is the modules and the buffers. -/
structure Accounts {ι : Type} (buffer : ι → Option UInt32) (held modules : List UInt32) :
    Prop where
  nodup : held.Nodup
  modules_nodup : modules.Nodup
  modules_held : ∀ b ∈ modules, b ∈ held
  buffers : Owns buffer fun b => b ∈ held ∧ b ∉ modules
  room : held.length ≤ kMaxBlocks

namespace Accounts

variable {ι : Type} {buffer : ι → Option UInt32} {held modules : List UInt32} {t : ι} {b : UInt32}

/-- Before anything is loaded the accounts are in order. -/
theorem start : Accounts (fun _ : ι => none) [] [] where
  nodup := List.nodup_nil
  modules_nodup := List.nodup_nil
  modules_held _ h := h
  buffers := .of_none (fun _ => rfl) fun _ h => absurd h.1 List.not_mem_nil
  room := Nat.zero_le _

theorem length_modules_le (h : Accounts buffer held modules) : modules.length ≤ held.length :=
  (h.modules_nodup.subperm h.modules_held).length_le

/-- A module takes a block. -/
theorem register (h : Accounts buffer held modules) (hb : b ∉ held)
    (hroom : held.length < kMaxBlocks) : Accounts buffer (b :: held) (b :: modules) where
  nodup := List.nodup_cons.mpr ⟨hb, h.nodup⟩
  modules_nodup := List.nodup_cons.mpr ⟨fun hm => hb (h.modules_held b hm), h.modules_nodup⟩
  modules_held c hc := by
    rcases List.mem_cons.mp hc with rfl | hc
    · exact List.mem_cons_self
    · exact List.mem_cons_of_mem b (h.modules_held c hc)
  buffers := by
    refine h.buffers.congr (fun _ => rfl) fun c => ?_
    constructor
    · rintro ⟨hheld, hmodules⟩
      have hne : c ≠ b := fun hcb => hmodules (hcb ▸ List.mem_cons_self)
      exact ⟨List.mem_of_ne_of_mem hne hheld, fun hc => hmodules (List.mem_cons_of_mem b hc)⟩
    · rintro ⟨hheld, hmodules⟩
      have hne : c ≠ b := fun hcb => hb (hcb ▸ hheld)
      refine ⟨List.mem_cons_of_mem b hheld, fun hc => hmodules (List.mem_of_ne_of_mem hne hc)⟩
  room := hroom

variable [DecidableEq ι]

/-- A load takes a buffer. -/
theorem claim (h : Accounts buffer held modules) (ht : buffer t = none) (hb : b ∉ held)
    (hroom : held.length < kMaxBlocks) :
    Accounts (Function.update buffer t (some b)) (b :: held) modules where
  nodup := List.nodup_cons.mpr ⟨hb, h.nodup⟩
  modules_nodup := h.modules_nodup
  modules_held c hc := List.mem_cons_of_mem b (h.modules_held c hc)
  buffers := by
    have hclaim := h.buffers.claim ht fun hheld => hb hheld.1
    refine hclaim.congr (fun _ => rfl) fun c => ?_
    rw [List.mem_cons, or_and_right]
    refine or_congr_left ⟨fun hc => hc.1, ?_⟩
    rintro rfl
    exact ⟨rfl, fun hm => hb (h.modules_held c hm)⟩
  room := hroom

/-- A load gives its buffer back. -/
theorem release (h : Accounts buffer held modules) (ht : buffer t = some b) :
    Accounts (Function.update buffer t none) (held.erase b) modules where
  nodup := h.nodup.erase b
  modules_nodup := h.modules_nodup
  modules_held c hc := by
    have hne : c ≠ b := fun hcb => (h.buffers.used_of t b ht).2 (hcb ▸ hc)
    exact (List.mem_erase_of_ne hne).mpr (h.modules_held c hc)
  buffers := by
    refine (h.buffers.release ht).congr (fun _ => rfl) fun c => ?_
    rw [h.nodup.mem_erase_iff, and_assoc]
  room := List.length_erase_le.trans h.room

end Accounts

end PS2Bios.Modload
