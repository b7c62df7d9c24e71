import PS2Bios.Library.Cursor
import PS2Bios.Library.QueueFamily
import PS2Bios.Library.StableInsert
import Mathlib.Data.Int.Notation
import Mathlib.Data.List.Perm.Subperm

/-!
# The lists of records

Sixteen records, each on one of three lists by one pair of link words: the callbacks of the start
and of the end of vertical blank, and the free ones. A list is the index of its head. `Holds` says
which records are on which list; a loop over a list ends within as many turns as there are records,
so every function answers.
-/

namespace PS2Bios.Vblank

open Intrusive

/-- The records there are. -/
def kHandlers : ℕ := 16

/-- The index that ends a list. -/
def kNone : ℕ := 0xFFFF

/-- `lists` and `free_list`. -/
inductive ListId
  | start
  | finish
  | free
deriving DecidableEq, Repr

/-- The records, by their indices, and the heads of the lists. -/
structure State where
  links : Links ℕ
  priority : ℕ → ℤ
  handler : ℕ → ℕ
  arg : ℕ → ℕ
  head : ListId → ℕ

/-- Anything but 0 is the end. -/
def listOf (startend : ℤ) : ListId := if startend ≠ 0 then .finish else .start

/-- Turns that are enough for a loop over a list. -/
def kTurns : ℕ := kHandlers + 1

/-- `unlink`: the neighbours are led past the record. -/
def unlink (list : ListId) (index : ℕ) (s : State) : State :=
  let next := s.links.next index
  let previous := s.links.prev index
  let s := if previous = kNone then { s with head := Function.update s.head list next }
    else { s with links := s.links.setNext previous next }
  let s := if next = kNone then s else { s with links := s.links.setPrev next previous }
  { s with links := (s.links.setNext index kNone).setPrev index kNone }

/-- The loop to the last record of a list. -/
def tailOf (links : Links ℕ) (head : ℕ) : Option ℕ :=
  walkBehind links.next (fun x => x = kNone) kTurns kNone head

/-- `insertBefore`: the record goes in front of another one, or to the end. -/
def insertBefore (list : ListId) (index before : ℕ) (s : State) : Option State :=
  let links := s.links.setNext index before
  if before = kNone then
    (tailOf links (s.head list)).map fun tail =>
      let links := links.setPrev index tail
      if tail = kNone then { s with links := links, head := Function.update s.head list index }
      else { s with links := links.setNext tail index }
  else
    let previous := links.prev before
    let links := links.setPrev index previous
    let s := if previous = kNone then
        { s with links := links, head := Function.update s.head list index }
      else { s with links := links.setNext previous index }
    some { s with links := s.links.setPrev before index }

/-! ### Which records are on which list -/

/-- A list as a queue: behind its head it has a last record, too. -/
def State.queue (s : State) (lists : ListId → List ℕ) (p : ListId) : Queue ℕ :=
  ⟨s.head p, (lists p).getLastD kNone⟩

/-- The records on the lists. -/
structure Lined (s : State) (lists : ListId → List ℕ) : Prop where
  family : Family kNone s.links (s.queue lists) (fun _ => True) lists
  lt : ∀ p, ∀ x ∈ lists p, x < kHandlers

/-- The records of the pool are divided among the lists. -/
structure Holds (s : State) (lists : ListId → List ℕ) : Prop extends Lined s lists where
  pool : ∀ x < kHandlers, ∃ p, x ∈ lists p

variable {s s' : State} {lists lists' : ListId → List ℕ} {p q : ListId} {x y : ℕ} {l l₁ l₂ : List ℕ}

/-- Whatever else a record holds. -/
structure SameRecords (s s' : State) : Prop where
  priority : s'.priority = s.priority
  handler : s'.handler = s.handler
  arg : s'.arg = s.arg

/-- `unlink` is the one of doubly linked queues. -/
theorem unlink_eq (s : State) (list : ListId) (index tail : ℕ) :
    (unlink list index s).links = (Intrusive.unlink kNone s.links ⟨s.head list, tail⟩ index).1 ∧
    (unlink list index s).head = Function.update s.head list
      (Intrusive.unlink kNone s.links ⟨s.head list, tail⟩ index).2.head ∧
    SameRecords s (unlink list index s) := by
  by_cases hprev : s.links.prev index = kNone <;> by_cases hnext : s.links.next index = kNone
  all_goals
    refine ⟨?_, ?_, ?_, ?_, ?_⟩ <;>
      simp [unlink, Intrusive.unlink, bypassNext, bypassPrev, hprev, hnext]

/-- On a record of a list the loop to the last one ends there. -/
theorem tailOf_eq {links : Links ℕ} {head : ℕ} (hc : Chain kNone links.next head l)
    (hlen : l.length ≤ kHandlers) : tailOf links head = some (l.getLastD kNone) := by
  have hall : l.takeWhile (fun x => !decide (x = kNone)) = l := by
    refine List.takeWhile_eq_self_iff.mpr fun x hx => ?_
    have hne : x ≠ kNone := fun heq => hc.nil_not_mem (heq ▸ hx)
    simpa using hne
  have hwalk := hc.walkBehind (g := fun x => decide (x = kNone)) (p := kNone) (n := kTurns)
    (by simp) (Nat.lt_succ_of_le hlen)
  rwa [hall] at hwalk

/-- An insertion in front of nothing is one at the end. -/
theorem insertBefore_none {tail : ℕ} (htail :
      tailOf (s.links.setNext x kNone) (s.head p) = some tail) :
    ∃ s', insertBefore p x kNone s = some s' ∧
      s'.links = (enqueue kNone s.links ⟨s.head p, tail⟩ x).1 ∧
      s'.head = Function.update s.head p (enqueue kNone s.links ⟨s.head p, tail⟩ x).2.head ∧
      SameRecords s s' := by
  rw [insertBefore, if_pos rfl, htail, Option.map_some, enqueue]
  by_cases hnone : tail = kNone
  · rw [if_pos hnone, if_pos hnone]
    exact ⟨_, rfl, rfl, rfl, rfl, rfl, rfl⟩
  · rw [if_neg hnone, if_neg hnone]
    exact ⟨_, rfl, rfl, (Function.update_eq_self p s.head).symm, rfl, rfl, rfl⟩

/-- An insertion in front of a record. -/
theorem insertBefore_some (s : State) (p : ListId) (tail : ℕ) (hy : y ≠ kNone) (hyx : y ≠ x) :
    ∃ s', insertBefore p x y s = some s' ∧
      s'.links = (Intrusive.insertBefore kNone s.links ⟨s.head p, tail⟩ x y).1 ∧
      s'.head = Function.update s.head p
        (Intrusive.insertBefore kNone s.links ⟨s.head p, tail⟩ x y).2.head ∧
      SameRecords s s' := by
  rw [insertBefore, if_neg hy, Intrusive.insertBefore]
  by_cases hprev : s.links.prev y = kNone
  · refine ⟨_, rfl, ?_, ?_, ?_, ?_, ?_⟩ <;> simp [hprev, hyx]
  · refine ⟨_, rfl, ?_, ?_, ?_, ?_, ?_⟩ <;> simp [hprev, hyx]

namespace Lined

theorem chain (h : Lined s lists) (p : ListId) :
    Chain kNone s.links.next (s.head p) (lists p) :=
  (h.family.queue p trivial).chain

theorem length_le (h : Lined s lists) (p : ListId) : (lists p).length ≤ kHandlers := by
  have hsub : lists p ⊆ List.range kHandlers := fun x hx => List.mem_range.mpr (h.lt p x hx)
  have hle := (List.subperm_of_subset (h.family.queue p trivial).nodup hsub).length_le
  rwa [List.length_range] at hle

theorem ne_none (h : Lined s lists) (hx : x ∈ lists p) : x ≠ kNone :=
  h.family.ne_nil_of_mem hx

/-- A new list in place of one. -/
theorem queue_eq (s : State) (lists : ListId → List ℕ) {q : ListId} (hq : q ≠ p)
    (hhead : s'.head q = s.head q) :
    s'.queue (Function.update lists p l) q = s.queue lists q := by
  rw [State.queue, State.queue, Function.update_of_ne hq, hhead]

/-- A record is taken off its list. -/
theorem unlink (h : Lined s lists) (hx : x ∈ lists p) :
    Lined (Vblank.unlink p x s) (Function.update lists p ((lists p).erase x)) := by
  obtain ⟨hlinks, hhead, -⟩ := unlink_eq s p x ((lists p).getLastD kNone)
  have hqueue : IsQueue kNone (Vblank.unlink p x s).links
      (Intrusive.unlink kNone s.links (s.queue lists p) x).2 ((lists p).erase x) :=
    hlinks ▸ (h.family.queue p trivial).unlink hx
  have hp : (Vblank.unlink p x s).queue (Function.update lists p ((lists p).erase x)) p =
      (Intrusive.unlink kNone s.links (s.queue lists p) x).2 := by
    rw [State.queue, hhead, Function.update_self, Function.update_self, ← hqueue.tail]
    rfl
  constructor
  · have hfamily := h.family.unlink hx hp fun q hq =>
      queue_eq s lists hq (by rw [hhead, Function.update_of_ne hq])
    exact hlinks ▸ hfamily
  · intro q y hy
    rcases eq_or_ne q p with rfl | hne
    · rw [Function.update_self] at hy
      exact h.lt q y (List.mem_of_mem_erase hy)
    · rw [Function.update_of_ne hne] at hy
      exact h.lt q y hy

/-- A record that is on no list is put on one. -/
theorem insertBefore (h : Lined s lists) (hl : lists p = l₁ ++ l₂) (hx : ∀ q, x ∉ lists q)
    (hlt : x < kHandlers) : ∃ s', Vblank.insertBefore p x (l₂.headD kNone) s = some s' ∧
      Lined s' (Function.update lists p (l₁ ++ x :: l₂)) ∧ SameRecords s s' := by
  have hxn : x ≠ kNone := by
    rintro rfl
    exact absurd hlt (by decide)
  have hold := h.family.queue p trivial
  -- the new list has its records below the bound, whichever way it came about
  have hltnew : ∀ q, ∀ y ∈ Function.update lists p (l₁ ++ x :: l₂) q, y < kHandlers := by
    intro q y hy
    rcases eq_or_ne q p with rfl | hne
    · rw [Function.update_self] at hy
      rcases List.mem_append.mp hy with hy | hy
      · exact h.lt q y (hl ▸ List.mem_append_left _ hy)
      · rcases List.mem_cons.mp hy with rfl | hy
        · exact hlt
        · exact h.lt q y (hl ▸ List.mem_append_right _ hy)
    · rw [Function.update_of_ne hne] at hy
      exact h.lt q y hy
  cases l₂ with
  | nil =>
    rw [List.append_nil] at hl
    subst hl
    have htail : tailOf (s.links.setNext x kNone) (s.head p) =
        some ((lists p).getLastD kNone) := by
      refine tailOf_eq ((h.chain p).congr fun y hy => ?_) (h.length_le p)
      rw [Links.setNext_next, if_neg]
      rintro rfl
      exact hx p hy
    obtain ⟨s', hs', hlinks, hhead, hsame⟩ := insertBefore_none htail
    refine ⟨s', hs', ⟨?_, hltnew⟩, hsame⟩
    have hqueue : IsQueue kNone s'.links (enqueue kNone s.links (s.queue lists p) x).2
        (lists p ++ [x]) := hlinks ▸ hold.enqueue (hx p) hxn
    have hp : s'.queue (Function.update lists p (lists p ++ [x])) p =
        (enqueue kNone s.links (s.queue lists p) x).2 := by
      rw [State.queue, hhead, Function.update_self, Function.update_self, ← hqueue.tail]
      rfl
    have hfamily := h.family.enqueue trivial hx hxn hp fun q hq =>
      queue_eq s lists hq (by rw [hhead, Function.update_of_ne hq])
    exact hlinks ▸ hfamily
  | cons y l₂ =>
    have hy : y ∈ lists p := hl ▸ List.mem_append_right _ List.mem_cons_self
    have hyx : y ≠ x := by
      rintro rfl
      exact hx p hy
    obtain ⟨s', hs', hlinks, hhead, hsame⟩ :=
      insertBefore_some s p ((lists p).getLastD kNone) (h.ne_none hy) hyx
    refine ⟨s', hs', ⟨?_, hltnew⟩, hsame⟩
    have hxl := hx p
    have hqueue : IsQueue kNone s'.links
        (Intrusive.insertBefore kNone s.links (s.queue lists p) x y).2 (l₁ ++ x :: y :: l₂) := by
      rw [hlinks]
      rw [hl] at hold hxl
      exact hold.insertBefore hxl hxn
    have hp : s'.queue (Function.update lists p (l₁ ++ x :: y :: l₂)) p =
        (Intrusive.insertBefore kNone s.links (s.queue lists p) x y).2 := by
      rw [State.queue, hhead, Function.update_self, Function.update_self, ← hqueue.tail]
      rfl
    have hfamily := h.family.insertBefore trivial hl hx hxn hp fun q hq =>
      queue_eq s lists hq (by rw [hhead, Function.update_of_ne hq])
    exact hlinks ▸ hfamily

end Lined

end PS2Bios.Vblank
