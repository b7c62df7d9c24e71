import PS2Bios.Library.LinkedList

/-!
# Families of queues over one pair of link fields

A kernel has many queues (one per priority, one per wait object) and each record has a single
pair of link fields, so a record can be in one of them at a time. `Family nil L q on lists`
says that the queue at every place `p` that is `on` is exactly the list `lists p`, that the
places that are off hold nothing, and that no record is at two places.

`Family.replace` is the one argument behind every queue operation of a family: change the
queue at one place, by writing the links of its members and of one record that is nowhere
else, and all the others are as they were. `Family.enqueue`, `Family.pushFront`,
`Family.insertBefore` and `Family.unlink` are its instances for the operations of `LinkedList`.
-/

namespace PS2Bios

namespace Intrusive

universe u v

variable {α : Type u} {P : Type v} {nil : α} {L L' : Links α} {q r : P → Queue α}
  {on : P → Prop} {lists : P → List α} {p : P} {x z : α}

/-- The queues `q p`, for the places `p` that are `on`, are the pairwise disjoint lists
`lists p`. -/
structure Family (nil : α) (L : Links α) (q : P → Queue α) (on : P → Prop)
    (lists : P → List α) : Prop where
  queue : ∀ p, on p → IsQueue nil L (q p) (lists p)
  off : ∀ p, ¬ on p → lists p = []
  disjoint : ∀ p p' x, x ∈ lists p → x ∈ lists p' → p = p'

/-- A record is only ever at a place that is on. -/
theorem Family.on_of_mem (h : Family nil L q on lists) (hx : x ∈ lists p) : on p := by
  by_contra hp
  rw [h.off p hp] at hx
  exact List.not_mem_nil hx

/-- A record in a queue is not the sentinel. -/
theorem Family.ne_nil_of_mem (h : Family nil L q on lists) (hx : x ∈ lists p) : x ≠ nil := by
  rintro rfl
  exact (h.queue p (h.on_of_mem hx)).nil_not_mem hx

/-- A family reads the links of its members and the queues that are on. -/
theorem Family.congr (h : Family nil L q on lists) (hq : ∀ p, on p → r p = q p)
    (hL : ∀ p, ∀ x ∈ lists p, L'.next x = L.next x ∧ L'.prev x = L.prev x) :
    Family nil L' r on lists where
  queue p hp := by
    rw [hq p hp]
    exact (h.queue p hp).congr (hL p)
  off := h.off
  disjoint := h.disjoint

/-- Which places are on may change where nothing is queued. -/
theorem Family.turn {on' : P → Prop} (h : Family nil L q on lists)
    (hon : ∀ p, on' p → ¬ on p → IsQueue nil L (q p) [])
    (hoff : ∀ p, on p → ¬ on' p → lists p = []) : Family nil L q on' lists where
  queue p hp := by
    by_cases hp' : on p
    · exact h.queue p hp'
    · rw [h.off p hp']
      exact hon p hp hp'
  off p hp := by
    by_cases hp' : on p
    · exact hoff p hp' hp
    · exact h.off p hp'
  disjoint := h.disjoint

variable [DecidableEq P]

/-- **Changing one queue.** If the queue at `p` becomes the list `l`, whose members were in it
before or are `x`, and only links of its old members and of `x` were written, then every
other queue is as it was. -/
theorem Family.replace {l : List α} (h : Family nil L q on lists) (hp : on p)
    (hnew : IsQueue nil L' (r p) l) (hq : ∀ p', p' ≠ p → r p' = q p')
    (hL : ∀ z, z ∉ lists p → z ≠ x → L'.next z = L.next z ∧ L'.prev z = L.prev z)
    (hsub : ∀ z ∈ l, z ∈ lists p ∨ z = x) (hx : ∀ p', p' ≠ p → x ∉ lists p') :
    Family nil L' r on (Function.update lists p l) := by
  -- a member of the new list is at no other place
  have hsep : ∀ p', p' ≠ p → ∀ z ∈ l, z ∉ lists p' := by
    intro p' hp' z hz hz'
    rcases hsub z hz with hz | rfl
    · exact hp' (h.disjoint p' p z hz' hz)
    · exact hx p' hp' hz'
  refine ⟨fun p' hp' => ?_, fun p' hp' => ?_, fun p₁ p₂ z h₁ h₂ => ?_⟩
  · rcases eq_or_ne p' p with rfl | hne
    · rw [Function.update_self]
      exact hnew
    · rw [Function.update_of_ne hne, hq p' hne]
      refine (h.queue p' hp').congr fun z hz => hL z (fun hz' => hne (h.disjoint p' p z hz hz')) ?_
      rintro rfl
      exact hx p' hne hz
  · have hne : p' ≠ p := fun heq => hp' (heq ▸ hp)
    rw [Function.update_of_ne hne]
    exact h.off p' hp'
  · rcases eq_or_ne p₁ p with rfl | hne₁ <;> rcases eq_or_ne p₂ p₁ with rfl | hne₂
    · rfl
    · rw [Function.update_self] at h₁
      rw [Function.update_of_ne hne₂] at h₂
      exact absurd h₂ (hsep p₂ hne₂ z h₁)
    · rfl
    · rw [Function.update_of_ne hne₁] at h₁
      rcases eq_or_ne p₂ p with rfl | hne
      · rw [Function.update_self] at h₂
        exact absurd h₁ (hsep p₁ hne₁ z h₂)
      · rw [Function.update_of_ne hne] at h₂
        exact h.disjoint p₁ p₂ z h₁ h₂

variable [DecidableEq α]

/-- Appending a record that is nowhere to the queue at `p`. -/
theorem Family.enqueue (h : Family nil L q on lists) (hp : on p) (hx : ∀ p', x ∉ lists p')
    (hxn : x ≠ nil) (hq : r p = (Intrusive.enqueue nil L (q p) x).2)
    (hq' : ∀ p', p' ≠ p → r p' = q p') :
    Family nil (Intrusive.enqueue nil L (q p) x).1 r on
      (Function.update lists p (lists p ++ [x])) := by
  have hqueue := h.queue p hp
  refine h.replace hp (hq ▸ hqueue.enqueue (hx p) hxn) hq'
    (fun z hz hzx => hqueue.enqueue_frame hz hzx) (fun z hz => ?_) fun p' _ => hx p'
  simpa using hz

/-- Putting a record that is nowhere in front of the queue at `p`. -/
theorem Family.pushFront (h : Family nil L q on lists) (hp : on p) (hx : ∀ p', x ∉ lists p')
    (hxn : x ≠ nil) (hq : r p = (Intrusive.pushFront nil L (q p) x).2)
    (hq' : ∀ p', p' ≠ p → r p' = q p') :
    Family nil (Intrusive.pushFront nil L (q p) x).1 r on
      (Function.update lists p (x :: lists p)) := by
  have hqueue := h.queue p hp
  refine h.replace hp (hq ▸ hqueue.pushFront (hx p) hxn) hq'
    (fun z hz hzx => hqueue.pushFront_frame hz hzx) (fun z hz => ?_) fun p' _ => hx p'
  rcases List.mem_cons.mp hz with rfl | hz
  · exact .inr rfl
  · exact .inl hz

/-- Putting a record that is nowhere in front of a member of the queue at `p`. -/
theorem Family.insertBefore {y : α} {l₁ l₂ : List α} (h : Family nil L q on lists) (hp : on p)
    (hl : lists p = l₁ ++ y :: l₂) (hx : ∀ p', x ∉ lists p') (hxn : x ≠ nil)
    (hq : r p = (Intrusive.insertBefore nil L (q p) x y).2) (hq' : ∀ p', p' ≠ p → r p' = q p') :
    Family nil (Intrusive.insertBefore nil L (q p) x y).1 r on
      (Function.update lists p (l₁ ++ x :: y :: l₂)) := by
  have hqueue := h.queue p hp
  have hxp := hx p
  rw [hl] at hqueue hxp
  have hyx : y ≠ x := by
    rintro rfl
    exact hxp (List.mem_append_right l₁ List.mem_cons_self)
  refine h.replace (x := x) hp (hq ▸ hqueue.insertBefore hxp hxn) hq' (fun z hz hzx => ?_)
    (fun z hz => ?_) fun p' _ => hx p'
  · exact hqueue.insertBefore_frame hyx (hl ▸ hz) hzx
  · rw [hl]
    simp only [List.mem_append, List.mem_cons] at hz ⊢
    tauto

/-- Taking a member out of the queue at `p`. -/
theorem Family.unlink (h : Family nil L q on lists) (hx : x ∈ lists p)
    (hq : r p = (Intrusive.unlink nil L (q p) x).2) (hq' : ∀ p', p' ≠ p → r p' = q p') :
    Family nil (Intrusive.unlink nil L (q p) x).1 r on
      (Function.update lists p ((lists p).erase x)) := by
  have hqueue := h.queue p (h.on_of_mem hx)
  refine h.replace (x := x) (h.on_of_mem hx) (hq ▸ hqueue.unlink hx) hq'
    (fun z hz _ => hqueue.unlink_frame hx hz) (fun z hz => .inl (List.mem_of_mem_erase hz)) ?_
  exact fun p' hne hx' => hne (h.disjoint p' p x hx' hx)

omit [DecidableEq P] in
/-- Appending leaves the links of a record outside the queue alone. -/
theorem Family.enqueue_frame (h : Family nil L q on lists) (hp : on p) (hz : z ∉ lists p)
    (hzx : z ≠ x) : (Intrusive.enqueue nil L (q p) x).1.next z = L.next z ∧
      (Intrusive.enqueue nil L (q p) x).1.prev z = L.prev z :=
  (h.queue p hp).enqueue_frame hz hzx

omit [DecidableEq P] in
/-- Unlinking leaves the links of a record outside the queue alone. -/
theorem Family.unlink_frame (h : Family nil L q on lists) (hx : x ∈ lists p)
    (hz : z ∉ lists p) : (Intrusive.unlink nil L (q p) x).1.next z = L.next z ∧
      (Intrusive.unlink nil L (q p) x).1.prev z = L.prev z :=
  (h.queue p (h.on_of_mem hx)).unlink_frame hx hz

end Intrusive

end PS2Bios
