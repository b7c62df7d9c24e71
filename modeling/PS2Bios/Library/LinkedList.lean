import Mathlib.Logic.Function.Basic
import Mathlib.Data.List.Nodup

/-!
# Intrusive doubly linked queues

A scheduler keeps its threads in queues that are threaded through one pair of link fields in
the thread records: `next` and `prev`, with a sentinel `nil` for "none". Here the two fields
of all records are one value `Links`, a queue is its `head` and `tail`, and the operations
`enqueue`, `pushFront`, `insertBefore`, `unlink` and `popFront` are the pointer surgery a
kernel does on them.

`IsQueue nil L q l` says that the queue `q` is exactly the list `l`: the links of consecutive
members agree in both directions, the outer links are `nil`, and the head and tail name the
ends. Each operation has one lemma giving the list of the queue afterwards and one saying
which links it leaves alone; the second is what keeps every *other* queue intact.
-/

namespace PS2Bios

namespace Intrusive

universe u

/-- The link fields of all records. -/
structure Links (α : Type u) where
  next : α → α
  prev : α → α

/-- A queue is the record at its front and the record at its back. -/
structure Queue (α : Type u) where
  head : α
  tail : α
  deriving DecidableEq, Repr

variable {α : Type u} [DecidableEq α]

/-- Write one record's `next`. -/
def Links.setNext (L : Links α) (x y : α) : Links α :=
  { L with next := Function.update L.next x y }

/-- Write one record's `prev`. -/
def Links.setPrev (L : Links α) (x y : α) : Links α :=
  { L with prev := Function.update L.prev x y }

@[simp] theorem Links.setNext_next (L : Links α) (x y z : α) :
    (L.setNext x y).next z = if z = x then y else L.next z := by
  simp [Links.setNext, Function.update_apply]

@[simp] theorem Links.setNext_prev (L : Links α) (x y : α) :
    (L.setNext x y).prev = L.prev := rfl

@[simp] theorem Links.setPrev_prev (L : Links α) (x y z : α) :
    (L.setPrev x y).prev z = if z = x then y else L.prev z := by
  simp [Links.setPrev, Function.update_apply]

@[simp] theorem Links.setPrev_next (L : Links α) (x y : α) :
    (L.setPrev x y).next = L.next := rfl

/-! ### The operations -/

section Operations

variable (nil : α)

/-- Append `x` at the tail. -/
def enqueue (L : Links α) (q : Queue α) (x : α) : Links α × Queue α :=
  let L := (L.setNext x nil).setPrev x q.tail
  if q.tail = nil then (L, { head := x, tail := x })
  else (L.setNext q.tail x, { q with tail := x })

/-- Put `x` at the head. -/
def pushFront (L : Links α) (q : Queue α) (x : α) : Links α × Queue α :=
  let L := (L.setPrev x nil).setNext x q.head
  if q.head = nil then (L, { head := x, tail := x })
  else (L.setPrev q.head x, { q with head := x })

/-- Put `x` in front of the member `y`. -/
def insertBefore (L : Links α) (q : Queue α) (x y : α) : Links α × Queue α :=
  let L := L.setNext x y
  let L := L.setPrev x (L.prev y)
  let (L, q) :=
    if L.prev y = nil then (L, { q with head := x }) else (L.setNext (L.prev y) x, q)
  (L.setPrev y x, q)

/-- Let whatever comes before `x` skip it: the head, or the previous record's `next`. -/
def bypassNext (L : Links α) (q : Queue α) (x : α) : Links α × Queue α :=
  if L.prev x = nil then (L, { q with head := L.next x })
  else (L.setNext (L.prev x) (L.next x), q)

/-- Let whatever comes after `x` skip it: the tail, or the next record's `prev`. -/
def bypassPrev (L : Links α) (q : Queue α) (x : α) : Links α × Queue α :=
  if L.next x = nil then (L, { q with tail := L.prev x })
  else (L.setPrev (L.next x) (L.prev x), q)

/-- Take `x` out, wherever in the queue it is, and clear its links. -/
def unlink (L : Links α) (q : Queue α) (x : α) : Links α × Queue α :=
  let (L, q) := bypassNext nil L q x
  let (L, q) := bypassPrev nil L q x
  ((L.setNext x nil).setPrev x nil, q)

/-- Take the head out, if there is one, and answer it. -/
def popFront (L : Links α) (q : Queue α) : α × Links α × Queue α :=
  if q.head = nil then (nil, L, q)
  else (q.head, unlink nil L q q.head)

end Operations

/-! ### Segments -/

section Segments

omit [DecidableEq α]

/-- The records of `l` are linked in order, with `p` before the first and `n` after the
last. -/
def Seg (L : Links α) : α → List α → α → Prop
  | _, [], _ => True
  | p, x :: xs, n => L.prev x = p ∧ L.next x = xs.headD n ∧ Seg L x xs n

@[simp] theorem seg_nil (L : Links α) (p n : α) : Seg L p [] n := trivial

@[simp] theorem seg_cons {L : Links α} {p n x : α} {xs : List α} :
    Seg L p (x :: xs) n ↔ L.prev x = p ∧ L.next x = xs.headD n ∧ Seg L x xs n := Iff.rfl

/-- A concatenation is linked when both halves are and the seam agrees. -/
theorem seg_append {L : Links α} {p n : α} {l m : List α} :
    Seg L p (l ++ m) n ↔ Seg L p l (m.headD n) ∧ Seg L (l.getLastD p) m n := by
  induction l generalizing p with
  | nil => simp
  | cons x xs ih =>
    have hhead : (xs ++ m).headD n = xs.headD (m.headD n) := by cases xs <;> rfl
    have hlast : (x :: xs).getLastD p = xs.getLastD x := by cases xs <;> rfl
    simp only [List.cons_append, seg_cons, ih, hhead, hlast, and_assoc]

/-- Links read only the fields of the members. -/
theorem Seg.congr {L L' : Links α} {p n : α} {l : List α}
    (hag : ∀ x ∈ l, L'.next x = L.next x ∧ L'.prev x = L.prev x) (h : Seg L p l n) :
    Seg L' p l n := by
  induction l generalizing p with
  | nil => trivial
  | cons x xs ih =>
    obtain ⟨hp, hn, hs⟩ := h
    obtain ⟨hnx, hpx⟩ := hag x List.mem_cons_self
    exact ⟨hpx.trans hp, hnx.trans hn, ih (fun y hy => hag y (List.mem_cons_of_mem _ hy)) hs⟩

/-- The default end of a list is one of its members, or the default. -/
theorem getLastD_mem_or {l : List α} {d : α} : l.getLastD d ∈ l ∨ l = [] := by
  cases l with
  | nil => exact .inr rfl
  | cons x xs =>
    left
    rw [List.getLastD_eq_getLast?, List.getLast?_eq_some_getLast (List.cons_ne_nil x xs)]
    exact List.getLast_mem _

/-- A list without the default ends in it exactly when it is empty. -/
theorem getLastD_eq_iff {l : List α} {d : α} (hd : d ∉ l) : l.getLastD d = d ↔ l = [] := by
  constructor
  · intro h
    exact getLastD_mem_or.resolve_left fun hm => hd (h ▸ hm)
  · rintro rfl
    rfl

/-- A list without the default starts with it exactly when it is empty. -/
theorem headD_eq_iff {l : List α} {d : α} (hd : d ∉ l) : l.headD d = d ↔ l = [] := by
  cases l with
  | nil => simp
  | cons x xs => simpa using fun h : x = d => hd (h ▸ List.mem_cons_self)

end Segments

/-- Redirecting the last record's `next` redirects the segment's end. -/
theorem Seg.setNext_last {L : Links α} {p n m : α} {l : List α} (hnd : l.Nodup)
    (hne : l ≠ []) (h : Seg L p l n) : Seg (L.setNext (l.getLastD p) m) p l m := by
  induction l generalizing p with
  | nil => exact absurd rfl hne
  | cons x xs ih =>
    obtain ⟨hp, hn, hs⟩ := h
    cases xs with
    | nil => simp [hp]
    | cons y ys =>
      have hx : x ≠ (y :: ys).getLastD x := fun heq =>
        (List.nodup_cons.mp hnd).1
          (heq ▸ getLastD_mem_or.resolve_right (List.cons_ne_nil y ys))
      have hrec := ih (List.nodup_cons.mp hnd).2 (List.cons_ne_nil y ys) hs
      refine ⟨hp, ?_, hrec⟩
      show (L.setNext ((y :: ys).getLastD x) m).next x = y
      rw [Links.setNext_next, if_neg hx]
      exact hn

/-- Redirecting the first record's `prev` redirects the segment's start. -/
theorem Seg.setPrev_head {L : Links α} {p p' n x : α} {xs : List α} (hnd : (x :: xs).Nodup)
    (h : Seg L p (x :: xs) n) : Seg (L.setPrev x p') p' (x :: xs) n := by
  obtain ⟨-, hn, hs⟩ := h
  have hag : ∀ y ∈ xs, (L.setPrev x p').next y = L.next y ∧ (L.setPrev x p').prev y = L.prev y := by
    intro y hy
    have hyx : y ≠ x := fun heq => (List.nodup_cons.mp hnd).1 (heq ▸ hy)
    simp [hyx]
  exact ⟨by simp, hn, hs.congr hag⟩

omit [DecidableEq α] in
/-- Linking `x` in between two parts: their ends lead to it, and the rest is as it was. -/
theorem Seg.insert {L L' : Links α} {p n x : α} {l₁ l₂ : List α} (hnd : (l₁ ++ l₂).Nodup)
    (h : Seg L p (l₁ ++ l₂) n) (hp : L'.prev x = l₁.getLastD p) (hn : L'.next x = l₂.headD n)
    (hlast : ∀ y, l₁.getLast? = some y → L'.next y = x)
    (hhead : ∀ y, l₂.head? = some y → L'.prev y = x)
    (hnext : ∀ y ∈ l₁ ++ l₂, l₁.getLast? ≠ some y → L'.next y = L.next y)
    (hprev : ∀ y ∈ l₁ ++ l₂, l₂.head? ≠ some y → L'.prev y = L.prev y) :
    Seg L' p (l₁ ++ x :: l₂) n := by
  -- on the nodes in front of the place
  induction l₁ generalizing p with
  | nil =>
    refine ⟨hp, hn, ?_⟩
    cases l₂ with
    | nil => trivial
    | cons y ys =>
      obtain ⟨-, hny, hys⟩ := h
      refine ⟨hhead y rfl, (hnext y List.mem_cons_self (by simp)).trans hny, hys.congr ?_⟩
      intro z hz
      have hzy : z ≠ y := fun heq => (List.nodup_cons.mp hnd).1 (heq ▸ hz)
      exact ⟨hnext z (List.mem_cons_of_mem y hz) (by simp),
        hprev z (List.mem_cons_of_mem y hz) (by simpa using hzy.symm)⟩
  | cons a as ih =>
    obtain ⟨hpa, hna, hs⟩ := h
    obtain ⟨ha, hnd'⟩ := List.nodup_cons.mp hnd
    have hlast_cons : ∀ y, as.getLast? = some y → (a :: as).getLast? = some y := by
      intro y hy
      rw [List.getLast?_cons, hy]
      rfl
    -- the new node is linked behind the last of these
    refine ⟨?_, ?_, ih hnd' hs ?_ (fun y hy => hlast y (hlast_cons y hy)) ?_ ?_⟩
    · have hhead' : l₂.head? ≠ some a := fun heq =>
        ha (List.mem_append_right as (List.mem_of_head? heq))
      exact (hprev a List.mem_cons_self hhead').trans hpa
    · cases as with
      | nil => exact hlast a rfl
      | cons b bs =>
        have hend : (a :: b :: bs).getLast? ≠ some a := by
          intro heq
          rw [List.getLast?_cons_cons] at heq
          exact ha (List.mem_append_left l₂ (List.mem_of_getLast? heq))
        exact (hnext a List.mem_cons_self hend).trans hna
    · cases as with
      | nil => exact hp
      | cons b bs => exact hp
    · intro y hy hne
      refine hnext y (List.mem_cons_of_mem a hy) ?_
      cases as with
      | nil =>
        intro heq
        obtain rfl : a = y := Option.some.inj heq
        exact ha hy
      | cons b bs =>
        rw [List.getLast?_cons_cons]
        exact hne
    · exact fun y hy => hprev y (List.mem_cons_of_mem a hy)

/-! ### Queues -/

/-- The queue `q` is the list `l`. -/
structure IsQueue (nil : α) (L : Links α) (q : Queue α) (l : List α) : Prop where
  seg : Seg L nil l nil
  head : q.head = l.headD nil
  tail : q.tail = l.getLastD nil
  nodup : l.Nodup
  nil_not_mem : nil ∉ l

variable {nil : α} {L L' : Links α} {q : Queue α} {l l₁ l₂ : List α} {x y z : α}

omit [DecidableEq α] in
/-- A queue reads only its members' links. -/
theorem IsQueue.congr (hag : ∀ x ∈ l, L'.next x = L.next x ∧ L'.prev x = L.prev x)
    (h : IsQueue nil L q l) : IsQueue nil L' q l :=
  { h with seg := h.seg.congr hag }

omit [DecidableEq α] in
/-- The head is `nil` exactly when the queue is empty. -/
theorem IsQueue.head_eq_nil_iff (h : IsQueue nil L q l) : q.head = nil ↔ l = [] := by
  rw [h.head, headD_eq_iff h.nil_not_mem]

omit [DecidableEq α] in
/-- The tail is `nil` exactly when the queue is empty. -/
theorem IsQueue.tail_eq_nil_iff (h : IsQueue nil L q l) : q.tail = nil ↔ l = [] := by
  rw [h.tail, getLastD_eq_iff h.nil_not_mem]

omit [DecidableEq α] in
/-- The empty queue has `nil` at both ends. -/
theorem isQueue_empty (L : Links α) : IsQueue nil L ⟨nil, nil⟩ [] :=
  ⟨trivial, rfl, rfl, List.nodup_nil, List.not_mem_nil⟩

omit [DecidableEq α] in
/-- A queue with `x` linked in between two parts of it. -/
theorem IsQueue.insert {r : Queue α} (h : IsQueue nil L q (l₁ ++ l₂)) (hx : x ∉ l₁ ++ l₂)
    (hxn : x ≠ nil) (hp : L'.prev x = l₁.getLastD nil) (hn : L'.next x = l₂.headD nil)
    (hlast : ∀ y, l₁.getLast? = some y → L'.next y = x)
    (hhead : ∀ y, l₂.head? = some y → L'.prev y = x)
    (hnext : ∀ y ∈ l₁ ++ l₂, l₁.getLast? ≠ some y → L'.next y = L.next y)
    (hprev : ∀ y ∈ l₁ ++ l₂, l₂.head? ≠ some y → L'.prev y = L.prev y)
    (hqh : r.head = if l₁ = [] then x else q.head)
    (hqt : r.tail = if l₂ = [] then x else q.tail) : IsQueue nil L' r (l₁ ++ x :: l₂) where
  seg := h.seg.insert h.nodup hp hn hlast hhead hnext hprev
  head := by
    rw [hqh]
    cases l₁ with
    | nil => rfl
    | cons a as => exact h.head
  tail := by
    rw [hqt]
    cases l₂ with
    | nil => simp
    | cons b bs =>
      rw [if_neg (List.cons_ne_nil b bs), h.tail]
      simp [List.getLast?_append, List.getLast?_cons]
  nodup := List.nodup_middle.mpr (List.nodup_cons.mpr ⟨hx, h.nodup⟩)
  nil_not_mem := by
    have hnil := h.nil_not_mem
    simp only [List.mem_append, List.mem_cons, not_or] at hnil ⊢
    exact ⟨hnil.1, hxn.symm, hnil.2⟩

/-- The forward links after an insertion. -/
theorem insertBefore_next (L : Links α) (q : Queue α) (x y z : α) (hyx : y ≠ x) :
    (insertBefore nil L q x y).1.next z =
      if L.prev y ≠ nil ∧ z = L.prev y then x else if z = x then y else L.next z := by
  by_cases hp : L.prev y = nil
  · simp [insertBefore, hyx, hp]
  · simp [insertBefore, hyx, hp]

/-- The backward links after an insertion. -/
theorem insertBefore_prev (L : Links α) (q : Queue α) (x y z : α) (hyx : y ≠ x) :
    (insertBefore nil L q x y).1.prev z =
      if z = y then x else if z = x then L.prev y else L.prev z := by
  by_cases hp : L.prev y = nil
  · simp [insertBefore, hyx, hp]
  · simp [insertBefore, hyx, hp]

/-- Putting `x` in front of the member that begins the second part. -/
theorem IsQueue.insertBefore (h : IsQueue nil L q (l₁ ++ y :: l₂)) (hx : x ∉ l₁ ++ y :: l₂)
    (hxn : x ≠ nil) :
    IsQueue nil (insertBefore nil L q x y).1 (insertBefore nil L q x y).2
      (l₁ ++ x :: y :: l₂) := by
  obtain ⟨-, hprev, -, -⟩ := seg_append.mp h.seg
  have hyx : y ≠ x := by
    rintro rfl
    exact hx (List.mem_append_right l₁ List.mem_cons_self)
  have hnil₁ : nil ∉ l₁ := fun hm => h.nil_not_mem (List.mem_append_left _ hm)
  have hfront : L.prev y = nil ↔ l₁ = [] := by rw [hprev, getLastD_eq_iff hnil₁]
  have hlast : ∀ z, L.prev y ≠ nil ∧ z = L.prev y ↔ l₁.getLast? = some z := by
    intro z
    rw [Ne, hfront, hprev, List.getLastD_eq_getLast?]
    cases hl : l₁.getLast? with
    | none => simp [List.getLast?_eq_none_iff.mp hl]
    | some w =>
      have hne : l₁ ≠ [] := by
        rintro rfl
        simp at hl
      simp [hne, eq_comm]
  have hxlast : l₁.getLast? ≠ some x := fun heq =>
    hx (List.mem_append_left _ (List.mem_of_getLast? heq))
  refine h.insert hx hxn ?_ ?_ (fun z hz => ?_) (fun z hz => ?_) (fun z hz hne => ?_)
    (fun z hz hne => ?_) ?_ ?_
  · rw [insertBefore_prev L q x y x hyx, if_neg hyx.symm, if_pos rfl, hprev]
  · rw [insertBefore_next L q x y x hyx, if_neg (mt (hlast x).mp hxlast), if_pos rfl]
    rfl
  · rw [insertBefore_next L q x y z hyx, if_pos ((hlast z).mpr hz)]
  · obtain rfl : y = z := Option.some.inj hz
    rw [insertBefore_prev L q x y y hyx, if_pos rfl]
  · rw [insertBefore_next L q x y z hyx, if_neg (mt (hlast z).mp hne), if_neg]
    rintro rfl
    exact hx hz
  · rw [insertBefore_prev L q x y z hyx, if_neg, if_neg]
    · rintro rfl
      exact hx hz
    · rintro rfl
      exact hne rfl
  · by_cases hp : L.prev y = nil
    · simp [Intrusive.insertBefore, hyx, hp, hfront.mp hp]
    · simp [Intrusive.insertBefore, hyx, hp, mt hfront.mpr hp]
  · by_cases hp : L.prev y = nil
    · simp [Intrusive.insertBefore, hyx, hp]
    · simp [Intrusive.insertBefore, hyx, hp]

/-- Putting `x` in front of a member writes the links of `x` and of members only. -/
theorem IsQueue.insertBefore_frame (h : IsQueue nil L q (l₁ ++ y :: l₂)) (hyx : y ≠ x)
    (hz : z ∉ l₁ ++ y :: l₂) (hzx : z ≠ x) :
    (Intrusive.insertBefore nil L q x y).1.next z = L.next z ∧
      (Intrusive.insertBefore nil L q x y).1.prev z = L.prev z := by
  obtain ⟨-, hprev, -, -⟩ := seg_append.mp h.seg
  have hzy : z ≠ y := by
    rintro rfl
    exact hz (List.mem_append_right l₁ List.mem_cons_self)
  rw [insertBefore_next L q x y z hyx, insertBefore_prev L q x y z hyx, if_neg hzy, if_neg hzx,
    if_neg, if_neg hzx]
  · exact ⟨rfl, rfl⟩
  · rintro ⟨hp, rfl⟩
    rw [hprev] at hp hz
    exact hz (List.mem_append_left _ (getLastD_mem_or.resolve_right fun heq =>
      hp ((getLastD_eq_iff fun hm => h.nil_not_mem (List.mem_append_left _ hm)).mpr heq)))

/-- Appending puts `x` last. -/
theorem IsQueue.enqueue (h : IsQueue nil L q l) (hx : x ∉ l) (hxn : x ≠ nil) :
    IsQueue nil (enqueue nil L q x).1 (enqueue nil L q x).2 (l ++ [x]) := by
  have hnd : (l ++ [x]).Nodup :=
    List.nodup_append.mpr ⟨h.nodup, List.nodup_singleton x, by
      rintro a ha b hb rfl
      exact hx (List.mem_singleton.mp hb ▸ ha)⟩
  have hnil : nil ∉ l ++ [x] := by
    simp [h.nil_not_mem, hxn.symm]
  by_cases ht : q.tail = nil
  · -- the queue was empty
    obtain rfl : l = [] := h.tail_eq_nil_iff.mp ht
    simp only [Intrusive.enqueue, if_pos ht]
    exact ⟨by simp [ht], rfl, rfl, hnd, hnil⟩
  · have hl : l ≠ [] := fun heq => ht (h.tail_eq_nil_iff.mpr heq)
    have htx : x ≠ q.tail := by
      rintro rfl
      exact hx (h.tail ▸ getLastD_mem_or.resolve_right hl)
    simp only [Intrusive.enqueue, if_neg ht]
    refine ⟨seg_append.mpr ⟨?_, ?_⟩, ?_, by simp, hnd, hnil⟩
    · have hag : Seg ((L.setNext x nil).setPrev x q.tail) nil l nil :=
        h.seg.congr fun z hz => by
          have hzx : z ≠ x := fun heq => hx (heq ▸ hz)
          simp [hzx]
      have hlast := hag.setNext_last (m := x) h.nodup hl
      rw [← h.tail] at hlast
      exact hlast
    · rw [← h.tail]
      simp [htx]
    · rw [h.head]
      cases l with
      | nil => exact absurd rfl hl
      | cons a as => rfl

/-- Appending writes the links of `x` and of the old tail only. -/
theorem IsQueue.enqueue_frame (h : IsQueue nil L q l) (hz : z ∉ l) (hzx : z ≠ x) :
    (Intrusive.enqueue nil L q x).1.next z = L.next z ∧
      (Intrusive.enqueue nil L q x).1.prev z = L.prev z := by
  by_cases ht : q.tail = nil
  · simp [Intrusive.enqueue, if_pos ht, hzx]
  · have hl : l ≠ [] := fun heq => ht (h.tail_eq_nil_iff.mpr heq)
    have hzt : z ≠ q.tail := by
      rintro rfl
      exact hz (h.tail ▸ getLastD_mem_or.resolve_right hl)
    simp [Intrusive.enqueue, if_neg ht, hzx, hzt]

/-- Putting `x` in front makes it first. -/
theorem IsQueue.pushFront (h : IsQueue nil L q l) (hx : x ∉ l) (hxn : x ≠ nil) :
    IsQueue nil (pushFront nil L q x).1 (pushFront nil L q x).2 (x :: l) := by
  have hnd : (x :: l).Nodup := List.nodup_cons.mpr ⟨hx, h.nodup⟩
  have hnil : nil ∉ x :: l := by
    simp [h.nil_not_mem, hxn.symm]
  have hag : ∀ z ∈ l, ((L.setPrev x nil).setNext x q.head).next z = L.next z ∧
      ((L.setPrev x nil).setNext x q.head).prev z = L.prev z := by
    intro z hz
    have hzx : z ≠ x := fun heq => hx (heq ▸ hz)
    simp [hzx]
  cases l with
  | nil =>
    have hh : q.head = nil := h.head_eq_nil_iff.mpr rfl
    simp only [Intrusive.pushFront, if_pos hh]
    exact ⟨by simp [hh], rfl, rfl, hnd, hnil⟩
  | cons a as =>
    have hh : q.head = a := h.head
    have han : a ≠ nil := fun heq => h.nil_not_mem (heq ▸ List.mem_cons_self)
    have hax : x ≠ a := fun heq => hx (heq ▸ List.mem_cons_self)
    simp only [Intrusive.pushFront, hh, if_neg han]
    rw [hh] at hag
    refine ⟨⟨by simp [hax], by simp, (h.seg.congr hag).setPrev_head h.nodup⟩, rfl, ?_, hnd, hnil⟩
    rw [h.tail]
    rfl

/-- Putting `x` in front writes the links of `x` and of the old head only. -/
theorem IsQueue.pushFront_frame (h : IsQueue nil L q l) (hz : z ∉ l) (hzx : z ≠ x) :
    (Intrusive.pushFront nil L q x).1.next z = L.next z ∧
      (Intrusive.pushFront nil L q x).1.prev z = L.prev z := by
  by_cases hh : q.head = nil
  · simp [Intrusive.pushFront, if_pos hh, hzx]
  · have hzh : z ≠ q.head := by
      rintro rfl
      cases l with
      | nil => exact hh (h.head_eq_nil_iff.mpr rfl)
      | cons a as => exact hz (h.head ▸ List.mem_cons_self)
    simp [Intrusive.pushFront, if_neg hh, hzx, hzh]

/-- The front half of `unlink`: the part before `x` now ends in what followed it. -/
theorem bypassNext_spec (hseg : Seg L nil l₁ x) (hp : L.prev x = l₁.getLastD nil)
    (hnd : l₁.Nodup) (hnil : nil ∉ l₁) :
    Seg (bypassNext nil L q x).1 nil l₁ (L.next x) ∧
      (∀ z ∉ l₁, (bypassNext nil L q x).1.next z = L.next z) ∧
      (bypassNext nil L q x).1.prev = L.prev ∧
      (bypassNext nil L q x).2 = { q with head := if l₁ = [] then L.next x else q.head } := by
  by_cases hl : l₁ = []
  · subst hl
    simp [bypassNext, hp]
  · have hpn : L.prev x ≠ nil := by
      rw [hp]
      exact fun heq => hl ((getLastD_eq_iff hnil).mp heq)
    simp only [bypassNext, if_neg hpn, if_neg hl]
    refine ⟨?_, fun z hz => ?_, rfl, trivial⟩
    · have hlast := hseg.setNext_last (m := L.next x) hnd hl
      rw [← hp] at hlast
      exact hlast
    · have hzp : z ≠ L.prev x := by
        rintro rfl
        exact hz (hp ▸ getLastD_mem_or.resolve_right hl)
      simp [hzp]

/-- The back half of `unlink`: the part after `x` now starts behind what preceded it. -/
theorem bypassPrev_spec (hseg : Seg L x l₂ nil) (hn : L.next x = l₂.headD nil)
    (hnd : l₂.Nodup) (hnil : nil ∉ l₂) :
    Seg (bypassPrev nil L q x).1 (L.prev x) l₂ nil ∧
      (∀ z ∉ l₂, (bypassPrev nil L q x).1.prev z = L.prev z) ∧
      (bypassPrev nil L q x).1.next = L.next ∧
      (bypassPrev nil L q x).2 = { q with tail := if l₂ = [] then L.prev x else q.tail } := by
  cases l₂ with
  | nil => simp [bypassPrev, hn]
  | cons a as =>
    have hna : L.next x = a := hn
    have han : a ≠ nil := fun heq => hnil (heq ▸ List.mem_cons_self)
    simp only [bypassPrev, hna, if_neg han, if_neg (List.cons_ne_nil a as)]
    refine ⟨hseg.setPrev_head hnd, fun z hz => ?_, rfl, trivial⟩
    have hza : z ≠ a := fun heq => hz (heq ▸ List.mem_cons_self)
    simp [hza]

/-- Removing a member joins the two parts around it. -/
theorem IsQueue.unlink_append (h : IsQueue nil L q (l₁ ++ x :: l₂)) :
    IsQueue nil (unlink nil L q x).1 (unlink nil L q x).2 (l₁ ++ l₂) ∧
      ∀ z ∉ l₁ ++ x :: l₂, (unlink nil L q x).1.next z = L.next z ∧
        (unlink nil L q x).1.prev z = L.prev z := by
  obtain ⟨hnd₁, hnd₂, hdisj⟩ := List.nodup_append.mp h.nodup
  obtain ⟨hx₂, hnd₂⟩ := List.nodup_cons.mp hnd₂
  have hx₁ : x ∉ l₁ := fun hm => hdisj x hm x List.mem_cons_self rfl
  have hnil₁ : nil ∉ l₁ := fun hm => h.nil_not_mem (List.mem_append_left _ hm)
  have hnil₂ : nil ∉ l₂ := fun hm =>
    h.nil_not_mem (List.mem_append_right _ (List.mem_cons_of_mem _ hm))
  obtain ⟨hs₁, hp, hn, hs₂⟩ := seg_append.mp h.seg
  rw [List.headD_cons] at hs₁
  -- the two pointer updates, one after the other
  obtain ⟨hA, hAnext, hAprev, hAq⟩ := bypassNext_spec (q := q) hs₁ hp hnd₁ hnil₁
  set A := bypassNext nil L q x with hAdef
  have hAn : A.1.next x = L.next x := hAnext x hx₁
  have hs₂' : Seg A.1 x l₂ nil := hs₂.congr fun z hz =>
    ⟨hAnext z fun hm => hdisj z hm z (List.mem_cons_of_mem _ hz) rfl, by rw [hAprev]⟩
  obtain ⟨hB, hBprev, hBnext, hBq⟩ :=
    bypassPrev_spec (q := A.2) hs₂' (hAn.trans hn) hnd₂ hnil₂
  set B := bypassPrev nil A.1 A.2 x with hBdef
  have hU : unlink nil L q x = ((B.1.setNext x nil).setPrev x nil, B.2) := rfl
  have hB₁ : Seg B.1 nil l₁ (L.next x) := hA.congr fun z hz =>
    ⟨by rw [hBnext], hBprev z fun hm => hdisj z hz z (List.mem_cons_of_mem _ hm) rfl⟩
  have hclear : ∀ z, z ≠ x → ((B.1.setNext x nil).setPrev x nil).next z = B.1.next z ∧
      ((B.1.setNext x nil).setPrev x nil).prev z = B.1.prev z := fun z hz => by simp [hz]
  rw [hU]
  refine ⟨⟨seg_append.mpr ⟨?_, ?_⟩, ?_, ?_, ?_, ?_⟩, fun z hz => ?_⟩
  · rw [← hn]
    exact hB₁.congr fun z hz => hclear z fun heq => hx₁ (heq ▸ hz)
  · rw [← hp, ← hAprev]
    exact hB.congr fun z hz => hclear z fun heq => hx₂ (heq ▸ hz)
  · show B.2.head = _
    rw [hBq, hAq]
    cases l₁ with
    | nil => exact hn
    | cons a as => exact h.head
  · show B.2.tail = _
    rw [hBq, hAq]
    cases l₂ with
    | nil =>
      rw [if_pos rfl, hAprev, hp, List.append_nil]
    | cons a as =>
      rw [if_neg (List.cons_ne_nil a as)]
      show q.tail = _
      rw [h.tail]
      simp [List.getLast?_append, List.getLast?_cons]
  · exact List.nodup_append.mpr ⟨hnd₁, hnd₂, fun a ha b hb =>
      hdisj a ha b (List.mem_cons_of_mem _ hb)⟩
  · exact fun hm => (List.mem_append.mp hm).elim hnil₁ hnil₂
  · simp only [List.mem_append, List.mem_cons, not_or] at hz
    obtain ⟨hz₁, hzx, hz₂⟩ := hz
    obtain ⟨hcn, hcp⟩ := hclear z hzx
    rw [hcn, hcp, hBnext, hBprev z hz₂, hAnext z hz₁, hAprev]
    exact ⟨rfl, rfl⟩

/-- Removing a member erases it from the list. -/
theorem IsQueue.unlink (h : IsQueue nil L q l) (hx : x ∈ l) :
    IsQueue nil (unlink nil L q x).1 (unlink nil L q x).2 (l.erase x) := by
  obtain ⟨l₁, l₂, hx₁, rfl, he⟩ := List.exists_erase_eq hx
  rw [he]
  exact h.unlink_append.1

/-- Removing a member writes members' links only. -/
theorem IsQueue.unlink_frame (h : IsQueue nil L q l) (hx : x ∈ l) (hz : z ∉ l) :
    (Intrusive.unlink nil L q x).1.next z = L.next z ∧
      (Intrusive.unlink nil L q x).1.prev z = L.prev z := by
  obtain ⟨l₁, l₂, -, rfl, -⟩ := List.exists_erase_eq hx
  exact h.unlink_append.2 z hz

/-- A removed record's links are cleared. -/
@[simp]
theorem unlink_self (L : Links α) (q : Queue α) (x : α) :
    (unlink nil L q x).1.next x = nil ∧ (unlink nil L q x).1.prev x = nil := by
  simp [unlink]

omit [DecidableEq α] in
/-- The only empty queue has `nil` at both ends. -/
theorem IsQueue.eq_empty {L : Links α} {q : Queue α} (h : IsQueue nil L q []) :
    q = ⟨nil, nil⟩ := by
  obtain ⟨head, tail⟩ := q
  exact congrArg₂ Queue.mk h.head h.tail

/-- Writing clear links clear writes nothing. -/
theorem clear_eq_self {L : Links α} {x : α} (hn : L.next x = nil) (hp : L.prev x = nil) :
    (L.setNext x nil).setPrev x nil = L := by
  simp only [Links.setNext, Links.setPrev]
  rw [← hn, Function.update_eq_self, hn, ← hp, Function.update_eq_self]

/-- Unlinking a record whose links are clear empties the queue it is unlinked from, whatever
else was in it. -/
theorem unlink_cleared {L : Links α} {x : α} (hn : L.next x = nil) (hp : L.prev x = nil)
    (q : Queue α) : unlink nil L q x = (L, ⟨nil, nil⟩) := by
  have h₁ : bypassNext nil L q x = (L, ⟨nil, q.tail⟩) := by rw [bypassNext, if_pos hp, hn]
  have h₂ : bypassPrev nil L ⟨nil, q.tail⟩ x = (L, ⟨nil, nil⟩) := by
    rw [bypassPrev, if_pos hn, hp]
  rw [unlink, h₁]
  dsimp only
  rw [h₂]
  dsimp only
  rw [clear_eq_self hn hp]

/-- Enqueueing a record whose links are clear on an empty queue writes no link. -/
theorem enqueue_cleared {L : Links α} {x : α} (hn : L.next x = nil) (hp : L.prev x = nil) :
    enqueue nil L ⟨nil, nil⟩ x = (L, ⟨x, x⟩) := by
  simp only [enqueue, if_true, clear_eq_self hn hp]

omit [DecidableEq α] in
/-- A record that is alone in its queue has clear links. -/
theorem IsQueue.cleared_of_singleton {L : Links α} {q : Queue α} {x : α}
    (h : IsQueue nil L q [x]) : L.next x = nil ∧ L.prev x = nil :=
  ⟨h.seg.2.1, h.seg.1⟩

/-! ### Free chains

A free list uses `next` alone, last in, first out. -/

section Chains

variable {next next' : α → α} {h x : α} {l : List α}

omit [DecidableEq α] in
/-- `Chain nil next h l`: from `h`, following `next`, the records `l`, and then `nil`. -/
def Chain (nil : α) (next : α → α) : α → List α → Prop
  | h, [] => h = nil
  | h, x :: xs => h = x ∧ x ≠ nil ∧ Chain nil next (next x) xs

omit [DecidableEq α] in
/-- A chain reads `next` of its members only. -/
theorem Chain.congr (hag : ∀ y ∈ l, next' y = next y) (hc : Chain nil next h l) :
    Chain nil next' h l := by
  induction l generalizing h with
  | nil => exact hc
  | cons x xs ih =>
    obtain ⟨hx, hn, hxs⟩ := hc
    refine ⟨hx, hn, ?_⟩
    rw [hag x List.mem_cons_self]
    exact ih (fun y hy => hag y (List.mem_cons_of_mem x hy)) hxs

omit [DecidableEq α] in
/-- A chain that does not start at `nil` starts at its first record. -/
theorem Chain.eq_cons (hc : Chain nil next h l) (hne : h ≠ nil) :
    ∃ xs, l = h :: xs ∧ Chain nil next (next h) xs := by
  cases l with
  | nil => exact absurd hc hne
  | cons x xs =>
    obtain ⟨rfl, -, hxs⟩ := hc
    exact ⟨xs, rfl, hxs⟩

omit [DecidableEq α] in
/-- A chain starts at its first record. -/
theorem Chain.eq_headD (hc : Chain nil next h l) : h = l.headD nil := by
  cases l with
  | nil => exact hc
  | cons x xs => exact hc.1

omit [DecidableEq α] in
/-- The sentinel is not on a chain. -/
theorem Chain.nil_not_mem (hc : Chain nil next h l) : nil ∉ l := by
  induction l generalizing h with
  | nil => exact List.not_mem_nil
  | cons x xs ih =>
    obtain ⟨-, hn, hxs⟩ := hc
    exact List.not_mem_cons_of_ne_of_not_mem hn.symm (ih hxs)

omit [DecidableEq α] in
/-- A member leads to a member, or ends the chain. -/
theorem Chain.next_mem (hc : Chain nil next h l) (hx : x ∈ l) : next x = nil ∨ next x ∈ l := by
  induction l generalizing h with
  | nil => exact absurd hx List.not_mem_nil
  | cons y ys ih =>
    obtain ⟨rfl, -, hys⟩ := hc
    rcases List.mem_cons.mp hx with rfl | hx
    · cases ys with
      | nil => exact .inl hys
      | cons z zs =>
        rw [hys.1]
        exact .inr (List.mem_cons_of_mem x List.mem_cons_self)
    · exact (ih hys hx).imp id (List.mem_cons_of_mem h)

omit [DecidableEq α] in
/-- One chain leads from a record. -/
theorem Chain.unique {l' : List α} (hc : Chain nil next h l) (hc' : Chain nil next h l') :
    l = l' := by
  induction l generalizing h l' with
  | nil =>
    obtain rfl : h = nil := hc
    cases l' with
    | nil => rfl
    | cons x xs => exact absurd hc'.1.symm hc'.2.1
  | cons x xs ih =>
    obtain ⟨rfl, hn, hxs⟩ := hc
    obtain ⟨xs', rfl, hxs'⟩ := hc'.eq_cons hn
    rw [ih hxs hxs']

omit [DecidableEq α] in
/-- A queue is a chain from its head. -/
theorem IsQueue.chain {L : Links α} {q : Queue α} (hq : IsQueue nil L q l) :
    Chain nil L.next q.head l := by
  have hseg : ∀ {p : α} {l : List α}, Seg L p l nil → nil ∉ l →
      Chain nil L.next (l.headD nil) l := by
    intro p l hs hnil
    induction l generalizing p with
    | nil => exact rfl
    | cons x xs ih =>
      obtain ⟨-, hn, hxs⟩ := hs
      rw [List.mem_cons, not_or] at hnil
      refine ⟨rfl, Ne.symm hnil.1, ?_⟩
      rw [hn]
      exact ih hxs hnil.2
  rw [hq.head]
  exact hseg hq.seg hq.nil_not_mem

/-- Putting a record in front. -/
theorem Chain.push (hc : Chain nil next h l) (hx : x ∉ l) (hxn : x ≠ nil) :
    Chain nil (Function.update next x h) x (x :: l) := by
  refine ⟨rfl, hxn, ?_⟩
  rw [Function.update_self]
  refine hc.congr fun y hy => Function.update_of_ne ?_ _ _
  rintro rfl
  exact hx hy

omit [DecidableEq α] in
/-- Behind a member the chain goes on. -/
theorem Chain.behind {l₁ l₂ : List α} (hc : Chain nil next h (l₁ ++ x :: l₂)) :
    x ≠ nil ∧ Chain nil next (next x) l₂ := by
  induction l₁ generalizing h with
  | nil => exact ⟨hc.2.1, hc.1 ▸ hc.2.2⟩
  | cons a as ih => exact ih hc.2.2

omit [DecidableEq α] in
/-- The record before a member leads to it. -/
theorem Chain.next_getLast? {y : α} {l₁ l₂ : List α} (hc : Chain nil next h (l₁ ++ x :: l₂))
    (hy : l₁.getLast? = some y) : next y = x := by
  induction l₁ generalizing h with
  | nil => exact absurd hy nofun
  | cons a as ih =>
    obtain ⟨rfl, -, has⟩ := hc
    cases as with
    | nil =>
      obtain rfl : h = y := Option.some.inj hy
      exact has.1
    | cons b bs =>
      rw [List.getLast?_cons_cons] at hy
      exact ih has hy

omit [DecidableEq α] in
/-- The link that leads to a member is that of the record before it. -/
theorem Chain.getLast?_eq {y : α} {l₁ l₂ : List α} (hc : Chain nil next h (l₁ ++ x :: l₂))
    (hnd : (l₁ ++ x :: l₂).Nodup) (hy : y ∈ l₁ ++ x :: l₂) (hyx : next y = x) :
    l₁.getLast? = some y := by
  induction l₁ generalizing h with
  | nil =>
    -- nothing behind `x` leads back to it
    exfalso
    obtain ⟨rfl, hne, hl₂⟩ := hc
    have hx : h ∉ l₂ := (List.nodup_cons.mp hnd).1
    rcases List.mem_cons.mp hy with rfl | hy
    · cases l₂ with
      | nil => exact hne (hyx.symm.trans hl₂)
      | cons b bs =>
        rw [hyx] at hl₂
        exact hx (hl₂.1 ▸ List.mem_cons_self)
    · rcases hl₂.next_mem hy with hnil | hmem
      · exact hne (hyx.symm.trans hnil)
      · exact hx (hyx ▸ hmem)
  | cons a as ih =>
    obtain ⟨rfl, -, has⟩ := hc
    obtain ⟨ha, hnd'⟩ := List.nodup_cons.mp hnd
    rcases List.mem_cons.mp hy with rfl | hy
    · cases as with
      | nil => rfl
      | cons b bs =>
        rw [hyx] at has
        obtain rfl := has.1
        exact absurd (List.mem_append_right bs List.mem_cons_self) (List.nodup_cons.mp hnd').1
    · rw [List.getLast?_cons, ih has hnd' hy]
      rfl

omit [DecidableEq α] in
/-- Letting the link before a member lead past it. -/
theorem Chain.unlink {h' : α} {l₁ l₂ : List α} (hc : Chain nil next h (l₁ ++ x :: l₂))
    (hnd : (l₁ ++ x :: l₂).Nodup) (hlast : ∀ y, l₁.getLast? = some y → next' y = next x)
    (hag : ∀ y ∈ l₁ ++ l₂, l₁.getLast? ≠ some y → next' y = next y)
    (hh : h' = if l₁ = [] then next x else h) : Chain nil next' h' (l₁ ++ l₂) := by
  induction l₁ generalizing h h' with
  | nil =>
    obtain ⟨rfl, -, hl₂⟩ := hc
    rw [hh, if_pos rfl]
    exact hl₂.congr fun y hy => hag y hy nofun
  | cons a as ih =>
    obtain ⟨rfl, hne, has⟩ := hc
    obtain ⟨ha, hnd'⟩ := List.nodup_cons.mp hnd
    have hcons : ∀ y, as.getLast? = some y → (h :: as).getLast? = some y := by
      intro y hy
      rw [List.getLast?_cons, hy]
      rfl
    refine ⟨by rw [hh, if_neg (List.cons_ne_nil h as)], hne, ?_⟩
    refine ih has hnd' (fun y hy => hlast y (hcons y hy)) (fun y hy hy' => ?_) ?_
    · refine hag y (List.mem_cons_of_mem h hy) ?_
      cases as with
      | nil =>
        intro heq
        obtain rfl : h = y := Option.some.inj heq
        exact ha (List.mem_cons_of_mem x hy)
      | cons b bs =>
        rw [List.getLast?_cons_cons]
        exact hy'
    · split
      · subst as
        exact hlast h rfl
      · rename_i hne'
        refine hag h List.mem_cons_self fun heq => ?_
        cases as with
        | nil => exact hne' rfl
        | cons b bs =>
          rw [List.getLast?_cons_cons] at heq
          exact ha (List.mem_append_left _ (List.mem_of_getLast? heq))

end Chains

end Intrusive

end PS2Bios
