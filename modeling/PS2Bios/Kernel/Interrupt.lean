import PS2Bios.Library.Cursor
import PS2Bios.Library.Run
import PS2Bios.Library.Word

/-!
# Interrupt handlers

The handler lists of `interrupt.cpp`: one for each INTC cause and each DMAC channel, threaded
through one pool of records. `install` and `remove` are slots `0x10` to `0x13`, and a `Walk` is
`callHandlers` between one handler and the next: while a handler runs, it and the handlers of
deliveries nested in it may call the slots, and `leave` reads the link the record then has.

What a walk says of its delivery besides (`listed`, `called`, `gone`) the code does not keep. It is
what the delivery is judged by.
-/

namespace PS2Bios.Kernel.Interrupt

/-- The causes of the interrupt controller. -/
def kIntcCauses : ℕ := 15

/-- The channels of the DMA controller. -/
def kDmacChannels : ℕ := 16

/-- The handler records that both kinds share. -/
def kHandlers : ℕ := 64

/-- The index that ends a list and stands for no record. -/
def kNone : ℕ := 0xFFFF

/-- Whose list: an INTC cause or a DMAC channel. -/
inductive Line
  | intc (cause : ℕ)
  | dmac (channel : ℕ)
deriving DecidableEq, Repr

/-- A handler as it was installed. -/
structure Installed where
  handler : ℕ
  arg : ℕ
  gp : ℕ
  id : ℕ
deriving DecidableEq, Repr

/-- `Record`: its `id` is zero when it is free. -/
structure Record extends Installed where
  next : ℕ

/-- The records, the heads of the lists and the counter of ids. -/
structure Handlers where
  records : ℕ → Record
  head : Line → ℕ
  next_id : ℕ
  lists_ready : Bool

/-- The lists are empty when they are first used. -/
def prepareLists (s : Handlers) : Handlers :=
  if s.lists_ready then s else { s with lists_ready := true, head := fun _ => kNone }

/-- The first free record. -/
def freeRecord (s : Handlers) : Option ℕ :=
  (List.range kHandlers).find? fun k => (s.records k).id == 0

/-- `install`: the id, or `none` for `-1`. -/
def install (s : Handlers) (line : Line) (handler arg gp : ℕ) : Handlers × Option ℕ :=
  let s := prepareLists s
  match freeRecord s with
  | some k =>
    ({ s with
        records := Function.update s.records k ⟨⟨handler, arg, gp, s.next_id⟩, s.head line⟩
        head := Function.update s.head line k
        next_id := add32 s.next_id 1 }, some s.next_id)
  | none => (s, none)

/-- The loop of `remove`: the record with the id and whose link leads to it, the head's when
`none`. It is `none` itself when the links never end. -/
def seek (s : Handlers) (id : ℕ) : ℕ → Option ℕ → ℕ → Option (Option (Option ℕ × ℕ))
  | 0, _, _ => none
  | turns + 1, link, k =>
    if k = kNone then some none
    else if (s.records k).id = id then some (some (link, k))
    else seek s id turns (some k) (s.records k).next

/-- `*link = value`. -/
def setLink (s : Handlers) (line : Line) (value : ℕ) : Option ℕ → Handlers
  | none => { s with head := Function.update s.head line value }
  | some k =>
    { s with records := Function.update s.records k { s.records k with next := value } }

/-- Give a record back: its link stays. -/
def free (s : Handlers) (k : ℕ) : Handlers :=
  { s with records := Function.update s.records k { s.records k with id := 0 } }

/-- `remove`: the id, or `none` for `-1`. -/
def remove (s : Handlers) (line : Line) (id : ℕ) : Option (Handlers × Option ℕ) :=
  let s := prepareLists s
  (seek s id (kHandlers + 1) none (s.head line)).map fun
    | some (link, k) => (free (setLink s line (s.records k).next link) k, some id)
    | none => (s, none)

/-- The calls of the four slots: `add` is `0x10` and `0x12`, `remove` is `0x11` and `0x13`. -/
inductive Call
  | add (line : Line) (handler arg gp : ℕ)
  | remove (line : Line) (id : ℕ)
deriving DecidableEq, Repr

/-- Slot `0x10`. Its `next` is not read. -/
def sysAddIntcHandler (s : Handlers) (cause handler arg gp : ℕ) : Handlers × Option ℕ :=
  if kIntcCauses ≤ cause ∨ cause = 1 then (s, none) else install s (.intc cause) handler arg gp

/-- Slot `0x11`. -/
def sysRemoveIntcHandler (s : Handlers) (cause id : ℕ) : Option (Handlers × Option ℕ) :=
  if kIntcCauses ≤ cause then some (s, none) else remove s (.intc cause) id

/-- Slot `0x12`. -/
def sysAddDmacHandler (s : Handlers) (channel handler arg gp : ℕ) : Handlers × Option ℕ :=
  if kDmacChannels ≤ channel then (s, none) else install s (.dmac channel) handler arg gp

/-- Slot `0x13`. -/
def sysRemoveDmacHandler (s : Handlers) (channel id : ℕ) : Option (Handlers × Option ℕ) :=
  if kDmacChannels ≤ channel then some (s, none) else remove s (.dmac channel) id

/-- A registration or removal, by the kind of its line. -/
def perform (s : Handlers) : Call → Option (Handlers × Option ℕ)
  | .add (.intc cause) handler arg gp => some (sysAddIntcHandler s cause handler arg gp)
  | .add (.dmac channel) handler arg gp => some (sysAddDmacHandler s channel handler arg gp)
  | .remove (.intc cause) id => sysRemoveIntcHandler s cause id
  | .remove (.dmac channel) id => sysRemoveDmacHandler s channel id

/-- The lines whose slots install: cause 1 is refused. -/
def Line.installs : Line → Bool
  | .intc cause => cause < kIntcCauses && cause != 1
  | .dmac channel => channel < kDmacChannels

/-- The lines whose slots remove, and those `interruptDispatch` serves. -/
def Line.served : Line → Bool
  | .intc cause => cause < kIntcCauses
  | .dmac channel => channel < kDmacChannels

/-! ### Delivery -/

/-- A delivery on its way: whose it is and the record whose handler runs. Then the handlers that
were on the list at its start, those it has called, and the ids that were removed uncalled. -/
structure Walk where
  line : Line
  position : ℕ
  listed : List Installed
  called : List Installed
  gone : List ℕ
deriving DecidableEq, Repr

/-- The handlers behind a link. -/
def listedFrom (s : Handlers) : ℕ → ℕ → List Installed
  | 0, _ => []
  | n + 1, k =>
    if k = kNone then [] else (s.records k).toInstalled :: listedFrom s n (s.records k).next

/-- What a removal says of a delivery. -/
def Walk.removed (w : Walk) (line : Line) (id : ℕ) : Walk :=
  if w.line = line ∧ id ∉ w.called.map Installed.id then { w with gone := id :: w.gone } else w

/-- The deliveries on their way, the innermost first, and those that came to their end. -/
structure Machine where
  handlers : Handlers
  walks : List Walk
  finished : List Walk

/-- A call, an interrupt that is delivered, and its end. -/
inductive Event
  | call (c : Call)
  | enter (line : Line)
  | leave
deriving DecidableEq, Repr

/-- The condition of the loop of `callHandlers`, and the call of the handler at `next`. -/
def Machine.turn (m : Machine) (w : Walk) (next : ℕ) : Machine :=
  if next = kNone then { m with finished := w :: m.finished }
  else
    { m with
        walks := { w with position := next
                          called := w.called ++ [(m.handlers.records next).toInstalled] } ::
          m.walks }

/-- One call of a slot, by a thread or the innermost handler running; one interrupt, which may be
nested in it; or its return. -/
def Machine.step (m : Machine) : Event → Option Machine
  | .call c => (perform m.handlers c).map fun r =>
    { m with
        handlers := r.1
        walks := match c, r.2 with
          | .remove line _, some id => m.walks.map (Walk.removed · line id)
          | _, _ => m.walks }
  | .enter line =>
    let s := prepareLists m.handlers
    let listed := listedFrom s kHandlers (s.head line)
    if line.served then
      some (Machine.turn { m with handlers := s } ⟨line, kNone, listed, [], []⟩ (s.head line))
    else none
  | .leave =>
    match m.walks with
    | [] => none
    | w :: walks =>
      some (Machine.turn { m with walks } w (m.handlers.records w.position).next)

/-- No handler yet, and nothing delivered. -/
def Machine.started : Machine :=
  ⟨⟨fun _ => ⟨⟨0, 0, 0, 0⟩, 0⟩, fun _ => 0, 1, false⟩, [], []⟩

/-! ### The lists -/

open Intrusive

variable {s : Handlers} {L : Line → List ℕ} {line : Line} {id k : ℕ}

/-- A record's link. -/
def Handlers.next (s : Handlers) (k : ℕ) : ℕ := (s.records k).next

/-- The list of each line, and no record on two. The records on none are the free ones, and each
id is that of one record. -/
structure Lists (s : Handlers) (L : Line → List ℕ) : Prop where
  ready : s.lists_ready = true
  chain : ∀ line, Chain kNone s.next (s.head line) (L line)
  nodup : ∀ line, (L line).Nodup
  disjoint : ∀ line line' k, k ∈ L line → k ∈ L line' → line = line'
  bound : ∀ line, ∀ k ∈ L line, k < kHandlers
  used : ∀ line, ∀ k ∈ L line, (s.records k).id ≠ 0
  free : ∀ k, (∀ line, k ∉ L line) → (s.records k).id = 0
  ids : ∀ j k, (s.records j).id = (s.records k).id → (s.records j).id ≠ 0 → j = k
  fresh : ∀ k, (s.records k).id < s.next_id ∨ s.next_id = 0
  counter : s.next_id < 2 ^ 32

theorem prepareLists_of_ready (h : s.lists_ready = true) : prepareLists s = s := if_pos h

/-- What the free record that is handed out is. -/
theorem freeRecord_eq_some (h : freeRecord s = some k) : k < kHandlers ∧ (s.records k).id = 0 := by
  have hmem := List.mem_of_find?_eq_some h
  have hid := List.find?_some h
  exact ⟨List.mem_range.mp hmem, by simpa using hid⟩

/-- A list holds the records behind the head in order. -/
theorem Lists.listedFrom (h : Lists s L) {line : Line} :
    listedFrom s kHandlers (s.head line) = (L line).map fun k => (s.records k).toInstalled := by
  have hlength : (L line).length ≤ kHandlers := by
    have hsub : L line ⊆ List.range kHandlers := fun k hk =>
      List.mem_range.mpr (h.bound line k hk)
    simpa using (h.nodup line).length_le_of_subset hsub
  have hchain := h.chain line
  generalize s.head line = a at hchain
  generalize L line = l at hchain hlength
  generalize kHandlers = n at hlength
  induction l generalizing a n with
  | nil =>
    obtain rfl : a = kNone := hchain
    cases n with
    | zero => rfl
    | succ n => exact if_pos rfl
  | cons x xs ih =>
    obtain ⟨rfl, hne, hxs⟩ := hchain
    obtain ⟨n, rfl⟩ : ∃ j, n = j + 1 := ⟨n - 1, by rw [List.length_cons] at hlength; omega⟩
    rw [List.length_cons] at hlength
    unfold Interrupt.listedFrom
    rw [if_neg hne, List.map_cons]
    exact congrArg _ (ih _ hxs n (by omega))

/-- One list changes, by records that are on it or on none. -/
theorem Lists.change {s' : Handlers} {l : List ℕ} (h : Lists s L) (hready : s'.lists_ready = true)
    (hchain : Chain kNone s'.next (s'.head line) l) (hnodup : l.Nodup)
    (hhead : ∀ line', line' ≠ line → s'.head line' = s.head line')
    (hnext : ∀ line', line' ≠ line → ∀ j ∈ L line', s'.next j = s.next j)
    (hmem : ∀ j ∈ l, j ∈ L line ∨ j < kHandlers ∧ ∀ line', j ∉ L line')
    (hused : ∀ j ∈ l, (s'.records j).id ≠ 0)
    (hfree : ∀ j ∈ L line, j ∉ l → (s'.records j).id = 0)
    (hkeep : ∀ j, j ∉ l → j ∉ L line → (s'.records j).id = (s.records j).id)
    (hids : ∀ i j, (s'.records i).id = (s'.records j).id → (s'.records i).id ≠ 0 → i = j)
    (hfresh : ∀ k, (s'.records k).id < s'.next_id ∨ s'.next_id = 0)
    (hcounter : s'.next_id < 2 ^ 32) : Lists s' (Function.update L line l) := by
  -- what is on the list now is on no other
  have hother : ∀ line', line' ≠ line → ∀ j ∈ L line', j ∉ l := by
    intro line' hne j hj hjl
    rcases hmem j hjl with hj' | ⟨-, hj'⟩
    · exact hne (h.disjoint line' line j hj hj')
    · exact hj' line' hj
  constructor
  case ready => exact hready
  case counter => exact hcounter
  case fresh => exact hfresh
  case ids => exact hids
  case chain =>
    intro line'
    rcases eq_or_ne line' line with rfl | hne
    · rw [Function.update_self]
      exact hchain
    · rw [Function.update_of_ne hne, hhead line' hne]
      exact (h.chain line').congr (hnext line' hne)
  case nodup =>
    intro line'
    rcases eq_or_ne line' line with rfl | hne
    · rw [Function.update_self]
      exact hnodup
    · rw [Function.update_of_ne hne]
      exact h.nodup line'
  case disjoint =>
    intro l₁ l₂ j h₁ h₂
    rcases eq_or_ne l₁ line with rfl | hne₁ <;> rcases eq_or_ne l₂ l₁ with rfl | hne₂
    · rfl
    · rw [Function.update_self] at h₁
      rw [Function.update_of_ne hne₂] at h₂
      exact absurd h₁ (hother l₂ hne₂ j h₂)
    · rfl
    · rw [Function.update_of_ne hne₁] at h₁
      rcases eq_or_ne l₂ line with rfl | hne
      · rw [Function.update_self] at h₂
        exact absurd h₂ (hother l₁ hne₁ j h₁)
      · rw [Function.update_of_ne hne] at h₂
        exact h.disjoint l₁ l₂ j h₁ h₂
  case bound =>
    intro line' j hj
    rcases eq_or_ne line' line with rfl | hne
    · rw [Function.update_self] at hj
      rcases hmem j hj with hj | hj
      · exact h.bound line' j hj
      · exact hj.1
    · rw [Function.update_of_ne hne] at hj
      exact h.bound line' j hj
  case used =>
    intro line' j hj
    rcases eq_or_ne line' line with rfl | hne
    · rw [Function.update_self] at hj
      exact hused j hj
    · rw [Function.update_of_ne hne] at hj
      rw [hkeep j (hother line' hne j hj) fun hj' => hne (h.disjoint line' line j hj hj')]
      exact h.used line' j hj
  case free =>
    intro j hj
    have hjl : j ∉ l := by
      have := hj line
      rwa [Function.update_self] at this
    by_cases hjL : j ∈ L line
    · exact hfree j hjL hjl
    · rw [hkeep j hjl hjL]
      refine h.free j fun line' hj' => ?_
      rcases eq_or_ne line' line with rfl | hne
      · exact hjL hj'
      · refine hj line' ?_
        rw [Function.update_of_ne hne]
        exact hj'

/-- A registration is an installation for a line that may have one, whatever its kind. -/
theorem perform_add (s : Handlers) (line : Line) (handler arg gp : ℕ) :
    perform s (.add line handler arg gp) =
      some (if line.installs then install s line handler arg gp else (s, none)) := by
  cases line with
  | intc cause =>
    by_cases hc : kIntcCauses ≤ cause ∨ cause = 1
    · have hf : (Line.intc cause).installs = false := by
        simp only [Line.installs, Bool.and_eq_false_imp, decide_eq_true_eq, bne_eq_false_iff_eq]
        omega
      simp only [perform, sysAddIntcHandler, if_pos hc, hf, Bool.false_eq_true, if_false]
    · have ht : (Line.intc cause).installs = true := by
        simp only [Line.installs, Bool.and_eq_true, decide_eq_true_eq, bne_iff_ne]
        omega
      simp only [perform, sysAddIntcHandler, if_neg hc, ht, if_true]
  | dmac channel =>
    by_cases hc : kDmacChannels ≤ channel
    · have hf : (Line.dmac channel).installs = false := decide_eq_false (Nat.not_lt.mpr hc)
      simp only [perform, sysAddDmacHandler, if_pos hc, hf, Bool.false_eq_true, if_false]
    · have ht : (Line.dmac channel).installs = true := decide_eq_true (Nat.lt_of_not_le hc)
      simp only [perform, sysAddDmacHandler, if_neg hc, ht, if_true]

/-- A removal is one for a line that is served, whatever its kind. -/
theorem perform_remove (s : Handlers) (line : Line) (id : ℕ) :
    perform s (.remove line id) = if line.served then remove s line id else some (s, none) := by
  cases line with
  | intc cause =>
    by_cases hc : kIntcCauses ≤ cause
    · have hf : (Line.intc cause).served = false := decide_eq_false (Nat.not_lt.mpr hc)
      simp only [perform, sysRemoveIntcHandler, if_pos hc, hf, Bool.false_eq_true, if_false]
    · have ht : (Line.intc cause).served = true := decide_eq_true (Nat.lt_of_not_le hc)
      simp only [perform, sysRemoveIntcHandler, if_neg hc, ht, if_true]
  | dmac channel =>
    by_cases hc : kDmacChannels ≤ channel
    · have hf : (Line.dmac channel).served = false := decide_eq_false (Nat.not_lt.mpr hc)
      simp only [perform, sysRemoveDmacHandler, if_pos hc, hf, Bool.false_eq_true, if_false]
    · have ht : (Line.dmac channel).served = true := decide_eq_true (Nat.lt_of_not_le hc)
      simp only [perform, sysRemoveDmacHandler, if_neg hc, ht, if_true]

/-! ### Installing -/

/-- What `install` does when there is a free record. -/
theorem install_eq (hready : s.lists_ready = true) (hk : freeRecord s = some k)
    (handler arg gp : ℕ) : install s line handler arg gp =
      ({ s with
          records := Function.update s.records k ⟨⟨handler, arg, gp, s.next_id⟩, s.head line⟩
          head := Function.update s.head line k
          next_id := add32 s.next_id 1 }, some s.next_id) := by
  unfold install
  simp only [prepareLists_of_ready hready, hk]

theorem install_eq_self (hready : s.lists_ready = true) (hk : freeRecord s = none)
    (handler arg gp : ℕ) : install s line handler arg gp = (s, none) := by
  unfold install
  simp only [prepareLists_of_ready hready, hk]

variable (line) in
/-- The record a handler is installed in is in front of its list. -/
theorem Lists.install (h : Lists s L) (hk : freeRecord s = some k) (hid : s.next_id ≠ 0)
    (handler arg gp : ℕ) :
    Lists (Interrupt.install s line handler arg gp).1 (Function.update L line (k :: L line)) := by
  obtain ⟨hlt, hfree⟩ := freeRecord_eq_some hk
  have hoff : ∀ line, k ∉ L line := fun line hmem => h.used line k hmem hfree
  rw [install_eq h.ready hk]
  generalize hs' : ({ s with
      records := Function.update s.records k ⟨⟨handler, arg, gp, s.next_id⟩, s.head line⟩
      head := Function.update s.head line k
      next_id := add32 s.next_id 1 } : Handlers) = s'
  have hself : s'.records k = ⟨⟨handler, arg, gp, s.next_id⟩, s.head line⟩ := by
    subst hs'
    exact Function.update_self ..
  have hrecord : ∀ j, j ≠ k → s'.records j = s.records j := by
    subst hs'
    exact fun j hj => Function.update_of_ne hj _ _
  have hnext : s'.next = Function.update s.next k (s.head line) := by
    funext j
    unfold Handlers.next
    rcases eq_or_ne j k with rfl | hj
    · rw [hself, Function.update_self]
    · rw [hrecord j hj, Function.update_of_ne hj]
  have hhead : s'.head = Function.update s.head line k := by
    subst hs'
    rfl
  have hcount : s'.next_id = add32 s.next_id 1 := by
    subst hs'
    rfl
  -- an id that was given out is below the counter
  have hid' : ∀ j, (s.records j).id ≠ s.next_id := by
    intro j heq
    have := h.fresh j
    omega
  refine h.change ?_ ?_ (List.nodup_cons.mpr ⟨hoff line, h.nodup line⟩) (fun line' hne => ?_)
    (fun line' _ j hj => ?_) (fun j hj => ?_) (fun j hj => ?_) (fun j hj hj' => ?_)
    (fun j hj _ => ?_) (fun i j hij hne => ?_) (fun j => ?_) ?_
  · subst hs'
    exact h.ready
  · rw [hnext, hhead, Function.update_self]
    refine (h.chain line).push (hoff line) ?_
    unfold kHandlers at hlt
    unfold kNone
    omega
  · rw [hhead, Function.update_of_ne hne]
  · rw [hnext]
    refine Function.update_of_ne ?_ _ _
    rintro rfl
    exact hoff line' hj
  · rcases List.mem_cons.mp hj with rfl | hj
    · exact .inr ⟨hlt, hoff⟩
    · exact .inl hj
  · rcases List.mem_cons.mp hj with rfl | hj
    · rw [hself]
      exact hid
    · rw [hrecord j fun heq => hoff line (heq ▸ hj)]
      exact h.used line j hj
  · exact absurd (List.mem_cons_of_mem k hj) hj'
  · rw [hrecord j fun heq => hj (heq ▸ List.mem_cons_self)]
  · rcases eq_or_ne i k with rfl | hik <;> rcases eq_or_ne j i with rfl | hji
    · rfl
    · rw [hself, hrecord j hji] at hij
      exact absurd hij.symm (hid' j)
    · rfl
    · rw [hrecord i hik] at hij hne
      rcases eq_or_ne j k with rfl | hjk
      · rw [hself] at hij
        exact absurd hij (hid' i)
      · rw [hrecord j hjk] at hij
        exact h.ids i j hij hne
  · have hcounter := h.counter
    have hfresh := h.fresh j
    rw [hcount]
    unfold add32
    rcases eq_or_ne j k with rfl | hj
    · rw [hself]
      show s.next_id < _ ∨ _
      omega
    · rw [hrecord j hj]
      omega
  · rw [hcount]
    exact add32_lt _ _

/-! ### Removing -/

/-- The loop of `remove` over a list that does not have the id. -/
theorem seek_none {l : List ℕ} {n a : ℕ} {link : Option ℕ} (hc : Chain kNone s.next a l)
    (hn : l.length < n) (hid : ∀ k ∈ l, (s.records k).id ≠ id) :
    seek s id n link a = some none := by
  induction l generalizing a n link with
  | nil =>
    obtain rfl : a = kNone := hc
    obtain ⟨n, rfl⟩ : ∃ j, n = j + 1 := ⟨n - 1, by rw [List.length_nil] at hn; omega⟩
    exact if_pos rfl
  | cons x xs ih =>
    obtain ⟨rfl, hne, hxs⟩ := hc
    obtain ⟨n, rfl⟩ : ∃ j, n = j + 1 := ⟨n - 1, by rw [List.length_cons] at hn; omega⟩
    rw [List.length_cons] at hn
    unfold seek
    rw [if_neg hne, if_neg (hid a List.mem_cons_self)]
    exact ih hxs (by omega) fun k hk => hid k (List.mem_cons_of_mem a hk)

/-- And over one that has: it stops at the record, with the link before it. -/
theorem seek_some {l₁ l₂ : List ℕ} {n a : ℕ} {link : Option ℕ}
    (hc : Chain kNone s.next a (l₁ ++ k :: l₂)) (hn : (l₁ ++ k :: l₂).length < n)
    (hk : (s.records k).id = id) (hid : ∀ j ∈ l₁, (s.records j).id ≠ id) :
    seek s id n link a = some (some (l₁.getLast?.or link, k)) := by
  induction l₁ generalizing a n link with
  | nil =>
    obtain ⟨rfl, hne, -⟩ := hc
    obtain ⟨n, rfl⟩ : ∃ j, n = j + 1 := ⟨n - 1, by omega⟩
    unfold seek
    rw [if_neg hne, if_pos hk]
    rfl
  | cons x xs ih =>
    obtain ⟨rfl, hne, hxs⟩ := hc
    obtain ⟨n, rfl⟩ : ∃ j, n = j + 1 := ⟨n - 1, by omega⟩
    rw [List.cons_append, List.length_cons] at hn
    unfold seek
    have hrest : seek s id n (some a) (s.next a) = some (some (xs.getLast?.or (some a), k)) :=
      ih hxs (by omega) fun j hj => hid j (List.mem_cons_of_mem a hj)
    rw [if_neg hne, if_neg (hid a List.mem_cons_self)]
    refine hrest.trans ?_
    rw [List.getLast?_cons]
    cases xs.getLast? <;> rfl

theorem Lists.length_lt (h : Lists s L) (line : Line) : (L line).length < kHandlers + 1 := by
  have hsub : L line ⊆ List.range kHandlers := fun k hk => List.mem_range.mpr (h.bound line k hk)
  have hle : (L line).length ≤ kHandlers := by
    simpa using (h.nodup line).length_le_of_subset hsub
  exact Nat.lt_succ_of_le hle

/-- An id that is not on the list is refused. -/
theorem Lists.remove_none (h : Lists s L) (hid : ∀ k ∈ L line, (s.records k).id ≠ id) :
    Interrupt.remove s line id = some (s, none) := by
  unfold Interrupt.remove
  rw [prepareLists_of_ready h.ready]
  dsimp only
  rw [seek_none (h.chain line) (h.length_lt line) hid]
  rfl

/-- What taking a record out writes: its id, and the link before it. -/
structure Unlinked (s s' : Handlers) (l₁ : List ℕ) (k : ℕ) : Prop where
  kept : ∀ j, j ≠ k → (s'.records j).toInstalled = (s.records j).toInstalled
  freed : (s'.records k).id = 0
  last : ∀ j, l₁.getLast? = some j → s'.next j = s.next k
  next : ∀ j, l₁.getLast? ≠ some j → s'.next j = s.next j

/-- The record of an id that is on the list is taken out. -/
theorem Lists.remove_some (h : Lists s L) {l₁ l₂ : List ℕ} (hl : L line = l₁ ++ k :: l₂) :
    ∃ s', Interrupt.remove s line (s.records k).id = some (s', some (s.records k).id) ∧
      Lists s' (Function.update L line (l₁ ++ l₂)) ∧ Unlinked s s' l₁ k := by
  have hnd : (l₁ ++ k :: l₂).Nodup := hl ▸ h.nodup line
  have hchain : Chain kNone s.next (s.head line) (l₁ ++ k :: l₂) := hl ▸ h.chain line
  have hk : k ∈ L line := hl ▸ List.mem_append_right l₁ List.mem_cons_self
  have hk₁ : k ∉ l₁ := fun hmem =>
    (List.nodup_append.mp hnd).2.2 k hmem k List.mem_cons_self rfl
  have hk₂ : k ∉ l₂ := (List.nodup_cons.mp (List.nodup_append.mp hnd).2.1).1
  have hlast : l₁.getLast? ≠ some k := fun heq => hk₁ (List.mem_of_getLast? heq)
  have hlength := h.length_lt line
  rw [hl] at hlength
  -- the search stops at the record, with the one before it
  have hseek : seek s (s.records k).id (kHandlers + 1) none (s.head line) =
      some (some (l₁.getLast?, k)) := by
    rw [seek_some hchain hlength rfl fun j hj heq => ?_, Option.or_none]
    have hjL : j ∈ L line := hl ▸ List.mem_append_left _ hj
    exact hk₁ (h.ids j k heq (h.used line j hjL) ▸ hj)
  -- unlinking it, and marking it free
  generalize hs' : Interrupt.free (setLink s line (s.next k) l₁.getLast?) k = s'
  have hremove : Interrupt.remove s line (s.records k).id = some (s', some (s.records k).id) := by
    unfold Interrupt.remove
    rw [prepareLists_of_ready h.ready]
    dsimp only
    rw [hseek, ← hs']
    rfl
  have hrecords : ∀ j, s'.records j =
      ⟨⟨(s.records j).handler, (s.records j).arg, (s.records j).gp,
        if j = k then 0 else (s.records j).id⟩,
        if l₁.getLast? = some j then s.next k else s.next j⟩ := by
    intro j
    subst hs'
    unfold Interrupt.free setLink Handlers.next
    cases hg : l₁.getLast? with
    | none =>
      by_cases hj : j = k
      · subst hj
        simp
      · simp [hj]
    | some i =>
      have hik : i ≠ k := fun heq => hlast (heq ▸ hg)
      by_cases hj : j = k
      · subst hj
        simp [hik.symm, hik]
      · by_cases hji : j = i
        · subst hji
          simp [hj]
        · simp [hj, hji, Ne.symm hji]
  -- the links lead past it
  have hunlinked : Unlinked s s' l₁ k := by
    constructor
    · intro j hj
      rw [hrecords, if_neg hj]
    · rw [hrecords, if_pos rfl]
    · intro j hj
      unfold Handlers.next
      rw [hrecords, if_pos hj]
      rfl
    · intro j hj
      show (s'.records j).next = s.next j
      rw [hrecords, if_neg hj]
  have hhead : s'.head = if l₁ = [] then Function.update s.head line (s.next k) else s.head := by
    subst hs'
    cases l₁ with
    | nil => rfl
    | cons a as => simp [Interrupt.free, setLink, List.getLast?_cons]
  have hcount : s'.next_id = s.next_id ∧ s'.lists_ready = s.lists_ready := by
    subst hs'
    unfold Interrupt.free setLink
    cases l₁.getLast? <;> exact ⟨rfl, rfl⟩
  have hid : ∀ j, (s'.records j).id = if j = k then 0 else (s.records j).id := fun j => by
    rw [hrecords]
  have hrest : ∀ j ∈ l₁ ++ l₂, j ∈ L line := by
    intro j hj
    rw [hl]
    rcases List.mem_append.mp hj with hj | hj
    · exact List.mem_append_left _ hj
    · exact List.mem_append_right _ (List.mem_cons_of_mem k hj)
  -- the list of the line loses it, and the others stay
  refine ⟨s', hremove, ?_, hunlinked⟩
  refine h.change (hcount.2.trans h.ready) ?_ ?_ (fun line' hne => ?_) (fun line' hne j hj => ?_)
    (fun j hj => ?_) (fun j hj => ?_) (fun j hj hj' => ?_) (fun j _ hj => ?_)
    (fun i j hij hne => ?_) (fun j => ?_) ?_
  · refine hchain.unlink hnd hunlinked.last (fun j _ hj => hunlinked.next j hj) ?_
    rw [hhead]
    split
    · rw [Function.update_self]
    · rfl
  · exact (List.nodup_middle.mp hnd).of_cons
  · rw [hhead]
    split
    · exact Function.update_of_ne hne _ _
    · rfl
  · refine hunlinked.next j fun heq => hne (h.disjoint line' line j hj ?_)
    rw [hl]
    exact List.mem_append_left _ (List.mem_of_getLast? heq)
  · exact .inl (hrest j hj)
  · have hjk : j ≠ k := by
      rintro rfl
      exact (List.mem_append.mp hj).elim hk₁ hk₂
    rw [hid, if_neg hjk]
    exact h.used line j (hrest j hj)
  · rw [hid, if_pos]
    rw [hl] at hj
    by_contra hjk
    refine hj' (List.mem_append.mpr ((List.mem_append.mp hj).imp_right fun hj => ?_))
    exact (List.mem_cons.mp hj).resolve_left hjk
  · rw [hid, if_neg]
    rintro rfl
    exact hj hk
  · rw [hid] at hij hne
    split at hne
    · exact absurd rfl hne
    · rename_i hik
      rw [if_neg hik, hid] at hij
      split at hij
      · exact absurd hij hne
      · exact h.ids i j hij hne
  · have hfresh := h.fresh j
    rw [hid, hcount.1]
    split <;> omega
  · rw [hcount.1]
    exact h.counter

end PS2Bios.Kernel.Interrupt
