import PS2Bios.Vblank.Lists
import Mathlib.Data.Int.Order.Basic
import Mathlib.Data.List.Find

/-!
# Handlers of vertical blank

`RegisterVblankHandler` and `ReleaseVblankHandler`. An `Order` keeps what is registered, in the
order it came in; the two lists have it by priority and then in that order (`Orderly`).
-/

namespace PS2Bios.Vblank

open Intrusive

/-- The answer of a call that went through. -/
def kOk : ℤ := 0

/-- The answer to a call from a handler. -/
def kIllegalContext : ℤ := -100

/-- The answer to a handler that is registered already. -/
def kFoundHandler : ℤ := -104

/-- The answer to a handler that is not registered. -/
def kNotFoundHandler : ℤ := -105

/-- The answer where no record is left. -/
def kNoMemory : ℤ := -400

/-- What a record holds. -/
structure Entry where
  handler : ℕ
  priority : ℤ
  arg : ℕ
deriving DecidableEq, Repr

/-- What a record keeps of its handler. -/
def State.entry (s : State) (x : ℕ) : Entry := ⟨s.handler x, s.priority x, s.arg x⟩

/-- What a record keeps, stored. -/
def State.setEntry (s : State) (x : ℕ) (e : Entry) : State :=
  { s with
    priority := Function.update s.priority x e.priority
    handler := Function.update s.handler x e.handler
    arg := Function.update s.arg x e.arg }

/-- The loop for a handler's record. -/
def findHandler (list : ListId) (handler : ℕ) (s : State) : Option ℕ :=
  walk s.links.next (fun x => x = kNone ∨ s.handler x = handler) kTurns (s.head list)

/-- The loop for the first record of greater priority. -/
def findBefore (list : ListId) (priority : ℤ) (s : State) : Option ℕ :=
  walk s.links.next (fun x => x = kNone ∨ s.priority x > priority) kTurns (s.head list)

/-- `context` is what `QueryIntrContext` answers. -/
def registerHandler (context : Bool) (startend priority : ℤ) (handler arg : ℕ) (s : State) :
    Option (ℤ × State) :=
  if context then some (kIllegalContext, s)
  else
    let list := listOf startend
    (findHandler list handler s).bind fun found =>
      if found ≠ kNone then some (kFoundHandler, s)
      else if s.head .free = kNone then some (kNoMemory, s)
      else
        (findBefore list priority s).bind fun before =>
          let index := s.head .free
          let s := (unlink .free index s).setEntry index ⟨handler, priority, arg⟩
          (insertBefore list index before s).map (kOk, ·)

/-- A record goes back to the pool. -/
def giveBack (list : ListId) (index : ℕ) (s : State) : Option State :=
  let s := unlink list index s
  insertBefore .free index (s.head .free) s

/-- `ReleaseVblankHandler`: the handler's record leaves its list for the free one. -/
def releaseHandler (context : Bool) (startend : ℤ) (handler : ℕ) (s : State) :
    Option (ℤ × State) :=
  if context then some (kIllegalContext, s)
  else
    let list := listOf startend
    (findHandler list handler s).bind fun found =>
      if found ≠ kNone then (giveBack list found s).map (kOk, ·)
      else some (kNotFoundHandler, s)

/-- A registration or a release. -/
inductive Call
  | registerHandler (startend priority : ℤ) (handler arg : ℕ)
  | releaseHandler (startend : ℤ) (handler : ℕ)
deriving DecidableEq, Repr

/-- A call carried out. -/
def Call.run (context : Bool) : Call → State → Option (ℤ × State)
  | .registerHandler startend priority handler arg, s =>
    Vblank.registerHandler context startend priority handler arg s
  | .releaseHandler startend handler, s => Vblank.releaseHandler context startend handler s

/-! ### What is registered -/

/-- What is registered on a list, in the order it came in. -/
abbrev Order := ListId → List Entry

/-- What a call that is answered so registers or releases. -/
def Call.record : Call → ℤ → Order → Order
  | .registerHandler startend priority handler arg, answer, order =>
    if answer = kOk then
      Function.update order (listOf startend)
        (order (listOf startend) ++ [⟨handler, priority, arg⟩])
    else order
  | .releaseHandler startend handler, answer, order =>
    if answer = kOk then
      Function.update order (listOf startend)
        ((order (listOf startend)).filter fun e => e.handler ≠ handler)
    else order

/-- What a call answers, in a thread. -/
def Call.expected : Call → Order → ℤ
  | .registerHandler startend _ handler _, order =>
    if handler ∈ (order (listOf startend)).map Entry.handler then kFoundHandler
    else if (order .start).length + (order .finish).length = kHandlers then kNoMemory
    else kOk
  | .releaseHandler startend handler, order =>
    if handler ∈ (order (listOf startend)).map Entry.handler then kOk else kNotFoundHandler

/-- The records are divided among the lists, and the start list and the end list have what is
registered, by priority and then in the order it came in, no handler twice. -/
structure Orderly (s : State) (order : Order) : Prop where
  holds : ∃ lists, Holds s lists ∧
    ∀ p ≠ .free, IsStableSort Entry.priority (order p) ((lists p).map s.entry)
  nodup : ∀ p ≠ .free, ((order p).map Entry.handler).Nodup

/-! ### The loops over a list -/

variable {s s' : State} {lists : ListId → List ℕ} {p : ListId} {x handler : ℕ}
  {priority : ℤ} {order : Order}

theorem SameRecords.entry_eq (h : SameRecords s s') : s'.entry = s.entry := by
  funext x
  rw [State.entry, State.entry, h.priority, h.handler, h.arg]

/-- A loop over a list stops at its first record that passes, or at the end. -/
theorem walk_eq (h : Lined s lists) (p : ListId) (g : ℕ → Bool) :
    walk s.links.next (fun x => x = kNone ∨ g x) kTurns (s.head p) =
      some (((lists p).find? g).getD kNone) := by
  have hwalk := (h.chain p).walk (g := fun x => decide (x = kNone ∨ g x)) (n := kTurns) (by simp)
    (Nat.lt_succ_of_le (h.length_le p))
  rw [hwalk]
  refine congrArg (fun found => some (Option.getD found kNone)) ?_
  refine List.find?_congr fun x hx => ?_
  have hne := h.ne_none hx
  simp [hne]

theorem findHandler_eq (h : Lined s lists) : findHandler p handler s =
    some (((lists p).find? fun x => s.handler x = handler).getD kNone) := by
  have hwalk := walk_eq h p fun x => decide (s.handler x = handler)
  simpa [findHandler] using hwalk

/-- A registration goes in front of the first record of a higher number. -/
theorem findBefore_eq (h : Lined s lists) : findBefore p priority s =
    some (((lists p).dropWhile fun x => s.priority x ≤ priority).headD kNone) := by
  have hwalk := walk_eq h p fun x => decide (s.priority x > priority)
  have hfind : (lists p).find? (fun x => decide (s.priority x > priority)) =
      ((lists p).dropWhile fun x => s.priority x ≤ priority).head? := by
    rw [List.find?_eq_head?_dropWhile_not]
    refine congrArg (fun g => ((lists p).dropWhile g).head?) (funext fun x => ?_)
    rw [← decide_not, decide_eq_decide]
    exact Int.not_lt
  rw [hfind, ← List.headD_eq_head?_getD] at hwalk
  simpa [findBefore] using hwalk

/-! ### Records between the lists -/

/-- Off a list a record is on none. -/
theorem Lined.not_mem_erase (h : Lined s lists) (hx : x ∈ lists p) (q : ListId) :
    x ∉ Function.update lists p ((lists p).erase x) q := by
  rcases eq_or_ne q p with rfl | hne
  · rw [Function.update_self]
    exact (h.family.queue q trivial).nodup.not_mem_erase
  · rw [Function.update_of_ne hne]
    exact fun hq => hne (h.family.disjoint q p x hq hx)

theorem Holds.lt_of_mem (h : Holds s lists) (hx : x ∈ lists p) : x < kHandlers := h.lt p x hx

/-- A record is moved from one list to its place in another. -/
theorem Holds.move {q : ListId} {l₁ l₂ : List ℕ} (h : Holds s lists) (hx : x ∈ lists p)
    (hpq : q ≠ p) (hl : lists q = l₁ ++ l₂) (s' : State) (hs : s'.links = (unlink p x s).links)
    (hhead : s'.head = (unlink p x s).head) : ∃ s'',
      insertBefore q x (l₂.headD kNone) s' = some s'' ∧
      Holds s'' (Function.update (Function.update lists p ((lists p).erase x)) q
        (l₁ ++ x :: l₂)) ∧ SameRecords s' s'' := by
  have hoff := h.toLined.unlink hx
  have hlined : Lined s' (Function.update lists p ((lists p).erase x)) := by
    refine ⟨?_, hoff.lt⟩
    rw [hs]
    refine hoff.family.congr (fun r _ => ?_) fun _ _ _ => ⟨rfl, rfl⟩
    rw [State.queue, State.queue, hhead]
  obtain ⟨s'', hs'', hnew, hsame⟩ := hlined.insertBefore
    ((Function.update_of_ne hpq _ _).trans hl) (h.toLined.not_mem_erase hx) (h.lt_of_mem hx)
  refine ⟨s'', hs'', ⟨hnew, fun y hy => ?_⟩, hsame⟩
  obtain ⟨r, hr⟩ := h.pool y hy
  by_cases hyx : y = x
  · exact ⟨q, by simp [hyx]⟩
  refine ⟨r, ?_⟩
  rcases eq_or_ne r q with rfl | hne
  · rw [Function.update_self]
    rw [hl] at hr
    rcases List.mem_append.mp hr with hr | hr
    · exact List.mem_append_left _ hr
    · exact List.mem_append_right _ (List.mem_cons_of_mem _ hr)
  · rw [Function.update_of_ne hne]
    rcases eq_or_ne r p with rfl | hne'
    · rw [Function.update_self]
      exact (List.mem_erase_of_ne hyx).mpr hr
    · rwa [Function.update_of_ne hne']

/-- A record that is given back is the first of the free ones. -/
theorem Holds.giveBack (h : Holds s lists) (hx : x ∈ lists p) (hp : p ≠ .free) :
    ∃ s', Vblank.giveBack p x s = some s' ∧
      Holds s' (Function.update (Function.update lists p ((lists p).erase x)) .free
        (x :: lists .free)) ∧ SameRecords s s' := by
  obtain ⟨-, hhead, hrecords⟩ := unlink_eq s p x kNone
  have hfree : (unlink p x s).head .free = (lists .free).headD kNone := by
    rw [hhead, Function.update_of_ne hp.symm]
    exact (h.family.queue .free trivial).head
  obtain ⟨s', hs', hholds, hsame⟩ :=
    h.move hx hp.symm (List.nil_append (lists .free)).symm _ rfl rfl
  refine ⟨s', ?_, hholds, ?_⟩
  · rw [Vblank.giveBack, hfree]
    exact hs'
  · exact ⟨hsame.priority.trans hrecords.priority, hsame.handler.trans hrecords.handler,
      hsame.arg.trans hrecords.arg⟩

/-! ### The two functions -/

theorem listOf_ne_free (startend : ℤ) : listOf startend ≠ .free := by
  rw [listOf]
  split <;> nofun

/-- No record is free exactly when as many handlers are registered as there are records. -/
theorem Holds.free_eq_nil (h : Holds s lists) :
    lists .free = [] ↔ (lists .start).length + (lists .finish).length = kHandlers := by
  have hnodup : (lists .start ++ lists .finish ++ lists .free).Nodup := by
    have hlist := fun p => (h.family.queue p trivial).nodup
    have hdisjoint : ∀ p q, p ≠ q → ∀ x ∈ lists p, ∀ y ∈ lists q, x ≠ y := by
      rintro p q hpq x hx y hy rfl
      exact hpq (h.family.disjoint p q x hx hy)
    refine List.nodup_append.mpr ⟨List.nodup_append.mpr ⟨hlist _, hlist _,
      hdisjoint _ _ (by decide)⟩, hlist _, fun x hx => ?_⟩
    rcases List.mem_append.mp hx with hx | hx
    · exact hdisjoint _ _ (by decide) x hx
    · exact hdisjoint _ _ (by decide) x hx
  have hperm : (lists .start ++ lists .finish ++ lists .free).Perm (List.range kHandlers) := by
    refine (List.perm_ext_iff_of_nodup hnodup List.nodup_range).mpr fun x => ?_
    rw [List.mem_append, List.mem_append, List.mem_range]
    constructor
    · rintro ((hx | hx) | hx) <;> exact h.lt _ x hx
    · intro hx
      obtain ⟨p, hp⟩ := h.pool x hx
      cases p with
      | start => exact .inl (.inl hp)
      | finish => exact .inl (.inr hp)
      | free => exact .inr hp
  have hlength := hperm.length_eq
  rw [List.length_append, List.length_append, List.length_range] at hlength
  rw [← List.length_eq_zero_iff]
  omega

/-- The handlers on a list. -/
theorem mem_handlers {l : List ℕ} {entries : List Entry}
    (hsorted : IsStableSort Entry.priority entries (l.map s.entry)) :
    handler ∈ entries.map Entry.handler ↔ ∃ x ∈ l, s.handler x = handler := by
  rw [← (hsorted.perm.map Entry.handler).mem_iff, List.map_map, List.mem_map]
  rfl

/-- The handlers on a list differ. -/
theorem handler_inj {l : List ℕ} {entries : List Entry}
    (hsorted : IsStableSort Entry.priority entries (l.map s.entry))
    (hnodup : (entries.map Entry.handler).Nodup) {y : ℕ} (hx : x ∈ l) (hy : y ∈ l)
    (heq : s.handler x = s.handler y) : x = y := by
  have hmap : (l.map s.handler).Nodup := by
    have hperm := (hsorted.perm.map Entry.handler).nodup_iff.mpr hnodup
    rwa [List.map_map] at hperm
  exact List.inj_on_of_nodup_map hmap hx hy heq

theorem setEntry_entry_self (s : State) (x : ℕ) (e : Entry) : (s.setEntry x e).entry x = e := by
  simp [State.entry, State.setEntry]

theorem setEntry_entry_of_ne {y : ℕ} {e : Entry} (hne : y ≠ x) :
    (s.setEntry x e).entry y = s.entry y := by
  simp [State.entry, State.setEntry, hne]

/-- What a record keeps depends on what is stored in it. -/
theorem setEntry_entry_congr {e : Entry} (h : SameRecords s s') :
    (s'.setEntry x e).entry = (s.setEntry x e).entry := by
  funext y
  rcases eq_or_ne y x with rfl | hne
  · rw [setEntry_entry_self, setEntry_entry_self]
  · rw [setEntry_entry_of_ne hne, setEntry_entry_of_ne hne, h.entry_eq]

/-- A list to which a handler is added. -/
theorem sorted_insert {l : List ℕ} {entries : List Entry} {e : Entry}
    (hsorted : IsStableSort Entry.priority entries (l.map s.entry)) (hx : x ∉ l) :
    IsStableSort Entry.priority (entries ++ [e])
      (((l.takeWhile fun y => s.priority y ≤ e.priority) ++
        x :: l.dropWhile fun y => s.priority y ≤ e.priority).map (s.setEntry x e).entry) := by
  have hentry : ∀ y ∈ l, (s.setEntry x e).entry y = s.entry y :=
    fun y hy => setEntry_entry_of_ne fun heq => hx (heq ▸ hy)
  have htake : ∀ y ∈ l.takeWhile fun y => s.priority y ≤ e.priority, y ∈ l :=
    fun y hy => (List.takeWhile_sublist _).subset hy
  have hdrop : ∀ y ∈ l.dropWhile fun y => s.priority y ≤ e.priority, y ∈ l :=
    fun y hy => (List.dropWhile_sublist _).subset hy
  have hinsert : insertBy Entry.priority e (l.map s.entry) =
      ((l.takeWhile fun y => s.priority y ≤ e.priority) ++
        x :: l.dropWhile fun y => s.priority y ≤ e.priority).map (s.setEntry x e).entry := by
    rw [insertBy, List.takeWhile_map, List.dropWhile_map, List.map_append, List.map_cons,
      setEntry_entry_self,
      List.map_congr_left fun y hy => hentry y (htake y hy),
      List.map_congr_left fun y hy => hentry y (hdrop y hy)]
    rfl
  exact hinsert ▸ hsorted.insertBy e

/-- A list off which a handler is taken. -/
theorem sorted_erase {l : List ℕ} {entries : List Entry}
    (hsorted : IsStableSort Entry.priority entries (l.map s.entry)) (hl : l.Nodup)
    (hnodup : (entries.map Entry.handler).Nodup) (hx : x ∈ l) (hhandler : s.handler x = handler) :
    IsStableSort Entry.priority (entries.filter fun e => e.handler ≠ handler)
      ((l.erase x).map s.entry) := by
  have herase : (l.erase x).map s.entry =
      (l.map s.entry).filter fun e => e.handler ≠ handler := by
    rw [List.filter_map, hl.erase_eq_filter]
    refine congrArg _ (List.filter_congr fun y hy => ?_)
    rw [Bool.eq_iff_iff, bne_iff_ne, Function.comp_apply, decide_eq_true_eq]
    refine not_congr ⟨fun heq => heq ▸ hhandler, fun heq => ?_⟩
    exact handler_inj hsorted hnodup hy hx (heq.trans hhandler.symm)
  exact herase ▸ hsorted.filter _

/-- A registration goes into its place of the order, or is refused. -/
theorem Orderly.registerHandler (h : Orderly s order) (startend : ℤ) (priority : ℤ)
    (handler arg : ℕ) :
    let c := Call.registerHandler startend priority handler arg
    ∃ s', c.run false s = some (c.expected order, s') ∧
      Orderly s' (c.record (c.expected order) order) := by
  intro c
  obtain ⟨⟨lists, hholds, hsorted⟩, hnodup⟩ := h
  have hp := listOf_ne_free startend
  generalize hlist : listOf startend = p at hp
  have hrefused : ∀ answer ≠ kOk,
      Orderly s (c.record answer order) := by
    intro answer hanswer
    rw [Call.record, if_neg hanswer]
    exact ⟨⟨lists, hholds, hsorted⟩, hnodup⟩
  rw [Call.run, Vblank.registerHandler, if_neg Bool.false_ne_true, Call.expected, hlist]
  dsimp only
  rw [findHandler_eq hholds.toLined, Option.bind_some]
  -- the handler is on the list already, or the free list decides
  cases hfind : (lists p).find? fun x => s.handler x = handler with
  | some x =>
    have hmem := List.mem_of_find?_eq_some hfind
    have hhandler : s.handler x = handler := by simpa using List.find?_some hfind
    rw [Option.getD_some, if_pos (hholds.ne_none hmem),
      if_pos ((mem_handlers (hsorted p hp)).mpr ⟨x, hmem, hhandler⟩)]
    exact ⟨s, rfl, hrefused kFoundHandler (by decide)⟩
  | none =>
    have hnew : ∀ x ∈ lists p, s.handler x ≠ handler := by simpa using hfind
    -- the free list is empty exactly when all records are on the two lists
    have hfull : lists .free = [] ↔
        (order .start).length + (order .finish).length = kHandlers := by
      have hlength : ∀ q ≠ .free, (lists q).length = (order q).length := fun q hq => by
        rw [← (hsorted q hq).perm.length_eq, List.length_map]
      rw [hholds.free_eq_nil, hlength _ (by decide), hlength _ (by decide)]
    have hoffList : handler ∉ (order p).map Entry.handler := by
      intro hmem
      obtain ⟨x, hx, heq⟩ := (mem_handlers (hsorted p hp)).mp hmem
      exact hnew x hx heq
    rw [Option.getD_none, if_neg (not_not.mpr rfl), if_neg hoffList]
    have hhead : s.head .free = (lists .free).headD kNone :=
      (hholds.family.queue .free trivial).head
    cases hfree : lists .free with
    | nil =>
      rw [if_pos (by rw [hhead, hfree, List.headD_nil]), if_pos (hfull.mp hfree)]
      exact ⟨s, rfl, hrefused kNoMemory (by decide)⟩
    | cons i rest =>
      have hi : i ∈ lists .free := hfree ▸ List.mem_cons_self
      have hhead : s.head .free = i := by rw [hhead, hfree, List.headD_cons]
      have hroom : ¬(order .start).length + (order .finish).length = kHandlers :=
        fun hsum => List.cons_ne_nil i rest (hfree.symm.trans (hfull.mpr hsum))
      rw [hhead, if_neg (hholds.ne_none hi), findBefore_eq hholds.toLined, Option.bind_some,
        if_neg hroom]
      have hoff : ∀ q ≠ .free, i ∉ lists q := fun q hq hmem =>
        hq (hholds.family.disjoint q .free i hmem hi)
      obtain ⟨s', hs', hholds', hsame⟩ := hholds.move hi hp
        (List.takeWhile_append_dropWhile (p := fun x => s.priority x ≤ priority)).symm
        -- the record moves from the free list to its place among the priorities
        ((unlink .free i s).setEntry i ⟨handler, priority, arg⟩) rfl rfl
      have hentry : s'.entry = (s.setEntry i ⟨handler, priority, arg⟩).entry := by
        rw [hsame.entry_eq, setEntry_entry_congr (unlink_eq s .free i kNone).2.2]
      refine ⟨s', by rw [hs', Option.map_some], ⟨_, hholds', fun q hq => ?_⟩, fun q hq => ?_⟩
      · rw [Call.record, if_pos rfl, hlist, hentry]
        rcases eq_or_ne q p with rfl | hne
        · rw [Function.update_self, Function.update_self]
          exact sorted_insert (hsorted q hq) (hoff q hq)
        · have hothers : ∀ y ∈ lists q,
              (s.setEntry i ⟨handler, priority, arg⟩).entry y = s.entry y :=
            fun y hy => setEntry_entry_of_ne fun heq : y = i => hoff q hq (heq ▸ hy)
          rw [Function.update_of_ne hne, Function.update_of_ne hne, Function.update_of_ne hq,
            List.map_congr_left hothers]
          exact hsorted q hq
      · rw [Call.record, if_pos rfl, hlist]
        -- the handler is on its list once, since it was not there before
        rcases eq_or_ne q p with rfl | hne
        · rw [Function.update_self, List.map_append, List.nodup_append]
          refine ⟨hnodup q hq, List.nodup_singleton _, fun a ha b hb => ?_⟩
          obtain ⟨e, he, rfl⟩ := List.mem_map.mp ha
          obtain ⟨y, hy, rfl⟩ := List.mem_map.mp ((hsorted q hq).mem_iff.mpr he)
          obtain rfl : b = handler := by simpa using hb
          exact hnew y hy
        · rw [Function.update_of_ne hne]
          exact hnodup q hq

/-- A release leaves the order without the handler, or is refused. -/
theorem Orderly.releaseHandler (h : Orderly s order) (startend : ℤ) (handler : ℕ) :
    let c := Call.releaseHandler startend handler
    ∃ s', c.run false s = some (c.expected order, s') ∧
      Orderly s' (c.record (c.expected order) order) := by
  intro c
  obtain ⟨⟨lists, hholds, hsorted⟩, hnodup⟩ := h
  have hp := listOf_ne_free startend
  generalize hlist : listOf startend = p at hp
  rw [Call.run, Vblank.releaseHandler, if_neg Bool.false_ne_true, Call.expected, hlist]
  dsimp only
  rw [findHandler_eq hholds.toLined, Option.bind_some]
  cases hfind : (lists p).find? fun x => s.handler x = handler with
  | none =>
    have hnone : ∀ x ∈ lists p, s.handler x ≠ handler := by simpa using hfind
    have hoffList : handler ∉ (order p).map Entry.handler := by
      intro hmem
      obtain ⟨x, hx, heq⟩ := (mem_handlers (hsorted p hp)).mp hmem
      exact hnone x hx heq
    rw [Option.getD_none, if_neg (not_not.mpr rfl), if_neg hoffList]
    refine ⟨s, rfl, ?_⟩
    rw [Call.record, if_neg (by decide)]
    exact ⟨⟨lists, hholds, hsorted⟩, hnodup⟩
  | some x =>
    have hx := List.mem_of_find?_eq_some hfind
    have hhandler : s.handler x = handler := by simpa using List.find?_some hfind
    obtain ⟨s', hs', hholds', hsame⟩ := hholds.giveBack hx hp
    rw [Option.getD_some, if_pos (hholds.ne_none hx), hs', Option.map_some,
      if_pos ((mem_handlers (hsorted p hp)).mpr ⟨x, hx, hhandler⟩)]
    refine ⟨s', rfl, ⟨_, hholds', fun q hq => ?_⟩, fun q hq => ?_⟩
    · rw [Call.record, if_pos rfl, hlist, hsame.entry_eq, Function.update_of_ne hq]
      rcases eq_or_ne q p with rfl | hne
      · rw [Function.update_self, Function.update_self]
        exact sorted_erase (hsorted q hq) (hholds.family.queue q trivial).nodup (hnodup q hq) hx
          hhandler
      · rw [Function.update_of_ne hne, Function.update_of_ne hne]
        exact hsorted q hq
    · rw [Call.record, if_pos rfl, hlist]
      rcases eq_or_ne q p with rfl | hne
      · rw [Function.update_self]
        exact (hnodup q hq).sublist (List.filter_sublist.map _)
      · rw [Function.update_of_ne hne]
        exact hnodup q hq

/-- A call answers by what is registered, and leaves the lists in order. -/
theorem Orderly.call (h : Orderly s order) (c : Call) :
    ∃ s', c.run false s = some (c.expected order, s') ∧
      Orderly s' (c.record (c.expected order) order) := by
  cases c with
  | registerHandler startend priority handler arg =>
    exact h.registerHandler startend priority handler arg
  | releaseHandler startend handler => exact h.releaseHandler startend handler

end PS2Bios.Vblank
