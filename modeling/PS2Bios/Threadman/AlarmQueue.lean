import Mathlib.Data.List.Perm.Subperm
import Mathlib.Data.List.TakeWhile
import PS2Bios.Threadman.Alarm

/-!
# The alarm queue

`Ordered s stamp stamps l out` says that the queue of the alarms `s` is the list `l`, by deadline
and then by insertion, and that the records in use are those of `l` and, off the queue, those of
`out`. What the calls and the handler do to the queue is made of a few edits: a record is taken
out of the pool (`Ordered.allocate`) or given back to it (`Ordered.release`), inserted
(`Ordered.insert`) or unlinked (`Ordered.unlink`), or has its deadline moved while it is off the
queue (`Ordered.defer`).
-/

namespace PS2Bios.Threadman

open Intrusive

variable {s : Alarms} {stamp : ℕ → ℕ} {stamps index k : ℕ} {l l₁ l₂ out : List ℕ}

/-- The queue is the list `l`. -/
def Alarms.Queued (s : Alarms) (l : List ℕ) : Prop :=
  IsQueue kAlarmNone s.links ⟨s.alarmHead, l.getLastD kAlarmNone⟩ l

/-- The deadline of a record. -/
def Alarms.due (s : Alarms) (k : ℕ) : ℕ := (s.alarms k).deadline.ticks

/-- Of two records the one that comes first: by deadline, and then by insertion. -/
def Alarms.Earlier (s : Alarms) (stamp : ℕ → ℕ) (j k : ℕ) : Prop :=
  s.due j < s.due k ∨ s.due j = s.due k ∧ stamp j < stamp k

/-- Two records have the same callback and the same argument. -/
def Alarms.SamePair (s : Alarms) (j k : ℕ) : Prop :=
  (s.alarms j).callback = (s.alarms k).callback ∧ (s.alarms j).arg = (s.alarms k).arg

/-- The armed alarms are `l`, sorted by deadline and, at a tie, by when they were queued; `out`
holds the ones unlinked whose callback is still running. -/
structure Ordered (s : Alarms) (stamp : ℕ → ℕ) (stamps : ℕ) (l out : List ℕ) : Prop where
  queued : s.Queued l
  nodup : (l ++ out).Nodup
  lt : ∀ k ∈ l ++ out, k < kAlarms
  inUse : ∀ k < kAlarms, (s.alarms k).inUse = true ↔ k ∈ l ++ out
  sorted : l.Pairwise (s.Earlier stamp)
  stamped : ∀ k ∈ l, stamp k < stamps
  zero : 0 ∈ l ++ out
  permanent : ∀ k ∈ l ++ out, (s.alarms k).permanent = true ↔ k = 0
  null : ∀ k ∈ l ++ out, (s.alarms k).callback = 0 ∧ (s.alarms k).arg = 0 ↔ k = 0

/-! ### The operations on the links -/

namespace Alarms

/-- `unlinkAlarm` is the unlinking of a queue that keeps no tail. -/
theorem unlinkAlarm_eq (s : Alarms) (index tail : ℕ) :
    s.unlinkAlarm index =
      { s with
        links := (unlink kAlarmNone s.links ⟨s.alarmHead, tail⟩ index).1
        alarmHead := (unlink kAlarmNone s.links ⟨s.alarmHead, tail⟩ index).2.head } := by
  unfold unlinkAlarm unlink bypassPrev bypassNext
  by_cases hp : s.links.prev index = kAlarmNone
  · by_cases hn : s.links.next index = kAlarmNone
    · simp [hp, hn]
    · simp [hp, hn]
  · have hread : (s.links.setNext (s.links.prev index) (s.links.next index)).next index =
        s.links.next index := by
      rw [Links.setNext_next]
      split <;> rfl
    by_cases hn : s.links.next index = kAlarmNone
    · simp [hp, hn]
    · simp [hp, hn]

/-- An alarm unlinked leaves the queue. -/
theorem Queued.unlinkAlarm (h : s.Queued l) (hi : index ∈ l) :
    (s.unlinkAlarm index).Queued (l.erase index) := by
  have hqueue := IsQueue.unlink h hi
  rw [s.unlinkAlarm_eq index (l.getLastD kAlarmNone)]
  unfold Queued
  dsimp only
  rw [← hqueue.tail]
  exact hqueue

/-- The forward links after an insertion. -/
theorem insertAfter_next (hne : k ≠ index) (z : ℕ) :
    (s.insertAfter index k).links.next z =
      if k ≠ kAlarmNone ∧ z = k then index
      else if z = index then if k = kAlarmNone then s.alarmHead else s.links.next k
      else s.links.next z := by
  unfold insertAfter
  by_cases hk : k = kAlarmNone
  · by_cases hh : s.alarmHead = kAlarmNone
    · simp [hk, hh]
    · simp [hk, hh]
  · by_cases hn : s.links.next k = kAlarmNone
    · simp [hk, hn, hne.symm]
    · simp [hk, hn, hne.symm]

/-- The backward links after an insertion. -/
theorem insertAfter_prev (hne : k ≠ index) (z : ℕ) :
    (s.insertAfter index k).links.prev z =
      if (if k = kAlarmNone then s.alarmHead else s.links.next k) ≠ kAlarmNone ∧
          z = (if k = kAlarmNone then s.alarmHead else s.links.next k) then index
      else if z = index then k else s.links.prev z := by
  unfold insertAfter
  by_cases hk : k = kAlarmNone
  · by_cases hh : s.alarmHead = kAlarmNone
    · simp [hk, hh]
    · simp [hk, hh]
  · by_cases hn : s.links.next k = kAlarmNone
    · simp [hk, hn, hne.symm]
    · simp [hk, hn, hne.symm]

/-- An insertion behind nothing is the new head. -/
theorem insertAfter_alarmHead :
    (s.insertAfter index k).alarmHead = if k = kAlarmNone then index else s.alarmHead := by
  unfold insertAfter
  by_cases hk : k = kAlarmNone
  · simp only [hk, if_true]
    split <;> rfl
  · simp only [hk, if_false]
    split <;> rfl

/-- Nothing but links and the head is written. -/
theorem insertAfter_rest :
    (s.insertAfter index k).alarms = s.alarms ∧
      (s.insertAfter index k).clockSeen = s.clockSeen ∧
        (s.insertAfter index k).compare = s.compare := by
  unfold insertAfter
  by_cases hk : k = kAlarmNone
  · simp only [hk, if_true]
    split <;> exact ⟨rfl, rfl, rfl⟩
  · simp only [hk, if_false]
    split <;> exact ⟨rfl, rfl, rfl⟩

/-- The record goes between two parts of the queue. -/
theorem Queued.insertAfter (h : s.Queued (l₁ ++ l₂)) (hx : index ∉ l₁ ++ l₂)
    (hxn : index ≠ kAlarmNone) :
    (s.insertAfter index (l₁.getLastD kAlarmNone)).Queued (l₁ ++ index :: l₂) := by
  have hnil₁ : kAlarmNone ∉ l₁ := fun hm => h.nil_not_mem (List.mem_append_left _ hm)
  have hnil₂ : kAlarmNone ∉ l₂ := fun hm => h.nil_not_mem (List.mem_append_right _ hm)
  have hfront : l₁.getLastD kAlarmNone = kAlarmNone ↔ l₁ = [] := getLastD_eq_iff hnil₁
  have hne : l₁.getLastD kAlarmNone ≠ index := by
    rintro heq
    by_cases hl : l₁ = []
    · exact hxn (heq.symm.trans (hfront.mpr hl))
    · exact hx (heq ▸ List.mem_append_left _ (getLastD_mem_or.resolve_right hl))
  have hlast : ∀ z, l₁.getLastD kAlarmNone ≠ kAlarmNone ∧ z = l₁.getLastD kAlarmNone ↔
      l₁.getLast? = some z := by
    intro z
    rw [Ne, hfront, List.getLastD_eq_getLast?]
    cases hl : l₁.getLast? with
    | none => simp [List.getLast?_eq_none_iff.mp hl]
    | some w =>
      have hl₁ : l₁ ≠ [] := by
        rintro rfl
        simp at hl
      simp [hl₁, eq_comm]
  -- what follows the place
  have hnext : (if l₁.getLastD kAlarmNone = kAlarmNone then s.alarmHead
      else s.links.next (l₁.getLastD kAlarmNone)) = l₂.headD kAlarmNone := by
    by_cases hl : l₁ = []
    · subst hl
      rw [if_pos (hfront.mpr rfl)]
      exact h.head
    · rw [if_neg (mt hfront.mp hl)]
      obtain ⟨pre, y, rfl⟩ := (List.eq_nil_or_concat l₁).resolve_left hl
      have hseg := h.seg
      rw [List.concat_eq_append, List.append_assoc] at hseg
      obtain ⟨-, -, hy, -⟩ := seg_append.mp hseg
      rw [List.concat_eq_append, List.getLastD_concat]
      exact hy
  have hhead : ∀ z, l₂.headD kAlarmNone ≠ kAlarmNone ∧ z = l₂.headD kAlarmNone ↔
      l₂.head? = some z := by
    intro z
    rw [Ne, headD_eq_iff hnil₂]
    cases l₂ with
    | nil => simp
    | cons b bs => simp [eq_comm]
  have hprev := insertAfter_prev (s := s) hne
  rw [hnext] at hprev
  have hnexts := insertAfter_next (s := s) hne
  rw [hnext] at hnexts
  have hxlast : l₁.getLast? ≠ some index := fun heq =>
    hx (List.mem_append_left _ (List.mem_of_getLast? heq))
  have hxhead : l₂.head? ≠ some index := fun heq =>
    hx (List.mem_append_right _ (List.mem_of_head? heq))
  refine IsQueue.insert h hx hxn ?_ ?_ (fun z hz => ?_) (fun z hz => ?_) (fun z hz hn => ?_)
    (fun z hz hn => ?_) ?_ ?_
  · rw [hprev, if_neg (mt (hhead index).mp hxhead), if_pos rfl]
  · rw [hnexts, if_neg (mt (hlast index).mp hxlast), if_pos rfl]
  · rw [hnexts, if_pos ((hlast z).mpr hz)]
  · rw [hprev, if_pos ((hhead z).mpr hz)]
  · rw [hnexts, if_neg (mt (hlast z).mp hn), if_neg]
    rintro rfl
    exact hx hz
  · rw [hprev, if_neg (mt (hhead z).mp hn), if_neg]
    rintro rfl
    exact hx hz
  · dsimp only
    rw [insertAfter_alarmHead, if_congr hfront rfl rfl]
  · cases l₂ with
    | nil => simp
    | cons b bs => simp [List.getLastD_eq_getLast?, List.getLast?_append, List.getLast?_cons]

/-! ### The loops -/

theorem Queued.congr {t : Alarms} (h : s.Queued l) (hlinks : t.links = s.links)
    (hhead : t.alarmHead = s.alarmHead) : t.Queued l := by
  unfold Queued
  rw [hlinks, hhead]
  exact h

theorem Queued.alarmHead_eq (h : s.Queued l) : s.alarmHead = l.headD kAlarmNone := h.head

/-- `findAlarm` finds a queued record of this pair, if there is one. -/
theorem Queued.findAlarm (h : s.Queued l) (hn : l.length < kTurns) (callback arg : UInt32) :
    (∃ k ∈ l, k ≠ kAlarmNone ∧ (s.alarms k).callback = callback ∧ (s.alarms k).arg = arg ∧
        s.findAlarm callback arg = some k) ∨
      (∀ k ∈ l, ¬((s.alarms k).callback = callback ∧ (s.alarms k).arg = arg)) ∧
        s.findAlarm callback arg = some kAlarmNone := by
  have hwalk : s.findAlarm callback arg =
      some ((l.find? (s.isPair callback arg)).getD kAlarmNone) := (IsQueue.chain h).walk rfl hn
  have hpair : ∀ k ∈ l, s.isPair callback arg k = true ↔
      (s.alarms k).callback = callback ∧ (s.alarms k).arg = arg := by
    intro k hk
    have hkn : k ≠ kAlarmNone := fun heq => h.nil_not_mem (heq ▸ hk)
    simp [isPair, hkn]
  cases hf : l.find? (s.isPair callback arg) with
  | none =>
    refine .inr ⟨fun k hk hp => ?_, by rw [hwalk, hf]; rfl⟩
    exact List.find?_eq_none.mp hf k hk ((hpair k hk).mpr hp)
  | some k =>
    have hk := List.mem_of_find?_eq_some hf
    obtain ⟨hc, ha⟩ := (hpair k hk).mp (List.find?_some hf)
    exact .inl ⟨k, hk, fun heq => h.nil_not_mem (heq ▸ hk), hc, ha, by rw [hwalk, hf]; rfl⟩

/-- `insertAlarm` puts the record behind all that are not due later, and before those that are. -/
theorem Queued.insertAlarm (h : s.Queued l) (hn : l.length < kTurns)
    (hsorted : l.Pairwise fun j k => s.due j ≤ s.due k) (hx : index ∉ l)
    (hxn : index ≠ kAlarmNone) :
    ∃ l₁ l₂ t, l = l₁ ++ l₂ ∧ s.insertAlarm index = some t ∧ t.Queued (l₁ ++ index :: l₂) ∧
      (∀ k ∈ l₁, s.due k ≤ s.due index) ∧ (∀ k ∈ l₂, s.due index < s.due k) ∧
        t.alarms = s.alarms ∧ t.clockSeen = s.clockSeen ∧ t.compare = s.compare := by
  have hlater : ∀ k ∈ l, s.isLater index k = true ↔ s.due index < s.due k := by
    intro k hk
    have hkn : k ≠ kAlarmNone := fun heq => h.nil_not_mem (heq ▸ hk)
    simp [isLater, hkn, clockBefore_iff, due]
  have hwalk : s.insertAlarm index = some (s.insertAfter index
      ((l.takeWhile fun k => !s.isLater index k).getLastD kAlarmNone)) := by
    unfold Alarms.insertAlarm
    exact congrArg _ ((IsQueue.chain h).walkBehind rfl hn)
  obtain ⟨l₁, hl₁⟩ : ∃ l₁, l₁ = l.takeWhile fun k => !s.isLater index k := ⟨_, rfl⟩
  obtain ⟨l₂, hl₂⟩ : ∃ l₂, l₂ = l.dropWhile fun k => !s.isLater index k := ⟨_, rfl⟩
  have hl : l = l₁ ++ l₂ := by rw [hl₁, hl₂, List.takeWhile_append_dropWhile]
  rw [← hl₁] at hwalk
  refine ⟨l₁, l₂, _, hl, hwalk, Queued.insertAfter (hl ▸ h) (hl ▸ hx) hxn, ?_, ?_,
    insertAfter_rest⟩
  · intro k hk
    have hkl : k ∈ l := hl ▸ List.mem_append_left l₂ hk
    rw [hl₁] at hk
    have hnot := List.mem_takeWhile_imp hk
    rw [Bool.not_eq_true', ← Bool.not_eq_true, hlater k hkl] at hnot
    omega
  · -- the first record that is due later, and those behind it
    cases hcs : l₂ with
    | nil => exact fun k hk => absurd hk List.not_mem_nil
    | cons c cs =>
      have hc : s.isLater index c = true := by
        have hhead := List.head?_dropWhile_not (fun k => !s.isLater index k) l
        rw [← hl₂, hcs] at hhead
        simpa using hhead
      have hcl : c ∈ l := hl ▸ List.mem_append_right l₁ (hcs ▸ List.mem_cons_self)
      have hcd := (hlater c hcl).mp hc
      intro k hk
      rcases List.mem_cons.mp hk with rfl | hk
      · exact hcd
      · rw [hl, hcs] at hsorted
        have := List.rel_of_pairwise_cons (List.pairwise_append.mp hsorted).2.1 hk
        omega

/-- `armTimer` reads the clock, if anything is queued, and writes the compare register. -/
theorem Queued.armTimer (h : s.Queued l) (hn : l.length < kTurns) (hne : l ≠ [])
    (low again : UInt32) :
    ∃ v, s.armTimer low again = some { s.readClock low with compare := v } := by
  have hhead : s.alarmHead ≠ kAlarmNone := mt (IsQueue.head_eq_nil_iff h).mp hne
  -- the last record of the queue ends any run
  have hstop : ∃ y ∈ l, s.endsRun y = true := by
    obtain ⟨pre, y, rfl⟩ := (List.eq_nil_or_concat l).resolve_left hne
    have hseg := h.seg
    rw [List.concat_eq_append] at hseg ⊢
    obtain ⟨-, -, hy, -⟩ := seg_append.mp hseg
    refine ⟨y, by simp, ?_⟩
    have hy : s.links.next y = kAlarmNone := hy
    simp [endsRun, hy]
  obtain ⟨l₁, y, l₂, -, -, -, hwalk⟩ := (IsQueue.chain h).walk_first hstop (Nat.le_of_lt hn)
  unfold Alarms.armTimer
  rw [if_neg hhead, hwalk, Option.map_some]
  dsimp only
  split
  · exact ⟨_, rfl⟩
  · exact ⟨_, rfl⟩

/-- `allocateAlarm` takes the first record that is not in use. -/
theorem allocateAlarm_cases (s : Alarms) :
    (∃ k, k < kAlarms ∧ (s.alarms k).inUse = false ∧
      s.allocateAlarm = (k, s.set k { s.alarms k with inUse := true, permanent := false })) ∨
      s.allocateAlarm = (kAlarmNone, s) := by
  unfold allocateAlarm
  cases hf : (List.range kAlarms).find? fun k => !(s.alarms k).inUse with
  | none => exact .inr rfl
  | some k =>
    have hk := List.mem_of_find?_eq_some hf
    have hfree := List.find?_some hf
    exact .inl ⟨k, List.mem_range.mp hk, by simpa using hfree, rfl⟩

end Alarms

/-! ### Edits of the queue -/

namespace Ordered

open Alarms

/-- The loops along the queue have turns enough. -/
theorem length_lt (h : Ordered s stamp stamps l out) : l.length < kTurns := by
  have hsub : l ⊆ List.range kAlarms := fun k hk =>
    List.mem_range.mpr (h.lt k (List.mem_append_left out hk))
  have hle := (List.subperm_of_subset h.queued.nodup hsub).length_le
  rw [List.length_range] at hle
  exact Nat.lt_succ_of_le hle

theorem ne_none (h : Ordered s stamp stamps l out) (hk : k ∈ l ++ out) : k ≠ kAlarmNone := by
  have hlt := h.lt k hk
  unfold kAlarms at hlt
  unfold kAlarmNone
  omega

/-- Only the records, the links and the head are looked at. -/
theorem congr {t : Alarms} (h : Ordered s stamp stamps l out) (halarms : t.alarms = s.alarms)
    (hlinks : t.links = s.links) (hhead : t.alarmHead = s.alarmHead) :
    Ordered t stamp stamps l out := by
  obtain ⟨alarms, links, alarmHead, clockSeen, compare⟩ := t
  obtain rfl : alarms = s.alarms := halarms
  exact { h with queued := h.queued.congr hlinks hhead }

/-- A record off the queue is inserted: the new stamp puts it behind those due at the same time. -/
theorem insert (h : Ordered s stamp stamps l (index :: out)) :
    ∃ l' t, s.insertAlarm index = some t ∧
      Ordered t (Function.update stamp index stamps) (stamps + 1) l' out ∧
        l'.Perm (index :: l) ∧ t.alarms = s.alarms ∧ t.clockSeen = s.clockSeen ∧
          t.compare = s.compare := by
  have hiout : index ∈ l ++ index :: out := List.mem_append_right l List.mem_cons_self
  have hperm : (l ++ index :: out).Perm (index :: l ++ out) := List.perm_middle
  have hnd := hperm.nodup_iff.mp h.nodup
  have hil : index ∉ l := fun hm =>
    (List.nodup_cons.mp hnd).1 (List.mem_append_left out hm)
  have hdues : l.Pairwise fun j k => s.due j ≤ s.due k :=
    h.sorted.imp fun {j k} he => by
      unfold Earlier at he
      omega
  obtain ⟨l₁, l₂, t, rfl, hinsert, hqueued, hbefore, hafter, halarms, hclock, hcompare⟩ :=
    h.queued.insertAlarm h.length_lt hdues hil (h.ne_none hiout)
  have hmiddle : (l₁ ++ index :: l₂).Perm (index :: (l₁ ++ l₂)) := List.perm_middle
  have hmem : ∀ k, k ∈ l₁ ++ index :: l₂ ++ out ↔ k ∈ (l₁ ++ l₂) ++ index :: out :=
    fun k => (hmiddle.append_right out).mem_iff.trans hperm.symm.mem_iff
  obtain ⟨alarms, links, alarmHead, clockSeen, compare⟩ := t
  obtain rfl : alarms = s.alarms := halarms
  refine ⟨_, _, hinsert, ?_, hmiddle, rfl, hclock, hcompare⟩
  -- the stamps of the others are as they were, and below the new one
  have hstamp : ∀ k ∈ l₁ ++ l₂, Function.update stamp index stamps k = stamp k := by
    intro k hk
    exact Function.update_of_ne (ne_of_mem_of_not_mem hk hil) _ _
  have hsorted := h.sorted.imp_of_mem (S := s.Earlier (Function.update stamp index stamps))
    fun {j k} hj hk he => by
      unfold Earlier at he ⊢
      rw [hstamp j hj, hstamp k hk]
      exact he
  refine
    { queued := hqueued
      nodup := (hmiddle.append_right out).nodup_iff.mpr hnd
      lt := fun k hk => h.lt k ((hmem k).mp hk)
      inUse := fun k hk => (h.inUse k hk).trans (hmem k).symm
      sorted := ?_
      stamped := fun k hk => ?_
      zero := (hmem 0).mpr h.zero
      permanent := fun k hk => h.permanent k ((hmem k).mp hk)
      null := fun k hk => h.null k ((hmem k).mp hk) }
  · obtain ⟨hs₁, hs₂, hs₁₂⟩ := List.pairwise_append.mp hsorted
    refine List.pairwise_append.mpr ⟨hs₁, List.pairwise_cons.mpr ⟨fun k hk => ?_, hs₂⟩,
      fun j hj k hk => ?_⟩
    · exact .inl (hafter k hk)
    · rcases List.mem_cons.mp hk with rfl | hk
      · have hle := hbefore j hj
        have hj' : j ∈ l₁ ++ l₂ := List.mem_append_left l₂ hj
        have hlt := h.stamped j hj'
        rcases Nat.lt_or_eq_of_le hle with hlt' | heq
        · exact .inl hlt'
        · refine .inr ⟨heq, ?_⟩
          rw [hstamp j hj', Function.update_self]
          exact hlt
      · exact hs₁₂ j hj k hk
  · rcases List.mem_cons.mp (hmiddle.mem_iff.mp hk) with rfl | hk
    · rw [Function.update_self]
      exact Nat.lt_succ_self _
    · rw [hstamp k hk]
      exact Nat.lt_succ_of_lt (h.stamped k hk)

/-- A queued record is taken off the queue. -/
theorem unlink (h : Ordered s stamp stamps l out) (hi : index ∈ l) :
    Ordered (s.unlinkAlarm index) stamp stamps (l.erase index) (index :: out) := by
  have hqueued := h.queued.unlinkAlarm hi
  rw [s.unlinkAlarm_eq index 0] at hqueued ⊢
  have hperm : (l.erase index ++ index :: out).Perm (l ++ out) :=
    List.perm_middle.trans ((List.perm_cons_erase hi).symm.append_right out)
  exact
    { queued := hqueued
      nodup := hperm.nodup_iff.mpr h.nodup
      lt := fun k hk => h.lt k (hperm.mem_iff.mp hk)
      inUse := fun k hk => (h.inUse k hk).trans hperm.symm.mem_iff
      sorted := h.sorted.sublist List.erase_sublist
      stamped := fun k hk => h.stamped k (List.mem_of_mem_erase hk)
      zero := hperm.mem_iff.mpr h.zero
      permanent := fun k hk => h.permanent k (hperm.mem_iff.mp hk)
      null := fun k hk => h.null k (hperm.mem_iff.mp hk) }

/-- A record off the queue is given back to the pool. -/
theorem release (h : Ordered s stamp stamps l (index :: out)) (hi : index ≠ 0) {a : Alarm}
    (ha : a.inUse = false) : Ordered (s.set index a) stamp stamps l out := by
  have hperm : (l ++ index :: out).Perm (index :: (l ++ out)) := List.perm_middle
  obtain ⟨hil, hnd⟩ := List.nodup_cons.mp (hperm.nodup_iff.mp h.nodup)
  have hin : ∀ k ∈ l ++ out, k ∈ l ++ index :: out := fun k hk =>
    hperm.mem_iff.mpr (List.mem_cons_of_mem index hk)
  have hkeep : ∀ k ∈ l ++ out, (s.set index a).alarms k = s.alarms k := fun k hk =>
    Function.update_of_ne (ne_of_mem_of_not_mem hk hil) _ _
  refine
    { queued := h.queued
      nodup := hnd
      lt := fun k hk => h.lt k (hin k hk)
      inUse := fun k hk => ?_
      sorted := h.sorted.imp_of_mem fun {j k} hj hk he => ?_
      stamped := h.stamped
      zero := (List.mem_cons.mp (hperm.mem_iff.mp h.zero)).resolve_left hi.symm
      permanent := fun k hk => by
        rw [hkeep k hk]
        exact h.permanent k (hin k hk)
      null := fun k hk => by
        rw [hkeep k hk]
        exact h.null k (hin k hk) }
  · rcases eq_or_ne k index with rfl | hne
    · have hset : (s.set k a).alarms k = a := Function.update_self _ _ _
      rw [hset, ha]
      exact iff_of_false Bool.false_ne_true hil
    · have hset : (s.set index a).alarms k = s.alarms k := Function.update_of_ne hne _ _
      rw [hset, h.inUse k hk, hperm.mem_iff, List.mem_cons, or_iff_right hne]
  · unfold Earlier due at he ⊢
    rw [hkeep j (List.mem_append_left out hj), hkeep k (List.mem_append_left out hk)]
    exact he

/-- A free record is taken out of the pool, for a pair of its own. -/
theorem allocate (h : Ordered s stamp stamps l out) (hlt : index < kAlarms)
    (hfree : (s.alarms index).inUse = false) {a : Alarm} (ha : a.inUse = true)
    (hp : a.permanent = false) (hnull : ¬(a.callback = 0 ∧ a.arg = 0)) :
    Ordered (s.set index a) stamp stamps l (index :: out) := by
  -- the record joins those that are out of the queue
  have hperm : (l ++ index :: out).Perm (index :: (l ++ out)) := List.perm_middle
  have hil : index ∉ l ++ out := by
    rw [← h.inUse index hlt, hfree]
    exact Bool.false_ne_true
  have hi : index ≠ 0 := fun heq => hil (heq ▸ h.zero)
  have hset : (s.set index a).alarms index = a := Function.update_self _ _ _
  -- the records in the queue are as they were
  have hkeep : ∀ k, k ≠ index → (s.set index a).alarms k = s.alarms k := fun k hk =>
    Function.update_of_ne hk _ _
  have hmem : ∀ k, k ∈ l ++ index :: out ↔ k = index ∨ k ∈ l ++ out := fun k =>
    hperm.mem_iff.trans List.mem_cons
  refine
    { queued := h.queued
      nodup := hperm.nodup_iff.mpr (List.nodup_cons.mpr ⟨hil, h.nodup⟩)
      lt := fun k hk => ?_
      inUse := fun k hk => ?_
      sorted := h.sorted.imp_of_mem fun {j k} hj hk he => ?_
      stamped := h.stamped
      zero := (hmem 0).mpr (.inr h.zero)
      permanent := fun k hk => ?_
      null := fun k hk => ?_ }
  · rcases (hmem k).mp hk with rfl | hk
    · exact hlt
    · exact h.lt k hk
  · rw [hmem]
    rcases eq_or_ne k index with rfl | hne
    · rw [hset, ha]
      exact iff_of_true rfl (.inl rfl)
    · rw [hkeep k hne, h.inUse k hk, or_iff_right hne]
  · unfold Earlier due at he ⊢
    rw [hkeep j (ne_of_mem_of_not_mem (List.mem_append_left out hj) hil),
      hkeep k (ne_of_mem_of_not_mem (List.mem_append_left out hk) hil)]
    exact he
  · rcases (hmem k).mp hk with rfl | hk
    · rw [hset, hp]
      exact iff_of_false Bool.false_ne_true hi
    · rw [hkeep k (ne_of_mem_of_not_mem hk hil)]
      exact h.permanent k hk
  · rcases (hmem k).mp hk with rfl | hk
    · rw [hset]
      exact iff_of_false hnull hi
    · rw [hkeep k (ne_of_mem_of_not_mem hk hil)]
      exact h.null k hk

/-- A record off the queue is given another deadline. -/
theorem defer (h : Ordered s stamp stamps l (index :: out)) (deadline : Clock) :
    Ordered (s.set index { s.alarms index with deadline := deadline }) stamp stamps l
      (index :: out) := by
  have hil : index ∉ l := fun hm =>
    (List.nodup_append.mp h.nodup).2.2 index hm index List.mem_cons_self rfl
  have hkeep : ∀ k, k ≠ index →
      (s.set index { s.alarms index with deadline := deadline }).alarms k = s.alarms k :=
    fun k hk => Function.update_of_ne hk _ _
  have hset : (s.set index { s.alarms index with deadline := deadline }).alarms index =
      { s.alarms index with deadline := deadline } := Function.update_self _ _ _
  refine
    { queued := h.queued
      nodup := h.nodup
      lt := h.lt
      inUse := fun k hk => ?_
      sorted := h.sorted.imp_of_mem fun {j k} hj hk he => ?_
      stamped := h.stamped
      zero := h.zero
      permanent := fun k hk => ?_
      null := fun k hk => ?_ }
  · rw [← h.inUse k hk]
    rcases eq_or_ne k index with rfl | hne
    · rw [hset]
    · rw [hkeep k hne]
  · unfold Earlier due at he ⊢
    rw [hkeep j (ne_of_mem_of_not_mem hj hil), hkeep k (ne_of_mem_of_not_mem hk hil)]
    exact he
  · rw [← h.permanent k hk]
    rcases eq_or_ne k index with rfl | hne
    · rw [hset]
    · rw [hkeep k hne]
  · rw [← h.null k hk]
    rcases eq_or_ne k index with rfl | hne
    · rw [hset]
    · rw [hkeep k hne]

end Ordered

end PS2Bios.Threadman
