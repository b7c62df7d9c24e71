import PS2Bios.Threadman.AlarmQueue

/-!
# Arming the timer

How late the interrupt comes that `armTimer` programs. The compare register holds a word, and the
counter runs on while `armTimer` does its work: the register is written at an instant `written`
some time after the clock was read, and names the first instant from then on at which the counter's
word is that of the register (`matchFrom`). The records the interrupt is to cover are the run of
heads that `armTimer` goes along, each within 200 us of the one before it.

`armTimer_bounds_lateness` says when the interrupt comes in time for all of them.
-/

namespace PS2Bios.Threadman

open Intrusive Alarms

variable {s : Alarms} {l : List ℕ} {p a k : ℕ}

/-- 200 us, as a number. -/
def kWindow : ℕ := ticksCoalesce.toNat

/-- The first instant from `now` on at which the counter's word is `compare`. -/
def matchFrom (now : ℕ) (compare : UInt32) : ℕ :=
  now + (compare.toNat + (kPeriod - now % kPeriod)) % kPeriod

/-- The run of heads that one interrupt is to cover. -/
def Alarms.run (s : Alarms) : List ℕ → List ℕ
  | [] => []
  | a :: rest =>
    match rest with
    | [] => [a]
    | b :: _ =>
      if clockBefore (clockAdd (s.alarms a).deadline ⟨ticksCoalesce, 0⟩) (s.alarms b).deadline then
        [a]
      else a :: s.run rest

/-- The interrupt comes no later than 200 us after the deadline of each record it covers, or 200 us
from now where the deadline has passed. -/
def Alarms.InTimeFor (s : Alarms) (l : List ℕ) (written : ℕ) (compare : UInt32) : Prop :=
  written ≤ matchFrom written compare ∧
    ∀ k ∈ s.run l, matchFrom written compare ≤ max (s.due k) written + kWindow

/-- The first of the run, and the last, whose deadline is the target. -/
def Alarms.firstDue (s : Alarms) (l : List ℕ) : ℕ := s.due (l.headD kAlarmNone)

/-- The deadline of the last alarm of the run at the head, the one the comparator is set for. -/
def Alarms.lastDue (s : Alarms) (l : List ℕ) : ℕ := s.due ((s.run l).getLastD kAlarmNone)

/-- With the target still to come when the clock is read: it is still to come when the register is
written, and within 200 us of the head's deadline or of now, or more than a period away; or else it
is passed by nearly a number of whole periods. With the target passed: the counter does not advance
by more than 200 us from its second reading to the writing, whole periods apart. -/
def Alarms.Timely (s : Alarms) (l : List ℕ) (now again written : ℕ) : Prop :=
  if now < s.lastDue l then
    if written ≤ s.lastDue l then
      s.lastDue l ≤ max (s.firstDue l) written + kWindow ∨ written + kPeriod ≤ s.lastDue l
    else
      (written - s.lastDue l) % kPeriod = 0 ∨
        kPeriod ≤ (written - s.lastDue l) % kPeriod + kWindow
  else (written - again) % kPeriod ≤ kWindow

instance (s : Alarms) (l : List ℕ) (written : ℕ) (compare : UInt32) :
    Decidable (s.InTimeFor l written compare) := inferInstanceAs (Decidable (_ ∧ ∀ k ∈ s.run l, _))

instance (s : Alarms) (l : List ℕ) (now again written : ℕ) :
    Decidable (s.Timely l now again written) :=
  inferInstanceAs (Decidable (if now < s.lastDue l then
    if written ≤ s.lastDue l then
      s.lastDue l ≤ max (s.firstDue l) written + kWindow ∨ written + kPeriod ≤ s.lastDue l
    else
      (written - s.lastDue l) % kPeriod = 0 ∨
        kPeriod ≤ (written - s.lastDue l) % kPeriod + kWindow
  else (written - again) % kPeriod ≤ kWindow))

/-! ### The run of heads -/

namespace Alarms

/-- The alarms one interrupt calls are at least the first. -/
theorem run_ne_nil (s : Alarms) (a : ℕ) (rest : List ℕ) : s.run (a :: rest) ≠ [] := by
  cases rest with
  | nil => exact List.cons_ne_nil a []
  | cons b r =>
    rw [run]
    split
    · exact List.cons_ne_nil a []
    · exact List.cons_ne_nil a _

/-- The first alarm is one of those one interrupt calls. -/
theorem head_mem_run (s : Alarms) (a : ℕ) (rest : List ℕ) : a ∈ s.run (a :: rest) := by
  cases rest with
  | nil => exact List.mem_cons_self
  | cons b r =>
    rw [run]
    split
    · exact List.mem_cons_self
    · exact List.mem_cons_self

/-- The alarms one interrupt calls are armed. -/
theorem run_subset (s : Alarms) (l : List ℕ) : s.run l ⊆ l := by
  induction l with
  | nil => exact fun x hx => hx
  | cons a rest ih =>
    cases rest with
    | nil => exact fun x hx => hx
    | cons b r =>
      rw [run]
      split
      · exact List.cons_subset_cons a (List.nil_subset _)
      · exact List.cons_subset_cons a ih

/-- The target is no further from the head than 200 us for each record of the run. -/
theorem lastDue_le (s : Alarms) (a : ℕ) (rest : List ℕ) (d : ℕ) :
    s.due ((s.run (a :: rest)).getLastD d) ≤ s.due a + kWindow * rest.length := by
  induction rest generalizing a d with
  | nil => exact Nat.le_add_right _ _
  | cons b r ih =>
    rw [run]
    split
    · exact Nat.le_add_right _ _
    · next hnear =>
      rw [clockBefore_iff, ticks_clockAdd] at hnear
      have hwindow : (⟨ticksCoalesce, 0⟩ : Clock).ticks = kWindow := by decide
      rw [hwindow] at hnear
      have hstep : s.due b ≤ s.due a + kWindow := by
        have := Nat.mod_le ((s.alarms a).deadline.ticks + kWindow) (2 ^ 64)
        unfold due
        omega
      have hrest := ih b a
      rw [List.getLastD_cons, List.length_cons, Nat.mul_succ]
      omega

/-- The loop of `armTimer` ends at the last of the run. -/
theorem walk_run (hseg : Seg s.links p (a :: l) kAlarmNone) (hnil : kAlarmNone ∉ a :: l) {n : ℕ}
    (hn : (a :: l).length ≤ n) (d : ℕ) :
    walk s.links.next s.endsRun n a = some ((s.run (a :: l)).getLastD d) := by
  induction l generalizing a p n d with
  | nil =>
    obtain ⟨n, rfl⟩ : ∃ k, n = k + 1 := ⟨n - 1, by rw [List.length_singleton] at hn; omega⟩
    obtain ⟨-, hnext, -⟩ := hseg
    have hnext : s.links.next a = kAlarmNone := hnext
    have hends : s.endsRun a = true := by
      unfold endsRun
      rw [hnext]
      rfl
    rw [walk, if_pos hends]
    rfl
  | cons b r ih =>
    obtain ⟨n, rfl⟩ : ∃ k, n = k + 1 := ⟨n - 1, by rw [List.length_cons] at hn; omega⟩
    obtain ⟨-, hnext, hrest⟩ := hseg
    have hnext : s.links.next a = b := hnext
    rw [List.mem_cons, not_or] at hnil
    have hb : b ≠ kAlarmNone := fun heq => hnil.2 (heq ▸ List.mem_cons_self)
    have hends : s.endsRun a =
        clockBefore (clockAdd (s.alarms a).deadline ⟨ticksCoalesce, 0⟩) (s.alarms b).deadline := by
      unfold endsRun
      rw [hnext, beq_eq_false_iff_ne.mpr hb, Bool.false_or]
    rw [walk, hends, run, hnext]
    split
    · rfl
    · rw [List.getLastD_cons]
      exact ih hrest hnil.2 (by
        rw [List.length_cons] at hn
        omega) a

end Alarms

/-! ### The interrupt -/

/-- The counter next reaches a value within one period. -/
theorem matchFrom_eq {compare : UInt32} {now x : ℕ} (hx : compare.toNat = x % kPeriod) :
    matchFrom now compare = now + (x + (kPeriod - now % kPeriod)) % kPeriod := by
  unfold matchFrom
  rw [hx]
  unfold kPeriod
  omega

/-- The arithmetic of a target `d` that is to come, behind a head `h`. -/
theorem reaches_iff {written d h : ℕ} (hle : h ≤ d) (hspread : d ≤ h + 7372 * 31) :
    written + (d + (0x100000000 - written % 0x100000000)) % 0x100000000 ≤ max h written + 7372 ↔
      if written ≤ d then d ≤ max h written + 7372 ∨ written + 0x100000000 ≤ d
      else (written - d) % 0x100000000 = 0 ∨
        0x100000000 ≤ (written - d) % 0x100000000 + 7372 := by
  split
  · omega
  · omega

/-- The arithmetic of a target that has passed, and a second reading. -/
theorem reaches_again_iff {now again written d h : ℕ} (hle : h ≤ d) (hpassed : ¬now < d)
    (hread : now ≤ again) (hwrite : again ≤ written) :
    written + (again + 7372 + (0x100000000 - written % 0x100000000)) % 0x100000000 ≤
      max h written + 7372 ↔ (written - again) % 0x100000000 ≤ 7372 := by
  omega

/-- In a sorted queue it is the head that the interrupt has to be in time for. -/
theorem inTimeFor_iff (hsorted : (a :: l).Pairwise fun j k => s.due j ≤ s.due k) {written : ℕ}
    {compare : UInt32} : s.InTimeFor (a :: l) written compare ↔
      matchFrom written compare ≤ max (s.due a) written + kWindow := by
  constructor
  · exact fun h => h.2 a (s.head_mem_run a l)
  · refine fun h => ⟨Nat.le_add_right _ _, fun k hk => ?_⟩
    have hle : s.due a ≤ s.due k := by
      rcases List.mem_cons.mp (s.run_subset _ hk) with rfl | hk
      · exact le_rfl
      · exact List.rel_of_pairwise_cons hsorted hk
    omega

/-- **Arming bounds lateness**: for every queue in order, every clock and every pair of instants at
which the counter is read again and the register written, the interrupt comes in time for the run
of heads exactly when `Timely` says so. -/
theorem armTimer_bounds_lateness (hq : s.Queued l) (hne : l ≠ []) (hlen : l.length ≤ kAlarms)
    (hsorted : l.Pairwise fun j k => s.due j ≤ s.due k) (low again : UInt32)
    {readAgain written : ℕ} (hagain : again.toNat = readAgain % kPeriod)
    (hread : (s.readClock low).clockSeen.ticks ≤ readAgain) (hwrite : readAgain ≤ written) :
    ∃ t, s.armTimer low again = some t ∧ (s.InTimeFor l written t.compare ↔
      s.Timely l (s.readClock low).clockSeen.ticks readAgain written) := by
  cases l with
  | nil => exact absurd rfl hne
  | cons a rest =>
    have hhead : s.alarmHead = a := hq.alarmHead_eq
    have han : a ≠ kAlarmNone := fun heq => hq.nil_not_mem (heq ▸ List.mem_cons_self)
    have hturns : (a :: rest).length ≤ kTurns := Nat.le_succ_of_le hlen
    -- the walk goes along the run of neighbours that the first alarm begins
    have hwalk := walk_run hq.seg hq.nil_not_mem hturns kAlarmNone
    obtain ⟨target, htarget⟩ :
        ∃ target, target = (s.run (a :: rest)).getLastD kAlarmNone := ⟨_, rfl⟩
    rw [← htarget] at hwalk
    have hlast : s.lastDue (a :: rest) = s.due target := by rw [lastDue, htarget]
    have hfirst : s.firstDue (a :: rest) = s.due a := rfl
    have hwindow : kWindow = 7372 := by decide
    -- at most thirty-one windows from the first to the last of them
    have hspread : s.due target ≤ s.due a + 7372 * 31 := by
      have hrun := s.lastDue_le a rest kAlarmNone
      have hfew : rest.length ≤ 31 := Nat.le_of_succ_le_succ hlen
      rw [← htarget, hwindow] at hrun
      omega
    have hle : s.due a ≤ s.due target := by
      have hmem : target ∈ s.run (a :: rest) := by
        rw [htarget]
        exact getLastD_mem_or.resolve_right (s.run_ne_nil a rest)
      rcases List.mem_cons.mp (s.run_subset _ hmem) with heq | hm
      · rw [heq]
      · exact List.rel_of_pairwise_cons hsorted hm
    unfold Alarms.armTimer
    rw [hhead, if_neg han, hwalk, Option.map_some]
    refine ⟨_, rfl, ?_⟩
    rw [inTimeFor_iff hsorted]
    unfold Alarms.Timely
    rw [hlast, hfirst]
    dsimp only
    have hseen : (s.readClock low).alarms = s.alarms := rfl
    rw [hseen]
    have hbefore : clockBefore (s.readClock low).clockSeen (s.alarms target).deadline = true ↔
        (s.readClock low).clockSeen.ticks < s.due target := clockBefore_iff
    -- the last of the run lies ahead, and is the target, or is past, and a window from now is
    by_cases hlater : (s.readClock low).clockSeen.ticks < s.due target
    · rw [if_pos (hbefore.mpr hlater), if_pos hlater]
      dsimp only
      have hlo : (s.alarms target).deadline.lo.toNat = s.due target % kPeriod :=
        (s.alarms target).deadline.toNat_lo
      rw [matchFrom_eq hlo, hwindow]
      unfold kPeriod
      exact reaches_iff hle hspread
    · rw [if_neg (mt hbefore.mp hlater), if_neg hlater]
      dsimp only
      have hsum : (again + ticksCoalesce).toNat = (readAgain + 7372) % kPeriod := by
        have : ticksCoalesce.toNat = 7372 := by decide
        rw [UInt32.toNat_add, hagain, this]
        unfold kPeriod
        exact Nat.mod_add_mod readAgain 0x100000000 7372
      rw [matchFrom_eq hsum, hwindow]
      unfold kPeriod
      exact reaches_again_iff hle hlater hread hwrite

/-- Records at these deadlines, queued in this order. -/
def inARow (deadlines : List UInt32) : Alarms where
  alarms k := ⟨⟨deadlines.getD k 0, 0⟩, 0, 0, decide (k < deadlines.length), false⟩
  links :=
    { next := fun k => if k + 1 < deadlines.length then k + 1 else kAlarmNone
      prev := fun k => if k = 0 then kAlarmNone else k - 1 }
  alarmHead := 0
  clockSeen := ⟨0, 0⟩
  compare := 0

/-- Two alarms share an interrupt, at the second one's deadline. -/
theorem armed_for_two : ∃ t, (inARow [10000, 17000]).armTimer 9000 9050 = some t ∧
    (inARow [10000, 17000]).InTimeFor [0, 1] 9100 t.compare := by
  have hq : (inARow [10000, 17000]).Queued [0, 1] :=
    ⟨⟨rfl, rfl, rfl, rfl, trivial⟩, rfl, rfl, by decide, by decide⟩
  have hread : ((inARow [10000, 17000]).readClock 9000).clockSeen.ticks ≤ 9050 := by decide
  have hwrite : 9050 ≤ 9100 := by decide
  obtain ⟨t, ht, hiff⟩ := armTimer_bounds_lateness hq (by decide) (by decide) (by decide) 9000 9050
    rfl hread hwrite
  exact ⟨t, ht, hiff.mpr (by decide +kernel)⟩

/-- A chain of three: each is within 200 us of the one before it, and the interrupt is for the
last, 380 us behind the first. -/
theorem late_for_the_first_of_three : ∃ (s t : Alarms) (l : List ℕ), s.Queued l ∧
    (l.Pairwise fun j k => s.due j ≤ s.due k) ∧ s.armTimer 100 0 = some t ∧
      ¬s.InTimeFor l 110 t.compare := by
  have hq : (inARow [10000, 17000, 24000]).Queued [0, 1, 2] :=
    ⟨⟨rfl, rfl, rfl, rfl, rfl, rfl, trivial⟩, rfl, rfl, by decide, by decide⟩
  have harm : ((inARow [10000, 17000, 24000]).armTimer 100 0).map Alarms.compare = some 24000 := by
    decide +kernel
  obtain ⟨t, ht, hcompare⟩ := Option.map_eq_some_iff.mp harm
  refine ⟨_, t, _, hq, by decide, ht, ?_⟩
  rw [hcompare]
  decide +kernel

end PS2Bios.Threadman
