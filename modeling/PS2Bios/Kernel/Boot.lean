import PS2Bios.Kernel.Switch

/-!
# The EE kernel's tables after the start

The state the runs of the other modules start in: `prepareTables` at first use, and then
`startProgramThread`, which gives the first program the first free record and leaves the boot
thread behind in its own queue. `Scheduled.boot` is the invariant there.
-/

namespace PS2Bios.Kernel

open Intrusive State

/-- The loop that frees the thread records builds the chain `1, …, n` in front of what was
there, and writes nothing else. -/
theorem freeThreads_spec {s : State} {n : ℕ} {l : List ℕ} (hthread : ∀ x, s.thread x = zeroRecord)
    (hchain : Chain kNone s.links.next s.freeThread l) (hl : ∀ x ∈ l, n < x)
    (hn : n < kThreads) :
    ∃ links : Links ℕ, ∃ free, freeThreads s n = { s with links := links, freeThread := free } ∧
      Chain kNone links.next free (List.range' 1 n ++ l) := by
  induction n generalizing s l with
  | zero => exact ⟨s.links, s.freeThread, rfl, hchain⟩
  | succ k ih =>
    have hrelease : s.release (k + 1) =
        { s with links := s.links.setNext (k + 1) s.freeThread, freeThread := k + 1 } := by
      have : Function.update s.thread (k + 1)
          { s.thread (k + 1) with state := .free } = s.thread := by
        rw [Function.update_eq_self_iff, hthread]
        rfl
      unfold State.release setThread
      dsimp only
      rw [this]
    have hk : k + 1 ∉ l := fun hm => absurd (hl _ hm) (by omega)
    obtain ⟨links, free, heq, hc⟩ := ih (s := s.release (k + 1)) (l := (k + 1) :: l)
      (by rw [hrelease]; exact hthread)
      (by rw [hrelease]; exact hchain.push hk (ne_kNone_of_lt hn))
      (fun x hx => by
        rcases List.mem_cons.mp hx with rfl | hx
        · omega
        · have := hl x hx
          omega) (by omega)
    refine ⟨links, free, ?_, ?_⟩
    · rw [freeThreads, heq, hrelease]
    · rw [List.range'_concat, List.append_assoc, Nat.one_mul, Nat.add_comm 1 k]
      exact hc

/-- The loop that frees the semaphores builds the chain `0, …, n - 1`. -/
theorem freeSemaphores_spec {s : State} {n : ℕ} {l : List ℕ} (hn : n ≤ kSemaphores)
    (hchain : Chain kNone (fun m => (s.semaphore m).nextFree) s.freeSemaphore l)
    (hl : ∀ x ∈ l, n ≤ x) (hcount : ∀ x, n ≤ x → x < kSemaphores → (s.semaphore x).count = -1) :
    ∃ semaphore : ℕ → Semaphore, ∃ free,
      freeSemaphores s n = { s with semaphore := semaphore, freeSemaphore := free } ∧
      Chain kNone (fun m => (semaphore m).nextFree) free (List.range n ++ l) ∧
      ∀ x < kSemaphores, (semaphore x).count = -1 := by
  induction n generalizing s l with
  | zero => exact ⟨s.semaphore, s.freeSemaphore, rfl, hchain, fun x hx => hcount x (by omega) hx⟩
  | succ k ih =>
    have hself : (s.releaseSemaphore k).semaphore k =
        { s.semaphore k with count := -1, nextFree := s.freeSemaphore } := by
      simp [releaseSemaphore]
    have hother : ∀ x, x ≠ k → (s.releaseSemaphore k).semaphore x = s.semaphore x :=
      fun x hx => by simp [releaseSemaphore, hx]
    have hk : k ∉ l := fun hm => absurd (hl _ hm) (by omega)
    have hne : k ≠ kNone := by
      rintro rfl
      exact absurd hn (by decide)
    have hc : Chain kNone (fun m => ((s.releaseSemaphore k).semaphore m).nextFree)
        (s.releaseSemaphore k).freeSemaphore (k :: l) := by
      refine ⟨rfl, hne, ?_⟩
      dsimp only
      rw [hself]
      refine hchain.congr fun y hy => ?_
      rw [hother y fun heq => hk (heq ▸ hy)]
    obtain ⟨semaphore, free, heq, hc', hcount'⟩ := ih (s := s.releaseSemaphore k) (l := k :: l)
      (by omega) hc
      (fun x hx => by
        rcases List.mem_cons.mp hx with rfl | hx
        · omega
        · have := hl x hx
          omega)
      (fun x hx hlt => by
        rcases eq_or_ne x k with rfl | hxk
        · rw [hself]
        · rw [hother x hxk]
          exact hcount x (by omega) hlt)
    refine ⟨semaphore, free, ?_, ?_, hcount'⟩
    · rw [freeSemaphores, heq]
      rfl
    · rw [List.range_succ, List.append_assoc]
      exact hc'

/-- The queues after the tables are set up: the boot thread in its own queue, every other thread
and every semaphore free. -/
def bootLists : Lists where
  queued := Function.update (fun _ => []) (.ready kIdleQueue) [0]
  free := List.range' 1 (kThreads - 1)
  freeSema := List.range kSemaphores

/-- The tables as the boot sets them up hold the boot thread in its queue and nobody else in any. -/
theorem linked_prepareTables (threadRoot : ℕ) :
    Linked (prepareTables threadRoot) bootLists none := by
  obtain ⟨links, free, heq, hchain⟩ := freeThreads_spec (s := emptyTables threadRoot)
    (n := kThreads - 1) (l := []) (fun _ => rfl) rfl (fun _ hx => absurd hx List.not_mem_nil)
    (by decide)
  obtain ⟨semaphore, freeSema, heq', hsema, hcount⟩ := freeSemaphores_spec
    (s := queueBootThread { emptyTables threadRoot with links := links, freeThread := free })
    (n := kSemaphores) (l := []) le_rfl rfl (fun _ hx => absurd hx List.not_mem_nil)
    (fun x hx hlt => absurd hlt (by omega))
  unfold prepareTables
  rw [heq, heq']
  rw [List.append_nil] at hchain hsema
  -- the boot thread is 0; the other records go to the free list
  have hmem : ∀ x, x ∈ List.range' 1 (kThreads - 1) ↔ x ≠ 0 ∧ x < kThreads := by
    intro x
    rw [List.mem_range'_1]
    simp only [kThreads]
    omega
  have hallocated : ∀ m, ¬(m < kSemaphores ∧ 0 ≤ (semaphore m).count) := by
    rintro m ⟨hm, hpos⟩
    rw [hcount m hm] at hpos
    exact absurd hpos (by decide)
  have hqueued : ∀ x p, x ∈ bootLists.queued p ↔ p = .ready kIdleQueue ∧ x = 0 := by
    intro x p
    simp only [bootLists, Function.update_apply]
    split <;> simp [*]
  have hthread : ∀ x, x ≠ 0 → Function.update (fun _ => zeroRecord) 0 { zeroRecord with
      state := .ready
      initialPriority := kBootPriority
      currentPriority := kBootPriority } x = zeroRecord :=
    fun x hx => Function.update_of_ne hx _ _
  have hfree : bootLists.free = List.range' 1 (kThreads - 1) := by simp only [bootLists]
  have hfreeSema : bootLists.freeSema = List.range kSemaphores := by simp only [bootLists]
  -- one queue holds one thread, so each field is a look at 0 or at a zeroed record
  refine
    { family := ⟨?_, ?_, ?_⟩
      mem_iff := ?_
      cleared := ?_
      waitCount := fun m hm => absurd hm (hallocated m)
      freeChain := ?_
      freeNodup := ?_
      mem_free := ?_
      semaChain := ?_
      semaNodup := ?_
      semaFree := ?_
      lowest := ?_
      priorities := ?_
      current := show 0 < kThreads by decide }
  -- the queues
  · rintro (queue | m) hp
    · rcases eq_or_ne queue kIdleQueue with rfl | hne
      · exact (isQueue_empty links).enqueue List.not_mem_nil (by decide)
      · have hq : Function.update (fun _ => (⟨kNone, kNone⟩ : Queue ℕ)) kIdleQueue ⟨0, 0⟩ queue =
            ⟨kNone, kNone⟩ := Function.update_of_ne hne _ _
        have hl : bootLists.queued (.ready queue) = [] :=
          List.eq_nil_iff_forall_not_mem.mpr fun x hx =>
            hne (Place.ready.inj ((hqueued x _).mp hx).1)
        rw [hl]
        show IsQueue kNone _ (Function.update (fun _ => (⟨kNone, kNone⟩ : Queue ℕ)) kIdleQueue
          ⟨0, 0⟩ queue) []
        rw [hq]
        exact isQueue_empty _
    · exact absurd hp (hallocated m)
  · intro p hp
    refine List.eq_nil_iff_forall_not_mem.mpr fun x hx => ?_
    obtain ⟨rfl, -⟩ := (hqueued x p).mp hx
    exact hp (show kIdleQueue < kQueues by decide)
  · intro p p' x hx hx'
    rw [((hqueued x p).mp hx).1, ((hqueued x p').mp hx').1]
  · intro x p
    rw [hqueued]
    constructor
    · rintro ⟨rfl, rfl⟩
      exact ⟨by simp, by decide, .inr rfl, rfl⟩
    · rintro ⟨-, -, hb⟩
      rcases eq_or_ne x 0 with rfl | hx
      · cases p with
        | ready queue =>
          obtain ⟨-, rfl⟩ := hb
          exact ⟨rfl, rfl⟩
        | waitList m =>
          obtain ⟨hb | hb, -⟩ := hb <;> exact absurd hb nofun
      · exact absurd hb (not_belongs_of_free (congrArg ThreadRecord.state (hthread x hx)))
  -- who is linked nowhere
  · intro x hx hno hnf
    rcases eq_or_ne x 0 with rfl | hx0
    · exact absurd ((hqueued 0 _).mpr ⟨rfl, rfl⟩) (hno _)
    · rw [hfree] at hnf
      exact absurd ((hmem x).mpr ⟨hx0, hx⟩) hnf
  -- the free records, from 1 on
  · rw [hfree]
    refine hchain.congr fun x hx => ?_
    have hx0 := ((hmem x).mp hx).1
    show ((links.setNext 0 kNone).setPrev 0 kNone).next x = _
    simp [hx0]
  · rw [hfree]
    exact List.nodup_range'
  · intro x
    rw [hfree]
    refine (hmem x).trans ?_
    rcases eq_or_ne x 0 with rfl | hx
    · refine iff_of_false (fun h => h.1 rfl) fun h => absurd h.2.2 ?_
      exact nofun
    · exact ⟨fun h => ⟨by simp, h.2, congrArg ThreadRecord.state (hthread x hx)⟩,
        fun h => ⟨hx, h.2.1⟩⟩
  -- the free semaphores
  · rw [hfreeSema]
    exact hsema
  · rw [hfreeSema]
    exact List.nodup_range
  · intro m hm
    rw [hfreeSema] at hm
    have hlt := List.mem_range.mp hm
    refine ⟨hlt, ?_⟩
    show (semaphore m).count < 0
    rw [hcount m hlt]
    decide
  · intro queue hne
    obtain ⟨x, hx⟩ := List.exists_mem_of_ne_nil _ hne
    obtain ⟨heq, -⟩ := (hqueued x _).mp hx
    cases heq
    exact le_rfl
  · intro x hx
    rcases eq_or_ne x 0 with rfl | hx0
    · exact show 128 < kPriorities ∧ 128 < kPriorities by decide
    · have h₀ : 0 < kPriorities := by decide
      exact ⟨(congrArg ThreadRecord.initialPriority (hthread x hx0)).trans_lt h₀,
        (congrArg ThreadRecord.currentPriority (hthread x hx0)).trans_lt h₀⟩

/-- The state the first program starts in. -/
def boot (threadRoot gp entry idleLoop idleStackTop : ℕ) : State :=
  startProgramThread (prepareTables threadRoot) gp entry idleLoop idleStackTop

/-- The first program's thread takes a free record and is put behind the others of its
priority. -/
theorem Linked.startProgramThread {s : State} {L : Lists} (h : Linked s L none)
    (hrun : runnable (s.thread 0)) (hne : s.freeThread ≠ kNone)
    (gp entry idleLoop idleStackTop : ℕ) :
    ∃ L', Scheduled (startProgramThread s gp entry idleLoop idleStackTop) L' ∧
      L'.waiting = L.waiting ∧ L'.freeSema = L.freeSema := by
  have hprio : kBootPriority < kPriorities := by decide
  obtain ⟨hid, hfree⟩ := h.freeThread_mem hne
  have h₁ := (h.registers s.rescheduleRequested s.parkedByInterrupt
    (Function.update s.frame 0 fun k =>
      if k = kSlotSp ∨ k = kSlotFp then sub32 idleStackTop 0x20
      else if k = kSlotRa then idleLoop
      else 0) s.syscallContext s.syscallRestoreFull s.epc).setThread (i := 0)
    (fun t => { t with resumePc := idleLoop, state := .ready })
    (.inr fun p => by
      rcases hrun with hr | hr <;> cases p <;> simp [belongs, runnable, waitsOn, queueOf, hr])
    (.inr (by rcases hrun with hr | hr <;> simp [hr])) fun hid => h.priorities 0 hid
  have h₂ := (h₁.takeFree hne).setThread_out (fun _ =>
    { zeroRecord with
      state := .run
      resumePc := entry
      entry := entry
      gp := gp
      initialPriority := kBootPriority
      currentPriority := kBootPriority }) fun _ => ⟨hprio, hprio⟩
  have h₃ := (h₂.linkReady hid (.inl (by
    rw [setThread_thread]
    exact congrArg ThreadRecord.state (if_pos rfl)))).currentThread hid
  refine ⟨_, ⟨h₃, .inl (.inl ?_)⟩, Lists.append_ready_waiting _ _ _, rfl⟩
  unfold Kernel.startProgramThread
  rw [State.current]
  simp

/-- **The start**: nobody waits, and every semaphore is free. -/
theorem Scheduled.boot (threadRoot gp entry idleLoop idleStackTop : ℕ) :
    ∃ L, Scheduled (boot threadRoot gp entry idleLoop idleStackTop) L ∧
      (∀ m, L.waiting m = []) ∧ ∀ m < kSemaphores,
        ((boot threadRoot gp entry idleLoop idleStackTop).semaphore m).count < 0 := by
  have h := linked_prepareTables threadRoot
  have hmem : 0 ∈ bootLists.queued (.ready kIdleQueue) := by
    unfold bootLists
    simp
  have hne : (prepareTables threadRoot).freeThread ≠ kNone := by
    -- the free list is not empty
    have hchain := h.freeChain
    rw [show bootLists.free = 1 :: List.range' 2 (kThreads - 2) by
      simp only [bootLists]
      rfl] at hchain
    rw [hchain.1]
    exact hchain.2.1
  obtain ⟨L, hs, hw, hf⟩ := h.startProgramThread ((h.mem_iff 0 _).mp hmem).2.2.1 hne gp entry
    idleLoop idleStackTop
  refine ⟨L, hs, fun m => ?_, fun m hm => ?_⟩
  · rw [hw]
    simp [Lists.waiting, bootLists]
  · refine (hs.linked.semaFree m ?_).2
    rw [hf]
    simpa only [bootLists, List.mem_range] using hm

end PS2Bios.Kernel
