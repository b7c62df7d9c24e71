import PS2Bios.Library.Semaphore
import PS2Bios.Threadman.Untouched

/-!
# Who waits for an object, and what it will be told

`Waits kind s L waiting reply` relates THREADMAN's variables to what is known of the objects of one
kind: who waits for each, by its id, and what the others will find when they go on. The caller of a
call is left out until the call is over. A thread that waits will find its answer in `$v0`, and one
that has a reply is ready, and will find the answer there or give it itself (`Owes`).

What makes and deletes objects and takes threads off their lists keeps the relation whatever the
kind, the calls that are no business of the kind leave it alone (`Waits.untouched`), and whoever is
switched to is told what it was given (`Waits.resumed`).
-/

namespace PS2Bios.Threadman

open Intrusive Sched Counting

/-- The frame makes its thread's call answer `v`. -/
def Owes (frame : Option Frame) (v : ℤ) : Prop :=
  frame = some ⟨v, .answer⟩ ∨ ∃ v0, frame = some ⟨v0, .value v⟩

/-- What threads are going to be told. What is handed to a thread answers that all is well. -/
abbrev Replies := ℕ → Option (Counting.Reply UInt32 ℤ)

/-- The waits of one kind of object as the scheduler holds them: who waits on each id, that those
who wait are blocked, and whom an answer is owed. -/
structure Waits (kind : Kind) (s : Sched) (L : Lists) (waiting : UInt32 → List ℕ)
    (reply : Replies) : Prop where
  waiting : ∀ id, waiting id = (lookup kind s.pools id).elim [] fun k => L (.waiters kind k)
  blocked : ∀ t k, t ∈ L (.waiters kind k) → t ≠ s.current →
    ∃ v0, (s.threads t).frame = some ⟨v0, .answer⟩
  told : ∀ t r, reply t = some r → t ≠ s.current ∧ s.Valid t ∧
    (s.threads t).state = .ready ∧ Owes (s.threads t).frame (r.answer fun _ => kOk)

section Lookup

variable {kind : Kind} {p p' : Pools} {id id' : UInt32} {k : ℕ}

/-- An object has one id. -/
theorem lookup_inj (h : lookup kind p id = some k) (h' : lookup kind p id' = some k) :
    id = id' := by
  obtain ⟨-, -, hid⟩ := lookup_eq_some.mp h
  obtain ⟨-, -, hid'⟩ := lookup_eq_some.mp h'
  exact hid.trans hid'.symm

theorem lookup_congr (h : ∀ k, p' kind k = p kind k) (id : UInt32) :
    lookup kind p' id = lookup kind p id := by
  have heq : p' kind = p kind := funext h
  unfold lookup
  rw [heq]

/-- The slot that an id names is the object, if it is one. -/
theorem slotOf_of_lookup (h : lookup kind p id = some k) : slotOf id = k := by
  obtain ⟨hlt, -, hid⟩ := lookup_eq_some.mp h
  exact hid ▸ slotOf_makeId (hlt.trans_le (Kind.slots_le kind)) _

/-- The id of a slot that is taken; the others are what they were. -/
theorem lookup_occupied {g : UInt8} (hk : k < kind.slots) (hfree : (p kind k).inUse = false)
    (id : UInt32) : lookup kind (p.set kind k ⟨true, g⟩) id =
      if id = makeId k g then some k else lookup kind p id := by
  have hself : (p.set kind k ⟨true, g⟩) kind k = ⟨true, g⟩ := by
    rw [Pools.set_apply, if_pos ⟨rfl, rfl⟩]
  split
  · next heq => exact lookup_eq_some.mpr ⟨hk, by rw [hself], by rw [hself, heq]⟩
  · next hne =>
    ext i
    rw [lookup_eq_some, lookup_eq_some]
    rcases eq_or_ne i k with rfl | hi
    · rw [hself, hfree]
      simp [hne]
    · rw [Pools.set_apply, if_neg fun hc => hi hc.2]

/-- A free slot has no id. -/
theorem lookup_of_free {g : UInt8} (hk : k < kind.slots) (hfree : (p kind k).inUse = false) :
    lookup kind p (makeId k g) = none := by
  rw [Option.eq_none_iff_forall_ne_some]
  intro i hi
  have hslot : k = i := by
    rw [← slotOf_makeId (hk.trans_le (Kind.slots_le kind)) g, slotOf_of_lookup hi]
  obtain ⟨-, hin, -⟩ := lookup_eq_some.mp hi
  rw [← hslot, hfree] at hin
  cases hin

/-- The id of a slot that is given up; the others are what they were. -/
theorem lookup_vacated (hfound : lookup kind p id = some k) (id' : UInt32) :
    lookup kind (vacate kind p k) id' = if id' = id then none else lookup kind p id' := by
  obtain ⟨-, -, hid⟩ := lookup_eq_some.mp hfound
  have hself : (vacate kind p k) kind k = { p kind k with inUse := false } := by
    rw [vacate, Pools.set_apply, if_pos ⟨rfl, rfl⟩]
  ext i
  rw [lookup_eq_some]
  rcases eq_or_ne i k with rfl | hi
  · rw [hself]
    split
    · simp
    · next hne => simp [lookup_eq_some, ← hid, hne]
  · have hother : (vacate kind p k) kind i = p kind i := by
      rw [vacate, Pools.set_apply, if_neg fun hc => hi hc.2]
    rw [hother, ← lookup_eq_some]
    split
    · next heq => simp [heq, hfound, hi.symm]
    · rfl

end Lookup

section Waits

variable {P : Permit} {kind : Kind} {s s' : Sched} {L L' : Lists} {waiting : UInt32 → List ℕ}
  {reply : Replies} {interrupt : Bool} {id : UInt32} {k t : ℕ}

/-! ### Threads on lists -/

/-- A thread on a list of waiters waits. -/
theorem Sound.wait_of_mem (hs : Sound s L) {i : ℕ} (ht : t ∈ L (.waiters kind i)) :
    (s.threads t).state = .wait :=
  ((hs.linked.mem_iff t _).mp ht).2.2.1

/-- Who runs is on no list of waiters. -/
theorem Called.not_waiter (h : Called s L interrupt) (kind : Kind) (i : ℕ) :
    s.current ∉ L (.waiters kind i) := fun hmem =>
  h.sound.ne_current h.poised (h.sound.wait_of_mem hmem) rfl

/-- A thread waits on one object. -/
theorem Sound.waits_one (hs : Sound s L) {kind' : Kind} {i : ℕ} (ht : t ∈ L (.waiters kind k))
    (hb : s.belongs t (.waiters kind' i)) : kind' = kind ∧ i = k := by
  have hmem := ((hs.linked.mem_iff t _).mp ht).2.2.2
  exact Prod.mk.inj (Option.some.inj (hb.2.symm.trans hmem))

theorem Sound.nodup (h : Sound s L) (p : Place) : (L p).Nodup := by
  by_cases hp : s.isOn p
  · exact h.linked.nodup hp
  · rw [h.linked.family.off p hp]
    exact List.nodup_nil

/-- A list that has lost nobody. -/
theorem eq_of_sublist {l l' : List ℕ} (h : l'.Sublist l) (hl : l.Nodup) (hall : ∀ t ∈ l, t ∈ l') :
    l' = l :=
  h.eq_of_length_le (hl.subperm hall).length_le

/-- A list whose waiters may not be woken stays what it is. -/
theorem Passes.list_eq (h : Passes P s L s' L') (hs : Called s L interrupt) (kind : Kind) (i : ℕ)
    (hw : ∀ t ∈ L (.waiters kind i), ∀ answer, ¬ P.wakes t answer)
    (hj : ∀ b, ¬ P.joins kind i b) : L' (.waiters kind i) = L (.waiters kind i) := by
  refine eq_of_sublist (h.list kind i hj) (hs.sound.nodup _) fun t ht => ?_
  have hcur : t ≠ s.current := fun heq => hs.not_waiter kind i (heq ▸ ht)
  rcases h.waiter t kind i ht hcur with ⟨ht', -⟩ | ⟨answer, hP, -⟩
  · exact ht'
  · exact absurd hP (hw t ht answer)

/-- A waiter that may not be woken keeps its frame. -/
theorem Passes.frame_eq (h : Passes P s L s' L') {i : ℕ} (ht : t ∈ L (.waiters kind i))
    (hcur : t ≠ s.current) (hw : ∀ answer, ¬ P.wakes t answer) :
    (s'.threads t).frame = (s.threads t).frame := by
  rcases h.waiter t kind i ht hcur with ⟨-, hf⟩ | ⟨answer, hP, -⟩
  · exact hf
  · exact absurd hP (hw answer)

/-- A thread has left the list that it was on. -/
theorem withdraw_waiters (hs : Sound s L) (t : ℕ) (kind : Kind) (i : ℕ) :
    Lists.withdraw s L t (.waiters kind i) = (L (.waiters kind i)).erase t := by
  have hleave : (s.threads t).state = .wait → t ∈ L (.waiters kind i) →
      s.waitObjectOf (s.threads t) = some (kind, i) := fun _ ht =>
    ((hs.linked.mem_iff t _).mp ht).2.2.2
  have hno : (s.threads t).state ≠ .wait → (L (.waiters kind i)).erase t = L (.waiters kind i) :=
    fun hw => List.erase_of_not_mem fun ht => hw (hs.wait_of_mem ht)
  rw [Lists.withdraw]
  split
  · next hr => rw [Lists.remove_apply, if_neg (by simp), hno (by rw [hr]; decide)]
  · split
    · next hw =>
      rw [Lists.leave]
      cases hobject : s.waitObjectOf (s.threads t) with
      | none =>
        refine (List.erase_of_not_mem fun ht => ?_).symm
        cases hobject.symm.trans (hleave hw ht)
      | some object =>
        dsimp only
        rw [Lists.remove_apply]
        split
        · next heq => rw [← heq]
        · next hne =>
          refine (List.erase_of_not_mem fun ht => hne ?_).symm
          obtain rfl := Option.some.inj (hobject.symm.trans (hleave hw ht))
          rfl
    · next hw => rw [hno hw]

/-- The caller of a call that joins no list is on none. -/
theorem Effect.not_joined {c : Service} (h : Effect s L interrupt c s' L')
    (hs : Called s L interrupt) (hc : ∀ b, ¬ (s.permits c).joins kind k b) :
    s.current ∉ L' (.waiters kind k) := by
  have hno := hs.not_waiter kind k
  cases h with
  | moves hm => exact fun hmem => hno ((hm.passes.list kind k hc).subset hmem)
  | terminates _ _ _ _ =>
    rw [withdraw_waiters hs.sound]
    exact fun hmem => hno (List.mem_of_mem_erase hmem)
  | reranks _ _ _ hre =>
    rw [hre.reranks.waiters]
    exact hno
  | rotates hr _ =>
    rw [hr.waiters]
    exact hno

/-! ### What the relation says -/

theorem Waits.silent (h : Waits kind s L waiting reply) : reply s.current = none := by
  cases hr : reply s.current with
  | none => rfl
  | some r => exact absurd rfl (h.told _ r hr).1

theorem Waits.waiting_some (h : Waits kind s L waiting reply)
    (hfound : lookup kind s.pools id = some k) : waiting id = L (.waiters kind k) := by
  rw [h.waiting, hfound]
  rfl

/-- Who waits on an id waits at a place of the kind. -/
theorem Waits.waits_iff (h : Waits kind s L waiting reply) (hs : Sound s L) (t : ℕ) :
    (∃ id, t ∈ waiting id) ↔ ∃ k, t ∈ L (.waiters kind k) := by
  constructor
  · rintro ⟨id, ht⟩
    rw [h.waiting] at ht
    cases hfound : lookup kind s.pools id with
    | none =>
      rw [hfound] at ht
      exact absurd ht List.not_mem_nil
    | some k =>
      rw [hfound] at ht
      exact ⟨k, ht⟩
  · rintro ⟨k, ht⟩
    obtain ⟨-, hlt, hin⟩ := hs.linked.family.on_of_mem ht
    have hfound : lookup kind s.pools (makeId k (s.pools kind k).generation) = some k :=
      lookup_eq_some.mpr ⟨hlt, hin, rfl⟩
    exact ⟨_, (h.waiting_some hfound).symm ▸ ht⟩

/-- A thread that is ready or runs waits for nothing. -/
theorem Waits.not_waits (h : Waits kind s L waiting reply) (hs : Sound s L)
    (hstate : (s.threads t).state ≠ .wait) : ¬ ∃ id, t ∈ waiting id := fun hw => by
  obtain ⟨k, hk⟩ := (h.waits_iff hs t).mp hw
  exact hstate (hs.wait_of_mem hk)

/-- A waiter is on the list of one id. -/
theorem Waits.not_mem_of_ne (h : Waits kind s L waiting reply) (hs : Sound s L)
    (hfound : lookup kind s.pools id = some k) (ht : t ∈ L (.waiters kind k)) {id' : UInt32}
    (hne : id' ≠ id) : t ∉ waiting id' := by
  intro hmem
  rw [h.waiting] at hmem
  cases hid : lookup kind s.pools id' with
  | none =>
    rw [hid] at hmem
    exact absurd hmem List.not_mem_nil
  | some i =>
    rw [hid] at hmem
    obtain ⟨-, rfl⟩ := hs.waits_one hmem ((hs.linked.mem_iff t _).mp ht).2.2
    exact hne (lookup_inj hid hfound)

/-- Handing a signal to the first waiter takes it off the one list it is on. -/
theorem Waits.signal_cons {base : Counting.Semas ℕ UInt32 ℤ}
    (h : Waits kind s L base.waiting base.reply) (hs : Sound s L)
    (hfound : lookup kind s.pools id = some k) {l : List ℕ} (hl : L (.waiters kind k) = t :: l)
    (raise : ℤ → ℤ) (n : ℤ) :
    base.signal raise id n = (base.leave t).setReply t (some (.handed id)) := by
  have hwaiting : base.waiting id = t :: l := (h.waiting_some hfound).trans hl
  have hleave : Function.update base.waiting id l = fun id' => (base.waiting id').erase t := by
    funext id'
    rw [Function.update_apply]
    split
    · next heq => rw [heq, hwaiting, List.erase_cons_head]
    · next hne =>
      exact (List.erase_of_not_mem
        (h.not_mem_of_ne hs hfound (hl ▸ List.mem_cons_self) hne)).symm
  rw [Counting.Semas.signal, hwaiting]
  dsimp only
  rw [hleave]
  rfl

/-- What is written is no matter of the lists. -/
theorem Waits.quiet (h : Waits kind s L waiting reply) (hq : Quiet s s') :
    Waits kind s' L waiting reply := by
  refine ⟨fun id => ?_, fun t k ht hcur => ?_, fun t r hr => ?_⟩
  · rw [hq.pools]
    exact h.waiting id
  · rw [hq.current] at hcur
    rw [hq.frame]
    exact h.blocked t k ht hcur
  · rw [hq.current, hq.valid, hq.state, hq.frame]
    exact h.told t r hr

/-- Replies of threads that are ready still. -/
theorem Waits.told_of_passes (h : Waits kind s L waiting reply) (hp : Passes P s L s' L')
    {r : Counting.Reply UInt32 ℤ} (hr : reply t = some r) : t ≠ s'.current ∧ s'.Valid t ∧
      (s'.threads t).state = .ready ∧ Owes (s'.threads t).frame (r.answer fun _ => kOk) := by
  obtain ⟨hcur, hv, hstate, howes⟩ := h.told t r hr
  obtain ⟨hv', hstate', hf⟩ := hp.ready t hv hstate hcur
  exact ⟨by rwa [hp.current], hv', hstate', by rwa [hf]⟩

/-- Nothing of a kind is touched: its lists are what they were, and its slots. -/
structure Untouched (kind : Kind) (s : Sched) (L : Lists) (s' : Sched) (L' : Lists) : Prop where
  list : ∀ k, L' (.waiters kind k) = L (.waiters kind k)
  found : ∀ id, lookup kind s'.pools id = lookup kind s.pools id

/-- **A call that is no business of the kind.** -/
theorem Waits.untouched (h : Waits kind s L waiting reply) (hs : Called s L interrupt)
    (hkind : kind ≠ .thread) (hp : Passes P s L s' L')
    (hw : ∀ k, ∀ t ∈ L (.waiters kind k), ∀ answer, ¬ P.wakes t answer)
    (hj : ∀ k b, ¬ P.joins kind k b) (hr : ∀ k, ¬ P.remakes kind k) :
    Waits kind s' L' waiting reply ∧ Untouched kind s L s' L' := by
  have hlist : ∀ k, L' (.waiters kind k) = L (.waiters kind k) := fun k =>
    hp.list_eq hs kind k (hw k) (hj k)
  have hfound : ∀ id, lookup kind s'.pools id = lookup kind s.pools id :=
    lookup_congr fun k => hp.slot kind k hkind (hr k)
  refine ⟨⟨fun id => ?_, fun t k ht hcur => ?_, fun t r ht => h.told_of_passes hp ht⟩,
    hlist, hfound⟩
  · rw [h.waiting, hfound]
    simp only [hlist]
  · rw [hlist] at ht
    rw [hp.current] at hcur
    rw [hp.frame_eq ht hcur (hw k t ht)]
    exact h.blocked t k ht hcur

/-! ### Waiters that leave -/

/-- The one thread that a call wakes. -/
def wakesOnly (t : ℕ) (answer : ℤ) : Permit where
  wakes j v := j = t ∧ v = answer
  joins _ _ _ := False
  remakes _ _ := False

theorem Decides.passes {answer : ℤ} (hs : Called s L interrupt) (hv : s.Valid t)
    (hw : (s.threads t).state = .wait)
    (hd : Decides (s.woken t answer) (Lists.wake s L t) t interrupt s' L') :
    Passes (wakesOnly t answer) s L s' L' :=
  (Move.wake (P := wakesOnly t answer) answer hv hw ⟨rfl, rfl⟩ hd).passes hs.sound

/-- A thread that is woken leaves the list it waited in, and nobody else does. -/
theorem Decides.list_eq {answer : ℤ} (hs : Sound s L)
    (hd : Decides (s.woken t answer) (Lists.wake s L t) t interrupt s' L') (kind : Kind) (i : ℕ) :
    L' (.waiters kind i) = (L (.waiters kind i)).erase t := by
  rw [hd.waiters, wake_waiters_eq]
  split
  · rfl
  · next hno =>
    refine (List.erase_of_not_mem fun hmem => hno ?_).symm
    exact ((hs.linked.mem_iff t _).mp hmem).2.2.2

/-- **A waiter is woken**: it has left its list, and the answer is its reply. -/
theorem Waits.wake (h : Waits kind s L waiting reply) (hs : Called s L interrupt)
    (ht : t ∈ L (.waiters kind k)) (r : Counting.Reply UInt32 ℤ)
    (hd : Decides (s.woken t (r.answer fun _ => kOk)) (Lists.wake s L t) t interrupt s' L') :
    Waits kind s' L' (fun id => (waiting id).erase t) (Function.update reply t (some r)) := by
  obtain ⟨-, hv, hw, hobject⟩ := (hs.sound.linked.mem_iff t _).mp ht
  have hcur : t ≠ s.current := hs.sound.ne_current hs.poised hw
  have hp := hd.passes hs hv hw
  have hsame : Same s s' := (same_woken s t _).trans hd.same
  have hlist := hd.list_eq hs.sound kind
  refine ⟨fun id => ?_, fun j i hj hne => ?_, fun j x hx => ?_⟩
  · simp only [h.waiting, hsame.pools]
    cases lookup kind s.pools id with
    | none => rfl
    | some i => exact (hlist i).symm
  · rw [hlist, (hs.sound.nodup _).mem_erase_iff] at hj
    rw [hp.current] at hne
    rw [hp.frame_eq hj.2 hne fun _ hP => hj.1 hP.1]
    exact h.blocked j i hj.2 hne
  · rw [Function.update_apply] at hx
    split at hx
    · next hj =>
      obtain rfl := Option.some.inj hx
      subst hj
      rcases hp.waiter j _ _ ht hcur with ⟨hmem, -⟩ | ⟨v, ⟨-, rfl⟩, hv', hstate, hf⟩
      · rw [hlist] at hmem
        exact absurd hmem (hs.sound.nodup _).not_mem_erase
      · obtain ⟨v0, hv0⟩ := h.blocked j k ht hcur
        exact ⟨by rwa [hp.current], hv', hstate, .inl (by rw [hf, hv0]; rfl)⟩
    · exact h.told_of_passes hp hx

/-- **A thread that waits for something else is woken.** -/
theorem Waits.wake_other (h : Waits kind s L waiting reply) (hs : Called s L interrupt)
    (hkind : kind ≠ .thread) {answer : ℤ} (hv : s.Valid t) (hw : (s.threads t).state = .wait)
    (hno : ∀ k, t ∉ L (.waiters kind k))
    (hd : Decides (s.woken t answer) (Lists.wake s L t) t interrupt s' L') :
    Waits kind s' L' waiting reply ∧ Untouched kind s L s' L' :=
  h.untouched hs hkind (hd.passes hs hv hw)
    (fun k _ hj _ hP => hno k (hP.1 ▸ hj)) (fun _ _ hj => hj) (fun _ hr => hr)

/-- **A thread is terminated**: it waits no more, and is told nothing. -/
theorem Waits.terminated (h : Waits kind s L waiting reply) (hs : Called s L interrupt) (t : ℕ) :
    Waits kind ((s.withdraw t).setThread t fun r => { r with state := .dormant })
      (Lists.withdraw s L t) (fun id => (waiting id).erase t) (Function.update reply t none) := by
  have hsame : Same s ((s.withdraw t).setThread t fun r => { r with state := .dormant }) :=
    (same_withdraw s t).trans (same_setThread _ t _)
  have hthreads : ∀ j, j ≠ t → ((s.withdraw t).setThread t fun r =>
      { r with state := .dormant }).threads j = s.threads j := fun j hj => by
    rw [setThread_ne _ _ _ hj, withdraw_threads s t j hj]
  have hcurrent : ((s.withdraw t).setThread t fun r => { r with state := .dormant }).current =
      s.current := withdraw_current s t
  have hlist := fun i => withdraw_waiters hs.sound t kind i
  refine ⟨fun id => ?_, fun j i hj hne => ?_, fun j r hr => ?_⟩
  · simp only [h.waiting, hsame.pools]
    cases lookup kind s.pools id with
    | none => rfl
    | some i => exact (hlist i).symm
  · rw [hlist, (hs.sound.nodup _).mem_erase_iff] at hj
    rw [hthreads j hj.1]
    exact h.blocked j i hj.2 (hcurrent ▸ hne)
  · rw [Function.update_apply] at hr
    split at hr
    · cases hr
    · next hj =>
      obtain ⟨hne, hv, hstate, howes⟩ := h.told j r hr
      rw [hthreads j hj, hcurrent]
      exact ⟨hne, hsame.valid.mpr hv, hstate, howes⟩

/-! ### Objects made and deleted -/

/-- A creation is refused and changes nothing, or takes a free slot. -/
theorem create_cases (interrupt : Bool) (kind : Kind) (mask : UInt32) (attr : UInt32) (p : Pools) :
    (∃ code < 0, create kind mask interrupt attr p = (.error code, p)) ∨
      ∃ k < kind.slots, (p kind k).inUse = false ∧
        create kind mask interrupt attr p = occupy kind p k := by
  rw [create]
  split
  · exact .inl ⟨_, by decide, rfl⟩
  · split
    · exact .inl ⟨_, by decide, rfl⟩
    · split
      · exact .inl ⟨_, by decide, rfl⟩
      · next k hk => exact .inr ⟨k, (freeSlot_eq_some hk).1, (freeSlot_eq_some hk).2, rfl⟩

/-- What the delete calls answer and write. -/
theorem deleteObject_cases {unknown : ℤ} {r : Sched × Reply}
    (h : s.deleteObject interrupt kind unknown id = some r) :
    (interrupt = true ∧ r = (s, .returns kIllegalContext)) ∨
      (interrupt = false ∧ lookup kind s.pools id = none ∧ r = (s, .returns unknown)) ∨
      interrupt = false ∧ ∃ k, lookup kind s.pools id = some k ∧ ∃ s', Same s s' ∧
        r = ({ s' with pools := vacate kind s'.pools k }, .returns kOk) := by
  rw [Sched.deleteObject] at h
  cases interrupt with
  | true => exact .inl ⟨rfl, (Option.some.inj h).symm⟩
  | false =>
    rw [if_neg Bool.false_ne_true] at h
    cases hfound : lookup kind s.pools id with
    | none =>
      rw [hfound] at h
      exact .inr (.inl ⟨rfl, rfl, (Option.some.inj h).symm⟩)
    | some k =>
      rw [hfound] at h
      obtain ⟨s', hall, rfl⟩ := Option.map_eq_some_iff.mp h
      exact .inr (.inr ⟨rfl, k, rfl, s', same_wakeAll hall, rfl⟩)

/-- **An object is made.** -/
theorem Waits.made (h : Waits kind s L waiting reply) (hs : Called s L interrupt)
    {g : UInt8} (hp : Passes P s L s' L') (hw : ∀ t answer, ¬ P.wakes t answer)
    (hj : ∀ k b, ¬ P.joins kind k b) (hk : k < kind.slots) (hfree : (s.pools kind k).inUse = false)
    (hpools : s'.pools = s.pools.set kind k ⟨true, g⟩) : Waits kind s' L' waiting reply := by
  have hlist : ∀ i, L' (.waiters kind i) = L (.waiters kind i) := fun i =>
    hp.list_eq hs kind i (fun t _ => hw t) (hj i)
  refine ⟨fun id => ?_, fun t i ht hcur => ?_, fun t r ht => h.told_of_passes hp ht⟩
  · rw [h.waiting, hpools, lookup_occupied hk hfree]
    simp only [hlist]
    split
    · next heq =>
      rw [heq, lookup_of_free hk hfree]
      refine (hs.sound.linked.family.off _ fun hon => ?_).symm
      exact Bool.false_ne_true (hfree.symm.trans hon.2.2)
    · rfl
  · rw [hlist] at ht
    rw [hp.current] at hcur
    rw [hp.frame_eq ht hcur (hw t)]
    exact h.blocked t i ht hcur

/-- **An object is deleted**, and its waits are called off. -/
theorem Waits.deleted (h : Waits kind s L waiting reply) (hs : Called s L interrupt)
    (hsound : Sound s' L') (hp : Passes P s L s' L')
    (hw : ∀ t answer, P.wakes t answer → s.belongs t (.waiters kind k) ∧ answer = kWaitDelete)
    (hj : ∀ k b, ¬ P.joins kind k b) (hk : lookup kind s.pools id = some k)
    (hpools : s'.pools = vacate kind s.pools k) :
    Waits kind s' L' (Function.update waiting id [])
      (fun t => if t ∈ waiting id then some (.cancelled kWaitDelete) else reply t) := by
  -- the id is no object's any more, and everybody has left its list
  have hfound : ∀ id', lookup kind s'.pools id' =
      if id' = id then none else lookup kind s.pools id' := fun id' => by
    rw [hpools]
    exact lookup_vacated hk id'
  have hspares : ∀ i, i ≠ k → ∀ t ∈ L (.waiters kind i), ∀ answer, ¬ P.wakes t answer :=
    fun i hne t ht answer hP => hne (hs.sound.waits_one ht (hw t answer hP).1).2.symm
  have hlist : ∀ i, L' (.waiters kind i) = if i = k then [] else L (.waiters kind i) := fun i => by
    split
    · next heq =>
      refine hsound.linked.family.off _ fun hon => ?_
      have hin := hon.2.2
      rw [heq, hpools, vacate, Pools.set_apply, if_pos ⟨rfl, rfl⟩] at hin
      cases hin
    · next hne => exact hp.list_eq hs kind i (hspares i hne) (hj i)
  refine ⟨fun id' => ?_, fun t i ht hcur => ?_, fun t r hr => ?_⟩
  · simp only [hfound, h.waiting, hlist, Function.update_apply]
    split
    · rfl
    · next hne =>
      cases hid : lookup kind s.pools id' with
      | none => rfl
      | some i =>
        have hik : i ≠ k := by
          rintro rfl
          exact hne (lookup_inj hid hk)
        simp [hik]
  · rw [hlist] at ht
    split at ht
    · cases ht
    · next hne =>
      rw [hp.current] at hcur
      rw [hp.frame_eq ht hcur (hspares i hne t ht)]
      exact h.blocked t i ht hcur
  -- who waited there has been woken with the answer of a deletion
  · split at hr
    · next ht =>
      obtain rfl := Option.some.inj hr
      rw [h.waiting_some hk] at ht
      have hcur : t ≠ s.current := fun heq => hs.not_waiter _ _ (heq ▸ ht)
      rcases hp.waiter t _ _ ht hcur with ⟨ht', -⟩ | ⟨answer, hP, hv, hstate, hf⟩
      · rw [hlist, if_pos rfl] at ht'
        cases ht'
      · obtain ⟨-, rfl⟩ := hw t answer hP
        obtain ⟨v0, hv0⟩ := h.blocked t k ht hcur
        exact ⟨by rwa [hp.current], hv, hstate, .inl (by rw [hf, hv0]; rfl)⟩
    · exact h.told_of_passes hp hr

/-! ### The wait -/

/-- What the caller of a call will be told, when it goes on. -/
structure Due (kind : Kind) (s : Sched) (L : Lists) (answer : Reply)
    (r : Option (Counting.Reply UInt32 ℤ)) : Prop where
  waits : ∀ k, s.current ∈ L (.waiters kind k) → answer = .traps .answer
  told : ∀ x, r = some x → answer = .returns (x.answer fun _ => kOk) ∨
    answer = .traps (.value (x.answer fun _ => kOk)) ∧ (s.threads s.current).state = .ready

/-- **The caller of a wait is put on the list.** -/
theorem Waits.enlisted (h : Waits kind s L waiting reply) (hs : Called s L false)
    (hready : s.MayStop) {waitType : WaitType} (hkind : waitType.kind = some kind)
    (hfound : lookup kind s.pools id = some k) {b : Bool} {r : Sched × Reply}
    (hr : s.blockOn kind waitType k id b = some r) (hsound : Sound r.1 L') :
    ∃ l₁ l₂, L (.waiters kind k) = l₁ ++ l₂ ∧ (b = false → l₂ = []) ∧
      Waits kind r.1 L' (Function.update waiting id (l₁ ++ s.current :: l₂)) reply ∧
      Due kind r.1 L' r.2 none ∧ Same s r.1 := by
  let P : Permit := ⟨fun _ _ => False, fun kind' i b' => kind' = kind ∧ i = k ∧ b' = b,
    fun _ _ => False⟩
  obtain ⟨s', L'', l₁, l₂, hblock, hout, hjoins, hlists⟩ :=
    hs.blockOn (P := P) waitType hready hkind hfound ⟨rfl, rfl, rfl⟩
  obtain rfl := Option.some.inj (hr.symm.trans hblock)
  obtain rfl := hsound.unique hout.effect.sound
  have hsame : Same s s' := same_blockOn hblock
  have hp := hout.effect.passes
  have hlist : ∀ i, L' (.waiters kind i) =
      if i = k then l₁ ++ s.current :: l₂ else L (.waiters kind i) := fun i => by
    rw [hlists]
    simp
  refine ⟨l₁, l₂, hjoins.eq, ?_, ⟨fun id' => ?_, fun t i ht hcur => ?_,
    fun t x hx => h.told_of_passes hp hx⟩, ⟨fun _ _ => rfl, nofun⟩, hsame⟩
  · rintro rfl
    exact hjoins.2
  · simp only [hsame.pools, h.waiting, Function.update_apply]
    split
    · next heq => simp [heq, hfound, hlist]
    · next hne =>
      cases hid : lookup kind s.pools id' with
      | none => rfl
      | some i =>
        have hik : i ≠ k := by
          rintro rfl
          exact hne (lookup_inj hid hfound)
        simp [hlist, hik]
  · rw [hp.current] at hcur
    have hmem : t ∈ L (.waiters kind i) := by
      rw [hlist] at ht
      split at ht
      · next heq =>
        rw [heq, hjoins.eq]
        simpa [hcur] using ht
      · exact ht
    rw [hp.frame_eq hmem hcur fun _ hP => hP]
    exact h.blocked t i hmem hcur

end Waits

end PS2Bios.Threadman
