import Mathlib.Data.List.Basic
import Mathlib.Data.List.Nodup
import Mathlib.Logic.Function.Iterate

/-!
# Circular lists

A circular list is threaded through its nodes by one link: `Ring next l` says that following
`next` from each node of `l` leads to the following one, and from the last to the first. It is
the same ring from wherever one starts (`Ring.rotate`), and every node has one predecessor
(`Ring.next_inj`).

The loops over such a list stop at the first node that passes a test. `walk` is that loop, and
`Ring.walk` says that it ends: started anywhere on the ring, it finds a node that passes, if
there is one, in no more steps than the ring has nodes.
-/

namespace PS2Bios

namespace Intrusive

universe u

variable {α : Type u} {next : α → α} {l m : List α} {x y e : α}

/-- Following `next` leads through `l`, in order, and then to `e`. -/
def Leads (next : α → α) : List α → α → Prop
  | [], _ => True
  | x :: xs, e => next x = xs.headD e ∧ Leads next xs e

@[simp] theorem leads_nil : Leads next [] e := trivial

@[simp] theorem leads_cons {xs : List α} :
    Leads next (x :: xs) e ↔ next x = xs.headD e ∧ Leads next xs e := Iff.rfl

/-- Links lead through two lists when they lead through one to the head of the other. -/
theorem leads_append : Leads next (l ++ m) e ↔ Leads next l (m.headD e) ∧ Leads next m e := by
  induction l with
  | nil => simp
  | cons x xs ih =>
    rw [List.cons_append, leads_cons, leads_cons, ih, and_assoc]
    refine and_congr_left fun _ => ?_
    cases xs <;> rfl

/-- Only the links of the list's own nodes matter. -/
theorem Leads.congr {f : α → α} (h : Leads next l e) (hf : ∀ x ∈ l, f x = next x) :
    Leads f l e := by
  induction l with
  | nil => exact trivial
  | cons x xs ih =>
    obtain ⟨hx, hxs⟩ := h
    exact ⟨(hf x List.mem_cons_self).trans hx, ih hxs fun y hy => hf y (List.mem_cons_of_mem x hy)⟩

/-- Give the node `x` another rest of the list to lead to. -/
theorem Leads.relink [DecidableEq α] (h : Leads next (l ++ [x]) y) (hm : Leads next m e)
    (hl : x ∉ l) (hxm : x ∉ m) : Leads (Function.update next x (m.headD e)) (l ++ x :: m) e := by
  have hkeep : ∀ z, z ≠ x → Function.update next x (m.headD e) z = next z :=
    fun z hz => Function.update_of_ne hz _ _
  refine leads_append.mpr ⟨?_, Function.update_self x _ next, ?_⟩
  · exact (leads_append.mp h).1.congr fun z hz => hkeep z (ne_of_mem_of_not_mem hz hl)
  · exact hm.congr fun z hz => hkeep z (ne_of_mem_of_not_mem hz hxm)

/-- The node that leads out of the list is the last one. -/
theorem Leads.eq_getLast (h : Leads next l e) (he : e ∉ l.tail) (hy : y ∈ l) (hn : next y = e) :
    y = l.getLast (List.ne_nil_of_mem hy) := by
  induction l with
  | nil => exact absurd hy List.not_mem_nil
  | cons x xs ih =>
    obtain ⟨hx, hxs⟩ := h
    rw [List.tail_cons] at he
    cases xs with
    | nil => exact List.mem_singleton.mp hy
    | cons z zs =>
      have hyz : y ∈ z :: zs := by
        refine (List.mem_cons.mp hy).resolve_left ?_
        rintro rfl
        rw [hn] at hx
        exact he (by rw [hx]; exact List.mem_cons_self)
      rw [List.getLast_cons (List.cons_ne_nil z zs)]
      exact ih hxs (fun hm => he (List.mem_cons_of_mem z hm)) hyz

/-- Following `next` leads round `l`. -/
structure Ring (next : α → α) (l : List α) : Prop where
  nodup : l.Nodup
  leads : ∀ x xs, l = x :: xs → Leads next l x

/-- The ring from one of its nodes on. -/
theorem Ring.rotate (h : Ring next (l ++ x :: m)) : Ring next (x :: m ++ l) where
  nodup := List.nodup_append_comm.mp h.nodup
  leads := by
    rintro y ys ⟨⟩
    cases l with
    | nil =>
      rw [List.append_nil]
      exact h.leads x m rfl
    | cons z zs =>
      obtain ⟨h₁, h₂⟩ := leads_append.mp (h.leads z _ rfl)
      exact leads_append.mpr ⟨h₂, h₁⟩

/-- On a ring every node has one predecessor. -/
theorem Ring.next_inj (h : Ring next l) (hx : x ∈ l) (hy : y ∈ l) (hn : next x = next y)
    (hz : next x ∈ l) : x = y := by
  obtain ⟨l₁, l₂, hl⟩ := List.append_of_mem hz
  have hr := (hl ▸ h).rotate
  have hleads := hr.leads _ _ rfl
  have hmem : ∀ z, z ∈ l → z ∈ next x :: l₂ ++ l₁ := by
    intro z hz
    rw [hl] at hz
    simp only [List.cons_append, List.mem_cons, List.mem_append] at hz ⊢
    tauto
  have hout : next x ∉ (next x :: l₂ ++ l₁).tail := by
    rw [List.cons_append, List.tail_cons]
    exact (List.nodup_cons.mp hr.nodup).1
  rw [hleads.eq_getLast hout (hmem x hx) rfl, hleads.eq_getLast hout (hmem y hy) hn.symm]

/-- The way round a ring, from its first node. -/
theorem ring_cons : Ring next (x :: l) ↔ (x :: l).Nodup ∧ Leads next (x :: l) x := by
  constructor
  · exact fun h => ⟨h.nodup, h.leads x l rfl⟩
  · rintro ⟨hn, hl⟩
    exact ⟨hn, by rintro y ys ⟨⟩; exact hl⟩

/-- Every node of a ring leads to a node of it. -/
theorem Ring.next_mem (h : Ring next l) (hx : x ∈ l) : next x ∈ l := by
  obtain ⟨l₁, l₂, rfl⟩ := List.append_of_mem hx
  have hn : next x = (l₂ ++ l₁).headD x := (h.rotate.leads x (l₂ ++ l₁) rfl).1
  rw [hn]
  cases hr : l₂ ++ l₁ with
  | nil => exact hx
  | cons y ys =>
    have hy : y ∈ l₂ ++ l₁ := hr ▸ List.mem_cons_self
    rw [List.headD_cons]
    simp only [List.mem_append, List.mem_cons] at hy ⊢
    tauto

/-- Every node of a ring is led to by one of it. -/
theorem Ring.exists_prev (h : Ring next l) (hx : x ∈ l) : ∃ y ∈ l, next y = x := by
  obtain ⟨l₁, l₂, rfl⟩ := List.append_of_mem hx
  have hl := h.rotate.leads x (l₂ ++ l₁) rfl
  obtain hnil | ⟨ys, y, hy⟩ := List.eq_nil_or_concat (x :: l₂ ++ l₁)
  · exact absurd hnil (List.cons_ne_nil _ _)
  · rw [List.concat_eq_append] at hy
    rw [hy] at hl
    have hmem : y ∈ x :: l₂ ++ l₁ := hy ▸ List.mem_append_right ys List.mem_cons_self
    refine ⟨y, ?_, (leads_append.mp hl).2.1⟩
    simp only [List.cons_append, List.mem_cons, List.mem_append] at hmem ⊢
    tauto

/-- A ring is not left by following it. -/
theorem Ring.iterate_mem (h : Ring next l) (hx : x ∈ l) (n : ℕ) : next^[n] x ∈ l := by
  induction n generalizing x with
  | zero => exact hx
  | succ n ih =>
    rw [Function.iterate_succ_apply]
    exact ih (h.next_mem hx)

/-- Each member is reached from the first in some number of steps. -/
theorem Leads.exists_iterate (h : Leads next (x :: l) e) (hy : y ∈ x :: l) :
    ∃ n, next^[n] x = y := by
  induction l generalizing x with
  | nil => exact ⟨0, (List.mem_singleton.mp hy).symm⟩
  | cons z zs ih =>
    obtain ⟨hx, hz⟩ := h
    rcases List.mem_cons.mp hy with rfl | hy
    · exact ⟨0, rfl⟩
    · obtain ⟨n, hn⟩ := ih hz hy
      refine ⟨n + 1, ?_⟩
      rw [Function.iterate_succ_apply, hx]
      exact hn

/-- From any of its nodes a ring leads to every other. -/
theorem Ring.exists_iterate (h : Ring next l) (hx : x ∈ l) (hy : y ∈ l) :
    ∃ n, next^[n] x = y := by
  obtain ⟨l₁, l₂, rfl⟩ := List.append_of_mem hx
  have hmem : y ∈ x :: (l₂ ++ l₁) := by
    simp only [List.mem_append, List.mem_cons] at hy ⊢
    tauto
  exact (h.rotate.leads x (l₂ ++ l₁) rfl).exists_iterate hmem

/-- Follow `next` to the first node that passes the test, at most `n` nodes on. -/
def walk (next : α → α) (g : α → Bool) : ℕ → α → Option α
  | 0, _ => none
  | n + 1, x => if g x then some x else walk next g n (next x)

/-- A walk stops at a member that its test accepts, if there is one and turns enough. -/
theorem Leads.walk {g : α → Bool} {n : ℕ} (h : Leads next (x :: l) e)
    (hy : ∃ y ∈ x :: l, g y = true) (hn : (x :: l).length ≤ n) :
    ∃ y ∈ x :: l, g y = true ∧ walk next g n x = some y := by
  induction l generalizing x n with
  | nil =>
    obtain ⟨y, hm, ht⟩ := hy
    obtain rfl := List.mem_singleton.mp hm
    obtain ⟨n, rfl⟩ : ∃ k, n = k + 1 := ⟨n - 1, by rw [List.length_singleton] at hn; omega⟩
    exact ⟨y, hm, ht, if_pos ht⟩
  | cons z zs ih =>
    obtain ⟨hx, hz⟩ := h
    obtain ⟨n, rfl⟩ : ∃ k, n = k + 1 := ⟨n - 1, by rw [List.length_cons] at hn; omega⟩
    by_cases ht : g x = true
    · exact ⟨x, List.mem_cons_self, ht, if_pos ht⟩
    · obtain ⟨y, hm, hty⟩ := hy
      have hmz : y ∈ z :: zs := by
        refine (List.mem_cons.mp hm).resolve_left ?_
        rintro rfl
        exact ht hty
      obtain ⟨w, hw, htw, hwalk⟩ := ih (n := n) hz ⟨y, hmz, hty⟩ (by
        rw [List.length_cons] at hn
        omega)
      refine ⟨w, List.mem_cons_of_mem x hw, htw, ?_⟩
      rw [Intrusive.walk, if_neg ht, hx]
      exact hwalk

/-- **A walk round a ring ends** at a node that passes the test, if there is one. -/
theorem Ring.walk {g : α → Bool} {n : ℕ} (h : Ring next l) (hx : x ∈ l)
    (hy : ∃ y ∈ l, g y = true) (hn : l.length ≤ n) :
    ∃ y ∈ l, g y = true ∧ walk next g n x = some y := by
  obtain ⟨l₁, l₂, rfl⟩ := List.append_of_mem hx
  have hmem : ∀ z, z ∈ l₁ ++ x :: l₂ ↔ z ∈ x :: (l₂ ++ l₁) := by
    intro z
    simp only [List.mem_append, List.mem_cons]
    tauto
  have hleads := h.rotate.leads x (l₂ ++ l₁) rfl
  obtain ⟨y, hm, ht⟩ := hy
  have hlen : (x :: (l₂ ++ l₁)).length ≤ n := by
    simp only [List.length_append, List.length_cons] at hn ⊢
    omega
  obtain ⟨w, hw, htw, hwalk⟩ := Leads.walk hleads ⟨y, (hmem y).mp hm, ht⟩ hlen
  exact ⟨w, (hmem w).mpr hw, htw, hwalk⟩

/-! ### Nodes put on a ring and taken off it -/

/-- Only the links of the ring's own nodes matter. -/
theorem Ring.congr {f : α → α} (h : Ring next l) (hf : ∀ x ∈ l, f x = next x) : Ring f l where
  nodup := h.nodup
  leads x xs hl := (h.leads x xs hl).congr hf

theorem Ring.append_comm (h : Ring next (l ++ m)) : Ring next (m ++ l) := by
  cases m with
  | nil => simpa using h
  | cons x m => exact h.rotate

/-- The last node leads to the first. -/
theorem Ring.next_last (h : Ring next (l ++ [x])) : next x = (l ++ [x]).headD x := by
  cases l with
  | nil => exact (h.leads x [] rfl).1
  | cons y ys => exact (leads_append.mp (h.leads y (ys ++ [x]) rfl)).2.1

/-- **A node is put behind the last.** -/
theorem Ring.concat [DecidableEq α] (h : Ring next (l ++ [x])) (hy : y ∉ l ++ [x]) :
    Ring (Function.update (Function.update next y (next x)) x y) (l ++ [x] ++ [y]) := by
  have hnodup := h.nodup
  have hxl : x ∉ l := fun hx => List.nodup_append.mp hnodup |>.2.2 x hx x (by simp) rfl
  have hyx : y ≠ x := by
    rintro rfl
    exact hy (by simp)
  refine ⟨List.nodup_append.mpr ⟨hnodup, List.nodup_singleton y, ?_⟩, fun z zs hz => ?_⟩
  · rintro a ha b hb rfl
    rw [List.mem_singleton.mp hb] at ha
    exact hy ha
  · -- the way to the last node is the old one, which leads out to the new node, and that one back
    have hfirst : next x = z := by
      rw [h.next_last]
      cases l with
      | nil => exact (List.cons.inj hz).1
      | cons a as => exact (List.cons.inj hz).1
    have hkeep : Leads (Function.update next y (next x)) (l ++ [x]) z := by
      have hl : Leads next (l ++ [x]) z := by
        cases l with
        | nil => exact ⟨hfirst, trivial⟩
        | cons a as =>
          obtain rfl : a = z := (List.cons.inj hz).1
          exact h.leads a (as ++ [x]) rfl
      exact hl.congr fun w hw => Function.update_of_ne (ne_of_mem_of_not_mem hw hy) _ _
    have hnew : Leads (Function.update next y (next x)) [y] z :=
      ⟨by rw [Function.update_self, hfirst]; rfl, trivial⟩
    rw [List.append_assoc]
    exact hkeep.relink hnew hxl (by simpa using hyx.symm)

/-- **A node is put between two others**, behind `x`. -/
theorem Ring.insert [DecidableEq α] (h : Ring next (l ++ m)) (hx : (m ++ l).getLast? = some x)
    (hy : y ∉ l ++ m) :
    Ring (Function.update (Function.update next y (next x)) x y) (l ++ y :: m) := by
  obtain ⟨r, hr⟩ := List.getLast?_eq_some_iff.mp hx
  have hring := h.append_comm
  have hy' : y ∉ m ++ l := by simpa [or_comm] using hy
  rw [hr] at hring hy'
  have hcycle := hring.concat hy'
  rw [← hr, List.append_assoc] at hcycle
  simpa using hcycle.append_comm

/-- **The first node is taken off.** -/
theorem Ring.uncons [DecidableEq α] (h : Ring next (y :: (l ++ [x]))) :
    Ring (Function.update next x (next y)) (l ++ [x]) := by
  obtain ⟨hy, hnodup⟩ := List.nodup_cons.mp h.nodup
  have hxl : x ∉ l := fun hx => List.nodup_append.mp hnodup |>.2.2 x hx x (by simp) rfl
  obtain ⟨hfirst, hleads⟩ := h.leads y (l ++ [x]) rfl
  refine ⟨hnodup, fun z zs hz => ?_⟩
  have hz' : next y = z := by rw [hfirst, hz]; rfl
  have hclosed : Leads (Function.update next x z) (l ++ [x]) z :=
    hleads.relink (m := []) trivial hxl List.not_mem_nil
  rwa [hz']

/-- The nodes that following `next` finds, from `x` on. -/
def follow (next : α → α) : ℕ → α → List α
  | 0, _ => []
  | n + 1, x => x :: follow next n (next x)

/-- Following the links as often as there are members gives them all. -/
theorem Leads.follow_eq (h : Leads next (x :: l) e) : follow next (l.length + 1) x = x :: l := by
  induction l generalizing x with
  | nil => rfl
  | cons y l ih =>
    obtain ⟨hx, hl⟩ := h
    rw [List.length_cons, follow, hx, List.headD_cons, ih hl]

end Intrusive

end PS2Bios
