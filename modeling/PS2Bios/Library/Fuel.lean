import Mathlib.Data.Option.Basic
import Mathlib.Data.Nat.Notation

/-!
# Loops run on fuel

A loop that need not end is a function of a fuel `n : ℕ` into `Option`: `none` when the fuel
runs out first. `Yields f a` says that the loop ends and that it ends in `a`: whatever the fuel,
`f` gives nothing else, and with fuel enough it does give `a`. The two halves are what a partial
and a total correctness proof would show one at a time; together they compose, by
`Yields.succ` along a recursion and by `Yields.bind` along a sequence of loops.
-/

namespace PS2Bios

universe u v

variable {α : Type u} {β : Type v} {f g : ℕ → Option α} {a b : α} {n : ℕ}

/-- `Yields f a`: the fueled loop `f` ends in `a`. -/
def Yields (f : ℕ → Option α) (a : α) : Prop :=
  (∀ n b, f n = some b → b = a) ∧ ∃ bound, ∀ n, bound ≤ n → f n = some a

namespace Yields

/-- What a loop gives is what it yields. -/
theorem eq (h : Yields f a) (hn : f n = some b) : b = a :=
  h.1 n b hn

/-- A loop that yields returns. -/
theorem returns (h : Yields f a) : ∃ n, f n = some a := by
  obtain ⟨bound, hbound⟩ := h.2
  exact ⟨bound, hbound bound (Nat.le_refl bound)⟩

theorem congr (h : Yields f a) (hfg : ∀ n, g n = f n) : Yields g a :=
  (funext hfg : g = f) ▸ h

theorem congr_eq (h : Yields f a) (hab : a = b) : Yields f b :=
  hab ▸ h

/-- What needs no fuel yields at once. -/
theorem const (a : α) : Yields (fun _ => some a) a :=
  ⟨fun _ _ h => (Option.some.inj h).symm, 0, fun _ _ => rfl⟩

/-- A recursion yields what its body yields. -/
theorem succ (hzero : f 0 = none) (hsucc : ∀ n, f (n + 1) = g n) (h : Yields g a) :
    Yields f a := by
  refine ⟨fun n b hn => ?_, ?_⟩
  · match n with
    | 0 => exact absurd (hzero.symm.trans hn) (by simp)
    | n + 1 => exact h.1 n b ((hsucc n).symm.trans hn)
  · obtain ⟨bound, hbound⟩ := h.2
    refine ⟨bound + 1, fun n hn => ?_⟩
    match n with
    | 0 => exact absurd hn (by simp)
    | n + 1 => exact (hsucc n).trans (hbound n (Nat.le_of_succ_le_succ hn))

/-- One loop after another. -/
theorem bind {k : ℕ → α → Option β} {c : β} (h : Yields f a) (hk : Yields (fun n => k n a) c) :
    Yields (fun n => (f n).bind (k n)) c := by
  refine ⟨fun n d hd => ?_, ?_⟩
  · obtain ⟨a', ha', hd'⟩ := Option.bind_eq_some_iff.mp hd
    obtain rfl := h.eq ha'
    exact hk.eq hd'
  · obtain ⟨m, hm⟩ := h.2
    obtain ⟨m', hm'⟩ := hk.2
    refine ⟨max m m', fun n hn => ?_⟩
    show (f n).bind (k n) = some c
    rw [hm n (Nat.le_trans (Nat.le_max_left m m') hn), Option.bind_some]
    exact hm' n (Nat.le_trans (Nat.le_max_right m m') hn)

/-- What is made of a loop's result. -/
theorem map (k : α → β) (h : Yields f a) : Yields (fun n => (f n).map k) (k a) := by
  refine ⟨fun n d hd => ?_, ?_⟩
  · obtain ⟨a', ha', rfl⟩ := Option.map_eq_some_iff.mp hd
    rw [h.eq ha']
  · obtain ⟨m, hm⟩ := h.2
    refine ⟨m, fun n hn => ?_⟩
    show (f n).map k = some (k a)
    rw [hm n hn, Option.map_some]

end Yields

end PS2Bios
