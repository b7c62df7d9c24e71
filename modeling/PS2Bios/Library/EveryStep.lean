import Mathlib.Tactic.Common

/-!
# What holds of every step

For a machine that computes its next state, `EveryStep f P l s` says that `P` holds of each of the
steps `l`, taken in order from `s`, in the state the step finds. A condition on the steps and what
follows from it are two such properties: where they agree of every state they agree of every run
(`everyStep_iff`), and an invariant may be used on the way (`EveryStep.of_invariant`).
-/

namespace PS2Bios

universe u v

variable {σ : Type u} {ι : Type v} {f : ι → σ → σ} {P Q V : ι → σ → Prop} {l : List ι} {s : σ}

/-- `P` holds of every step of a run. -/
def EveryStep (f : ι → σ → σ) (P : ι → σ → Prop) : List ι → σ → Prop
  | [], _ => True
  | i :: l, s => P i s ∧ EveryStep f P l (f i s)

@[simp] theorem everyStep_nil : EveryStep f P [] s := trivial

@[simp] theorem everyStep_cons {i : ι} :
    EveryStep f P (i :: l) s ↔ P i s ∧ EveryStep f P l (f i s) := Iff.rfl

/-- Properties that agree of the steps in question agree of the run. -/
theorem everyStep_iff (h : ∀ i s, V i s → (P i s ↔ Q i s)) (hV : EveryStep f V l s) :
    EveryStep f P l s ↔ EveryStep f Q l s := by
  induction l generalizing s with
  | nil => exact Iff.rfl
  | cons i l ih => exact and_congr (h i s hV.1) (ih hV.2)

theorem everyStep_of_forall (h : ∀ i s, P i s) : EveryStep f P l s := by
  induction l generalizing s with
  | nil => trivial
  | cons i l ih => exact ⟨h i s, ih⟩

/-- A property that follows of each step under an invariant, which the step keeps. -/
theorem EveryStep.of_invariant {I : σ → Prop} (h : ∀ i s, I s → P i s → Q i s ∧ I (f i s))
    (hP : EveryStep f P l s) (hs : I s) : EveryStep f Q l s := by
  induction l generalizing s with
  | nil => trivial
  | cons i l ih =>
    obtain ⟨hQ, hnext⟩ := h i s hs hP.1
    exact ⟨hQ, ih hP.2 hnext⟩

end PS2Bios
