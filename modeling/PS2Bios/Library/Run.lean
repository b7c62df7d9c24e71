import Mathlib.Logic.Relation

/-!
# Labelled runs and their invariants

A machine is a relation `step : σ → ι → σ → Prop`: from a state, under a label (the call
made, the interrupt taken), to a next state. `Steps step s l t` says that taking the steps
labelled `l`, in order, leads from `s` to `t`. Whatever is said of "any order of calls" is said
of all such runs, and every proof of it goes through `Steps.invariant`: what holds at the start
and is kept by one step holds after any run.

`Steps.simulation` is the two-level form: a relation between two machines that every step of
the lower one can be answered under makes every run of the lower one a run of the upper one.

A machine that is a partial function is run by `runList`, which computes; `traceList` also
collects what each step shows.
-/

namespace PS2Bios

universe u v w

variable {σ : Type u} {ι : Type v} {τ : Type w}

/-- `Steps step s l t`: the steps labelled `l`, taken in order from `s`, lead to `t`. -/
inductive Steps (step : σ → ι → σ → Prop) : σ → List ι → σ → Prop
  | nil (s : σ) : Steps step s [] s
  | cons {s t u : σ} {i : ι} {l : List ι} :
      step s i t → Steps step t l u → Steps step s (i :: l) u

namespace Steps

variable {step : σ → ι → σ → Prop}

/-- The empty run goes nowhere. -/
@[simp]
theorem nil_iff {s t : σ} : Steps step s [] t ↔ s = t := by
  constructor
  · rintro ⟨⟩
    rfl
  · rintro rfl
    exact .nil _

/-- A run that starts with a label takes that step first. -/
theorem cons_iff {s u : σ} {i : ι} {l : List ι} :
    Steps step s (i :: l) u ↔ ∃ t, step s i t ∧ Steps step t l u := by
  constructor
  · rintro (_ | ⟨h, hs⟩)
    exact ⟨_, h, hs⟩
  · rintro ⟨t, h, hs⟩
    exact .cons h hs

/-- Runs compose. -/
theorem append {s t u : σ} {l m : List ι} (h₁ : Steps step s l t) (h₂ : Steps step t m u) :
    Steps step s (l ++ m) u := by
  induction h₁ with
  | nil _ => exact h₂
  | cons hs _ ih => exact .cons hs (ih h₂)

/-- A run may be cut between any two steps. -/
theorem append_iff {s u : σ} {l m : List ι} :
    Steps step s (l ++ m) u ↔ ∃ t, Steps step s l t ∧ Steps step t m u := by
  constructor
  · intro h
    induction l generalizing s with
    | nil => exact ⟨s, .nil s, h⟩
    | cons i l ih =>
      obtain ⟨t, hst, hrest⟩ := cons_iff.mp h
      obtain ⟨v, htv, hvu⟩ := ih hrest
      exact ⟨v, .cons hst htv, hvu⟩
  · rintro ⟨t, h₁, h₂⟩
    exact h₁.append h₂

/-- One more step at the end of a run. -/
theorem snoc {s t u : σ} {l : List ι} {i : ι} (h₁ : Steps step s l t) (h₂ : step t i u) :
    Steps step s (l ++ [i]) u :=
  h₁.append (.cons h₂ (.nil _))

/-- **Run induction**: a property that one step keeps is kept by every run. -/
theorem invariant {I : σ → Prop} (hstep : ∀ s i t, I s → step s i t → I t) {s t : σ}
    {l : List ι} (h : Steps step s l t) (hs : I s) : I t := by
  induction h with
  | nil _ => exact hs
  | cons hst _ ih => exact ih (hstep _ _ _ hs hst)

/-- **Simulation**: when every step of the lower machine is answered by a step of the upper
one under the same label, every run of the lower machine is a run of the upper one. -/
theorem simulation {astep : τ → ι → τ → Prop} {R : σ → τ → Prop}
    (hstep : ∀ s a i t, R s a → step s i t → ∃ b, astep a i b ∧ R t b)
    {s t : σ} {a : τ} {l : List ι} (h : Steps step s l t) (hR : R s a) :
    ∃ b, Steps astep a l b ∧ R t b := by
  induction h generalizing a with
  | nil _ => exact ⟨a, .nil a, hR⟩
  | cons hst _ ih =>
    obtain ⟨b, hab, hRb⟩ := hstep _ _ _ _ hR hst
    obtain ⟨c, hbc, hRc⟩ := ih hRb
    exact ⟨c, .cons hab hbc, hRc⟩

end Steps

/-- A machine that is a function takes every list of labels. -/
theorem Steps.foldl (f : σ → ι → σ) (s : σ) (l : List ι) :
    Steps (fun s i t => f s i = t) s l (l.foldl f s) := by
  induction l generalizing s with
  | nil => exact .nil s
  | cons i l ih => exact .cons rfl (ih (f s i))

/-- Take steps by a partial function. -/
def runList (f : σ → ι → Option σ) : σ → List ι → Option σ
  | s, [] => some s
  | s, i :: l => (f s i).bind fun t => runList f t l

/-- What such a run computes is a run of the relation; an invariant may be used on the way. -/
theorem Steps.of_runList_invariant {step : σ → ι → σ → Prop} {f : σ → ι → Option σ} {I : σ → Prop}
    (hf : ∀ s i t, I s → f s i = some t → step s i t ∧ I t) {s t : σ} {l : List ι} (hs : I s)
    (h : runList f s l = some t) : Steps step s l t := by
  induction l generalizing s with
  | nil =>
    obtain rfl := Option.some.inj h
    exact .nil s
  | cons i l ih =>
    obtain ⟨u, hu, hrest⟩ := Option.bind_eq_some_iff.mp h
    obtain ⟨hstep, hnext⟩ := hf _ _ _ hs hu
    exact .cons hstep (ih hnext hrest)

/-- What such a run computes is a run of the relation. -/
theorem Steps.of_runList {step : σ → ι → σ → Prop} {f : σ → ι → Option σ}
    (hf : ∀ s i t, f s i = some t → step s i t) {s t : σ} {l : List ι}
    (h : runList f s l = some t) : Steps step s l t :=
  of_runList_invariant (I := fun _ => True) (fun s i t _ hst => ⟨hf s i t hst, True.intro⟩)
    True.intro h

/-- Take steps by a partial function that shows the label of each. -/
def traceList {ε : Type w} (f : σ → ε → Option (ι × σ)) : σ → List ε → Option (List ι × σ)
  | s, [] => some ([], s)
  | s, e :: l => (f s e).bind fun r => (traceList f r.2 l).map fun q => (r.1 :: q.1, q.2)

/-- A trace that is computed is a run. -/
theorem Steps.of_traceList {ε : Type w} {step : σ → ι → σ → Prop} {f : σ → ε → Option (ι × σ)}
    (hf : ∀ s e i t, f s e = some (i, t) → step s i t) {s t : σ} {es : List ε} {l : List ι}
    (h : traceList f s es = some (l, t)) : Steps step s l t := by
  induction es generalizing s l with
  | nil =>
    obtain ⟨rfl, rfl⟩ := Prod.mk.inj (Option.some.inj h)
    exact .nil s
  | cons e es ih =>
    obtain ⟨⟨i, u⟩, hu, hrest⟩ := Option.bind_eq_some_iff.mp h
    obtain ⟨⟨m, v⟩, hv, heq⟩ := Option.map_eq_some_iff.mp hrest
    obtain ⟨rfl, rfl⟩ := Prod.mk.inj heq
    exact .cons (hf _ _ _ _ hu) (ih hv)

end PS2Bios
