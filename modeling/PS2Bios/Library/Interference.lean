import PS2Bios.Library.Prog

/-!
# Programs that are interfered with

Between two questions of a program something else may change the state: `E o s s'` says that `s` may
have become `s'` by the time the program asks `o`. `Under M E P p Q` says that a program begun in a
state of `P` asks for nothing that is not allowed and ends as `Q` tells, whatever interferes. What
is asserted before a question has to outlast the interference (`Under.op`), and a program is taken
apart as before (`Under.bind`).

A machine that takes the steps of the program and of what interferes, in any order, keeps
`wpUnder`: by `wpUnder.step` for the one and by `wpUnder.interfered` for the other.
-/

namespace PS2Bios

universe u v w

namespace Prog

variable {ω : Type u} {ρ : ω → Type v} {α β : Type w} {σ : Type*} {M : Monitor ρ σ}
  {E : ω → σ → σ → Prop} {s s' : σ} {o : ω} {P P' : σ → Prop}

/-- The weakest precondition of a program under a monitor and interference. -/
def wpUnder (M : Monitor ρ σ) (E : ω → σ → σ → Prop) :
    Prog ρ α → (α → σ → Prop) → σ → Prop
  | ret a, Q, s => Q a s
  | ask o k, Q, s => ∀ s', E o s s' →
      M.allows s' o ∧ ∀ r, M.relies s' o r → wpUnder M E (k r) Q (M.next s' o r)

/-- The program asks, and goes on with the reply. -/
theorem wpUnder.step {k : ρ o → Prog ρ α} {Q : α → σ → Prop} (h : wpUnder M E (ask o k) Q s)
    (hrefl : E o s s) : M.allows s o ∧ ∀ r, M.relies s o r → wpUnder M E (k r) Q (M.next s o r) :=
  h s hrefl

/-- Something interferes before the question. -/
theorem wpUnder.interfered {k : ρ o → Prog ρ α} {Q : α → σ → Prop}
    (h : wpUnder M E (ask o k) Q s) (htrans : ∀ t, E o s' t → E o s t) :
    wpUnder M E (ask o k) Q s' :=
  fun t ht => h t (htrans t ht)

/-- A sequence is right when its first part leaves what the second one needs, others moving in
between. -/
theorem wpUnder_bind {p : Prog ρ α} {k : α → Prog ρ β} {Q : β → σ → Prop} :
    wpUnder M E (p >>= k) Q s ↔ wpUnder M E p (fun a => wpUnder M E (k a) Q) s := by
  induction p generalizing s with
  | ret a => exact .rfl
  | ask o f ih =>
    exact forall_congr' fun _ => imp_congr_right fun _ => and_congr_right fun _ =>
      forall_congr' fun r => imp_congr_right fun _ => @ih r _

theorem wpUnder_mono {p : Prog ρ α} {Q Q' : α → σ → Prop} (h : wpUnder M E p Q s)
    (hQ : ∀ a s', Q a s' → Q' a s') : wpUnder M E p Q' s := by
  induction p generalizing s with
  | ret a => exact hQ a s h
  | ask o f ih => exact fun t ht => ⟨(h t ht).1, fun r hr => ih r ((h t ht).2 r hr)⟩

/-- What a program does whatever interferes. -/
def Under (M : Monitor ρ σ) (E : ω → σ → σ → Prop) (P : σ → Prop) (p : Prog ρ α)
    (Q : α → σ → Prop) : Prop :=
  ∀ s, P s → wpUnder M E p Q s

namespace Under

variable {p : Prog ρ α} {k : α → Prog ρ β} {Q Q' : α → σ → Prop} {R : β → σ → Prop} {a : α}

theorem pure (h : ∀ s, P s → Q a s) : Under M E P (Pure.pure a) Q := h

theorem bind (hp : Under M E P p Q) (hk : ∀ a, Under M E (Q a) (k a) R) :
    Under M E P (p >>= k) R :=
  fun s hs => wpUnder_bind.mpr (wpUnder_mono (hp s hs) fun a t ht => hk a t ht)

theorem mono (h : Under M E P p Q) (hP : ∀ s, P' s → P s) (hQ : ∀ a s, Q a s → Q' a s) :
    Under M E P' p Q' :=
  fun s hs => wpUnder_mono (h s (hP s hs)) hQ

/-- One question: what is asserted before it outlasts the interference. -/
theorem op {ρ : ω → Type w} {M : Monitor ρ σ} {Q : ρ o → σ → Prop}
    (hstable : ∀ s s', E o s s' → P s → P s') (hallows : ∀ s, P s → M.allows s o)
    (hnext : ∀ s r, P s → M.relies s o r → Q r (M.next s o r)) : Under M E P (Prog.op o) Q :=
  fun s hs t ht => ⟨hallows t (hstable s t ht hs), fun r hr => hnext t r (hstable s t ht hs) hr⟩

end Under

end Prog

end PS2Bios
