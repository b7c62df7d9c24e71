import Mathlib.Tactic.Common

/-!
# Programs that ask

A program of `Prog ρ α` ends in an `α`, or asks something of its surroundings and goes on with
the reply: `ρ o` is what `o` can be replied. What the surroundings do with it is no part of it.

A `Monitor` watches a program: it keeps a state of its own, which moves with every reply, and in
each state it allows some questions and not others, and relies on some replies. `wp M p Q s` says
that the monitor, in state `s`, never sees `p` ask what is not allowed, as long as it is replied as
the monitor relies on, and that `Q` holds of what `p` ends in and of the state the monitor is in
then. A program is taken apart with `wp_bind`, and
`wp_mono` passes from one postcondition to another.

What `wp` speaks of are the executions of the program: `Exec` is one from its beginning to its end,
and `Asks` one up to a question. `run` is the one with given answers.
-/

namespace PS2Bios

universe u v w

/-- A program that asks questions of `ω`, is replied by `ρ` and ends in `α`. -/
inductive Prog {ω : Type u} (ρ : ω → Type v) (α : Type w) where
  | ret (a : α)
  | ask (o : ω) (k : ρ o → Prog ρ α)

namespace Prog

variable {ω : Type u} {ρ : ω → Type v} {α β : Type w}

/-- One program after another. -/
def bind : Prog ρ α → (α → Prog ρ β) → Prog ρ β
  | ret a, k => k a
  | ask o f, k => ask o fun r => bind (f r) k

instance : Monad (Prog ρ) where
  pure := ret
  bind := bind

/-- Ask for one thing. -/
def op {ρ : ω → Type w} (o : ω) : Prog ρ (ρ o) := ask o ret

end Prog

/-- What watches a program: what it allows, which replies it relies on, and how it moves. -/
structure Monitor {ω : Type u} (ρ : ω → Type v) (σ : Type*) where
  allows : σ → ω → Prop
  relies : σ → (o : ω) → ρ o → Prop
  next : σ → (o : ω) → ρ o → σ

namespace Prog

variable {ω : Type u} {ρ : ω → Type v} {α β : Type w} {σ : Type*} {M : Monitor ρ σ} {s : σ}

/-- The weakest precondition of a program under a monitor. -/
def wp (M : Monitor ρ σ) : Prog ρ α → (α → σ → Prop) → σ → Prop
  | ret a, Q, s => Q a s
  | ask o k, Q, s => M.allows s o ∧ ∀ r, M.relies s o r → wp M (k r) Q (M.next s o r)

theorem wp_ask {o : ω} {k : ρ o → Prog ρ α} {Q : α → σ → Prop} :
    wp M (ask o k) Q s ↔
      M.allows s o ∧ ∀ r, M.relies s o r → wp M (k r) Q (M.next s o r) := .rfl

@[simp]
theorem wp_pure {a : α} {Q : α → σ → Prop} : wp M (pure a) Q s ↔ Q a s := .rfl

@[simp]
theorem wp_op {ρ : ω → Type w} {M : Monitor ρ σ} {o : ω} {Q : ρ o → σ → Prop} :
    wp M (op o) Q s ↔ M.allows s o ∧ ∀ r, M.relies s o r → Q r (M.next s o r) := .rfl

/-- A program followed by another is taken apart between them. -/
@[simp]
theorem wp_bind {p : Prog ρ α} {k : α → Prog ρ β} {Q : β → σ → Prop} :
    wp M (p >>= k) Q s ↔ wp M p (fun a => wp M (k a) Q) s := by
  induction p generalizing s with
  | ret a => exact .rfl
  | ask o f ih =>
    exact and_congr_right fun _ => forall_congr' fun r => imp_congr_right fun _ => @ih r _

/-- A weaker postcondition. -/
theorem wp_mono {p : Prog ρ α} {Q Q' : α → σ → Prop} (h : wp M p Q s)
    (hQ : ∀ a s', Q a s' → Q' a s') : wp M p Q' s := by
  induction p generalizing s with
  | ret a => exact hQ a s h
  | ask o f ih => exact ⟨h.1, fun r hr => ih r (h.2 r hr)⟩

/-! ### Executions -/

/-- An execution, with replies the monitor relies on. -/
inductive Exec (M : Monitor ρ σ) : Prog ρ α → σ → α → σ → Prop
  | ret (a : α) (s : σ) : Exec M (ret a) s a s
  | ask {o : ω} {k : ρ o → Prog ρ α} {s t : σ} {a : α} (r : ρ o) (hr : M.relies s o r)
      (h : Exec M (k r) (M.next s o r) a t) : Exec M (ask o k) s a t

/-- The program comes to ask `o`, the monitor being in state `t`. -/
inductive Asks (M : Monitor ρ σ) : Prog ρ α → σ → ω → σ → Prop
  | now (o : ω) (k : ρ o → Prog ρ α) (s : σ) : Asks M (ask o k) s o s
  | later {o o' : ω} {k : ρ o → Prog ρ α} {s t : σ} (r : ρ o) (hr : M.relies s o r)
      (h : Asks M (k r) (M.next s o r) o' t) : Asks M (ask o k) s o' t

/-- A precondition tells what executions end in. -/
theorem Exec.post {p : Prog ρ α} {Q : α → σ → Prop} {a : α} {t : σ} (h : Exec M p s a t)
    (hwp : wp M p Q s) : Q a t := by
  induction h with
  | ret a s => exact hwp
  | ask r hr _ ih => exact ih (hwp.2 r hr)

/-- And that they ask for nothing that is not allowed. -/
theorem Asks.allowed {p : Prog ρ α} {Q : α → σ → Prop} {o : ω} {t : σ} (h : Asks M p s o t)
    (hwp : wp M p Q s) : M.allows t o := by
  induction h with
  | now o k s => exact hwp.1
  | later r hr _ ih => exact ih (hwp.2 r hr)

/-! ### Runs -/

/-- The run of a program whose questions are answered by what they are and how many there were
before; `none` when one is not answered. -/
def run (answer : ℕ → (o : ω) → Option (ρ o)) : Prog ρ α → ℕ → Option (α × ℕ)
  | ret a, n => some (a, n)
  | ask o k, n => (answer n o).bind fun r => run answer (k r) (n + 1)

/-- A run ends as its precondition tells, when everything allowed is answered as relied on. -/
theorem run_of_wp {answer : ℕ → (o : ω) → Option (ρ o)}
    (hanswer : ∀ n s o, M.allows s o → ∃ r, answer n o = some r ∧ M.relies s o r)
    {p : Prog ρ α} {Q : α → σ → Prop} (h : wp M p Q s) (n : ℕ) :
    ∃ a n' s', run answer p n = some (a, n') ∧ Q a s' := by
  induction p generalizing s n with
  | ret a => exact ⟨a, n, s, rfl, h⟩
  | ask o k ih =>
    obtain ⟨r, hr, hrelies⟩ := hanswer n s o h.1
    obtain ⟨a, n', s', hrun, hQ⟩ := ih r (h.2 r hrelies) (n + 1)
    exact ⟨a, n', s', by rw [run, hr]; exact hrun, hQ⟩

end Prog

end PS2Bios
