import Mathlib.Data.List.TakeWhile
import Mathlib.Tactic.Common

/-!
# Tokens

The tokens of a list are its maximal runs of elements that are no separators. `tokens` reads them
off from the right; a loop that skips separators and then takes what follows up to the next one
reads them off from the left (`tokens_dropWhile`, `tokens_eq_cons`). Tokens depend on the list's
own elements only (`tokens_congr`) and are translated with it (`tokens_map`).
-/

namespace PS2Bios

universe u v

variable {α : Type u} {β : Type v}

namespace Tokens

open List

/-- Put `c` before the tokens `ts` of `l`: in front of the first when `l` begins with it. -/
def consToken (p : α → Bool) (c : α) : List α → List (List α) → List (List α)
  | d :: _, t :: ts => if p d then [c] :: t :: ts else (c :: t) :: ts
  | _, ts => [c] :: ts

/-- The maximal runs of elements that are no separators. -/
def tokens (p : α → Bool) : List α → List (List α)
  | [] => []
  | c :: l => if p c then tokens p l else consToken p c l (tokens p l)

variable {p q : α → Bool} {l g w : List α} {c : α}

@[simp]
theorem tokens_nil : tokens p [] = [] := rfl

theorem tokens_cons_of_pos (h : p c) : tokens p (c :: l) = tokens p l := if_pos h

theorem tokens_cons_of_neg (h : ¬p c) : tokens p (c :: l) = consToken p c l (tokens p l) :=
  if_neg h

/-- Separators in front do not count. -/
theorem tokens_append_of_all (h : ∀ c ∈ g, p c) : tokens p (g ++ l) = tokens p l := by
  induction g with
  | nil => rfl
  | cons c g ih =>
    rw [cons_append, tokens_cons_of_pos (h c mem_cons_self), ih fun d hd => h d (.tail _ hd)]

/-- A run that a separator or the end follows is a token. -/
theorem tokens_append (hne : w ≠ []) (hw : ∀ c ∈ w, ¬p c) (hl : ∀ c ∈ l.head?, p c) :
    tokens p (w ++ l) = w :: tokens p l := by
  induction w with
  | nil => exact absurd rfl hne
  | cons c w ih =>
    rw [cons_append, tokens_cons_of_neg (hw c mem_cons_self)]
    match w, ih with
    | [], _ =>
      match l, hl with
      | [], _ => rfl
      | d :: l, hl =>
        have hd : p d := hl d rfl
        rw [nil_append, tokens_cons_of_pos hd]
        match tokens p l with
        | [] => rfl
        | t :: ts => exact if_pos hd
    | d :: w, ih =>
      have hd : ¬p d := hw d (.tail _ mem_cons_self)
      rw [ih (cons_ne_nil d w) fun e he => hw e (.tail _ he)]
      exact if_neg hd

theorem tokens_dropWhile : tokens p (l.dropWhile p) = tokens p l := by
  conv_rhs => rw [← takeWhile_append_dropWhile (p := p) (l := l)]
  rw [tokens_append_of_all fun c hc => mem_takeWhile_imp hc]

/-- The first token of what begins with one. -/
theorem tokens_eq_cons (hne : l ≠ []) (hl : ∀ c ∈ l.head?, ¬p c) :
    tokens p l = l.takeWhile (fun c => !p c) :: tokens p (l.dropWhile fun c => !p c) := by
  have hsplit := takeWhile_append_dropWhile (p := fun c => !p c) (l := l)
  conv_lhs => rw [← hsplit]
  refine tokens_append ?_ ?_ ?_
  · match l, hne with
    | c :: l, _ =>
      have hc : ¬p c := hl c rfl
      simp [hc]
  · intro c hc
    simpa using mem_takeWhile_imp hc
  · intro c hc
    have hdrop := head?_dropWhile_not (fun c => !p c) l
    rw [Option.mem_def.mp hc] at hdrop
    simpa using hdrop

/-- A loop's next step: nothing is left but separators, or the first token is next. -/
theorem tokens_cases (p : α → Bool) (l : List α) :
    l.dropWhile p = [] ∧ tokens p l = [] ∨
      ∃ c start, l.dropWhile p = c :: start ∧ ¬p c ∧
        (c :: start).takeWhile (fun c => !p c) = c :: start.takeWhile (fun c => !p c) ∧
        (c :: start).dropWhile (fun c => !p c) = start.dropWhile (fun c => !p c) ∧
        tokens p l = (c :: start.takeWhile fun c => !p c) ::
          tokens p (start.dropWhile fun c => !p c) ∧
        (start.dropWhile fun c => !p c).length < l.length := by
  have hle : (l.dropWhile p).length ≤ l.length := length_dropWhile_le _ _
  have htokens : tokens p (l.dropWhile p) = tokens p l := tokens_dropWhile
  have hnot := head?_dropWhile_not p l
  match hdrop : l.dropWhile p with
  | [] =>
    rw [hdrop] at htokens
    exact .inl ⟨rfl, htokens.symm⟩
  | c :: start =>
    rw [hdrop] at htokens hnot hle
    have hc : ¬p c := by simpa using hnot
    have htake : (c :: start).takeWhile (fun c => !p c) =
        c :: start.takeWhile fun c => !p c := by
      simp [hc]
    have hnext : (c :: start).dropWhile (fun c => !p c) = start.dropWhile fun c => !p c := by
      simp [hc]
    have hcons := tokens_eq_cons (p := p) (cons_ne_nil c start) (by simpa using hc)
    rw [htake, hnext, htokens] at hcons
    have hrest := length_dropWhile_le (fun c => !p c) start
    rw [length_cons] at hle
    exact .inr ⟨c, start, rfl, hc, htake, hnext, hcons, by omega⟩

/-- A token is not empty, and holds members of the list that are no separators. -/
theorem mem_of_mem_tokens {t : List α} (ht : t ∈ tokens p l) :
    t ≠ [] ∧ ∀ c ∈ t, c ∈ l ∧ ¬p c := by
  induction l generalizing t with
  | nil => exact absurd ht not_mem_nil
  | cons d l ih =>
    have hweak : ∀ t ∈ tokens p l, t ≠ [] ∧ ∀ c ∈ t, c ∈ d :: l ∧ ¬p c := fun t ht =>
      ⟨(ih ht).1, fun c hc => ⟨.tail _ ((ih ht).2 c hc).1, ((ih ht).2 c hc).2⟩⟩
    by_cases hd : p d
    · rw [tokens_cons_of_pos hd] at ht
      exact hweak t ht
    · rw [tokens_cons_of_neg hd] at ht
      have hsingle : [d] ≠ [] ∧ ∀ c ∈ [d], c ∈ d :: l ∧ ¬p c := by
        refine ⟨cons_ne_nil d [], fun c hc => ?_⟩
        obtain rfl := mem_singleton.mp hc
        exact ⟨mem_cons_self, hd⟩
      unfold consToken at ht
      split at ht
      · next e l' s ts hts =>
        split at ht
        · rcases mem_cons.mp ht with rfl | ht
          · exact hsingle
          · exact hweak t (hts ▸ ht)
        · rcases mem_cons.mp ht with rfl | ht
          · refine ⟨cons_ne_nil d s, fun c hc => ?_⟩
            rcases mem_cons.mp hc with rfl | hc
            · exact ⟨mem_cons_self, hd⟩
            · exact (hweak s (hts ▸ mem_cons_self)).2 c hc
          · exact hweak t (hts ▸ .tail _ ht)
      · rcases mem_cons.mp ht with rfl | ht
        · exact hsingle
        · exact hweak t ht

/-- Separators need to agree on the list only. -/
theorem tokens_congr (h : ∀ c ∈ l, p c = q c) : tokens p l = tokens q l := by
  induction l with
  | nil => rfl
  | cons c l ih =>
    have hl := ih fun d hd => h d (.tail _ hd)
    rw [tokens, tokens, h c mem_cons_self, hl]
    refine ite_congr rfl (fun _ => rfl) fun _ => ?_
    match l, tokens q l, h with
    | [], _, _ => rfl
    | _ :: _, [], _ => rfl
    | d :: l, t :: ts, h =>
      rw [consToken, consToken, h d (.tail _ mem_cons_self)]

/-- The tokens of an image are the images of the tokens. -/
theorem tokens_map (f : β → α) (l : List β) :
    tokens p (l.map f) = (tokens (fun b => p (f b)) l).map (List.map f) := by
  induction l with
  | nil => rfl
  | cons c l ih =>
    rw [map_cons, tokens, tokens, ih, apply_ite (List.map (List.map f))]
    refine ite_congr rfl (fun _ => rfl) fun _ => ?_
    match l, tokens (fun b => p (f b)) l with
    | [], _ => rfl
    | _ :: _, [] => rfl
    | d :: l, t :: ts =>
      rw [map_cons, map_cons, consToken, consToken, apply_ite (List.map (List.map f))]
      rfl

end Tokens

end PS2Bios
