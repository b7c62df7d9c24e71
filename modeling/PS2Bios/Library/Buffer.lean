import Mathlib.Data.List.Basic
import PS2Bios.Library.Bytes

/-!
# Buffers filled from the front

A buffer is a list of fixed length, and a store outside it is `none`. What a loop has put into it so
far is a list the buffer begins with (`<+:`), whatever is behind it; `store_next` is the one step of
every such loop. `copyString` is the loop that copies a C string as far as it fits, and its end.
-/

namespace PS2Bios

namespace Buffer

universe u

variable {α : Type u} {b : List α} {l : List α} {x : α}

/-- Store into a buffer. -/
def store (b : List α) (i : ℕ) (x : α) : Option (List α) :=
  if i < b.length then some (b.set i x) else none

/-- Storing behind what was put into a buffer. -/
theorem store_next (h : l <+: b) (hlt : l.length < b.length) (x : α) :
    ∃ b', store b l.length x = some b' ∧ b'.length = b.length ∧ l ++ [x] <+: b' := by
  refine ⟨b.set l.length x, if_pos hlt, List.length_set, ?_⟩
  obtain ⟨r, rfl⟩ := h
  cases r with
  | nil =>
    rw [List.append_nil] at hlt
    exact absurd hlt (Nat.lt_irrefl _)
  | cons y r =>
    refine ⟨r, ?_⟩
    rw [List.set_append_right l.length x (Nat.le_refl _), Nat.sub_self, List.append_assoc]
    rfl

/-- Storing behind what a buffer begins with, and not next to it. -/
theorem store_behind {i : ℕ} (h : l <+: b) (hl : l.length ≤ i) (hi : i < b.length) (x : α) :
    ∃ b', store b i x = some b' ∧ b'.length = b.length ∧ l <+: b' := by
  refine ⟨b.set i x, if_pos hi, List.length_set, ?_⟩
  obtain ⟨r, rfl⟩ := h
  rw [List.set_append_right i x hl]
  exact List.prefix_append l _

/-- Storing what is there already. -/
theorem store_self (h : l ++ [x] <+: b) : store b l.length x = some b := by
  obtain ⟨r, rfl⟩ := h
  rw [List.append_assoc]
  unfold store
  rw [if_pos (by simp), List.set_append_right l.length x (Nat.le_refl _), Nat.sub_self]
  rfl

/-! ### Strings -/

open Bytes

/-- Copy from a string to the end of it, or as far as there is room for an end. It answers where
the end is, too. -/
def copyString (max : ℕ) (source : ℕ → UInt8) : ℕ → ℕ → List UInt8 → Option (ℕ × List UInt8)
  | 0, _, _ => none
  | turns + 1, k, b =>
    if k + 1 < max ∧ source k ≠ 0 then
      (store b k (source k)).bind fun b => copyString max source turns (k + 1) b
    else (store b k 0).map (k, ·)

/-- The copy takes the string up to the room there is, and the bytes in front of it stay. -/
theorem copyString_eq {max turns : ℕ} {source : ℕ → UInt8} {b done rest : List UInt8}
    (hsource : At source done.length (rest ++ [0])) (hrest : 0 ∉ rest) (hb : done <+: b)
    (hroom : done.length < max) (hmax : max ≤ b.length) (hturns : max - done.length ≤ turns) :
    ∃ b', copyString max source turns done.length b =
        some ((done ++ rest.take (max - 1 - done.length)).length, b') ∧ b'.length = b.length ∧
      done ++ rest.take (max - 1 - done.length) ++ [0] <+: b' := by
  obtain ⟨turns, rfl⟩ : ∃ n, turns = n + 1 := ⟨turns - 1, by omega⟩
  induction rest generalizing turns done b with
  | nil =>
    have hzero : source done.length = 0 := (at_cons.mp hsource).1
    obtain ⟨b', hb', hlen, hbegins⟩ := store_next hb (by omega) 0
    rw [List.take_nil, List.append_nil]
    refine ⟨b', ?_, hlen, hbegins⟩
    rw [copyString, if_neg (by simp [hzero]), hb', Option.map_some]
  | cons x rest ih =>
    obtain ⟨hx, hsource⟩ := at_cons.mp hsource
    obtain ⟨hzero, hrest⟩ := not_or.mp (mt List.mem_cons.mpr hrest)
    by_cases hlt : done.length + 1 < max
    · obtain ⟨b₁, hb₁, hlen, hbegins⟩ := store_next hb (by omega) x
      have hlength : (done ++ [x]).length = done.length + 1 := by simp
      obtain ⟨turns, rfl⟩ : ∃ n, turns = n + 1 := ⟨turns - 1, by omega⟩
      rw [← hlength] at hsource hlt
      obtain ⟨b', hb', hlen', hbegins'⟩ := ih hsource hrest hbegins hlt (by omega) turns (by omega)
      have htake : max - 1 - done.length = max - 1 - (done ++ [x]).length + 1 := by omega
      rw [htake, List.take_succ_cons, List.append_cons]
      refine ⟨b', ?_, hlen'.trans hlen, hbegins'⟩
      rw [copyString, hx, if_pos ⟨hlength ▸ hlt, Ne.symm hzero⟩, hb₁, Option.bind_some, ← hlength]
      exact hb'
    · obtain ⟨b', hb', hlen, hbegins⟩ := store_next hb (by omega) 0
      have hnone : max - 1 - done.length = 0 := by omega
      rw [hnone, List.take_zero, List.append_nil]
      refine ⟨b', ?_, hlen, hbegins⟩
      rw [copyString, if_neg (by omega), hb', Option.map_some]

/-- A whole copy: what the buffer begins with. -/
theorem copyString_start (max : ℕ) {source : ℕ → UInt8} {b line : List UInt8}
    (hsource : At source 0 (line ++ [0])) (hline : 0 ∉ line) (hpos : 0 < max)
    (hmax : max ≤ b.length) :
    ∃ b', copyString max source max 0 b = some ((line.take (max - 1)).length, b') ∧
      b'.length = b.length ∧ line.take (max - 1) ++ [0] <+: b' := by
  have h := @copyString_eq max max source b [] line hsource hline List.nil_prefix hpos hmax
    (Nat.sub_le _ _)
  simpa using h

/-- The bytes of a buffer, from an index on. -/
def read (b : List UInt8) (start k : ℕ) : UInt8 := b.getD (start + k) 0

/-- What a buffer begins with is what is read from it. -/
theorem at_read {b l r : List UInt8} (h : l ++ r <+: b) : At (read b l.length) 0 r := by
  obtain ⟨t, rfl⟩ := h
  intro i x hx
  have hi := (List.getElem?_eq_some_iff.mp hx).1
  unfold read
  rw [Nat.zero_add, List.getD_eq_getElem?_getD, List.append_assoc,
    List.getElem?_append_right (Nat.le_add_right _ _), Nat.add_sub_cancel_left,
    List.getElem?_append_left hi, hx]
  rfl

/-- The string at an index. -/
def stringAt (b : List UInt8) (start : ℕ) : List UInt8 := (b.drop start).takeWhile (· ≠ 0)

/-- The string between its place and the first nought is read back. -/
theorem stringAt_eq {b l s r : List UInt8} (h : l ++ s ++ 0 :: r <+: b) (hs : 0 ∉ s) :
    stringAt b l.length = s := by
  obtain ⟨t, rfl⟩ := h
  unfold stringAt
  rw [List.append_assoc, List.append_assoc, List.drop_left]
  have hall : ∀ x ∈ s, (x ≠ 0 : Bool) = true := fun x hx =>
    decide_eq_true fun heq => hs (heq ▸ hx)
  rw [List.takeWhile_append_of_pos hall]
  simp

end Buffer

end PS2Bios
