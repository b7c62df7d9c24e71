import PS2Bios.Library.Bytes

/-!
# Reading along a list

A list with a position in it that is not behind its end. A read takes from what is left and moves
the position on; reads one after another take what one read of their lengths together takes
(`Reading.take_rest`). The list may be some bytes of a memory, `readBytes`.
-/

namespace PS2Bios

namespace Bytes

variable {m m' : Ram} {a b n p k : ℕ} {l : List UInt8}

/-- The `n` bytes of a memory from `a` on. -/
def readBytes (m : Ram) (a n : ℕ) : List UInt8 := (List.range n).map fun i => m (a + i)

@[simp]
theorem length_readBytes : (readBytes m a n).length = n := by
  rw [readBytes, List.length_map, List.length_range]

@[simp]
theorem readBytes_zero : readBytes m a 0 = [] := rfl

theorem readBytes_succ : readBytes m a (n + 1) = m a :: readBytes m (a + 1) n := by
  rw [readBytes, List.range_succ_eq_map, List.map_cons, List.map_map]
  refine congrArg _ (List.map_congr_left fun i _ => ?_)
  exact congrArg m (by rw [Nat.succ_eq_add_one, Nat.add_assoc, Nat.add_comm 1])

theorem readBytes_of_at (h : At m a l) : readBytes m a l.length = l := by
  refine List.ext_getElem length_readBytes fun i hi hi' => ?_
  rw [← h i _ (List.getElem?_eq_getElem hi')]
  simp [readBytes]

theorem at_readBytes (m : Ram) (a n : ℕ) : At m a (readBytes m a n) := by
  intro i x hx
  obtain ⟨hi, rfl⟩ := List.getElem?_eq_some_iff.mp hx
  simp [readBytes]

theorem take_drop_readBytes (h : p + k ≤ n) :
    ((readBytes m a n).drop p).take k = readBytes m (a + p) k := by
  refine List.ext_getElem (by simp; omega) fun i hi hi' => ?_
  simp [readBytes, Nat.add_assoc]

theorem take_readBytes (h : k ≤ n) : (readBytes m a n).take k = readBytes m a k := by
  have htake := take_drop_readBytes (m := m) (a := a) (p := 0) (k := k) (n := n) (by omega)
  rwa [List.drop_zero, Nat.add_zero] at htake

end Bytes

universe u

/-- Data, and where the next read begins. -/
structure Reading (α : Type u) where
  data : List α
  position : ℕ
  position_le : position ≤ data.length

namespace Reading

variable {α : Type u} {r r' : Reading α} {n n' : ℕ}

/-- Two readings are the same when their bytes and their positions are. -/
theorem ext (hdata : r.data = r'.data) (hposition : r.position = r'.position) : r = r' := by
  cases r
  cases r'
  cases hdata
  cases hposition
  rfl

/-- What is still to be read. -/
def rest (r : Reading α) : List α := r.data.drop r.position

/-- The position is moved, not behind the end. -/
def seek (r : Reading α) (position : ℕ) : Reading α :=
  ⟨r.data, min position r.data.length, Nat.min_le_right _ _⟩

/-- `n` items are read, or as many as there are. -/
def advance (r : Reading α) (n : ℕ) : Reading α := r.seek (r.position + n)

@[simp] theorem data_seek : (r.seek n).data = r.data := rfl

@[simp] theorem data_advance : (r.advance n).data = r.data := rfl

theorem position_advance : (r.advance n).position = min (r.position + n) r.data.length := rfl

theorem length_rest : r.rest.length = r.data.length - r.position := List.length_drop

/-- What is left after an advance is what was left, without the first bytes. -/
theorem rest_advance : (r.advance n).rest = r.rest.drop n := by
  rw [rest, rest, List.drop_drop]
  rcases Nat.le_total (r.position + n) r.data.length with h | h
  · rw [show (r.advance n).position = r.position + n from Nat.min_eq_left h, data_advance]
  · rw [show (r.advance n).position = r.data.length from Nat.min_eq_right h, data_advance,
      List.drop_length, List.drop_eq_nil_of_le h]

/-- A read and those behind it. -/
theorem take_rest : r.rest.take n ++ (r.advance n).rest.take n' = r.rest.take (n + n') := by
  rw [rest_advance, List.take_add]

end Reading

end PS2Bios
