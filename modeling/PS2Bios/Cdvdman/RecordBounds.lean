import PS2Bios.Cdvdman.Directory

/-!
# What a search reads of a record

A record is looked at without leaving the buffer exactly when its first 33 bytes are inside, and its
name is too or is told from the component inside (`Record.isSome_examine_iff`): by its version,
when the component has none and so the version is looked for; by its length or a byte of it, when
the component has one. Then the answer is whether the component names the record
(`Record.examine_eq`).
-/

namespace PS2Bios.Cdvdman

open Bytes

/-- A name without its version. -/
def baseName (id : List UInt8) : List UInt8 := id.takeWhile (· ≠ kSemicolon)

/-- A component names what has its name, or when the component is without a version, what has it but
for the version. -/
def Names (component id : List UInt8) : Prop :=
  component = if kSemicolon ∈ component then id else baseName id

instance (component id : List UInt8) : Decidable (Names component id) :=
  inferInstanceAs (Decidable (_ = _))

theorem names_versioned {component id : List UInt8} (h : kSemicolon ∈ component) :
    Names component id ↔ component = id := by
  rw [Names, if_pos h]

theorem names_plain {component id : List UInt8} (h : kSemicolon ∉ component) :
    Names component id ↔ component = baseName id := by
  rw [Names, if_neg h]

/-- Whether a component names it is told from the first `room` bytes of a name. -/
def ToldWithin (room : ℕ) (id component : List UInt8) : Prop :=
  id.length ≤ room ∨
    if kSemicolon ∈ component then id.length = component.length → id.take room ≠ component.take room
    else kSemicolon ∈ id.take room

instance (room : ℕ) (id component : List UInt8) : Decidable (ToldWithin room id component) :=
  inferInstanceAs (Decidable (_ ∨ _))

/-- A record is looked at for a component without leaving the buffer. -/
def Record.Inside (component : List UInt8) (r : Record) : Prop :=
  r.pos + 33 ≤ kSectorSize ∧ ToldWithin (kSectorSize - (r.pos + 33)) r.id component

instance (component : List UInt8) (r : Record) : Decidable (r.Inside component) :=
  inferInstanceAs (Decidable (_ ∧ _))

variable {sector : Sector} {component : List UInt8} {id left k n : ℕ} {r : Record} {b : Bool}

/-! ### The version -/

theorem baseLength_outside (h : kSectorSize ≤ id + k) :
    baseLength sector id (left + 1) k = none := by
  rw [baseLength, byteAt_eq_none h]
  rfl

theorem baseLength_found (h : id + k < kSectorSize) (hc : sector (id + k) = kSemicolon) :
    baseLength sector id (left + 1) k = some k := by
  rw [baseLength, byteAt_eq_some h]
  exact if_pos hc

theorem baseLength_next (h : id + k < kSectorSize) (hc : sector (id + k) ≠ kSemicolon) :
    baseLength sector id (left + 1) k = baseLength sector id left (k + 1) := by
  rw [baseLength, byteAt_eq_some h]
  exact if_neg hc

/-- The version is looked for without leaving the buffer when the name ends in it, or is found. -/
theorem isSome_baseLength_iff (sector : Sector) (left : ℕ) (hk : id + k ≤ kSectorSize) :
    (baseLength sector id left k).isSome ↔
    id + k + left ≤ kSectorSize ∨
      kSemicolon ∈ (readBytes sector (id + k) left).take (kSectorSize - (id + k)) := by
  induction left generalizing k with
  | zero => exact iff_of_true rfl (.inl hk)
  | succ left ih =>
    rcases Nat.lt_or_ge (id + k) kSectorSize with hlt | hge
    · rw [readBytes_succ, show kSectorSize - (id + k) = kSectorSize - (id + (k + 1)) + 1 by omega,
        List.take_succ_cons, List.mem_cons]
      by_cases hc : sector (id + k) = kSemicolon
      · rw [baseLength_found hlt hc]
        exact iff_of_true rfl (.inr (.inl hc.symm))
      · rw [baseLength_next hlt hc, ih hlt, show id + (k + 1) + left = id + k + (left + 1) by omega,
          Nat.add_assoc id k 1]
        simp [Ne.symm hc]
    · rw [baseLength_outside hge, show kSectorSize - (id + k) = 0 by omega]
      refine iff_of_false (by simp) ?_
      rintro (h | h)
      · omega
      · simp at h

/-- A version that is found, or the end of the name. -/
theorem baseLength_eq_some (h : baseLength sector id left k = some n)
    (hk : id + k ≤ kSectorSize) : id + n ≤ kSectorSize ∧
      n = k + (baseName (readBytes sector (id + k) left)).length := by
  induction left generalizing k with
  | zero =>
    obtain rfl := Option.some.inj h
    exact ⟨hk, rfl⟩
  | succ left ih =>
    rw [readBytes_succ, baseName]
    rcases Nat.lt_or_ge (id + k) kSectorSize with hlt | hge
    · by_cases hc : sector (id + k) = kSemicolon
      · rw [baseLength_found hlt hc] at h
        obtain rfl := Option.some.inj h
        rw [List.takeWhile_cons_of_neg (by simp [hc])]
        exact ⟨hk, rfl⟩
      · rw [baseLength_next hlt hc] at h
        obtain ⟨hn, hlength⟩ := ih h hlt
        rw [List.takeWhile_cons_of_pos (by simp [hc]), List.length_cons]
        rw [baseName, ← Nat.add_assoc] at hlength
        exact ⟨hn, by omega⟩
    · rw [baseLength_outside hge] at h
      cases h

/-! ### The bytes of a component -/

theorem sameBytes_outside {c : UInt8} (h : kSectorSize ≤ id) :
    sameBytes sector id (c :: component) = none := by
  rw [sameBytes, byteAt_eq_none h]
  rfl

theorem sameBytes_other {c : UInt8} (h : id < kSectorSize) (hc : sector id ≠ c) :
    sameBytes sector id (c :: component) = some false := by
  rw [sameBytes, byteAt_eq_some h]
  exact if_pos hc

theorem sameBytes_next {c : UInt8} (h : id < kSectorSize) (hc : sector id = c) :
    sameBytes sector id (c :: component) = sameBytes sector (id + 1) component := by
  rw [sameBytes, byteAt_eq_some h]
  exact if_neg (not_not.mpr hc)

/-- The bytes are compared without leaving the sector when they fit or differ before its end. -/
theorem isSome_sameBytes_iff (hid : id ≤ kSectorSize) : (sameBytes sector id component).isSome ↔
    id + component.length ≤ kSectorSize ∨
      (readBytes sector id component.length).take (kSectorSize - id) ≠
        component.take (kSectorSize - id) := by
  induction component generalizing id with
  | nil => exact iff_of_true rfl (.inl hid)
  | cons c component ih =>
    rw [List.length_cons]
    rcases Nat.lt_or_ge id kSectorSize with hlt | hge
    · rw [readBytes_succ, show kSectorSize - id = kSectorSize - (id + 1) + 1 by omega,
        List.take_succ_cons, List.take_succ_cons, Ne, List.cons.injEq]
      by_cases hc : sector id = c
      · rw [sameBytes_next hlt hc, ih hlt, show id + 1 + component.length =
          id + (component.length + 1) by omega]
        simp [hc]
      · rw [sameBytes_other hlt hc]
        exact iff_of_true rfl (.inr fun h => hc h.1)
    · rw [sameBytes_outside hge, show kSectorSize - id = 0 by omega]
      refine iff_of_false (by simp) ?_
      rintro (h | h)
      · omega
      · simp at h

/-- A comparison that ends says whether the bytes agree. -/
theorem sameBytes_eq_some (h : sameBytes sector id component = some b) :
    b = decide (component = readBytes sector id component.length) := by
  induction component generalizing id with
  | nil =>
    obtain rfl := Option.some.inj h
    simp
  | cons c component ih =>
    rw [List.length_cons, readBytes_succ]
    rcases Nat.lt_or_ge id kSectorSize with hlt | hge
    · by_cases hc : sector id = c
      · rw [sameBytes_next hlt hc] at h
        simp only [ih h, hc, List.cons.injEq, true_and]
      · rw [sameBytes_other hlt hc] at h
        obtain rfl := Option.some.inj h
        simp [Ne.symm hc]
    · rw [sameBytes_outside hge] at h
      cases h

/-! ### A record -/

/-- The name is as long as the component, and is told from it inside. -/
theorem componentMatches_versioned (h : kSemicolon ∈ component) :
    componentMatches sector id n component =
      if n ≠ component.length then some false else sameBytes sector id component := by
  rw [componentMatches, if_pos h]
  rfl

theorem componentMatches_plain (h : kSemicolon ∉ component) :
    componentMatches sector id n component = (baseLength sector id n 0).bind fun length =>
      if length ≠ component.length then some false else sameBytes sector id component := by
  rw [componentMatches, if_neg h]
  rfl

/-- A component is compared without leaving the sector when the bytes in front of its end decide. -/
theorem isSome_componentMatches_iff (hid : id ≤ kSectorSize) :
    (componentMatches sector id n component).isSome ↔
      ToldWithin (kSectorSize - id) (readBytes sector id n) component := by
  rw [ToldWithin, length_readBytes]
  by_cases hversion : kSemicolon ∈ component
  · rw [componentMatches_versioned hversion, if_pos hversion]
    by_cases hlength : n = component.length
    · rw [if_neg (not_not.mpr hlength), isSome_sameBytes_iff hid, hlength]
      simp only [forall_const]
      exact or_congr_left (by omega)
    · rw [if_pos hlength]
      exact iff_of_true rfl (.inr fun h => absurd h hlength)
  · rw [componentMatches_plain hversion, if_neg hversion]
    have hbase := isSome_baseLength_iff (k := 0) sector n hid
    rw [Nat.add_zero] at hbase
    rw [show n ≤ kSectorSize - id ↔ id + n ≤ kSectorSize by omega, ← hbase]
    cases h : baseLength sector id n 0 with
    | none => rfl
    | some length =>
      rw [Option.bind_some]
      refine iff_of_true ?_ rfl
      split
      next => rfl
      next hlength =>
        have hle := (baseLength_eq_some h hid).1
        exact (isSome_sameBytes_iff hid).mpr (.inl (not_not.mp hlength ▸ hle))

/-- A name without its version are its first bytes. -/
theorem baseName_eq_readBytes :
    baseName (readBytes sector id n) =
      readBytes sector id (baseName (readBytes sector id n)).length := by
  have hprefix : baseName (readBytes sector id n) <+: readBytes sector id n :=
    List.takeWhile_prefix _
  have hle := hprefix.length_le
  rw [length_readBytes] at hle
  rw [← take_readBytes hle]
  exact List.prefix_iff_eq_take.mp hprefix

/-- A comparison that ends says whether the record's name is the component. -/
theorem componentMatches_eq_some (h : componentMatches sector id n component = some b)
    (hid : id ≤ kSectorSize) : b = decide (Names component (readBytes sector id n)) := by
  by_cases hversion : kSemicolon ∈ component
  · rw [componentMatches_versioned hversion] at h
    simp only [names_versioned hversion]
    split at h
    next hlength =>
      obtain rfl := Option.some.inj h
      have hne : component ≠ readBytes sector id n := fun heq =>
        hlength (by rw [heq, length_readBytes])
      simp [hne]
    next hlength => rw [sameBytes_eq_some h, not_not.mp hlength]
  · rw [componentMatches_plain hversion] at h
    simp only [names_plain hversion]
    obtain ⟨length, hbase, h⟩ := Option.bind_eq_some_iff.mp h
    have heq := (baseLength_eq_some hbase hid).2
    rw [Nat.zero_add, Nat.add_zero] at heq
    split at h
    next hlength =>
      obtain rfl := Option.some.inj h
      have hne : component ≠ baseName (readBytes sector id n) := fun hc =>
        hlength (by rw [heq, ← hc])
      simp [hne]
    next hlength =>
      rw [sameBytes_eq_some h, ← not_not.mp hlength, heq, ← baseName_eq_readBytes]

/-- A record is examined without leaving the sector exactly where it is inside for the component. -/
theorem Record.isSome_examine_iff :
    (r.examine component).isSome ↔ r.Inside component := by
  rw [Record.Inside, Record.examine]
  rcases Nat.lt_or_ge (r.pos + 32) kSectorSize with hlt | hge
  · rw [byteAt_eq_some hlt, Option.bind_some, isSome_componentMatches_iff hlt]
    exact (and_iff_right hlt).symm
  · rw [byteAt_eq_none hge]
    exact iff_of_false (by simp) fun h => absurd h.1 (by omega)

/-- A record that is looked at inside the buffer is the one that is searched for when the component
names it. -/
theorem Record.examine_eq (h : r.Inside component) :
    r.examine component = some (decide (Names component r.id)) := by
  have hlt : r.pos + 32 < kSectorSize := h.1
  obtain ⟨b, hb⟩ := Option.isSome_iff_exists.mp (Record.isSome_examine_iff.mpr h)
  rw [hb]
  rw [Record.examine, byteAt_eq_some hlt, Option.bind_some] at hb
  exact congrArg some (componentMatches_eq_some hb hlt)

end PS2Bios.Cdvdman
