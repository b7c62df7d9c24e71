import PS2Bios.Kernel.Program
import PS2Bios.Library.Run

/-!
# Handing arguments over

A launcher packs the strings it is given into the kernel's buffer, as many as fit, and slot 0x3C
unpacks them into the program's block, of which sixteen words are for pointers. `packStrings_eq`
and `fillBlock_spec` say what the two loops do, `arguments_handed_over` what arrives: the strings
that fit the buffer, if they are at most sixteen. When they are more, the block says so in its
first word and has no pointers for the rest (`seventeen_arguments`).
-/

namespace PS2Bios.Kernel

open Bytes

/-- The leading strings that fit into `room` bytes, each with its zero byte. -/
def fitting : ℕ → List (List UInt8) → List (List UInt8)
  | _, [] => []
  | room, s :: ss => if s.length + 1 ≤ room then s :: fitting (room - (s.length + 1)) ss else []

/-- The strings that fit are some of the strings. -/
theorem fitting_subset {room : ℕ} {ss : List (List UInt8)} {s : List UInt8}
    (h : s ∈ fitting room ss) : s ∈ ss := by
  induction ss generalizing room with
  | nil => cases h
  | cons t ts ih =>
    unfold fitting at h
    split at h
    · rcases List.mem_cons.mp h with rfl | htail
      · exact List.mem_cons_self
      · exact .tail _ (ih htail)
    · cases h

/-- The strings that fit take no more than the room there is. -/
theorem length_packed_fitting (room : ℕ) (ss : List (List UInt8)) :
    (packed (fitting room ss)).length ≤ room := by
  induction ss generalizing room with
  | nil => exact Nat.zero_le room
  | cons s ss ih =>
    unfold fitting
    split
    · have := ih (room - (s.length + 1))
      rw [length_packed_cons]
      omega
    · exact Nat.zero_le room

/-- What fits without a cut fits. -/
theorem fitting_eq_self {room : ℕ} {ss : List (List UInt8)} (h : (packed ss).length ≤ room) :
    fitting room ss = ss := by
  induction ss generalizing room with
  | nil => rfl
  | cons s ss ih =>
    rw [length_packed_cons] at h
    unfold fitting
    rw [if_pos (by omega), ih (by omega)]

/-! ### Packing -/

variable {I : Image} {m m' : Ram}

/-- Memory is the same but for the kernel's buffer. -/
def SameOutside (I : Image) (m m' : Ram) : Prop :=
  ∀ x, ¬(I.argumentStrings ≤ x ∧ x < I.argumentStrings + kArgumentBytes) → m' x = m x

/-- The string at `p` is out of the buffer's way. -/
def Clear (I : Image) (m : Ram) (p : ℕ) : Prop :=
  I.argumentStrings + kArgumentBytes ≤ p ∨
    ∃ s, cString m kRamSize p = some s ∧ p + s.length + 1 ≤ I.argumentStrings

/-- A string that is clear of the kernel's block is read the same after a store to the block. -/
theorem Clear.cString_eq {p : ℕ} (h : Clear I m p) (hm : SameOutside I m m') :
    cString m' kRamSize p = cString m kRamSize p := by
  rcases h with hle | ⟨s, hs, hle⟩
  · exact cString_congr fun x hx _ => hm x (by omega)
  · obtain ⟨hzero, hat, hlt⟩ := cString_eq_some_iff.mp hs
    rw [hs]
    refine cString_eq_some_iff.mpr ⟨hzero, hat.congr fun x _ hx => ?_, hlt⟩
    rw [List.length_append, List.length_singleton] at hx
    exact hm x (by omega)

/-- A string of a program's is out of the buffer's way. -/
theorem clear_of_program {p : ℕ} (h : kProgramStart ≤ p) : Clear I m p :=
  .inl (I.argumentStrings_le.trans h)

/-- The strings a list names, cut at the last that fits into `room`. -/
def readStrings (m : Ram) (argv : ℕ → ℕ) : ℕ → ℕ → ℕ → Option (List (List UInt8))
  | 0, _, _ => some []
  | n + 1, k, room =>
    (cString m kRamSize (argv k)).bind fun s =>
      if room < s.length + 1 then some []
      else (readStrings m argv n (k + 1) (room - (s.length + 1))).map (s :: ·)

/-- **Packing**: the strings named are written behind those already there. -/
theorem packStrings_eq {argv : Ram → ℕ → ℕ} {m₀ : Ram}
    (hargv : ∀ m, SameOutside I m₀ m → argv m = argv m₀) {n k used stored : ℕ}
    (hclear : ∀ j, k ≤ j → j < k + n → Clear I m₀ (argv m₀ j)) (hm : SameOutside I m₀ m)
    (hused : used ≤ kArgumentBytes) :
    packStrings I argv n k used stored m =
      (readStrings m₀ (argv m₀) n k (kArgumentBytes - used)).map fun ss =>
        (stored + ss.length, write m (I.argumentStrings + used) (packed ss)) := by
  -- string by string, as long as the next one fits with its end
  induction n generalizing k used stored m with
  | zero => simp [packStrings, readStrings]
  | succ n ih =>
    have hk : Clear I m₀ (argv m₀ k) := hclear k (Nat.le_refl k) (by omega)
    unfold packStrings readStrings
    rw [hargv m hm, hk.cString_eq hm]
    cases hs : cString m₀ kRamSize (argv m₀ k) with
    | none => rfl
    | some s =>
      rw [Option.bind_some, Option.bind_some]
      dsimp only
      by_cases hfits : kArgumentBytes < used + (s.length + 1)
      · rw [if_pos hfits, if_pos (by omega)]
        simp
      rw [if_neg hfits, if_neg (by omega)]
      have hs' := hk.cString_eq hm
      rw [hs] at hs'
      obtain ⟨-, hat, -⟩ := cString_eq_some_iff.mp hs'
      -- the copy writes the string and its end, and none of it over itself
      have hcopy : copy m (I.argumentStrings + used) (argv m₀ k) (s.length + 1) =
          write m (I.argumentStrings + used) (s ++ [0]) := by
        have hlen : s.length + 1 = (s ++ [0]).length := by simp
        rw [hlen]
        refine copy_eq hat ?_
        rw [← hlen]
        rcases hk with hle | ⟨t, ht, hle⟩
        · omega
        · obtain rfl := Option.some.inj (hs.symm.trans ht)
          omega
      -- nothing outside the image's buffer is written
      have hm' : SameOutside I m₀ (write m (I.argumentStrings + used) (s ++ [0])) := by
        intro x hx
        rw [write_of_not (by simp only [List.length_append, List.length_singleton]; omega)]
        exact hm x hx
      rw [hcopy, ih (fun j hj hlt => hclear j (by omega) (by omega)) hm' (by omega),
        Option.map_map, Nat.sub_sub]
      congr 1
      funext ss
      have hwrite : write (write m (I.argumentStrings + used) (s ++ [0]))
          (I.argumentStrings + used + (s ++ [0]).length) (packed ss) =
            write m (I.argumentStrings + used) (packed (s :: ss)) := write_append
      rw [List.length_append, List.length_singleton] at hwrite
      rw [Function.comp_apply, ← hwrite, List.length_cons, Nat.add_assoc I.argumentStrings,
        Nat.add_assoc stored, Nat.add_comm 1]

/-- What a list names, when it names `ss`. -/
theorem readStrings_eq {argv : ℕ → ℕ} {ss : List (List UInt8)} {k room : ℕ}
    (h : ∀ i s, ss[i]? = some s → cString m kRamSize (argv (k + i)) = some s) :
    readStrings m argv ss.length k room = some (fitting room ss) := by
  induction ss generalizing k room with
  | nil => rfl
  | cons s ss ih =>
    have hfirst : cString m kRamSize (argv k) = some s := h 0 s rfl
    rw [List.length_cons]
    unfold readStrings fitting
    rw [hfirst, Option.bind_some]
    by_cases hfits : s.length + 1 ≤ room
    · rw [if_neg (by omega), if_pos hfits, ih fun i t ht => ?_]
      · rfl
      · rw [Nat.add_right_comm, Nat.add_assoc]
        exact h (i + 1) t ht
    · rw [if_pos (by omega), if_neg hfits]

/-- The strings read are the ones named. -/
theorem cString_of_readStrings {argv : ℕ → ℕ} {n k room : ℕ} {ss : List (List UInt8)}
    (h : readStrings m argv n k room = some ss) :
    ∀ i s, ss[i]? = some s → cString m kRamSize (argv (k + i)) = some s := by
  induction n generalizing k room ss with
  | zero =>
    obtain rfl := Option.some.inj h
    exact fun i s hs => by simp at hs
  | succ n ih =>
    unfold readStrings at h
    obtain ⟨t, ht, h⟩ := Option.bind_eq_some_iff.mp h
    split at h
    · obtain rfl := Option.some.inj h
      exact fun i s hs => by simp at hs
    · obtain ⟨ts, hts, rfl⟩ := Option.map_eq_some_iff.mp h
      rintro (_ | i) s hs
      · obtain rfl := Option.some.inj hs
        exact ht
      · rw [← Nat.add_assoc, Nat.add_right_comm]
        exact ih hts i s hs

/-- **Storing** a list that names `ss`. -/
theorem storeArguments_eq {M : Machine} {argc : ℤ} {argv : Ram → ℕ → ℕ} {ss : List (List UInt8)}
    (hargv : ∀ m, SameOutside I M.ram m → argv m = argv M.ram) (hcount : argc.toNat = ss.length)
    (hclear : ∀ j < ss.length, Clear I M.ram (argv M.ram j))
    (hstrings : ∀ i s, ss[i]? = some s → cString M.ram kRamSize (argv M.ram i) = some s) :
    storeArguments I M argc argv =
      some ⟨setProgramArguments M.kernel (fitting kArgumentBytes ss).length I.argumentStrings,
        write M.ram I.argumentStrings (packed (fitting kArgumentBytes ss))⟩ := by
  unfold storeArguments
  rw [hcount, packStrings_eq hargv (fun j _ hj => hclear j (by omega)) (fun _ _ => rfl)
    (Nat.zero_le _), Nat.sub_zero, readStrings_eq fun i s hs => ?_]
  · simp
  · rw [Nat.zero_add]
    exact hstrings i s hs

/-! ### Unpacking -/

variable {target source : ℕ}

/-- A string copied to where it is not. -/
theorem copyString_eq {s : List UInt8} {n : ℕ} (hzero : 0 ∉ s) (hat : At m source (s ++ [0]))
    (hdisjoint : source + s.length < target ∨ target + s.length < source) (hn : s.length < n) :
    copyString n m target source =
      some (write m target (s ++ [0]), target + (s.length + 1), source + (s.length + 1)) := by
  induction s generalizing m target source n with
  | nil =>
    obtain ⟨n, rfl⟩ := Nat.exists_eq_add_one.mpr hn
    have hbyte : m source = 0 := (at_cons.mp hat).1
    have hne : source ≠ target := by
      simp only [List.length_nil] at hdisjoint
      omega
    unfold copyString
    dsimp only
    rw [Function.update_of_ne hne, hbyte, update_eq_write]
    simp
  | cons x s ih =>
    obtain ⟨n, rfl⟩ := Nat.exists_eq_add_one.mpr (Nat.zero_lt_of_lt hn)
    rw [List.cons_append] at hat
    obtain ⟨hbyte, hrest⟩ := at_cons.mp hat
    simp only [List.length_cons] at hdisjoint hn
    have hx : x ≠ 0 := fun h => hzero (h ▸ List.mem_cons_self)
    have hnext : At (write m target [x]) (source + 1) (s ++ [0]) := by
      refine hrest.congr fun y _ hy => write_of_not ?_
      rw [List.length_append, List.length_singleton] at hy
      rw [List.length_singleton]
      omega
    have happend : write (write m target [x]) (target + [x].length) (s ++ [0]) =
        write m target (x :: s ++ [0]) := write_append
    rw [List.length_singleton] at happend
    unfold copyString
    dsimp only
    rw [Function.update_of_ne (by omega), hbyte, if_pos hx, update_eq_write,
      ih (fun h => hzero (.tail _ h)) hnext (by omega) (by omega), happend, List.length_cons,
      Nat.add_assoc target, Nat.add_assoc source, Nat.add_comm 1]

/-- Where the `i`th of some packed strings is. -/
def offset (ss : List (List UInt8)) (i : ℕ) : ℕ := (packed (ss.take i)).length

/-- **Unpacking**: the strings come to the block one behind the other, and the words before them
point there. -/
theorem fillBlock_spec {args k strings : ℕ} {ss : List (List UInt8)} (hzero : ∀ s ∈ ss, 0 ∉ s)
    (hat : At m source (packed ss)) (hsource : 0 < source)
    (hslots : args + 4 * (1 + k + ss.length) ≤ strings)
    (hdisjoint : source + (packed ss).length ≤ args ∨ strings + (packed ss).length ≤ source)
    (hend : strings + (packed ss).length ≤ kRamSize) :
    ∃ m', fillBlock args ss.length k m strings source = some m' ∧
      At m' strings (packed ss) ∧
      (∀ i < ss.length, readWord m' (args + 4 * (1 + k + i)) = strings + offset ss i) ∧
      ∀ x, ¬(args + 4 * (1 + k) ≤ x ∧ x < args + 4 * (1 + k + ss.length)) →
        ¬(strings ≤ x ∧ x < strings + (packed ss).length) → m' x = m x := by
  induction ss generalizing m source k strings with
  | nil => exact ⟨m, rfl, at_nil, nofun, fun _ _ _ => rfl⟩
  | cons s ss ih =>
    have hlen := length_packed_cons s ss
    have hslen : (s ++ [0]).length = s.length + 1 := List.length_append
    have hram : kRamSize < 2 ^ 32 := by decide
    rw [hlen] at hdisjoint hend
    rw [List.length_cons] at hslots
    rw [packed_cons, at_append, hslen] at hat
    have hpointer : At (writeWord m (args + 4 * (1 + k)) strings) source (s ++ [0]) :=
      hat.1.congr fun x _ hx => writeWord_of_not (by omega)
    have hcopied : copyString kRamSize (writeWord m (args + 4 * (1 + k)) strings) strings source =
        some (write (writeWord m (args + 4 * (1 + k)) strings) strings (s ++ [0]),
          strings + (s.length + 1), source + (s.length + 1)) :=
      copyString_eq (hzero s List.mem_cons_self) hpointer (by omega) (by omega)
    -- what the string and its pointer leave alone
    have hframe : ∀ x, ¬(args + 4 * (1 + k) ≤ x ∧ x < args + 4 * (1 + k) + 4) →
        ¬(strings ≤ x ∧ x < strings + (s.length + 1)) →
          write (writeWord m (args + 4 * (1 + k)) strings) strings (s ++ [0]) x = m x := by
      intro x hslot hstring
      rw [write_of_not (by omega), writeWord_of_not hslot]
    have hrest : At (write (writeWord m (args + 4 * (1 + k)) strings) strings (s ++ [0]))
        (source + (s.length + 1)) (packed ss) :=
      hat.2.congr fun x _ _ => hframe x (by omega) (by omega)
    obtain ⟨m', hfill, hpacked, hwords, hsame⟩ := ih (fun t ht => hzero t (.tail _ ht)) hrest
      (by omega) (show args + 4 * (1 + (k + 1) + ss.length) ≤ strings + (s.length + 1) by omega)
      (by omega) (by omega)
    refine ⟨m', ?_, ?_, ?_, ?_⟩
    · rw [List.length_cons]
      unfold fillBlock
      dsimp only
      rw [if_pos (by omega), hcopied, Option.bind_some]
      exact hfill
    · rw [packed_cons, at_append, hslen]
      exact ⟨at_write.congr fun x hx hlt => hsame x (by omega) (by omega), hpacked⟩
    · rintro (_ | i) hi
      · have hword : readWord m' (args + 4 * (1 + k)) =
            readWord (writeWord m (args + 4 * (1 + k)) strings) (args + 4 * (1 + k)) := by
          refine readWord_congr fun x hx hlt => ?_
          rw [hsame x (by omega) (by omega), write_of_not (by omega)]
        rw [Nat.add_zero, hword, readWord_writeWord (by omega)]
        rfl
      · rw [List.length_cons] at hi
        have hword := hwords i (by omega)
        have hoffset : offset (s :: ss) (i + 1) = s.length + 1 + offset ss i := by
          unfold offset
          rw [List.take_succ_cons, packed_cons, List.length_append, hslen]
        rw [hoffset, ← Nat.add_assoc strings, ← hword]
        congr 1
        omega
    · intro x hslot hstring
      rw [List.length_cons] at hslot
      rw [hlen] at hstring
      rw [hsame x (by omega) (by omega), hframe x (by omega) (by omega)]

/-! ### From one program to the next -/

/-- The kernel's buffer holds `ss`, and the running thread's record says so. -/
structure Recorded (I : Image) (M : Machine) (ss : List (List UInt8)) : Prop where
  buffer : At M.ram I.argumentStrings (packed ss)
  argc : M.kernel.current.argc = ss.length
  args : M.kernel.current.args = I.argumentStrings
  strings : ∀ s ∈ ss, 0 ∉ s
  fits : (packed ss).length ≤ kArgumentBytes

/-- The block at `args` hands over `ss`: its first word is their number, the next ones point at
copies of them, which are inside the block and do not overlap. -/
structure HandedOver (m : Ram) (args : ℕ) (ss : List (List UInt8)) : Prop where
  argc : readWord m args = ss.length
  argv : ∀ i s, ss[i]? = some s → At m (readWord m (args + 4 * (1 + i))) (s ++ [0])
  inside : ∀ i s, ss[i]? = some s → args + kStringsAt ≤ readWord m (args + 4 * (1 + i)) ∧
    readWord m (args + 4 * (1 + i)) + (s.length + 1) ≤ args + kStringsAt + (packed ss).length
  apart : ∀ i j s, i < j → j < ss.length → ss[i]? = some s →
    readWord m (args + 4 * (1 + i)) + (s.length + 1) ≤ readWord m (args + 4 * (1 + j))

theorem packed_take_succ {ss : List (List UInt8)} {i : ℕ} {s : List UInt8}
    (h : ss[i]? = some s) : packed (ss.take (i + 1)) = packed (ss.take i) ++ (s ++ [0]) := by
  rw [List.take_add_one, h, packed_append]
  simp

/-- The places of packed strings. -/
theorem offset_add_le {ss : List (List UInt8)} {i j : ℕ} {s : List UInt8} (hij : i < j)
    (h : ss[i]? = some s) : offset ss i + (s.length + 1) ≤ offset ss j := by
  have htake : ss.take (i + 1) ++ (ss.take j).drop (i + 1) = ss.take j := by
    have hle : (ss.take j).take (i + 1) = ss.take (i + 1) := by
      rw [List.take_take, Nat.min_eq_left (by omega)]
    rw [← hle, List.take_append_drop]
  unfold offset
  rw [← htake, packed_append, packed_take_succ h]
  simp only [List.length_append, List.length_singleton]
  omega

/-- Each string lies at its offset in the block. -/
theorem at_offset {ss : List (List UInt8)} {i : ℕ} {s : List UInt8} {strings : ℕ}
    (h : At m strings (packed ss)) (hs : ss[i]? = some s) :
    At m (strings + offset ss i) (s ++ [0]) := by
  rw [← List.take_append_drop (i + 1) ss, packed_append, at_append, packed_take_succ hs,
    at_append] at h
  exact h.1.2

/-- A block that was filled in hands over what was filled in. -/
theorem handedOver_of_filled {args : ℕ} {ss : List (List UInt8)}
    (hargc : readWord m args = ss.length) (hat : At m (args + kStringsAt) (packed ss))
    (hwords : ∀ i < ss.length, readWord m (args + 4 * (1 + i)) = args + kStringsAt + offset ss i) :
    HandedOver m args ss := by
  have hlt : ∀ i s, ss[i]? = some s → i < ss.length := fun i s hs =>
    (List.getElem?_eq_some_iff.mp hs).1
  refine ⟨hargc, fun i s hs => ?_, fun i s hs => ?_, fun i j s hij hj hs => ?_⟩
  · rw [hwords i (hlt i s hs)]
    exact at_offset hat hs
  · have hle := offset_add_le (hlt i s hs) hs
    have hall : offset ss ss.length = (packed ss).length := by
      unfold offset
      rw [List.take_length]
    rw [hwords i (hlt i s hs)]
    omega
  · have hle := offset_add_le hij hs
    rw [hwords i (hlt i s hs), hwords j hj]
    omega

/-- Each string takes a byte at least. -/
theorem length_le_packed (ss : List (List UInt8)) : ss.length ≤ (packed ss).length := by
  induction ss with
  | nil => exact Nat.zero_le _
  | cons s ss ih =>
    rw [length_packed_cons, List.length_cons]
    omega

/-- A frame in the program's memory is not in the kernel's. -/
theorem writeFrame_of_kernel {gp stack stackSize root x : ℕ}
    (hframe : kProgramStart ≤ setupFrame I stack stackSize) (hx : x < kProgramStart) :
    writeFrame I m gp stack stackSize root x = m x := by
  unfold writeFrame
  simp (disch := omega) only [writeWord_of_not]

/-- **Slot 0x3C**, called with a block and a stack in the program's memory by the thread the list
was stored for: the block hands over the first sixteen strings just when there are no more. -/
theorem Recorded.sysSetupThread {M : Machine} {ss : List (List UInt8)} (h : Recorded I M ss)
    (gp root : ℕ) {stack stackSize args : ℕ} (hframe : kProgramStart ≤ setupFrame I stack stackSize)
    (hargs : kProgramStart ≤ args)
    (hend : args + kStringsAt + (packed (ss.take kArgvSlots)).length ≤ kRamSize) :
    ∃ frame M', sysSetupThread I M gp stack stackSize args root = some (frame, M') ∧
      (HandedOver M'.ram args (ss.take kArgvSlots) ↔ ss.length ≤ kArgvSlots) := by
  have hbuffer := I.argumentStrings_le
  have hall := h.buffer
  have hfits := h.fits
  rw [← List.take_append_drop kArgvSlots ss, packed_append] at hall hfits
  rw [List.length_append] at hfits
  have hstart : 0 < kProgramStart := by decide
  have hslots : kStringsAt = 4 * (1 + kArgvSlots) := rfl
  have hlen : (ss.take kArgvSlots).length = min ss.length kArgvSlots := by
    rw [List.length_take, Nat.min_comm]
  have hcount : ss.length < 2 ^ 32 := by
    have hlarge : kArgumentBytes < 2 ^ 32 := by decide
    exact ((length_le_packed ss).trans h.fits).trans_lt hlarge
  -- neither the frame nor the block's first word is in the kernel's buffer
  have hat : At (writeWord (writeFrame I M.ram gp stack stackSize root) args ss.length)
      I.argumentStrings (packed (ss.take kArgvSlots)) := by
    refine (at_append.mp hall).1.congr fun x _ hx => ?_
    rw [writeWord_of_not (by omega), writeFrame_of_kernel hframe (by omega)]
  obtain ⟨m', hfill, hpacked, hwords, hsame⟩ := fillBlock_spec
    (fun s hs => h.strings s (List.mem_of_mem_take hs)) hat I.argumentStrings_pos
    (show args + 4 * (1 + 0 + (ss.take kArgvSlots).length) ≤ args + kStringsAt by omega)
    (by omega) hend
  rw [hlen] at hfill hsame
  have hword : readWord m' args = ss.length := by
    rw [← readWord_writeWord (m := writeFrame I M.ram gp stack stackSize root) (a := args) hcount]
    exact readWord_congr fun x hx hlt => hsame x (by omega) (by omega)
  have hsetup : Kernel.sysSetupThread I M gp stack stackSize args root =
      some (setupFrame I stack stackSize, ⟨M.kernel.setThread M.kernel.currentThread fun t =>
        { t with
          context := setupFrame I stack stackSize
          gp := gp
          stack := setupStack I stack stackSize
          stackSize := stackSize
          root := root
          args := args }, m'⟩) := by
    unfold Kernel.sysSetupThread
    dsimp only
    rw [if_pos (by omega), h.argc, h.args, hfill]
    rfl
  refine ⟨_, _, hsetup, ?_⟩
  constructor
  · intro hover
    have := hover.argc.symm.trans hword
    omega
  · intro hle
    refine handedOver_of_filled ?_ hpacked fun i hi => ?_
    · rw [hword, hlen]
      omega
    · have := hwords i hi
      rwa [Nat.add_zero] at this

/-! ### Launching -/

/-- The calls that leave a list: slot 0x07, the loader's, 0x06, and the two with its path pinned,
0x7B and 0x04. -/
inductive Launch
  | exec (entry : ℕ) (argc : ℤ) (argv : ℕ)
  | load (path : ℕ) (argc : ℤ) (argv : ℕ)
  | loadOsd (argc : ℤ) (argv : ℕ)
  | bootBrowser

namespace Launch

/-- A program started by one of the calls that start one. -/
def perform (I : Image) (eeload : ArchiveFile) (M : Machine) : Launch → Option Machine
  | .exec entry argc argv => (sysExecPs2 I M entry argc argv).map (·.2)
  | .load path argc argv => (sysLoadProgram I eeload M path argc (pointers argv)).map (·.2)
  | .loadOsd argc argv => (sysLoadOsd I eeload M argc argv).map (·.2)
  | .bootBrowser => (sysBootBrowser I eeload M).map (·.2)

/-- Memory as it is when the strings are packed. -/
def ram (I : Image) (eeload : ArchiveFile) (m : Ram) : Launch → Ram
  | .exec _ _ _ => m
  | _ => staged I eeload m

/-- The pointers of the list, which the loader gathers before it clears memory. -/
def list (I : Image) (m : Ram) : Launch → List ℕ
  | .exec _ argc argv => (List.range argc.toNat).map (pointers argv m)
  | .load path argc argv => loadList I m path argc (pointers argv)
  | .loadOsd argc argv => loadList I m I.rom0Osdsys argc (pointers argv)
  | .bootBrowser => [I.eeloadName, I.rom0Osdsys, I.bootBrowser]

/-- The list names the strings `ss`, none of them in the kernel's buffer, and neither is the array
of pointers that slot 0x07 is given; the loader has an EELOAD. -/
structure Names (launch : Launch) (I : Image) (eeload : ArchiveFile) (m : Ram)
    (ss : List (List UInt8)) : Prop where
  strings : (launch.list I m).map (cString (launch.ram I eeload m) kRamSize) = ss.map some
  clear : ∀ p ∈ launch.list I m, Clear I (launch.ram I eeload m) p
  mapped : ∀ entry argc argv, launch = .exec entry argc argv → kProgramStart ≤ argv
  eeload : (∀ entry argc argv, launch ≠ .exec entry argc argv) → eeload.size ≠ 0

end Launch

/-- A list stored is a list recorded. -/
theorem recorded_of_storeArguments (M : Machine) (argc : ℤ) (argv : Ram → ℕ → ℕ) (address : ℕ)
    {pointers : List ℕ} {ss : List (List UInt8)}
    (hargv : ∀ m, SameOutside I M.ram m → argv m = argv M.ram)
    (hpointers : ∀ i (h : i < pointers.length), argv M.ram i = pointers[i])
    (hcount : argc.toNat = pointers.length)
    (hstrings : pointers.map (cString M.ram kRamSize) = ss.map some)
    (hclear : ∀ p ∈ pointers, Clear I M.ram p) :
    ∃ M', storeArguments I M argc argv = some M' ∧
      Recorded I { M' with kernel := setEpc M'.kernel address } (fitting kArgumentBytes ss) := by
  have hlen : pointers.length = ss.length := by simpa using congrArg List.length hstrings
  have hstring : ∀ i s, ss[i]? = some s → cString M.ram kRamSize (argv M.ram i) = some s := by
    intro i s hs
    obtain ⟨hi, rfl⟩ := List.getElem?_eq_some_iff.mp hs
    have hget := congrArg (fun l => l[i]?) hstrings
    simp only [List.getElem?_map, hs, List.getElem?_eq_getElem (hlen ▸ hi), Option.map_some,
      Option.some.injEq] at hget
    rw [hpointers i (hlen ▸ hi)]
    exact hget
  refine ⟨_, storeArguments_eq hargv (hcount.trans hlen) (fun j hj => ?_) hstring, ?_⟩
  · rw [hpointers j (hlen ▸ hj)]
    exact hclear _ (List.getElem_mem _)
  · refine ⟨at_write, ?_, ?_, fun s hs => ?_, length_packed_fitting _ _⟩
    · simp [State.current, setEpc, setProgramArguments]
    · simp [State.current, setEpc, setProgramArguments]
    · obtain ⟨i, hi⟩ := List.mem_iff_getElem?.mp (fitting_subset hs)
      exact (cString_eq_some_iff.mp (hstring i s hi)).1

/-- The loader leaves its list recorded. -/
theorem recorded_of_sysLoadProgram {eeload : ArchiveFile} {M : Machine} {path : ℕ} {argc : ℤ}
    {argv : Ram → ℕ → ℕ} {ss : List (List UInt8)} (hsize : eeload.size ≠ 0)
    (hstrings : (loadList I M.ram path argc argv).map (cString (staged I eeload M.ram) kRamSize) =
      ss.map some)
    (hclear : ∀ p ∈ loadList I M.ram path argc argv, Clear I (staged I eeload M.ram) p) :
    ∃ M', (sysLoadProgram I eeload M path argc argv).map (·.2) = some M' ∧
      Recorded I M' (fitting kArgumentBytes ss) := by
  obtain ⟨M', hstore, hrecorded⟩ := recorded_of_storeArguments
    ⟨terminateOtherThreads M.kernel, staged I eeload M.ram⟩
    (loadList I M.ram path argc argv).length
    (fun _ k => (loadList I M.ram path argc argv).getD k 0) kEeloadAddress
    (fun _ _ => rfl) (fun i hi => List.getD_eq_getElem _ _ hi) rfl hstrings hclear
  refine ⟨_, ?_, hrecorded⟩
  unfold sysLoadProgram stageEeload
  dsimp only
  rw [if_neg hsize, hstore]
  rfl

/-- A launch records, with the program's thread, the strings that fit. -/
theorem Launch.Names.recorded {launch : Launch} {eeload : ArchiveFile} {M : Machine}
    {ss : List (List UInt8)} (h : launch.Names I eeload M.ram ss) :
    ∃ M', launch.perform I eeload M = some M' ∧ Recorded I M' (fitting kArgumentBytes ss) := by
  cases launch with
  | exec entry argc argv =>
    have hmapped := h.mapped entry argc argv rfl
    have hargv : ∀ m, SameOutside I M.ram m → pointers argv m = pointers argv M.ram := by
      intro m hm
      funext k
      have hbuffer := I.argumentStrings_le
      exact readWord_congr fun x hx _ => hm x (by omega)
    obtain ⟨M', hstore, hrecorded⟩ := recorded_of_storeArguments
      { M with kernel := terminateOtherThreads M.kernel } argc (pointers argv) entry hargv
      (by simp [Launch.list]) (by simp [Launch.list]) h.strings h.clear
    refine ⟨_, ?_, hrecorded⟩
    show ((storeArguments I _ argc (pointers argv)).map _).map _ = _
    rw [hstore]
    rfl
  | load path argc argv =>
    exact recorded_of_sysLoadProgram (h.eeload (by simp)) h.strings h.clear
  | loadOsd argc argv =>
    exact recorded_of_sysLoadProgram (h.eeload (by simp)) h.strings h.clear
  | bootBrowser =>
    exact recorded_of_sysLoadProgram (h.eeload (by simp)) h.strings h.clear

/-! ### Until the program collects them -/

/-- What happens before: the program writes to its memory, and calls are made that leave alone
what the running thread's record says of the list. -/
inductive Meanwhile
  | poke (address : ℕ) (value : UInt8)
  | call (kernel : State)

/-- What may happen before the program is entered: its memory is written, and the kernel runs
without touching the arguments. -/
def Meanwhile.Step (M : Machine) : Meanwhile → Machine → Prop
  | .poke address value, M' =>
    kProgramStart ≤ address ∧ M' = { M with ram := Function.update M.ram address value }
  | .call kernel, M' =>
    kernel.current.argc = M.kernel.current.argc ∧ kernel.current.args = M.kernel.current.args ∧
      M' = { M with kernel := kernel }

/-- The record of the strings survives what may happen before the program is entered. -/
theorem Recorded.meanwhile {M M' : Machine} {ss : List (List UInt8)} {e : Meanwhile}
    (h : Recorded I M ss) (hst : Meanwhile.Step M e M') : Recorded I M' ss := by
  cases e with
  | poke address value =>
    obtain ⟨haddress, rfl⟩ := hst
    have hbuffer := I.argumentStrings_le
    have hfits := h.fits
    refine ⟨h.buffer.congr fun x _ hx => ?_, h.argc, h.args, h.strings, h.fits⟩
    exact Function.update_of_ne (by omega) ..
  | call kernel =>
    obtain ⟨hargc, hargs, rfl⟩ := hst
    exact ⟨h.buffer, hargc.trans h.argc, hargs.trans h.args, h.strings, h.fits⟩

/-- **Arguments are handed over**: when the program that a launch has left strings for first calls
slot 0x3C, its block hands over those that fit the kernel's buffer and the sixteen pointers, if
and only if no more than sixteen fit the buffer. -/
theorem arguments_handed_over {eeload : ArchiveFile} {M M₁ M₂ : Machine} {launch : Launch}
    {ss : List (List UInt8)} {l : List Meanwhile} (hnames : launch.Names I eeload M.ram ss)
    (hlaunch : launch.perform I eeload M = some M₁) (hrun : Steps Meanwhile.Step M₁ l M₂)
    (gp root stack stackSize args : ℕ) (hframe : kProgramStart ≤ setupFrame I stack stackSize)
    (hargs : kProgramStart ≤ args)
    (hend : args + kStringsAt + (packed ((fitting kArgumentBytes ss).take kArgvSlots)).length ≤
      kRamSize) :
    ∃ frame M₃, sysSetupThread I M₂ gp stack stackSize args root = some (frame, M₃) ∧
      (HandedOver M₃.ram args ((fitting kArgumentBytes ss).take kArgvSlots) ↔
        (fitting kArgumentBytes ss).length ≤ kArgvSlots) := by
  obtain ⟨M', hM', hrecorded⟩ := hnames.recorded
  obtain rfl : M' = M₁ := Option.some.inj (hM'.symm.trans hlaunch)
  have hlast := hrun.invariant (I := fun M => Recorded I M (fitting kArgumentBytes ss))
    (fun _ _ _ h hst => h.meanwhile hst) hrecorded
  exact hlast.sysSetupThread gp root hframe hargs hend

/-- A kernel's image, for the two runs below. -/
def someImage : Image where
  argumentStrings := 0x18000
  bounce := 0x19000
  eeloadName := 0x9000
  rom0Osdsys := 0x9010
  bootBrowser := 0x9020
  memorySize := kRamSize
  argumentStrings_pos := by decide
  argumentStrings_le := by decide
  eeloadName_le := by decide
  eeloadName_apart := by decide

/-- An array of `n` pointers at 0x100000, each to an empty string at 0x100100. -/
def emptyStrings (n : ℕ) : Ram := fun a =>
  if 0x100000 ≤ a ∧ a < 0x100000 + 4 * n then [0x00, 0x01, 0x10, 0x00].getD (a % 4) 0 else 0

/-- A launch with up to 17 empty strings names them. -/
theorem names_emptyStrings {n : ℕ} (hn : n ≤ 17) (eeload : ArchiveFile) :
    (Launch.exec 0x100000 n 0x100000).Names someImage eeload (emptyStrings n)
      (List.replicate n []) := by
  have hpointers : ∀ k ∈ List.range n, pointers 0x100000 (emptyStrings n) k = 0x100100 := by
    have hall : ∀ n ∈ List.range 18, ∀ k ∈ List.range n,
        pointers 0x100000 (emptyStrings n) k = 0x100100 := by decide +kernel
    exact hall n (List.mem_range.mpr (by omega))
  have hstring : cString (emptyStrings n) kRamSize 0x100100 = some [] := by
    have hzero : emptyStrings n 0x100100 = 0 := if_neg (by omega)
    exact cString_eq_some_iff.mpr ⟨List.not_mem_nil, by simpa using hzero, by decide⟩
  have hlist : (Launch.exec 0x100000 n 0x100000).list someImage (emptyStrings n) =
      List.replicate n 0x100100 := by
    refine List.eq_replicate_iff.mpr ⟨by simp [Launch.list], fun p hp => ?_⟩
    obtain ⟨k, hk, rfl⟩ := List.mem_map.mp hp
    exact hpointers k hk
  refine ⟨?_, fun p hp => ?_, ?_, fun h => absurd rfl (h _ _ _)⟩
  · rw [hlist, List.map_replicate, List.map_replicate]
    exact congrArg _ hstring
  · rw [hlist] at hp
    rw [List.eq_of_mem_replicate hp]
    exact clear_of_program (by decide)
  · rintro _ _ _ ⟨⟩
    decide

/-- Two pointers at 0x100000, to `"-v"` and to `"cdrom"`. -/
def twoStrings : Ram :=
  write (write (fun _ => 0) 0x100000 [0x00, 0x01, 0x10, 0x00, 0x03, 0x01, 0x10, 0x00]) 0x100100
    [0x2D, 0x76, 0x00, 0x63, 0x64, 0x72, 0x6F, 0x6D]

/-- A launch with two strings names them. -/
theorem names_twoStrings (eeload : ArchiveFile) :
    (Launch.exec 0x100000 2 0x100000).Names someImage eeload twoStrings
      [[0x2D, 0x76], [0x63, 0x64, 0x72, 0x6F, 0x6D]] := by
  have hlist : (Launch.exec 0x100000 2 0x100000).list someImage twoStrings =
      [0x100100, 0x100103] := by decide +kernel
  have hfirst : cString twoStrings kRamSize 0x100100 = some [0x2D, 0x76] := by
    decide +kernel
  have hsecond : cString twoStrings kRamSize 0x100103 = some [0x63, 0x64, 0x72, 0x6F, 0x6D] := by
    decide +kernel
  refine ⟨?_, fun p hp => ?_, ?_, fun h => absurd rfl (h _ _ _)⟩
  · rw [hlist]
    show [cString twoStrings kRamSize 0x100100, cString twoStrings kRamSize 0x100103] = _
    rw [hfirst, hsecond]
    rfl
  · rw [hlist] at hp
    simp only [List.mem_cons, List.not_mem_nil, or_false] at hp
    rcases hp with rfl | rfl <;> exact clear_of_program (by decide)
  · rintro _ _ _ ⟨⟩
    decide

/-- A program with two arguments of different lengths, collected at once. -/
theorem arguments_handed_over_two :
    ∃ M₁ frame M₃, (Launch.exec 0x100000 2 0x100000).perform someImage ⟨[], fun _ => 0⟩
        ⟨zeroState 0, twoStrings⟩ = some M₁ ∧
      sysSetupThread someImage M₁ 0 0x1F0000 0x1000 0x180000 0 = some (frame, M₃) ∧
      HandedOver M₃.ram 0x180000 [[0x2D, 0x76], [0x63, 0x64, 0x72, 0x6F, 0x6D]] := by
  have hnames := names_twoStrings ⟨[], fun _ => 0⟩
  obtain ⟨M₁, hM₁, -⟩ := hnames.recorded (M := ⟨zeroState 0, twoStrings⟩)
  obtain ⟨frame, M₃, hsetup, hover⟩ := arguments_handed_over (M := ⟨zeroState 0, twoStrings⟩)
    hnames hM₁ (.nil M₁) 0 0 0x1F0000 0x1000 0x180000 (by decide) (by decide) (by decide)
  exact ⟨M₁, frame, M₃, hM₁, hsetup, hover.mpr (by decide)⟩

/-- Seventeen empty arguments fit the kernel's buffer, and the block's first word says seventeen,
with sixteen pointers behind it. -/
theorem seventeen_arguments :
    ¬∀ (I : Image) (eeload : ArchiveFile) (M M₁ M₃ : Machine) (launch : Launch)
      (ss : List (List UInt8)) (gp root stack stackSize args frame : ℕ),
      launch.Names I eeload M.ram ss → launch.perform I eeload M = some M₁ →
      kProgramStart ≤ setupFrame I stack stackSize → kProgramStart ≤ args →
      args + kStringsAt + (packed ((fitting kArgumentBytes ss).take kArgvSlots)).length ≤ kRamSize →
      sysSetupThread I M₁ gp stack stackSize args root = some (frame, M₃) →
      HandedOver M₃.ram args ((fitting kArgumentBytes ss).take kArgvSlots) := by
  intro h
  have hnames := names_emptyStrings (n := 17) (by decide) ⟨[], fun _ => 0⟩
  obtain ⟨M₁, hM₁, hrecorded⟩ := hnames.recorded (M := ⟨zeroState 0, emptyStrings 17⟩)
  have hframe : kProgramStart ≤ setupFrame someImage 0x1F0000 0x1000 := by decide
  obtain ⟨frame, M₃, hsetup, hover⟩ := hrecorded.sysSetupThread 0 0 hframe
    (show kProgramStart ≤ 0x180000 by decide) (by decide)
  have hgiven := h someImage _ _ M₁ M₃ _ _ 0 0 0x1F0000 0x1000 0x180000 frame hnames hM₁ hframe
    (by decide) (by decide) hsetup
  exact absurd (hover.mp hgiven) (by decide)

end PS2Bios.Kernel
