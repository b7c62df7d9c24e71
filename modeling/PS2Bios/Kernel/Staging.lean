import PS2Bios.Kernel.HandOver

/-!
# What EELOAD finds of its strings

Slot 0x06 gathers the pointers of EELOAD's list, clears the memory the old program was in, brings
EELOAD into it, and packs the strings only then. So a string arrives just when no byte of it, its
zero byte included, is changed on the way (`loader_call_delivers`); a path that lies where programs
are linked is read back as the zero that the clearing leaves (`path_cleared`).
-/

namespace PS2Bios.Kernel

open Bytes

variable {I : Image} {eeload : ArchiveFile} {m : Ram}

/-! ### The memory EELOAD is staged to -/

theorem le_inQuadwords (n : ℕ) : n ≤ inQuadwords n := by
  unfold inQuadwords
  omega

/-- A window brings whole quadwords of the file. -/
theorem sifExchange_apply {target done length x : ℕ} :
    sifExchange eeload m target done length x =
      if target ≤ x ∧ x < target + inQuadwords length then eeload.byte (done + (x - target))
      else m x := by
  unfold sifExchange write
  rw [List.length_map, List.length_range]
  by_cases h : target ≤ x ∧ x < target + inQuadwords length
  · rw [if_pos h, if_pos h, List.getD_eq_getElem?_getD, List.getElem?_map,
      List.getElem?_range (by omega)]
    rfl
  · rw [if_neg h, if_neg h]

/-- How much of the file has come with the first `n` windows. -/
def fetched (size n : ℕ) : ℕ :=
  if n * kWindow < size then n * kWindow else inQuadwords size

/-- Nothing is fetched for an empty file. -/
theorem fetched_zero (size : ℕ) : fetched size 0 = 0 := by
  unfold fetched
  split
  · exact Nat.zero_mul _
  · have hzero : size = 0 := by omega
    rw [hzero]
    rfl

/-- The window after `n` others. -/
theorem fetchWindow_apply {target n x : ℕ} (halign : target % 16 = 0)
    (hn : n * kWindow < eeload.size) :
    fetchWindow I eeload target m (n * kWindow) x =
      if target + n * kWindow ≤ x ∧ x < target + fetched eeload.size (n + 1) then
        eeload.byte (x - target)
      else m x := by
  have hwindow : kWindow = 16384 := rfl
  have hend : n * kWindow + inQuadwords (if eeload.size - n * kWindow < kWindow then
      eeload.size - n * kWindow else kWindow) = fetched eeload.size (n + 1) := by
    unfold fetched inQuadwords
    rw [hwindow] at hn ⊢
    split_ifs <;> omega
  unfold fetchWindow
  rw [if_pos halign, sifExchange_apply, Nat.add_assoc, hend]
  by_cases hx : target + n * kWindow ≤ x ∧ x < target + fetched eeload.size (n + 1)
  · rw [if_pos hx, if_pos hx]
    congr 1
    omega
  · rw [if_neg hx, if_neg hx]

/-- **Fetching**: the file's quadwords, at an address that is on a quadword. -/
theorem fetchFile_apply {target x : ℕ} (halign : target % 16 = 0) :
    fetchFile I eeload target m x =
      if target ≤ x ∧ x < target + inQuadwords eeload.size then eeload.byte (x - target)
      else m x := by
  have hwindow : kWindow = 16384 := rfl
  have hgen : ∀ n, n * kWindow < eeload.size + kWindow →
      ((List.range n).map (· * kWindow)).foldl (fetchWindow I eeload target) m x =
        if target ≤ x ∧ x < target + fetched eeload.size n then eeload.byte (x - target)
        else m x := by
    intro n
    induction n with
    | zero =>
      intro _
      rw [fetched_zero, if_neg (by omega)]
      rfl
    | succ n ih =>
      intro hlt
      have hn : n * kWindow < eeload.size := by
        rw [Nat.add_mul] at hlt
        omega
      have hold : fetched eeload.size n = n * kWindow := if_pos hn
      have hnew : n * kWindow ≤ fetched eeload.size (n + 1) := by
        have hle := le_inQuadwords eeload.size
        unfold fetched
        rw [hwindow] at hn ⊢
        split <;> omega
      rw [List.range_succ, List.map_append, List.foldl_append, List.map_singleton, List.foldl_cons,
        List.foldl_nil, fetchWindow_apply halign hn, ih (by omega), hold]
      by_cases hx : target + n * kWindow ≤ x ∧ x < target + fetched eeload.size (n + 1)
      · rw [if_pos hx, if_pos (by omega)]
      · rw [if_neg hx]
        by_cases hx' : target ≤ x ∧ x < target + n * kWindow
        · rw [if_pos hx', if_pos (by omega)]
        · rw [if_neg hx', if_neg (by omega)]
  unfold fetchFile
  rw [hgen _ (by rw [hwindow]; omega)]
  have hall : fetched eeload.size ((eeload.size + kWindow - 1) / kWindow) =
      inQuadwords eeload.size := if_neg (by rw [hwindow]; omega)
  rw [hall]

/-- What staging EELOAD leaves at an address it writes to. -/
def stagedByte (eeload : ArchiveFile) (a : ℕ) : Option UInt8 :=
  if a < kEeloadAddress then none
  else if a < kEeloadAddress + inQuadwords eeload.size then some (eeload.byte (a - kEeloadAddress))
  else if a < kClearEnd then some 0
  else none

/-- A byte after the staging is one that was staged, or the one before. -/
theorem staged_apply (a : ℕ) :
    staged I eeload m a = (stagedByte eeload a).getD (m a) := by
  have halign : kEeloadAddress % 16 = 0 := by decide
  rw [staged, fetchFile_apply halign]
  unfold stagedByte clearMemory
  by_cases hlow : a < kEeloadAddress
  · rw [if_neg (by omega), if_neg (by omega), if_pos hlow, Option.getD_none]
  rw [if_neg hlow]
  by_cases hfile : a < kEeloadAddress + inQuadwords eeload.size
  · rw [if_pos ⟨by omega, hfile⟩, if_pos hfile, Option.getD_some]
  rw [if_neg (by omega), if_neg hfile]
  by_cases hclear : a < kClearEnd
  · rw [if_pos ⟨by omega, hclear⟩, if_pos hclear, Option.getD_some]
  · rw [if_neg (by omega), if_neg hclear, Option.getD_none]

/-! ### The strings -/

/-- Staging EELOAD leaves the bytes of a string, its zero byte included, as they are. -/
def Survives (eeload : ArchiveFile) (m : Ram) (p : ℕ) (s : List UInt8) : Prop :=
  ∀ a, p ≤ a → a ≤ p + s.length → ∀ x, stagedByte eeload a = some x → m a = x

/-- A string is the same after the staging exactly where it survives it. -/
theorem cString_staged_iff {p : ℕ} {s : List UInt8} (h : cString m kRamSize p = some s) :
    cString (staged I eeload m) kRamSize p = some s ↔ Survives eeload m p s := by
  obtain ⟨hzero, hat, hlt⟩ := cString_eq_some_iff.mp h
  constructor
  · intro hstaged a hpa hap x hx
    obtain ⟨-, hat', -⟩ := cString_eq_some_iff.mp hstaged
    obtain ⟨y, hy⟩ : ∃ y, (s ++ [0])[a - p]? = some y :=
      ⟨_, List.getElem?_eq_getElem (by rw [List.length_append, List.length_singleton]; omega)⟩
    have hm := hat (a - p) y hy
    have hm' := hat' (a - p) y hy
    rw [Nat.add_sub_cancel' hpa] at hm hm'
    rw [staged_apply, hx, Option.getD_some] at hm'
    exact hm.trans hm'.symm
  · intro hsurvives
    refine cString_eq_some_iff.mpr ⟨hzero, hat.congr fun a hpa hap => ?_, hlt⟩
    rw [List.length_append, List.length_singleton] at hap
    rw [staged_apply]
    cases hx : stagedByte eeload a with
    | none => rfl
    | some x => exact (hsurvives a hpa (by omega) x hx).symm

/-- The kernel's own name for EELOAD is not where it is staged. -/
theorem cString_eeloadName (h : At m I.eeloadName (kEeloadName ++ [0])) :
    cString (staged I eeload m) kRamSize I.eeloadName = some kEeloadName := by
  have hlow := I.eeloadName_le
  have hstart : kProgramStart < kEeloadAddress := by decide
  have hram : kEeloadAddress < kRamSize := by decide
  have hlen : kEeloadName.length = 6 := rfl
  refine cString_eq_some_iff.mpr ⟨by decide, h.congr fun a _ ha => ?_, by omega⟩
  rw [List.length_append, List.length_singleton] at ha
  rw [staged_apply, stagedByte, if_pos (by omega), Option.getD_none]

/-- A call of slot 0x06 by a program: the list is at most `{ "EELOAD", path, fourteen more }`, its
strings are in the program's memory and fit the kernel's buffer together. -/
structure LoadCall (I : Image) (eeload : ArchiveFile) (m : Ram) (path : ℕ) (argc : ℤ) (argv : ℕ)
    (ss : List (List UInt8)) : Prop where
  present : eeload.size ≠ 0
  rodata : At m I.eeloadName (kEeloadName ++ [0])
  few : argc.toNat ≤ 14
  strings : (path :: (List.range argc.toNat).map (pointers argv m)).map (cString m kRamSize) =
    ss.map some
  mapped : ∀ p ∈ path :: (List.range argc.toNat).map (pointers argv m), kProgramStart ≤ p
  fits : (packed (kEeloadName :: ss)).length ≤ kArgumentBytes

section Call

variable {path argv : ℕ} {argc : ℤ} {ss : List (List UInt8)} {M : Machine}

/-- The list that is packed is EELOAD's name, the path, and the arguments. -/
theorem LoadCall.list_eq (h : LoadCall I eeload m path argc argv ss) :
    loadList I m path argc (pointers argv) =
      I.eeloadName :: path :: (List.range argc.toNat).map (pointers argv m) := by
  unfold loadList
  have hmin : min argc.toNat (kArgumentsMax - 2) = argc.toNat := Nat.min_eq_left h.few
  rw [hmin]

/-- The strings of the list are clear of the kernel's block. -/
theorem LoadCall.clear (h : LoadCall I eeload m path argc argv ss) :
    ∀ p ∈ loadList I m path argc (pointers argv), Clear I (staged I eeload m) p := by
  have hlen : kEeloadName.length = 6 := rfl
  intro p hp
  rw [h.list_eq] at hp
  rcases List.mem_cons.mp hp with rfl | hp
  · rcases I.eeloadName_apart with hle | hle
    · exact .inr ⟨_, cString_eeloadName h.rodata, by omega⟩
    · exact .inl hle
  · exact clear_of_program (h.mapped p hp)

/-- The strings survive: they are packed as they were. -/
theorem LoadCall.delivered (h : LoadCall I eeload M.ram path argc argv ss)
    (hsurvive : ∀ p ∈ path :: (List.range argc.toNat).map (pointers argv M.ram),
      ∀ s, cString M.ram kRamSize p = some s → Survives eeload M.ram p s) :
    ∃ M', sysLoadProgram I eeload M path argc (pointers argv) =
      some ((kEeloadAddress : ℤ), M') ∧
      Recorded I M' (kEeloadName :: ss) := by
  have hstaged : (loadList I M.ram path argc (pointers argv)).map
      (cString (staged I eeload M.ram) kRamSize) = (kEeloadName :: ss).map some := by
    rw [h.list_eq, List.map_cons, cString_eeloadName h.rodata]
    refine congrArg (some kEeloadName :: ·) ?_
    rw [← h.strings]
    refine List.map_congr_left fun p hp => ?_
    have hmem : cString M.ram kRamSize p ∈ ss.map some := h.strings ▸ List.mem_map_of_mem hp
    obtain ⟨s, -, hs⟩ := List.mem_map.mp hmem
    rw [← hs]
    exact (cString_staged_iff hs.symm).mpr (hsurvive p hp s hs.symm)
  obtain ⟨M', hstore, hrecorded⟩ := recorded_of_storeArguments
    ⟨terminateOtherThreads M.kernel, staged I eeload M.ram⟩
    (loadList I M.ram path argc (pointers argv)).length
    (fun _ k => (loadList I M.ram path argc (pointers argv)).getD k 0) kEeloadAddress
    (fun _ _ => rfl) (fun i hi => List.getD_eq_getElem _ _ hi) rfl hstaged h.clear
  rw [fitting_eq_self h.fits] at hrecorded
  refine ⟨_, ?_, hrecorded⟩
  unfold sysLoadProgram stageEeload
  dsimp only
  rw [if_neg h.present]
  rw [hstore]
  rfl

/-- Packed as they were, the strings have survived. -/
theorem LoadCall.survive (h : LoadCall I eeload M.ram path argc argv ss) {M' : Machine}
    {address : ℤ} (hload : sysLoadProgram I eeload M path argc (pointers argv) = some (address, M'))
    (hrecorded : Recorded I M' (kEeloadName :: ss)) :
    ∀ p ∈ path :: (List.range argc.toNat).map (pointers argv M.ram),
      ∀ s, cString M.ram kRamSize p = some s → Survives eeload M.ram p s := by
  unfold sysLoadProgram stageEeload storeArguments at hload
  dsimp only at hload
  rw [if_neg h.present, packStrings_eq (fun m (_ : SameOutside I (staged I eeload M.ram) m) => rfl)
    (fun j _ hj => ?_) (fun _ _ => rfl) (Nat.zero_le _)] at hload
  · simp only [Option.map_map, Option.map_eq_some_iff, Function.comp_apply, Prod.mk.injEq] at hload
    obtain ⟨ts, hread, -, rfl⟩ := hload
    have hlen : ts.length = (kEeloadName :: ss).length := by
      rw [← hrecorded.argc]
      simp [State.current, setEpc, setProgramArguments]
    have hnamed := cString_of_readStrings hread
    have hts : ∀ t ∈ ts, 0 ∉ t := by
      intro t ht
      obtain ⟨i, hi⟩ := List.mem_iff_getElem?.mp ht
      exact (cString_eq_some_iff.mp (hnamed i t hi)).1
    obtain rfl : ts = kEeloadName :: ss :=
      packed_injective hts hrecorded.strings hlen at_write hrecorded.buffer
    intro p hp s hs
    obtain ⟨i, hi⟩ := List.mem_iff_getElem?.mp hp
    have hgot : ss[i]? = some s := by
      have hget := congrArg (fun l => l[i]?) h.strings
      simp only [List.getElem?_map, hi, Option.map_some, hs] at hget
      cases hss : ss[i]? with
      | none => simp [hss] at hget
      | some t => simpa [hss] using hget.symm
    have hstaged := hnamed (i + 1) s hgot
    have hpointer : (loadList I M.ram path argc (pointers argv)).getD (0 + (i + 1)) 0 = p := by
      rw [h.list_eq, Nat.zero_add, List.getD_eq_getElem?_getD, List.getElem?_cons_succ, hi]
      rfl
    rw [hpointer] at hstaged
    exact (cString_staged_iff hs).mp hstaged
  · rw [Nat.zero_add] at hj
    rw [List.getD_eq_getElem _ _ hj]
    exact h.clear _ (List.getElem_mem _)

/-- **A loader call delivers its strings** just when none of their bytes is where EELOAD is staged
to, or is as it is left there. -/
theorem loader_call_delivers (h : LoadCall I eeload M.ram path argc argv ss) :
    (∃ M', sysLoadProgram I eeload M path argc (pointers argv) =
      some ((kEeloadAddress : ℤ), M') ∧
      Recorded I M' (kEeloadName :: ss)) ↔
    ∀ p ∈ path :: (List.range argc.toNat).map (pointers argv M.ram),
      ∀ s, cString M.ram kRamSize p = some s → Survives eeload M.ram p s :=
  ⟨fun ⟨_, hload, hrecorded⟩ => h.survive hload hrecorded, h.delivered⟩

end Call

/-- Memory with the kernel's name for EELOAD and the path `"a"` at `p`. -/
def pathRam (p : ℕ) : Ram :=
  write (write (fun _ => 0) someImage.eeloadName (kEeloadName ++ [0])) p [0x61, 0]

/-- A path outside the staging's places names a load. -/
theorem loadCall_path {p : ℕ} (hp : kProgramStart ≤ p) (hlt : p + 1 < kRamSize) :
    LoadCall someImage ⟨[1], fun _ => 0⟩ (pathRam p) p 0 0 [[0x61]] := by
  have hname : someImage.eeloadName + 7 ≤ kProgramStart := someImage.eeloadName_le
  have hlen : kEeloadName.length = 6 := rfl
  have hstring : cString (pathRam p) kRamSize p = some [0x61] :=
    cString_eq_some_iff.mpr ⟨by decide, at_write, hlt⟩
  refine ⟨by decide, at_write.congr fun x _ hx => write_of_not ?_, by decide, ?_, ?_, by decide⟩
  · rw [List.length_append, List.length_singleton] at hx
    omega
  · simp [hstring]
  · simpa using hp

/-- A path below EELOAD arrives. -/
theorem loader_call_delivers_low : ∃ M', sysLoadProgram someImage ⟨[1], fun _ => 0⟩
    ⟨zeroState 0, pathRam 0x80000⟩ 0x80000 0 (pointers 0) = some ((kEeloadAddress : ℤ), M') ∧
      Recorded someImage M' [kEeloadName, [0x61]] := by
  have hcall := loadCall_path (p := 0x80000) (by decide) (by decide)
  refine (loader_call_delivers (M := ⟨zeroState 0, pathRam 0x80000⟩) hcall).mpr ?_
  intro p hp s hs a hpa hap x hx
  obtain rfl : p = 0x80000 := by simpa using hp
  have hstring : cString (pathRam 0x80000) kRamSize 0x80000 = some [0x61] :=
    cString_eq_some_iff.mpr ⟨by decide, at_write, by decide⟩
  obtain rfl := Option.some.inj (hstring.symm.trans hs)
  have hlow : a < kEeloadAddress := lt_of_le_of_lt hap (by decide)
  unfold stagedByte at hx
  rw [if_pos hlow] at hx
  cases hx

/-- A path where programs are linked is cleared before it is packed. -/
theorem path_cleared :
    ¬∀ (I : Image) (eeload : ArchiveFile) (M : Machine) (path argv : ℕ) (argc : ℤ)
      (ss : List (List UInt8)), LoadCall I eeload M.ram path argc argv ss →
      ∃ M', sysLoadProgram I eeload M path argc (pointers argv) =
        some ((kEeloadAddress : ℤ), M') ∧ Recorded I M' (kEeloadName :: ss) := by
  intro h
  have hcall := loadCall_path (p := 0x100000) (by decide) (by decide)
  obtain ⟨M', hload, hrecorded⟩ := h _ _ ⟨zeroState 0, pathRam 0x100000⟩ _ _ _ _ hcall
  have hstring : cString (pathRam 0x100000) kRamSize 0x100000 = some [0x61] :=
    cString_eq_some_iff.mpr ⟨by decide, at_write, by decide⟩
  have hsurvives := LoadCall.survive (M := ⟨zeroState 0, pathRam 0x100000⟩) hcall hload hrecorded
    0x100000 List.mem_cons_self [0x61] hstring
  have hbyte := hsurvives 0x100000 (Nat.le_refl _) (by decide) 0 (by decide)
  exact absurd hbyte (by decide)

end PS2Bios.Kernel
