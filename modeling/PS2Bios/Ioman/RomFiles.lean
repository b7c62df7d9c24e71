import PS2Bios.Ioman.RomHandles
import PS2Bios.Rom.Agreement

/-!
# Files of the ROM through descriptors

What a descriptor delivers over a sequence of calls, whatever is done with other descriptors
between them (`received_eq`), and which file of an archive it is of: in every state that calls lead
to, `Exact` holds (`romFiles_exact`).
-/

namespace PS2Bios.Ioman.Romdrv

open Bytes

variable {τ : Type} {M : Machine τ} {s : State (World τ)} {fd : ℕ}

/-! ### Reads one after another -/

/-- What a call delivers to a descriptor: the bytes that are in the buffer of a read, as many as it
answers. -/
def delivered (fd : ℤ) (c : FileCall) (r : ℤ × State (World τ)) : List UInt8 :=
  match c with
  | .readFile fd' buffer _ => if fd' = fd then readBytes r.2.world.ram buffer r.1.toNat else []
  | _ => []

/-- What is delivered to a descriptor by a sequence of calls. -/
def Machine.received (M : Machine τ) (fd : ℤ) : List FileCall → State (World τ) → List UInt8
  | [], _ => []
  | c :: cs, s => delivered fd c (M.call c s) ++ M.received fd cs (M.call c s).2

/-- How much a call asks for. -/
def asked (fd : ℤ) : FileCall → ℕ
  | .readFile fd' _ size => if fd' = fd then size.toNat else 0
  | _ => 0

/-- The calls on a descriptor are reads. -/
def OnlyReads (fd : ℤ) (cs : List FileCall) : Prop :=
  ∀ c ∈ cs, c.fd = some fd → ∃ buffer size, c = .readFile fd buffer size

/-- Who views a descriptor's file reads the image's bytes that its handle names. -/
theorem Views.isRomFile {r : Reading UInt8} (hr : Views M s fd r) (h : Kept M s) :
    ∃ file handle, IsRomFile M s fd file handle ∧
      r.data = readBytes M.rom handle.bytes handle.size ∧ r.position = handle.position := by
  obtain ⟨k, handle, hholds, hhandle, hdata, hposition⟩ := hr.holds
  obtain ⟨file, hget, hdevice, rfl⟩ := owner_eq_some_iff.mp hholds
  have hfile : fileOf s.files (fd : ℤ) = some (file, M.device) :=
    fileOf_eq_some_iff.mpr ⟨Int.natCast_nonneg fd, hget, hdevice⟩
  obtain ⟨-, handle', hrom⟩ := h.isRomFile hfile
  obtain rfl : handle' = handle := Option.some.inj (hrom.handle_get.symm.trans hhandle)
  exact ⟨file, handle', hrom, hdata, hposition⟩

/-- What a read does, and the descriptor reads on behind it. -/
theorem Views.readFile {r : Reading UInt8} (hr : Views M s fd r) (h : Kept M s) (buffer : ℕ)
    (size : ℤ) :
    (M.call (.readFile fd buffer size) s).1 = (r.rest.take size.toNat).length ∧
    (M.call (.readFile fd buffer size) s).2.world.ram =
      write s.world.ram buffer (r.rest.take size.toNat) ∧
    Views M (M.call (.readFile fd buffer size) s).2 fd (r.advance size.toNat) := by
  obtain ⟨file, handle, hrom, hdata, hposition⟩ := hr.isRomFile h
  have hle := hrom.position_le
  have hlength : readLength handle size = min size.toNat (handle.size - handle.position) := by
    rw [readLength, sub32_eq hle hrom.size_lt]
  have hbytes : r.rest.take size.toNat =
      readBytes M.rom (handle.bytes + handle.position) (readLength handle size) := by
    have hall : r.rest.take (handle.size - handle.position) = r.rest := by
      refine List.take_of_length_le ?_
      rw [Reading.length_rest, hdata, hposition, length_readBytes]
    have htake : r.rest.take size.toNat = r.rest.take (readLength handle size) := by
      rw [hlength, ← List.take_take, hall]
    rw [htake, Reading.rest, hdata, hposition, take_drop_readBytes (by omega)]
  rw [hrom.readFile_eq, hbytes]
  refine ⟨by rw [length_readBytes], rfl, ⟨_, { handle with
    position := handle.position + readLength handle size }, hrom.owner, ?_, hdata, ?_⟩⟩
  · rw [List.getElem?_set_self (List.getElem?_eq_some_iff.mp hrom.handle_get).1]
  · rw [Reading.position_advance, hdata, hposition, length_readBytes, hlength]
    dsimp only
    omega

/-- Where an offset of a seek counts from. -/
def seekOrigin (r : Reading UInt8) (whence : ℤ) : Option ℕ :=
  if whence = 0 then some 0
  else if whence = 1 then some r.position
  else if whence = 2 then some r.data.length
  else none

/-- Where a seek goes: the sum is an `int32_t`, and is clamped to the file. From 2^31 bytes on its
end is the one place left. -/
def seekTarget (origin : ℕ) (offset : ℤ) (size : ℕ) : ℤ :=
  if size < 2 ^ 31 then max 0 (min (int32 (toWord (origin + offset))) size) else size

/-- The position is kept inside the file, and a word holds it. -/
theorem clamped_eq (position : ℤ) {size : ℕ} (hsize : size < 2 ^ 32) :
    ∃ n : ℕ, n ≤ size ∧ (n : ℤ) = (if size < 2 ^ 31 then max 0 (min position size) else size) ∧
      clamped position size = int32 n ∧ toWord (clamped position size) = n := by
  by_cases hsmall : size < 2 ^ 31
  · have hclamped : clamped position size = max 0 (min position size) := by
      rw [clamped, int32_of_lt hsmall]
      split <;> split <;> omega
    obtain ⟨n, hn⟩ := Int.eq_ofNat_of_zero_le (le_max_left 0 (min position (size : ℤ)))
    have hle : n ≤ size := by omega
    refine ⟨n, hle, by rw [if_pos hsmall, hn], ?_, ?_⟩
    · rw [hclamped, hn, int32_of_lt (by omega)]
    · rw [hclamped, hn, toWord]
      omega
  · have hint : int32 size = (size : ℤ) - 2 ^ 32 := by
      rw [int32, Nat.mod_eq_of_lt hsize, if_neg hsmall]
      omega
    have hclamped : clamped position size = int32 size := by
      rw [clamped]
      split <;> split <;> omega
    refine ⟨size, le_rfl, by rw [if_neg hsmall], hclamped, ?_⟩
    rw [hclamped, hint, toWord]
    omega

/-- A seek moves the position, and only that. -/
theorem Views.lseekFile {r : Reading UInt8} (hr : Views M s fd r) (h : Kept M s) (offset : ℤ)
    {whence : ℤ} {origin : ℕ} (horigin : seekOrigin r whence = some origin) : ∃ r' : Reading UInt8,
    r'.data = r.data ∧ (r'.position : ℤ) = seekTarget origin offset r.data.length ∧
    (M.call (.lseekFile fd offset whence) s).1 = int32 r'.position ∧
    Views M (M.call (.lseekFile fd offset whence) s).2 fd r' := by
  obtain ⟨file, handle, hrom, hdata, hposition⟩ := hr.isRomFile h
  have hlength : r.data.length = handle.size := by rw [hdata, length_readBytes]
  obtain ⟨base, hbase, hword⟩ : ∃ base, seekBase handle whence = some base ∧
      toWord (base + offset) = toWord (origin + offset) := by
    rw [seekOrigin, hposition, hlength] at horigin
    rw [seekBase]
    split at horigin
    · cases horigin
      exact ⟨0, if_pos ‹_›, rfl⟩
    rw [if_neg ‹_›]
    split at horigin
    · cases horigin
      exact ⟨_, if_pos ‹_›, toWord_int32_add _ _⟩
    rw [if_neg ‹_›]
    split at horigin
    · cases horigin
      exact ⟨_, if_pos ‹_›, toWord_int32_add _ _⟩
    · cases horigin
  obtain ⟨n, hle, hn, hanswer, htoWord⟩ :=
    clamped_eq (int32 (toWord (origin + offset))) hrom.size_lt
  have htarget : (n : ℤ) = seekTarget origin offset r.data.length := by
    rw [hlength, hn, seekTarget]
  rw [hrom.lseekFile_eq offset hbase, hword, htoWord, hanswer]
  refine ⟨⟨r.data, n, by rwa [hlength]⟩, rfl, htarget, rfl,
    ⟨_, { handle with position := n }, hrom.owner, ?_, hdata, rfl⟩⟩
  rw [List.getElem?_set_self (List.getElem?_eq_some_iff.mp hrom.handle_get).1]

/-- A seek from nowhere there is is refused and changes nothing. -/
theorem Views.lseekFile_refused {r : Reading UInt8} (hr : Views M s fd r) (h : Kept M s)
    (offset : ℤ) {whence : ℤ} (horigin : seekOrigin r whence = none) :
    M.call (.lseekFile fd offset whence) s = (kErrorBadWhence, s) := by
  obtain ⟨file, handle, hrom, -, -⟩ := hr.isRomFile h
  refine hrom.lseekFile_refused offset ?_
  rw [seekOrigin] at horigin
  rw [seekBase]
  split at horigin
  · cases horigin
  rw [if_neg ‹_›]
  split at horigin
  · cases horigin
  rw [if_neg ‹_›]
  split at horigin
  · cases horigin
  · exact if_neg ‹_›

/-- A descriptor that is closed is none. -/
theorem Views.closeFile {r : Reading UInt8} (hr : Views M s fd r) (h : Kept M s) :
    (M.call (.closeFile fd) s).1 = 0 ∧ fileOf (M.call (.closeFile fd) s).2.files fd = none := by
  obtain ⟨file, handle, hrom, -, -⟩ := hr.isRomFile h
  rw [hrom.closeFile_eq, fileOf, if_neg (by omega), Int.toNat_natCast,
    List.getElem?_set_self (List.getElem?_eq_some_iff.mp hrom.get).1]
  exact ⟨rfl, rfl⟩

/-- Reads one after another deliver what is left, as far as is asked for, whatever is done with
other descriptors in between. -/
theorem received_eq (hsized : M.Sized) {r : Reading UInt8} (h : Kept M s) (hr : Views M s fd r)
    {cs : List FileCall} (hcs : OnlyReads fd cs) :
    M.received fd cs s = r.rest.take (cs.map (asked fd)).sum := by
  induction cs generalizing s r with
  | nil => rw [Machine.received, List.map_nil, List.sum_nil, List.take_zero]
  | cons c cs ih =>
    have hnext := (call_effect hsized h c).kept h
    have hrest : OnlyReads fd cs := fun c' hc' => hcs c' (List.mem_cons_of_mem c hc')
    rw [Machine.received, List.map_cons, List.sum_cons]
    by_cases hc : c.fd = some (fd : ℤ)
    · obtain ⟨buffer, size, rfl⟩ := hcs c List.mem_cons_self hc
      obtain ⟨hanswer, hram, hviews⟩ := hr.readFile h buffer size
      have hgot : delivered fd (.readFile fd buffer size)
          (M.call (.readFile fd buffer size) s) = r.rest.take size.toNat := by
        rw [delivered, if_pos rfl, hanswer, hram, Int.toNat_natCast]
        exact readBytes_of_at at_write
      rw [hgot, ih hnext hviews hrest, asked, if_pos rfl, Reading.take_rest]
    · have hnone : delivered fd c (M.call c s) = [] ∧ asked fd c = 0 := by
        cases c with
        | readFile fd' buffer size =>
          have hne : fd' ≠ (fd : ℤ) := fun heq => hc (congrArg some heq)
          exact ⟨if_neg hne, if_neg hne⟩
        | openFile path flags => exact ⟨rfl, rfl⟩
        | closeFile fd' => exact ⟨rfl, rfl⟩
        | lseekFile fd' offset whence => exact ⟨rfl, rfl⟩
      rw [hnone.1, hnone.2, List.nil_append, Nat.zero_add]
      exact ih hnext ((call_effect hsized h c).views h hr hc) hrest

/-! ### The files of archives -/

/-- The unit's image is the archive of these files, or there is none. -/
def Machine.Bound (M : Machine τ) (unit : ℕ) (files : List Rom.File) : Prop :=
  (M.images unit).romdirStart = 0 ∧ files = [] ∨
    ∃ base image last, Rom.Placed M.rom base files image ∧
      M.images unit = ⟨base, base + Rom.offset files 1, last⟩ ∧ files.length < M.fuel

theorem length_nameAt_le (m : Ram) (name : ℕ) : (nameAt m name).length ≤ Rom.kNameLength := by
  have hle := (List.takeWhile_sublist (· ≠ 0) (l := readBytes m name Rom.kNameLength)).length_le
  rwa [length_readBytes] at hle

theorem zero_notMem_nameAt (m : Ram) (name : ℕ) : 0 ∉ nameAt m name := fun h => by
  simpa using List.mem_takeWhile_imp h

/-- What is found is the first file of the name, and a file of the name is found. -/
theorem Machine.Bound.lookup_eq {unit : ℕ} {files : List Rom.File} (h : M.Bound unit files)
    {m : Ram} {name : ℕ} {found : Rom.Place}
    (hfound : M.lookup unit (nameAt m name) = some found) : ∃ i f,
      Rom.IsFirst files (nameAt m name) i f ∧ f.data.length < 2 ^ 32 ∧
      f.data = readBytes M.rom found.address found.size := by
  rcases h with ⟨hnone, -⟩ | ⟨base, image, last, hplaced, himage, hfuel⟩
  · rw [Machine.lookup, Rom.Romdrv.lookup, if_pos hnone] at hfound
    cases hfound
  · have hlen := length_nameAt_le m name
    have hzero := zero_notMem_nameAt m name
    have hfinds := Rom.Romdrv.lookup_finds hplaced hlen hzero last
    obtain ⟨r, hr⟩ := Option.isSome_iff_exists.mp
      (Rom.Romdrv.lookup_isSome hplaced hlen hzero last hfuel)
    rw [Machine.lookup, himage, hr, Option.getD_some] at hfound
    subst hfound
    rcases Rom.exists_isFirst_or files (nameAt m name) with ⟨i, f, hfirst⟩ | hnone
    · have hplace := (hfinds.1 i f hfirst).eq hr
      have hdata := readBytes_of_at (hplaced.file_at hfirst.get)
      refine ⟨i, f, hfirst, hplaced.archive.data_lt f (List.mem_of_getElem? hfirst.get), ?_⟩
      rw [Option.some.inj hplace, hdata]
    · have hplace := (hfinds.2 hnone).eq hr
      cases hplace

/-- A file of the archive is looked up in its image. -/
theorem Machine.Bound.lookup_isSome {unit : ℕ} {files : List Rom.File} (h : M.Bound unit files)
    {m : Ram} {name i : ℕ} {f : Rom.File} (hfirst : Rom.IsFirst files (nameAt m name) i f) :
    (M.lookup unit (nameAt m name)).isSome := by
  rcases h with ⟨-, rfl⟩ | ⟨base, image, last, hplaced, himage, hfuel⟩
  · have hget := hfirst.get
    rw [List.getElem?_nil] at hget
    cases hget
  · have hlen := length_nameAt_le m name
    have hzero := zero_notMem_nameAt m name
    obtain ⟨r, hr⟩ := Option.isSome_iff_exists.mp
      (Rom.Romdrv.lookup_isSome hplaced hlen hzero last hfuel)
    have hplace := ((Rom.Romdrv.lookup_finds hplaced hlen hzero last).1 i f hfirst).eq hr
    rw [Machine.lookup, himage, hr, Option.getD_some, hplace, Option.isSome_some]

theorem sized_of_bound {archive : ℕ → List Rom.File}
    (h : ∀ unit < kUnits, M.Bound unit (archive unit)) : M.Sized := by
  intro unit hunit ram name found hfound
  obtain ⟨i, f, -, hlt, hdata⟩ := (h unit hunit).lookup_eq hfound
  rwa [hdata, length_readBytes] at hlt

/-- As the modules' starts leave the two tables. -/
structure Fresh (s : State (World τ)) : Prop where
  length_files : s.files.length = kFiles
  length_handles : s.world.handles.length = kHandles
  files_free : ∀ file ∈ s.files, file.device = none
  handles_free : ∀ handle ∈ s.world.handles, handle.inUse = false

/-- A fresh machine is kept, since nothing is open. -/
theorem Fresh.kept (h : Fresh s) : Kept M s where
  owns := by
    refine Owns.of_none (fun fd => ?_) ?_
    · cases hfile : s.files[fd]? with
      | none => rw [Machine.owner, hfile, Option.filter_none, Option.map_none]
      | some file =>
        refine owner_eq_none hfile ?_
        rw [h.files_free file (List.mem_of_getElem? hfile)]
        exact fun h => by cases h
    · rintro k ⟨handle, hhandle, hin⟩
      rw [h.handles_free handle (List.mem_of_getElem? hhandle)] at hin
      cases hin
  length_handles := h.length_handles
  found handle hmem hin := absurd hin (by simp [h.handles_free handle hmem])
  size_lt handle hmem hin := absurd hin (by simp [h.handles_free handle hmem])
  position_le handle hmem hin := absurd hin (by simp [h.handles_free handle hmem])

/-- What holds of the files of archives in a state. -/
structure Exact (M : Machine τ) (archive : ℕ → List Rom.File) (s : State (World τ)) : Prop where
  /-- Distinct descriptors hold distinct handles, and no handle is in use without one. -/
  owns : Owns (M.owner s.files) (InUse s.world.handles)
  /-- Every position is within its file. -/
  position_le : ∀ handle ∈ s.world.handles, handle.inUse → handle.position ≤ handle.size
  /-- Every descriptor of `ROMDRV`'s is of a file of an archive. -/
  views : ∀ fd k, M.owner s.files fd = some k → ∃ r, Views M s fd r ∧
    ∃ unit < kUnits, ∃ f ∈ archive unit, r.data = f.data
  /-- An open that fails leaves both tables as they were. -/
  failed : ∀ path flags, (M.call (.openFile path flags) s).1 < 0 →
    SameFiles s.files (M.call (.openFile path flags) s).2.files ∧
      (M.call (.openFile path flags) s).2.world.handles = s.world.handles
  /-- An open fails unless its unit and its flags are right, a record and a handle are free, and
  the unit's archive has a file of the name. -/
  opens : ∀ path flags unit rest, parse s.world.ram s.drivers path = ⟨some M.device, unit, rest⟩ →
    (0 ≤ (M.call (.openFile path flags) s).1 ↔ (∃ file ∈ s.files, file.device = none) ∧
      unit.toNat < kUnits ∧ flags = 1 ∧
      (∃ i f, Rom.IsFirst (archive unit.toNat) (nameAt s.world.ram rest) i f) ∧
      ∃ handle ∈ s.world.handles, handle.inUse = false)
  /-- One that does not fail is at the start of the first file of the name. -/
  opened : ∀ path flags unit rest, 0 ≤ (M.call (.openFile path flags) s).1 →
    parse s.world.ram s.drivers path = ⟨some M.device, unit, rest⟩ → ∃ i f r,
      Rom.IsFirst (archive unit.toNat) (nameAt s.world.ram rest) i f ∧
      Views M (M.call (.openFile path flags) s).2 (M.call (.openFile path flags) s).1.toNat r ∧
      r.data = f.data ∧ r.position = 0
  /-- Reads, whatever is done with other descriptors between them, deliver what is left of the
  file from the position on. -/
  reads : ∀ fd r cs, Views M s fd r → OnlyReads fd cs →
    M.received fd cs s = r.rest.take (cs.map (asked fd)).sum
  /-- A seek answers where it leaves the position, and leaves the rest of what is read. -/
  seeks : ∀ fd r offset whence origin, Views M s fd r → seekOrigin r whence = some origin →
    ∃ r' : Reading UInt8, r'.data = r.data ∧
      (r'.position : ℤ) = seekTarget origin offset r.data.length ∧
      (M.call (.lseekFile fd offset whence) s).1 = int32 r'.position ∧
      Views M (M.call (.lseekFile fd offset whence) s).2 fd r'
  /-- One that counts from nowhere is refused. -/
  refused : ∀ fd r offset whence, Views M s fd r → seekOrigin r whence = none →
    M.call (.lseekFile fd offset whence) s = (kErrorBadWhence, s)
  /-- A descriptor that is closed is none. -/
  closed : ∀ fd r, Views M s fd r → (M.call (.closeFile fd) s).1 = 0 ∧
    fileOf (M.call (.closeFile fd) s).2.files fd = none

theorem exists_reading {handle : Handle} (hle : handle.position ≤ handle.size) :
    ∃ r : Reading UInt8, r.data = readBytes M.rom handle.bytes handle.size ∧
      r.position = handle.position :=
  ⟨⟨readBytes M.rom handle.bytes handle.size, handle.position, by rwa [length_readBytes]⟩, rfl, rfl⟩

/-- Whatever is open in a machine that is kept is read exactly. -/
theorem Kept.exact {archive : ℕ → List Rom.File}
    (hbound : ∀ unit < kUnits, M.Bound unit (archive unit)) (h : Kept M s) :
    Exact M archive s := by
  have hsized := sized_of_bound hbound
  refine ⟨h.owns, h.position_le, fun fd k howner => ?_, fun path flags hfailed => ?_,
    fun path flags unit rest hparse => ?_, fun path flags unit rest hopened hparse => ?_,
    fun fd r cs hr hcs => received_eq hsized h hr hcs,
    fun fd r offset whence origin hr horigin => hr.lseekFile h offset horigin,
    fun fd r offset whence hr horigin => hr.lseekFile_refused h offset horigin,
    fun fd r hr => hr.closeFile h⟩
  · obtain ⟨handle, hhandle, hin⟩ := h.owns.used_of fd k howner
    have hmem := List.mem_of_getElem? hhandle
    obtain ⟨r, hdata, hposition⟩ := exists_reading (M := M) (h.position_le handle hmem hin)
    obtain ⟨unit, hunit, ram, name, hlookup⟩ := h.found handle hmem hin
    obtain ⟨i, f, hfirst, -, hfile⟩ := (hbound unit hunit).lookup_eq hlookup
    exact ⟨r, ⟨k, handle, howner, hhandle, hdata, hposition⟩, unit, hunit, f,
      List.mem_of_getElem? hfirst.get, hdata.trans hfile.symm⟩
  · exact (openFile_opened hsized h.length_handles path flags).failed hfailed
  · rw [call_openFile_nonneg_iff hparse]
    refine and_congr_right fun _ => and_congr_right fun hunit => and_congr_right fun _ =>
      and_congr_left fun _ => ⟨fun hsome => ?_, fun hexists => ?_⟩
    · obtain ⟨found, hfound⟩ := Option.isSome_iff_exists.mp hsome
      obtain ⟨i, f, hfirst, -, -⟩ := (hbound _ hunit).lookup_eq hfound
      exact ⟨i, f, hfirst⟩
    · obtain ⟨i, f, hfirst⟩ := hexists
      exact (hbound _ hunit).lookup_isSome hfirst
  · obtain ⟨k, found, hlookup, hunit, howner, hhandle⟩ :=
      (openFile_opened hsized h.length_handles path flags).file hopened unit rest hparse
    obtain ⟨i, f, hfirst, -, hfile⟩ := (hbound _ hunit).lookup_eq hlookup
    obtain ⟨r, hdata, hposition⟩ := exists_reading (M := M)
      (show (⟨true, found.address, found.size, 0⟩ : Handle).position ≤ _ from Nat.zero_le _)
    exact ⟨i, f, r, hfirst, ⟨k, _, howner, hhandle, hdata, hposition⟩, hdata.trans hfile.symm,
      hposition⟩

/-- In every state that calls lead to, whatever the archives hold. -/
theorem romFiles_exact {archive : ℕ → List Rom.File}
    (hbound : ∀ unit < kUnits, M.Bound unit (archive unit)) (hfresh : Fresh s)
    (cs : List FileCall) : Exact M archive (M.calls cs s) :=
  (calls_kept (sized_of_bound hbound) hfresh.kept cs).exact hbound

/-! ### A small ROM -/

/-- A driver that does nothing. -/
def silent : Driver Unit where
  init w := (0, w)
  deinit w := (0, w)
  openFile file _ _ w := (0, file.privdata, w)
  closeFile file w := (0, file.privdata, w)
  readFile file _ _ w := (0, file.privdata, w)
  lseekFile file _ _ w := (0, file.privdata, w)

/-- A small archive, bound to the first unit. -/
def smallMachine : Machine Unit where
  rom := Rom.romRam Rom.twoNames
  images unit := if unit = 0 then
    ⟨Rom.Udnl.kRomSearchStart,
      Rom.Udnl.kRomSearchStart + Rom.offset (Rom.romSource Rom.twoNames).2.files 1, 0⟩
    else ⟨0, 0, 0⟩
  fuel := 8
  device := ⟨0x1000, 0x200⟩
  others _ := silent

/-- One unit holds the archive of two files, the others none. -/
def smallArchive (unit : ℕ) : List Rom.File :=
  if unit = 0 then (Rom.romSource Rom.twoNames).2.files else []

/-- `rom` is registered, with its name at `0x200`, and `rom0:A` is at `0x210`. -/
def smallState : State (World Unit) where
  drivers := [some ⟨0x1000, 0x200⟩]
  files := List.replicate kFiles ⟨0, 0, none, 0⟩
  world := {
    handles := List.replicate kHandles ⟨false, 0, 0, 0⟩
    ram := write (write (fun _ => 0) 0x200 [114, 111, 109, 0]) 0x210
      [114, 111, 109, 48, 58, 65, 0]
    elsewhere := () }

/-- The small archive lies in the image of its unit. -/
theorem bound_small : ∀ unit < kUnits, smallMachine.Bound unit (smallArchive unit) := by
  intro unit _
  by_cases hunit : unit = 0
  · have hplaced : Rom.Placed smallMachine.rom Rom.Udnl.kRomSearchStart
        (Rom.romSource Rom.twoNames).2.files (Rom.romSource Rom.twoNames).1 :=
      Rom.placed_romSource Rom.isBootList_twoNames (by decide +kernel) (by decide +kernel)
    rw [smallArchive, if_pos hunit]
    exact Or.inr ⟨_, _, 0, hplaced, if_pos hunit, by decide +kernel⟩
  · refine Or.inl ⟨?_, if_neg hunit⟩
    have himage : smallMachine.images unit = ⟨0, 0, 0⟩ := if_neg hunit
    rw [himage]

theorem fresh_small : Fresh smallState :=
  ⟨List.length_replicate, List.length_replicate,
    fun _ hfile => by rw [List.eq_of_mem_replicate hfile],
    fun _ hhandle => by rw [List.eq_of_mem_replicate hhandle]⟩

/-- The file is opened twice; the first descriptor reads two of its bytes. -/
def twiceOpened : List FileCall := [.openFile 0x210 1, .openFile 0x210 1, .readFile 0 0x100 2]

/-- What is read through either descriptor behind that, with a seek in the other in between. -/
theorem romFiles_exact_small :
    Exact smallMachine smallArchive (smallMachine.calls twiceOpened smallState) ∧
    Views smallMachine (smallMachine.calls twiceOpened smallState) 0
      ⟨[0x61, 0x62, 0x63], 2, by decide⟩ ∧
    Views smallMachine (smallMachine.calls twiceOpened smallState) 1
      ⟨[0x61, 0x62, 0x63], 0, by decide⟩ ∧
    smallMachine.received 1 [.readFile 1 0x100 1, .lseekFile 0 (-9) 2, .readFile 1 0x101 7]
      (smallMachine.calls twiceOpened smallState) = [0x61, 0x62, 0x63] ∧
    (smallMachine.call (.lseekFile 0 (-2) 2)
      (smallMachine.calls twiceOpened smallState)).1 = 1 := by
  have hexact : Exact smallMachine smallArchive (smallMachine.calls twiceOpened smallState) :=
    romFiles_exact bound_small fresh_small twiceOpened
  have hfirst : Views smallMachine (smallMachine.calls twiceOpened smallState) 0
      ⟨[0x61, 0x62, 0x63], 2, by decide⟩ :=
    ⟨0, ⟨true, Rom.Udnl.kRomSearchStart + 144, 3, 2⟩, by decide +kernel, by decide +kernel,
      by decide +kernel, rfl⟩
  have hsecond : Views smallMachine (smallMachine.calls twiceOpened smallState) 1
      ⟨[0x61, 0x62, 0x63], 0, by decide⟩ :=
    ⟨1, ⟨true, Rom.Udnl.kRomSearchStart + 144, 3, 0⟩, by decide +kernel, by decide +kernel,
      by decide +kernel, rfl⟩
  refine ⟨hexact, hfirst, hsecond, ?_, ?_⟩
  · refine (hexact.reads 1 _ _ hsecond fun c hc hfd => ?_).trans (by decide)
    simp only [List.mem_cons, List.not_mem_nil, or_false] at hc
    rcases hc with rfl | rfl | rfl
    · exact ⟨_, _, rfl⟩
    · cases hfd
    · exact ⟨_, _, rfl⟩
  · obtain ⟨r', -, hposition, hanswer, -⟩ := hexact.seeks 0 _ (-2) 2 3 hfirst rfl
    have htarget : (r'.position : ℤ) = 1 := hposition.trans (by decide)
    refine hanswer.trans ?_
    rw [Int.ofNat_inj.mp htarget]
    decide

end PS2Bios.Ioman.Romdrv
