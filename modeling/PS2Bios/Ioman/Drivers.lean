import PS2Bios.Ioman.Names
import PS2Bios.Library.EveryStep

/-!
# The driver table

`AddDrv`, `delDrv` and `open` of `ioman.cpp`. What a driver does is given by its operations, which
may change the world outside the two tables; memory is part of it.

`open` takes the path apart and gives it to the first driver of that name (`openFile_opens`).
`delDrv` compares by `sameName` over half the address space, so it removes the first driver of a
name exactly when what lies behind the two strings is the same as well (`delDrv_deletes_iff`).
-/

namespace PS2Bios.Ioman

open Bytes

/-- The drivers there can be. -/
def kDrivers : ℕ := 16

/-- The descriptors there can be. -/
def kFiles : ℕ := 16

/-- The answer to a path that names no device. -/
def kErrorNoDevice : ℤ := -19

/-- The answer where no descriptor is left. -/
def kErrorNoFd : ℤ := -24

/-- `iop_file_t`: `device` is null when it is free. -/
structure File where
  mode : UInt32
  unit : UInt32
  device : Option Device
  privdata : UInt32
deriving DecidableEq, Repr

/-- What a driver's `Operations` do to a world `σ`, those of them that are called here. A file's
operations get its record. -/
structure Operations (σ : Type) where
  init : σ → ℤ × σ
  deinit : σ → ℤ × σ
  /-- The record, the name and the flags. -/
  openFile : File → ℕ → UInt32 → σ → ℤ × File × σ

/-- The two tables, and the world. -/
structure State (σ : Type) where
  drivers : List (Option Device)
  files : List File
  world : σ

variable {σ : Type} (ops : Device → Operations σ) (ram : σ → Ram)

/-- `AddDrv`: the first free slot takes the driver, which stays if it starts. -/
def addDrv (device : Device) (s : State σ) : ℤ × State σ :=
  match s.drivers.findIdx? Option.isNone with
  | none => (-1, s)
  | some k =>
    let (result, world) := (ops device).init s.world
    let drivers := s.drivers.set k (some device)
    if result < 0 then (-1, { s with drivers := drivers.set k none, world := world })
    else (0, { s with drivers := drivers, world := world })

/-- The entry that `delDrv` takes out. -/
def taken (m : Ram) (name : ℕ) (drivers : List (Option Device)) : Option ℕ :=
  drivers.findIdx? fun entry => entry.any fun device => sameName m name device.name kWhole

/-- `delDrv`: the first driver whose name is this one is stopped and leaves its slot. -/
def delDrv (name : ℕ) (s : State σ) : ℤ × State σ :=
  match taken (ram s.world) name s.drivers with
  | none => (0, s)
  | some k =>
    let world := match s.drivers[k]? with
      | some (some device) => ((ops device).deinit s.world).2
      | _ => s.world
    (0, { s with drivers := s.drivers.set k none, world := world })

/-- `allocateFile`: the first free record. -/
def allocateFile (files : List File) : Option ℕ := files.findIdx? fun file => file.device.isNone

/-- `open` once the record is found. -/
def openAs (device : Device) (unit : UInt32) (rest : ℕ) (flags : UInt32) (fd : ℕ) (s : State σ) :
    ℤ × State σ :=
  let (result, file, world) :=
    (ops device).openFile ⟨flags, unit, some device, 0⟩ rest flags s.world
  if result < 0 then
    (result, { s with files := s.files.set fd { file with device := none }, world := world })
  else (fd, { s with files := s.files.set fd file, world := world })

/-- `open`: the path's device is found before a descriptor is taken. -/
def openFile (path : ℕ) (flags : UInt32) (s : State σ) : ℤ × State σ :=
  let parsed := parse (ram s.world) s.drivers path
  match parsed.device with
  | none => (kErrorNoDevice, s)
  | some device =>
    match allocateFile s.files with
    | none => (kErrorNoFd, s)
    | some fd => openAs ops device parsed.unit parsed.rest flags fd s

/-! ### What the two are for -/

/-- The `k`-th entry is the first driver of that name. -/
structure FirstNamed (m : Ram) (drivers : List (Option Device)) (t : List UInt8) (k : ℕ)
    (d : Device) : Prop where
  entry : drivers[k]? = some (some d)
  named : IsString m d.name t
  first : ∀ j < k, ∀ e, drivers[j]? = some (some e) → ¬ IsString m e.name t

/-- Every registered driver has a name. -/
def Named (m : Ram) (drivers : List (Option Device)) : Prop :=
  ∀ d, some d ∈ drivers → ∃ t, IsString m d.name t

/-- The first driver of that name is out of the table, and no other. -/
structure Deletes (m : Ram) (t : List UInt8) (drivers drivers' : List (Option Device)) : Prop where
  found : ∀ k d, FirstNamed m drivers t k d → drivers' = drivers.set k none
  unknown : (∀ k d, ¬ FirstNamed m drivers t k d) → drivers' = drivers

/-- What opening a path does. -/
structure Opens (path : ℕ) (p : List UInt8) (flags : UInt32) (s : State σ)
    (r : ℤ × State σ) : Prop where
  /-- There is no colon in it. -/
  noColon : splitColon p = none → r = (kErrorNoDevice, s)
  /-- No driver has the name before the colon, without its digits. -/
  unknown : ∀ w rest, splitColon p = some (w, rest) →
    (∀ k d, ¬ FirstNamed (ram s.world) s.drivers (w.rdropWhile isDigit) k d) →
    r = (kErrorNoDevice, s)
  /-- The first driver that has it is given the rest and the unit, if a record is free. -/
  dispatched : ∀ w rest k d, splitColon p = some (w, rest) →
    FirstNamed (ram s.world) s.drivers (w.rdropWhile isDigit) k d →
    IsString (ram s.world) (path + w.length + 1) rest ∧
    r = match allocateFile s.files with
      | none => (kErrorNoFd, s)
      | some fd => openAs ops d (unitOf w) (path + w.length + 1) flags fd s

/-- Whether what lies behind the argument lies behind the name of the driver to be removed. -/
def Removable (m : Ram) (name : ℕ) (t : List UInt8) (drivers : List (Option Device)) : Prop :=
  ∀ k d, FirstNamed m drivers t k d → AgreeBehind m name d.name t

variable {ops ram} {m : Ram} {drivers : List (Option Device)} {s : State σ} {t : List UInt8}
  {name k k' : ℕ} {d d' : Device}

/-- At most one driver is the first of a name. -/
theorem FirstNamed.unique (h : FirstNamed m drivers t k d) (h' : FirstNamed m drivers t k' d') :
    k = k' ∧ d = d' := by
  have hk : k = k' := by
    rcases Nat.lt_trichotomy k k' with hlt | heq | hgt
    · exact absurd h.named (h'.first k hlt d h.entry)
    · exact heq
    · exact absurd h'.named (h.first k' hgt d' h'.entry)
  subst hk
  have hentry := h.entry.symm.trans h'.entry
  exact ⟨rfl, by simpa using hentry⟩

/-- Where a driver has the name, one of them is the first. -/
theorem exists_firstNamed (hentry : drivers[k]? = some (some d)) (hname : IsString m d.name t) :
    ∃ k d, FirstNamed m drivers t k d := by
  classical
  have hex : ∃ k, ∃ d : Device, drivers[k]? = some (some d) ∧ IsString m d.name t :=
    ⟨k, d, hentry, hname⟩
  obtain ⟨d', hentry', hname'⟩ := Nat.find_spec hex
  exact ⟨Nat.find hex, d', hentry', hname', fun j hj e he hnamed =>
    Nat.find_min hex hj ⟨e, he, hnamed⟩⟩

/-! ### Opening a path -/

/-- The loop over the table finds the first driver of a name. -/
theorem findSome?_eq_some {names : Device → List UInt8}
    (hnames : ∀ d, some d ∈ drivers → IsString m d.name (names d))
    (hfind : drivers.findSome? (fun entry => entry.filter fun d => names d = t) = some d) :
    ∃ k, FirstNamed m drivers t k d := by
  obtain ⟨before, entry, behind, rfl, hentry, hbefore⟩ := List.findSome?_eq_some_iff.mp hfind
  obtain ⟨rfl, hname⟩ := Option.filter_eq_some_iff.mp hentry
  refine ⟨before.length, by simp, ?_, fun j hj e he hnamed => ?_⟩
  · have hstring := hnames d (by simp)
    rwa [of_decide_eq_true hname] at hstring
  · rw [List.getElem?_append_left hj] at he
    have hmem := List.mem_of_getElem? he
    have hnone := hbefore _ hmem
    have hsame := (hnames e (List.mem_append_left _ hmem)).unique hnamed
    rw [Option.filter_some, decide_eq_true hsame, if_pos rfl] at hnone
    cases hnone

/-- Where the search finds nothing, no driver is the first of the name. -/
theorem findSome?_eq_none {names : Device → List UInt8}
    (hnames : ∀ d, some d ∈ drivers → IsString m d.name (names d))
    (hfind : drivers.findSome? (fun entry => entry.filter fun d => names d = t) = none) (k : ℕ)
    (d : Device) : ¬ FirstNamed m drivers t k d := fun h => by
  have hmem := List.mem_of_getElem? h.entry
  have hnone := List.findSome?_eq_none_iff.mp hfind _ hmem
  rw [Option.filter_some, decide_eq_true ((hnames d hmem).unique h.named), if_pos rfl] at hnone
  cases hnone

/-- Opening a path does what it is for, in every state of the tables. -/
theorem openFile_opens {path : ℕ} {p : List UInt8} (hp : IsString (ram s.world) path p)
    (hnamed : Named (ram s.world) s.drivers) (flags : UInt32) :
    Opens ops ram path p flags s (openFile ops ram path flags s) := by
  classical
  obtain ⟨names, hnames⟩ : ∃ names : Device → List UInt8,
      ∀ d, some d ∈ s.drivers → IsString (ram s.world) d.name (names d) := by
    choose names hnames using hnamed
    exact ⟨fun d => if hd : some d ∈ s.drivers then names d hd else [], fun d hd => by
      dsimp only
      rw [dif_pos hd]
      exact hnames d hd⟩
  refine ⟨fun hnone => ?_, fun w rest hsome hunknown => ?_, fun w rest k d hsome hfirst => ?_⟩
  · rw [openFile, parse_none hp _ hnone]
  · obtain ⟨hparse, -⟩ := parse_some hp hnames hsome
    cases hfind : s.drivers.findSome? fun entry =>
        entry.filter fun device => names device = w.rdropWhile isDigit with
    | none => rw [openFile, hparse, hfind]
    | some d =>
      obtain ⟨k, hfirst⟩ := findSome?_eq_some hnames hfind
      exact absurd hfirst (hunknown k d)
  · obtain ⟨hparse, hrest⟩ := parse_some hp hnames hsome
    refine ⟨hrest, ?_⟩
    cases hfind : s.drivers.findSome? fun entry =>
        entry.filter fun device => names device = w.rdropWhile isDigit with
    | none => exact absurd hfirst (findSome?_eq_none hnames hfind k d)
    | some d' =>
      obtain ⟨k', hfirst'⟩ := findSome?_eq_some hnames hfind
      obtain ⟨-, rfl⟩ := hfirst'.unique hfirst
      rw [openFile, hparse, hfind]

/-! ### Removing a driver -/

/-- A removal takes out the one driver it found and touches no other. -/
theorem delDrv_drivers : (delDrv ops ram name s).2.drivers =
    match taken (ram s.world) name s.drivers with
    | none => s.drivers
    | some k => s.drivers.set k none := by
  rw [delDrv]
  cases taken (ram s.world) name s.drivers <;> rfl

theorem mem_delDrv (h : some d ∈ (delDrv ops ram name s).2.drivers) : some d ∈ s.drivers := by
  rw [delDrv_drivers] at h
  split at h
  · exact h
  · exact (List.mem_or_eq_of_mem_set h).resolve_right nofun

/-- The driver taken out has the name, and the bytes behind both copies of it agree. -/
theorem taken_eq_some (hname : IsString m name t) (hnamed : Named m drivers)
    (h : taken m name drivers = some k) :
    ∃ d, drivers[k]? = some (some d) ∧ IsString m d.name t ∧ AgreeBehind m name d.name t := by
  obtain ⟨hk, hany, -⟩ := List.findIdx?_eq_some_iff_getElem.mp h
  obtain ⟨d, hd, hsame⟩ := (Option.any_eq_true _ _).mp hany
  have hentry : drivers[k]? = some (some d) := by rw [List.getElem?_eq_getElem hk, hd]
  obtain ⟨t', ht'⟩ := hnamed d (List.mem_of_getElem? hentry)
  obtain ⟨rfl, hbehind⟩ := (sameName_whole hname ht').mp hsame
  exact ⟨d, hentry, ht', hbehind⟩

/-- The first driver of the name is the one taken when what lies behind the strings is the same. -/
theorem taken_of_firstNamed (hname : IsString m name t) (hnamed : Named m drivers)
    (h : FirstNamed m drivers t k d) (hbehind : AgreeBehind m name d.name t) :
    taken m name drivers = some k := by
  have hk : k < drivers.length := (List.getElem?_eq_some_iff.mp h.entry).1
  refine List.findIdx?_eq_some_iff_getElem.mpr ⟨hk, ?_, fun j hj hany => ?_⟩
  · have hentry := h.entry
    rw [List.getElem?_eq_getElem hk] at hentry
    rw [Option.some.inj hentry]
    exact (sameName_whole hname h.named).mpr ⟨rfl, hbehind⟩
  · obtain ⟨e, he, hsame⟩ := (Option.any_eq_true _ _).mp hany
    have hentry : drivers[j]? = some (some e) := by
      rw [List.getElem?_eq_getElem (hj.trans hk), he]
    obtain ⟨t', ht'⟩ := hnamed e (List.mem_of_getElem? hentry)
    obtain ⟨rfl, -⟩ := (sameName_whole hname ht').mp hsame
    exact h.first j hj e hentry ht'

/-- A call takes the first driver of the name out, and no other, exactly when what lies behind the
two strings is the same. -/
theorem delDrv_deletes_iff (hname : IsString (ram s.world) name t)
    (hnamed : Named (ram s.world) s.drivers) :
    Deletes (ram s.world) t s.drivers (delDrv ops ram name s).2.drivers ↔
      Removable (ram s.world) name t s.drivers := by
  rw [delDrv_drivers]
  constructor
  · intro hdel k d hfirst
    have hset := hdel.found k d hfirst
    have hk : k < s.drivers.length := (List.getElem?_eq_some_iff.mp hfirst.entry).1
    cases htaken : taken (ram s.world) name s.drivers with
    | none =>
      -- then nothing has changed, and the driver is still there
      rw [htaken] at hset
      have hentry := hfirst.entry
      rw [show s.drivers[k]? = (s.drivers.set k none)[k]? from congrArg (·[k]?) hset,
        List.getElem?_set_self hk] at hentry
      cases hentry
    | some k' =>
      rw [htaken] at hset
      obtain ⟨d', hentry', -, hbehind⟩ := taken_eq_some hname hnamed htaken
      rcases eq_or_ne k' k with rfl | hne
      · obtain rfl : d' = d := by simpa [hentry'] using hfirst.entry
        exact hbehind
      · have hentry := congrArg (·[k]?) hset
        dsimp only at hentry
        rw [List.getElem?_set_ne hne, List.getElem?_set_self hk, hfirst.entry] at hentry
        cases hentry
  · intro hremovable
    refine ⟨fun k d hfirst => ?_, fun hunknown => ?_⟩
    · rw [taken_of_firstNamed hname hnamed hfirst (hremovable k d hfirst)]
    · cases htaken : taken (ram s.world) name s.drivers with
      | none => rfl
      | some k' =>
        obtain ⟨d', hentry', hname', -⟩ := taken_eq_some hname hnamed htaken
        obtain ⟨k, d, hfirst⟩ := exists_firstNamed hentry' hname'
        exact absurd hfirst (hunknown k d)

/-! ### Sequences of calls -/

/-- A call that changes the table. -/
inductive Call
  | addDrv (device : Device)
  | delDrv (name : ℕ)
deriving DecidableEq, Repr

variable (ops ram)

/-- A call carried out, its answer dropped. -/
def Call.run : Call → State σ → State σ
  | .addDrv device, s => (Ioman.addDrv ops device s).2
  | .delDrv name, s => (Ioman.delDrv ops ram name s).2

/-- The state a sequence of calls leads to. -/
def runCalls (calls : List Call) (s : State σ) : State σ :=
  calls.foldl (fun s call => call.run ops ram s) s

/-- The strings are strings. -/
def Call.Valid (call : Call) (s : State σ) : Prop :=
  Named (ram s.world) s.drivers ∧
    ∀ name, call = .delDrv name → ∃ t, IsString (ram s.world) name t

/-- A `delDrv` takes the first driver of its name out, and no other. -/
def Call.Right (call : Call) (s : State σ) : Prop :=
  ∀ name t, call = .delDrv name → IsString (ram s.world) name t →
    Deletes (ram s.world) t s.drivers (call.run ops ram s).drivers

/-- Behind the string of a `delDrv` and the name of the driver it is to remove lies the same. -/
def Call.Lucky (call : Call) (s : State σ) : Prop :=
  ∀ name t, call = .delDrv name → IsString (ram s.world) name t →
    Removable (ram s.world) name t s.drivers

/-- As the module starts, with both tables empty. -/
def started (world : σ) : State σ where
  drivers := List.replicate kDrivers none
  files := List.replicate kFiles ⟨0, 0, none, 0⟩
  world := world

variable {ops ram} {call : Call} {calls : List Call}

/-- A call changes no slot's place. -/
theorem Call.length_run (call : Call) (s : State σ) :
    (call.run ops ram s).drivers.length = s.drivers.length := by
  cases call with
  | addDrv device =>
    rw [run, Ioman.addDrv]
    split
    · rfl
    · dsimp only
      split
      · rw [List.length_set, List.length_set]
      · exact List.length_set
  | delDrv name =>
    rw [run, Ioman.delDrv]
    split
    · rfl
    · exact List.length_set

/-- The table has its sixteen entries in every run. -/
theorem length_drivers (calls : List Call) (world : σ) :
    (runCalls ops ram calls (started world)).drivers.length = kDrivers := by
  have hrun : ∀ s : State σ, (runCalls ops ram calls s).drivers.length = s.drivers.length := by
    induction calls with
    | nil => exact fun s => rfl
    | cons call calls ih => exact fun s => (ih (call.run ops ram s)).trans (call.length_run s)
  rw [hrun, started, List.length_replicate]

/-- A driver for which there is no entry is refused. -/
theorem addDrv_full (device : Device) (h : none ∉ s.drivers) : addDrv ops device s = (-1, s) := by
  have hfull : s.drivers.findIdx? Option.isNone = none := by
    rw [List.findIdx?_eq_none_iff]
    intro entry hentry
    cases entry with
    | none => exact absurd hentry h
    | some d => rfl
  rw [addDrv, hfull]

theorem Call.right_iff (hvalid : call.Valid ram s) : call.Right ops ram s ↔ call.Lucky ram s := by
  refine forall_congr' fun name => forall_congr' fun t => forall_congr' fun hcall => ?_
  subst hcall
  exact forall_congr' fun hname => delDrv_deletes_iff hname hvalid.1

/-- Over a sequence of calls, each `delDrv` takes out the first driver of its name and no other if
and only if each time what lies behind the two strings is the same; and in the state the calls lead
to, opening a path does what it is for. -/
theorem drivers_by_name (hvalid : EveryStep (Call.run ops ram) (Call.Valid ram) calls s)
    (hnamed : Named (ram (runCalls ops ram calls s).world) (runCalls ops ram calls s).drivers) :
    (EveryStep (Call.run ops ram) (Call.Right ops ram) calls s ↔
      EveryStep (Call.run ops ram) (Call.Lucky ram) calls s) ∧
    ∀ path p flags, IsString (ram (runCalls ops ram calls s).world) path p →
      Opens ops ram path p flags (runCalls ops ram calls s)
        (openFile ops ram path flags (runCalls ops ram calls s)) :=
  ⟨everyStep_iff (fun _ _ => Call.right_iff) hvalid, fun _ _ flags hp =>
    openFile_opens hp hnamed flags⟩

/-! ### Two copies of one name -/

/-- `rom` stands at `0x100` and at `0x200`, with one more byte behind the second. -/
def twoNames : Ram :=
  write (write (fun _ => 0) 0x100 [114, 111, 109, 0]) 0x200 [114, 111, 109, 0, 1]

/-- A driver that accepts everything. -/
def accepting : Operations Unit where
  init _ := (0, ())
  deinit _ := (0, ())
  openFile file _ _ _ := (0, file, ())

/-- `rom` is registered, under its name at `0x200`. -/
def romRegistered : State Unit where
  drivers := [some ⟨0x1000, 0x200⟩]
  files := [⟨0, 0, none, 0⟩]
  world := ()

theorem isString_first : IsString twoNames 0x100 [114, 111, 109] :=
  ⟨by simp [twoNames, write], by decide, by decide⟩

theorem isString_second : IsString twoNames 0x200 [114, 111, 109] :=
  ⟨by simp [twoNames, write], by decide, by decide⟩

theorem named_romRegistered : Named twoNames romRegistered.drivers := by
  intro d hd
  obtain rfl : d = ⟨0x1000, 0x200⟩ := by simpa [romRegistered] using hd
  exact ⟨_, isString_second⟩

/-- Removing it by the other copy of its name leaves it where it is. -/
theorem other_copy_not_removed :
    IsString twoNames 0x100 [114, 111, 109] ∧ IsString twoNames 0x200 [114, 111, 109] ∧
    ¬ Deletes twoNames [114, 111, 109] romRegistered.drivers
      (delDrv (fun _ => accepting) (fun _ => twoNames) 0x100 romRegistered).2.drivers := by
  have hfirst : FirstNamed twoNames romRegistered.drivers [114, 111, 109] 0 ⟨0x1000, 0x200⟩ :=
    ⟨rfl, isString_second, nofun⟩
  have hbehind : ¬ AgreeBehind twoNames 0x100 0x200 [114, 111, 109] := fun h =>
    absurd (h.1 4 (by decide) (by decide)) (by decide)
  refine ⟨isString_first, isString_second, fun hdel => ?_⟩
  have hiff : _ ↔ Removable twoNames 0x100 [114, 111, 109] romRegistered.drivers :=
    @delDrv_deletes_iff Unit (fun _ => accepting) (fun _ => twoNames) romRegistered _ _
      isString_first named_romRegistered
  exact hbehind (hiff.mp hdel 0 _ hfirst)

/-- The table once `delDrv` has been called with the name it is registered under. -/
def romRemoved : State Unit :=
  runCalls (fun _ => accepting) (fun _ => twoNames) [.delDrv 0x200] romRegistered

theorem named_romRemoved : Named twoNames romRemoved.drivers := fun d hd => by
  rw [romRemoved, runCalls, List.foldl_cons, List.foldl_nil, Call.run] at hd
  exact named_romRegistered d (mem_delDrv hd)

/-- A removal by the copy of the name that was registered goes by the name, and so does every open
behind it. -/
theorem romRegistered_by_name :
    (EveryStep (Call.run (fun _ => accepting) fun _ => twoNames)
      (Call.Right (fun _ => accepting) fun _ => twoNames) [.delDrv 0x200] romRegistered ↔
      EveryStep (Call.run (fun _ => accepting) fun _ => twoNames) (Call.Lucky fun _ => twoNames)
        [.delDrv 0x200] romRegistered) ∧
    ∀ path p flags, IsString twoNames path p →
      Opens (fun _ => accepting) (fun _ => twoNames) path p flags romRemoved
        (openFile (fun _ => accepting) (fun _ => twoNames) path flags romRemoved) :=
  drivers_by_name ⟨⟨named_romRegistered, fun name hname => by
    obtain rfl : name = 0x200 := by simpa using hname.symm
    exact ⟨_, isString_second⟩⟩, trivial⟩ named_romRemoved

end PS2Bios.Ioman
