import Mathlib.Data.List.DropRight
import PS2Bios.Library.Buffer
import PS2Bios.Library.Tokens
import PS2Bios.Library.Word

/-!
# A reboot's command line

The string handed to `ReBootStart` on its way to a module's `argv`: `rebootCore` leaves it in low
memory, `LOADCORE` copies it into a boot record, `mode2Bootup` splits it into a name and argument
bytes, and `buildArguments` makes the argument vector of those. Buffers have the contents they
happen to have; a store outside one, and a loop that does not end, are `none`.
-/

namespace PS2Bios.Loadcore.CommandLine

open Bytes Buffer

/-- `MODLOAD`'s `kCommandLineMax`, the room at the fixed address. -/
def kLowLineMax : ℕ := 0x80

/-- `LOADCORE`'s `kCommandLineMax`. -/
def kCommandLineMax : ℕ := 256

/-- The bytes the arguments are copied into. -/
def kArgBytesMax : ℕ := 256

/-- The arguments there is a pointer for. -/
def kArgvMax : ℕ := 16

/-- The words there are for boot records. -/
def kBootRecordWords : ℕ := 16

/-- The boot mode of a reboot that was asked for. -/
def kModeSoftReboot : ℕ := 1

/-- The boot mode of the stage that an image update boots. -/
def kModeUpdateStage : ℕ := 2

/-- The key of the record that has the boot mode. -/
def kKeyBootMode : ℕ := 4

/-- The key of the record that leads to the command line. -/
def kKeyCommandLine : ℕ := 5

/-- The character that arguments are split at. -/
def space : UInt8 := 0x20

/-- The buffers on the way, and the address of `command_line`. -/
structure Buffers where
  low : List UInt8
  line : List UInt8
  records : List ℕ
  name : List UInt8
  args : List UInt8
  copy : List UInt8
  argv : List (Option ℕ)
  lineAddress : ℕ
  low_length : low.length = kLowLineMax
  line_length : line.length = kCommandLineMax
  records_length : records.length = kBootRecordWords
  name_length : name.length = kArgBytesMax
  args_length : args.length = kArgBytesMax
  copy_length : copy.length = kArgBytesMax
  argv_length : argv.length = kArgvMax
  lineAddress_pos : lineAddress ≠ 0

/-! ### Before and during the boot -/

/-- `rebootCore`: the mode it enters `IOPBOOT` with, and the line at the fixed address if it hands
one over. The argument may be null. -/
def rebootCore (low : List UInt8) (argument : Option (ℕ → UInt8)) (mode : ℕ) :
    Option (ℕ × Option (List UInt8)) :=
  match argument with
  | none => some (kModeSoftReboot, none)
  | some arg =>
    if arg 0 ≠ 0 then
      (copyString kLowLineMax arg kLowLineMax 0 low).map fun copied =>
        (mode &&& 0xFF00 ||| kModeUpdateStage, some copied.2)
    else some (kModeSoftReboot, none)

/-- `copyCommandLine`. -/
def copyCommandLine (line : List UInt8) (source : ℕ → UInt8) : Option (List UInt8) :=
  (copyString kCommandLineMax source kCommandLineMax 0 line).map Prod.snd

/-- The word a boot record begins with. -/
def recordHeader (value key extra : ℕ) : ℕ := value &&& 0xFFFF ||| key <<< 16 ||| extra <<< 24

/-- `buildBootRecords`: the records and `command_line`. -/
def buildBootRecords (buffers : Buffers) (mode : ℕ) (low : Option (List UInt8)) :
    Option (List ℕ × List UInt8) := do
  let records ← store buffers.records 0 (recordHeader mode kKeyBootMode 0)
  match low with
  | none =>
    let records ← store records 1 0
    some (records, buffers.line)
  | some low =>
    let line ← copyCommandLine buffers.line (read low 0)
    let records ← store records 1 (recordHeader 0 kKeyCommandLine 1)
    let records ← store records 2 buffers.lineAddress
    let records ← store records 3 0
    some (records, line)

/-- `queryBootMode`: where the record with the key is, if it is there. -/
def queryBootMode (records : List ℕ) (key : ℕ) : ℕ → ℕ → Option (Option ℕ)
  | 0, _ => none
  | turns + 1, record => do
    let header ← records[record]?
    if header = 0 then some none
    else if header >>> 16 &&& 0xFF = key then some (some record)
    else queryBootMode records key turns (record + (header >>> 24 &&& 0xFF) + 1)

/-! ### Splitting -/

/-- `while (line[at] == ' ')`. -/
def skipSpaces (line : ℕ → UInt8) : ℕ → ℕ → Option ℕ
  | 0, _ => none
  | turns + 1, k => if line k = space then skipSpaces line turns (k + 1) else some k

/-- Copy a word while `reserve` bytes are left behind it: where the line and the buffer are then. -/
def takeWord (line : ℕ → UInt8) (reserve : ℕ) :
    ℕ → ℕ → ℕ → List UInt8 → Option (ℕ × ℕ × List UInt8)
  | 0, _, _, _ => none
  | turns + 1, k, n, b =>
    if line k ≠ 0 ∧ line k ≠ space ∧ n + reserve < kArgBytesMax then do
      let b ← store b n (line k)
      takeWord line reserve turns (k + 1) (n + 1) b
    else some (k, n, b)

/-- The loop that splits the rest of the line: the length of the argument bytes, and them. -/
def splitArguments (line : ℕ → UInt8) : ℕ → ℕ → ℕ → List UInt8 → Option (ℕ × List UInt8)
  | 0, _, _, _ => none
  | turns + 1, k, length, b =>
    if line k ≠ 0 ∧ length + 1 < kArgBytesMax then do
      let k ← skipSpaces line kCommandLineMax k
      if line k = 0 then some (length, b)
      else
        let (k, length, b) ← takeWord line 2 kCommandLineMax k length b
        let b ← store b length 0
        splitArguments line turns k (length + 1) b
    else some (length, b)

/-- What `mode2Bootup` loads: the name, and the argument bytes when there are any. -/
structure Request where
  name : List UInt8
  length : ℕ
  args : Option (List UInt8)

/-- `mode2Bootup` up to its call of `loadStartModule`, over the line of boot record key 5. -/
def splitLine (buffers : Buffers) (line : ℕ → UInt8) : Option (Option Request) := do
  let k ← skipSpaces line kCommandLineMax 0
  let (k, n, name) ← takeWord line 1 kCommandLineMax k 0 buffers.name
  let name ← store name n 0
  if n = 0 then some none
  else
    let (length, args) ← splitArguments line kCommandLineMax k 0 buffers.args
    some (some ⟨name, length, if length ≠ 0 then some args else none⟩)

/-- `mode2Bootup`. -/
def mode2Bootup (buffers : Buffers) (records : List ℕ) (line : List UInt8) :
    Option (Option Request) := do
  match ← queryBootMode records kKeyCommandLine kBootRecordWords 0 with
  | none => some none
  | some record =>
    let pointer ← records[record + 1]?
    if pointer = 0 then some none
    else
      match ← queryBootMode records kKeyBootMode kBootRecordWords 0 with
      | none => some none
      | some modeRecord =>
        let header ← records[modeRecord]?
        if (header &&& 0xFFFF) >>> 8 ≠ 0 then some none
        else splitLine buffers (read line 0)

/-! ### The argument vector -/

/-- `baseName`: where the name begins in the path. -/
def baseName (path : ℕ → UInt8) : ℕ → ℕ → ℕ → Option ℕ
  | 0, _, _ => none
  | turns + 1, k, name =>
    if path k ≠ 0 then
      baseName path turns (k + 1) (if path k = 0x3A ∨ path k = 0x2F then k + 1 else name)
    else some name

/-- The argument bytes copied behind the name. -/
def copyArguments (args : ℕ → UInt8) : ℕ → ℕ → ℕ → List UInt8 → Option (List UInt8)
  | 0, _, _, b => some b
  | left + 1, k, used, b => do
    let b ← store b used (args k)
    copyArguments args left (k + 1) (used + 1) b

/-- The loop that finds the tokens of what is left of the copy. -/
def scanTokens (copy : List UInt8) :
    ℕ → ℕ → Bool → ℕ → List (Option ℕ) → Option (ℕ × List (Option ℕ))
  | 0, _, _, argc, argv => some (argc, argv)
  | left + 1, k, token, argc, argv =>
    if argc < kArgvMax - 1 then do
      let c ← copy[k]?
      if !token ∧ c ≠ 0 then
        let argv ← store argv argc (some k)
        scanTokens copy left (k + 1) true (argc + 1) argv
      else if c = 0 then scanTokens copy left (k + 1) false argc argv
      else scanTokens copy left (k + 1) token argc argv
    else some (argc, argv)

/-- What a module's entry is called with: pointers into the copy, null ones being `none`. -/
structure Arguments where
  argc : ℕ
  argv : List (Option ℕ)
  copy : List UInt8

/-- The part of `buildArguments` over the argument bytes, behind the `used` bytes of the name. -/
def addArguments (used arglen : ℕ) (args : Option (List UInt8)) (copy : List UInt8)
    (argv : List (Option ℕ)) : Option Arguments :=
  match args with
  | none => some ⟨1, argv, copy⟩
  | some args =>
    if 0 < arglen then do
      let arglen := if kArgBytesMax - used < arglen then kArgBytesMax - used else arglen
      let copy ← copyArguments (read args 0) arglen 0 used copy
      let copy ← store copy (used + arglen - 1) 0
      let (argc, argv) ← scanTokens copy arglen used false 1 argv
      some ⟨argc, argv, copy⟩
    else some ⟨1, argv, copy⟩

/-- `buildArguments`. -/
def buildArguments (name : ℕ → UInt8) (arglen : ℕ) (args : Option (List UInt8))
    (copy : List UInt8) (argv : List (Option ℕ)) : Option Arguments := do
  let argv ← store argv 0 (some 0)
  let (fin, copy) ← copyString kArgBytesMax name kArgBytesMax 0 copy
  let added ← addArguments (fin + 1) arglen args copy argv
  let argv ← store added.argv added.argc none
  some { added with argv }

/-- A module entered: what loading its path answered, and its arguments. -/
structure Entered (ρ : Type) where
  record : ρ
  arguments : Arguments

variable {ρ : Type}

/-- `loadStartModule`, `load` being what loading a path comes to. -/
def loadStartModule (load : List UInt8 → Option ρ) (buffers : Buffers) (request : Request) :
    Option (Option (Entered ρ)) := do
  match load (stringAt request.name 0) with
  | none => some none
  | some record =>
    let base ← baseName (read request.name 0) kArgBytesMax 0 0
    let arguments ← buildArguments (read request.name base) request.length request.args
      buffers.copy buffers.argv
    some (some ⟨record, arguments⟩)

/-- From `ReBootStart` to the entry of the module the line names, if one is entered. -/
def rebootWith (load : List UInt8 → Option ρ) (buffers : Buffers) (argument : Option (ℕ → UInt8))
    (mode : ℕ) : Option (Option (Entered ρ)) := do
  let (bootMode, low) ← rebootCore buffers.low argument mode
  let (records, line) ← buildBootRecords buffers bootMode low
  if bootMode &&& 0xFF = kModeUpdateStage then
    match ← mode2Bootup buffers records line with
    | none => some none
    | some request => loadStartModule load buffers request
  else some none

/-! ### What is to come of a line -/

/-- The character splits arguments. -/
def isSpace (c : UInt8) : Bool := c = space

/-- The words of a line. -/
def words (line : List UInt8) : List (List UInt8) := Tokens.tokens isSpace line

/-- A name without its device and directories. -/
def base (path : List UInt8) : List UInt8 := path.rtakeWhile fun c => c ≠ 0x3A ∧ c ≠ 0x2F

/-- The strings of an argument vector, up to the pointer behind the last. -/
def Arguments.strings (a : Arguments) : List (Option (List UInt8)) :=
  (a.argv.take (a.argc + 1)).map (Option.map (stringAt a.copy))

/-- The argument vector of some words: the base name of the first, the others as they are, fifteen
at most, and null. -/
def stringsOf : List (List UInt8) → List (Option (List UInt8))
  | [] => [none]
  | first :: rest => some (base first) :: (rest.take (kArgvMax - 2)).map some ++ [none]

variable {line rest done : List UInt8} {source : ℕ → UInt8}

/-! ### Boot records -/

/-- The three parts of a record's header do not overlap. -/
theorem recordHeader_eq {value key extra : ℕ} (hkey : key < 256) :
    recordHeader value key extra = extra * 2 ^ 24 + (key * 2 ^ 16 + value % 2 ^ 16) := by
  have hvalue : value &&& 0xFFFF = value % 2 ^ 16 := Nat.and_two_pow_sub_one_eq_mod value 16
  have hinner := Nat.mul_two_pow_or_mod key value 16
  have houter := Nat.mul_two_pow_or_mod extra (key * 2 ^ 16 + value % 2 ^ 16) 24
  rw [Nat.mod_eq_of_lt (by omega)] at houter
  unfold recordHeader
  rw [hvalue, Nat.shiftLeft_eq, Nat.shiftLeft_eq, Nat.or_comm (value % 2 ^ 16), hinner,
    Nat.or_comm, houter]

/-- The records of a boot that was handed a line. -/
theorem buildBootRecords_eq (buffers : Buffers) (mode : ℕ) {low : List UInt8}
    (hlow : line ++ [0] <+: low) (hline : 0 ∉ line) (hlength : line.length < kCommandLineMax) :
    ∃ records copied, buildBootRecords buffers mode (some low) = some (records, copied) ∧
      [recordHeader mode kKeyBootMode 0, recordHeader 0 kKeyCommandLine 1, buffers.lineAddress, 0]
        <+: records ∧ line ++ [0] <+: copied ∧ copied.length = kCommandLineMax := by
  have hrecords := buffers.records_length
  unfold kBootRecordWords at hrecords
  obtain ⟨r₁, h₁, hl₁, hb₁⟩ := store_next (l := []) (b := buffers.records) List.nil_prefix
    (by simp [hrecords]) (recordHeader mode kKeyBootMode 0)
  obtain ⟨r₂, h₂, hl₂, hb₂⟩ := store_next hb₁ (by simp [hl₁, hrecords])
    (recordHeader 0 kKeyCommandLine 1)
  obtain ⟨r₃, h₃, hl₃, hb₃⟩ := store_next hb₂ (by simp [hl₂, hl₁, hrecords]) buffers.lineAddress
  obtain ⟨r₄, h₄, -, hb₄⟩ := store_next hb₃ (by simp [hl₃, hl₂, hl₁, hrecords]) 0
  have hsource : At (read low 0) 0 (line ++ [0]) := at_read (l := []) hlow
  obtain ⟨copied, hcopied, hlen, hbegins⟩ := copyString_start kCommandLineMax
    (b := buffers.line) hsource hline (by decide) (by rw [buffers.line_length])
  rw [List.take_of_length_le (by omega)] at hbegins
  refine ⟨r₄, copied, ?_, hb₄, hbegins, hlen.trans buffers.line_length⟩
  have hcopy : copyCommandLine buffers.line (read low 0) = some copied := by
    rw [copyCommandLine, hcopied]
    rfl
  change store buffers.records 0 _ = _ at h₁
  change store r₁ 1 _ = _ at h₂
  change store r₂ 2 _ = _ at h₃
  change store r₃ 3 _ = _ at h₄
  unfold buildBootRecords
  simp only [Option.bind_eq_bind, hcopy, Option.bind_some, h₁, h₂, h₃, h₄]

/-- What `mode2Bootup` finds in them. -/
theorem mode2Bootup_eq (buffers : Buffers) {mode : ℕ} {records : List ℕ} (copied : List UInt8)
    (hrecords : [recordHeader mode kKeyBootMode 0, recordHeader 0 kKeyCommandLine 1,
      buffers.lineAddress, 0] <+: records) :
    mode2Bootup buffers records copied =
      if mode / 2 ^ 8 % 2 ^ 8 ≠ 0 then some none else splitLine buffers (read copied 0) := by
  have hmode : recordHeader mode kKeyBootMode 0 = 4 * 2 ^ 16 + mode % 2 ^ 16 := by
    rw [recordHeader_eq (by decide)]
    exact Nat.zero_add _
  have hline : recordHeader 0 kKeyCommandLine 1 = 2 ^ 24 + 5 * 2 ^ 16 := by decide
  obtain ⟨tail, rfl⟩ := hrecords
  have hkey : (4 * 2 ^ 16 + mode % 2 ^ 16) >>> 16 &&& 0xFF = 4 := by
    rw [Nat.shiftRight_eq_div_pow, show (0xFF : ℕ) = 2 ^ 8 - 1 from rfl,
      Nat.and_two_pow_sub_one_eq_mod]
    omega
  have hextra : (4 * 2 ^ 16 + mode % 2 ^ 16) >>> 24 &&& 0xFF = 0 := by
    rw [Nat.shiftRight_eq_div_pow, show (0xFF : ℕ) = 2 ^ 8 - 1 from rfl,
      Nat.and_two_pow_sub_one_eq_mod]
    omega
  have hhigh : (4 * 2 ^ 16 + mode % 2 ^ 16 &&& 0xFFFF) >>> 8 = mode / 2 ^ 8 % 2 ^ 8 := by
    rw [Nat.shiftRight_eq_div_pow, show (0xFFFF : ℕ) = 2 ^ 16 - 1 from rfl,
      Nat.and_two_pow_sub_one_eq_mod]
    omega
  have hne : 4 * 2 ^ 16 + mode % 2 ^ 16 ≠ 0 := by omega
  rw [hmode, hline]
  generalize 4 * 2 ^ 16 + mode % 2 ^ 16 = header at *
  have hquery : queryBootMode ([header, 2 ^ 24 + 5 * 2 ^ 16, buffers.lineAddress, 0] ++ tail)
      kKeyCommandLine kBootRecordWords 0 = some (some 1) := by
    have hfive : ¬(4 : ℕ) = kKeyCommandLine := by decide
    show (if header = 0 then _ else if header >>> 16 &&& 0xFF = _ then _ else _) = _
    rw [if_neg hne, hkey, if_neg hfive, hextra]
    rfl
  have hquery' : queryBootMode ([header, 2 ^ 24 + 5 * 2 ^ 16, buffers.lineAddress, 0] ++ tail)
      kKeyBootMode kBootRecordWords 0 = some (some 0) := by
    show (if header = 0 then _ else if header >>> 16 &&& 0xFF = _ then _ else _) = _
    rw [if_neg hne, hkey]
    rfl
  unfold mode2Bootup
  rw [hquery, hquery']
  show (if buffers.lineAddress = 0 then _ else
    if (header &&& 0xFFFF) >>> 8 ≠ 0 then some none else splitLine buffers (read copied 0)) = _
  rw [if_neg buffers.lineAddress_pos, hhigh]

/-! ### Splitting the line -/

/-- Spaces are skipped. -/
theorem skipSpaces_eq {turns k : ℕ} (hsource : At source k (rest ++ [0]))
    (hturns : rest.length < turns) :
    ∃ k', skipSpaces source turns k = some k' ∧ At source k' (rest.dropWhile isSpace ++ [0]) ∧
      k' + (rest.dropWhile isSpace).length = k + rest.length := by
  induction rest generalizing turns k with
  | nil =>
    obtain ⟨turns, rfl⟩ : ∃ n, turns = n + 1 := ⟨turns - 1, by omega⟩
    have hzero : source k = 0 := (at_cons.mp hsource).1
    refine ⟨k, ?_, hsource, rfl⟩
    rw [skipSpaces, if_neg]
    rw [hzero]
    decide
  | cons x rest ih =>
    rw [List.length_cons] at hturns
    obtain ⟨turns, rfl⟩ : ∃ n, turns = n + 1 := ⟨turns - 1, by omega⟩
    obtain ⟨hx, hsource'⟩ := at_cons.mp hsource
    by_cases hspace : x = space
    · obtain ⟨k', hk', hat, hsum⟩ := ih hsource' (Nat.lt_of_succ_lt_succ hturns)
      rw [List.dropWhile_cons_of_pos (by simp [isSpace, hspace])]
      refine ⟨k', ?_, hat, ?_⟩
      · rw [skipSpaces, hx, if_pos hspace, hk']
      · rw [List.length_cons]
        omega
    · rw [List.dropWhile_cons_of_neg (by simp [isSpace, hspace])]
      refine ⟨k, ?_, hsource, rfl⟩
      rw [skipSpaces, hx, if_neg hspace]

/-- A word that fits is copied. -/
theorem takeWord_eq (reserve : ℕ) {turns k : ℕ} {b : List UInt8}
    (hsource : At source k (rest ++ [0])) (hrest : 0 ∉ rest) (hb : done <+: b)
    (hturns : rest.length < turns) (hlen : b.length = kArgBytesMax)
    (hroom : done.length + rest.length + reserve ≤ kArgBytesMax) (hreserve : 0 < reserve) :
    ∃ k' b', takeWord source reserve turns k done.length b =
        some (k', (done ++ rest.takeWhile (fun c => !isSpace c)).length, b') ∧
      At source k' (rest.dropWhile (fun c => !isSpace c) ++ [0]) ∧
      done ++ rest.takeWhile (fun c => !isSpace c) <+: b' ∧ b'.length = kArgBytesMax := by
  induction rest generalizing turns k done b with
  | nil =>
    obtain ⟨turns, rfl⟩ : ∃ n, turns = n + 1 := ⟨turns - 1, by omega⟩
    have hzero : source k = 0 := (at_cons.mp hsource).1
    rw [List.takeWhile_nil, List.append_nil]
    refine ⟨k, b, ?_, hsource, hb, hlen⟩
    rw [takeWord, if_neg (by simp [hzero])]
  | cons x rest ih =>
    rw [List.length_cons] at hturns hroom
    obtain ⟨turns, rfl⟩ : ∃ n, turns = n + 1 := ⟨turns - 1, by omega⟩
    obtain ⟨hx, hsource'⟩ := at_cons.mp hsource
    obtain ⟨hzero, hrest'⟩ := not_or.mp (mt List.mem_cons.mpr hrest)
    by_cases hspace : x = space
    · have hword : (!isSpace x) = false := by simp [isSpace, hspace]
      rw [List.takeWhile_cons_of_neg (by simp [hword]), List.append_nil,
        List.dropWhile_cons_of_neg (by simp [hword])]
      refine ⟨k, b, ?_, hsource, hb, hlen⟩
      rw [takeWord, hx, if_neg (by simp [hspace])]
    · have hword : (!isSpace x) = true := by simp [isSpace, hspace]
      have htake : (x :: rest).takeWhile (fun c => !isSpace c) =
          x :: rest.takeWhile fun c => !isSpace c := by simp [hword]
      have hdrop : (x :: rest).dropWhile (fun c => !isSpace c) =
          rest.dropWhile fun c => !isSpace c := by simp [hword]
      rw [htake, hdrop, List.append_cons]
      obtain ⟨b₁, hb₁, hlen₁, hbegins⟩ := store_next hb (by omega) x
      have hlength : (done ++ [x]).length = done.length + 1 := by simp
      obtain ⟨k', b', hk', hat, hb', hlen'⟩ := ih hsource' hrest' hbegins
        (Nat.lt_of_succ_lt_succ hturns) (hlen₁.trans hlen) (by omega)
      refine ⟨k', b', ?_, hat, hb', hlen'⟩
      rw [takeWord, hx, if_pos ⟨Ne.symm hzero, hspace, by omega⟩, hb₁, Option.bind_eq_bind,
        Option.bind_some, ← hlength]
      exact hk'

/-- The argument bytes are the words left, each with its end. -/
theorem splitArguments_eq {turns k : ℕ} {b : List UInt8} (hsource : At source k (rest ++ [0]))
    (hrest : 0 ∉ rest) (hb : done <+: b) (hlen : b.length = kArgBytesMax)
    (hturns : rest.length < turns) (hroom : done.length + rest.length + 2 ≤ kArgBytesMax)
    (hhead : ∀ c ∈ rest.head?, isSpace c) :
    ∃ b', splitArguments source turns k done.length b =
        some ((done ++ packed (words rest)).length, b') ∧
      done ++ packed (words rest) <+: b' ∧ b'.length = kArgBytesMax := by
  induction hn : rest.length using Nat.strong_induction_on generalizing rest turns k done b with
  | _ n ih =>
  obtain ⟨turns, rfl⟩ : ∃ n, turns = n + 1 := ⟨turns - 1, by omega⟩
  subst hn
  unfold splitArguments
  cases hr : rest with
  | nil =>
    subst hr
    have hzero : source k = 0 := (at_cons.mp hsource).1
    refine ⟨b, ?_, ?_, hlen⟩
    · rw [if_neg (by simp [hzero])]
      simp [words]
    · simpa [words] using hb
  | cons x xs =>
    rw [← hr]
    have hx : source k = x := by
      rw [hr] at hsource
      exact (at_cons.mp hsource).1
    have hne : source k ≠ 0 := by
      rw [hx]
      rintro rfl
      exact hrest (hr ▸ List.mem_cons_self)
    have hlength : rest.length = xs.length + 1 := by rw [hr, List.length_cons]
    rw [if_pos ⟨hne, by omega⟩]
    obtain ⟨k₁, hk₁, hat₁, hsum₁⟩ := skipSpaces_eq hsource
      (show rest.length < kCommandLineMax by
        unfold kCommandLineMax; unfold kArgBytesMax at hroom; omega)
    rw [hk₁, Option.bind_eq_bind, Option.bind_some]
    rcases Tokens.tokens_cases isSpace rest with
      ⟨hdrop, htokens⟩ | ⟨c, start, hdrop, hc, htake, hnext, htokens, hless⟩
    · -- nothing but spaces is left
      rw [hdrop] at hat₁
      have hzero : source k₁ = 0 := (at_cons.mp hat₁).1
      rw [if_pos hzero, words, htokens]
      exact ⟨b, by simp, by simpa using hb, hlen⟩
    · -- the space in front of the word leaves room for its end
      have hspace : isSpace x := hhead x (hr ▸ rfl)
      have hstart : (c :: start).length ≤ xs.length := by
        have hxs : rest.dropWhile isSpace = xs.dropWhile isSpace := by simp [hr, hspace]
        rw [← hdrop, hxs]
        exact List.length_dropWhile_le _ _
      have hzero : 0 ∉ c :: start := fun hmem =>
        hrest ((List.dropWhile_suffix isSpace).subset (hdrop ▸ hmem))
      rw [hdrop] at hat₁
      have hc₁ : source k₁ ≠ 0 := by
        rw [(at_cons.mp hat₁).1]
        rintro rfl
        exact hzero List.mem_cons_self
      obtain ⟨k₂, b₂, hk₂, hat₂, hb₂, hlen₂⟩ := takeWord_eq 2 hat₁ hzero hb
        (show (c :: start).length < kCommandLineMax by
          unfold kCommandLineMax; unfold kArgBytesMax at hroom; omega)
        hlen (by omega) (by decide)
      rw [htake] at hk₂ hb₂
      rw [hnext] at hat₂
      have hw : (c :: start.takeWhile fun c => !isSpace c).length +
          (start.dropWhile fun c => !isSpace c).length = (c :: start).length := by
        have := congrArg List.length (List.takeWhile_append_dropWhile (p := fun c => !isSpace c)
          (l := start))
        rw [List.length_append] at this
        rw [List.length_cons, List.length_cons]
        omega
      generalize (c :: start.takeWhile fun c => !isSpace c) = w at *
      have hroom₂ : (done ++ w).length < b₂.length := by
        rw [hlen₂, List.length_append]
        omega
      obtain ⟨b₃, hb₃, hlen₃, hbegins₃⟩ := store_next hb₂ hroom₂ 0
      have hlength₃ : (done ++ w ++ [0]).length = (done ++ w).length + 1 :=
        List.length_append
      have hzero' : 0 ∉ start.dropWhile fun c => !isSpace c := fun hmem =>
        hzero (List.mem_cons_of_mem c ((List.dropWhile_suffix _).subset hmem))
      have hhead' : ∀ d ∈ (start.dropWhile fun c => !isSpace c).head?, isSpace d := by
        intro d hd
        have hnot := List.head?_dropWhile_not (fun c => !isSpace c) start
        rw [Option.mem_def.mp hd] at hnot
        simpa using hnot
      generalize (start.dropWhile fun c => !isSpace c) = left at *
      have hroom₃ : (done ++ w ++ [0]).length + left.length + 2 ≤ kArgBytesMax := by
        rw [hlength₃, List.length_append]
        omega
      obtain ⟨b', hb', hbegins', hlen'⟩ := ih _ hless hat₂ hzero' hbegins₃ (hlen₃.trans hlen₂)
        (show left.length < turns by omega) hroom₃ hhead' rfl
      rw [if_neg hc₁, hk₂, Option.bind_eq_bind, Option.bind_some]
      dsimp only
      rw [hb₃, Option.bind_eq_bind, Option.bind_some, ← hlength₃, words, htokens, packed_cons]
      refine ⟨b', ?_, ?_, hlen'⟩
      · rw [hb']
        simp [words]
      · simpa [words] using hbegins'

/-- The first word of the line is the name, the others are the argument bytes. -/
theorem splitLine_eq (buffers : Buffers) {copied first : List UInt8} {others : List (List UInt8)}
    (hcopied : line ++ [0] <+: copied) (hline : 0 ∉ line) (hlength : line.length < kLowLineMax)
    (hwords : words line = first :: others) :
    ∃ name args, splitLine buffers (read copied 0) = some (some ⟨name, (packed others).length,
        if (packed others).length ≠ 0 then some args else none⟩) ∧
      first ++ [0] <+: name ∧ packed others <+: args := by
  unfold kLowLineMax at hlength
  have hname := buffers.name_length
  -- the spaces in front, then the name, then the rest as arguments
  have hsource : At (read copied 0) 0 (line ++ [0]) := at_read (l := []) hcopied
  obtain ⟨k₁, hk₁, hat₁, -⟩ := skipSpaces_eq hsource
    (show line.length < kCommandLineMax by unfold kCommandLineMax; omega)
  rcases Tokens.tokens_cases isSpace line with ⟨-, htokens⟩ | ⟨c, start, hdrop, hc, htake, hnext,
    htokens, -⟩
  · rw [words, htokens] at hwords
    exact absurd hwords (List.cons_ne_nil _ _).symm
  rw [words, htokens] at hwords
  obtain ⟨rfl, rfl⟩ := List.cons_eq_cons.mp hwords
  have hzero : 0 ∉ c :: start := fun hmem =>
    hline ((List.dropWhile_suffix isSpace).subset (hdrop ▸ hmem))
  have hstart : (c :: start).length ≤ line.length := by
    rw [← hdrop]
    exact List.length_dropWhile_le _ _
  rw [hdrop] at hat₁
  obtain ⟨k₂, b₂, hk₂, hat₂, hb₂, hlen₂⟩ := takeWord_eq 1 hat₁ hzero
    (List.nil_prefix : [] <+: buffers.name)
    (show (c :: start).length < kCommandLineMax by unfold kCommandLineMax; omega)
    hname (by unfold kArgBytesMax; rw [List.length_nil]; omega) (by decide)
  rw [htake, List.nil_append] at hk₂ hb₂
  rw [hnext] at hat₂
  have hlefts : (start.dropWhile fun c => !isSpace c).length ≤ start.length :=
    List.length_dropWhile_le _ _
  have htakes : (start.takeWhile fun c => !isSpace c).length ≤ start.length :=
    (List.takeWhile_prefix _).length_le
  -- the rest of the line has no end of string in it either
  have hzero' : 0 ∉ start.dropWhile fun c => !isSpace c := fun hmem =>
    hzero (List.mem_cons_of_mem c ((List.dropWhile_suffix _).subset hmem))
  have hhead : ∀ d ∈ (start.dropWhile fun c => !isSpace c).head?, isSpace d := by
    intro d hd
    have hnot := List.head?_dropWhile_not (fun c => !isSpace c) start
    rw [Option.mem_def.mp hd] at hnot
    simpa using hnot
  rw [List.length_cons] at hstart
  -- the buffer of the name has room for it and its end
  have hroom : (c :: start.takeWhile fun c => !isSpace c).length < b₂.length := by
    rw [hlen₂, List.length_cons]
    unfold kArgBytesMax
    omega
  obtain ⟨name, hstore, -, hbegins⟩ := store_next hb₂ hroom 0
  obtain ⟨args, hargs, hargs', -⟩ := splitArguments_eq hat₂ hzero'
    (List.nil_prefix : [] <+: buffers.args) buffers.args_length
    (show (start.dropWhile fun c => !isSpace c).length < kCommandLineMax by
      unfold kCommandLineMax; omega)
    (by unfold kArgBytesMax; rw [List.length_nil]; omega) hhead
  rw [List.nil_append] at hargs hargs'
  refine ⟨name, args, ?_, hbegins, hargs'⟩
  unfold splitLine
  rw [hk₁, Option.bind_eq_bind, Option.bind_some]
  change takeWord _ 1 _ k₁ 0 _ = _ at hk₂
  rw [hk₂, Option.bind_eq_bind, Option.bind_some]
  dsimp only
  rw [hstore, Option.bind_eq_bind, Option.bind_some, if_neg (by simp)]
  change splitArguments _ _ k₂ 0 _ = _ at hargs
  rw [hargs, Option.bind_eq_bind, Option.bind_some]
  rfl

/-- The words of a line and an end behind each take no more room than the line and an end. -/
theorem length_packed_words (line : List UInt8) :
    (packed (words line)).length ≤ line.length + 1 ∧
      ((∀ c ∈ line.head?, isSpace c) → (packed (words line)).length ≤ line.length) := by
  unfold words
  induction line with
  | nil => exact ⟨Nat.zero_le _, fun _ => Nat.zero_le _⟩
  | cons c line ih =>
    rw [List.length_cons]
    by_cases hc : isSpace c
    · rw [Tokens.tokens_cons_of_pos hc]
      exact ⟨by omega, fun _ => ih.1⟩
    · refine ⟨?_, fun h => absurd (h c rfl) hc⟩
      rw [Tokens.tokens_cons_of_neg hc]
      cases line with
      | nil => exact Nat.le_refl 2
      | cons d line =>
        cases htokens : Tokens.tokens isSpace (d :: line) with
        | nil => exact Nat.le_add_left 2 _
        | cons w ws =>
          rw [htokens, length_packed_cons] at ih
          show (packed (if isSpace d then [c] :: w :: ws else (c :: w) :: ws)).length ≤ _
          by_cases hd : isSpace d
          · have hspace := ih.2 fun e he => by
              rw [List.head?_cons, Option.mem_some_iff] at he
              exact he ▸ hd
            rw [if_pos hd, length_packed_cons, length_packed_cons, List.length_singleton]
            omega
          · rw [if_neg hd, length_packed_cons, List.length_cons]
            omega

/-! ### Making the argument vector -/

/-- A base name begins anew behind a separator. -/
theorem base_concat (path : List UInt8) (x : UInt8) :
    base (path ++ [x]) = if x = 0x3A ∨ x = 0x2F then [] else base path ++ [x] := by
  rw [base, List.rtakeWhile_concat]
  by_cases hsep : x = 0x3A ∨ x = 0x2F
  · have hnot : ¬(decide (x ≠ 0x3A ∧ x ≠ 0x2F) = true) := by
      rw [decide_eq_true_eq, ← not_or, not_not]
      exact hsep
    rw [if_pos hsep, if_neg hnot]
  · have hpos : decide (x ≠ 0x3A ∧ x ≠ 0x2F) = true := by
      rw [decide_eq_true_eq, ← not_or]
      exact hsep
    rw [if_neg hsep, if_pos hpos]
    rfl

theorem length_base_le (path : List UInt8) : (base path).length ≤ path.length :=
  (List.rtakeWhile_suffix _ path).length_le

/-- Where the base name of a path begins. -/
theorem baseName_eq {path : ℕ → UInt8} {turns : ℕ} (hpath : At path done.length (rest ++ [0]))
    (hrest : 0 ∉ rest) (hturns : rest.length < turns) :
    baseName path turns done.length (done.length - (base done).length) =
      some ((done ++ rest).length - (base (done ++ rest)).length) := by
  induction rest generalizing turns done with
  | nil =>
    obtain ⟨turns, rfl⟩ : ∃ n, turns = n + 1 := ⟨turns - 1, by omega⟩
    have hzero : path done.length = 0 := (at_cons.mp hpath).1
    rw [baseName, if_neg (not_not.mpr hzero), List.append_nil]
  | cons x rest ih =>
    rw [List.length_cons] at hturns
    obtain ⟨turns, rfl⟩ : ∃ n, turns = n + 1 := ⟨turns - 1, by omega⟩
    obtain ⟨hx, hpath'⟩ := at_cons.mp hpath
    obtain ⟨hzero, hrest'⟩ := not_or.mp (mt List.mem_cons.mpr hrest)
    have hlength : (done ++ [x]).length = done.length + 1 := List.length_append
    have hle := length_base_le done
    have hname : (if path done.length = 0x3A ∨ path done.length = 0x2F then done.length + 1
        else done.length - (base done).length) =
          (done ++ [x]).length - (base (done ++ [x])).length := by
      rw [hx, hlength, base_concat]
      split
      · rfl
      · rw [List.length_append, List.length_singleton]
        omega
    rw [← hlength] at hpath'
    rw [baseName, if_pos (hx ▸ Ne.symm hzero), hname, List.append_cons done x rest, ← hlength]
    exact ih hpath' hrest' (Nat.lt_of_succ_lt_succ hturns)

/-- The argument bytes are copied behind what is there. -/
theorem copyArguments_eq {args : ℕ → UInt8} {bytes b : List UInt8} {k : ℕ}
    (hargs : At args k bytes) (hb : done <+: b) (hroom : done.length + bytes.length ≤ b.length) :
    ∃ b', copyArguments args bytes.length k done.length b = some b' ∧ b'.length = b.length ∧
      done ++ bytes <+: b' := by
  induction bytes generalizing k done b with
  | nil => exact ⟨b, rfl, rfl, by simpa using hb⟩
  | cons x bytes ih =>
    rw [List.length_cons] at hroom
    obtain ⟨hx, hargs'⟩ := at_cons.mp hargs
    obtain ⟨b₁, hb₁, hlen₁, hbegins₁⟩ := store_next hb (by omega) x
    have hlength : (done ++ [x]).length = done.length + 1 := List.length_append
    obtain ⟨b', hb', hlen', hbegins'⟩ := ih hargs' hbegins₁ (by omega)
    rw [List.append_cons]
    refine ⟨b', ?_, hlen'.trans hlen₁, hbegins'⟩
    rw [List.length_cons, copyArguments, hx, hb₁, Option.bind_eq_bind, Option.bind_some,
      ← hlength, hb']

/-- Inside a token nothing happens up to its end. -/
theorem scanTokens_word {copy w : List UInt8} (left argc : ℕ) (argv : List (Option ℕ))
    (hcopy : done ++ w ++ [0] <+: copy) (hw : 0 ∉ w) :
    scanTokens copy (w.length + 1 + left) done.length true argc argv =
      scanTokens copy left (done ++ w ++ [0]).length false argc argv := by
  by_cases hargc : argc < kArgvMax - 1
  · induction w generalizing done with
    | nil =>
      rw [List.append_nil] at hcopy ⊢
      have hc : copy[done.length]? = some 0 := by
        obtain ⟨t, rfl⟩ := hcopy
        simp
      rw [List.length_nil, Nat.zero_add, Nat.add_comm, scanTokens, if_pos hargc, hc,
        Option.bind_eq_bind, Option.bind_some, List.length_append]
      rfl
    | cons x w ih =>
      obtain ⟨hzero, hw'⟩ := not_or.mp (mt List.mem_cons.mpr hw)
      have hc : copy[done.length]? = some x := by
        obtain ⟨t, rfl⟩ := hcopy
        simp
      have hleft : (x :: w).length + 1 + left = w.length + 1 + left + 1 := by
        rw [List.length_cons]
        omega
      have hlength : (done ++ [x]).length = done.length + 1 := List.length_append
      rw [List.append_cons done x w] at hcopy ⊢
      rw [hleft, scanTokens, if_pos hargc, hc, Option.bind_eq_bind, Option.bind_some,
        if_neg (by simp), if_neg (Ne.symm hzero), ← hlength]
      exact ih hcopy hw'
  · have hstop : ∀ n k token, scanTokens copy n k token argc argv = some (argc, argv) := by
      intro n k token
      cases n with
      | zero => rfl
      | succ n => rw [scanTokens, if_neg hargc]
    rw [hstop, hstop]

/-- The tokens found are the words, fifteen with the name at most. -/
theorem scanTokens_eq {copy : List UInt8} {ws : List (List UInt8)} {found argv : List (Option ℕ)}
    (hcopy : done ++ packed ws <+: copy) (hws : ∀ w ∈ ws, w ≠ [] ∧ 0 ∉ w)
    (hargv : found <+: argv) (hlen : argv.length = kArgvMax) :
    ∃ pointers argv', scanTokens copy (packed ws).length done.length false found.length argv =
        some ((found ++ pointers).length, argv') ∧
      found ++ pointers <+: argv' ∧ argv'.length = kArgvMax ∧
      pointers.map (Option.map (stringAt copy)) =
        (ws.take (kArgvMax - 1 - found.length)).map some := by
  -- on the words that are left, each of which is found at its own place
  induction ws generalizing done found argv with
  | nil =>
    refine ⟨[], argv, ?_, ?_, hlen, ?_⟩
    · rw [List.append_nil]
      rfl
    · rw [List.append_nil]
      exact hargv
    · rw [List.take_nil]
      rfl
  | cons w ws ih =>
    obtain ⟨⟨hne, hzero⟩, hws'⟩ := List.forall_mem_cons.mp hws
    -- there is room for the pointer, or the scan has stopped
    by_cases hroom : found.length < kArgvMax - 1
    · obtain ⟨argv₁, hstore, hlen₁, hbegins₁⟩ := store_next hargv
        (show found.length < argv.length by omega) (some done.length)
      have hlength : (found ++ [some done.length]).length = found.length + 1 :=
        List.length_append
      rw [packed_cons, ← List.append_assoc, ← List.append_assoc] at hcopy
      obtain ⟨pointers, argv', hscan, hbegins', hlen', hstrings⟩ := ih hcopy hws' hbegins₁
        (hlen₁.trans hlen)
      -- the pointer leads to the word
      have hword : stringAt copy done.length = w := by
        refine stringAt_eq (r := []) ?_ hzero
        exact (List.prefix_append _ _).trans hcopy
      refine ⟨some done.length :: pointers, argv', ?_, ?_, hlen', ?_⟩
      · cases w with
        | nil => exact absurd rfl hne
        | cons x w =>
          obtain ⟨hx, hw⟩ := not_or.mp (mt List.mem_cons.mpr hzero)
          have hcopy' : done ++ [x] ++ w ++ [0] <+: copy := by
            rw [List.append_assoc done [x] w]
            exact (List.prefix_append _ _).trans hcopy
          have hc : copy[done.length]? = some x := by
            obtain ⟨t, rfl⟩ := hcopy'
            simp
          have hleft : (packed ((x :: w) :: ws)).length =
              w.length + 1 + (packed ws).length + 1 := by
            rw [length_packed_cons, List.length_cons]
            omega
          have hinside := scanTokens_word (packed ws).length (found.length + 1) argv₁
            hcopy' hw
          rw [List.length_append, List.length_singleton] at hinside
          rw [hleft, scanTokens, if_pos hroom, hc, Option.bind_eq_bind, Option.bind_some,
            if_pos (by simpa using Ne.symm hx), hstore, Option.bind_eq_bind, Option.bind_some,
            hinside, ← hlength]
          have happend : done ++ [x] ++ w ++ [0] = done ++ (x :: w) ++ [0] := by simp
          rw [happend, hscan]
          simp
      · simpa using hbegins'
      · have htake : kArgvMax - 1 - found.length =
            kArgvMax - 1 - (found ++ [some done.length]).length + 1 := by omega
        rw [htake, List.take_succ_cons, List.map_cons, List.map_cons, hstrings, Option.map_some,
          hword]
    · refine ⟨[], argv, ?_, ?_, hlen, ?_⟩
      · rw [List.append_nil]
        cases (packed (w :: ws)).length with
        | zero => rfl
        | succ n => rw [scanTokens, if_neg hroom]
      · rw [List.append_nil]
        exact hargv
      · have hnone : kArgvMax - 1 - found.length = 0 := by omega
        rw [hnone, List.take_zero]
        rfl

theorem exists_packed_eq {ws : List (List UInt8)} (h : ws ≠ []) :
    ∃ bytes, packed ws = bytes ++ [0] := by
  refine ⟨packed ws.dropLast ++ ws.getLast h, ?_⟩
  conv_lhs => rw [← List.dropLast_append_getLast h]
  rw [packed_append, List.append_assoc, packed_cons, packed_nil, List.append_nil]

/-- The vector of a name and argument bytes that fit the copy. -/
theorem buildArguments_eq {name : ℕ → UInt8} {args copy nameBytes : List UInt8}
    {others : List (List UInt8)} {argv : List (Option ℕ)} (hname : At name 0 (nameBytes ++ [0]))
    (hzero : 0 ∉ nameBytes) (hargs : packed others <+: args)
    (hothers : ∀ w ∈ others, w ≠ [] ∧ 0 ∉ w)
    (hroom : nameBytes.length + 1 + (packed others).length ≤ kArgBytesMax)
    (hcopy : copy.length = kArgBytesMax) (hargv : argv.length = kArgvMax) :
    ∃ arguments, buildArguments name (packed others).length
        (if (packed others).length ≠ 0 then some args else none) copy argv = some arguments ∧
      arguments.strings = some nameBytes :: (others.take (kArgvMax - 2)).map some ++ [none] := by
  obtain ⟨argv₁, hargv₁, hlen₁, hbegins₁⟩ := store_next (l := []) (b := argv) List.nil_prefix
    (by rw [hargv]; decide) (some 0)
  obtain ⟨copy₁, hcopy₁, hlenc₁, hbeginsc₁⟩ := copyString_start kArgBytesMax (b := copy)
    hname hzero (by decide) (by rw [hcopy])
  rw [List.take_of_length_le (by omega)] at hcopy₁ hbeginsc₁
  -- whatever the argument bytes, the pointers found are those of the words
  have hadded : ∃ pointers argv' copy', addArguments (nameBytes.length + 1) (packed others).length
      (if (packed others).length ≠ 0 then some args else none) copy₁ argv₁ =
        some ⟨(some 0 :: pointers).length, argv', copy'⟩ ∧
      some 0 :: pointers <+: argv' ∧ argv'.length = kArgvMax ∧ nameBytes ++ [0] <+: copy' ∧
      pointers.map (Option.map (stringAt copy')) = (others.take (kArgvMax - 2)).map some := by
    cases others with
    | nil => exact ⟨[], argv₁, copy₁, rfl, hbegins₁, hlen₁.trans hargv, hbeginsc₁, rfl⟩
    | cons w ws =>
      have hpos : 0 < (packed (w :: ws)).length := by
        rw [length_packed_cons]
        omega
      obtain ⟨bytes, hbytes⟩ := exists_packed_eq (List.cons_ne_nil w ws)
      have hread : At (read args 0) 0 (packed (w :: ws)) := at_read (l := []) hargs
      have hdone : (nameBytes ++ [0]).length = nameBytes.length + 1 := List.length_append
      obtain ⟨copy₂, hcopy₂, hlenc₂, hbeginsc₂⟩ := copyArguments_eq hread hbeginsc₁ (by omega)
      rw [hdone] at hcopy₂
      have hend : store copy₂ (nameBytes.length + 1 + (packed (w :: ws)).length - 1) 0 =
          some copy₂ := by
        have hat : nameBytes.length + 1 + (packed (w :: ws)).length - 1 =
            (nameBytes ++ [0] ++ bytes).length := by
          rw [hbytes, List.length_append, List.length_append, List.length_append,
            List.length_singleton]
          omega
        rw [hat]
        refine store_self ?_
        rw [List.append_assoc (nameBytes ++ [0]), ← hbytes]
        exact hbeginsc₂
      obtain ⟨pointers, argv', hscan, hbegins', hlen', hstrings⟩ := scanTokens_eq hbeginsc₂ hothers
        hbegins₁ (hlen₁.trans hargv)
      refine ⟨pointers, argv', copy₂, ?_, hbegins', hlen', (List.prefix_append _ _).trans hbeginsc₂,
        hstrings⟩
      change scanTokens copy₂ _ _ false 1 argv₁ = _ at hscan
      rw [hdone] at hscan
      rw [if_pos hpos.ne', addArguments, if_pos hpos, if_neg (by omega)]
      dsimp only
      rw [hcopy₂, Option.bind_eq_bind, Option.bind_some, hend, Option.bind_some, hscan]
      rfl
  obtain ⟨pointers, argv', copy', hadd, hbegins', hlen', hname', hstrings⟩ := hadded
  have hcount : pointers.length ≤ kArgvMax - 2 := by
    have := congrArg List.length hstrings
    rw [List.length_map, List.length_map, List.length_take] at this
    omega
  obtain ⟨argv₂, hargv₂, -, hbegins₂⟩ := store_next hbegins'
    (by rw [hlen', List.length_cons]; unfold kArgvMax at *; omega) none
  refine ⟨⟨(some 0 :: pointers).length, argv₂, copy'⟩, ?_, ?_⟩
  · change store argv 0 (some 0) = _ at hargv₁
    unfold buildArguments
    rw [hargv₁, Option.bind_eq_bind, Option.bind_some, hcopy₁, Option.bind_eq_bind,
      Option.bind_some]
    dsimp only
    rw [hadd, Option.bind_eq_bind, Option.bind_some, hargv₂]
    rfl
  · have hfirst : stringAt copy' 0 = nameBytes :=
      stringAt_eq (l := []) (r := []) hname' hzero
    have htake : argv₂.take ((some 0 :: pointers).length + 1) = some 0 :: pointers ++ [none] := by
      have hlength : (some 0 :: pointers ++ [none]).length = (some 0 :: pointers).length + 1 :=
        List.length_append
      rw [← hlength]
      exact List.prefix_iff_eq_take.mp hbegins₂ |>.symm
    unfold Arguments.strings
    dsimp only
    rw [htake, List.map_append, List.map_cons, hstrings, Option.map_some, hfirst]
    rfl

/-! ### The whole way -/

theorem bootMode_eq (mode : ℕ) :
    mode &&& 0xFF00 ||| kModeUpdateStage = mode / 2 ^ 8 % 2 ^ 8 * 2 ^ 8 + 2 := by
  have hmask : mode &&& 0xFF00 = mode / 2 ^ 8 % 2 ^ 8 * 2 ^ 8 := Nat.and_shifted_mask mode 8 8
  rw [hmask]
  exact Nat.mul_two_pow_or_mod _ 2 8

/-- What becomes of a line up to the call of `mode2Bootup`. -/
theorem rebootWith_line (load : List UInt8 → Option ρ) (buffers : Buffers) {argument : ℕ → UInt8}
    (mode : ℕ) (hargument : At argument 0 (line ++ [0])) (hline : 0 ∉ line) (hne : line ≠ []) :
    ∃ copied, line.take (kLowLineMax - 1) ++ [0] <+: copied ∧
      rebootWith load buffers (some argument) mode =
        if mode / 2 ^ 8 % 2 ^ 8 ≠ 0 then some none
        else (splitLine buffers (read copied 0)).bind fun request =>
          match request with
          | none => some none
          | some request => loadStartModule load buffers request := by
  -- the copy that the reboot's handler keeps
  obtain ⟨low, hlow, -, hbeginsl⟩ := copyString_start kLowLineMax (b := buffers.low)
    hargument hline (by decide) (by rw [buffers.low_length])
  have hfirst : argument 0 ≠ 0 := by
    cases line with
    | nil => exact absurd rfl hne
    | cons x xs =>
      rw [(at_cons.mp hargument).1]
      rintro rfl
      exact hline List.mem_cons_self
  have hboot : rebootCore buffers.low (some argument) mode =
      some (mode / 2 ^ 8 % 2 ^ 8 * 2 ^ 8 + 2, some low) := by
    rw [rebootCore, if_pos hfirst, hlow, bootMode_eq]
    rfl
  -- what is kept is shorter than LOADCORE's own buffer, so that one takes all of it
  have hnotmem : 0 ∉ line.take (kLowLineMax - 1) := fun h => hline (List.mem_of_mem_take h)
  have hlength : (line.take (kLowLineMax - 1)).length < kCommandLineMax := by
    have := List.length_take_le (kLowLineMax - 1) line
    unfold kLowLineMax kCommandLineMax at *
    omega
  generalize hhigh : mode / 2 ^ 8 % 2 ^ 8 = high at *
  obtain ⟨records, copied, hrecords, hfound, hcopied, -⟩ := buildBootRecords_eq buffers
    (high * 2 ^ 8 + 2) hbeginsl hnotmem hlength
  -- the mode says that the line names the module to start
  have hstage : high * 2 ^ 8 + 2 &&& 0xFF = kModeUpdateStage := by
    have hlow : high * 2 ^ 8 + 2 &&& 0xFF = (high * 2 ^ 8 + 2) % 2 ^ 8 :=
      Nat.and_two_pow_sub_one_eq_mod _ 8
    rw [hlow]
    unfold kModeUpdateStage
    omega
  have hbyte : (high * 2 ^ 8 + 2) / 2 ^ 8 % 2 ^ 8 = high := by omega
  refine ⟨copied, hcopied, ?_⟩
  unfold rebootWith
  rw [hboot, Option.bind_eq_bind, Option.bind_some]
  dsimp only
  rw [hrecords, Option.bind_eq_bind, Option.bind_some]
  dsimp only
  rw [if_pos hstage, mode2Bootup_eq buffers copied hfound, hbyte]
  split
  · rfl
  · rfl

/-- A request for some words enters the first of them with the words as its arguments. -/
theorem loadStartModule_eq (load : List UInt8 → Option ρ) (buffers : Buffers) {record : ρ}
    {first name args : List UInt8} {others : List (List UInt8)} (hname : first ++ [0] <+: name)
    (hargs : packed others <+: args) (hwords : ∀ w ∈ first :: others, w ≠ [] ∧ 0 ∉ w)
    (hroom : (packed (first :: others)).length ≤ kArgBytesMax) (hload : load first = some record) :
    ∃ arguments, loadStartModule load buffers ⟨name, (packed others).length,
        if (packed others).length ≠ 0 then some args else none⟩ = some (some ⟨record, arguments⟩) ∧
      arguments.strings = stringsOf (first :: others) := by
  rw [length_packed_cons] at hroom
  obtain ⟨⟨-, hzero⟩, hothers⟩ := List.forall_mem_cons.mp hwords
  have hpath : stringAt name 0 = first := stringAt_eq (l := []) (r := []) hname hzero
  have hbase :
      baseName (read name 0) kArgBytesMax 0 0 = some (first.length - (base first).length) :=
    @baseName_eq first [] _ kArgBytesMax (at_read (l := []) hname) hzero (by omega)
  -- the path is its directories and its base name
  obtain ⟨dirs, hdirs⟩ : base first <:+ first := List.rtakeWhile_suffix _ first
  have hstart : first.length - (base first).length = dirs.length := by
    have hlen := congrArg List.length hdirs
    rw [List.length_append] at hlen
    omega
  have hread : At (read name dirs.length) 0 (base first ++ [0]) := by
    refine at_read ?_
    rw [← List.append_assoc, hdirs]
    exact hname
  have hbasezero : 0 ∉ base first := fun h => hzero ((List.rtakeWhile_suffix _ first).subset h)
  have hle := length_base_le first
  obtain ⟨arguments, hbuild, hstrings⟩ := buildArguments_eq hread hbasezero hargs hothers
    (by omega) buffers.copy_length buffers.argv_length
  refine ⟨arguments, ?_, hstrings⟩
  unfold loadStartModule
  dsimp only
  rw [hpath, hload]
  dsimp only
  rw [hbase, Option.bind_eq_bind, Option.bind_some, hstart, hbuild]
  rfl

/-- The words of what low memory holds of the line are the arguments of the module the first of
them names. -/
theorem rebootWith_eq (load : List UInt8 → Option ρ) (buffers : Buffers) {argument : ℕ → UInt8}
    (mode : ℕ) {record : ρ} {first : List UInt8} {others : List (List UInt8)}
    (hargument : At argument 0 (line ++ [0])) (hline : 0 ∉ line) (hne : line ≠ [])
    (hwords : words (line.take (kLowLineMax - 1)) = first :: others)
    (hload : load first = some record) (hmode : mode / 2 ^ 8 % 2 ^ 8 = 0) :
    ∃ arguments, rebootWith load buffers (some argument) mode =
        some (some ⟨record, arguments⟩) ∧
      arguments.strings = stringsOf (words (line.take (kLowLineMax - 1))) := by
  obtain ⟨copied, hcopied, hreboot⟩ := rebootWith_line load buffers mode hargument hline hne
  rw [hreboot, if_neg (not_not.mpr hmode)]
  have hnotmem : 0 ∉ line.take (kLowLineMax - 1) := fun h => hline (List.mem_of_mem_take h)
  have hlength : (line.take (kLowLineMax - 1)).length < kLowLineMax := by
    have := List.length_take_le (kLowLineMax - 1) line
    unfold kLowLineMax at *
    omega
  generalize line.take (kLowLineMax - 1) = held at *
  obtain ⟨name, args, hsplit, hname, hargs⟩ := splitLine_eq buffers hcopied hnotmem hlength hwords
  have hmem : ∀ w ∈ first :: others, w ≠ [] ∧ 0 ∉ w := by
    intro w hw
    rw [← hwords] at hw
    obtain ⟨hword, hall⟩ := Tokens.mem_of_mem_tokens hw
    exact ⟨hword, fun hzero => hnotmem (hall 0 hzero).1⟩
  have hroom : (packed (first :: others)).length ≤ kArgBytesMax := by
    have hwhole := (length_packed_words held).1
    rw [hwords] at hwhole
    unfold kLowLineMax at hlength
    unfold kArgBytesMax
    omega
  rw [hsplit, Option.bind_some, hwords]
  exact loadStartModule_eq load buffers hname hargs hmem hroom hload

/-- The words of what low memory holds of the line, fifteen at most, are the arguments of the
module the first of them names, once it loads; a second byte in the mode enters nothing. -/
theorem strings_of_line (load : List UInt8 → Option ρ) (buffers : Buffers) {argument : ℕ → UInt8}
    (mode : ℕ) {record : ρ} {first : List UInt8} {others : List (List UInt8)}
    (hargument : At argument 0 (line ++ [0])) (hline : 0 ∉ line)
    (hwords : words (line.take (kLowLineMax - 1)) = first :: others)
    (hload : load first = some record) :
    (mode / 2 ^ 8 % 2 ^ 8 ≠ 0 → rebootWith load buffers (some argument) mode = some none) ∧
      (mode / 2 ^ 8 % 2 ^ 8 = 0 → ∃ arguments, rebootWith load buffers (some argument) mode =
          some (some ⟨record, arguments⟩) ∧
        arguments.strings = stringsOf (words (line.take (kLowLineMax - 1)))) := by
  have hne : line ≠ [] := by
    rintro rfl
    exact List.cons_ne_nil _ _ hwords.symm
  refine ⟨fun hmode => ?_, rebootWith_eq load buffers mode hargument hline hne hwords hload⟩
  obtain ⟨copied, -, hreboot⟩ := rebootWith_line load buffers mode hargument hline hne
  rw [hreboot, if_pos hmode]

/-- Buffers of zeros. -/
def blank : Buffers where
  low := List.replicate kLowLineMax 0
  line := List.replicate kCommandLineMax 0
  records := List.replicate kBootRecordWords 0
  name := List.replicate kArgBytesMax 0
  args := List.replicate kArgBytesMax 0
  copy := List.replicate kArgBytesMax 0
  argv := List.replicate kArgvMax none
  lineAddress := 1
  low_length := List.length_replicate
  line_length := List.length_replicate
  records_length := List.length_replicate
  name_length := List.length_replicate
  args_length := List.length_replicate
  copy_length := List.length_replicate
  argv_length := List.length_replicate
  lineAddress_pos := Nat.one_ne_zero

/-- `rom0:U a`. -/
def shortLine : List UInt8 := [0x72, 0x6F, 0x6D, 0x30, 0x3A, 0x55, 0x20, 0x61]

/-- A short line comes out as the module's name and its argument. -/
theorem strings_of_shortLine : ∃ arguments,
    rebootWith some blank (some (read (shortLine ++ [0]) 0)) 0 =
      some (some ⟨[0x72, 0x6F, 0x6D, 0x30, 0x3A, 0x55], arguments⟩) ∧
      arguments.strings = [some [0x55], some [0x61], none] := by
  have hargument : At (read (shortLine ++ [0]) 0) 0 (shortLine ++ [0]) :=
    at_read (l := []) (List.prefix_refl _)
  have hwords : words (shortLine.take (kLowLineMax - 1)) = [shortLine.take 6, [0x61]] := by decide
  have h := (strings_of_line some blank 0 hargument (by decide) hwords rfl).2 rfl
  have hstrings : stringsOf (words (shortLine.take (kLowLineMax - 1))) =
    [some [0x55], some [0x61], none] := by decide
  rwa [hstrings] at h

/-- A line that is one word and one name. -/
theorem stringsOf_word (word : List UInt8) (hne : word ≠ [])
    (hword : ∀ c ∈ word, c ≠ space ∧ c ≠ 0x3A ∧ c ≠ 0x2F) :
    words word = [word] ∧ stringsOf [word] = [some word, none] := by
  have hwords := Tokens.tokens_append (p := isSpace) (l := []) hne
    (fun c hc => by simpa [isSpace] using (hword c hc).1) (fun c hc => absurd hc (by simp))
  rw [List.append_nil] at hwords
  have hbase : base word = word :=
    List.rtakeWhile_eq_self_iff.mpr fun c hc => by simpa using (hword c hc).2
  refine ⟨hwords, ?_⟩
  rw [stringsOf, hbase]
  rfl

/-- A word of 128 bytes loses its last, and a mode with a second byte enters nothing. -/
theorem not_strings_of_line :
    (∃ arguments, rebootWith (fun _ => some ()) blank
        (some (read (List.replicate 128 0x78 ++ [0]) 0)) 0 = some (some ⟨(), arguments⟩) ∧
      ¬∃ ws, ws <+: words (List.replicate 128 0x78) ∧ arguments.strings = stringsOf ws) ∧
    rebootWith (fun _ => some ()) blank (some (read (shortLine ++ [0]) 0)) 0x100 = some none := by
  have hletters : ∀ n, ∀ c ∈ List.replicate n (0x78 : UInt8), c ≠ space ∧ c ≠ 0x3A ∧ c ≠ 0x2F := by
    intro n c hc
    rw [List.eq_of_mem_replicate hc]
    decide
  obtain ⟨hheld, hheldStrings⟩ := stringsOf_word (List.replicate 127 0x78) (by simp)
    (hletters 127)
  obtain ⟨hwhole, hwholeStrings⟩ := stringsOf_word (List.replicate 128 0x78) (by simp)
    (hletters 128)
  constructor
  · have htake : (List.replicate 128 (0x78 : UInt8)).take (kLowLineMax - 1) =
        List.replicate 127 0x78 := List.take_replicate
    have hzero : (0 : UInt8) ∉ List.replicate 128 0x78 := by simp
    obtain ⟨arguments, hreboot, hstrings⟩ := rebootWith_eq (fun _ => some ()) blank 0
      (at_read (l := []) (List.prefix_refl _)) hzero (by simp) (htake ▸ hheld) rfl rfl
    rw [htake, hheld, hheldStrings] at hstrings
    refine ⟨arguments, hreboot, ?_⟩
    rintro ⟨ws, hws, heq⟩
    rw [hwhole] at hws
    rw [hstrings] at heq
    -- a prefix of one word is none of it or all of it
    rcases List.prefix_cons_iff.mp hws with rfl | ⟨t, rfl, ht⟩
    · exact absurd (congrArg List.length heq) (by decide)
    · rw [List.prefix_nil.mp ht, hwholeStrings] at heq
      have hlength := congrArg List.length (Option.some.inj (List.cons.inj heq).1)
      rw [List.length_replicate, List.length_replicate] at hlength
      exact absurd hlength (by decide)
  · have hargument : At (read (shortLine ++ [0]) 0) 0 (shortLine ++ [0]) :=
      at_read (l := []) (List.prefix_refl _)
    obtain ⟨copied, -, hreboot⟩ := rebootWith_line (fun _ => some ()) blank 0x100 hargument
      (by decide) (by decide)
    rw [hreboot]
    rfl

end PS2Bios.Loadcore.CommandLine
