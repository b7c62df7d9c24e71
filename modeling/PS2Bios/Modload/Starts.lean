import PS2Bios.Modload.Holding

/-!
# Modules are started by their ids

Every run of loads and starts, at whatever calls of IOMAN the threads take turns, is one of the
`Ledger` as long as each step is `Careful`. A load that comes to an end with a module has to find a
slot free then, as it did when it was called. A start without a name has to find at the record's
name what was there when the path was given. The name a module is entered with has to be of at most
255 characters, and the size of a module's place must not be so near the end of the words that
SYSMEM's rounding of it wraps.

None of this is checked. The room in the hold list is looked at by a load before it reads the file
and used after it, and the record's name is a pointer into the path, which is the caller's.
-/

namespace PS2Bios.Modload

open Bytes Loadcore.CommandLine
open Sysmem (kMaxBlocks)

/-- The string is there. -/
def Shows (memory : Ram) (n : Named) : Prop :=
  At memory n.address (n.bytes ++ [0]) ∧ 0 ∉ n.bytes ∧ n.bytes.length < 2 ^ 32

/-- What the probe has to answer. -/
def Image.Probed (image : Image) : Prop :=
  0 ≤ image.probe.1 ∧ 1 ≤ image.probe.2.type ∧ image.probe.2.type ≤ 4

/-- The size of a module's place. -/
def Image.size (image : Image) : UInt32 := kRecordSize + image.probe.2.memory_size

/-- What the loading of an image answers. -/
def Image.loadAt (image : Image) (block : UInt32) : ℤ × ExecutableInfo :=
  image.load { image.probe.2 with base := block + kRecordSize }

/-- An image that becomes a module, in the block granted. -/
def Image.Accepted (image : Image) (block : UInt32) : Prop :=
  image.Probed ∧ block ≠ 0 ∧ 0 ≤ (image.loadAt block).1 ∧ 0 ≤ image.link (image.loadAt block).2

/-- The strings are those in memory, the length of a file is an `int`, and SYSMEM keeps to its
law. -/
def Lawful (s : Shared) : Act → Prop
  | .loadModule path => Shows s.memory path
  | .startModule _ name _ _ _ => ∀ n ∈ name, Shows s.memory n
  | .sized length block => length < 2 ^ 31 ∧ Grants s.held (UInt32.ofNat length.toNat) block
  | .loadModuleBuffer _ image block => Grants s.held image.size block
  | .closed image block => Grants s.held image.size block
  | _ => True

/-- The name a module is entered with fits the copy, and one that is not given is still what it was
when the module was loaded. -/
def Spelled (s : Shared) (r : UInt32) (name : Option Named) : Prop :=
  ∀ path ∈ (name.map Named.bytes).or (s.origin r), (base path).length < kArgBytesMax ∧
    (name.isNone → Shows s.memory ⟨(s.record r).name, base path⟩)

/-- The thread has read its file, and all of it. -/
def Phase.complete : Phase → Bool
  | .closing _ file got => got = file.length
  | _ => false

/-- A request for a module's place does not wrap, a load finds a slot for its module, and a module
is started under a name that is there. -/
def Careful (s : Shared) (p : Phase) : Act → Prop
  | .closed image block => p.complete → (image.Probed → image.size ≤ 0xFFFFFF00) ∧
      (image.Accepted block → canHold s.loaded)
  | .loadModuleBuffer _ image _ => image.Probed → image.size ≤ 0xFFFFFF00
  | .startModule id name _ _ _ =>
    ∀ r ∈ s.loaded.reduceOption, ((s.record r).id.toNat : ℤ) = id → Spelled s r name
  | _ => True

namespace Machine

variable {ι : Type} [DecidableEq ι]

/-- An action is one that the modules around it can bring about. -/
def Lawful (s : Machine ι) : Label ι → Prop
  | .act _ a => Modload.Lawful s.shared a
  | .memory _ => True

/-- An action that meets the condition on it. -/
def Careful (s : Machine ι) : Label ι → Prop
  | .act t a => Modload.Careful s.shared (s.place t) a
  | .memory _ => True

/-- A step, and what is seen of it. -/
def Step (s : Machine ι) (l : Label ι × List Seen) (s' : Machine ι) : Prop :=
  s.Lawful l.1 ∧ s.step l.1 = some (l.2, s')

/-- A step whose action was careful. -/
def CarefulStep (s : Machine ι) (l : Label ι × List Seen) (s' : Machine ι) : Prop :=
  s.Careful l.1 ∧ s.Step l s'

/-- The state and the ledger agree: of SYSMEM's blocks, the hold list and LOADCORE's list. -/
structure Kept (s : Machine ι) (L : Ledger) : Prop where
  accounts : Accounts (fun t => (s.place t).buffer) s.shared.held L.modules
  holding : Holding s.shared L

end Machine

/-! ### Names -/

section Names

variable {memory : Ram} {n : Named}

/-- What lies behind the last separator of a path that is shown is shown too. -/
theorem shows_base (h : Shows memory n) :
    ∃ at_, baseNameAt memory n.address = some at_ ∧ Shows memory ⟨at_, base n.bytes⟩ := by
  obtain ⟨hat, hzero, hlength⟩ := h
  have hpath : At (fun k => memory (n.address + k)) ([] : List UInt8).length (n.bytes ++ [0]) := by
    intro i x hx
    rw [List.length_nil, Nat.zero_add]
    exact hat i x hx
  have hturns : n.bytes.length < kTurns := by
    unfold kTurns
    omega
  have hbase := baseName_eq hpath hzero hturns
  obtain ⟨front, hfront⟩ : base n.bytes <:+ n.bytes := List.rtakeWhile_suffix _ n.bytes
  refine ⟨n.address + front.length, ?_, ?_, ?_, ?_⟩
  · change baseName _ kTurns 0 0 = _ at hbase
    rw [baseNameAt, hbase, Option.map_some, List.nil_append]
    have hlengths := congrArg List.length hfront
    rw [List.length_append] at hlengths
    congr 2
    omega
  · rw [← hfront, List.append_assoc, at_append] at hat
    exact hat.2
  · exact fun hmem => hzero (hfront ▸ List.mem_append_right front hmem)
  · exact (length_base_le n.bytes).trans_lt hlength

/-- The arguments of a module whose name is there. -/
theorem arguments_of_shows (h : Shows memory n) (hlength : n.bytes.length < kArgBytesMax)
    (arglen : ℕ) (args : Option (List UInt8)) (frame : Frame) :
    ∃ arguments, buildArguments (fun k => memory (n.address + k)) arglen args frame.copy
        frame.argv = some arguments ∧ arguments.strings.head? = some (some n.bytes) := by
  have hname : At (fun k => memory (n.address + k)) 0 (n.bytes ++ [0]) := by
    intro i x hx
    rw [Nat.zero_add]
    exact h.1 i x hx
  obtain ⟨arguments, hbuild, hfirst⟩ := buildArguments_first arglen args hname h.2.1
    frame.copy_length frame.argv_length
  rw [List.take_of_length_le (Nat.le_sub_one_of_lt hlength)] at hfirst
  exact ⟨arguments, hbuild, hfirst⟩

end Names

/-! ### One step -/

section Loading

variable {s : Shared} {L : Ledger} {image : Image} {block : UInt32} {name : ℕ}

/-- What `loadImage` comes to: an error, with the block given back, or a module registered. -/
theorem loadImage_cases (s : Shared) (image : Image) (block : UInt32) (name : ℕ) :
    (∃ error < 0, s.loadImage image block name = (.error error, s)) ∨
      image.Accepted block ∧ ∃ record, s.loadImage image block name =
        (.ok block, (s.allocated block).registerModule block record) := by
  have hback : (s.allocated block).released block = s := by
    rw [Shared.released, Shared.allocated, List.erase_cons_head]
  unfold Shared.loadImage
  dsimp only
  split
  next => exact .inl ⟨kIllegalObject, by decide, rfl⟩
  next hprobe =>
    simp only [not_or, not_lt, UInt32.not_lt] at hprobe
    split
    next => exact .inl ⟨kNoMemory, by decide, rfl⟩
    next hblock =>
      split
      next => exact .inl ⟨kIllegalObject, by decide, by rw [hback]⟩
      next hload =>
        split
        next => exact .inl ⟨kLinkError, by decide, by rw [hback]⟩
        next hlink => exact .inr ⟨⟨hprobe, hblock, not_lt.mp hload, not_lt.mp hlink⟩, _, rfl⟩

end Loading

namespace Machine.Kept

variable {ι : Type} {s : Machine ι} {L : Ledger} {t : ι} {x : Shared} {p : Phase} {a : Act}
  {image : Image} {block : UInt32} {path : Named} {file : File} {saw : Seen} {seen : List Seen}

/-- A module is registered and held, by a thread that keeps the buffer it has. -/
theorem load (h : Kept s L) (origin : Option (List UInt8))
    (hgrants : block ∉ s.shared.held ∧ s.shared.held.length < kMaxBlocks)
    (hcan : canHold s.shared.loaded) (record : ModuleRecord) :
    ∃ m L', (((s.shared.allocated block).registerModule block record).answered origin block).1 =
        .loaded m ∧ L.Step (.loaded m) L' ∧
      Accounts (fun t => (s.place t).buffer) (block :: s.shared.held) L'.modules ∧
      Holding (((s.shared.allocated block).registerModule block record).answered origin block).2
        L' := by
  obtain ⟨hblock, hroom⟩ := hgrants
  have hmodules : block ∉ L.modules := fun hm => hblock (h.accounts.modules_held block hm)
  have hlength := h.accounts.length_modules_le
  have hallocated : Holding (s.shared.allocated block) L := h.holding.congr
  obtain ⟨m, L', hseen, hstep, hL', hholding⟩ := hallocated.load
    (hlength.trans_lt hroom) hmodules hcan record origin
  refine ⟨m, L', congrArg Prod.fst hseen, hstep, ?_, hholding⟩
  rw [hL']
  exact h.accounts.register hblock hroom

/-- A load that fails is answered by the ledger with nothing. -/
theorem fails {error : ℤ} {s' : Machine ι} (herror : error < 0) (h : Kept s' L) :
    ∃ L', Steps Ledger.Step L [.failed error] L' ∧ Kept s' L' :=
  ⟨L, .cons (.failed herror) (.nil L), h⟩

variable [DecidableEq ι]

/-- The buffers of the threads when one of them goes on. -/
theorem buffers_go : (fun u => ((s.go t p x).place u).buffer) =
    Function.update (fun u => (s.place u).buffer) t p.buffer := by
  funext u
  rcases eq_or_ne u t with rfl | hne
  · rw [Threads.place_go_self, Function.update_self]
  · rw [Threads.place_go_of_ne hne, Function.update_of_ne hne]

/-- A step that takes no block and gives none back. -/
theorem go (h : Kept s L) (hbuffer : p.buffer = (s.place t).buffer) :
    Kept (s.go t p s.shared) L where
  accounts := by
    rw [buffers_go, hbuffer, Function.update_eq_self]
    exact h.accounts
  holding := h.holding

/-- A load takes its buffer. -/
theorem go_allocated (h : Kept s L) (ht : (s.place t).buffer = none) (hbuffer : p.buffer = block)
    (hgrants : block ∉ s.shared.held ∧ s.shared.held.length < kMaxBlocks) :
    Kept (s.go t p (s.shared.allocated block)) L where
  accounts := by
    rw [buffers_go, hbuffer]
    exact h.accounts.claim ht hgrants.1 hgrants.2
  holding := h.holding.congr

/-- A load that ends gives it back. -/
theorem go_released (h : Kept s L) (ht : (s.place t).buffer = some block)
    (hbuffer : p.buffer = none) : Kept (s.go t p (s.shared.released block)) L where
  accounts := by
    rw [buffers_go, hbuffer]
    exact h.accounts.release ht
  holding := h.holding.congr

/-- The end of a load by path that has read its file. -/
theorem loadFile (h : Kept s L) (ht : s.place t = .closing path file file.length)
    (hlaw : Grants s.shared.held image.size block)
    (hcare : Modload.Careful s.shared (s.place t) (.closed image block))
    (hfile : s.shared.loadFile path file image block = some (saw, x)) :
    ∃ L', Steps Ledger.Step L [saw] L' ∧ Kept (s.go t .idle x) L' := by
  have hbuffer : (s.place t).buffer = some file.block := by rw [ht, Phase.buffer]
  rw [ht] at hcare
  obtain ⟨hsize, hcan⟩ := hcare (decide_eq_true rfl)
  obtain ⟨name, -, hfile⟩ := Option.bind_eq_some_iff.mp hfile
  rcases loadImage_cases s.shared image block name with ⟨error, herror, hload⟩ |
    ⟨haccepted, record, hload⟩
  · rw [hload] at hfile
    obtain ⟨rfl, rfl⟩ := Prod.mk.inj (Option.some.inj hfile)
    exact fails herror (h.go_released hbuffer rfl)
  · rw [hload] at hfile
    obtain ⟨rfl, rfl⟩ := Prod.mk.inj (Option.some.inj hfile)
    have hgrants := hlaw (UInt32.le_iff_toNat_le.mp (hsize haccepted.1)) haccepted.2.1
    obtain ⟨m, L', hseen, hstep, haccounts, hholding⟩ := h.load (some path.bytes) hgrants
      (hcan haccepted) record
    -- the file's buffer goes back before the module is held
    rw [← hseen] at hstep
    refine ⟨L', .cons hstep (.nil L'), ?_, hholding.congr⟩
    rw [buffers_go]
    exact haccounts.release hbuffer

/-- A load from memory is a step of the ledger. -/
theorem loadModuleBuffer (h : Kept s L) (ht : s.place t = .idle) (buffer : ℕ)
    (hlaw : Grants s.shared.held image.size block)
    (hcare : Modload.Careful s.shared (s.place t) (.loadModuleBuffer buffer image block)) :
    ∃ L', Steps Ledger.Step L [(s.shared.loadModuleBuffer buffer image block).1] L' ∧
      Kept (s.go t .idle (s.shared.loadModuleBuffer buffer image block).2) L' := by
  have hkept : Kept (s.go t .idle s.shared) L := h.go (by rw [ht])
  rw [ht] at hcare
  unfold Shared.loadModuleBuffer
  split
  next => exact fails (by decide) hkept
  next offset _ =>
    by_cases hcan : canHold s.shared.loaded
    · rw [if_pos hcan]
      rcases loadImage_cases s.shared image block (buffer + offset + kIopmodName) with
        ⟨error, herror, hload⟩ | ⟨haccepted, record, hload⟩
      · rw [hload]
        exact fails herror hkept
      · rw [hload]
        have hgrants := hlaw (UInt32.le_iff_toNat_le.mp (hcare haccepted.1)) haccepted.2.1
        obtain ⟨m, L', hseen, hstep, haccounts, hholding⟩ := h.load none hgrants hcan record
        rw [← hseen] at hstep
        refine ⟨L', .cons hstep (.nil L'), ?_, hholding⟩
        have hnone : (s.place t).buffer = Phase.idle.buffer := by rw [ht]
        rw [buffers_go, ← hnone, Function.update_eq_self]
        exact haccounts
    · rw [if_neg hcan]
      exact fails (by decide) hkept

/-- The name asked for is where the arguments are made from. -/
theorem shows_nameOf {s : Shared} {r : UInt32} {name : Option Named} {spelling : List UInt8}
    (hlaw : ∀ n ∈ name, Shows s.memory n) (hspelled : Spelled s r name)
    (hpath : (name.map Named.bytes).or (s.origin r) = some spelling) :
    (base spelling).length < kArgBytesMax ∧
      ∃ at_, s.nameOf r name = some at_ ∧ Shows s.memory ⟨at_, base spelling⟩ := by
  obtain ⟨hlength, hshows⟩ := hspelled spelling hpath
  refine ⟨hlength, ?_⟩
  cases name with
  | none => exact ⟨_, rfl, hshows rfl⟩
  | some n =>
    obtain rfl := Option.some.inj hpath
    exact shows_base (hlaw n rfl)

/-- A start is a step of the ledger. -/
theorem startModule (h : Kept s L) (ht : s.place t = .idle) {id : ℤ} {name : Option Named}
    {arglen args : ℕ} {frame : Frame} (hlaw : ∀ n ∈ name, Shows s.shared.memory n)
    (hcare : Modload.Careful s.shared (s.place t) (.startModule id name arglen args frame))
    (hstart : s.shared.startModule id name arglen args frame = some (saw, x)) :
    ∃ L', Steps Ledger.Step L [saw] L' ∧ Kept (s.go t .idle x) L' := by
  have hbuffer : Phase.idle.buffer = (s.place t).buffer := by rw [ht]
  rw [ht] at hcare
  unfold Shared.startModule at hstart
  split at hstart
  next htake =>
    obtain ⟨rfl, rfl⟩ := Prod.mk.inj (Option.some.inj hstart)
    exact ⟨L, .cons (.refused (h.holding.none_of_refused htake)) (.nil L), h.go hbuffer⟩
  next r rest htake =>
    obtain ⟨at_, hat, hstart⟩ := Option.bind_eq_some_iff.mp hstart
    obtain ⟨arguments, hbuild, hstart⟩ := Option.bind_eq_some_iff.mp hstart
    obtain ⟨rfl, rfl⟩ := Prod.mk.inj (Option.some.inj hstart)
    obtain ⟨hid, hperm⟩ := takeLoaded_some htake
    obtain ⟨hmem, hholding⟩ := h.holding.take htake
    have hspelled := hcare r (hperm.symm.subset List.mem_cons_self) hid
    refine ⟨{ L with unstarted := L.unstarted.erase (s.shared.loadedAt r) },
      .cons (.started hmem fun spelling hpath => ?_) (.nil _), ?_, hholding⟩
    · obtain ⟨hlength, at', hat', hshows⟩ := shows_nameOf hlaw hspelled hpath
      obtain rfl := Option.some.inj (hat.symm.trans hat')
      obtain ⟨arguments', hbuild', hfirst⟩ := arguments_of_shows hshows hlength arglen
        (s.shared.argumentBytes arglen args) frame
      obtain rfl := Option.some.inj (hbuild.symm.trans hbuild')
      exact hfirst
    · rw [buffers_go, hbuffer, Function.update_eq_self (f := fun u => (s.place u).buffer)]
      exact h.accounts

/-- **One step**: what is seen of it is what the ledger may show. -/
theorem act (h : Kept s L) (hlaw : Modload.Lawful s.shared a)
    (hcare : Modload.Careful s.shared (s.place t) a)
    (hnext : next s.shared (s.place t) a = some (seen, x, p)) :
    ∃ L', Steps Ledger.Step L seen L' ∧ Kept (s.go t p x) L' := by
  have hsilent : ∀ {s' : Machine ι}, Kept s' L → ∃ L', Steps Ledger.Step L [] L' ∧ Kept s' L' :=
    fun h' => ⟨L, .nil L, h'⟩
  generalize ht : s.place t = q at hnext
  unfold Modload.next at hnext
  split at hnext
  next path =>
    -- `LoadModule`
    split at hnext
    next =>
      split at hnext
      next hboot => exact absurd rfl hboot
      next =>
        cases hnext
        exact hsilent (h.go (by rw [ht]; rfl))
    next =>
      cases hnext
      exact fails (by decide) (h.go (by rw [ht]))
  next path fd =>
    split at hnext
    next =>
      cases hnext
      exact fails (by decide) (h.go (by rw [ht]; rfl))
    next =>
      cases hnext
      exact hsilent (h.go (by rw [ht]; rfl))
  next path fd length block =>
    split at hnext
    next =>
      cases hnext
      exact hsilent (h.go (by rw [ht]; rfl))
    next hlength =>
      split at hnext
      next =>
        cases hnext
        exact hsilent (h.go (by rw [ht]; rfl))
      next hblock =>
        cases hnext
        obtain ⟨hmax, hgrants⟩ := hlaw
        have hsize : (UInt32.ofNat length.toNat).toNat ≤ 0xFFFFFF00 := by
          rw [UInt32.toNat_ofNat_of_lt' (show length.toNat < 2 ^ 32 by omega)]
          omega
        exact hsilent (h.go_allocated (by rw [ht]; rfl) rfl (hgrants hsize hblock))
  next =>
    cases hnext
    exact hsilent (h.go (by rw [ht]; rfl))
  next =>
    cases hnext
    exact hsilent (h.go (by rw [ht]; rfl))
  next path file got image block =>
    split at hnext
    next =>
      cases hnext
      exact fails (by decide) (h.go_released (by rw [ht]; rfl) rfl)
    next hgot =>
      obtain rfl := not_not.mp hgot
      obtain ⟨⟨saw, x'⟩, hfile, heq⟩ := Option.map_eq_some_iff.mp hnext
      cases heq
      exact h.loadFile ht hlaw hcare hfile
  next fd error hnegative image block =>
    cases hnext
    exact fails hnegative (h.go (by rw [ht]; rfl))
  next buffer image block =>
    cases hnext
    exact h.loadModuleBuffer ht buffer hlaw hcare
  next id name arglen args frame =>
    obtain ⟨⟨saw, x'⟩, hstart, heq⟩ := Option.map_eq_some_iff.mp hnext
    cases heq
    exact h.startModule ht hlaw hcare hstart
  next => cases hnext

end Machine.Kept

/-! ### Runs -/

namespace Machine

variable {ι : Type}

variable [DecidableEq ι]

/-- Each careful step is one of the ledger's runs, which the threads keep. -/
theorem Kept.step {s s' : Machine ι} {L : Ledger} {l : Label ι × List Seen} (h : Kept s L)
    (hs : CarefulStep s l s') : ∃ L', Steps Ledger.Step L l.2 L' ∧ Kept s' L' := by
  obtain ⟨label, seen⟩ := l
  obtain ⟨hcare, hlaw, hstep⟩ := hs
  cases label with
  | act t a =>
    obtain ⟨⟨saw, x, p⟩, hnext, heq⟩ := Option.map_eq_some_iff.mp hstep
    cases heq
    exact h.act hlaw hcare hnext
  | memory m =>
    cases hstep
    exact ⟨L, .nil L, h.accounts, h.holding.congr⟩

/-- A module that waits is entered by whoever starts it next. -/
theorem Kept.accepts {s : Machine ι} {L : Ledger} (h : Kept s L) {m : Loaded}
    (hm : m ∈ L.unstarted) {t : ι} (ht : s.place t = .idle) {name : Option Named}
    (hname : ∀ n ∈ name, Shows s.shared.memory n) (arglen args : ℕ) (frame : Frame) :
    ∃ arguments s', s.step (.act t (.startModule m.id.toNat name arglen args frame)) =
      some ([.started m (name.map Named.bytes) arguments], s') := by
  obtain ⟨rest, htake⟩ := h.holding.take_of_waiting hm
  obtain ⟨at_, hat⟩ : ∃ at_, s.shared.nameOf m.record name = some at_ := by
    cases name with
    | none => exact ⟨_, rfl⟩
    | some n => exact (shows_base (hname n rfl)).imp fun _ hbase => hbase.1
  obtain ⟨arguments, hbuild⟩ := exists_buildArguments (fun k => s.shared.memory (at_ + k)) arglen
    (s.shared.argumentBytes arglen args) frame.copy_length frame.argv_length
  have hstart : s.shared.startModule m.id.toNat name arglen args frame =
      some (.started m (name.map Named.bytes) arguments, { s.shared with loaded := rest }) := by
    rw [Shared.startModule, htake]
    dsimp only
    rw [hat, Option.bind_eq_bind, Option.bind_some, hbuild, Option.bind_eq_bind, Option.bind_some,
      (h.holding.known m hm).2]
  refine ⟨arguments, s.go t .idle { s.shared with loaded := rest }, ?_⟩
  rw [Machine.step, ht, next, hstart]
  rfl

instance (memory : Ram) (n : Named) : Decidable (Shows memory n) :=
  decidable_of_iff (readBytes memory n.address (n.bytes ++ [0]).length = n.bytes ++ [0] ∧
      0 ∉ n.bytes ∧ n.bytes.length < 2 ^ 32) <|
    and_congr_left fun _ => ⟨fun h => h ▸ at_readBytes memory n.address _, readBytes_of_at⟩

instance (held : List UInt32) (size block : UInt32) : Decidable (Grants held size block) :=
  inferInstanceAs (Decidable (_ → _ → _ ∧ _))

instance (s : Machine ι) : DecidablePred s.Lawful
  | .act _ (.loadModule _) => inferInstanceAs (Decidable (Shows _ _))
  | .act _ (.startModule _ _ _ _ _) => inferInstanceAs (Decidable (∀ n ∈ _, Shows _ n))
  | .act _ (.sized _ _) => inferInstanceAs (Decidable (_ ∧ Grants _ _ _))
  | .act _ (.loadModuleBuffer _ _ _) => inferInstanceAs (Decidable (Grants _ _ _))
  | .act _ (.closed _ _) => inferInstanceAs (Decidable (Grants _ _ _))
  | .act _ (.opened _) => isTrue trivial
  | .act _ .rewound => isTrue trivial
  | .act _ (.got _) => isTrue trivial
  | .memory _ => isTrue trivial

instance (image : Image) : Decidable image.Probed := inferInstanceAs (Decidable (_ ∧ _ ∧ _))

instance (image : Image) (block : UInt32) : Decidable (image.Accepted block) :=
  inferInstanceAs (Decidable (_ ∧ _ ∧ _ ∧ _))

instance (s : Shared) (r : UInt32) (name : Option Named) : Decidable (Spelled s r name) :=
  inferInstanceAs (Decidable (∀ path ∈ _, _ ∧ (_ → _)))

instance (s : Machine ι) : DecidablePred s.Careful
  | .act _ (.closed _ _) => inferInstanceAs (Decidable (_ → (_ → _) ∧ (_ → _)))
  | .act _ (.loadModuleBuffer _ _ _) => inferInstanceAs (Decidable (_ → _))
  | .act _ (.startModule _ _ _ _ _) => List.decidableBAll _ _
  | .act _ (.loadModule _) => isTrue trivial
  | .act _ (.sized _ _) => isTrue trivial
  | .act _ (.opened _) => isTrue trivial
  | .act _ .rewound => isTrue trivial
  | .act _ (.got _) => isTrue trivial
  | .memory _ => isTrue trivial

/-- A step of the relation, computed. -/
def lawfulStep (s : Machine ι) (label : Label ι) :
    Option ((Label ι × List Seen) × Machine ι) :=
  if s.Lawful label then (s.step label).map fun r => ((label, r.1), r.2) else none

/-- What `lawfulStep` computes is a step. -/
theorem step_of_lawfulStep {s s' : Machine ι} {label : Label ι} {l : Label ι × List Seen}
    (h : s.lawfulStep label = some (l, s')) : s.Step l s' := by
  rw [lawfulStep, Option.ite_none_right_eq_some] at h
  obtain ⟨hlaw, h⟩ := h
  obtain ⟨⟨seen, s''⟩, hstep, heq⟩ := Option.map_eq_some_iff.mp h
  cases heq
  exact ⟨hlaw, hstep⟩

/-- A careful step, computed. -/
def carefulStep (s : Machine ι) (label : Label ι) : Option ((Label ι × List Seen) × Machine ι) :=
  if s.Careful label then s.lawfulStep label else none

/-- What `carefulStep` computes is a careful step. -/
theorem carefulStep_of_carefulStep {s s' : Machine ι} {label : Label ι}
    {l : Label ι × List Seen} (h : s.carefulStep label = some (l, s')) : s.CarefulStep l s' := by
  rw [carefulStep, Option.ite_none_right_eq_some] at h
  obtain ⟨hcare, h⟩ := h
  have hlabel : l.1 = label := by
    rw [lawfulStep, Option.ite_none_right_eq_some] at h
    obtain ⟨⟨seen, s''⟩, hstep, heq⟩ := Option.map_eq_some_iff.mp h.2
    cases heq
    rfl
  exact ⟨hlabel ▸ hcare, step_of_lawfulStep h⟩

/-- An image of 0x100 bytes. -/
def plainImage : Image where
  iopmod_offset := some 0x40
  probe := (0, ⟨4, 0, 0, 0x100, 0x80, 0, 0x80, 0⟩)
  load info := (0, { info with entry := info.base, gp := info.base })
  link _ := 0

/-- MODLOAD behind a boot list of 18 modules. -/
def booted (ι : Type) : Machine ι :=
  start 18 (fun a => if a = 0x1000 then 0x6D else 0) fun _ => ⟨0, 0, 0, 0, 0, 0, 0, 0, 0, 0, 0⟩

end Machine

end PS2Bios.Modload
