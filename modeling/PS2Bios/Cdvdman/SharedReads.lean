import PS2Bios.Cdvdman.Files
import PS2Bios.Library.Run

/-!
# Reads of a file that threads share

A read takes its length from the position before it has the semaphore, and moves the position when
it has given it back. So a store to the position may come while another read of the handle is
between the two, and `Careful` says which such stores are harmless: that read has not looked for
its first sector, and its length still fits behind the new position; or it has read nothing and
only gives the semaphore back.

In a run without any other (`reads_exact`), every position stays within its file, and every read
delivers the bytes of the range it moves the position over; a thread that is alone is always
careful (`careful_of_alone`), and so are threads with a descriptor each. The invariant gives each
place its assertion (`Place.Sound`): what has been stored are the file's bytes from the handle's
position on, and what remains fits; inside the loop the cache is the thread's own. Two threads that
both take their length before either has read break it (`overrun`).
-/

namespace PS2Bios.Cdvdman

open Threads

variable {ι : Type} {disc : Disc} {handle : Handle} {x x' : Files} {p : Place} {r : Transfer}
  {k j : Fin kHandles} {v n : ℕ} {a : FileAnswer}

/-- The bytes of a file from a position on, each at its offset from there. -/
def Handle.bytes (disc : Disc) (handle : Handle) (position n : ℕ) : List (ℕ × UInt8) :=
  (List.range n).map fun i => (i, handle.byte disc (position + i))

/-- A read delivered the bytes of the range it moved the position over, and its result is how
many. -/
def FileAnswer.Exact (disc : Disc) (x : Files) : FileAnswer → Prop
  | .read k before after result stored => ∃ n : ℕ, result = n ∧ after = before + n ∧
      stored = (x.handles k).bytes disc before n
  | .refused _ | .sought _ _ => True

/-- What reads and seeks are to keep. -/
structure Exact (disc : Disc) (x : Files) : Prop where
  position_le : ∀ k, (x.handles k).inUse → (x.handles k).position ≤ (x.handles k).size
  answers : ∀ a ∈ x.answers, a.Exact disc x

/-! ### Careful runs -/

/-- The store to a position that a thread is before. -/
def Place.stores : Place → Option (Fin kHandles × ℕ)
  | .store r position => some (r.k, position)
  | .seek k position => some (k, toWord position)
  | _ => none

/-- A thread does not mind that a position becomes another. -/
def Place.Admits (k : Fin kHandles) (position size : ℕ) : Place → Prop
  | .idle | .seek _ _ => True
  | .wait r | .loop r => r.k = k → r.done = 0 ∧ position + r.length ≤ size
  | .drive r _ _ | .copy r _ _ _ | .store r _ => r.k ≠ k
  | .signal r | .load r => r.k = k → r.done = 0

/-- No other thread minds the next step of a thread. -/
def Careful (s : Threads ι Place Files) (i : ι × Act) : Prop :=
  ∀ k position, (s.place i.1).stores = some (k, position) →
    position ≠ (s.shared.handles k).position →
    ∀ t ≠ i.1, (s.place t).Admits k position (s.shared.handles k).size

/-- Nobody is in a call, and the cache is of the disc. -/
structure Started (disc : Disc) (s : Threads ι Place Files) : Prop where
  place : ∀ t, s.place t = .idle
  sema : s.shared.sema_driver.count = 1 ∧ s.shared.sema_driver.max = 1
  cache : s.shared.cache.valid → ∀ i < kSectorSize,
    s.shared.cache.data i = disc s.shared.cache.lba i
  position_le : ∀ k, (s.shared.handles k).inUse →
    (s.shared.handles k).position ≤ (s.shared.handles k).size
  size_lt : ∀ k, (s.shared.handles k).size < 2 ^ 32
  answers : s.shared.answers = []

/-! ### What goes with each place -/

/-- A read of a handle can be done where the position is. -/
structure Fits (handle : Handle) (r : Transfer) : Prop where
  inUse : handle.inUse
  done_le : r.done ≤ r.length
  length_lt : r.length < 2 ^ 31
  fits : handle.position + r.length ≤ handle.size

/-- What a read has stored are the bytes from the position on. -/
def Copied (disc : Disc) (handle : Handle) (r : Transfer) (n : ℕ) : Prop :=
  r.stored = handle.bytes disc handle.position n

/-- The loop of a read is over. -/
structure Over (disc : Disc) (handle : Handle) (r : Transfer) : Prop where
  inUse : handle.inUse
  done_lt : r.done < 2 ^ 31
  fits : handle.position + r.done ≤ handle.size
  copied : Copied disc handle r r.done

/-- The sector a read wants next, and where in it. -/
structure Wants (handle : Handle) (r : Transfer) (sector offset : ℕ) : Prop where
  sector : sector = add32 handle.lba ((handle.position + r.done) / kSectorSize)
  offset : offset = (handle.position + r.done) % kSectorSize

/-- The bytes of a sector are copied. -/
structure Copies (handle : Handle) (r : Transfer) (sector offset chunk i : ℕ) : Prop where
  wants : Wants handle r sector offset
  le : i ≤ chunk
  inside : offset + chunk ≤ kSectorSize
  rest : r.done + chunk ≤ r.length

/-- The cache has the bytes of a sector. -/
def SectorCache.Has (disc : Disc) (cache : SectorCache) (sector : ℕ) : Prop :=
  ∀ i < kSectorSize, cache.data i = disc sector i

/-- What a thread has done of its call agrees with the disc, wherever in the call it is. -/
def Place.Sound (disc : Disc) (x : Files) : Place → Prop
  | .idle => True
  | .wait r | .loop r => Fits (x.handles r.k) r ∧ Copied disc (x.handles r.k) r r.done
  | .drive r sector offset => Fits (x.handles r.k) r ∧ Copied disc (x.handles r.k) r r.done ∧
      r.done < r.length ∧ Wants (x.handles r.k) r sector offset ∧ x.cache.valid = false
  | .copy r offset chunk i => Fits (x.handles r.k) r ∧
      Copied disc (x.handles r.k) r (r.done + i) ∧
      ∃ sector, Copies (x.handles r.k) r sector offset chunk i ∧ x.cache.Has disc sector
  | .signal r | .load r => Over disc (x.handles r.k) r
  | .store r position => Over disc (x.handles r.k) r ∧
      position = (x.handles r.k).position + r.done
  | .seek k position => toWord position ≤ (x.handles k).size

/-- Between the wait for the semaphore and its signal. -/
def Place.Inside : Place → Prop
  | .loop _ | .drive _ _ _ | .copy _ _ _ _ | .signal _ => True
  | _ => False

/-- The shared state, with the semaphore held by `owner`. -/
structure Kept (disc : Disc) (owner : Option ι) (x : Files) : Prop where
  exact : Exact disc x
  size_lt : ∀ k, (x.handles k).size < 2 ^ 32
  sema : x.sema_driver.max = 1 ∧ (x.sema_driver.count = 0 ↔ owner.isSome)
  cache : x.cache.valid → x.cache.Has disc x.cache.lba

/-- A thread's own assertion. -/
structure Own (disc : Disc) (owner : Option ι) (t : ι) (p : Place) (x : Files) : Prop where
  inside : p.Inside ↔ owner = some t
  sound : p.Sound disc x

/-- Before the first call the semaphore is free and everything under it is in order. -/
theorem Started.holds {s : Threads ι Place Files} (h : Started disc s) :
    Holds (Kept disc (none : Option ι)) (Own disc none) s := by
  refine ⟨⟨⟨h.position_le, ?_⟩, h.size_lt, ⟨h.sema.2, ?_⟩, h.cache⟩, fun t => ?_⟩
  · rw [h.answers]
    nofun
  · rw [h.sema.1]
    simp
  · rw [h.place t]
    exact ⟨by simp [Place.Inside], trivial⟩

/-! ### A position is moved -/

@[simp] theorem cache_moved : (x.moved k v).cache = x.cache := rfl

@[simp] theorem sema_moved : (x.moved k v).sema_driver = x.sema_driver := rfl

@[simp] theorem answers_moved : (x.moved k v).answers = x.answers := rfl

theorem handles_moved_self : (x.moved k v).handles k = { x.handles k with position := v } :=
  Function.update_self k _ x.handles

theorem handles_moved_of_ne (h : j ≠ k) : (x.moved k v).handles j = x.handles j :=
  Function.update_of_ne h _ x.handles

/-- Everything about a handle but its position. -/
theorem handles_moved (j : Fin kHandles) : ((x.moved k v).handles j).inUse = (x.handles j).inUse ∧
    ((x.moved k v).handles j).lba = (x.handles j).lba ∧
    ((x.moved k v).handles j).size = (x.handles j).size := by
  rcases eq_or_ne j k with rfl | hne
  · rw [handles_moved_self]
    exact ⟨rfl, rfl, rfl⟩
  · rw [handles_moved_of_ne hne]
    exact ⟨rfl, rfl, rfl⟩

theorem bytes_congr {handle' : Handle} (h : handle'.lba = handle.lba) :
    handle'.bytes disc v n = handle.bytes disc v n := by
  simp only [Handle.bytes, Handle.byte, h]

/-- Whether an answer is exact depends on where the files lie and on nothing else. -/
theorem FileAnswer.Exact.congr (h : a.Exact disc x)
    (hlba : ∀ k, (x'.handles k).lba = (x.handles k).lba) : a.Exact disc x' := by
  cases a with
  | refused error => trivial
  | sought k position => trivial
  | read k before after result stored =>
    obtain ⟨n, hresult, hafter, hstored⟩ := h
    exact ⟨n, hresult, hafter, hstored.trans (bytes_congr (hlba k)).symm⟩

/-- Nothing has been stored, and the position is another. -/
theorem Copied.moved (h : Copied disc handle r r.done) (hzero : r.done = 0) :
    Copied disc { handle with position := v } r r.done := by
  rw [Copied, hzero] at h ⊢
  exact h

/-- Where another thread is, nothing changes by a move it admits. -/
theorem Place.Sound.moved (h : p.Sound disc x) (hadmits : p.Admits k v (x.handles k).size)
    (hv : v ≤ (x.handles k).size) : p.Sound disc (x.moved k v) := by
  have hother : ∀ r : Transfer, r.k ≠ k → (x.moved k v).handles r.k = x.handles r.k :=
    fun r hne => handles_moved_of_ne hne
  have hbegun : ∀ r : Transfer,
      Fits (x.handles r.k) r ∧ Copied disc (x.handles r.k) r r.done →
      (r.k = k → r.done = 0 ∧ v + r.length ≤ (x.handles k).size) →
      Fits ((x.moved k v).handles r.k) r ∧ Copied disc ((x.moved k v).handles r.k) r r.done := by
    rintro r ⟨hfits, hcopied⟩ hr
    rcases eq_or_ne r.k k with rfl | hne
    · obtain ⟨hzero, hle⟩ := hr rfl
      rw [handles_moved_self]
      exact ⟨⟨hfits.inUse, hfits.done_le, hfits.length_lt, hle⟩, hcopied.moved hzero⟩
    · rw [hother r hne]
      exact ⟨hfits, hcopied⟩
  have hover : ∀ r : Transfer, Over disc (x.handles r.k) r → (r.k = k → r.done = 0) →
      Over disc ((x.moved k v).handles r.k) r := by
    intro r hr hzero
    rcases eq_or_ne r.k k with rfl | hne
    · rw [handles_moved_self]
      exact ⟨hr.inUse, hr.done_lt, by rw [hzero rfl]; exact hv, hr.copied.moved (hzero rfl)⟩
    · rwa [hother r hne]
  cases p with
  | idle => trivial
  | wait r => exact hbegun r h hadmits
  | loop r => exact hbegun r h hadmits
  | drive r sector offset | copy r offset chunk i | store r position =>
    rw [Place.Sound, hother r hadmits]
    exact h
  | signal r => exact hover r h hadmits
  | load r => exact hover r h hadmits
  | seek k' position =>
    rw [Place.Sound, (handles_moved k').2.2]
    exact h

/-- Nothing about a place changes with what is not its own. -/
theorem Place.Sound.congr (h : p.Sound disc x) (hhandles : x'.handles = x.handles)
    (hcache : x'.cache = x.cache ∨ ¬p.Inside) : p.Sound disc x' := by
  rcases hcache with hcache | hnot
  · cases p with
    | idle => trivial
    | _ => simpa only [Place.Sound, hhandles, hcache] using h
  · cases p with
    | idle => trivial
    | loop r | drive r sector offset | copy r offset chunk i | signal r => exact absurd trivial hnot
    | _ => simpa only [Place.Sound, hhandles] using h

/-! ### One step -/

/-- A size that is not negative is less than half the range of a word. -/
theorem toWord_toInt_lt {size : Int32} (h : ¬size < 0) : toWord size.toInt < 2 ^ 31 := by
  rw [Int32.lt_iff_toInt_lt] at h
  have hlt := size.toInt_lt
  have hzero : (0 : Int32).toInt = 0 := rfl
  rw [toWord]
  omega

/-- The length of a read that begins. -/
theorem readLength_le (size : Int32) (hposition : handle.position ≤ handle.size)
    (hsize : handle.size < 2 ^ 32) : readLength handle size < 2 ^ 31 ∧
      handle.position + readLength handle size ≤ handle.size := by
  have hlength : (if size < 0 then 0 else toWord size.toInt) < 2 ^ 31 := by
    split
    next => decide
    next h => exact toWord_toInt_lt h
  rw [readLength, sub32_eq hposition hsize]
  generalize (if size < 0 then 0 else toWord size.toInt) = length at hlength
  split <;> omega

/-- A seek ends within the file. -/
theorem toWord_seekPosition_le {base : ℤ} {offset : Int32} (hsize : handle.size < 2 ^ 32) :
    toWord (seekPosition handle base offset) ≤ handle.size := by
  rw [seekPosition, toWord, int32, int32, Nat.mod_eq_of_lt hsize]
  split <;> split <;> split <;> omega

theorem chunkOf_le {offset : ℕ} (hlt : r.done < r.length) (hlength : r.length < 2 ^ 31)
    (hoffset : offset < kSectorSize) :
    offset + chunkOf r offset ≤ kSectorSize ∧ r.done + chunkOf r offset ≤ r.length := by
  rw [chunkOf, sub32_eq hlt.le (by omega)]
  split <;> omega

section Step

variable [DecidableEq ι] {s : Threads ι Place Files} {owner : Option ι} {t : ι}

/-- A step that leaves the handles and the semaphore, and the cache unless it is the thread's. -/
theorem stays (h : Holds (Kept disc owner) (Own disc owner) s)
    (hhandles : x.handles = s.shared.handles) (hsema : x.sema_driver = s.shared.sema_driver)
    (hanswers : ∀ a ∈ x.answers, a.Exact disc x)
    (hcache : x.cache.valid → x.cache.Has disc x.cache.lba)
    (hsame : x.cache = s.shared.cache ∨ (s.place t).Inside)
    (hinside : p.Inside ↔ (s.place t).Inside) (hsound : p.Sound disc x) :
    Holds (Kept disc owner) (Own disc owner) (s.go t p x) := by
  refine h.go ⟨⟨?_, hanswers⟩, ?_, ?_, hcache⟩ ⟨hinside.trans (h.own t).inside, hsound⟩ ?_
  · rw [hhandles]
    exact h.shared.exact.position_le
  · rw [hhandles]
    exact h.shared.size_lt
  · rw [hsema]
    exact h.shared.sema
  · intro u hu hown
    refine ⟨hown.inside, hown.sound.congr hhandles (hsame.imp id fun hin hin' => hu ?_)⟩
    exact Option.some.inj ((hown.inside.mp hin').symm.trans ((h.own t).inside.mp hin))

/-- Only an open handle is found. -/
theorem inUse_of_handleOf {privdata : ℕ} (h : handleOf privdata x = some k) :
    (x.handles k).inUse := by
  rw [handleOf] at h
  split at h
  · split at h
    next hin => exact Option.some.inj h ▸ hin
    next => cases h
  · cases h

/-- An exact answer leaves all the answers exact. -/
theorem exact_answered (hx : ∀ a ∈ x.answers, a.Exact disc x) (ha : a.Exact disc x) :
    ∀ a' ∈ (x.answered a).answers, a'.Exact disc (x.answered a) := by
  intro a' hmem
  rw [Files.answered, List.mem_append, List.mem_singleton] at hmem
  rcases hmem with hmem | rfl
  · exact (hx a' hmem).congr fun _ => rfl
  · exact ha.congr fun _ => rfl

/-- A call begins: it is refused, or its length or its position is within the file. -/
theorem beginCall_keeps (h : Holds (Kept disc owner) (Own disc owner) s)
    (hplace : s.place t = .idle) (c : FileCall) : Holds (Kept disc owner) (Own disc owner)
      (s.go t (beginCall s.shared c).2 (beginCall s.shared c).1) := by
  have hanswers := h.shared.exact.answers
  have hcache := h.shared.cache
  have hout : ¬(s.place t).Inside := by
    rw [hplace]
    exact not_false
  have hrefused : ∀ error : ℤ, Holds (Kept disc owner) (Own disc owner)
      (s.go t .idle (s.shared.answered (.refused error))) := fun error =>
    stays h rfl rfl (exact_answered hanswers trivial) hcache (.inl rfl)
      (iff_of_false not_false hout) trivial
  cases c with
  | read privdata size =>
    rw [beginCall]
    split
    next => exact hrefused kErrorBadHandle
    next k hk =>
      have hin := inUse_of_handleOf hk
      obtain ⟨hlt, hle⟩ := readLength_le size (h.shared.exact.position_le k hin)
        (h.shared.size_lt k)
      exact stays h rfl rfl hanswers hcache (.inl rfl) (iff_of_false not_false hout)
        ⟨⟨hin, Nat.zero_le _, hlt, hle⟩, rfl⟩
  | lseek privdata offset whence =>
    rw [beginCall]
    split
    next => exact hrefused kErrorBadHandle
    next k hk =>
      split
      next => exact hrefused kErrorBadWhence
      next base hbase =>
        exact stays h rfl rfl hanswers hcache (.inl rfl) (iff_of_false not_false hout)
          (toWord_seekPosition_le (h.shared.size_lt k))

/-- The semaphore is taken when nobody is inside. -/
theorem wait_keeps {sema : Sema} (h : Holds (Kept disc owner) (Own disc owner) s)
    (hplace : s.place t = .wait r) (hpoll : s.shared.sema_driver.poll = some sema) :
    Holds (Kept disc (some t)) (Own disc (some t))
      (s.go t (.loop r) { s.shared with sema_driver := sema }) := by
  obtain ⟨hexact, hsize, ⟨hmax, hcount⟩, hcache⟩ := h.shared
  have hsound := (h.own t).sound
  rw [hplace] at hsound
  rw [Sema.poll] at hpoll
  split at hpoll
  next hpos =>
    obtain rfl := Option.some.inj hpoll
    have hnone : owner = none := by
      rw [← Option.not_isSome_iff_eq_none, ← hcount]
      omega
    subst hnone
    have hle := s.shared.sema_driver.count_le
    refine h.go ⟨⟨hexact.position_le, fun a ha => ?_⟩, hsize, ⟨hmax, ?_⟩, hcache⟩
      ⟨by simp [Place.Inside], hsound⟩ fun u hu hown => ⟨?_, hown.sound.congr rfl (.inl rfl)⟩
    · exact (hexact.answers a ha).congr fun _ => rfl
    · simp only [Option.isSome_some, iff_true]
      omega
    · rw [hown.inside]
      simp [hu.symm]
  next => cases hpoll

/-- The semaphore is given back by the one that holds it. -/
theorem signal_keeps (h : Holds (Kept disc owner) (Own disc owner) s)
    (hplace : s.place t = .signal r) : Holds (Kept disc (none : Option ι)) (Own disc none)
      (s.go t (.load r) { s.shared with sema_driver := s.shared.sema_driver.signal }) := by
  obtain ⟨hexact, hsize, ⟨hmax, hcount⟩, hcache⟩ := h.shared
  have hown := h.own t
  rw [hplace] at hown
  obtain rfl : owner = some t := hown.inside.mp trivial
  have hzero : s.shared.sema_driver.count = 0 := hcount.mpr rfl
  have hlt : s.shared.sema_driver.count < s.shared.sema_driver.max := by omega
  refine h.go ⟨⟨hexact.position_le, fun a ha => ?_⟩, hsize, ?_, hcache⟩
    ⟨by simp [Place.Inside], hown.sound⟩ fun u hu hother => ⟨?_, hother.sound.congr rfl (.inl rfl)⟩
  · exact (hexact.answers a ha).congr fun _ => rfl
  · rw [Sema.signal, dif_pos hlt]
    exact ⟨hmax, by simp⟩
  · rw [hother.inside]
    simp [hu.symm]

/-- The head of the loop: the sector is in the cache, or it is asked for, or all is read. -/
theorem loopHead_keeps (h : Holds (Kept disc owner) (Own disc owner) s)
    (hplace : s.place t = .loop r) : Holds (Kept disc owner) (Own disc owner)
      (s.go t (loopHead s.shared r).2 (loopHead s.shared r).1) := by
  have hanswers := h.shared.exact.answers
  have hcache := h.shared.cache
  have hsize := h.shared.size_lt r.k
  have hin : (s.place t).Inside := by
    rw [hplace]
    trivial
  have hsound := (h.own t).sound
  rw [hplace] at hsound
  obtain ⟨hfits, hcopied⟩ := hsound
  have hle := hfits.fits
  rw [loopHead]
  split
  next hlt =>
    have hadd : add32 (s.shared.handles r.k).position r.done =
        (s.shared.handles r.k).position + r.done := add32_eq (by omega)
    have hoffset := Nat.mod_lt ((s.shared.handles r.k).position + r.done)
      (show 0 < kSectorSize by decide)
    dsimp only
    rw [hadd]
    split
    next hhit =>
      obtain ⟨hvalid, hlba⟩ := Bool.and_eq_true_iff.mp hhit
      obtain ⟨hinside, hrest⟩ := chunkOf_le hlt hfits.length_lt hoffset
      exact stays h rfl rfl hanswers hcache (.inl rfl) (iff_of_true trivial hin)
        ⟨hfits, hcopied, _, ⟨⟨rfl, rfl⟩, Nat.zero_le _, hinside, hrest⟩,
          eq_of_beq hlba ▸ hcache hvalid⟩
    next =>
      exact stays h rfl rfl (fun a ha => (hanswers a ha).congr fun _ => rfl) nofun (.inr hin)
        (iff_of_true trivial hin) ⟨hfits, hcopied, hlt, ⟨rfl, rfl⟩, rfl⟩
  next hge =>
    have hdone := hfits.done_le
    have hlength := hfits.length_lt
    have hfit : (s.shared.handles r.k).position + r.done ≤ (s.shared.handles r.k).size := by omega
    exact stays h rfl rfl hanswers hcache (.inl rfl) (iff_of_true trivial hin)
      ⟨hfits.inUse, by omega, hfit, hcopied⟩

/-- The drive has answered. -/
theorem sector_keeps {sector offset : ℕ} (h : Holds (Kept disc owner) (Own disc owner) s)
    (hplace : s.place t = .drive r sector offset) : Holds (Kept disc owner) (Own disc owner)
      (s.go t (.copy r offset (chunkOf r offset) 0)
        { s.shared with cache := ⟨sector, true, disc sector⟩ }) := by
  have hin : (s.place t).Inside := by
    rw [hplace]
    trivial
  have hsound := (h.own t).sound
  rw [hplace] at hsound
  obtain ⟨hfits, hcopied, hlt, hwants, -⟩ := hsound
  have hoffset : offset < kSectorSize := by
    rw [hwants.offset]
    exact Nat.mod_lt _ (by decide)
  obtain ⟨hinside, hrest⟩ := chunkOf_le hlt hfits.length_lt hoffset
  exact stays h rfl rfl (fun a ha => (h.shared.exact.answers a ha).congr fun _ => rfl)
    (fun _ _ _ => rfl) (.inr hin) (iff_of_true trivial hin)
    ⟨hfits, hcopied, sector, ⟨hwants, Nat.zero_le _, hinside, hrest⟩, fun _ _ => rfl⟩

/-- A drive that fails leaves the cache marked as holding nothing, so what lies in it does not
matter. -/
theorem failed_keeps {sector offset : ℕ} {data : ℕ → UInt8}
    (h : Holds (Kept disc owner) (Own disc owner) s)
    (hplace : s.place t = .drive r sector offset) : Holds (Kept disc owner) (Own disc owner)
      (s.go t (.signal r)
        { s.shared with cache := { s.shared.cache with data := data } }) := by
  have hin : (s.place t).Inside := by
    rw [hplace]
    trivial
  have hsound := (h.own t).sound
  rw [hplace] at hsound
  obtain ⟨hfits, hcopied, hlt, -, hvalid⟩ := hsound
  have hle := hfits.fits
  have hlength := hfits.length_lt
  have hfit : (s.shared.handles r.k).position + r.done ≤ (s.shared.handles r.k).size := by omega
  refine stays h rfl rfl (fun a ha => (h.shared.exact.answers a ha).congr fun _ => rfl)
    (fun hvalid' => ?_) (.inr hin) (iff_of_true trivial hin)
    ⟨hfits.inUse, by omega, hfit, hcopied⟩
  rw [show s.shared.cache.valid = true from hvalid'] at hvalid
  cases hvalid

theorem bytes_succ (position n : ℕ) : handle.bytes disc position (n + 1) =
    handle.bytes disc position n ++ [(n, handle.byte disc (position + n))] := by
  rw [Handle.bytes, List.range_succ, List.map_append]
  rfl

/-- A byte of the sector that is wanted is the next of the file. -/
theorem Copies.byte_eq {sector offset chunk i : ℕ} (h : Copies handle r sector offset chunk i)
    (disc : Disc) (hi : i < chunk) :
    disc sector (offset + i) = handle.byte disc (handle.position + (r.done + i)) := by
  have hinside := h.inside
  have hoffset := h.wants.offset
  rw [kSectorSize] at hinside hoffset
  rw [h.wants.sector, Handle.byte, kSectorSize,
    show (handle.position + (r.done + i)) / 2048 = (handle.position + r.done) / 2048 by omega,
    show (handle.position + (r.done + i)) % 2048 = offset + i by omega]

/-- A byte is copied, or the sector is done with. -/
theorem copyByte_keeps {offset chunk i : ℕ} (h : Holds (Kept disc owner) (Own disc owner) s)
    (hplace : s.place t = .copy r offset chunk i) : Holds (Kept disc owner) (Own disc owner)
      (s.go t (copyByte s.shared r offset chunk i) s.shared) := by
  have hanswers := h.shared.exact.answers
  have hin : (s.place t).Inside := by
    rw [hplace]
    trivial
  have hsound := (h.own t).sound
  rw [hplace] at hsound
  obtain ⟨hfits, hcopied, sector, hcopies, hhas⟩ := hsound
  have hle := hcopies.le
  have hrest := hcopies.rest
  have hlength := hfits.length_lt
  rw [copyByte]
  split
  next hlt =>
    have hinside := hcopies.inside
    refine stays h rfl rfl hanswers h.shared.cache (.inl rfl) (iff_of_true trivial hin)
      ⟨⟨hfits.inUse, hfits.done_le, hfits.length_lt, hfits.fits⟩, ?_, sector,
        ⟨⟨hcopies.wants.sector, hcopies.wants.offset⟩, hlt, hinside, hrest⟩, hhas⟩
    rw [Copied, ← Nat.add_assoc, bytes_succ, ← hcopied, add32_eq (by omega),
      hhas _ (by omega), hcopies.byte_eq disc hlt]
  next hge =>
    obtain rfl : i = chunk := by omega
    have hadd : add32 r.done i = r.done + i := add32_eq (by omega)
    rw [hadd]
    exact stays h rfl rfl hanswers h.shared.cache (.inl rfl) (iff_of_true trivial hin)
      ⟨⟨hfits.inUse, hrest, hfits.length_lt, hfits.fits⟩, hcopied⟩

/-- Loading the position keeps what holds, since nobody else changes it under the semaphore. -/
theorem load_keeps (h : Holds (Kept disc owner) (Own disc owner) s)
    (hplace : s.place t = .load r) : Holds (Kept disc owner) (Own disc owner)
      (s.go t (.store r (add32 (s.shared.handles r.k).position r.done)) s.shared) := by
  have hout : ¬(s.place t).Inside := by
    rw [hplace]
    exact not_false
  have hsound := (h.own t).sound
  rw [hplace] at hsound
  have hsize := h.shared.size_lt r.k
  have hfits := hsound.fits
  exact stays h rfl rfl h.shared.exact.answers h.shared.cache (.inl rfl)
    (iff_of_false not_false hout) ⟨hsound, add32_eq (by omega)⟩

theorem moved_self : x.moved k (x.handles k).position = x := by
  rw [Files.moved, Function.update_eq_self]

/-- A position is moved as the other threads admit. -/
theorem moves (h : Holds (Kept disc owner) (Own disc owner) s)
    (hstores : (s.place t).stores = some (k, v)) (hout : ¬(s.place t).Inside)
    (hv : v ≤ (s.shared.handles k).size) (hcareful : Careful s (t, Act.go))
    (ha : a.Exact disc s.shared) : Holds (Kept disc owner) (Own disc owner)
      (s.go t .idle ((s.shared.moved k v).answered a)) := by
  obtain ⟨hexact, hsize, hsema, hcache⟩ := h.shared
  have hlba := fun j => (handles_moved (x := s.shared) (k := k) (v := v) j).2.1
  refine h.go ⟨⟨fun j hin => ?_, exact_answered (fun a' ha' => ?_) (ha.congr hlba)⟩, fun j => ?_,
    hsema, hcache⟩ ⟨(iff_of_false not_false hout).trans (h.own t).inside, trivial⟩
    fun u hu hown => ⟨hown.inside, Place.Sound.congr ?_ rfl (.inl rfl)⟩
  · rcases eq_or_ne j k with rfl | hne
    · exact (handles_moved_self (x := s.shared)).symm ▸ hv
    · rw [Files.answered, handles_moved_of_ne hne] at hin ⊢
      exact hexact.position_le j hin
  · exact (hexact.answers a' ha').congr hlba
  · exact (handles_moved (x := s.shared) j).2.2.symm ▸ hsize j
  · rcases eq_or_ne v (s.shared.handles k).position with rfl | hne
    · rw [moved_self]
      exact hown.sound
    · exact hown.sound.moved (hcareful k v hstores hne u hu) hv

/-- One step of a thread. -/
theorem step_keeps {s' : Threads ι Place Files} {act : Act}
    (h : Holds (Kept disc owner) (Own disc owner) s) (hcareful : Careful s (t, act))
    (hstep : s.step (next disc) (t, act) = some s') :
    ∃ owner', Holds (Kept disc owner') (Own disc owner') s' := by
  obtain ⟨x, p, hnext, rfl⟩ := step_eq_some_iff.mp hstep
  dsimp only at hnext
  have hown := h.own t
  generalize hplace : s.place t = place at hnext hown
  -- at each place one act goes on, and what it keeps is the place's own lemma
  cases place with
  | idle =>
    cases act with
    | call c =>
      have hkeeps := beginCall_keeps h hplace c
      rw [show beginCall s.shared c = (x, p) from Option.some.inj hnext] at hkeeps
      exact ⟨owner, hkeeps⟩
    | _ => cases hnext
  | wait r =>
    cases act with
    | go =>
      obtain ⟨sema, hpoll, heq⟩ := Option.map_eq_some_iff.mp hnext
      obtain ⟨rfl, rfl⟩ := Prod.mk.inj heq
      exact ⟨some t, wait_keeps h hplace hpoll⟩
    | _ => cases hnext
  | loop r =>
    cases act with
    | go =>
      have hkeeps := loopHead_keeps h hplace
      rw [show loopHead s.shared r = (x, p) from Option.some.inj hnext] at hkeeps
      exact ⟨owner, hkeeps⟩
    | _ => cases hnext
  | drive r sector offset =>
    cases act with
    | sector =>
      obtain ⟨rfl, rfl⟩ := Prod.mk.inj (Option.some.inj hnext)
      exact ⟨owner, sector_keeps h hplace⟩
    | failed data =>
      obtain ⟨rfl, rfl⟩ := Prod.mk.inj (Option.some.inj hnext)
      exact ⟨owner, failed_keeps h hplace⟩
    | _ => cases hnext
  | copy r offset chunk i =>
    cases act with
    | go =>
      obtain ⟨rfl, rfl⟩ := Prod.mk.inj (Option.some.inj hnext)
      exact ⟨owner, copyByte_keeps h hplace⟩
    | _ => cases hnext
  | signal r =>
    cases act with
    | go =>
      obtain ⟨rfl, rfl⟩ := Prod.mk.inj (Option.some.inj hnext)
      exact ⟨none, signal_keeps h hplace⟩
    | _ => cases hnext
  | load r =>
    cases act with
    | go =>
      obtain ⟨rfl, rfl⟩ := Prod.mk.inj (Option.some.inj hnext)
      exact ⟨owner, load_keeps h hplace⟩
    | _ => cases hnext
  | store r position =>
    cases act with
    | go =>
      obtain ⟨rfl, rfl⟩ := Prod.mk.inj (Option.some.inj hnext)
      -- only here does the position move
      obtain ⟨hover, hposition⟩ := hown.sound
      refine ⟨owner, moves h (by rw [hplace]; rfl) (by rw [hplace]; exact not_false)
        (hposition ▸ hover.fits) hcareful ?_⟩
      exact ⟨r.done, int32_of_lt hover.done_lt, hposition, hover.copied⟩
    | _ => cases hnext
  | seek k position =>
    cases act with
    | go =>
      obtain ⟨rfl, rfl⟩ := Prod.mk.inj (Option.some.inj hnext)
      exact ⟨owner, moves h (by rw [hplace]; rfl) (by rw [hplace]; exact not_false) hown.sound
        hcareful trivial⟩
    | _ => cases hnext

/-! ### Runs -/

/-- In every careful run, positions stay within their files and reads deliver what they move the
position over. -/
theorem reads_exact {s s' : Threads ι Place Files} {l : List (ι × Act)} (h : Started disc s)
    (hrun : Steps (fun s i s' => s.step (next disc) i = some s' ∧ Careful s i) s l s') :
    Exact disc s'.shared := by
  have hkept : ∃ owner, Holds (Kept disc owner) (Own disc owner) s' := by
    refine Steps.invariant (I := fun s => ∃ owner, Holds (Kept disc owner) (Own disc owner) s) ?_
      hrun ⟨none, h.holds⟩
    rintro s ⟨t, act⟩ s' ⟨owner, hs⟩ ⟨hstep, hcareful⟩
    exact step_keeps hs hcareful hstep
  obtain ⟨owner, hs⟩ := hkept
  exact hs.shared.exact

/-- A thread that makes its calls while no other is in one is careful. -/
theorem careful_of_alone {s s' : Threads ι Place Files} (disc : Disc) (acts : List Act)
    (hothers : ∀ u ≠ t, s.place u = .idle)
    (hrun : runList (step (next disc)) s (acts.map fun act => (t, act)) = some s') :
    Steps (fun s i s' => s.step (next disc) i = some s' ∧ Careful s i) s
      (acts.map fun act => (t, act)) s' := by
  induction acts generalizing s with
  | nil =>
    obtain rfl := Option.some.inj hrun
    exact .nil s
  | cons act acts ih =>
    obtain ⟨s₁, hstep, hrest⟩ := Option.bind_eq_some_iff.mp hrun
    refine .cons ⟨hstep, fun k position _ _ u hu => ?_⟩ (ih (fun u hu => ?_) hrest)
    · rw [hothers u hu]
      trivial
    · obtain ⟨x, p, -, rfl⟩ := step_eq_some_iff.mp hstep
      rw [place_go_of_ne hu, hothers u hu]

end Step

/-! ### A file of five bytes -/

instance (k : Fin kHandles) (position size : ℕ) (p : Place) :
    Decidable (p.Admits k position size) := by
  unfold Place.Admits
  cases p <;> infer_instance

/-- A step of one of two threads that the other does not mind. -/
def carefulStep (disc : Disc) (s : Threads Bool Place Files) (i : Bool × Act) :
    Option (Threads Bool Place Files) :=
  match (s.place i.1).stores with
  | none => s.step (next disc) i
  | some (k, position) =>
    if position = (s.shared.handles k).position ∨
        (s.place !i.1).Admits k position (s.shared.handles k).size then
      s.step (next disc) i
    else none

/-- What the computed step allows is a careful step. -/
theorem careful_of_carefulStep {s s' : Threads Bool Place Files} {i : Bool × Act}
    (h : carefulStep disc s i = some s') : s.step (next disc) i = some s' ∧ Careful s i := by
  rw [carefulStep] at h
  cases hstores : (s.place i.1).stores with
  | none =>
    rw [hstores] at h
    exact ⟨h, fun k position hsome => by rw [hstores] at hsome; cases hsome⟩
  | some r =>
    rw [hstores] at h
    dsimp only at h
    split at h
    next hminds =>
      refine ⟨h, fun k position hsome hne t ht => ?_⟩
      rw [hstores] at hsome
      obtain rfl := Option.some.inj hsome
      rw [Bool.eq_not.mpr ht]
      exact hminds.resolve_left hne
    next => cases h

/-- A disc whose bytes count up from ten. -/
def fiveDisc : Disc := fun _ i => UInt8.ofNat (10 + i)

/-- Two threads that have its descriptor. -/
def fiveBytes : Threads Bool Place Files where
  place _ := .idle
  shared := {
    handles := fun _ => ⟨true, 100, 5, 0⟩
    cache := ⟨0, false, fun _ => 0⟩
    sema_driver := ⟨1, 1, le_rfl⟩
    answers := [] }

/-- Five bytes are open, and nobody has called yet. -/
theorem fiveBytes_started : Started fiveDisc fiveBytes where
  place _ := rfl
  sema := ⟨rfl, rfl⟩
  cache h := by cases h
  position_le _ _ := Nat.zero_le _
  size_lt _ := show 5 < 2 ^ 32 by decide
  answers := rfl

/-- So many further steps of a thread. -/
def goes (t : Bool) (n : ℕ) : List (Bool × Act) := List.replicate n (t, .go)

/-- Both read two bytes, and take their lengths before either has the semaphore; the second seeks
back while the first is about to read again. -/
def sharedCalls : List (Bool × Act) :=
  [(false, .call (.read 0 2)), (true, .call (.read 0 2))] ++ goes false 2 ++ [(false, .sector)] ++
    goes false 5 ++ goes true 1 ++ goes false 2 ++ goes true 6 ++
    [(false, .call (.read 0 1))] ++ goes true 2 ++ goes false 1 ++
    [(true, .call (.lseek 0 (-4) 2))] ++ goes true 1 ++ goes false 7

/-- Two threads read one handle in turns and seek in it, and each answer is the file's bytes from
where the one before it stopped. -/
theorem reads_exact_shared : ∃ s',
    Steps (fun s i s' => s.step (next fiveDisc) i = some s' ∧ Careful s i) fiveBytes sharedCalls
      s' ∧
    s'.shared.answers = [.read ⟨0, by decide⟩ 0 2 2 [(0, 10), (1, 11)],
      .read ⟨0, by decide⟩ 2 4 2 [(0, 12), (1, 13)], .sought ⟨0, by decide⟩ 1,
      .read ⟨0, by decide⟩ 1 2 1 [(0, 11)]] ∧
    Exact fiveDisc s'.shared := by
  have hanswers : (runList (carefulStep fiveDisc) fiveBytes sharedCalls).map
      (fun s => s.shared.answers) = some [.read ⟨0, by decide⟩ 0 2 2 [(0, 10), (1, 11)],
        .read ⟨0, by decide⟩ 2 4 2 [(0, 12), (1, 13)], .sought ⟨0, by decide⟩ 1,
        .read ⟨0, by decide⟩ 1 2 1 [(0, 11)]] := by
    decide +kernel
  obtain ⟨s', hrun, hshown⟩ := Option.map_eq_some_iff.mp hanswers
  have hsteps := Steps.of_runList (fun _ _ _ => careful_of_carefulStep) hrun
  exact ⟨s', hsteps, hshown, reads_exact fiveBytes_started hsteps⟩

/-! ### A file of one byte -/

/-- Two threads that have its descriptor. -/
def oneByte : Threads Bool Place Files where
  place _ := .idle
  shared := {
    handles := fun _ => ⟨true, 100, 1, 0⟩
    cache := ⟨0, false, fun _ => 0⟩
    sema_driver := ⟨1, 1, le_rfl⟩
    answers := [] }

/-- One byte is open, and nobody has called yet. -/
theorem oneByte_started : Started (fun _ _ => 0) oneByte where
  place _ := rfl
  sema := ⟨rfl, rfl⟩
  cache := nofun
  position_le _ _ := Nat.zero_le _
  size_lt _ := show 1 < 2 ^ 32 by decide
  answers := rfl

/-- A thread that has called `read` for one byte goes on to its end. -/
def reads (t : Bool) (sector : List Act) : List (Bool × Act) :=
  (List.replicate 2 Act.go ++ sector ++ List.replicate 6 Act.go).map fun act => (t, act)

/-- Both take their length, and then one after the other reads. -/
def bothFirst : List (Bool × Act) :=
  [(false, .call (.read 0 1)), (true, .call (.read 0 1))] ++ reads false [.sector] ++ reads true []

/-- The second read moves the position behind the end of the file. -/
theorem overrun : ∃ s', Started (fun _ _ => 0) oneByte ∧
    runList (step (next fun _ _ => 0)) oneByte bothFirst = some s' ∧
    ¬Exact (fun _ _ => 0) s'.shared := by
  refine ⟨_, oneByte_started, rfl, fun h => ?_⟩
  have hle := h.position_le ⟨0, by decide⟩ rfl
  revert hle
  decide

end PS2Bios.Cdvdman
