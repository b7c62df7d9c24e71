import PS2Bios.Library.Word
import PS2Bios.Servers.Operations

/-!
# LOADFILE

`loadElf` puts an ELF file's loadable segments into EE memory through `chunk`. The bus moves
quadwords to quadword addresses, so a segment goes out in aligned blocks: the first begins with the
bytes ahead of the segment in its quadword, which come from `carry` when the last block sent was
that quadword, and the last is padded with zeros.

`carry_address` is a variable of the module's, which `loadElf` sets before anything reads it; it is
passed along here.
-/

namespace PS2Bios.Servers.Loadfile

open Sif

/-- The request to load a module. -/
def kFunctionLoad : UInt32 := 0

/-- The request to load an executable. -/
def kFunctionElfLoad : UInt32 := 1

/-- The request for the server's version. -/
def kFunctionVersion : UInt32 := 0xFF

/-- The answer of a module that could not be loaded. -/
def kIllegalObject : ℤ := -201

/-- The answer of an executable that could not be loaded. -/
def kElfError : ℤ := -1

/-- The mode a file is opened with. -/
def kOpenRead : UInt32 := 1

/-- The release `kRelease` names, as the word it is in the answer. -/
def kRelease : ℤ := 0x30303133

/-- What of an `ElfHeader` is looked at. -/
structure ElfHeader where
  entry : UInt32
  phoff : UInt32
  phentsize : UInt32
  phnum : UInt32

/-- The header of a file of which `got` bytes could be read, `none` when it is not one LOADFILE
takes. -/
def loadElfHeader (L : Layout) (got : ℤ) : Server (Option ElfHeader) :=
  if got < 48 then pure none
  else do
    let magic ← loadWord L.headers
    let type ← loadHalf (L.headers + 16)
    let entry ← loadWord (L.headers + 24)
    let phoff ← loadWord (L.headers + 28)
    let phentsize ← loadHalf (L.headers + 42)
    let phnum ← loadHalf (L.headers + 44)
    if magic ≠ 0x464C457F ∨ type ≠ 2 ∨ 0x400 < phoff + phnum * phentsize then
      return none
    else
      return some ⟨entry, phoff, phentsize, phnum⟩

/-- What of a `ProgramHeader` is looked at. -/
structure ProgramHeader where
  type : UInt32
  offset : UInt32
  paddr : UInt32
  filesz : UInt32
  memsz : UInt32

/-- A segment to load, `none` for one that is not; of that no more is looked at than tells. -/
def loadProgramHeader (address : UInt32) : Server (Option ProgramHeader) := do
  let type ← loadWord address
  if type ≠ 1 then
    return none
  else
    let memsz ← loadWord (address + 20)
    if memsz = 0 then
      return none
    else
      let offset ← loadWord (address + 4)
      let paddr ← loadWord (address + 12)
      let filesz ← loadWord (address + 16)
      return some ⟨type, offset, paddr, filesz, memsz⟩

/-- How much of a segment the next chunk takes, `fill` bytes of which are taken. -/
def wantedOf (memsz position fill : UInt32) : UInt32 :=
  if kChunkBytes - fill < memsz - position then kChunkBytes - fill else memsz - position

/-- How much of that is in the file. -/
def fromFile (filesz position wanted : UInt32) : UInt32 :=
  if position < filesz then
    if wanted < filesz - position then wanted else filesz - position
  else 0

/-- The bytes of the blocks that hold the part of a segment, with what is carried in front of it. -/
def lengthOf (fill wanted : UInt32) : UInt32 := (fill + wanted + kBlock - 1) &&& ~~~(kBlock - 1)

/-- A chunk is no more than what is left of the segment. -/
theorem wantedOf_le (fill : UInt32) {memsz position : UInt32} (h : position ≤ memsz) :
    (wantedOf memsz position fill).toNat ≤ memsz.toNat - position.toNat := by
  have hsub := UInt32.toNat_sub_of_le _ _ h
  unfold wantedOf
  split
  next hlt =>
    have := UInt32.lt_iff_toNat_lt.mp hlt
    omega
  next => omega

/-- Going on by a chunk does not wrap around. -/
theorem toNat_add_wanted (fill : UInt32) {memsz position : UInt32} (h : position ≤ memsz) :
    (position + wantedOf memsz position fill).toNat =
      position.toNat + (wantedOf memsz position fill).toNat := by
  have hle := wantedOf_le fill h
  have hm := memsz.toNat_lt
  have hp := UInt32.le_iff_toNat_le.mp h
  rw [UInt32.toNat_add]
  omega

/-- Going on by a chunk stays in the segment. -/
theorem add_wanted_le (fill : UInt32) {memsz position : UInt32} (h : position ≤ memsz) :
    position + wantedOf memsz position fill ≤ memsz := by
  have hle := wantedOf_le fill h
  have hp := UInt32.le_iff_toNat_le.mp h
  rw [UInt32.le_iff_toNat_le, toNat_add_wanted fill h]
  omega

/-- What is left of a segment once its lead has gone out, or a chunk has. -/
theorem left_lt {memsz position lead : UInt32} (hposition : position ≤ memsz)
    (hgo : position < memsz ∨ lead ≠ 0) :
    memsz.toNat - (position + wantedOf memsz position lead).toNat +
        (if (0 : UInt32) = 0 then 0 else 1) <
      memsz.toNat - position.toNat + (if lead = 0 then 0 else 1) := by
  have hle := wantedOf_le lead hposition
  rw [toNat_add_wanted lead hposition, if_pos rfl]
  by_cases hlead : lead = 0
  · subst hlead
    have hlt := UInt32.lt_iff_toNat_lt.mp (hgo.resolve_right fun hne => hne rfl)
    have hpos : 0 < (wantedOf memsz position 0).toNat := by
      have hsub := UInt32.toNat_sub_of_le _ _ hposition
      unfold wantedOf
      split
      · decide
      · omega
    rw [if_pos rfl]
    omega
  · rw [if_neg hlead]
    omega

/-- The bytes ahead of a segment in its first quadword. -/
def putLead (L : Layout) (address lead carry_address : UInt32) : Server Unit := do
  if lead ≠ 0 then
    if address = carry_address then
      store L.chunk (← load L.carry lead.toNat).1
    else
      store L.chunk (zeros lead.toNat)

/-- What of a chunk is in the file; `false` when it could not be read. -/
def readChunk (L : Layout) (fd : UInt32) (segment : ProgramHeader) (fill position wanted : UInt32) :
    Server Bool := do
  if position < segment.filesz then
    let from_file := fromFile segment.filesz position wanted
    let _ ← call (.ioLseek fd (segment.offset + position) 0)
    let got ← call (.ioRead fd (L.chunk + fill) from_file)
    return decide (got.value = from_file.toNat)
  else
    return true

/-- Zeros behind what a chunk is filled with; then it goes out, and its last block is kept. -/
def sendChunk (L : Layout) (address filled length : UInt32) : Server Unit := do
  store (L.chunk + filled) (zeros (length.toNat - filled.toNat))
  sendToEe L.chunk address length
  store L.carry (← load (L.chunk + (length - kBlock)) kBlock.toNat).1

/-- The loop of `sendSegment`. -/
def sendBlocks (L : Layout) (fd : UInt32) (segment : ProgramHeader)
    (address lead position carry_address : UInt32) (hposition : position ≤ segment.memsz) :
    Server (Bool × UInt32) :=
  if _ : position < segment.memsz ∨ lead ≠ 0 then do
    putLead L address lead carry_address
    let fill := lead
    let wanted := wantedOf segment.memsz position fill
    let got ← readChunk L fd segment fill position wanted
    if got then
      let length := lengthOf fill wanted
      sendChunk L address (fill + fromFile segment.filesz position wanted) length
      sendBlocks L fd segment (address + length) 0 (position + wanted) (address + length - kBlock)
        (add_wanted_le fill hposition)
    else
      return (false, carry_address)
  else
    return (true, carry_address)
termination_by segment.memsz.toNat - position.toNat + (if lead = 0 then 0 else 1)
decreasing_by exact left_lt hposition ‹_›

/-- A segment from the block its address lies in. -/
def sendSegment (L : Layout) (fd : UInt32) (segment : ProgramHeader) (carry_address : UInt32) :
    Server (Bool × UInt32) :=
  let address := segment.paddr &&& ~~~(kBlock - 1)
  sendBlocks L fd segment address (segment.paddr - address) 0 carry_address
    UInt32.zero_le

/-- The loadable ones of these segments, in file order; `none` when one could not be read. -/
def sendSegments (L : Layout) (fd phoff phentsize : UInt32) :
    List ℕ → UInt32 → List (UInt32 × ℕ) → Server (Option (List (UInt32 × ℕ)))
  | [], _, delivered => pure (some delivered)
  | index :: rest, carry_address, delivered => do
    let header ← loadProgramHeader (L.headers + (phoff + UInt32.ofNat index * phentsize))
    match header with
    | none => sendSegments L fd phoff phentsize rest carry_address delivered
    | some segment =>
      let (ok, carry_address) ← sendSegment L fd segment carry_address
      if ok then
        sendSegments L fd phoff phentsize rest carry_address
          (delivered ++ [(segment.paddr, segment.memsz.toNat)])
      else
        return none

/-- The entry point, and what it says it has delivered; `none` is `kElfError`. -/
def loadElf (L : Layout) (path : UInt32) : Server (Option (UInt32 × List (UInt32 × ℕ))) := do
  let opened ← call (.ioOpen path kOpenRead)
  if opened.value < 0 then
    return none
  let fd := UInt32.ofNat opened.value.toNat
  let got ← call (.ioRead fd L.headers 0x400)
  let header ← loadElfHeader L got.value
  match header with
  | none =>
    let _ ← call (.ioClose fd)
    return none
  | some elf =>
    let delivered ← sendSegments L fd elf.phoff elf.phentsize (List.range elf.phnum.toNat)
      0xFFFFFFFF []
    let _ ← call (.ioClose fd)
    return delivered.map fun delivered => (elf.entry, delivered)

/-- `serve`: the executable's entry and end, or the request's error. -/
def serve (L : Layout) (fno : UInt32) : Server Answer := do
  let words := L.request .loadfile
  let path := words + 8
  if fno = kFunctionElfLoad then
    let result ← loadElf L path
    match result with
    | none => return ⟨some [kElfError, 0, 0, 0], []⟩
    | some (entry, delivered) => return ⟨some [int32 entry.toNat, 0, 0, 0], delivered⟩
  else if fno = kFunctionVersion then
    return ⟨some [kRelease, 0, 0, 0], []⟩
  else if fno ≠ kFunctionLoad then
    return ⟨none, []⟩
  else
    let illegal ← call (.isIllegal path)
    if illegal.value ≠ 0 then
      return ⟨some [kIllegalObject, 0, 0, 0], []⟩
    let started ← call (.loadStart path (← loadWord words) (words + 0x104))
    return ⟨some [started.value, started.out, 0, 0], []⟩

/-! ### What LOADFILE says it has delivered -/

variable {L : Layout} {w : Watch}

/-- What goes into a chunk fits it. -/
theorem chunk_fits {memsz position fill : UInt32} (hfill : fill.toNat < 16)
    (hposition : position ≤ memsz) :
    let wanted := wantedOf memsz position fill
    fill.toNat + wanted.toNat ≤ 0x1000 ∧
      (lengthOf fill wanted).toNat = (fill.toNat + wanted.toNat + 15) / 16 * 16 ∧
      (position.toNat + wanted.toNat < memsz.toNat → fill.toNat + wanted.toNat = 0x1000) := by
  have hsub := UInt32.toNat_sub_of_le _ _ hposition
  have hroom : (kChunkBytes - fill).toNat = 0x1000 - fill.toNat :=
    UInt32.toNat_sub_of_le kChunkBytes fill
      (UInt32.le_iff_toNat_le.mpr (show fill.toNat ≤ 0x1000 by omega))
  have hp := UInt32.le_iff_toNat_le.mp hposition
  dsimp only
  generalize hwanted : wantedOf memsz position fill = wanted
  have hbound : fill.toNat + wanted.toNat ≤ 0x1000 ∧
      (position.toNat + wanted.toNat < memsz.toNat → fill.toNat + wanted.toNat = 0x1000) := by
    unfold wantedOf at hwanted
    split at hwanted
    next hlt =>
      have := UInt32.lt_iff_toNat_lt.mp hlt
      rw [← hwanted]
      omega
    next hge =>
      have : ¬(kChunkBytes - fill).toNat < (memsz - position).toNat := fun h =>
        hge (UInt32.lt_iff_toNat_lt.mpr h)
      rw [← hwanted]
      omega
  refine ⟨hbound.1, ?_, hbound.2⟩
  have hsum : (fill + wanted + kBlock - 1).toNat = fill.toNat + wanted.toNat + 15 := by
    have hblock : kBlock.toNat = 16 := rfl
    have h₁ : (fill + wanted + kBlock).toNat = fill.toNat + wanted.toNat + 16 := by
      rw [UInt32.toNat_add, UInt32.toNat_add]
      omega
    have h₂ := UInt32.toNat_sub_of_le (fill + wanted + kBlock) 1
      (UInt32.le_iff_toNat_le.mpr (by rw [h₁]; show 1 ≤ _; omega))
    rw [h₂, h₁]
    rfl
  have hmask := UInt32.toNat_and_not_mask (fill + wanted + kBlock - 1) (kBlock - 1) (k := 4)
    (by decide) (by decide)
  rw [hsum] at hmask
  exact hmask

/-- What a chunk takes from the file is no more than the chunk. -/
theorem fromFile_le (filesz position wanted : UInt32) :
    (fromFile filesz position wanted).toNat ≤ wanted.toNat := by
  unfold fromFile
  split
  · split
    · exact Nat.le_refl _
    next hge => exact Nat.not_lt.mp fun h => hge (UInt32.lt_iff_toNat_lt.mpr h)
  · exact Nat.zero_le _

/-- The bytes in front of a segment are carried over from the segment before. -/
theorem putLead_wp {address lead carry_address : UInt32} {Q : Unit → Watch → Prop}
    (hquiet : w.Quiet .loadfile) (hlead : lead.toNat < 16) (hQ : Q () w) :
    (putLead L address lead carry_address).wp (watch L .loadfile) Q w := by
  have hown : L.Owns .loadfile L.chunk lead.toNat := Layout.Owns.take L.chunk_own (by omega)
  unfold putLead
  split
  · split
    · rw [Prog.wp_bind, wp_load]
      intro bytes
      rw [wp_store, bytes.2]
      exact ⟨⟨hquiet, hown⟩, hQ⟩
    · rw [wp_store, zeros, List.length_replicate]
      exact ⟨⟨hquiet, hown⟩, hQ⟩
  · exact hQ

/-- A chunk is read into the buffer behind what is carried. -/
theorem readChunk_wp {fd fill position wanted : UInt32} {segment : ProgramHeader}
    {Q : Bool → Watch → Prop} (hquiet : w.Quiet .loadfile)
    (hfits : fill.toNat + wanted.toNat ≤ 0x1000) (hQ : ∀ got, Q got w) :
    (readChunk L fd segment fill position wanted).wp (watch L .loadfile) Q w := by
  unfold readChunk
  split
  · simp only [Prog.wp_bind, wp_call]
    refine ⟨fun _ h => (by cases h), fun _ => ⟨?_, fun got => hQ _⟩⟩
    rintro b ⟨⟩
    have hfile := fromFile_le segment.filesz position wanted
    have hsub := Layout.Owns.sub L.chunk_own (k := fill.toNat)
      (m := (fromFile segment.filesz position wanted).toNat) (by omega)
    rw [UInt32.ofNat_toNat] at hsub
    exact ⟨hquiet, hsub⟩
  · exact hQ true

/-- The buffer's blocks are sent, the last one filled up. -/
theorem sendChunk_wp {address filled length : UInt32} {Q : Unit → Watch → Prop}
    (hquiet : w.Quiet .loadfile) (hfilled : filled.toNat ≤ length.toNat)
    (hlength : length.toNat ≤ 0x1000) (hround : (length.toNat + 15) / 16 * 16 ≤ 0x1000)
    (hQ : Q () ⟨w.sent ++ [transferOf L.chunk address length], false⟩) :
    (sendChunk L address filled length).wp (watch L .loadfile) Q w := by
  unfold sendChunk
  rw [Prog.wp_bind, wp_store, zeros, List.length_replicate]
  refine ⟨⟨hquiet, ?_⟩, ?_⟩
  · have hsub := Layout.Owns.sub L.chunk_own (k := filled.toNat)
      (m := length.toNat - filled.toNat) (by omega)
    rwa [UInt32.ofNat_toNat] at hsub
  · rw [Prog.wp_bind]
    refine wp_sendAndWait hquiet L.chunk_own hlength hround ?_
    rw [Prog.wp_bind, wp_load]
    intro bytes
    rw [wp_store, bytes.2]
    exact ⟨⟨.inr rfl, L.carry_own⟩, hQ⟩

/-- What a segment's transfers have come to. -/
def Sent (segment : ProgramHeader) (sent : List Transfer) (r : Bool × UInt32) (w : Watch) : Prop :=
  w.Quiet .loadfile ∧ sent ⊆ w.sent ∧
    (r.1 = true → Carry w.sent segment.paddr segment.memsz.toNat)

/-- The blocks of a segment are sent to its place, one behind the other. -/
theorem sendBlocks_wp {fd address lead position carry_address : UInt32} {segment : ProgramHeader}
    (hposition : position ≤ segment.memsz) (hquiet : w.Quiet .loadfile) (hlead : lead.toNat < 16)
    (haddress : position < segment.memsz ∨ lead ≠ 0 → address + lead = segment.paddr + position)
    (hcarry : Carry w.sent segment.paddr position.toNat) :
    (sendBlocks L fd segment address lead position carry_address hposition).wp (watch L .loadfile)
      (Sent segment w.sent) w := by
  induction hleft : segment.memsz.toNat - position.toNat + (if lead = 0 then 0 else 1) using
    Nat.strong_induction_on generalizing address lead position carry_address w with
  | h left ih =>
    rw [sendBlocks]
    split
    next hgo =>
      have hfits := chunk_fits hlead hposition
      have hsum := toNat_add_wanted lead hposition
      have hlt := left_lt hposition hgo
      obtain ⟨hroom, hlength, hfull⟩ := hfits
      rw [Prog.wp_bind]
      refine putLead_wp hquiet hlead ?_
      rw [Prog.wp_bind]
      refine readChunk_wp hquiet hroom fun got => ?_
      split
      · have hfile := fromFile_le segment.filesz position (wantedOf segment.memsz position lead)
        have hfilled : (lead + fromFile segment.filesz position
            (wantedOf segment.memsz position lead)).toNat ≤
              (lengthOf lead (wantedOf segment.memsz position lead)).toNat := by
          rw [UInt32.toNat_add]
          omega
        rw [Prog.wp_bind]
        refine sendChunk_wp hquiet hfilled (by omega) (by omega) ?_
        have hmore := (hcarry.more (transferOf L.chunk address
          (lengthOf lead (wantedOf segment.memsz position lead)))).add
            (carry_last (k := lead.toNat) (n := (wantedOf segment.memsz position lead).toNat)
              ?_ ?_)
        · rw [← hsum] at hmore
          refine Prog.wp_mono (ih _ (hlt.trans_eq hleft) _ (.inr rfl) (by decide) ?_ hmore rfl)
            fun r w' hr => ?_
          · -- a segment goes on only behind a chunk that is full
            intro hgo'
            have hlt' := UInt32.lt_iff_toNat_lt.mp (hgo'.resolve_right fun hne => hne rfl)
            have hwhole : lengthOf lead (wantedOf segment.memsz position lead) =
                lead + wantedOf segment.memsz position lead := by
              apply UInt32.toNat_inj.mp
              rw [UInt32.toNat_add]
              omega
            rw [hwhole, UInt32.add_zero, ← UInt32.add_assoc, haddress hgo, UInt32.add_assoc]
          · exact ⟨hr.1, List.Subset.trans (List.subset_append_left ..) hr.2.1, hr.2.2⟩
        · rw [UInt32.ofNat_toNat, UInt32.ofNat_toNat]
          exact haddress hgo
        · show _ ≤ (lengthOf lead (wantedOf segment.memsz position lead)).toNat
          omega
      · exact ⟨hquiet, List.Subset.refl _, nofun⟩
    next hstop =>
      refine ⟨hquiet, List.Subset.refl _, fun _ => ?_⟩
      have hge : segment.memsz.toNat ≤ position.toNat := Nat.not_lt.mp fun h =>
        hstop (.inl (UInt32.lt_iff_toNat_lt.mpr h))
      rwa [Nat.le_antisymm hge (UInt32.le_iff_toNat_le.mp hposition)]

/-- The quadword a segment starts in. -/
theorem lead_lt (paddr : UInt32) : (paddr - (paddr &&& ~~~(kBlock - 1))).toNat < 16 := by
  have hmask := UInt32.toNat_and_not_mask paddr (kBlock - 1) (k := 4) (by decide) (by decide)
  rw [UInt32.toNat_sub_of_le _ _ (UInt32.le_iff_toNat_le.mpr (by omega)), hmask]
  omega

/-- A segment is sent to its place. -/
theorem sendSegment_wp {fd carry_address : UInt32} {segment : ProgramHeader}
    (hquiet : w.Quiet .loadfile) :
    (sendSegment L fd segment carry_address).wp (watch L .loadfile) (Sent segment w.sent) w := by
  refine sendBlocks_wp _ hquiet (lead_lt segment.paddr) (fun _ => ?_) carry_zero
  rw [UInt32.add_comm, UInt32.sub_add_cancel]
  exact (UInt32.add_zero _).symm

/-- Looking at the headers sends nothing. -/
theorem loadProgramHeader_wp {address : UInt32} {Q : Option ProgramHeader → Watch → Prop}
    (hQ : ∀ header, Q header w) :
    (loadProgramHeader address).wp (watch L .loadfile) Q w := by
  unfold loadProgramHeader
  rw [Prog.wp_bind, wp_loadWord]
  intro type
  split
  · exact hQ none
  · rw [Prog.wp_bind, wp_loadWord]
    intro memsz
    split
    · exact hQ none
    · simp only [Prog.wp_bind, wp_loadWord]
      exact fun _ _ _ => hQ _

/-- Looking at the header sends nothing. -/
theorem loadElfHeader_wp {got : ℤ} {Q : Option ElfHeader → Watch → Prop}
    (hQ : ∀ header, Q header w) :
    (loadElfHeader L got).wp (watch L .loadfile) Q w := by
  unfold loadElfHeader
  split
  · exact hQ none
  · simp only [Prog.wp_bind, wp_loadWord, wp_loadHalf]
    intro _ _ _ _ _ _
    split
    · exact hQ none
    · exact hQ _

/-- The segments sent so far are carried. -/
def Carried (delivered : Option (List (UInt32 × ℕ))) (w : Watch) : Prop :=
  w.Quiet .loadfile ∧ ∀ ds, delivered = some ds → ∀ d ∈ ds, Carry w.sent d.1 d.2

/-- The segments are sent in the order of their headers. -/
theorem sendSegments_wp {fd phoff phentsize carry_address : UInt32} {indices : List ℕ}
    {delivered : List (UInt32 × ℕ)} (h : Carried (some delivered) w) :
    (sendSegments L fd phoff phentsize indices carry_address delivered).wp (watch L .loadfile)
      Carried w := by
  induction indices generalizing carry_address delivered w with
  | nil => exact h
  | cons index rest ih =>
    simp only [sendSegments, Prog.wp_bind]
    refine loadProgramHeader_wp fun header => ?_
    cases header with
    | none => exact ih h
    | some segment =>
      rw [Prog.wp_bind]
      refine Prog.wp_mono (sendSegment_wp h.1) fun r w' hr => ?_
      obtain ⟨hquiet, hsent, hcarry⟩ := hr
      split
      · next hok =>
        refine ih ⟨hquiet, ?_⟩
        rintro ds ⟨⟩ d hd
        rcases List.mem_append.mp hd with hold | hnew
        · exact (h.2 _ rfl d hold).mono hsent
        · obtain rfl := List.mem_singleton.mp hnew
          exact hcarry hok
      · exact ⟨hquiet, fun _ h => by cases h⟩

/-- What a load says it has delivered is what it has sent. -/
theorem loadElf_wp {path : UInt32} (hquiet : w.Quiet .loadfile) :
    (loadElf L path).wp (watch L .loadfile) (fun r w => Carried (r.map Prod.snd) w) w := by
  simp only [loadElf, Prog.wp_bind, wp_call]
  refine ⟨fun _ h => (by cases h), fun opened => ?_⟩
  split
  · exact ⟨hquiet, fun _ h => by cases h⟩
  · simp only [Prog.wp_bind, wp_call]
    refine ⟨?_, fun got => loadElfHeader_wp fun header => ?_⟩
    · rintro b ⟨⟩
      exact ⟨hquiet, L.headers_own⟩
    · cases header with
      | none =>
        simp only [Prog.wp_bind, wp_call]
        exact ⟨fun _ h => (by cases h), fun _ => ⟨hquiet, fun _ h => by cases h⟩⟩
      | some elf =>
        rw [Prog.wp_bind]
        have hnone : Carried (some []) w := by
          refine ⟨hquiet, ?_⟩
          rintro ds ⟨⟩
          exact List.forall_mem_nil _
        refine Prog.wp_mono (sendSegments_wp hnone) fun r w' hr =>
          ⟨fun _ h => (by cases h), fun _ => ?_⟩
        cases r with
        | none => exact fun _ => hr
        | some delivered => exact fun _ => hr

/-- **LOADFILE**: what it says it has delivered is carried by the transfers it has handed over. -/
theorem serve_wp {fno : UInt32} (hquiet : w.Quiet .loadfile) :
    (serve L fno).wp (watch L .loadfile) (Delivered .loadfile) w := by
  unfold serve
  dsimp only
  split
  · rw [Prog.wp_bind]
    refine Prog.wp_mono (loadElf_wp hquiet) fun r w' hr => ?_
    cases r with
    | none => exact ⟨hr.1, List.forall_mem_nil _⟩
    | some result => exact ⟨hr.1, hr.2 _ rfl⟩
  split
  · exact ⟨hquiet, List.forall_mem_nil _⟩
  split
  · exact ⟨hquiet, List.forall_mem_nil _⟩
  · simp only [Prog.wp_bind, wp_call]
    refine ⟨fun _ h => (by cases h), fun illegal => ?_⟩
    split
    · exact ⟨hquiet, List.forall_mem_nil _⟩
    · simp only [Prog.wp_bind, wp_loadWord, wp_call]
      exact fun _ => ⟨fun _ h => (by cases h), fun _ => ⟨hquiet, List.forall_mem_nil _⟩⟩

end PS2Bios.Servers.Loadfile
