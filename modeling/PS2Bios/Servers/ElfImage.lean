import PS2Bios.Servers.Outcome
import PS2Bios.Servers.Reports

/-!
# An ELF file in EE memory

What an ELF file asks for is read off its bytes: its table, and the segments there are to load, each
of which is to have `imageByte` at every place. LOADFILE sends a segment in whole quadwords, and so
over whatever shares one with it. `Fits` is what keeps that from harm: the neighbour lies below, and
has been the last to be sent, so that `carry` still has its bytes.

Behind every block the invariant is `Placed`: the segments sent hold what they should, and `carry`
is what EE memory has in the quadword it was taken from.
-/

namespace PS2Bios.Servers.Loadfile

open Sif

/-! ### What the file says -/

/-- How many of its bytes are looked at for headers. -/
def headerBytes (f : File) : ℕ := (f.answer 0 0x400).toNat

/-- The bytes of a file at an offset, for a number. -/
def bytesAt (f : File) (i n : ℕ) : List UInt8 :=
  (List.range n).map fun k => f.contents.getD (i + k) 0

/-- The word at an offset of the file. -/
def word (f : File) (i : ℕ) : UInt32 := UInt32.ofNat (littleEndian (bytesAt f i 4))

/-- The halfword at an offset of the file. -/
def half (f : File) (i : ℕ) : UInt32 := UInt32.ofNat (littleEndian (bytesAt f i 2))

/-- Where the entry of a segment is. -/
def entryAt (f : File) (index : ℕ) : ℕ := (word f 28).toNat + index * (half f 42).toNat

/-- The program header of an index, as the file has it. -/
def programHeader (f : File) (index : ℕ) : ProgramHeader where
  type := word f (entryAt f index)
  offset := word f (entryAt f index + 4)
  paddr := word f (entryAt f index + 12)
  filesz := word f (entryAt f index + 16)
  memsz := word f (entryAt f index + 20)

/-- The segment takes memory. -/
def ProgramHeader.Loads (s : ProgramHeader) : Prop := s.type = 1 ∧ s.memsz ≠ 0

instance (s : ProgramHeader) : Decidable s.Loads := inferInstanceAs (Decidable (_ ∧ _))

/-- The segments to load among some entries. -/
def segmentsOf (f : File) (indices : List ℕ) : List ProgramHeader :=
  (indices.map (programHeader f)).filter fun s => s.Loads

/-- The segments the file asks to be loaded, in the order of their headers. -/
def segments (f : File) : List ProgramHeader := segmentsOf f (List.range (half f 44).toNat)

/-- What a segment is to have in its `k`th place. -/
def imageByte (f : File) (s : ProgramHeader) (k : ℕ) : UInt8 :=
  if k < s.filesz.toNat then f.contents.getD (s.offset.toNat + k) 0 else 0

namespace ProgramHeader

/-- Where a segment begins in EE memory, and where it ends. -/
def first (s : ProgramHeader) : ℕ := (physical s.paddr).toNat

/-- Where the segment's memory ends. -/
def stop (s : ProgramHeader) : ℕ := s.first + s.memsz.toNat

/-- A segment is in EE memory, whole. -/
def In (f : File) (ee : UInt32 → UInt8) (s : ProgramHeader) : Prop :=
  ∀ k < s.memsz.toNat, ∀ a : UInt32, a.toNat = s.first + k → ee a = imageByte f s k

/-- They all are. -/
def AllIn (f : File) (ee : UInt32 → UInt8) (segments : List ProgramHeader) : Prop :=
  ∀ s ∈ segments, s.In f ee

/-- No quadword has a byte of both. -/
def Apart (s t : ProgramHeader) : Prop :=
  (s.stop + 15) / 16 ≤ t.first / 16 ∨ (t.stop + 15) / 16 ≤ s.first / 16

/-- The quadwords a segment begins and ends in, as LOADFILE names them. -/
def firstBlock (s : ProgramHeader) : UInt32 := s.paddr &&& ~~~(kBlock - 1)

/-- The last block of 16 that the segment reaches into. -/
def lastBlock (s : ProgramHeader) : UInt32 := (s.paddr + (s.memsz - 1)) &&& ~~~(kBlock - 1)

/-- A segment can be loaded behind others: what shares a quadword with it lies below it, and the
last of them ends in the quadword it begins in. -/
def Fits (done : List ProgramHeader) (s : ProgramHeader) : Prop :=
  ∀ d ∈ done, d.Apart s ∨ d.stop ≤ s.first ∧ done.getLast?.map lastBlock = some s.firstBlock

/-- Segments of which each fits behind the ones before it. -/
def Ordered : List ProgramHeader → List ProgramHeader → Prop
  | _, [] => True
  | done, s :: rest => Fits done s ∧ Ordered (done ++ [s]) rest

end ProgramHeader

instance decidableOrdered : ∀ done rest, Decidable (ProgramHeader.Ordered done rest)
  | _, [] => .isTrue trivial
  | done, s :: rest =>
    have := decidableOrdered (done ++ [s]) rest
    inferInstanceAs (Decidable ((∀ d ∈ done, (_ ∨ _) ∨ _ ∧ _) ∧ _))

/-- The header is one that LOADFILE takes. The end of the table is a sum of 32 bits. -/
structure Accepted (f : File) : Prop where
  long : 48 ≤ headerBytes f
  magic : word f 0 = 0x464C457F
  type : half f 16 = 2
  tableEnd : word f 28 + half f 44 * half f 42 ≤ 0x400

/-- What LOADFILE may look at: the bytes of the file it has read, and its own buffers. -/
def Inside (L : Layout) (f : File) (a : UInt32) (n : ℕ) : Prop :=
  (∃ k, a = L.headers + UInt32.ofNat k ∧ k + n ≤ headerBytes f) ∨
    (∃ k, a = L.chunk + UInt32.ofNat k ∧ k + n ≤ 0x1000) ∨ a = L.carry ∧ n ≤ 16

variable {L : Layout} {f : File} {w : World} {s : ProgramHeader} {done : List ProgramHeader}
  {fd address lead position wanted carry_address : UInt32} {memory : UInt32 → UInt8}

theorem headerBytes_le (f : File) : headerBytes f ≤ 0x400 ∧ headerBytes f ≤ f.contents.length := by
  have hle := f.answer_le 0 0x400
  have hleft := f.answer_left 0 0x400
  unfold headerBytes
  omega

/-! ### The headers -/

/-- The headers are in memory, as the file has them. -/
def Headed (L : Layout) (f : File) (memory : UInt32 → UInt8) : Prop :=
  ∀ k < headerBytes f, memory (L.headers + UInt32.ofNat k) = f.contents.getD k 0

/-- The headers that were read are the first bytes of the file. -/
theorem Headed.bytes (h : Headed L f memory) {i n : ℕ} (hi : i + n ≤ headerBytes f) :
    ((List.range n).map fun k => memory (L.headers + UInt32.ofNat i + UInt32.ofNat k)) =
      bytesAt f i n := by
  refine List.map_congr_left fun k hk => ?_
  have hlt := List.mem_range.mp hk
  rw [UInt32.add_assoc, ← UInt32.ofNat_add]
  exact h (i + k) (by omega)

/-- What LOADFILE does with its buffers leaves the headers. -/
theorem Headed.put_chunk (h : Headed L f memory) {a : UInt32} {i : ℕ} {bytes : List UInt8}
    (ha : a = L.chunk + UInt32.ofNat i) (hi : i + bytes.length ≤ 0x1000) :
    Headed L f (put memory a bytes) := by
  have hle := headerBytes_le f
  intro k hk
  refine (put_of_apart fun j hj => ?_).trans (h k hk)
  rw [ha, UInt32.add_assoc, ← UInt32.ofNat_add]
  exact L.headers_chunk k (by omega) (i + j) (by omega)

theorem Headed.put_carry (h : Headed L f memory) {bytes : List UInt8} (hbytes : bytes.length = 16) :
    Headed L f (put memory L.carry bytes) := by
  have hle := headerBytes_le f
  intro k hk
  exact (put_of_apart fun j hj => L.headers_carry k (by omega) j (by omega)).trans (h k hk)

/-- The bytes a block is sent with. -/
def sentBytes (L : Layout) (memory : UInt32 → UInt8) (filled length : UInt32) : UInt32 → UInt8 :=
  put memory (L.chunk + filled) (zeros (length.toNat - filled.toNat))

/-- `carry` is what EE memory has in its quadword. -/
def Mirrors (L : Layout) (carry_address : UInt32) (w : World) : Prop :=
  ∀ j < 16, w.iop (L.carry + UInt32.ofNat j) = w.ee (physical carry_address + UInt32.ofNat j)

/-- Segments have been sent, one after another. -/
structure Placed (L : Layout) (f : File) (fd : UInt32) (done : List ProgramHeader)
    (carry_address : UInt32) (w : World) : Prop where
  fd : w.fd = fd
  headed : Headed L f w.iop
  held : w.refused = false → ProgramHeader.AllIn f w.ee done
  carried : w.refused = false → done ≠ [] →
    Mirrors L carry_address w ∧ done.getLast?.map ProgramHeader.lastBlock = some carry_address

/-- And one of them up to a position. -/
def upTo (done : List ProgramHeader) (s : ProgramHeader) (position : UInt32) : List ProgramHeader :=
  if position = 0 then done else done ++ [{ s with memsz := position }]

/-- The next block of a segment. -/
structure Block (s : ProgramHeader) (address lead position wanted length : UInt32) : Prop where
  start : address + lead = s.paddr + position
  aligned : address.toNat % 16 = 0
  lead_lt : lead.toNat < 16
  lead_first : lead ≠ 0 → position = 0
  first : position = 0 → address = s.firstBlock
  wanted_pos : 0 < wanted.toNat
  within : position.toNat + wanted.toNat ≤ s.memsz.toNat
  length : length.toNat = (lead.toNat + wanted.toNat + 15) / 16 * 16
  stop : s.stop ≤ 2 ^ 29

section Blocks

variable {length : UInt32}

/-- Where a block begins. -/
theorem Block.physical (h : Block s address lead position wanted length) :
    (physical address).toNat + lead.toNat = s.first + position.toNat ∧
      (physical address).toNat % 16 = 0 ∧ (physical address).toNat < 2 ^ 29 := by
  have hstart := congrArg UInt32.toNat h.start
  have haligned := h.aligned
  have hlead := h.lead_lt
  have hpos := h.wanted_pos
  have hwithin := h.within
  have hstop := h.stop
  rw [ProgramHeader.stop, ProgramHeader.first, toNat_physical] at hstop
  rw [UInt32.toNat_add, UInt32.toNat_add] at hstart
  rw [ProgramHeader.first, toNat_physical, toNat_physical]
  omega

/-- A block of a segment does not run past its end. -/
theorem Block.toNat_add (h : Block s address lead position wanted length) :
    (position + wanted).toNat = position.toNat + wanted.toNat := by
  have hwithin := h.within
  have hmemsz := s.memsz.toNat_lt
  rw [UInt32.toNat_add]
  omega

/-- Where it ends. -/
theorem Block.lastBlock (h : Block s address lead position wanted length) :
    ({ s with memsz := position + wanted } : ProgramHeader).lastBlock =
      address + length - kBlock := by
  obtain ⟨hphysical, haligned, -⟩ := h.physical
  have hsum := h.toNat_add
  have hstart := congrArg UInt32.toNat h.start
  have hpos := h.wanted_pos
  have hwithin := h.within
  have hlength := h.length
  have hstop := h.stop
  have hblock : kBlock.toNat = 16 := rfl
  have hone : (1 : UInt32).toNat = 1 := rfl
  have hsub := UInt32.toNat_sub_of_le (position + wanted) 1
    (UInt32.le_iff_toNat_le.mpr (by omega))
  rw [ProgramHeader.stop] at hstop
  rw [toNat_physical] at hphysical haligned
  have hmask := UInt32.toNat_and_not_mask (s.paddr + (position + wanted - 1)) (kBlock - 1) (k := 4)
    (by decide) (by decide)
  apply UInt32.toNat_inj.mp
  rw [ProgramHeader.lastBlock, hmask, UInt32.toNat_sub, UInt32.toNat_add, UInt32.toNat_add, hsub,
    hsum, hblock, hone, hlength]
  rw [UInt32.toNat_add, UInt32.toNat_add] at hstart
  have haddress := address.toNat_lt
  omega

/-- Behind a full one the next begins at once. -/
theorem Block.next (h : Block s address lead position wanted length)
    (hfull : lead.toNat + wanted.toNat = 0x1000) :
    address + length + 0 = s.paddr + (position + wanted) ∧ (address + length).toNat % 16 = 0 := by
  have hround := h.length
  have haligned := h.aligned
  have hlength : length = lead + wanted := by
    apply UInt32.toNat_inj.mp
    rw [UInt32.toNat_add]
    omega
  constructor
  · rw [hlength, UInt32.add_zero, ← UInt32.add_assoc, h.start, UInt32.add_assoc]
  · rw [UInt32.toNat_add]
    omega

/-- A block that has landed: the segment is in EE memory further up, and what was there before has
not changed. -/
theorem Placed.landed {w' : World} {bytes : ℕ → UInt8}
    (h : Placed L f fd (upTo done s position) carry_address w) (hfits : s.Fits done)
    (hblock : Block s address lead position wanted length)
    (hfd : w'.fd = w.fd) (hheaded : Headed L f w'.iop)
    (hrefused : w'.refused = false → w.refused = false)
    (hee : w'.refused = false → ∀ a, w'.ee a =
      if (Servers.physical address).toNat ≤ a.toNat ∧
          a.toNat < (Servers.physical address).toNat + length.toNat then
        bytes (a.toNat - (Servers.physical address).toNat)
      else w.ee a)
    (hcarry : ∀ j < 16, w'.iop (L.carry + UInt32.ofNat j) = bytes (length.toNat - 16 + j))
    (hlead : address = carry_address →
      ∀ j < lead.toNat, bytes j = w.iop (L.carry + UInt32.ofNat j))
    (hbytes : ∀ j < wanted.toNat,
      bytes (lead.toNat + j) = imageByte f s (position.toNat + j)) :
    Placed L f fd (done ++ [{ s with memsz := position + wanted }]) (address + length - kBlock)
      w' := by
  obtain ⟨hat, haligned, hlow⟩ := hblock.physical
  have hsum := hblock.toNat_add
  have hleadlt := hblock.lead_lt
  have hpos := hblock.wanted_pos
  have hwithin := hblock.within
  have hlength := hblock.length
  have hstop := hblock.stop
  have hsixteen : kBlock.toNat = 16 := rfl
  rw [ProgramHeader.stop] at hstop
  refine ⟨hfd.trans h.fd, hheaded, fun hnot d hd => ?_, fun hnot _ => ⟨fun j hj => ?_, ?_⟩⟩
  · rcases List.mem_append.mp hd with hold | hnew
    · -- a segment sent before
      have hd' : d ∈ upTo done s position := by
        unfold upTo
        split
        · exact hold
        · exact List.mem_append_left _ hold
      intro k hk a ha
      have hbefore := h.held (hrefused hnot) d hd' k hk a ha
      rw [hee hnot, ← hbefore]
      split
      next hin =>
        -- it shares the quadword, and `carry` has its bytes
        rcases hfits d hold with hapart | ⟨hbelow, hlast⟩
        · unfold ProgramHeader.Apart ProgramHeader.stop at hapart
          omega
        · rw [ProgramHeader.stop] at hbelow
          have hne : lead ≠ 0 := fun hzero => by
            rw [hzero] at hat
            have : (0 : UInt32).toNat = 0 := rfl
            omega
          have hzero := hblock.lead_first hne
          have hmore : upTo done s position = done := if_pos hzero
          rw [hmore] at h
          obtain ⟨hmirrors, hblock'⟩ := h.carried (hrefused hnot) (List.ne_nil_of_mem hold)
          have heq : address = carry_address :=
            (hblock.first hzero).trans (Option.some.inj (hlast.symm.trans hblock'))
          have hposition : position.toNat = 0 := congrArg UInt32.toNat hzero
          rw [hlead heq _ (by omega), hmirrors _ (by omega), ← heq]
          congr 1
          apply UInt32.toNat_inj.mp
          rw [UInt32.toNat_add, UInt32.toNat_ofNat']
          omega
      · rfl
    · -- this one
      obtain rfl := List.mem_singleton.mp hnew
      intro k hk a ha
      have hk' : k < (position + wanted).toNat := hk
      have ha' : a.toNat = s.first + k := ha
      show w'.ee a = imageByte f s k
      rw [hee hnot]
      rcases Nat.lt_or_ge k position.toNat with hlt | hge
      · have hne : position ≠ 0 := fun hzero => by
          rw [hzero] at hlt
          exact absurd hlt (Nat.not_lt_zero _)
        have hnolead : lead.toNat = 0 := by
          by_contra hlead'
          refine hne (hblock.lead_first fun hzero => hlead' ?_)
          rw [hzero]
          rfl
        rw [if_neg (by omega)]
        have hmem : ({ s with memsz := position } : ProgramHeader) ∈ upTo done s position := by
          rw [upTo, if_neg hne]
          exact List.mem_append_right _ (.head _)
        exact h.held (hrefused hnot) _ hmem k hlt a ha'
      · obtain ⟨j, rfl⟩ := Nat.exists_eq_add_of_le hge
        have hoffset : a.toNat - (Servers.physical address).toNat = lead.toNat + j := by omega
        rw [if_pos (by omega), hoffset, hbytes j (by omega)]
  · rw [hcarry j hj, hee hnot]
    have hblockat : (Servers.physical (address + length - kBlock)).toNat =
        (Servers.physical address).toNat + (length.toNat - 16) := by
      have hsub : address + length - kBlock = address + (length - kBlock) := by
        rw [UInt32.sub_eq_add_neg, UInt32.sub_eq_add_neg, UInt32.add_assoc]
      have hlen : (length - kBlock).toNat = length.toNat - 16 :=
        UInt32.toNat_sub_of_le _ _ (UInt32.le_iff_toNat_le.mpr (by omega))
      rw [hsub, toNat_physical_add (by omega), hlen]
    have hnum : (Servers.physical (address + length - kBlock) + UInt32.ofNat j).toNat =
        (Servers.physical address).toNat + (length.toNat - 16 + j) := by
      rw [UInt32.toNat_add, UInt32.toNat_ofNat', hblockat]
      omega
    rw [hnum, if_pos (by omega), Nat.add_sub_cancel_left]
  · rw [List.getLast?_concat, Option.map_some, hblock.lastBlock]

end Blocks

/-! ### Sending a segment -/

section Contents

variable {length : UInt32} {lead_bytes file_bytes : List UInt8}

/-- Where a block is filled to, and the zeros behind that. -/
theorem toNat_filled (s : ProgramHeader) (position length : UInt32)
    (hroom : lead.toNat + wanted.toNat ≤ 0x1000) :
    let filled := lead + fromFile s.filesz position wanted
    filled.toNat = lead.toNat + (fromFile s.filesz position wanted).toNat ∧
      (zeros (length.toNat - filled.toNat)).length =
        length.toNat - (lead.toNat + (fromFile s.filesz position wanted).toNat) := by
  have hle := fromFile_le s.filesz position wanted
  have hfilled : (lead + fromFile s.filesz position wanted).toNat =
      lead.toNat + (fromFile s.filesz position wanted).toNat := by
    rw [UInt32.toNat_add]
    omega
  dsimp only
  rw [hfilled]
  exact ⟨rfl, List.length_replicate⟩

/-- Sending it leaves the headers. -/
theorem Headed.sent (h : Headed L f memory) (hblock : Block s address lead position wanted length)
    (hroom : lead.toNat + wanted.toNat ≤ 0x1000) (hlead : lead_bytes.length = lead.toNat)
    (hlength : file_bytes.length = (fromFile s.filesz position wanted).toNat) {tail : List UInt8}
    (htail : tail.length = 16) :
    Headed L f (put
      (sentBytes L (put (put memory L.chunk lead_bytes) (L.chunk + lead) file_bytes)
        (lead + fromFile s.filesz position wanted) length) L.carry tail) := by
  have hle := fromFile_le s.filesz position wanted
  have hround := hblock.length
  obtain ⟨hfilled, hzeros⟩ := toNat_filled s position length hroom
  have h₀ : Headed L f (put memory L.chunk lead_bytes) :=
    h.put_chunk (i := 0) (UInt32.add_zero _).symm (by omega)
  have h₁ : Headed L f (put (put memory L.chunk lead_bytes) (L.chunk + lead) file_bytes) :=
    h₀.put_chunk (i := lead.toNat) (by rw [UInt32.ofNat_toNat]) (by omega)
  have hat : L.chunk + (lead + fromFile s.filesz position wanted) =
      L.chunk + UInt32.ofNat (lead + fromFile s.filesz position wanted).toNat := by
    rw [UInt32.ofNat_toNat]
  refine (h₁.put_chunk hat ?_).put_carry htail
  rw [hzeros]
  omega

end Contents

/-- What a segment comes to. -/
def Loaded (L : Layout) (f : File) (fd : UInt32) (done : List ProgramHeader) (r : Bool × UInt32)
    (w : World) : Prop :=
  r.1 = true → Placed L f fd done r.2 w

/-- Nothing has happened yet. -/
def still : World := ⟨fun _ => 0, fun _ => 0, 0, 0, none, false⟩

end PS2Bios.Servers.Loadfile
