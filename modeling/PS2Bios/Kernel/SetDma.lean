import PS2Bios.Library.Bytes
import PS2Bios.Library.Word

/-!
# Sending a transfer list

`startChain`, which slot `0x77` calls: each entry becomes a header quadword and two tags of a
source chain. What the chain is to the hardware is `sourceChain`, which reads the tags, and
`deliveries`, which takes each packet off the stream by its header. The memory is the physical one,
and the channel is idle: `waitForChannel` has returned.
-/

namespace PS2Bios.Kernel.SetDma

open Bytes

/-- The tag of a packet that another one follows. -/
def kTagRef : UInt32 := 0x30000000

/-- The tag of the last packet. -/
def kTagRefe : UInt32 := 0

/-- The bit of the IOP's header that ends its transfer. -/
def kHeaderEnd : UInt32 := 0x80000000

/-- The bit of the IOP's header that interrupts it. -/
def kHeaderInterrupt : UInt32 := 0x40000000

/-- The attribute bit that asks for the IOP's interrupt. -/
def kAttrInterruptIop : UInt32 := 0x04

/-- The attribute bit that ends the IOP's transfer. -/
def kAttrEnd : UInt32 := 0x40

/-- The entries one call may have. -/
def kMaxTransfers : ℕ := 8

/-- The address without its segment. -/
def physical (address : UInt32) : UInt32 := address &&& 0x1FFFFFFF

/-- The quadwords that the bytes fill, the last one perhaps in part. -/
def quadwords (bytes : UInt32) : UInt32 := (bytes + 15) / 16

/-- `Transfer`. -/
structure Transfer where
  src : UInt32
  dest : UInt32
  size : UInt32
  attr : UInt32
deriving DecidableEq, Repr

/-- Where `sif_headers` and `sif_tags` are, as physical addresses. -/
structure Areas where
  headers : ℕ
  tags : ℕ
  headers_lt : headers + 16 * kMaxTransfers ≤ 2 ^ 29
  tags_lt : tags + 32 * kMaxTransfers ≤ 2 ^ 29
  apart : headers + 16 * kMaxTransfers ≤ tags ∨ tags + 32 * kMaxTransfers ≤ headers

/-- Store words one after another. -/
def storeWords (m : Ram) (a : ℕ) : List UInt32 → Ram
  | [] => m
  | w :: ws => storeWords (writeWord m a w.toNat) (a + 4) ws

/-- The flags of a header. -/
def flagsOf (entry : Transfer) : UInt32 :=
  let flags := if entry.attr &&& kAttrEnd ≠ 0 then 0 ||| kHeaderEnd else 0
  if entry.attr &&& kAttrInterruptIop ≠ 0 then flags ||| kHeaderInterrupt else flags

/-- A pointer to kernel memory, which is linked in KSEG0. -/
def pointer (a : ℕ) : UInt32 := UInt32.ofNat (0x80000000 + a)

/-- `headers[k]`. -/
def headerOf (entry : Transfer) : List UInt32 :=
  [entry.dest &&& ~~~(kHeaderEnd ||| kHeaderInterrupt) ||| flagsOf entry,
    quadwords entry.size * 4, 0, 0]

/-- `tags[2 * k]` and `tags[2 * k + 1]`. -/
def tagsOf (areas : Areas) (k : ℕ) (entry : Transfer) (last : Bool) : List UInt32 :=
  [kTagRef ||| 1, physical (pointer (areas.headers + 16 * k)), 0, 0,
    (if last then kTagRefe else kTagRef) ||| quadwords entry.size, physical entry.src, 0, 0]

/-- The loop of `startChain`, over the entries that are left: whether it comes to its end. -/
def fill (areas : Areas) (list : ℕ → Transfer) : ℕ → ℕ → Ram → Ram × Bool
  | 0, _, m => (m, true)
  | left + 1, k, m =>
    let entry := list k
    if entry.size = 0 then (m, false)
    else
      let m := storeWords m (areas.headers + 16 * k) (headerOf entry)
      let m := storeWords m (areas.tags + 32 * k) (tagsOf areas k entry (left == 0))
      fill areas list left (k + 1) m

/-- What `startChain` answers, the memory after it and where it started the channel, if it did. -/
structure Started where
  answer : UInt32
  ram : Ram
  tadr : Option ℕ

/-- The data a source chain names, as addresses and counts of quadwords: a tag has its count in the
low sixteen bits and its id at bit 28. -/
def sourceChain (m : Ram) : ℕ → ℕ → Option (List (ℕ × ℕ))
  | 0, _ => none
  | n + 1, tadr =>
    let control := readWord m tadr
    let data := (readWord m (tadr + 4), control % 2 ^ 16)
    match control / 2 ^ 28 % 8 with
    | 0 => some [data]
    | 3 => (sourceChain m n (tadr + 16)).map (data :: ·)
    | _ => none

/-- A packet as the IOP takes it: where its quadwords come from, where they go and the marks. -/
structure Delivery where
  source : ℕ
  quads : ℕ
  dest : ℕ
  ends : Bool
  interrupts : Bool
deriving DecidableEq, Repr

/-- The packets of a stream: one quadword of header, and as many of data as it says. -/
def deliveries (m : Ram) : List (ℕ × ℕ) → Option (List Delivery)
  | [] => some []
  | [_] => none
  | (header, one) :: (source, quads) :: rest =>
    let first := readWord m header
    if one = 1 ∧ readWord m (header + 4) = 4 * quads then
      (deliveries m rest).map (⟨source, quads, first % 2 ^ 30, first / 2 ^ 31 % 2 == 1,
        first / 2 ^ 30 % 2 == 1⟩ :: ·)
    else none

/-- What an entry asks for: its bytes rounded up to quadwords, and the marks of its attributes. -/
def Transfer.asks (entry : Transfer) : Delivery where
  source := (physical entry.src).toNat
  quads := (entry.size.toNat + 15) / 16
  dest := entry.dest.toNat % 2 ^ 30
  ends := entry.attr &&& kAttrEnd ≠ 0
  interrupts := entry.attr &&& kAttrInterruptIop ≠ 0

variable {areas : Areas} {list : ℕ → Transfer} {m : Ram} {a k : ℕ} {entry : Transfer}

/-! ### Words in memory -/

/-- The bytes of words. -/
def bytesOfWords (ws : List UInt32) : List UInt8 := ws.flatMap fun w => wordBytes w.toNat

theorem bytesOfWords_cons (w : UInt32) (ws : List UInt32) :
    bytesOfWords (w :: ws) = wordBytes w.toNat ++ bytesOfWords ws := rfl

/-- A word of those that are in memory. -/
theorem readWord_of_words {ws : List UInt32} (h : At m a (bytesOfWords ws)) {i : ℕ} {w : UInt32}
    (hi : ws[i]? = some w) : readWord m (a + 4 * i) = w.toNat := by
  induction ws generalizing a i with
  | nil => exact absurd hi nofun
  | cons x ws ih =>
    rw [bytesOfWords_cons, at_append] at h
    cases i with
    | zero =>
      obtain rfl : x = w := Option.some.inj hi
      exact readWord_of_at x.toNat_lt h.1
    | succ i =>
      have hrest := ih (a := a + 4) h.2 hi
      rw [← hrest]
      congr 1
      omega

/-! ### The packing -/

theorem physical_toNat (address : UInt32) : (physical address).toNat = address.toNat % 2 ^ 29 := by
  show (address &&& 0x1FFFFFFF).toNat = _
  rw [UInt32.toNat_and]
  exact Nat.and_two_pow_sub_one_eq_mod address.toNat 29

theorem physical_pointer (h : a < 2 ^ 29) : (physical (pointer a)).toNat = a := by
  rw [physical_toNat, pointer, UInt32.toNat_ofNat']
  omega

/-- The quadwords of any size fit below the attribute's bits. -/
theorem quadwords_lt (bytes : UInt32) : (quadwords bytes).toNat < 2 ^ 28 := by
  have hlt := (bytes + 15).toNat_lt
  show ((bytes + 15) / 16).toNat < _
  rw [UInt32.toNat_div]
  have h16 : (16 : UInt32).toNat = 16 := rfl
  rw [h16]
  omega

/-- A count below the tag's id and its flags. -/
theorem tag_toNat (id : UInt32) {quads : UInt32} (hid : id.toNat % 2 ^ 28 = 0)
    (hquads : quads.toNat < 2 ^ 28) : (id ||| quads).toNat = id.toNat + quads.toNat := by
  rw [UInt32.toNat_or]
  have h := Nat.mul_two_pow_or_mod (id.toNat / 2 ^ 28) quads.toNat 28
  rw [Nat.mod_eq_of_lt hquads] at h
  rw [show id.toNat = id.toNat / 2 ^ 28 * 2 ^ 28 by omega, h]

/-- The flags of an entry are the top two bits of its header. -/
theorem flagsOf_toNat (entry : Transfer) : (flagsOf entry).toNat =
    ((if entry.attr &&& kAttrEnd ≠ 0 then 2 else 0) +
      if entry.attr &&& kAttrInterruptIop ≠ 0 then 1 else 0) * 2 ^ 30 := by
  unfold flagsOf
  dsimp only
  split <;> split <;> rfl

/-- A header has the address in its low thirty bits and the flags above. -/
theorem header_toNat (entry : Transfer) :
    (entry.dest &&& ~~~(kHeaderEnd ||| kHeaderInterrupt) ||| flagsOf entry).toNat =
      (flagsOf entry).toNat + entry.dest.toNat % 2 ^ 30 := by
  have hmask : (entry.dest &&& ~~~(kHeaderEnd ||| kHeaderInterrupt)).toNat =
      entry.dest.toNat % 2 ^ 30 := by
    show (entry.dest &&& 0x3FFFFFFF).toNat = _
    rw [UInt32.toNat_and]
    exact Nat.and_two_pow_sub_one_eq_mod entry.dest.toNat 30
  rw [UInt32.toNat_or, hmask, Nat.or_comm, flagsOf_toNat]
  exact Nat.mul_two_pow_or_mod _ _ 30

/-! ### What the loop leaves -/

/-- The header and the tags of an entry are in place. -/
def Packed (areas : Areas) (list : ℕ → Transfer) (last : ℕ) (m : Ram) (j : ℕ) : Prop :=
  At m (areas.headers + 16 * j) (bytesOfWords (headerOf (list j))) ∧
    At m (areas.tags + 32 * j) (bytesOfWords (tagsOf areas j (list j) (j + 1 == last)))

/-- The two data of an entry: its header and its bytes. -/
def dataOf (areas : Areas) (list : ℕ → Transfer) (j : ℕ) : List (ℕ × ℕ) :=
  [(areas.headers + 16 * j, 1),
    ((physical (list j).src).toNat, (quadwords (list j).size).toNat % 2 ^ 16)]

/-- The two tags of an entry, read one after the other. -/
theorem Packed.sourceChain {last j : ℕ} (h : Packed areas list last m j) (hj : j < kMaxTransfers)
    (n : ℕ) : sourceChain m (n + 2) (areas.tags + 32 * j) =
      if j + 1 = last then some (dataOf areas list j)
      else (sourceChain m n (areas.tags + 32 * (j + 1))).map (dataOf areas list j ++ ·) := by
  have hheaders := areas.headers_lt
  unfold kMaxTransfers at hj hheaders
  have hquads := quadwords_lt (list j).size
  have hcontrol : readWord m (areas.tags + 32 * j) = 0x30000001 :=
    readWord_of_words (i := 0) h.2 rfl
  have haddress : readWord m (areas.tags + 32 * j + 4) = areas.headers + 16 * j :=
    (readWord_of_words (i := 1) h.2 rfl).trans (physical_pointer (by omega))
  have haddress' : readWord m (areas.tags + 32 * j + 16 + 4) = (physical (list j).src).toNat :=
    readWord_of_words (i := 5) h.2 rfl
  have hcontrol' : readWord m (areas.tags + 32 * j + 16) =
      (if j + 1 = last then 0 else 3) * 2 ^ 28 + (quadwords (list j).size).toNat := by
    refine (readWord_of_words (i := 4) h.2 rfl).trans ?_
    by_cases hlast : j + 1 = last
    · rw [if_pos (beq_iff_eq.mpr hlast), if_pos hlast]
      exact tag_toNat kTagRefe rfl hquads
    · rw [if_neg (by rwa [beq_iff_eq]), if_neg hlast]
      exact tag_toNat kTagRef rfl hquads
  have hnext : areas.tags + 32 * j + 16 + 16 = areas.tags + 32 * (j + 1) := by omega
  rw [SetDma.sourceChain]
  simp only [hcontrol, haddress]
  rw [SetDma.sourceChain]
  simp only [hcontrol', haddress', hnext]
  by_cases hlast : j + 1 = last
  · have hid : (quadwords (list j).size).toNat / 2 ^ 28 % 8 = 0 := by omega
    simp only [if_pos hlast, Nat.zero_mul, Nat.zero_add, hid]
    rfl
  · have hid : (3 * 2 ^ 28 + (quadwords (list j).size).toNat) / 2 ^ 28 % 8 = 3 := by omega
    have hmod : (3 * 2 ^ 28 + (quadwords (list j).size).toNat) % 2 ^ 16 =
        (quadwords (list j).size).toNat % 2 ^ 16 := by omega
    simp only [if_neg hlast, hid, hmod]
    show Option.map _ (Option.map _ _) = _
    rw [Option.map_map]
    rfl

/-- What a header in place asks for. -/
theorem Packed.delivery {last j : ℕ} (h : Packed areas list last m j) (rest : List (ℕ × ℕ)) :
    deliveries m (dataOf areas list j ++ rest) =
      if (quadwords (list j).size).toNat < 2 ^ 16 then
        (deliveries m rest).map
          ({ (list j).asks with quads := (quadwords (list j).size).toNat } :: ·)
      else none := by
  -- the three words of the header, as they are read back
  have hquads := quadwords_lt (list j).size
  have hfirst : readWord m (areas.headers + 16 * j) =
      (flagsOf (list j)).toNat + (list j).dest.toNat % 2 ^ 30 :=
    (readWord_of_words (i := 0) h.1 rfl).trans (header_toNat _)
  have hwords : readWord m (areas.headers + 16 * j + 4) =
      (quadwords (list j).size).toNat * 4 := by
    refine (readWord_of_words (i := 1) h.1 rfl).trans ?_
    rw [UInt32.toNat_mul]
    have h4 : (4 : UInt32).toNat = 4 := rfl
    rw [h4]
    omega
  have hflags := flagsOf_toNat (list j)
  show deliveries m ((areas.headers + 16 * j, 1) :: (_, _) :: rest) = _
  rw [deliveries]
  dsimp only
  rw [hfirst, hwords]
  by_cases hlt : (quadwords (list j).size).toNat < 2 ^ 16
  · rw [if_pos hlt, if_pos ⟨rfl, by omega⟩, Nat.mod_eq_of_lt hlt]
    congr 2
    funext ds
    refine congrArg (· :: ds) ?_
    unfold Transfer.asks
    simp only [Delivery.mk.injEq, true_and]
    rw [hflags]
    -- the attribute's bits and the address are apart in the first word
    have hbit : ∀ (p q : Prop) [Decidable p] [Decidable q] (d : ℕ),
        (((if p then 2 else 0) + if q then 1 else 0) * 2 ^ 30 + d % 2 ^ 30) / 2 ^ 31 % 2 =
            (if p then 1 else 0) ∧
          (((if p then 2 else 0) + if q then 1 else 0) * 2 ^ 30 + d % 2 ^ 30) / 2 ^ 30 % 2 =
            (if q then 1 else 0) := by
      intro p q _ _ d
      split <;> split <;> omega
    obtain ⟨hends, hinterrupts⟩ := hbit ((list j).attr &&& kAttrEnd ≠ 0)
      ((list j).attr &&& kAttrInterruptIop ≠ 0) (list j).dest.toNat
    refine ⟨?_, ?_, ?_⟩
    · split <;> split <;> omega
    · rw [hends]
      split <;> simp_all
    · rw [hinterrupts]
      split <;> simp_all
  · rw [if_neg hlt, if_neg]
    rintro ⟨-, hwrong⟩
    omega

variable {count : UInt32}

end PS2Bios.Kernel.SetDma
