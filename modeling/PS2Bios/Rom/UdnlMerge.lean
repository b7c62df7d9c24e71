import PS2Bios.Rom.Pool
import PS2Bios.Rom.Udnl

/-!
# The module's merge

What `UDNL` does before it hands over: it opens `rom0` where the boot found it, reads every named
source into one buffer behind the new boot list, takes the order from the newest source that has a
boot list, and writes the winner's address for each name.
-/

namespace PS2Bios.Rom

open Bytes

namespace Udnl

/-- Where the search for the first image begins. -/
def kRomSearchStart : ℕ := 0xBFC00000

/-- Where it ends. -/
def kRomSearchEnd : ℕ := 0xBFC80000

/-- The images that can be merged. -/
def kSourcesMax : ℕ := 4

/-- The names a merged list has room for. -/
def kNamesMax : ℕ := 64

/-- The boot block, eight words. -/
def kBlockSize : ℕ := 0x20

/-- The words of the boot list. -/
def kListMax : ℕ := 256

/-- The bytes in front of the merged images. -/
def kHeaderSize : ℕ := kBlockSize + kListMax * 4

/-! ### The order -/

/-- `text[i] < 0x20`; a `char` is signed here. -/
def isControl (c : UInt8) : Bool := decide (c.toNat < 0x20 ∨ 0x80 ≤ c.toNat)

/-- `hexDigit`. -/
def hexDigit (byte : ℕ) : ℕ :=
  if sub32 byte 0x30 < 10 then sub32 byte 0x30
  else if sub32 byte 0x57 < 16 then sub32 byte 0x57 else sub32 byte 0x37

/-- The address after an `@`. -/
def listBaseOf (digits : List UInt8) : ℕ :=
  digits.foldl (fun base c => base <<< 4 % 2 ^ 32 ||| hexDigit c.toNat) 0

/-- A row of `names`: a token, cut after one byte more than a name or padded. -/
def nameRow (token : List UInt8) : List UInt8 :=
  (List.range (kNameLength + 1)).map fun c => token.getD c 0

/-- `directive`. -/
def directive (c : UInt8) : Bool := c == 0x21

/-- The loop of `resolveOrder` over the rest of a boot list, with the names and the base so far. -/
def readNames : ℕ → List UInt8 → List (List UInt8) → ℕ → Option (List (List UInt8) × ℕ)
  | 0, _, _, _ => none
  | n + 1, rest, names, listBase =>
    if rest ≠ [] ∧ names.length < kNamesMax then
      let start := rest.dropWhile isControl
      let rest := start.dropWhile fun c => !isControl c
      match start.takeWhile fun c => !isControl c with
      | [] => some (names, listBase)
      | c :: token =>
        if c = 0x40 then readNames n rest names (listBaseOf token)
        else if c = 0x23 then readNames n rest names listBase
        else if directive c then
          readNames n ((rest.dropWhile isControl).dropWhile fun c => !isControl c) names listBase
        else readNames n rest (names ++ [nameRow (c :: token)]) listBase
    else some (names, listBase)

/-- What `resolveOrder` finds: an archive, and what its boot list says. -/
structure Order where
  label : ℕ
  names : List (List UInt8)
  listBase : ℕ
deriving DecidableEq, Repr

/-- The bytes of a file in memory. -/
def bytesOf (m : Ram) (file : Place) : List UInt8 :=
  (List.range file.size).map fun i => m (file.address + i)

/-- `resolveOrder`, over the sources from the last to the first. -/
def resolveOrder (m : Ram) (n : ℕ) : List Archive → Option (Option Order)
  | [] => some none
  | archive :: older =>
    (lookup m archive kIopbtconf n).bind fun
      | none => resolveOrder m n older
      | some list =>
        (readNames n (bytesOf m list.file) [] 0).map fun read =>
          some ⟨archive.label, read.1, read.2⟩

/-! ### The winners -/

/-- A winner: the source, and the file in it. -/
structure Winner where
  label : ℕ
  best : Candidate
deriving DecidableEq, Repr

/-- The inner loop of the merge, over the sources from the last to the first. -/
def winnerOf (m : Ram) (name : List UInt8) (n : ℕ) :
    List Archive → Option Winner → Option (Option Winner)
  | [], winner => some winner
  | archive :: older, winner =>
    (lookup m archive name n).bind fun
      | none => winnerOf m name n older winner
      | some candidate =>
        if winner.all fun w => w.best.version < candidate.version then
          winnerOf m name n older (some ⟨archive.label, candidate⟩)
        else winnerOf m name n older winner

/-- The merge loop, writing to the boot list from `list` on; the inner `none` is the panic over a
name that no source has. -/
def mergeNames (n : ℕ) (sources : List Archive) :
    Ram → ℕ → List (List UInt8) → Option (Option (List Winner))
  | _, _, [] => some (some [])
  | m, list, name :: names =>
    (winnerOf m name n sources none).bind fun
      | none => some none
      | some winner =>
        (mergeNames n sources (writeWord m list winner.best.file.address) (list + 4) names).map
          (Option.map (winner :: ·))

/-! ### The sources -/

/-- `readNamedSource` for each source: the label, and what the file holds. -/
def readSources (n : ℕ) : List (ℕ × List UInt8) → Ram → ℕ → Option (Ram × List Archive)
  | [], m, _ => some (m, [])
  | (label, contents) :: named, m, cursor =>
    let m := write m cursor contents
    (openArchive m cursor (add32 cursor contents.length) label n).bind fun
      | none => readSources n named m cursor
      | some archive =>
        (readSources n named m (add32 cursor (align16 contents.length))).map fun read =>
          (read.1, archive :: read.2)

/-- What `measureNamedSource` lets pass. -/
def Measures (named : List (ℕ × List UInt8)) : Prop :=
  named.length ≤ kSourcesMax ∧ ∀ s ∈ named, s.2 ≠ []

instance (named : List (ℕ × List UInt8)) : Decidable (Measures named) :=
  inferInstanceAs (Decidable (_ ∧ _))

/-- `_module_start` up to the boot list: the order and the winners. The buffer is what `sysmem`
answers; the inner `none` is every panic. -/
def moduleStart (m : Ram) (buffer rom0 : ℕ) (named : List (ℕ × List UInt8)) (n : ℕ) :
    Option (Option (Order × List Winner)) :=
  (openArchive m kRomSearchStart kRomSearchEnd rom0 n).bind fun
    | none => some none
    | some archive =>
      if ¬Measures named ∨ buffer = 0 then some none
      else
        let m := write m buffer (List.replicate kBlockSize 0)
        (readSources n named m (add32 buffer kHeaderSize)).bind fun read =>
          let newestFirst := (archive :: read.2).reverse
          (resolveOrder read.1 n newestFirst).bind fun
            | none => some none
            | some order =>
              (mergeNames n newestFirst read.1 (add32 buffer kBlockSize)
                (order.names.take (kListMax - 1))).map (Option.map (Prod.mk order))

end Udnl

end PS2Bios.Rom
