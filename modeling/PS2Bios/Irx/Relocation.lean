import PS2Bios.Irx.Loader
import PS2Bios.Irx.Pairing
import PS2Bios.Library.Patch

/-!
# Relocation end to end

The tool's stream is a sequence of blocks, and the loader has nothing held between two of them; so
each block is a patch of the words it fixes up, and patches of different words do not see each
other. Whatever the order, each word is rebased as the linked image had it, and a literal comes out
right at any base because the `HI16` was given a `LO16` with the low half of its address.
-/

namespace PS2Bios.Irx

open Bytes Loader

/-- Where a fixup's word is. -/
def Fixup.site (base : ℕ) (f : Fixup) : ℕ := add32 base f.offset

/-- The word of a fixup has a byte at `a`. -/
def Fixup.Covers (base : ℕ) (f : Fixup) (a : ℕ) : Prop := f.site base ≤ a ∧ a < f.site base + 4

/-- The words of two fixups are apart. -/
def Fixup.Apart (base : ℕ) (f g : Fixup) : Prop :=
  f.site base + 4 ≤ g.site base ∨ g.site base + 4 ≤ f.site base

/-- Some fixups, each with a word of its own. -/
structure Separate (base : ℕ) (fs : List Fixup) : Prop where
  kind : ∀ f ∈ fs, f.kind ∈ Mkirx.allowedRelocations
  apart : fs.Pairwise (Fixup.Apart base)

/-- The words of a block. -/
def Block.Covers (base : ℕ) (b : Block) (a : ℕ) : Prop := ∃ f ∈ b.fixups, f.Covers base a

/-- What the loader makes of a block. -/
def applyBlock (base : ℕ) (m : Ram) (b : Block) : Ram :=
  (b.entries.foldl (applyRelocation base) (m, [])).1

/-- A block as the tool writes it. -/
def Block.IsProper (base : ℕ) : Block → Prop
  | .single f => f.kind ∈ Mkirx.allowedRelocations ∧ f.kind ≠ rMipsHi16
  | .pair h l => h.kind = rMipsHi16 ∧ l.kind = rMipsLo16 ∧ h.Apart base l

variable {m m' : Ram} {base a : ℕ} {f h l : Fixup} {b : Block} {blocks : List Block}
  {fss : List (List Fixup)} {fs : List Fixup}

theorem applyBlock_single (hproper : (Block.single f).IsProper base) :
    applyBlock base m (.single f) =
      writeWord m (f.site base) (rebased f.kind base (readWord m (f.site base))) := by
  exact congrArg Prod.fst (applyRelocation_single hproper.1 hproper.2)

/-- A proper pair rebases its upper half by the carry of its lower one. -/
theorem applyBlock_pair (hproper : (Block.pair h l).IsProper base) :
    applyBlock base m (.pair h l) =
      writeWord (writeWord m (l.site base) (rebasedLow base (readWord m (l.site base))))
        (h.site base)
        (rebasedHigh base (readWord m (h.site base)) (readWord m (l.site base))) := by
  obtain ⟨hhi, hlo, hapart⟩ := hproper
  exact congrArg Prod.fst (applyRelocation_pair hhi hlo hapart.symm)

/-- Nothing is held after a block. -/
theorem foldl_entries (hproper : b.IsProper base) :
    b.entries.foldl (applyRelocation base) (m, []) = (applyBlock base m b, []) := by
  have hheld : (b.entries.foldl (applyRelocation base) (m, [])).2 = [] := by
    match b, hproper with
    | .single f, ⟨hkind, hhi⟩ => exact congrArg Prod.snd (applyRelocation_single hkind hhi)
    | .pair h l, ⟨hhi, hlo, hapart⟩ =>
      exact congrArg Prod.snd (applyRelocation_pair hhi hlo hapart.symm)
  exact Prod.ext rfl hheld

/-- Proper blocks, one behind the other, each start with no upper half held. -/
theorem foldl_blocks (hproper : ∀ b ∈ blocks, b.IsProper base) :
    (blocks.flatMap Block.entries).foldl (applyRelocation base) (m, []) =
      (blocks.foldl (applyBlock base) m, []) := by
  induction blocks generalizing m with
  | nil => rfl
  | cons b blocks ih =>
    rw [List.flatMap_cons, List.foldl_append, foldl_entries (hproper b List.mem_cons_self)]
    exact ih fun c hc => hproper c (.tail _ hc)

theorem readWord_site (hm : ∀ a, f.Covers base a → m a = m' a) :
    readWord m (f.site base) = readWord m' (f.site base) :=
  readWord_congr fun x hx hx' => hm x ⟨hx, hx'⟩

/-- Equal words put into memories make them equal there. -/
theorem writeWord_congr {w : ℕ} {s : ℕ} (hm : m a = m' a) :
    writeWord m s w a = writeWord m' s w a := by
  unfold writeWord write
  rw [hm]

/-- A block changes its own words only, by what is in them. -/
theorem isLocal_applyBlock (hproper : b.IsProper base) :
    Patch.IsLocal (applyBlock base) (Block.Covers base) b := by
  match b, hproper with
  | .single f, hproper =>
    constructor
    · intro m a ha
      rw [applyBlock_single hproper]
      exact writeWord_of_not fun hcovers => ha ⟨f, List.mem_singleton_self f, hcovers⟩
    · intro m m' hm a ha
      rw [applyBlock_single hproper, applyBlock_single hproper,
        readWord_site fun x hx => hm x ⟨f, List.mem_singleton_self f, hx⟩]
      exact writeWord_congr (hm a ha)
  | .pair h l, hproper =>
    have hcoversh : ∀ a, h.Covers base a → (Block.pair h l).Covers base a := fun a ha =>
      ⟨h, List.mem_cons_self, ha⟩
    have hcoversl : ∀ a, l.Covers base a → (Block.pair h l).Covers base a := fun a ha =>
      ⟨l, List.mem_cons_of_mem h List.mem_cons_self, ha⟩
    constructor
    · intro m a ha
      rw [applyBlock_pair hproper, writeWord_of_not fun hc => ha (hcoversh a hc)]
      exact writeWord_of_not fun hc => ha (hcoversl a hc)
    · intro m m' hm a ha
      rw [applyBlock_pair hproper, applyBlock_pair hproper,
        readWord_site fun x hx => hm x (hcoversh x hx),
        readWord_site fun x hx => hm x (hcoversl x hx)]
      exact writeWord_congr (writeWord_congr (hm a ha))

/-! ### The blocks of a stream -/

theorem Fixup.Apart.symm (h : Fixup.Apart base f l) : Fixup.Apart base l f := Or.symm h

theorem Fixup.Apart.not_covers (h : Fixup.Apart base f l) (hf : f.Covers base a) :
    ¬l.Covers base a := by
  rintro ⟨hle, hlt⟩
  obtain ⟨hle', hlt'⟩ := hf
  rcases h with h | h <;> omega

/-- The fixups of a stream are separate when those of the module are. -/
theorem Separate.of_perm (h : Separate base fss.flatten) (harranged : Arranged fss blocks) :
    Separate base (blocks.flatMap Block.fixups) := by
  refine ⟨fun f hf => h.kind f (harranged.perm.mem_iff.mp hf), ?_⟩
  exact (harranged.perm.pairwise_iff fun h => Fixup.Apart.symm h).mpr h.apart

/-- Where the fixups' words are apart, every block is proper. -/
theorem isProper_of_mem (h : Separate base fss.flatten) (harranged : Arranged fss blocks)
    (hb : b ∈ blocks) : b.IsProper base := by
  have hseparate := h.of_perm harranged
  match b, hb with
  | .single f, hb =>
    exact ⟨hseparate.kind f (List.mem_flatMap.mpr ⟨_, hb, List.mem_singleton_self f⟩),
      harranged.single f hb⟩
  | .pair g l, hb =>
    obtain ⟨hlo, fs, -, i, l', -, hhi, -⟩ := harranged.pair g l hb
    have hpair : [g, l].Pairwise (Fixup.Apart base) :=
      (List.pairwise_flatMap.mp hseparate.apart).1 _ hb
    exact ⟨hhi, hlo, (List.pairwise_cons.mp hpair).1 l List.mem_cons_self⟩

/-- The loader leaves each word of a block as the block alone would. -/
theorem readWord_relocated (h : Separate base fss.flatten) (harranged : Arranged fss blocks)
    (hb : b ∈ blocks) (hf : f ∈ b.fixups) :
    readWord (relocateSection base m (blocks.flatMap Block.entries)) (f.site base) =
      readWord (applyBlock base m b) (f.site base) := by
  have hproper : ∀ b ∈ blocks, b.IsProper base := fun b hb => isProper_of_mem h harranged hb
  have hdisjoint : blocks.Pairwise fun b c => ∀ a, b.Covers base a → ¬c.Covers base a := by
    refine (List.pairwise_flatMap.mp (h.of_perm harranged).apart).2.imp fun {b c} hapart a => ?_
    rintro ⟨f, hf, hfa⟩ ⟨g, hg, hga⟩
    exact (hapart f hf g hg).not_covers hfa hga
  rw [relocateSection, foldl_blocks hproper]
  refine readWord_site fun a ha => ?_
  exact Patch.foldl_of_mem (fun b hb => isLocal_applyBlock (hproper b hb)) hdisjoint hb ⟨f, hf, ha⟩

/-- The loader leaves everything else alone. -/
theorem relocated_of_not (h : Separate base fss.flatten) (harranged : Arranged fss blocks)
    (ha : ∀ f ∈ fss.flatten, ¬f.Covers base a) :
    relocateSection base m (blocks.flatMap Block.entries) a = m a := by
  have hproper : ∀ b ∈ blocks, b.IsProper base := fun b hb => isProper_of_mem h harranged hb
  rw [relocateSection, foldl_blocks hproper]
  refine Patch.foldl_of_not (fun b hb => isLocal_applyBlock (hproper b hb)) ?_
  rintro b hb ⟨f, hf, hcovers⟩
  exact ha f (harranged.perm.mem_iff.mp (List.mem_flatMap.mpr ⟨b, hb, hf⟩)) hcovers

/-! ### What every word becomes -/

theorem rebasedLow_lt {w : ℕ} (hw : w < 2 ^ 32) : rebasedLow base w < 2 ^ 32 := by
  unfold rebasedLow
  omega

theorem rebasedHigh_lt {w w' : ℕ} (hw : w < 2 ^ 32) : rebasedHigh base w w' < 2 ^ 32 := by
  unfold rebasedHigh
  omega

/-- A rebased word is one of 32 bits. -/
theorem rebased_lt {kind w : ℕ} (hw : w < 2 ^ 32) : rebased kind base w < 2 ^ 32 := by
  unfold rebased
  split
  · exact add32_lt _ _
  · split
    · unfold rebasedJump
      omega
    · exact rebasedLow_lt hw

theorem readWord_single (hproper : (Block.single f).IsProper base) :
    readWord (applyBlock base m (.single f)) (f.site base) =
      rebased f.kind base (readWord m (f.site base)) := by
  rw [applyBlock_single hproper, readWord_writeWord (rebased_lt (readWord_lt _ _))]

/-- Both halves of a pair are rebased from what they were before either was. -/
theorem readWord_pair (hproper : (Block.pair h l).IsProper base) :
    readWord (applyBlock base m (.pair h l)) (h.site base) =
        rebasedHigh base (readWord m (h.site base)) (readWord m (l.site base)) ∧
      readWord (applyBlock base m (.pair h l)) (l.site base) =
        rebasedLow base (readWord m (l.site base)) := by
  rw [applyBlock_pair hproper]
  constructor
  · exact readWord_writeWord (rebasedHigh_lt (readWord_lt _ _))
  · rw [readWord_congr fun x hx hx' => writeWord_of_not fun hc =>
      hproper.2.2.not_covers hc ⟨hx, hx'⟩, readWord_writeWord (rebasedLow_lt (readWord_lt _ _))]

/-- A fixup that is neither half of a literal. -/
theorem readWord_of_plain (hsep : Separate base fss.flatten) (harranged : Arranged fss blocks)
    (hf : f ∈ fss.flatten) (hhi : f.kind ≠ rMipsHi16) :
    readWord (relocateSection base m (blocks.flatMap Block.entries)) (f.site base) =
      rebased f.kind base (readWord m (f.site base)) := by
  obtain ⟨b, hb, hfb⟩ := List.mem_flatMap.mp (harranged.perm.mem_iff.mpr hf)
  have hproper := isProper_of_mem hsep harranged hb
  rw [readWord_relocated hsep harranged hb hfb]
  match b, hfb, hproper with
  | .single g, hfb, hproper =>
    obtain rfl := List.mem_singleton.mp hfb
    exact readWord_single hproper
  | .pair g l, hfb, hproper =>
    rcases List.mem_cons.mp hfb with rfl | hfb
    · exact absurd hproper.1 hhi
    · obtain rfl := List.mem_singleton.mp hfb
      rw [(readWord_pair hproper).2, hproper.2.1]
      rfl

/-- A `HI16` is rebased with a `LO16` of its address. -/
theorem readWord_of_hi (hsep : Separate base fss.flatten) (harranged : Arranged fss blocks)
    (hh : h ∈ fss.flatten) (hhi : h.kind = rMipsHi16) :
    ∃ l ∈ fss.flatten, l.kind = rMipsLo16 ∧ Names fss h l.address ∧
      readWord (relocateSection base m (blocks.flatMap Block.entries)) (h.site base) =
        rebasedHigh base (readWord m (h.site base)) (readWord m (l.site base)) := by
  obtain ⟨b, hb, hhb⟩ := List.mem_flatMap.mp (harranged.perm.mem_iff.mpr hh)
  have hproper := isProper_of_mem hsep harranged hb
  rw [readWord_relocated hsep harranged hb hhb]
  match b, hb, hhb, hproper with
  | .single g, hb, hhb, hproper =>
    obtain rfl := List.mem_singleton.mp hhb
    exact absurd hhi hproper.2
  | .pair g l, hb, hhb, hproper =>
    rcases List.mem_cons.mp hhb with rfl | hhb
    · have hl : l ∈ (Block.pair h l).fixups := List.mem_cons_of_mem h List.mem_cons_self
      exact ⟨l, harranged.perm.mem_iff.mp (List.mem_flatMap.mpr ⟨_, hb, hl⟩), hproper.2.1,
        (harranged.pair h l hb).2, (readWord_pair hproper).1⟩
    · obtain rfl := List.mem_singleton.mp hhb
      exact absurd (hhi.symm.trans hproper.2.1) (by decide)

/-- A `HI16` names one address. -/
theorem Names.unique {a a' : Address} (hnodup : fss.flatten.Nodup) (hn : Names fss h a)
    (hn' : Names fss h a') : a = a' := by
  obtain ⟨fs, hfs, i, l, hi, -, hnext, rfl⟩ := hn
  obtain ⟨fs', hfs', i', l', hi', -, hnext', rfl⟩ := hn'
  obtain ⟨hinner, houter⟩ := List.nodup_flatten.mp hnodup
  have hsymm : Std.Symm (@List.Disjoint Fixup) := ⟨fun _ _ h _ hx hx' => h hx' hx⟩
  obtain rfl : fs = fs' := by
    by_contra hne
    exact houter.forall hfs hfs' hne (List.mem_of_getElem? hi) (List.mem_of_getElem? hi')
  obtain rfl : i = i' := by
    refine (List.getElem?_inj (List.getElem?_eq_some_iff.mp hi).1 (hinner fs hfs)).mp ?_
    exact hi.trans hi'.symm
  rw [hnext.unique hnext']

/-- A literal comes out as it was, moved by the base. -/
theorem literal_relocated (hsep : Separate base fss.flatten) (harranged : Arranged fss blocks)
    (hnodup : fss.flatten.Nodup)
    (hlow : ∀ l ∈ fss.flatten, l.kind = rMipsLo16 → readWord m (l.site base) % 2 ^ 16 = l.low)
    (hnames : Names fss h l.address) (hl : l ∈ fss.flatten) (hkind : l.kind = rMipsLo16) :
    literal (readWord (relocateSection base m (blocks.flatMap Block.entries)) (h.site base))
        (readWord (relocateSection base m (blocks.flatMap Block.entries)) (l.site base)) =
      add32 (literal (readWord m (h.site base)) (readWord m (l.site base))) base := by
  have hh : h ∈ fss.flatten ∧ h.kind = rMipsHi16 := by
    obtain ⟨fs, hfs, i, -, hi, hhi, -⟩ := hnames
    exact ⟨List.mem_flatten.mpr ⟨fs, hfs, List.mem_of_getElem? hi⟩, hhi⟩
  obtain ⟨mate, hmate, hmlo, hmnames, hhigh⟩ := readWord_of_hi (m := m) hsep harranged hh.1 hh.2
  have haddress : mate.address = l.address := hmnames.unique hnodup hnames
  rw [hhigh, readWord_of_plain hsep harranged hl (by rw [hkind]; decide), hkind]
  refine literal_rebased ?_
  rw [hlow mate hmate hmlo, hlow l hl hkind]
  exact congrArg Address.low haddress

/-! ### The fixups of a module -/

/-- A fixup that is parsed is of a kind that is allowed, and a lower half's word is the image's. -/
theorem parse_eq_some {image : List UInt8} {e : Rel} (hf : Mkirx.parse image e = some f) :
    f.kind ∈ Mkirx.allowedRelocations ∧ (f.kind = rMipsLo16 →
      f.offset + 2 ≤ image.length ∧ f.low = readHalf (image.getD · 0) f.offset) := by
  unfold Mkirx.parse at hf
  dsimp only at hf
  split at hf
  · exact absurd hf (by simp)
  · next hkind =>
    split at hf
    · split at hf
      · exact absurd hf (by simp)
      · next hlen =>
        obtain rfl := Option.some.inj hf
        exact ⟨not_not.mp hkind, fun _ => ⟨Nat.not_lt.mp hlen, rfl⟩⟩
    · next hplain =>
      obtain rfl := Option.some.inj hf
      exact ⟨not_not.mp hkind, fun hlo => absurd (.inr hlo) hplain⟩

/-- Each result of a mapping that succeeds comes from a member of the list. -/
theorem forall_of_mapM {α β : Type} {g : α → Option β} {xs : List α} {ys : List β}
    (h : xs.mapM g = some ys) {y : β} (hy : y ∈ ys) : ∃ x ∈ xs, g x = some y := by
  induction xs generalizing ys with
  | nil =>
    obtain rfl : [] = ys := Option.some.inj h
    exact absurd hy List.not_mem_nil
  | cons x xs ih =>
    rw [List.mapM_cons] at h
    obtain ⟨z, hz, h⟩ := Option.bind_eq_some_iff.mp h
    obtain ⟨zs, hzs, h⟩ := Option.bind_eq_some_iff.mp h
    obtain rfl := Option.some.inj h
    rcases List.mem_cons.mp hy with rfl | hy
    · exact ⟨x, List.mem_cons_self, hz⟩
    · obtain ⟨w, hw, hwy⟩ := ih hzs hy
      exact ⟨w, .tail _ hw, hwy⟩

/-- The fixups of an image are of kinds that are allowed, and each lower half has its word of the
image. -/
theorem of_fixupsOf {image : List UInt8} {sections : List Section}
    (h : Mkirx.fixupsOf image sections = some fss) (hf : f ∈ fss.flatten) :
    f.kind ∈ Mkirx.allowedRelocations ∧ (f.kind = rMipsLo16 →
      f.offset + 2 ≤ image.length ∧ f.low = readHalf (image.getD · 0) f.offset) := by
  obtain ⟨loaded, -, h⟩ := Option.bind_eq_some_iff.mp h
  obtain ⟨fs, hfs, hf⟩ := List.mem_flatten.mp hf
  obtain ⟨entries, -, hentries⟩ := forall_of_mapM h hfs
  obtain ⟨e, -, he⟩ := forall_of_mapM hentries hf
  exact parse_eq_some he

/-- The fixups are at different words of the module. -/
structure AtWords (fss : List (List Fixup)) : Prop where
  aligned : ∀ f ∈ fss.flatten, f.offset % 4 = 0 ∧ f.offset < 2 ^ 32
  nodup : (fss.flatten.map Fixup.offset).Nodup

/-- Fixups at different words are apart. -/
theorem AtWords.separate (h : AtWords fss)
    (hkind : ∀ f ∈ fss.flatten, f.kind ∈ Mkirx.allowedRelocations) :
    Separate base fss.flatten := by
  refine ⟨hkind, ?_⟩
  refine (List.pairwise_map.mp h.nodup).imp_of_mem fun {f g} hf hg hne => ?_
  have hfa := h.aligned f hf
  have hga := h.aligned g hg
  simp only [Fixup.Apart, Fixup.site, add32]
  omega

/-- The low half of a loaded instruction is that of the image. -/
theorem low_of_loaded {image : List UInt8} (hbase : base % 4 = 0)
    (hload : ∀ i < image.length, m (add32 base i) = image.getD i 0) (halign : f.offset % 4 = 0)
    (hin : f.offset + 2 ≤ image.length) (hlow : f.low = readHalf (image.getD · 0) f.offset) :
    readWord m (f.site base) % 2 ^ 16 = f.low := by
  have hnext : f.site base + 1 = add32 base (f.offset + 1) := by
    simp only [Fixup.site, add32]
    omega
  have h0 := hload f.offset (by omega)
  have h1 := hload (f.offset + 1) (by omega)
  have hlt0 : (m (f.site base)).toNat < 256 := (m (f.site base)).toNat_lt
  have hlt1 : (m (f.site base + 1)).toNat < 256 := (m (f.site base + 1)).toNat_lt
  rw [hlow, readHalf, ← h0, ← h1, ← hnext]
  show readWord m (f.site base) % 2 ^ 16 =
    (m (f.site base)).toNat + 256 * (m (f.site base + 1)).toNat
  unfold readWord
  omega

/-! ### The module -/

/-- The section table that the tool writes: the null section, and the fixups. -/
def Mkirx.sectionTable (out : List Rel) : List (ℕ × List Rel) := [(0, []), (shtRel, out)]

theorem relocate_sectionTable (out : List Rel) :
    relocate base m (Mkirx.sectionTable out) = relocateSection base m out := rfl

/-- The module in `m'` is the module in `m`, moved from 0 to `base`. -/
structure Relocated (base : ℕ) (fss : List (List Fixup)) (m m' : Ram) : Prop where
  frame : ∀ a, (∀ f ∈ fss.flatten, ¬f.Covers base a) → m' a = m a
  word : ∀ f ∈ fss.flatten, f.kind = rMips32 →
    readWord m' (f.site base) = add32 (readWord m (f.site base)) base
  jump : ∀ f ∈ fss.flatten, f.kind = rMips26 →
    readWord m' (f.site base) / 2 ^ 26 = readWord m (f.site base) / 2 ^ 26 ∧
      (jumpTarget (f.site base) (readWord m' (f.site base)) =
          add32 (jumpTarget f.offset (readWord m (f.site base))) base ↔
        add32 (f.site base) 4 / 2 ^ 28 =
          add32 (jumpTarget f.offset (readWord m (f.site base))) base / 2 ^ 28)
  half : ∀ f ∈ fss.flatten, f.kind = rMipsHi16 ∨ f.kind = rMipsLo16 →
    readWord m' (f.site base) / 2 ^ 16 = readWord m (f.site base) / 2 ^ 16
  hi : ∀ h ∈ fss.flatten, h.kind = rMipsHi16 → ∃ a, Names fss h a
  lo : ∀ l ∈ fss.flatten, l.kind = rMipsLo16 → ∃ h, Names fss h l.address
  literal : ∀ h, ∀ l ∈ fss.flatten, l.kind = rMipsLo16 → Names fss h l.address →
    literal (readWord m' (h.site base)) (readWord m' (l.site base)) =
      add32 (literal (readWord m (h.site base)) (readWord m (l.site base))) base

/-- What the tool accepts, with its fixups at different words, the loader relocates exactly to any
word: every fixup is in the stream once, every word and literal comes out as it was linked plus the
base, a jump does exactly where the instruction after it and its target are in one region, and
nothing else changes. -/
theorem relocation_exact {image : List UInt8} {sections : List Section} {out : List Rel}
    (hout : Mkirx.readRelocations image sections = some out)
    (hfss : Mkirx.fixupsOf image sections = some fss) (hsites : AtWords fss)
    (hbase : base % 4 = 0) (hload : ∀ i < image.length, m (add32 base i) = image.getD i 0) :
    out.Perm (fss.flatten.map Fixup.entry) ∧
      Relocated base fss m (relocate base m (Mkirx.sectionTable out)) := by
  obtain ⟨fss', blocks, hfss', harranged, rfl, hlo⟩ := Mkirx.readRelocations_spec hout
  obtain rfl := Option.some.inj (hfss.symm.trans hfss')
  have hsep : Separate base fss.flatten := hsites.separate fun f hf => (of_fixupsOf hfss hf).1
  have hnodup : fss.flatten.Nodup := List.Nodup.of_map _ hsites.nodup
  -- the low halves as they are in the image that is loaded
  have hlow : ∀ l ∈ fss.flatten, l.kind = rMipsLo16 →
      readWord m (l.site base) % 2 ^ 16 = l.low := by
    intro l hl hkind
    obtain ⟨hin, hlow⟩ := (of_fixupsOf hfss hl).2 hkind
    exact low_of_loaded hbase hload (hsites.aligned l hl).1 hin hlow
  rw [relocate_sectionTable]
  -- the list of relocations, the words of no site, and each kind of site
  refine ⟨?_, ?_, ?_, ?_, ?_, harranged.hi, hlo, ?_⟩
  · have hentries : blocks.flatMap Block.entries =
        (blocks.flatMap Block.fixups).map Fixup.entry := List.map_flatMap.symm
    rw [hentries]
    exact harranged.perm.map _
  · intro a ha
    exact relocated_of_not hsep harranged ha
  · intro f hf hkind
    rw [readWord_of_plain hsep harranged hf (by rw [hkind]; decide), hkind]
    rfl
  · intro f hf hkind
    have hrebased : readWord (relocateSection base m (blocks.flatMap Block.entries)) (f.site base) =
        rebasedJump base (readWord m (f.site base)) := by
      rw [readWord_of_plain hsep harranged hf (by rw [hkind]; decide), hkind]
      rfl
    rw [hrebased]
    refine ⟨?_, jumpTarget_rebased hbase (jumpTarget_mod _ _)⟩
    unfold rebasedJump
    omega
  · intro f hf hkind
    rcases hkind with hkind | hkind
    · obtain ⟨l, -, -, -, hhigh⟩ := readWord_of_hi (m := m) hsep harranged hf hkind
      rw [hhigh, rebasedHigh]
      omega
    · rw [readWord_of_plain hsep harranged hf (by rw [hkind]; decide), hkind]
      show rebasedLow base _ / 2 ^ 16 = _
      unfold rebasedLow
      omega
  · intro h l hl hkind hnames
    exact literal_relocated hsep harranged hnodup hlow hnames hl hkind

/-- A module with a run of two `HI16`, a pointer and a jump. -/
def smallModule : List Section :=
  [⟨1, shfAlloc, 0, []⟩, ⟨shtRel, 0, 0, [⟨0, 0x105⟩, ⟨4, 0x105⟩, ⟨8, 0x106⟩, ⟨12, 0x106⟩,
    ⟨16, 0x102⟩, ⟨20, 0x104⟩]⟩]

/-- Its two literals are the same, with a low half that is negative. -/
def smallImage : List UInt8 :=
  [0x3C010002, 0x3C020002, 0x8C218004, 0x8C428004, 0x20, 0x08000004].flatMap wordBytes

/-- The small image in the memory. -/
def smallLoaded : Ram := write (fun _ => 0) 0x37FF0 smallImage

/-- The small image goes through `mkirx` and the loader, and every word comes out rebased. -/
theorem relocation_exact_small :
    ∃ out fss, Mkirx.readRelocations smallImage smallModule = some out ∧
      Mkirx.fixupsOf smallImage smallModule = some fss ∧
      out.Perm (fss.flatten.map Fixup.entry) ∧
      Relocated 0x37FF0 fss smallLoaded
        (relocate 0x37FF0 smallLoaded (Mkirx.sectionTable out)) := by
  have hload : ∀ i < smallImage.length, smallLoaded (add32 0x37FF0 i) = smallImage.getD i 0 := by
    decide +kernel
  obtain ⟨out, hout⟩ : ∃ out, Mkirx.readRelocations smallImage smallModule = some out :=
    ⟨[⟨0, 5⟩, ⟨8, 6⟩, ⟨4, 5⟩, ⟨12, 6⟩, ⟨16, 2⟩, ⟨20, 4⟩], by decide +kernel⟩
  obtain ⟨fss, hfss, hsites⟩ : ∃ fss, Mkirx.fixupsOf smallImage smallModule = some fss ∧
      AtWords fss :=
    ⟨[[⟨0, 5, 1, 2⟩, ⟨4, 5, 1, 2⟩, ⟨8, 6, 1, 0x8004⟩, ⟨12, 6, 1, 0x8004⟩, ⟨16, 2, 1, 0⟩,
      ⟨20, 4, 1, 0⟩]], by decide +kernel, by decide +kernel, by decide +kernel⟩
  exact ⟨out, fss, hout, hfss, relocation_exact hout hfss hsites (by decide) hload⟩

/-- A section of a module that has its fixups in the first. -/
def moduleOf (entries : List Rel) : List Section := [⟨1, shfAlloc, 0, []⟩, ⟨shtRel, 0, 0, entries⟩]

/-- Two fixups of one word move it by the base twice, and a jump over the end of a region goes to
the start of it. -/
theorem not_exact_everywhere :
    (∃ out, Mkirx.readRelocations [0, 0, 0, 0] (moduleOf [⟨0, 2⟩, ⟨0, 2⟩]) = some out ∧
      readWord (relocate 0x1000 (fun _ => 0) (Mkirx.sectionTable out)) 0x1000 = 0x2000) ∧
    ∃ out, Mkirx.readRelocations (wordBytes 0x08000004) (moduleOf [⟨0, 4⟩]) = some out ∧
      jumpTarget 0 0x08000004 + 0x0FFFFFF0 = 0x10000000 ∧
      jumpTarget 0x0FFFFFF0 (readWord (relocate 0x0FFFFFF0
        (write (fun _ => 0) 0x0FFFFFF0 (wordBytes 0x08000004)) (Mkirx.sectionTable out))
          0x0FFFFFF0) = 0 := by
  refine ⟨⟨[⟨0, 2⟩, ⟨0, 2⟩], ?_, ?_⟩, [⟨0, 4⟩], ?_, ?_, ?_⟩ <;> decide +kernel

end PS2Bios.Irx
