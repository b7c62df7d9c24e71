import PS2Bios.Intrman.Registers

/-!
# Enabling a line again

`places` says where the bits of a line stand. A call for one line is `Confined` to them: it leaves
the bits of every other line, apart from those all channels share, and acknowledges nothing. What
`disableIntr` stores through its out-parameter gives the line its bits back when it is passed to
`enableIntr` (`disable_then_enable`).
-/

namespace PS2Bios.Intrman

/-- A bit of one of the registers. -/
inductive Place
  | iMask (index : ℕ)
  | dicr (index : ℕ)
  | dicr2 (index : ℕ)
deriving DecidableEq, Repr

/-- The bit at a place. -/
def Registers.bit (r : Registers) : Place → Bool
  | .iMask index => r.iMask.getLsbD index
  | .dicr index => r.dicr.getLsbD index
  | .dicr2 index => r.dicr2.getLsbD index

/-- The enable of a line, if there is such a line. -/
def enablePlace (line : ℕ) : Option Place :=
  if line < kDmaFirst then some (.iMask line)
  else if line < kDmaSecondBank - 1 then some (.dicr (16 + (line - kDmaFirst)))
  else if kDmaSecondBank ≤ line ∧ line < kLines then some (.dicr2 (16 + (line - kDmaSecondBank)))
  else none

/-- The low bits of a line: a channel of the first bank has one in each register. -/
def lowPlaces (line : ℕ) : List Place :=
  if line < kDmaFirst then []
  else if line < kDmaSecondBank - 1 then [.dicr (line - kDmaFirst), .dicr2 (line - kDmaFirst)]
  else if kDmaSecondBank ≤ line ∧ line < kLines then [.dicr2 (line - kDmaSecondBank + 7)]
  else []

/-- The places of a line: the one that enables it, and the low bits its flags ask for. -/
def places (line : ℕ) : List Place := (enablePlace line).toList ++ lowPlaces line

/-- The place that enables the line is set. -/
def Registers.Enabled (r : Registers) (line : ℕ) : Prop := ∃ p ∈ enablePlace line, r.bit p = true

/-- What all the channels share: the master enable and the DMA line. -/
def shared : List Place := [.dicr 23, .iMask kDmaLine]

/-- What a call for `line` opens besides it. -/
def openedBy (line : ℕ) : List Place := if line < kDmaFirst then [] else shared

/-- Of the bits of other lines only those in `opened` may change, by being set, and every flag is
as it was. -/
structure Confined (line : ℕ) (opened : List Place) (r r' : Registers) : Prop where
  others : ∀ other, other ≠ line → ∀ p ∈ places other, p ∉ opened → r'.bit p = r.bit p
  opens : ∀ p ∈ opened, r'.bit p = true
  pending : ∀ i, 24 ≤ i →
    r'.dicr.getLsbD i = r.dicr.getLsbD i ∧ r'.dicr2.getLsbD i = r.dicr2.getLsbD i

/-- A line is closed in `r₁` and has its bits back in `r₂`; on the way no other line is touched and
no flag acknowledged. -/
structure Restored (line : ℕ) (r r₁ r₂ : Registers) : Prop where
  closed : ¬r₁.Enabled line
  bits : ∀ p ∈ places line, r₂.bit p = r.bit p
  closing : Confined line [] r r₁
  opening : Confined line (openedBy line) r₁ r₂

/-! ### The three ranges of lines -/

variable {r r' : Registers} {arg : Word} {line other channel : ℕ} {p : Place}

theorem places_low (h : line < kDmaFirst) : places line = [.iMask line] := by
  simp only [places, enablePlace, lowPlaces, h, if_true, Option.toList_some, List.append_nil]

/-- The places of a channel of the first bank. -/
theorem places_first (hc : channel < 7) : places (kDmaFirst + channel) =
    [.dicr (16 + channel), .dicr channel, .dicr2 channel] := by
  have hlow : ¬ kDmaFirst + channel < kDmaFirst := by omega
  have hfirst : kDmaFirst + channel < kDmaSecondBank - 1 := by
    simp only [kDmaSecondBank, kDmaFirst]
    omega
  simp only [places, enablePlace, lowPlaces, hlow, hfirst, if_true, if_false, Option.toList_some,
    Nat.add_sub_cancel_left, List.cons_append, List.nil_append]

/-- The places of a channel of the second bank. -/
theorem places_second (hc : channel < 6) : places (kDmaSecondBank + channel) =
    [.dicr2 (16 + channel), .dicr2 (channel + 7)] := by
  have hlow : ¬ kDmaSecondBank + channel < kDmaFirst := by
    simp only [kDmaSecondBank, kDmaFirst]
    omega
  have hfirst : ¬ kDmaSecondBank + channel < kDmaSecondBank - 1 := by omega
  have hsecond : kDmaSecondBank ≤ kDmaSecondBank + channel ∧
      kDmaSecondBank + channel < kLines := by
    simp only [kDmaSecondBank, kLines]
    omega
  simp only [places, enablePlace, lowPlaces, hlow, hfirst, hsecond, if_true, if_false, and_self,
    Option.toList_some, Nat.add_sub_cancel_left, List.cons_append, List.nil_append]

/-- A line with a bit is in one of the three ranges. -/
inductive InRange : ℕ → Prop
  | low {line : ℕ} (h : line < kDmaFirst) : InRange line
  | first {channel : ℕ} (h : channel < 7) : InRange (kDmaFirst + channel)
  | second {channel : ℕ} (h : channel < 6) : InRange (kDmaSecondBank + channel)

/-- A line that has a place is one there is. -/
theorem inRange_of_mem (h : p ∈ places line) : InRange line := by
  by_cases hlow : line < kDmaFirst
  · exact .low hlow
  by_cases hfirst : line < kDmaSecondBank - 1
  · obtain ⟨channel, rfl⟩ := Nat.exists_eq_add_of_le (Nat.le_of_not_lt hlow)
    refine .first ?_
    simp only [kDmaSecondBank, kDmaFirst] at hfirst
    omega
  by_cases hsecond : kDmaSecondBank ≤ line ∧ line < kLines
  · obtain ⟨channel, rfl⟩ := Nat.exists_eq_add_of_le hsecond.1
    refine .second ?_
    have hlines := hsecond.2
    simp only [kDmaSecondBank, kLines] at hlines
    omega
  simp [places, enablePlace, lowPlaces, hlow, hfirst, hsecond] at h

/-- Two lines share no bit. -/
theorem notMem_places (h : p ∈ places line) (hne : other ≠ line) : p ∉ places other := by
  intro hother
  have hrange : kDmaFirst = 0x20 ∧ kDmaSecondBank = 0x28 := ⟨rfl, rfl⟩
  cases inRange_of_mem h with
  | low hl =>
    rw [places_low hl, List.mem_singleton] at h
    subst h
    cases inRange_of_mem hother with
    | low ho => simp [places_low ho, hne.symm] at hother
    | first ho => simp [places_first ho] at hother
    | second ho => simp [places_second ho] at hother
  | first hl =>
    rw [places_first hl] at h
    cases inRange_of_mem hother with
    | low ho => simp only [places_low ho, List.mem_cons, List.not_mem_nil] at hother; grind
    | first ho => simp only [places_first ho, List.mem_cons, List.not_mem_nil] at hother h; grind
    | second ho => simp only [places_second ho, List.mem_cons, List.not_mem_nil] at hother h; grind
  | second hl =>
    rw [places_second hl] at h
    cases inRange_of_mem hother with
    | low ho => simp only [places_low ho, List.mem_cons, List.not_mem_nil] at hother; grind
    | first ho => simp only [places_first ho, List.mem_cons, List.not_mem_nil] at hother h; grind
    | second ho => simp only [places_second ho, List.mem_cons, List.not_mem_nil] at hother h; grind

/-- A flag is no bit of a line. -/
theorem flag_notMem_places {i : ℕ} (hi : 24 ≤ i) :
    Place.dicr i ∉ places line ∧ Place.dicr2 i ∉ places line := by
  constructor <;> intro h
  all_goals cases inRange_of_mem h with
  | low hl => simp [places_low hl] at h
  | first hl => simp only [places_first hl, List.mem_cons, List.not_mem_nil] at h; grind
  | second hl => simp only [places_second hl, List.mem_cons, List.not_mem_nil] at h; grind

/-- Leaving everything outside the line's own bits is enough. -/
theorem Confined.of_frame {opened : List Place} (hopened : ∀ p ∈ opened, p ∈ shared)
    (hframe : ∀ p, p ∉ places line → p ∉ opened → r'.bit p = r.bit p)
    (hopens : ∀ p ∈ opened, r'.bit p = true) : Confined line opened r r' where
  others other hne p hp hout := hframe p (notMem_places hp hne.symm) hout
  opens := hopens
  pending i hi := by
    have hout : ∀ p ∈ opened, p ≠ .dicr i ∧ p ≠ .dicr2 i := fun p hp => by
      have hp := hopened p hp
      simp only [shared, List.mem_cons, List.not_mem_nil, or_false] at hp
      rcases hp with rfl | rfl
      · exact ⟨fun h => by injection h; omega, nofun⟩
      · exact ⟨nofun, nofun⟩
    exact ⟨hframe (.dicr i) (flag_notMem_places hi).1 fun h => (hout _ h).1 rfl,
      hframe (.dicr2 i) (flag_notMem_places hi).2 fun h => (hout _ h).2 rfl⟩

/-! ### Disabling a line and enabling it again -/

theorem enabled_low (h : line < kDmaFirst) : r.Enabled line ↔ r.iMask.getLsbD line = true := by
  simp [Registers.Enabled, enablePlace, h, Registers.bit]

theorem getLsbD_line {x : Word} {k i : ℕ} (hk : k < 32) :
    (x ||| BitVec.twoPow 32 k).getLsbD i = (x.getLsbD i || decide (i = k)) := by
  rw [BitVec.getLsbD_or, Latch.getLsbD_twoPow hk]

/-- An ordinary line that is disabled and enabled by its token is as it was. -/
theorem restored_low {old : Word} (hl : lineOf arg < kDmaFirst) (h : r.Enabled (lineOf arg)) :
    ∃ restore r₁ r₂, disableIntr arg (some old) r = (kOk, some restore, r₁) ∧
      enableIntr restore r₁ = (kOk, r₂) ∧
      Restored (lineOf arg) r r₁ r₂ := by
  have hset := (enabled_low hl).mp h
  have hlt : lineOf arg < 32 := hl
  obtain ⟨hline, -, -⟩ := token_reads (Nat.lt_trans hl (by decide)) false false
  have hrestore : enableIntr (token (lineOf arg) false false)
      (r.writeIntMask (r.iMask &&& ~~~BitVec.twoPow 32 (lineOf arg))) = _ :=
    enableIntr_low (by rw [hline]; exact hl)
  rw [hline] at hrestore
  refine ⟨_, _, _, disableIntr_low hl hset, hrestore, ?_, ?_, ?_, ?_⟩
  · rw [enabled_low hl]
    show ¬(r.iMask &&& ~~~BitVec.twoPow 32 (lineOf arg)).getLsbD (lineOf arg) = true
    rw [BitVec.getLsbD_and, BitVec.getLsbD_not, Latch.getLsbD_twoPow hlt, decide_eq_true rfl,
      Bool.not_true, Bool.and_false, Bool.and_false]
    exact Bool.false_ne_true
  · rw [places_low hl]
    intro p hp
    rw [List.mem_singleton.mp hp]
    refine (getLsbD_line hlt).trans ?_
    rw [decide_eq_true rfl, Bool.or_true]
    exact hset.symm
  -- off, no other line is written
  · refine .of_frame (by simp) (fun p hp _ => ?_) (by simp)
    rw [places_low hl, List.mem_singleton] at hp
    cases p with
    | iMask i =>
      have hi : i ≠ lineOf arg := fun h => hp (h ▸ rfl)
      refine (BitVec.getLsbD_and ..).trans ?_
      rcases Nat.lt_or_ge i 32 with hi32 | hi32
      · rw [BitVec.getLsbD_not, Latch.getLsbD_twoPow hlt, decide_eq_false hi, decide_eq_true hi32]
        exact Bool.and_true _
      · rw [BitVec.getLsbD_of_ge _ _ hi32, Bool.false_and]
        exact (BitVec.getLsbD_of_ge _ _ hi32).symm
    | dicr i => rfl
    | dicr2 i => rfl
  · rw [openedBy, if_pos hl]
    refine .of_frame (by simp) (fun p hp _ => ?_) (by simp)
    rw [places_low hl, List.mem_singleton] at hp
    cases p with
    | iMask i =>
      have hi : i ≠ lineOf arg := fun h => hp (h ▸ rfl)
      refine (getLsbD_line hlt).trans ?_
      rw [decide_eq_false hi, Bool.or_false]
      rfl
    | dicr i => rfl
    | dicr2 i => rfl

/-- A channel of the first bank is enabled by its bit of DICR. -/
theorem enabled_first (hc : channel < 7) :
    r.Enabled (kDmaFirst + channel) ↔ r.dicr.getLsbD (16 + channel) = true := by
  have hlow : ¬ kDmaFirst + channel < kDmaFirst := by omega
  have hfirst : kDmaFirst + channel < kDmaSecondBank - 1 := by
    simp only [kDmaSecondBank, kDmaFirst]
    omega
  simp [Registers.Enabled, enablePlace, hlow, hfirst, Registers.bit]

theorem openedBy_dma (h : kDmaFirst ≤ line) : openedBy line = shared :=
  if_neg (Nat.not_lt.mpr h)

/-- A channel of the first bank that is disabled and enabled by its token is as it was. -/
theorem restored_first {old : Word} (hl : lineOf arg = kDmaFirst + channel) (hc : channel < 7)
    (h : r.Enabled (lineOf arg)) :
    ∃ restore r₁ r₂, disableIntr arg (some old) r = (kOk, some restore, r₁) ∧
      enableIntr restore r₁ = (kOk, r₂) ∧
      Restored (lineOf arg) r r₁ r₂ := by
  have hset := (enabled_first hc).mp (hl ▸ h)
  obtain ⟨r₁, hdisable, hdicr₁, hdicr2₁, hmask₁⟩ :=
    disableIntr_first (some old) hl hc hset
  -- the token tells the line and the two flags of the channel
  obtain ⟨hline, hflag, hflag2⟩ := token_reads
    (show lineOf arg < kLines by rw [hl]; simp only [kDmaFirst, kLines]; omega)
    (r.dicr.getLsbD channel) (r.dicr2.getLsbD channel)
  obtain ⟨r₂, henable, hdicr₂, hdicr2₂, hmask₂⟩ := enableIntr_first (r := r₁) (hline.trans hl) hc
  simp only [hflag] at hdicr₂
  simp only [hflag2] at hdicr2₂
  refine ⟨_, r₁, r₂, hdisable, henable, ?_, ?_, ?_, ?_⟩
  · rw [hl, enabled_first hc, hdicr₁]
    simp
  · rw [hl, places_first hc]
    simp only [List.mem_cons, List.not_mem_nil, or_false, forall_eq_or_imp, forall_eq,
      Registers.bit, hdicr₂, hdicr2₂, hdicr₁, hdicr2₁, hset]
    refine ⟨by simp, ?_, by simp⟩
    have h23 : channel ≠ 23 := by omega
    simp [h23]
  · rw [hl]
    refine .of_frame (by simp) (fun p hp _ => ?_) (by simp)
    simp only [places_first hc, List.mem_cons, List.not_mem_nil, or_false, not_or] at hp
    -- off, the line is the only one that is written
    cases p with
    | iMask i => exact congrArg (·.getLsbD i) hmask₁
    | dicr i =>
      have hi : i ≠ 16 + channel := fun h => hp.1 (h ▸ rfl)
      simp [Registers.bit, hdicr₁, hi]
    | dicr2 i => exact congrArg (·.getLsbD i) hdicr2₁
  · rw [hl, openedBy_dma (Nat.le_add_right _ _)]
    -- on again, only what is shared and its own bits are
    refine .of_frame (fun _ => id) (fun p hp hout => ?_) ?_
    · simp only [places_first hc, List.mem_cons, List.not_mem_nil, or_false, not_or] at hp
      simp only [shared, List.mem_cons, List.not_mem_nil, or_false, not_or] at hout
      cases p with
      | iMask i =>
        have hi : i ≠ kDmaLine := fun h => hout.2 (h ▸ rfl)
        simp only [Registers.bit, hmask₂, getLsbD_line (show kDmaLine < 32 by decide),
          decide_eq_false hi, Bool.or_false]
      | dicr i =>
        have hi : i ≠ 16 + channel := fun h => hp.1 (h ▸ rfl)
        have hic : i ≠ channel := fun h => hp.2.1 (h ▸ rfl)
        have hi23 : i ≠ 23 := fun h => hout.1 (h ▸ rfl)
        simp [Registers.bit, hdicr₂, hi, hic, hi23]
      | dicr2 i =>
        have hic : i ≠ channel := fun h => hp.2.2 (h ▸ rfl)
        simp [Registers.bit, hdicr2₂, hic]
    · simp only [shared, List.mem_cons, List.not_mem_nil, or_false, forall_eq_or_imp, forall_eq,
        Registers.bit, hdicr₂, hmask₂, getLsbD_line (show kDmaLine < 32 by decide)]
      simp

/-- A channel of the second bank is enabled by its bit of DICR2. -/
theorem enabled_second (hc : channel < 6) :
    r.Enabled (kDmaSecondBank + channel) ↔ r.dicr2.getLsbD (16 + channel) = true := by
  have hlow : ¬ kDmaSecondBank + channel < kDmaFirst := by
    simp only [kDmaSecondBank, kDmaFirst]
    omega
  have hfirst : ¬ kDmaSecondBank + channel < kDmaSecondBank - 1 := by omega
  have hsecond : kDmaSecondBank ≤ kDmaSecondBank + channel ∧
      kDmaSecondBank + channel < kLines := by
    simp only [kDmaSecondBank, kLines]
    omega
  simp [Registers.Enabled, enablePlace, hlow, hfirst, hsecond, Registers.bit]

/-- A channel of the second bank that is disabled and enabled by its token is as it was. -/
theorem restored_second {old : Word} (hl : lineOf arg = kDmaSecondBank + channel)
    (hc : channel < 6) (h : r.Enabled (lineOf arg)) :
    ∃ restore r₁ r₂, disableIntr arg (some old) r = (kOk, some restore, r₁) ∧
      enableIntr restore r₁ = (kOk, r₂) ∧
      Restored (lineOf arg) r r₁ r₂ := by
  have hset := (enabled_second hc).mp (hl ▸ h)
  obtain ⟨r₁, hdisable, hdicr₁, hdicr2₁, hmask₁⟩ :=
    disableIntr_second (some old) hl hc hset
  obtain ⟨hline, -, hflag2⟩ := token_reads
    (show lineOf arg < kLines by rw [hl]; simp only [kDmaSecondBank, kLines]; omega) false
    (r.dicr2.getLsbD (channel + 7))
  obtain ⟨r₂, henable, hdicr₂, hdicr2₂, hmask₂⟩ := enableIntr_second (r := r₁) (hline.trans hl) hc
  simp only [hflag2] at hdicr2₂
  refine ⟨_, r₁, r₂, hdisable, henable, ?_, ?_, ?_, ?_⟩
  · rw [hl, enabled_second hc, hdicr2₁]
    simp
  · rw [hl, places_second hc]
    simp only [List.mem_cons, List.not_mem_nil, or_false, forall_eq_or_imp, forall_eq,
      Registers.bit, hdicr2₂, hdicr2₁, hset]
    have hne : channel + 7 ≠ 16 + channel := by omega
    simp [hne]
  -- off, the line is the only one that is written
  · rw [hl]
    refine .of_frame (by simp) (fun p hp _ => ?_) (by simp)
    simp only [places_second hc, List.mem_cons, List.not_mem_nil, or_false, not_or] at hp
    cases p with
    | iMask i => exact congrArg (·.getLsbD i) hmask₁
    | dicr i => exact congrArg (·.getLsbD i) hdicr₁
    | dicr2 i =>
      have hi : i ≠ 16 + channel := fun h => hp.1 (h ▸ rfl)
      simp [Registers.bit, hdicr2₁, hi]
  -- on again, only what is shared and its own bits are
  · rw [hl, openedBy_dma (by simp only [kDmaSecondBank, kDmaFirst]; omega)]
    refine .of_frame (fun _ => id) (fun p hp hout => ?_) ?_
    · simp only [places_second hc, List.mem_cons, List.not_mem_nil, or_false, not_or] at hp
      simp only [shared, List.mem_cons, List.not_mem_nil, or_false, not_or] at hout
      cases p with
      | iMask i =>
        have hi : i ≠ kDmaLine := fun h => hout.2 (h ▸ rfl)
        simp only [Registers.bit, hmask₂, getLsbD_line (show kDmaLine < 32 by decide),
          decide_eq_false hi, Bool.or_false]
      | dicr i =>
        have hi23 : i ≠ 23 := fun h => hout.1 (h ▸ rfl)
        simp [Registers.bit, hdicr₂, hi23]
      | dicr2 i =>
        have hi : i ≠ 16 + channel := fun h => hp.1 (h ▸ rfl)
        have hic : i ≠ channel + 7 := fun h => hp.2 (h ▸ rfl)
        simp [Registers.bit, hdicr2₂, hi, hic]
    · simp only [shared, List.mem_cons, List.not_mem_nil, or_false, forall_eq_or_imp, forall_eq,
        Registers.bit, hdicr₂, hmask₂, getLsbD_line (show kDmaLine < 32 by decide)]
      simp

theorem inRange_of_enabled (h : r.Enabled line) : InRange line := by
  obtain ⟨p, hp, -⟩ := h
  refine inRange_of_mem (p := p) ?_
  rw [places, Option.mem_def.mp hp]
  exact List.mem_cons_self

/-- Disabling an enabled line closes it, and what that stores gives it back its bits when it is
enabled with it; neither call touches another line or acknowledges a flag. -/
theorem disable_then_enable (old : Word) (h : r.Enabled (lineOf arg)) :
    ∃ restore r₁ r₂, disableIntr arg (some old) r = (kOk, some restore, r₁) ∧
      enableIntr restore r₁ = (kOk, r₂) ∧
      Restored (lineOf arg) r r₁ r₂ := by
  generalize hl : lineOf arg = line at *
  cases inRange_of_enabled h with
  | low hlow => exact hl ▸ restored_low (hl ▸ hlow) (hl ▸ h)
  | first hc => exact hl ▸ restored_first hl hc (hl ▸ h)
  | second hc => exact hl ▸ restored_second hl hc (hl ▸ h)

/-- Line `0x2B` is `SIFCMD`'s: it is enabled with its low bit, `0x200` in the argument. -/
theorem sif1_disable_then_enable : ∃ restore r₁ r₂,
    disableIntr 0x2B (some 0) ⟨8, 0x00800000, 0x00080400⟩ = (kOk, some restore, r₁) ∧
      enableIntr restore r₁ = (kOk, r₂) ∧
      Restored (lineOf 0x2B) ⟨8, 0x00800000, 0x00080400⟩ r₁ r₂ :=
  disable_then_enable 0 ⟨.dicr2 19, by decide, by decide⟩

end PS2Bios.Intrman
