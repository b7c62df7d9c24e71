import PS2Bios.Intrman.Dispatch

/-!
# What one dispatch serves

Every walk of a bank acknowledges the flags that were set and open when it read the register, each
by a write that leaves everything else (`Acknowledges`), and calls the channel's handler once after
it (`Walked`). The force bit goes the same way, with no flag acknowledged (`ForceServed`). A
dispatch goes such rounds as long as anything is pending (`Rounds`), and when nothing is any more
the pulse of the master enable (`Pulsed`).

What a handler does to a bit is either set it or clear it, whatever the others are
(`Action.effect`). So the enables and low bits end up as the handlers alone would have left them
(`HandlersOnly`).
-/

namespace PS2Bios.Intrman

namespace Bank

/-- The channels of a bank. -/
def channels : Bank → ℕ
  | .first => 7
  | .second => 6

/-- The line of a bank's first channel. -/
def firstIrq : Bank → ℕ
  | .first => kDmaFirst
  | .second => kDmaSecondBank

/-- The flag of a channel. -/
def flag : Bank → ℕ → Place
  | .first, channel => .dicr (24 + channel)
  | .second, channel => .dicr2 (24 + channel)

end Bank

/-- The channels whose flags are set and open. -/
def openChannels (bank : Bank) (value gate : Word) : List ℕ :=
  (List.range bank.channels).filter fun channel => (value &&& gate).getLsbD (24 + channel)

namespace Machine

/-- The channels of a bank whose flags are set and open as things are. -/
def openChannels (m : Machine) (bank : Bank) : List ℕ :=
  Intrman.openChannels bank (m.regs.bank bank) (m.bank_dispatch_mask bank)

/-- The force bit is set, and its gate is open. -/
def Forced (m : Machine) : Prop :=
  (m.regs.dicr &&& m.bank_dispatch_mask .first).getLsbD 15 = true

/-- There is something to serve. -/
def Pending (m : Machine) : Prop := (∃ bank, m.openChannels bank ≠ []) ∨ m.Forced

/-- The loop has looked for anything pending. -/
def polled (m : Machine) : Machine :=
  m.log (.poll m.regs (m.bank_dispatch_mask .first) (m.bank_dispatch_mask .second))

/-- A walk has read its bank's register. -/
def read (m : Machine) (bank : Bank) : Machine :=
  m.log (.read bank (m.regs.bank bank) (m.bank_dispatch_mask bank))

end Machine

/-- Bit 31, which is no channel's. -/
def masterFlags : List Place := [.dicr 31, .dicr2 31]

/-- Clears the flag of one channel, which was set, and no other bit. -/
structure Acknowledges (bank : Bank) (channel : ℕ) (before after : Registers) : Prop where
  pending : before.bit (bank.flag channel) = true
  cleared : after.bit (bank.flag channel) = false
  others : ∀ p, p ≠ bank.flag channel → p ∉ masterFlags → after.bit p = before.bit p

/-- Changes one bit of `DICR`, which is no flag, and no other bit. -/
structure Sets (index : ℕ) (value : Bool) (before after : Registers) : Prop where
  set : after.bit (.dicr index) = value
  others : ∀ p, p ≠ .dicr index → after.bit p = before.bit p

/-- A walk that serves these channels, in order: the flag of each is acknowledged, and then the
channel's handler is called, if it has one. -/
inductive Walked (h : Handlers) (bank : Bank) : List ℕ → Machine → Machine → Prop
  | nil (m : Machine) : Walked h bank [] m m
  | cons {m m' : Machine} {channel : ℕ} {channels : List ℕ} {value : Word}
      (hchannel : channel < bank.channels)
      (hack : Acknowledges bank channel m.regs (m.write bank value).regs)
      (hrest : Walked h bank channels
        (callRegistered h (bank.firstIrq + channel) (m.write bank value)) m') :
      Walked h bank (channel :: channels) m m'

/-- What is done about the force bit. -/
inductive ForceServed (h : Handlers) (m : Machine) : Machine → Prop
  | clear (hclear : ¬m.Forced) : ForceServed h m m
  | forced {value : Word} (hforced : m.Forced)
      (hsets : Sets 15 false m.regs (m.write .first value).regs) :
      ForceServed h m (callRegistered h kDmaForceIrq (m.write .first value))

/-- One round: the force bit, and the channels of each bank that are set and open when its walk
reads its register. -/
inductive Round (h : Handlers) (m m' : Machine) : Prop
  | round {m₁ m₂ : Machine} (hforce : ForceServed h m.polled m₁)
      (hfirst : Walked h .first (m₁.openChannels .first) (m₁.read .first) m₂)
      (hsecond : Walked h .second (m₂.openChannels .second) (m₂.read .second) m')

/-- So many rounds, each because something was pending. -/
inductive Rounds (h : Handlers) : ℕ → Machine → Machine → Prop
  | nil (m : Machine) : Rounds h 0 m m
  | cons {n : ℕ} {m m₁ m' : Machine} (hpending : m.Pending) (hround : Round h m m₁)
      (hrest : Rounds h n m₁ m') : Rounds h (n + 1) m m'

/-- The pulse of the master enable. -/
inductive Pulsed (m : Machine) : Machine → Prop
  | pulse {value value' : Word} (hclear : Sets 23 false m.regs (m.write .first value).regs)
      (hset : Sets 23 true (m.write .first value).regs
        ((m.write .first value).write .first value').regs) :
      Pulsed m ((m.write .first value).write .first value')

/-- The bits of the lines. -/
def Configures (p : Place) : Prop := ∃ line, p ∈ places line

/-- What the handlers called in between would have made of the registers alone. -/
def handlersAlone (h : Handlers) (start stop : ℕ) (r : Registers) : Registers :=
  ((List.range' start (stop - start)).flatMap h.body).foldl Action.onRegisters r

/-- The enables and low bits change by the handlers' calls only. -/
structure HandlersOnly (h : Handlers) (m m' : Machine) : Prop where
  calls : m.calls ≤ m'.calls
  config : ∀ p, Configures p →
    m'.regs.bit p = (handlersAlone h m.calls m'.calls m.regs).bit p

variable {h : Handlers} {m m' m'' : Machine} {r r' : Registers} {bank : Bank} {p : Place}
  {channel i : ℕ} {arg value gate : Word} {a : Action}

/-! ### What an action does to a bit -/

/-- A line is an ordinary one, a channel of either bank, or none there is. -/
theorem line_cases (line : ℕ) : line < kDmaFirst ∨ (∃ channel < 7, line = kDmaFirst + channel) ∨
    (∃ channel < 6, line = kDmaSecondBank + channel) ∨
    ¬ (line < kDmaFirst) ∧ ¬ (line < kDmaSecondBank - 1) ∧
      ¬ (kDmaSecondBank ≤ line ∧ line < kLines) := by
  have hrange : kDmaFirst = 0x20 ∧ kDmaSecondBank = 0x28 ∧ kLines = 0x2E := ⟨rfl, rfl, rfl⟩
  obtain ⟨h1, h2, h3⟩ := hrange
  rw [h1, h2, h3]
  by_cases hfirst : 0x20 ≤ line ∧ line < 0x27
  · exact .inr (.inl ⟨line - 0x20, by omega, by omega⟩)
  by_cases hsecond : 0x28 ≤ line ∧ line < 0x2E
  · exact .inr (.inr (.inl ⟨line - 0x28, by omega, by omega⟩))
  omega

/-- An action sets some bits and clears others, whatever the registers hold. -/
def Effect (f : Registers → Registers) (set clear : Place → Bool) : Prop :=
  ∀ r p, (f r).bit p = (set p || !clear p && r.bit p)

/-- No flag is among them. -/
def Configuring (clear : Place → Bool) : Prop :=
  ∀ i, 24 ≤ i → clear (.dicr i) = false ∧ clear (.dicr2 i) = false

/-- Enabling sets and clears what the line and its flags name, and acknowledges nothing. -/
theorem enableIntr_effect (arg : Word) : ∃ set clear,
    Effect (fun r => (enableIntr arg r).2) set clear ∧ Configuring clear := by
  -- an ordinary line, one of either bank, or none at all
  rcases line_cases (lineOf arg) with hl | ⟨c, hc, hl⟩ | ⟨c, hc, hl⟩ | ⟨h1, h2, h3⟩
  · refine ⟨fun p => decide (p = .iMask (lineOf arg)), fun _ => false, fun r p => ?_,
      by simp [Configuring]⟩
    dsimp only
    rw [enableIntr_low hl]
    cases p with
    | iMask i =>
      refine (getLsbD_line (k := lineOf arg) (show lineOf arg < 32 from hl)).trans ?_
      simp [Bool.or_comm, Registers.bit]
    | dicr i => simp [Registers.bit, Registers.writeIntMask]
    | dicr2 i => simp [Registers.bit, Registers.writeIntMask]
  · refine ⟨fun p => decide (p = .iMask kDmaLine ∨ p = .dicr (16 + c) ∨ p = .dicr 23 ∨
        (arg &&& ~~~kLineMask &&& kFlagDicr ≠ 0 ∧ p = .dicr c) ∨
        (arg &&& ~~~kLineMask &&& kFlagDicr2 ≠ 0 ∧ p = .dicr2 c)),
      fun p => decide (p = .dicr c ∨ p = .dicr2 c), fun r p => ?_, fun i hi => ?_⟩
    · obtain ⟨r', heq, hdicr, hdicr2, hmask⟩ := enableIntr_first (r := r) hl hc
      dsimp only
      rw [heq]
      cases p with
      | iMask i =>
        simp [Registers.bit, hmask, getLsbD_line (show kDmaLine < 32 by decide), Bool.or_comm,
          -BitVec.getLsbD_or]
      | dicr i => simp [Registers.bit, hdicr, Bool.or_assoc]
      | dicr2 i => simp [Registers.bit, hdicr2]
    · simp only [Place.dicr.injEq, Place.dicr2.injEq, reduceCtorEq, or_false, false_or,
        decide_eq_false_iff_not]
      omega
  · refine ⟨fun p => decide (p = .iMask kDmaLine ∨ p = .dicr 23 ∨ p = .dicr2 (16 + c) ∨
        (arg &&& ~~~kLineMask &&& kFlagDicr2 ≠ 0 ∧ p = .dicr2 (c + 7))),
      fun p => decide (p = .dicr2 (c + 7)), fun r p => ?_, fun i hi => ?_⟩
    · obtain ⟨r', heq, hdicr, hdicr2, hmask⟩ := enableIntr_second (r := r) hl hc
      dsimp only
      rw [heq]
      cases p with
      | iMask i =>
        simp [Registers.bit, hmask, getLsbD_line (show kDmaLine < 32 by decide), Bool.or_comm,
          -BitVec.getLsbD_or]
      | dicr i => simp [Registers.bit, hdicr]
      | dicr2 i => simp [Registers.bit, hdicr2]
    · simp only [Place.dicr2.injEq, reduceCtorEq, decide_eq_false_iff_not, not_false_eq_true,
        true_and]
      omega
  · refine ⟨fun _ => false, fun _ => false, fun r p => ?_, by simp [Configuring]⟩
    simp [enableIntr, h1, h2, h3]

/-- Disabling a line clears its enable, which may be clear already. -/
theorem disableIntr_effect (arg : Word) : ∃ set clear,
    Effect (fun r => (disableIntr arg none r).2.2) set clear ∧ Configuring clear := by
  -- an ordinary line, one of either bank, or none at all
  rcases line_cases (lineOf arg) with hl | ⟨c, hc, hl⟩ | ⟨c, hc, hl⟩ | ⟨h1, h2, h3⟩
  · refine ⟨fun _ => false, fun p => decide (p = .iMask (lineOf arg)), fun r p => ?_,
      by simp [Configuring]⟩
    have hregs : (disableIntr arg none r).2.2 =
        r.writeIntMask (r.iMask &&& ~~~BitVec.twoPow 32 (lineOf arg)) := by
      simp only [disableIntr, hl, if_true]
      split <;> rfl
    dsimp only
    rw [hregs]
    cases p with
    | iMask i =>
      refine (BitVec.getLsbD_and ..).trans ?_
      rw [BitVec.getLsbD_not, Latch.getLsbD_twoPow (show lineOf arg < 32 from hl)]
      rcases Nat.lt_or_ge i 32 with hi | hi
      · simp [hi, Registers.bit, Bool.and_comm, -BitVec.getLsbD_eq_getElem]
      · simp [Registers.bit, BitVec.getLsbD_of_ge _ _ hi]
    | dicr i => simp [Registers.bit, Registers.writeIntMask]
    | dicr2 i => simp [Registers.bit, Registers.writeIntMask]
  · refine ⟨fun _ => false, fun p => decide (p = .dicr (16 + c)), fun r p => ?_, fun i hi => ?_⟩
    · cases hset : r.dicr.getLsbD (16 + c) with
      | true =>
        obtain ⟨r', heq, hdicr, hdicr2, hmask⟩ := disableIntr_first none hl hc hset
        dsimp only
        rw [heq]
        cases p with
        | iMask i => simp [Registers.bit, hmask]
        | dicr i => simp [Registers.bit, hdicr]
        | dicr2 i => simp [Registers.bit, hdicr2]
      | false =>
        dsimp only
        rw [disableIntr_first_off hl hc hset]
        cases p with
        | iMask i => simp
        | dicr i =>
          rcases eq_or_ne i (16 + c) with rfl | hi
          · simpa [Registers.bit] using hset
          · simp [hi]
        | dicr2 i => simp
    · simp only [Place.dicr.injEq, reduceCtorEq, decide_eq_false_iff_not, not_false_eq_true,
        and_true]
      omega
  · refine ⟨fun _ => false, fun p => decide (p = .dicr2 (16 + c)), fun r p => ?_, fun i hi => ?_⟩
    · cases hset : r.dicr2.getLsbD (16 + c) with
      | true =>
        obtain ⟨r', heq, hdicr, hdicr2, hmask⟩ := disableIntr_second none hl hc hset
        dsimp only
        rw [heq]
        cases p with
        | iMask i => simp [Registers.bit, hmask]
        | dicr i => simp [Registers.bit, hdicr]
        | dicr2 i => simp [Registers.bit, hdicr2]
      | false =>
        dsimp only
        rw [disableIntr_second_off hl hc hset]
        cases p with
        | iMask i => simp
        | dicr i => simp
        | dicr2 i =>
          rcases eq_or_ne i (16 + c) with rfl | hi
          · simpa [Registers.bit] using hset
          · simp [hi]
    · simp only [Place.dicr2.injEq, reduceCtorEq, decide_eq_false_iff_not, not_false_eq_true,
        true_and]
      omega
  · refine ⟨fun _ => false, fun _ => false, fun r p => ?_, by simp [Configuring]⟩
    simp [disableIntr, h1, h2, h3]

/-- What `raise` sets. -/
def raised (flags flags2 : Word) : Place → Bool
  | .iMask _ => false
  | .dicr i => (flags &&& (kDicrFlags ||| kDmaForce)).getLsbD i
  | .dicr2 i => (flags2 &&& kDicrFlags).getLsbD i

/-- Every action is of that kind. -/
theorem Action.effect (a : Action) : ∃ set clear,
    Effect (fun r => a.onRegisters r) set clear ∧ Configuring clear := by
  cases a with
  | enable arg => exact enableIntr_effect arg
  | disable arg => exact disableIntr_effect arg
  | disableDispatch irq =>
    exact ⟨fun _ => false, fun _ => false, fun r p => by simp [onRegisters], by simp [Configuring]⟩
  | enableDispatch irq =>
    exact ⟨fun _ => false, fun _ => false, fun r p => by simp [onRegisters], by simp [Configuring]⟩
  | raise flags flags2 =>
    refine ⟨raised flags flags2, fun _ => false, fun r p => ?_, by simp [Configuring]⟩
    cases p with
    | iMask i => simp [onRegisters, Registers.bit, Registers.raise, raised]
    | dicr i =>
      refine (BitVec.getLsbD_or ..).trans ?_
      rw [Bool.or_comm]
      simp [Registers.bit, raised]
    | dicr2 i =>
      refine (BitVec.getLsbD_or ..).trans ?_
      rw [Bool.or_comm]
      simp [Registers.bit, raised]

/-- What actions leave in a bit comes from that bit. -/
theorem foldl_bit_congr (actions : List Action) (hbit : r'.bit p = r.bit p) :
    (actions.foldl Action.onRegisters r').bit p = (actions.foldl Action.onRegisters r).bit p := by
  induction actions generalizing r r' with
  | nil => exact hbit
  | cons a rest ih =>
    obtain ⟨set, clear, heffect, -⟩ := a.effect
    refine ih ?_
    rw [show (a.onRegisters r').bit p = _ from heffect r' p,
      show (a.onRegisters r).bit p = _ from heffect r p, hbit]

/-- No action acknowledges a flag. -/
theorem foldl_flag (actions : List Action) (h : r.bit (bank.flag channel) = true) :
    (actions.foldl Action.onRegisters r).bit (bank.flag channel) = true := by
  induction actions generalizing r with
  | nil => exact h
  | cons a rest ih =>
    obtain ⟨set, clear, heffect, hclear⟩ := a.effect
    have hflag : clear (bank.flag channel) = false := by
      cases bank with
      | first => exact (hclear _ (Nat.le_add_right 24 channel)).1
      | second => exact (hclear _ (Nat.le_add_right 24 channel)).2
    refine ih ?_
    rw [show (a.onRegisters r).bit (bank.flag channel) = _ from heffect r _, hflag, h]
    simp

/-! ### Calling a handler -/

/-- An action of a handler acts on the registers, and is neither logged nor counted. -/
theorem perform_eq (m : Machine) (a : Action) : (perform m a).regs = a.onRegisters m.regs ∧
    (perform m a).trace = m.trace ∧ (perform m a).calls = m.calls := by
  cases a with
  | enable arg => exact ⟨rfl, rfl, rfl⟩
  | disable arg => exact ⟨rfl, rfl, rfl⟩
  | disableDispatch irq =>
    simp only [perform, disableDispatchIntr]
    split_ifs <;> exact ⟨rfl, rfl, rfl⟩
  | enableDispatch irq =>
    simp only [perform, enableDispatchIntr]
    split_ifs <;> exact ⟨rfl, rfl, rfl⟩
  | raise flags flags2 => exact ⟨rfl, rfl, rfl⟩

/-- The actions of a handler act on the registers one after another. -/
theorem foldl_perform (actions : List Action) (m : Machine) :
    (actions.foldl perform m).regs = actions.foldl Action.onRegisters m.regs ∧
    (actions.foldl perform m).trace = m.trace ∧ (actions.foldl perform m).calls = m.calls := by
  induction actions generalizing m with
  | nil => exact ⟨rfl, rfl, rfl⟩
  | cons a rest ih =>
    obtain ⟨hregs, htrace, hcalls⟩ := perform_eq m a
    obtain ⟨hregs', htrace', hcalls'⟩ := ih (perform m a)
    exact ⟨by rw [List.foldl_cons, List.foldl_cons, hregs', hregs], htrace'.trans htrace,
      hcalls'.trans hcalls⟩

/-- A handler does not lower a flag that is raised. -/
theorem callRegistered_flag (h : Handlers) (irq : ℕ)
    (hset : m.regs.bit (bank.flag channel) = true) :
    (callRegistered h irq m).regs.bit (bank.flag channel) = true := by
  unfold callRegistered
  split
  · rw [(foldl_perform _ _).1]
    exact foldl_flag _ hset
  · exact hset

/-! ### Changes by the handlers only -/

theorem handlersAlone_self (h : Handlers) (start : ℕ) (r : Registers) :
    handlersAlone h start start r = r := by
  simp [handlersAlone]

/-- The handlers' actions between two calls follow those up to the first. -/
theorem handlersAlone_trans (h : Handlers) {i j k : ℕ} (hij : i ≤ j) (hjk : j ≤ k)
    (r : Registers) : handlersAlone h j k (handlersAlone h i j r) = handlersAlone h i k r := by
  have hrange : List.range' i (k - i) = List.range' i (j - i) ++ List.range' j (k - j) := by
    have happend := List.range'_append_1 (s := i) (m := j - i) (n := k - j)
    rwa [show i + (j - i) = j by omega, show j - i + (k - j) = k - i by omega, eq_comm] at happend
  rw [handlersAlone, handlersAlone, handlersAlone, hrange, List.flatMap_append, List.foldl_append]

theorem handlersAlone_congr (h : Handlers) (i j : ℕ) (hbit : r'.bit p = r.bit p) :
    (handlersAlone h i j r').bit p = (handlersAlone h i j r).bit p :=
  foldl_bit_congr _ hbit

/-- A step that calls no handler and leaves the lines' bits. -/
theorem HandlersOnly.of_eq (hcalls : m'.calls = m.calls)
    (hconfig : ∀ p, Configures p → m'.regs.bit p = m.regs.bit p) : HandlersOnly h m m' where
  calls := hcalls.ge
  config p hp := by rw [hcalls, handlersAlone_self, hconfig p hp]

/-- What handlers alone did in two stretches, they did in both together. -/
theorem HandlersOnly.trans (h₁ : HandlersOnly h m m') (h₂ : HandlersOnly h m' m'') :
    HandlersOnly h m m'' where
  calls := h₁.calls.trans h₂.calls
  config p hp := by
    rw [h₂.config p hp, handlersAlone_congr h _ _ (h₁.config p hp),
      handlersAlone_trans h h₁.calls h₂.calls]

/-- A handler called changes what its own actions change. -/
theorem callRegistered_handlersOnly (h : Handlers) (irq : ℕ) (m : Machine) :
    HandlersOnly h m (callRegistered h irq m) := by
  unfold callRegistered
  split
  · obtain ⟨hregs, -, hcalls⟩ :=
      foldl_perform (h.body m.calls) { m.log (.call irq) with calls := m.calls + 1 }
    refine ⟨hcalls ▸ Nat.le_succ _, fun p _ => ?_⟩
    rw [hregs, hcalls, handlersAlone, show m.calls + 1 - m.calls = 1 by omega]
    simp [Machine.log]
  · exact .of_eq rfl fun p _ => rfl

/-! ### The dispatcher's own writes -/

theorem getLsbD_kDicrFlags : kDicrFlags.getLsbD i = decide (24 ≤ i ∧ i < 31) := by
  rcases Nat.lt_or_ge i 32 with hi | hi
  · interval_cases i <;> rfl
  · rw [BitVec.getLsbD_of_ge _ _ hi, decide_eq_false (by omega)]

/-- What is written to acknowledge a flag, and what it leaves. -/
theorem getLsbD_acknowledge {x : Word} (hc : channel < 7) (hi : i ≠ 31) :
    (Latch.write (~~~kDicrWritable) x
        ((x &&& ~~~kDicrFlags) ||| (BitVec.twoPow 32 channel <<< 24))).getLsbD i =
      (decide (i ≠ 24 + channel) && x.getLsbD i) := by
  rcases Nat.lt_or_ge i 32 with hlt | hge
  · rw [Latch.getLsbD_write]
    simp only [BitVec.getLsbD_not, getLsbD_kDicrWritable, BitVec.getLsbD_or, BitVec.getLsbD_and,
      BitVec.getLsbD_shiftLeft, Latch.getLsbD_twoPow (show channel < 32 by omega),
      getLsbD_kDicrFlags]
    rcases Nat.lt_or_ge i 24 with h | h
    · have hne : i ≠ 24 + channel := by omega
      have h1 : ¬ 24 ≤ i := by omega
      simp [h, hlt, hne, h1, -BitVec.getLsbD_eq_getElem]
    · have h1 : ¬ i < 24 := by omega
      have h2 : 24 ≤ i ∧ i < 31 := by omega
      have h3 : i - 24 = channel ↔ i = 24 + channel := by omega
      simp only [h1, h2, hlt, h3, decide_true, decide_false, Bool.not_false, Bool.not_true,
        Bool.and_true, Bool.and_false, Bool.false_or, Bool.true_and, if_true, and_self, ne_eq,
        decide_not]
      exact Bool.and_comm _ _
  · simp [BitVec.getLsbD_of_ge _ _ hge]

/-- The store that serves a channel acknowledges its flag and no other. -/
theorem acknowledges_write (hc : channel < bank.channels)
    (hset : r.bit (bank.flag channel) = true) : Acknowledges bank channel r
      (r.writeBank bank ((r.bank bank &&& ~~~kDicrFlags) |||
        (BitVec.twoPow 32 channel <<< 24))) where
  pending := hset
  cleared := by
    cases bank with
    | first =>
      refine (getLsbD_acknowledge hc (by simp only [Bank.channels] at hc; omega)).trans ?_
      simp
    | second =>
      simp only [Bank.channels] at hc
      refine (getLsbD_acknowledge (by omega) (by omega)).trans ?_
      simp
  others p hp hmaster := by
    simp only [masterFlags, List.mem_cons, List.not_mem_nil, or_false, not_or] at hmaster
    cases bank with
    | first =>
      cases p with
      | iMask i => rfl
      | dicr i =>
        have hne : i ≠ 24 + channel := by rintro rfl; exact hp rfl
        refine (getLsbD_acknowledge hc (by rintro rfl; exact hmaster.1 rfl)).trans ?_
        rw [decide_eq_true hne, Bool.true_and]
        rfl
      | dicr2 i => rfl
    | second =>
      cases p with
      | iMask i => rfl
      | dicr i => rfl
      | dicr2 i =>
        simp only [Bank.channels] at hc
        have hne : i ≠ 24 + channel := by rintro rfl; exact hp rfl
        refine (getLsbD_acknowledge (by omega) (by rintro rfl; exact hmaster.2 rfl)).trans ?_
        rw [decide_eq_true hne, Bool.true_and]
        rfl

/-- The store that lowers one of DICR's own bits changes that bit only. -/
theorem sets_drop (hk : i < 24) : Sets i false r
    (r.writeDicr (r.dicr &&& kDicrWritable &&& ~~~BitVec.twoPow 32 i)) where
  set := by
    refine (getLsbD_drop hk).trans ?_
    simp
  others p hp := by
    cases p with
    | iMask j => rfl
    | dicr j =>
      have hne : j ≠ i := by rintro rfl; exact hp rfl
      refine (getLsbD_drop hk).trans ?_
      rw [decide_eq_true hne, Bool.true_and]
      rfl
    | dicr2 j => rfl

/-- The store that raises the master enable changes that bit only. -/
theorem sets_master : Sets 23 true r (r.writeDicr ((r.dicr &&& kDicrWritable) ||| kDmaMaster)) where
  set := by
    refine (getLsbD_add below_kDmaMaster).trans ?_
    simp
  others p hp := by
    cases p with
    | iMask j => rfl
    | dicr j =>
      have hne : j ≠ 23 := by rintro rfl; exact hp rfl
      refine (getLsbD_add below_kDmaMaster).trans ?_
      rw [getLsbD_kDmaMaster, decide_eq_false hne, Bool.false_or]
      rfl
    | dicr2 j => rfl

/-- A line's bit is below the flags, and neither the force bit nor the master enable. -/
theorem Configures.below (hp : Configures p) : (∃ i, p = .iMask i) ∨
    (∃ i, p = .dicr i ∧ i < 24 ∧ i ≠ 15 ∧ i ≠ 23) ∨ ∃ i, p = .dicr2 i ∧ i < 24 := by
  obtain ⟨line, hline⟩ := hp
  cases inRange_of_mem hline with
  | low hl =>
    rw [places_low hl, List.mem_singleton] at hline
    exact .inl ⟨_, hline⟩
  | first hl =>
    simp only [places_first hl, List.mem_cons, List.not_mem_nil, or_false] at hline
    rcases hline with rfl | rfl | rfl
    · exact .inr (.inl ⟨_, rfl, by omega, by omega, by omega⟩)
    · exact .inr (.inl ⟨_, rfl, by omega, by omega, by omega⟩)
    · exact .inr (.inr ⟨_, rfl, by omega⟩)
  | second hl =>
    simp only [places_second hl, List.mem_cons, List.not_mem_nil, or_false] at hline
    rcases hline with rfl | rfl
    · exact .inr (.inr ⟨_, rfl, by omega⟩)
    · exact .inr (.inr ⟨_, rfl, by omega⟩)

/-- An acknowledgement changes nothing that is configured. -/
theorem Acknowledges.config (hack : Acknowledges bank channel r r') (hp : Configures p) :
    r'.bit p = r.bit p := by
  refine hack.others p ?_ ?_
  · rintro rfl
    cases bank <;> rcases hp.below with ⟨i, hi⟩ | ⟨i, hi, hlt⟩ | ⟨i, hi, hlt⟩ <;>
      simp only [Bank.flag, Place.dicr.injEq, Place.dicr2.injEq, reduceCtorEq] at hi <;> omega
  · simp only [masterFlags, List.mem_cons, List.not_mem_nil, or_false, not_or]
    rcases hp.below with ⟨i, rfl⟩ | ⟨i, rfl, hlt⟩ | ⟨i, rfl, hlt⟩ <;>
      simp only [Place.dicr.injEq, Place.dicr2.injEq, reduceCtorEq, not_false_eq_true, and_true,
        true_and] <;> omega

/-- The dispatcher's own bits are not among those that are configured. -/
theorem Sets.config {index : ℕ} {b : Bool} (hsets : Sets index b r r')
    (hindex : index = 15 ∨ index = 23) (hp : Configures p) : r'.bit p = r.bit p := by
  refine hsets.others p ?_
  rintro rfl
  rcases hp.below with ⟨i, hi⟩ | ⟨i, hi, hlt⟩ | ⟨i, hi, hlt⟩
  · cases hi
  · injection hi with hi
    omega
  · cases hi

/-! ### A walk of a bank -/

/-- A channel counts as raised where both its flag and its gate are set. -/
theorem getLsbD_bankFlags {x : Word} (hchannels : bank.channels = i) :
    (bankFlags x i gate).getLsbD channel =
      (decide (channel < bank.channels) && (x &&& gate).getLsbD (24 + channel)) := by
  have hmask : (BitVec.twoPow 32 i - 1).getLsbD channel = decide (channel < i) := by
    subst hchannels
    rcases Nat.lt_or_ge channel 32 with hc | hc
    · cases bank with
      | first =>
        have hall : ∀ c < 32, (BitVec.twoPow 32 7 - 1).getLsbD c = decide (c < 7) := by decide
        exact hall channel hc
      | second =>
        have hall : ∀ c < 32, (BitVec.twoPow 32 6 - 1).getLsbD c = decide (c < 6) := by decide
        exact hall channel hc
    · rw [BitVec.getLsbD_of_ge _ _ hc]
      refine (decide_eq_false ?_).symm
      cases bank <;> simp only [Bank.channels] <;> omega
  rw [bankFlags, BitVec.getLsbD_and, hmask, BitVec.getLsbD_ushiftRight, hchannels, Bool.and_comm]

theorem openChannels_lt (h : channel ∈ openChannels bank value gate) : channel < bank.channels :=
  List.mem_range.mp (List.mem_filter.mp h).1

/-- The loop over the channels serves those whose flags were read. -/
theorem foldl_serveChannel {flags : Word} {channels : List ℕ}
    (hchannels : ∀ c ∈ channels, c < bank.channels) (hnodup : channels.Nodup)
    (hset : ∀ c ∈ channels, flags.getLsbD c = true → m.regs.bit (bank.flag c) = true) :
    Walked h bank (channels.filter fun c => flags.getLsbD c) m
      (channels.foldl (serveChannel h bank bank.firstIrq flags) m) := by
  induction channels generalizing m with
  | nil => exact .nil m
  | cons c rest ih =>
    obtain ⟨hcrest, hrest⟩ := List.nodup_cons.mp hnodup
    have hc : c < bank.channels := hchannels c List.mem_cons_self
    have hc32 : c < 32 := by cases bank <;> simp only [Bank.channels] at hc <;> omega
    have hrange : ∀ c' ∈ rest, c' < bank.channels := fun c' h =>
      hchannels c' (List.mem_cons_of_mem _ h)
    rw [List.foldl_cons]
    cases hflag : flags.getLsbD c with
    | false =>
      have hskip : serveChannel h bank bank.firstIrq flags m c = m := by
        simp only [serveChannel, (Latch.and_twoPow_eq_zero hc32).mpr hflag, if_true]
      rw [hskip, List.filter_cons_of_neg (by simp [hflag])]
      exact ih hrange hrest fun c' h => hset c' (List.mem_cons_of_mem _ h)
    | true =>
      have hack := acknowledges_write hc (hset c List.mem_cons_self hflag)
      have hserve : serveChannel h bank bank.firstIrq flags m c =
          callRegistered h (bank.firstIrq + c) (m.write bank ((m.regs.bank bank &&& ~~~kDicrFlags)
            ||| (BitVec.twoPow 32 c <<< 24))) := by
        have hne : ¬ flags &&& BitVec.twoPow 32 c = 0 := fun hzero =>
          Bool.false_ne_true (((Latch.and_twoPow_eq_zero hc32).mp hzero).symm.trans hflag)
        simp only [serveChannel, hne, if_false]
      rw [hserve, List.filter_cons_of_pos hflag]
      -- the flags read but not yet served are still there
      refine .cons hc hack (ih hrange hrest fun c' h' hflag' => callRegistered_flag h _ ?_)
      have hne : c' ≠ c := fun h => hcrest (h ▸ h')
      refine (hack.others _ ?_ ?_).trans (hset c' (List.mem_cons_of_mem _ h') hflag')
      · cases bank <;> simp [Bank.flag, hne]
      · have := hrange c' h'
        cases bank <;> simp [Bank.flag, masterFlags, Bank.channels] at this ⊢ <;> omega

/-- One bank's walk, for the arguments `dmaDispatch` gives it. -/
theorem serveBank_walked (h : Handlers) (bank : Bank) (m : Machine) :
    Walked h bank (m.openChannels bank) (m.read bank)
      (serveBank h bank bank.firstIrq bank.channels (m.bank_dispatch_mask bank) m) := by
  have hrange : ∀ c ∈ List.range bank.channels, c < bank.channels := fun c => List.mem_range.mp
  have hset : ∀ c ∈ List.range bank.channels,
      (bankFlags (m.regs.bank bank) bank.channels (m.bank_dispatch_mask bank)).getLsbD c = true →
        m.regs.bit (bank.flag c) = true := fun c _ hflag => by
    rw [getLsbD_bankFlags rfl, BitVec.getLsbD_and, Bool.and_eq_true, Bool.and_eq_true] at hflag
    cases bank <;> exact hflag.2.1
  have hwalked := foldl_serveChannel (h := h) (m := m.read bank) hrange List.nodup_range hset
  have hopen : (List.range bank.channels).filter (fun c =>
      (bankFlags (m.regs.bank bank) bank.channels (m.bank_dispatch_mask bank)).getLsbD c) =
      m.openChannels bank := by
    refine List.filter_congr fun c hc => ?_
    rw [getLsbD_bankFlags rfl, decide_eq_true (hrange c hc), Bool.true_and]
  rwa [hopen] at hwalked

/-! ### The rounds -/

/-- The part of a round that is about the force bit. -/
def serveForce (h : Handlers) (force : Word) (m : Machine) : Machine :=
  if force ≠ 0 then
    callRegistered h kDmaForceIrq
      (m.write .first (m.regs.dicr &&& kDicrWritable &&& ~~~kDmaForce))
  else m

/-- The forced interrupt is served where its bit and its gate are set, and only there. -/
theorem serveForce_forced (h : Handlers) (m : Machine) : ForceServed h m
    (serveForce h (m.regs.dicr &&& m.bank_dispatch_mask .first &&& kDmaForce) m) := by
  unfold serveForce
  split
  next hforce => exact .forced ((and_twoPow_ne_zero (by decide)).mp hforce) (sets_drop (by decide))
  next hforce =>
    refine .clear fun hforced => hforce ?_
    exact (and_twoPow_ne_zero (by decide)).mpr hforced

theorem serveRound_round (h : Handlers) (m : Machine) : Round h m
    (serveRound h (m.regs.dicr &&& m.bank_dispatch_mask .first &&& kDmaForce) m.polled) := by
  have hforce := serveForce_forced h m.polled
  exact .round hforce (serveBank_walked h .first _) (serveBank_walked h .second _)

/-- No flag is read where no channel is open. -/
theorem bankFlags_eq_zero_iff :
    bankFlags value bank.channels gate = 0 ↔ openChannels bank value gate = [] := by
  unfold openChannels
  rw [List.filter_eq_nil_iff]
  constructor
  · intro hzero c hc
    have hbit : (bankFlags value bank.channels gate).getLsbD c = _ := getLsbD_bankFlags rfl
    rw [hzero, decide_eq_true (List.mem_range.mp hc), Bool.true_and] at hbit
    rw [← hbit]
    exact Bool.eq_false_iff.mp BitVec.getLsbD_zero
  · intro hall
    refine BitVec.eq_of_getLsbD_eq fun c _ => ?_
    refine (getLsbD_bankFlags rfl).trans (Eq.trans ?_ BitVec.getLsbD_zero.symm)
    rw [Bool.and_eq_false_iff]
    by_cases hc : c < bank.channels
    · exact .inr (Bool.eq_false_iff.mpr (hall c (List.mem_range.mpr hc)))
    · exact .inl (decide_eq_false hc)

/-- What the loop tests is whether anything is pending. -/
theorem pending_iff (m : Machine) :
    ((m.regs.dicr &&& m.bank_dispatch_mask .first) >>> 24 &&& 0x7F) |||
        bankFlags m.regs.dicr2 6 (m.bank_dispatch_mask .second) |||
          (m.regs.dicr &&& m.bank_dispatch_mask .first &&& kDmaForce) = 0 ↔ ¬m.Pending := by
  have hmask : (m.regs.dicr &&& m.bank_dispatch_mask .first) >>> 24 &&& 0x7F =
      bankFlags m.regs.dicr (Bank.channels .first) (m.bank_dispatch_mask .first) := rfl
  have hfirst : bankFlags m.regs.dicr (Bank.channels .first) (m.bank_dispatch_mask .first) = 0 ↔
      m.openChannels .first = [] := bankFlags_eq_zero_iff
  have hsecond : bankFlags m.regs.dicr2 6 (m.bank_dispatch_mask .second) = 0 ↔
      m.openChannels .second = [] :=
    @bankFlags_eq_zero_iff .second _ _
  have hforce : m.regs.dicr &&& m.bank_dispatch_mask .first &&& kDmaForce = 0 ↔ ¬m.Forced := by
    unfold Machine.Forced
    rw [Bool.not_eq_true]
    exact Latch.and_twoPow_eq_zero (by decide)
  have hor : ∀ x y : Word, x ||| y = 0 ↔ x = 0 ∧ y = 0 := fun x y => BitVec.or_eq_zero_iff
  rw [hmask, hor, hor, hfirst, hsecond, hforce]
  unfold Machine.Pending
  constructor
  · rintro ⟨⟨hone, htwo⟩, hno⟩ (⟨bank, hbank⟩ | hforced)
    · cases bank with
      | first => exact hbank hone
      | second => exact hbank htwo
    · exact hno hforced
  · intro hnone
    rw [not_or, not_exists] at hnone
    exact ⟨⟨not_not.mp (hnone.1 .first), not_not.mp (hnone.1 .second)⟩, hnone.2⟩

/-- The loop has gone some rounds, and has ended for want of anything pending or of fuel. -/
theorem serveRounds_rounds (h : Handlers) (fuel : ℕ) (m : Machine) : ∃ n m',
    Rounds h n m m' ∧
      (n = fuel ∧ serveRounds h fuel m = (m', false) ∨
        n < fuel ∧ ¬m'.Pending ∧ serveRounds h fuel m = (m'.polled, true)) := by
  induction fuel generalizing m with
  | zero => exact ⟨0, m, .nil m, .inl ⟨rfl, rfl⟩⟩
  | succ fuel ih =>
    unfold serveRounds
    dsimp only
    split
    next hnone =>
      exact ⟨0, m, .nil m, .inr ⟨Nat.succ_pos _, (pending_iff m).mp hnone, rfl⟩⟩
    next hsome =>
      have hpending : m.Pending := not_not.mp (mt (pending_iff m).mpr hsome)
      obtain ⟨n, m', hrounds, hend⟩ := ih
        (serveRound h (m.regs.dicr &&& m.bank_dispatch_mask .first &&& kDmaForce) m.polled)
      refine ⟨n + 1, m', .cons hpending (serveRound_round h m) hrounds, ?_⟩
      exact hend.imp (And.imp_left (congrArg (· + 1))) (And.imp_left Nat.succ_lt_succ)

/-! ### The enables and low bits -/

/-- Over the channels of a bank, what is configured changes by the handlers alone. -/
theorem Walked.handlersOnly {channels : List ℕ} (hw : Walked h bank channels m m') :
    HandlersOnly h m m' := by
  induction hw with
  | nil m => exact .of_eq rfl fun p _ => rfl
  | cons _ hack _ ih =>
    refine HandlersOnly.trans ?_ ((callRegistered_handlersOnly h _ _).trans ih)
    exact .of_eq rfl fun p hp => hack.config hp

/-- Over the forced interrupt, what is configured changes by the handlers alone. -/
theorem ForceServed.handlersOnly (hf : ForceServed h m m') : HandlersOnly h m m' := by
  cases hf with
  | clear _ => exact .of_eq rfl fun p _ => rfl
  | @forced value _ hsets =>
    have hwrite : HandlersOnly h m (m.write .first value) :=
      .of_eq rfl fun p hp => hsets.config (.inl rfl) hp
    exact hwrite.trans (callRegistered_handlersOnly h _ _)

/-- Over all the rounds, what is configured changes by the handlers alone. -/
theorem Rounds.handlersOnly {n : ℕ} (hr : Rounds h n m m') : HandlersOnly h m m' := by
  induction hr with
  | nil m => exact .of_eq rfl fun p _ => rfl
  | @cons n m m₁ m' _ hround _ ih =>
    obtain ⟨hforce, hfirst, hsecond⟩ := hround
    have hlog : ∀ (m : Machine) event, HandlersOnly h m (m.log event) := fun m event =>
      .of_eq rfl fun p _ => rfl
    exact (hlog m _).trans (hforce.handlersOnly.trans ((hlog _ _).trans (hfirst.handlersOnly.trans
      ((hlog _ _).trans (hsecond.handlersOnly.trans ih)))))

/-! ### The pulse -/

/-- The pulse lowers the master enable and raises it again. -/
theorem pulse_pulsed (h : Handlers) (m : Machine) : ∃ m', pulse m = (m', some 1) ∧
    Pulsed m m' ∧ HandlersOnly h m m' ∧ m'.bank_dispatch_mask = m.bank_dispatch_mask := by
  have hclear : Sets 23 false m.regs (m.regs.writeDicr (m.regs.dicr &&& kDicrWritable &&&
    ~~~kDmaMaster)) := sets_drop (by decide)
  have hzero : ¬ (m.write .first (m.regs.dicr &&& kDicrWritable &&& ~~~kDmaMaster)).regs.dicr &&&
      kDmaMaster ≠ 0 := not_not.mpr ((Latch.and_twoPow_eq_zero (by decide)).mpr hclear.set)
  have hset := sets_master (r := m.regs.writeDicr (m.regs.dicr &&& kDicrWritable &&&
    ~~~kDmaMaster))
  unfold pulse
  dsimp only
  rw [if_neg hzero]
  refine ⟨_, rfl, .pulse hclear hset, .of_eq rfl fun p hp => ?_, rfl⟩
  exact (hset.config (.inr rfl) hp).trans (hclear.config (.inr rfl) hp)

/-- Which channels are open depends on the flags alone. -/
theorem openChannels_congr (hbits : ∀ c, r'.bit (bank.flag c) = r.bit (bank.flag c)) :
    openChannels bank (r'.bank bank) gate = openChannels bank (r.bank bank) gate := by
  refine List.filter_congr fun c _ => ?_
  rw [BitVec.getLsbD_and, BitVec.getLsbD_and]
  have hbit := hbits c
  cases bank <;> exact congrArg (· && _) hbit

/-- The pulse leaves the master enable set, and what is pending as it was. -/
theorem Pulsed.pending_iff (hp : Pulsed m m') :
    m'.regs.bit (.dicr 23) = true ∧ (m'.Pending ↔ m.Pending) := by
  obtain ⟨hclear, hset⟩ := hp
  rename_i value value'
  have hsame : ∀ p, p ≠ .dicr 23 →
      ((m.write .first value).write .first value').regs.bit p = m.regs.bit p := fun p hp =>
    (hset.others p hp).trans (hclear.others p hp)
  have hopen : ∀ bank, ((m.write .first value).write .first value').openChannels bank =
      m.openChannels bank := fun bank =>
    openChannels_congr fun c => hsame _ (by cases bank <;> simp [Bank.flag]; omega)
  have hforced : ((m.write .first value).write .first value').Forced ↔ m.Forced := by
    unfold Machine.Forced
    rw [BitVec.getLsbD_and, BitVec.getLsbD_and]
    have hbit : ((m.write .first value).write .first value').regs.dicr.getLsbD 15 =
        m.regs.dicr.getLsbD 15 := hsame (.dicr 15) (by decide)
    rw [hbit]
    rfl
  refine ⟨hset.set, ?_⟩
  unfold Machine.Pending
  rw [hforced]
  simp only [hopen]

end PS2Bios.Intrman
