import PS2Bios.Intrman.Subdispatch

/-!
# A dispatch ends

The loop of `dmaDispatch` goes on as long as handlers raise what it waits for to be clear. What a
handler enables or disables is none of that (`onRegisters_latch`), so that once the handlers raise
nothing any more every flag that is served is one fewer: `potential` counts what is set, and pays
for each call of a handler that may still raise all of it. `dmaDispatch_served` is everything a
dispatch does.
-/

namespace PS2Bios.Intrman

/-- The bits the hardware sets: the flags, and the force bit. -/
def Place.IsLatch : Place → Prop
  | .iMask _ => False
  | .dicr i => i = 15 ∨ 24 ≤ i
  | .dicr2 i => 24 ≤ i

/-- The bits the loop waits for. -/
def latches : List Place :=
  .dicr 15 :: ((List.range (Bank.channels .first)).map (Bank.flag .first) ++
    (List.range (Bank.channels .second)).map (Bank.flag .second))

/-- How many of them are set. -/
def Registers.latched (r : Registers) : ℕ := latches.countP r.bit

/-- The action raises a channel's flag. -/
def Action.Raises : Action → Prop
  | .raise _ _ => True
  | _ => False

/-- From the `k`th on no handler that is called raises anything. -/
def Handlers.QuietFrom (h : Handlers) (k : ℕ) : Prop := ∀ n ≥ k, ∀ a ∈ h.body n, ¬a.Raises

/-- What can still be served before the loop ends, when the handlers are quiet from the `k`th call
on. -/
def potential (k : ℕ) (m : Machine) : ℕ :=
  (latches.length + 1) * (k - m.calls) + m.regs.latched

variable {h : Handlers} {m m' : Machine} {r r' : Registers} {bank : Bank} {p : Place}
  {channel i k n : ℕ} {arg : Word} {a : Action} {channels : List ℕ}

/-! ### What raises nothing leaves the latches -/

/-- Enabling a line writes no latch a one, so none of them falls. -/
theorem enableIntr_latch (arg : Word) (r : Registers) (hp : p.IsLatch) :
    (enableIntr arg r).2.bit p = r.bit p := by
  rcases line_cases (lineOf arg) with hl | ⟨c, hc, hl⟩ | ⟨c, hc, hl⟩ | ⟨h1, h2, h3⟩
  · rw [enableIntr_low hl]
    cases p with
    | iMask i => exact hp.elim
    | dicr i => rfl
    | dicr2 i => rfl
  · obtain ⟨r', heq, hdicr, hdicr2, -⟩ := enableIntr_first (r := r) hl hc
    rw [heq]
    cases p with
    | iMask i => exact hp.elim
    | dicr i =>
      have hi : i = 15 ∨ 24 ≤ i := hp
      have h16 : i ≠ 16 + c := by omega
      have h23 : i ≠ 23 := by omega
      have hlow : i ≠ c := by omega
      simp [Registers.bit, hdicr, h16, h23, hlow]
    | dicr2 i =>
      have hi : 24 ≤ i := hp
      have hlow : i ≠ c := by omega
      simp [Registers.bit, hdicr2, hlow]
  · obtain ⟨r', heq, hdicr, hdicr2, -⟩ := enableIntr_second (r := r) hl hc
    rw [heq]
    cases p with
    | iMask i => exact hp.elim
    | dicr i =>
      have hi : i = 15 ∨ 24 ≤ i := hp
      have h23 : i ≠ 23 := by omega
      simp [Registers.bit, hdicr, h23]
    | dicr2 i =>
      have hi : 24 ≤ i := hp
      have h16 : i ≠ 16 + c := by omega
      have hlow : i ≠ c + 7 := by omega
      simp [Registers.bit, hdicr2, h16, hlow]
  · simp [enableIntr, h1, h2, h3]

/-- Disabling a line writes no latch a one, so none of them falls. -/
theorem disableIntr_latch (arg : Word) (r : Registers) (hp : p.IsLatch) :
    (disableIntr arg none r).2.2.bit p = r.bit p := by
  rcases line_cases (lineOf arg) with hl | ⟨c, hc, hl⟩ | ⟨c, hc, hl⟩ | ⟨h1, h2, h3⟩
  · have hregs : (disableIntr arg none r).2.2 =
        r.writeIntMask (r.iMask &&& ~~~BitVec.twoPow 32 (lineOf arg)) := by
      simp only [disableIntr, hl, if_true]
      split <;> rfl
    rw [hregs]
    cases p with
    | iMask i => exact hp.elim
    | dicr i => rfl
    | dicr2 i => rfl
  · cases hset : r.dicr.getLsbD (16 + c) with
    | false => rw [disableIntr_first_off hl hc hset]
    | true =>
      obtain ⟨r', heq, hdicr, hdicr2, -⟩ := disableIntr_first none hl hc hset
      rw [heq]
      cases p with
      | iMask i => exact hp.elim
      | dicr i =>
        have hi : i = 15 ∨ 24 ≤ i := hp
        have h16 : i ≠ 16 + c := by omega
        simp [Registers.bit, hdicr, h16]
      | dicr2 i => exact congrArg (·.getLsbD i) hdicr2
  · cases hset : r.dicr2.getLsbD (16 + c) with
    | false => rw [disableIntr_second_off hl hc hset]
    | true =>
      obtain ⟨r', heq, hdicr, hdicr2, -⟩ := disableIntr_second none hl hc hset
      rw [heq]
      cases p with
      | iMask i => exact hp.elim
      | dicr i => exact congrArg (·.getLsbD i) hdicr
      | dicr2 i =>
        have hi : 24 ≤ i := hp
        have h16 : i ≠ 16 + c := by omega
        simp [Registers.bit, hdicr2, h16]
  · simp [disableIntr, h1, h2, h3]

/-- **Frame**: only the hardware sets a latch, and no handler clears one. -/
theorem onRegisters_latch (hquiet : ¬a.Raises) (r : Registers) (hp : p.IsLatch) :
    (a.onRegisters r).bit p = r.bit p := by
  cases a with
  | enable arg => exact enableIntr_latch arg r hp
  | disable arg => exact disableIntr_latch arg r hp
  | disableDispatch irq => rfl
  | enableDispatch irq => rfl
  | raise flags flags2 => exact absurd trivial hquiet

/-- Actions that raise no flag leave every latch as it is. -/
theorem foldl_latch {actions : List Action} (hquiet : ∀ a ∈ actions, ¬a.Raises) (r : Registers)
    (hp : p.IsLatch) : (actions.foldl Action.onRegisters r).bit p = r.bit p := by
  induction actions generalizing r with
  | nil => rfl
  | cons a rest ih =>
    obtain ⟨ha, hrest⟩ := List.forall_mem_cons.mp hquiet
    rw [List.foldl_cons, ih hrest, onRegisters_latch ha r hp]

/-! ### Counting them -/

/-- The places that are counted are latches. -/
theorem isLatch_of_mem (hp : p ∈ latches) : p.IsLatch := by
  unfold latches at hp
  rw [List.mem_cons, List.mem_append, List.mem_map, List.mem_map] at hp
  rcases hp with rfl | ⟨c, -, rfl⟩ | ⟨c, -, rfl⟩
  · exact .inl rfl
  · exact .inr (Nat.le_add_right _ _)
  · exact Nat.le_add_right _ _

/-- A channel's flag is one of the latches that are counted. -/
theorem flag_mem_latches (hc : channel < bank.channels) : bank.flag channel ∈ latches := by
  unfold latches
  rw [List.mem_cons, List.mem_append]
  cases bank with
  | first => exact .inr (.inl (List.mem_map_of_mem (List.mem_range.mpr hc)))
  | second => exact .inr (.inr (List.mem_map_of_mem (List.mem_range.mpr hc)))

theorem not_masterFlags_of_mem (hp : p ∈ latches) : p ∉ masterFlags := by
  have hall : ∀ p ∈ latches, p ∉ masterFlags := by decide
  exact hall p hp

theorem latched_le_length (r : Registers) : r.latched ≤ latches.length := List.countP_le_length

theorem latched_congr (hbits : ∀ p ∈ latches, r'.bit p = r.bit p) : r'.latched = r.latched :=
  List.countP_congr fun p hp => by rw [hbits p hp]

/-- One of them is cleared and the others are as they were. -/
theorem latched_lt (hp : p ∈ latches) (hset : r.bit p = true) (hclear : r'.bit p = false)
    (hothers : ∀ q ∈ latches, q ≠ p → r'.bit q = r.bit q) : r'.latched < r.latched := by
  unfold Registers.latched
  obtain ⟨before, after, hsplit⟩ := List.append_of_mem hp
  have hmono : ∀ l : List Place, (∀ q ∈ l, q ∈ latches) →
      l.countP r'.bit ≤ l.countP r.bit := by
    intro l hl
    refine List.countP_mono_left fun q hq hbit => ?_
    by_cases heq : q = p
    · rw [heq, hclear] at hbit
      cases hbit
    · rwa [← hothers q (hl q hq) heq]
  have hbefore := hmono before fun q hq => hsplit ▸ List.mem_append_left _ hq
  have hafter := hmono after fun q hq =>
    hsplit ▸ List.mem_append_right _ (List.mem_cons_of_mem _ hq)
  rw [hsplit, List.countP_append, List.countP_append, List.countP_cons_of_pos hset,
    List.countP_cons_of_neg (by rw [hclear]; exact Bool.false_ne_true)]
  omega

theorem Acknowledges.latched_lt (hack : Acknowledges bank channel r r')
    (hc : channel < bank.channels) : r'.latched < r.latched :=
  Intrman.latched_lt (flag_mem_latches hc) hack.pending hack.cleared fun q hq hne =>
    hack.others q hne (not_masterFlags_of_mem hq)

/-! ### What each part of a round leaves of it -/

/-- A handler that may raise has been paid for, and any other raises nothing. -/
theorem callRegistered_potential (hquiet : h.QuietFrom k) (irq : ℕ) (m : Machine) :
    potential k (callRegistered h irq m) ≤ potential k m := by
  unfold callRegistered
  split
  · obtain ⟨hregs, -, hcalls⟩ :=
      foldl_perform (h.body m.calls) { m.log (.call irq) with calls := m.calls + 1 }
    unfold potential
    rw [hcalls, hregs]
    show (latches.length + 1) * (k - (m.calls + 1)) +
      Registers.latched ((h.body m.calls).foldl Action.onRegisters m.regs) ≤ _
    by_cases hle : k ≤ m.calls
    · rw [latched_congr fun p hp => foldl_latch (hquiet m.calls hle) m.regs (isLatch_of_mem hp),
        Nat.sub_eq_zero_of_le hle, Nat.sub_eq_zero_of_le (Nat.le_succ_of_le hle)]
    · have hbound := latched_le_length ((h.body m.calls).foldl Action.onRegisters m.regs)
      obtain ⟨d, hd⟩ : ∃ d, k = m.calls + 1 + d := ⟨k - (m.calls + 1), by omega⟩
      rw [hd, Nat.add_sub_cancel_left, show m.calls + 1 + d - m.calls = d + 1 by omega,
        Nat.mul_succ]
      omega
  · exact le_rfl

theorem write_potential (value : Word) (hlt : (m.write bank value).regs.latched < m.regs.latched) :
    potential k (m.write bank value) < potential k m := Nat.add_lt_add_left hlt _

/-- Each channel that is served takes a latch off the count, or a call that may still raise one. -/
theorem Walked.potential_le (hquiet : h.QuietFrom k) (hw : Walked h bank channels m m') :
    potential k m' + channels.length ≤ potential k m := by
  induction hw with
  | nil m => exact le_rfl
  | @cons m m' channel channels value hc hack _ ih =>
    have hcalled := callRegistered_potential hquiet (bank.firstIrq + channel) (m.write bank value)
    have hwritten : potential k (m.write bank value) < potential k m :=
      write_potential value (hack.latched_lt hc)
    rw [List.length_cons]
    omega

/-- Serving the forced interrupt raises nothing, and takes one off the count when it was pending. -/
theorem ForceServed.potential_le (hquiet : h.QuietFrom k) (hf : ForceServed h m m') :
    potential k m' ≤ potential k m ∧ (m.Forced → potential k m' < potential k m) := by
  cases hf with
  | clear hclear => exact ⟨le_rfl, fun hforced => absurd hforced hclear⟩
  | @forced value hforced hsets =>
    have hcalled := callRegistered_potential hquiet kDmaForceIrq (m.write .first value)
    have hset : m.regs.bit (.dicr 15) = true := by
      unfold Machine.Forced at hforced
      rw [BitVec.getLsbD_and, Bool.and_eq_true] at hforced
      exact hforced.1
    have hwritten : potential k (m.write .first value) < potential k m :=
      write_potential value (latched_lt (.head _) hset hsets.set fun q _ hne =>
        hsets.others q hne)
    exact ⟨by omega, fun _ => by omega⟩

/-- **A round** that had anything pending has served it. -/
theorem Round.potential_lt (hquiet : h.QuietFrom k) (hr : Round h m m') (hpending : m.Pending) :
    potential k m' < potential k m := by
  obtain ⟨hforce, hfirst, hsecond⟩ := hr
  rename_i m₁ m₂
  obtain ⟨hle, hlt⟩ := hforce.potential_le hquiet
  have hread : ∀ (m : Machine) bank, potential k (m.read bank) = potential k m := fun _ _ => rfl
  have hwalked := hfirst.potential_le hquiet
  have hwalked2 := hsecond.potential_le hquiet
  rw [hread] at hwalked hwalked2
  have hpolled : potential k m.polled = potential k m := rfl
  by_cases hforced : m.Forced
  · have := hlt hforced
    omega
  -- with no force bit the walks read what was polled
  cases hforce with
  | forced hforced' => exact absurd hforced' hforced
  | clear _ =>
    obtain ⟨bank, hbank⟩ := hpending.resolve_right hforced
    cases hopen : m.openChannels .first with
    | cons c rest =>
      have : (m.polled.openChannels .first).length = rest.length + 1 := congrArg List.length hopen
      omega
    | nil =>
      have hnil : m.polled.openChannels .first = [] := hopen
      rw [hnil] at hfirst
      cases hfirst
      cases bank with
      | first => exact absurd hopen hbank
      | second =>
        have : ((m.polled.read .first).openChannels .second).length ≠ 0 :=
          mt List.length_eq_zero_iff.mp hbank
        omega

/-- So the loop goes no more rounds than that. -/
theorem Rounds.potential_le (hquiet : h.QuietFrom k) (hr : Rounds h n m m') :
    n + potential k m' ≤ potential k m := by
  induction hr with
  | nil m => exact (Nat.zero_add _).le
  | cons hpending hround _ ih =>
    have := hround.potential_lt hquiet hpending
    omega

/-! ### A whole dispatch -/

/-- Everything one dispatch does, whatever its handlers do. It goes rounds for as long as anything
is pending, up to the fuel it has; when nothing is pending any more it pulses the master enable,
answers 1 and leaves with the master enable set and still nothing pending. It changes no enable or
low bit itself. And when the handlers come to raise nothing any more, it does end. -/
theorem dmaDispatch_served (h : Handlers) (fuel : ℕ) (m : Machine) :
    (∃ n m', Rounds h n m m' ∧
      (n = fuel ∧ dmaDispatch h fuel m = (m', none) ∨
        n < fuel ∧ ¬m'.Pending ∧ ∃ m'', Pulsed m'.polled m'' ∧
          dmaDispatch h fuel m = (m'', some 1) ∧ m''.regs.bit (.dicr 23) = true ∧
            ¬m''.Pending)) ∧
      HandlersOnly h m (dmaDispatch h fuel m).1 ∧
      ∀ k, h.QuietFrom k → potential k m < fuel → (dmaDispatch h fuel m).2 = some 1 := by
  obtain ⟨n, m', hrounds, ⟨hn, hend⟩ | ⟨hn, hnone, hend⟩⟩ := serveRounds_rounds h fuel m
  · have hdispatch : dmaDispatch h fuel m = (m', none) := by
      unfold dmaDispatch
      rw [hend]
    refine ⟨⟨n, m', hrounds, .inl ⟨hn, hdispatch⟩⟩, ?_, fun k hquiet hfuel => ?_⟩
    · rw [hdispatch]
      exact hrounds.handlersOnly
    · have := hrounds.potential_le hquiet
      omega
  · obtain ⟨m'', hpulse, hpulsed, honly, -⟩ := pulse_pulsed h m'.polled
    have hdispatch : dmaDispatch h fuel m = (m'', some 1) := by
      unfold dmaDispatch
      rw [hend]
      exact hpulse
    obtain ⟨hmaster, hpending⟩ := hpulsed.pending_iff
    refine ⟨⟨n, m', hrounds, .inr ⟨hn, hnone, m'', hpulsed, hdispatch, hmaster,
      mt hpending.mp hnone⟩⟩, ?_, fun _ _ _ => by rw [hdispatch]⟩
    have hpoll : HandlersOnly h m' m'.polled := .of_eq rfl fun p _ => rfl
    rw [hdispatch]
    exact hrounds.handlersOnly.trans (hpoll.trans honly)

/-- The handler that is called, if one is. -/
def Event.called? : Event → Option ℕ
  | .call irq => some irq
  | _ => none

/-- Handlers of channels 2 and 8 and of the force bit. The second that is called disables its line
while channel 0, which has none, raises its flag, and during the third channel 2 raises its own
again. -/
def reasserting : Handlers where
  registered irq := decide (irq ∈ [0x22, 0x27, 0x29])
  body n := [[], [.disable 0x22, .raise 0x01000000 0], [.raise 0x04000000 0]].getD n []

/-- A flag of each bank is set, and the force bit, and every gate is open. -/
def bothBanks : Machine := ⟨⟨8, 0x04848000, 0x02020000⟩, 0, fun _ => 0xFFFFFFFF, 0, []⟩

/-- It takes two rounds to serve them all. -/
theorem dmaDispatch_served_reasserting :
    (dmaDispatch reasserting 100 bothBanks).1.trace.filterMap Event.called? =
        [0x27, 0x22, 0x29, 0x22] ∧
      (dmaDispatch reasserting 100 bothBanks).1.regs = ⟨8, 0x00800000, 0x00020000⟩ ∧
      (∃ n m', Rounds reasserting n bothBanks m' ∧ n < 100 ∧ ¬m'.Pending) ∧
      HandlersOnly reasserting bothBanks (dmaDispatch reasserting 100 bothBanks).1 ∧
      (dmaDispatch reasserting 100 bothBanks).2 = some 1 := by
  obtain ⟨⟨n, m', hrounds, hend⟩, honly, hends⟩ := dmaDispatch_served reasserting 100 bothBanks
  have hquiet : reasserting.QuietFrom 3 := by
    intro n hn a ha
    have hnil : reasserting.body n = [] := by
      obtain ⟨d, rfl⟩ := Nat.exists_eq_add_of_le hn
      rw [Nat.add_comm]
      rfl
    rw [hnil] at ha
    cases ha
  have hpotential : potential 3 bothBanks < 100 := by decide
  have hone := hends 3 hquiet hpotential
  refine ⟨by decide +kernel, by decide +kernel, ⟨n, m', hrounds, ?_⟩, honly, hone⟩
  rcases hend with ⟨-, hnone⟩ | ⟨hn, hclear, -⟩
  · rw [hnone] at hone
    cases hone
  · exact ⟨hn, hclear⟩

end PS2Bios.Intrman
