import PS2Bios.Intrman.Tokens

/-!
# The DMA line's handler

`dmaDispatch` of `intrman.cpp`: the handler of line `3` goes round the two banks until neither has
a flag that its shadow mask lets through, acknowledges each flag it finds and calls the channel's
handler, and pulses the master enable on its way out.

The handlers are a script: the `n`-th one that is called performs `body n`, calls of the enable,
disable and dispatch-gate ordinals, and while it runs the hardware may raise flags again. What the
dispatcher itself reads and writes, and whom it calls, goes into the trace.
-/

namespace PS2Bios.Intrman

/-- Bits 24 to 30: a write of ones clears them. -/
def kDicrFlags : Word := 0x7F000000

/-- DICR's bit that forces the bank's interrupt. -/
def kDmaForce : Word := BitVec.twoPow 32 15

/-- The slot of the handler table that is called for the forced interrupt. -/
def kDmaForceIrq : ℕ := 0x27

/-- The two registers a walk may be about. -/
inductive Bank
  | first
  | second
deriving DecidableEq, Repr

namespace Registers

/-- The register a bank's flags are in. -/
def bank (r : Registers) : Bank → Word
  | .first => r.dicr
  | .second => r.dicr2

/-- A store to that register. -/
def writeBank (r : Registers) : Bank → Word → Registers
  | .first, value => r.writeDicr value
  | .second, value => r.writeDicr2 value

/-- The hardware sets flags, or the force bit. -/
def raise (r : Registers) (flags flags2 : Word) : Registers :=
  { r with
    dicr := r.dicr ||| (flags &&& (kDicrFlags ||| kDmaForce))
    dicr2 := r.dicr2 ||| (flags2 &&& kDicrFlags) }

end Registers

/-- What a handler does, or what happens while it runs. -/
inductive Action
  | enable (line_and_flags : Word)
  | disable (line_and_flags : Word)
  | disableDispatch (irq : ℕ)
  | enableDispatch (irq : ℕ)
  | raise (flags flags2 : Word)
deriving DecidableEq, Repr

/-- What the dispatcher does. -/
inductive Event
  /-- It looks for anything pending. -/
  | poll (regs : Registers) (gate gate2 : Word)
  /-- A walk reads its bank's register. -/
  | read (bank : Bank) (value gate : Word)
  | write (bank : Bank) (before after : Registers)
  | call (irq : ℕ)
deriving Repr

/-- The registers with the two masks that decide what is dispatched, and what the dispatcher did. -/
structure Machine where
  regs : Registers
  /-- `dispatch_mask`. -/
  dispatch_mask : Word
  /-- `bank_dispatch_mask`. -/
  bank_dispatch_mask : Bank → Word
  /-- How many handlers have been called. -/
  calls : ℕ
  trace : List Event

/-- Which lines have a handler, and what the handlers do, call by call. -/
structure Handlers where
  registered : ℕ → Bool
  body : ℕ → List Action

namespace Machine

/-- Something the dispatcher did, noted. -/
def log (m : Machine) (event : Event) : Machine := { m with trace := m.trace ++ [event] }

/-- A store to a bank's register, noted with the registers before and after it. -/
def write (m : Machine) (bank : Bank) (value : Word) : Machine :=
  { m with
    regs := m.regs.writeBank bank value
    trace := m.trace ++ [.write bank m.regs (m.regs.writeBank bank value)] }

/-- The mask of a bank's channels that may be dispatched. -/
def gate (m : Machine) (bank : Bank) (value : Word) : Machine :=
  { m with bank_dispatch_mask := Function.update m.bank_dispatch_mask bank value }

end Machine

/-- `DisableDispatchIntr`: the line's bit in the mask that its kind of line has. -/
def disableDispatchIntr (irq : ℕ) (m : Machine) : Machine :=
  if irq < kDmaFirst then
    { m with dispatch_mask := m.dispatch_mask ||| BitVec.twoPow 32 irq }
  else if irq < kDmaSecondBank then
    m.gate .first (m.bank_dispatch_mask .first &&& ~~~BitVec.twoPow 32 (24 + (irq - kDmaFirst)))
  else if irq < kLines then
    m.gate .second
      (m.bank_dispatch_mask .second &&& ~~~BitVec.twoPow 32 (24 + (irq - kDmaSecondBank)))
  else m

/-- `enableDispatchIntr`: the line's bit in the mask that its kind of line has. -/
def enableDispatchIntr (irq : ℕ) (m : Machine) : Machine :=
  if irq < kDmaFirst then
    { m with dispatch_mask := m.dispatch_mask &&& ~~~BitVec.twoPow 32 irq }
  else if irq < kDmaSecondBank then
    m.gate .first (m.bank_dispatch_mask .first ||| BitVec.twoPow 32 (24 + (irq - kDmaFirst)))
  else if irq < kLines then
    m.gate .second
      (m.bank_dispatch_mask .second ||| BitVec.twoPow 32 (24 + (irq - kDmaSecondBank)))
  else m

/-- What an action does to the registers. -/
def Action.onRegisters (r : Registers) : Action → Registers
  | .enable line_and_flags => (enableIntr line_and_flags r).2
  | .disable line_and_flags => (disableIntr line_and_flags none r).2.2
  | .disableDispatch _ => r
  | .enableDispatch _ => r
  | .raise flags flags2 => r.raise flags flags2

/-- What a handler does to the machine in one action. -/
def perform (m : Machine) : Action → Machine
  | .disableDispatch irq => disableDispatchIntr irq m
  | .enableDispatch irq => enableDispatchIntr irq m
  | action => { m with regs := action.onRegisters m.regs }

/-- The handler of a line called, where one is registered. -/
def callRegistered (h : Handlers) (irq : ℕ) (m : Machine) : Machine :=
  if h.registered irq then
    (h.body m.calls).foldl perform { m.log (.call irq) with calls := m.calls + 1 }
  else m

/-- The flags of a bank's channels that are raised and let through. -/
def bankFlags (dicr : Word) (channels : ℕ) (gate : Word) : Word :=
  ((dicr &&& gate) >>> 24) &&& (BitVec.twoPow 32 channels - 1)

/-- One turn of the loop in `serveBank`. -/
def serveChannel (h : Handlers) (bank : Bank) (first_irq : ℕ) (flags : Word) (m : Machine)
    (channel : ℕ) : Machine :=
  let bit := BitVec.twoPow 32 channel
  if flags &&& bit = 0 then m
  else callRegistered h (first_irq + channel)
    (m.write bank ((m.regs.bank bank &&& ~~~kDicrFlags) ||| (bit <<< 24)))

/-- Every channel of a bank in turn, by the flags that were read before the first. -/
def serveBank (h : Handlers) (bank : Bank) (first_irq channels : ℕ) (gate : Word) (m : Machine) :
    Machine :=
  let flags := bankFlags (m.regs.bank bank) channels gate
  (List.range channels).foldl (serveChannel h bank first_irq flags)
    (m.log (.read bank (m.regs.bank bank) gate))

/-- The loop's body behind its test. -/
def serveRound (h : Handlers) (force : Word) (m : Machine) : Machine :=
  let m :=
    if force ≠ 0 then
      callRegistered h kDmaForceIrq
        (m.write .first (m.regs.dicr &&& kDicrWritable &&& ~~~kDmaForce))
    else m
  let m := serveBank h .first kDmaFirst 7 (m.bank_dispatch_mask .first) m
  serveBank h .second kDmaSecondBank 6 (m.bank_dispatch_mask .second) m

/-- The loop of `dmaDispatch`, and whether it has ended within `fuel` rounds. -/
def serveRounds (h : Handlers) : ℕ → Machine → Machine × Bool
  | 0, m => (m, false)
  | fuel + 1, m =>
    let bank1_word := m.regs.dicr &&& m.bank_dispatch_mask .first
    let bank1 := (bank1_word >>> 24) &&& 0x7F
    let bank2 := bankFlags m.regs.dicr2 6 (m.bank_dispatch_mask .second)
    let force := bank1_word &&& kDmaForce
    let m := m.log (.poll m.regs (m.bank_dispatch_mask .first) (m.bank_dispatch_mask .second))
    if bank1 ||| bank2 ||| force = 0 then (m, true)
    else serveRounds h fuel (serveRound h force m)

/-- The pulse of the master enable. The register holds what is written to bit 23, so that the wait
between the two writes is one reading, or endless. -/
def pulse (m : Machine) : Machine × Option ℤ :=
  let m := m.write .first (m.regs.dicr &&& kDicrWritable &&& ~~~kDmaMaster)
  if m.regs.dicr &&& kDmaMaster ≠ 0 then (m, none)
  else (m.write .first ((m.regs.dicr &&& kDicrWritable) ||| kDmaMaster), some 1)

/-- `dmaDispatch`: rounds over both banks until nothing is raised, then the pulse of the master
bits. -/
def dmaDispatch (h : Handlers) (fuel : ℕ) (m : Machine) : Machine × Option ℤ :=
  match serveRounds h fuel m with
  | (m, true) => pulse m
  | (m, false) => (m, none)

end PS2Bios.Intrman
