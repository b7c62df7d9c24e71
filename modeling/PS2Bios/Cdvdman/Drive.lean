import Mathlib.Tactic.Common
import Mathlib.Data.Int.Notation

/-!
# Reading from the disc

`issueRead` of `cdvdman.cpp`: one N-command, from the semaphore that guards the channel to the
command byte. The steps and their order are the source's, which arms DMA channel 3 first and looks
whether the drive is ready after it.

So a read that is declined has changed nothing when the semaphore declined it, and when the drive
did, the channel and nothing else (`issueRead_refused`).
-/

namespace PS2Bios.Cdvdman

/-- What starts the channel: from the device, in blocks. -/
def kChcrStart : UInt32 := 0x41000200

/-- The words of a block, so that a sector is one. -/
def kBlockWords : UInt32 := 0x200

/-- The submode of an ordinary disc. -/
def kSubmodePs2Disc : UInt8 := 0x80

/-- The bit of `CHCR` that a running transfer has set. -/
def kChcrBusy : UInt32 := 0x01000000

/-- DMA channel 3: its registers, and what it is moving. Writing `CHCR` stops the transfer in
flight, and takes up a new one from the other two registers when the busy bit is among what is
written. -/
structure Channel where
  madr : UInt32
  bcr : UInt32
  chcr : UInt32
  /-- Where the transfer goes and its blocks. -/
  inFlight : Option (UInt32 × UInt32)
deriving DecidableEq, Repr

namespace Channel

/-- A store to the channel's address. -/
def writeMadr (c : Channel) (value : UInt32) : Channel := { c with madr := value }

/-- A store to the channel's block counts. -/
def writeBcr (c : Channel) (value : UInt32) : Channel := { c with bcr := value }

/-- A store to the channel's control: started, it has the address and the counts of that moment. -/
def writeChcr (c : Channel) (value : UInt32) : Channel :=
  { c with
    chcr := value
    inFlight := if value &&& kChcrBusy ≠ 0 then some (c.madr, c.bcr) else none }

end Channel

/-- A kernel semaphore. -/
structure Sema where
  count : ℕ
  max : ℕ
  count_le : count ≤ max
deriving DecidableEq, Repr

namespace Sema

/-- `pollSema`: `none` when it is refused. -/
def poll (s : Sema) : Option Sema :=
  if 0 < s.count then some ⟨s.count - 1, s.max, by have := s.count_le; omega⟩ else none

/-- `signalSema`, with nobody waiting: a semaphore that is full is left. -/
def signal (s : Sema) : Sema :=
  if h : s.count < s.max then ⟨s.count + 1, s.max, h⟩ else s

/-- What a poll takes a signal gives back. -/
theorem signal_poll {s s' : Sema} (h : s.poll = some s') : s'.signal = s := by
  obtain ⟨count, max, hle⟩ := s
  simp only [poll] at h
  split at h
  next hpos =>
    obtain rfl := Option.some.inj h
    have hlt : count - 1 < max := by omega
    rw [signal, dif_pos hlt]
    simp only [Sema.mk.injEq, and_true]
    omega
  next => cases h

end Sema

/-- The drive's ports and the driver's words that an N-command is about. -/
structure Driver where
  channel : Channel
  /-- `sema_ncmd`, once `init` has created it. -/
  sema_ncmd : Option Sema
  /-- What the status port reads. -/
  status : UInt8
  /-- What has been written to the submode port, the parameter port and the command port. -/
  submode : UInt8
  params : List UInt8
  command : Option UInt8
  g_done : ℤ
  g_result : UInt8
  g_issuer_thread : UInt32
deriving DecidableEq, Repr

/-- `(readReg8(kNStatus) & 0xC0) == 0x40`. -/
def Driver.ready (d : Driver) : Bool := d.status &&& 0xC0 == 0x40

/-- `armDma`: stopped, given the address and the count, and started. -/
def armDma (dest sectors : UInt32) (c : Channel) : Channel :=
  let c := (c.writeChcr 0).writeMadr dest
  (c.writeBcr ((sectors <<< 16) ||| kBlockWords)).writeChcr kChcrStart

/-- The parameter block of a read. -/
def readParams (lbn sectors : UInt32) : List UInt8 :=
  [lbn.toUInt8, (lbn >>> 8).toUInt8, (lbn >>> 16).toUInt8, (lbn >>> 24).toUInt8,
    sectors.toUInt8, (sectors >>> 8).toUInt8, (sectors >>> 16).toUInt8, (sectors >>> 24).toUInt8,
    0, kSubmodePs2Disc, 0]

/-- `thread` is the caller. -/
def issueRead (thread lbn sectors dest : UInt32) (d : Driver) : Bool × Driver :=
  match d.sema_ncmd.bind Sema.poll with
  | none => (false, d)
  | some sema =>
    let d := { d with sema_ncmd := some sema }
    let d := { d with channel := armDma dest sectors d.channel }
    if !d.ready then
      (false, { d with sema_ncmd := some sema.signal })
    else
      let d := { d with g_issuer_thread := thread, g_done := 0, submode := kSubmodePs2Disc }
      let d := { d with params := d.params ++ readParams lbn sectors, command := some 6 }
      (true, { d with sema_ncmd := some sema.signal })

/-! ### Declined reads -/

variable {d : Driver} {thread lbn sectors dest : UInt32}

/-- A read is declined when the semaphore is taken, or the drive is not ready. -/
theorem issueRead_fst : (issueRead thread lbn sectors dest d).1 =
    ((d.sema_ncmd.bind Sema.poll).isSome && d.ready) := by
  unfold issueRead
  cases hpoll : d.sema_ncmd.bind Sema.poll with
  | none => rfl
  | some sema =>
    dsimp only
    split
    next h => simpa [Driver.ready] using h
    next h => simpa [Driver.ready] using h

theorem sema_signal {sema : Sema} (h : d.sema_ncmd.bind Sema.poll = some sema) :
    some sema.signal = d.sema_ncmd := by
  obtain ⟨s, hs, hpoll⟩ := Option.bind_eq_some_iff.mp h
  rw [Sema.signal_poll hpoll, hs]

/-- A declined read leaves everything but the channel, and the channel too unless it was the drive
that declined: then the channel is armed for the refused request, as the sequence has it. -/
theorem issueRead_refused (h : (issueRead thread lbn sectors dest d).1 = false) :
    (issueRead thread lbn sectors dest d).2 =
      if (d.sema_ncmd.bind Sema.poll).isSome then
        { d with channel := armDma dest sectors d.channel }
      else d := by
  rw [issueRead_fst] at h
  unfold issueRead
  cases hpoll : d.sema_ncmd.bind Sema.poll with
  | none => rfl
  | some sema =>
    have hready : d.ready = false := by simpa [hpoll] using h
    have hsame : Driver.ready { d with
        sema_ncmd := some sema, channel := armDma dest sectors d.channel } = false := hready
    simp only [hsame, Bool.not_false, if_true, Option.isSome_some]
    rw [sema_signal hpoll]

/-- The drive is busy with a read of four sectors to `0x8000`, accepted a moment ago. -/
def midTransfer : Driver where
  channel := ⟨0x8000, 0x40200, 0x41000200, some (0x8000, 0x40200)⟩
  sema_ncmd := some ⟨1, 1, Nat.le_refl 1⟩
  status := 0x80
  submode := 0x80
  params := []
  command := some 6
  g_done := 0
  g_result := 0
  g_issuer_thread := 3

theorem midTransfer_refused : (issueRead 4 16 1 0x9000 midTransfer).2 =
    if (midTransfer.sema_ncmd.bind Sema.poll).isSome then
      { midTransfer with channel := armDma 0x9000 1 midTransfer.channel }
    else midTransfer :=
  issueRead_refused (by decide)

/-- A read of another sector is declined, and the transfer now goes to its buffer. -/
theorem midTransfer_overwritten : (issueRead 4 16 1 0x9000 midTransfer).1 = false ∧
    (issueRead 4 16 1 0x9000 midTransfer).2 ≠ midTransfer ∧
    midTransfer.channel.inFlight = some (0x8000, 0x40200) ∧
    (issueRead 4 16 1 0x9000 midTransfer).2.channel.inFlight = some (0x9000, 0x10200) := by
  decide

end PS2Bios.Cdvdman
