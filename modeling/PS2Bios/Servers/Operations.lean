import PS2Bios.Library.Prog
import PS2Bios.Sif.Link
import Mathlib.Data.Int.Notation

/-!
# What the EE's servers do

FILEIO, LOADFILE, CDVDFSV and MCSERV serve the EE's requests, each on a thread of its own, and put
what they are asked for into EE memory with `sifSetDma`. A server is a program over the operations
of `Op`: it loads and stores in IOP memory, calls other modules, and hands transfers to SIFMAN.
What it is replied is for the machine to say.

The four have a `sendToEe` each. They differ in how they wait for the transfer: FILEIO, LOADFILE
and CDVDFSV until no run is queued, MCSERV for a thousand looks at most. None of them asks again
when `sifSetDma` has answered `0`.
-/

namespace PS2Bios.Servers

open Sif

/-- The four servers. -/
inductive Service
  | fileio
  | loadfile
  | cdvdfsv
  | mcserv
deriving Repr, DecidableEq

/-- The bytes of the request area each gives the RPC layer. -/
def kRequestBytes : Service → ℕ
  | .fileio => 0x200
  | .loadfile => 0x200
  | .cdvdfsv => 0x130
  | .mcserv => 0x418

/-- The bytes of the buffer a read goes through. -/
def kBounceBytes : UInt32 := 0x1000

/-- The bytes of a file's record. -/
def kStatBytes : UInt32 := 0x28

/-- The bytes an executable is read in at a time. -/
def kChunkBytes : UInt32 := 0x1000

/-- The bytes a transfer is a multiple of. -/
def kBlock : UInt32 := 16

/-- The bytes of a search's record. -/
def kSearchFileBytes : UInt32 := 0x20

/-- The bytes of a memory card's record. -/
def kRecordBytes : UInt32 := 0x40

/-- Where the linker put the servers' memory, and the buffers in it. -/
structure Layout where
  /-- The memory of a server's own. -/
  own : Service → UInt32 → Prop
  apart : ∀ i j a, own i a → own j a → i = j
  /-- It is in the half of the address space that `kTagEnd` is not part of, as all IOP memory. -/
  physical : ∀ i a, own i a → a &&& 0x7FFFFFFF = a
  request : Service → UInt32
  edge : UInt32
  bounce : UInt32
  statBlock : UInt32
  headers : UInt32
  chunk : UInt32
  carry : UInt32
  record : UInt32
  request_own : ∀ i, ∀ k < kRequestBytes i, own i (request i + UInt32.ofNat k)
  edge_own : ∀ k < 32, own .fileio (edge + UInt32.ofNat k)
  bounce_own : ∀ k < 0x1000, own .fileio (bounce + UInt32.ofNat k)
  /-- `stat_block` is followed by what fills its last quadword. -/
  statBlock_own : ∀ k < 0x30, own .fileio (statBlock + UInt32.ofNat k)
  headers_own : ∀ k < 0x400, own .loadfile (headers + UInt32.ofNat k)
  chunk_own : ∀ k < 0x1000, own .loadfile (chunk + UInt32.ofNat k)
  carry_own : ∀ k < 16, own .loadfile (carry + UInt32.ofNat k)
  record_own : ∀ k < 0x40, own .mcserv (record + UInt32.ofNat k)
  headers_chunk : ∀ j < 0x400, ∀ k < 0x1000, headers + UInt32.ofNat j ≠ chunk + UInt32.ofNat k
  headers_carry : ∀ j < 0x400, ∀ k < 16, headers + UInt32.ofNat j ≠ carry + UInt32.ofNat k

/-- A call into another module. -/
inductive Call
  | ioOpen (path flags : UInt32)
  | ioClose (fd : UInt32)
  | ioRead (fd buffer size : UInt32)
  | ioLseek (fd offset whence : UInt32)
  | ioGetstat (path stat : UInt32)
  | isIllegal (path : UInt32)
  | loadStart (path arglen args : UInt32)
  | searchFile (file name : UInt32)
  | detect (port slot : UInt32)
  | type (port : UInt32)
  | getdir (port slot path mode max out : UInt32)
deriving Repr, DecidableEq

namespace Call

/-- The memory a call may write, and how much of it. -/
def buffer? : Call → Option (UInt32 × ℕ)
  | ioRead _ buffer size => some (buffer, size.toNat)
  | ioGetstat _ stat => some (stat, kStatBytes.toNat)
  | searchFile file _ => some (file, kSearchFileBytes.toNat)
  | getdir _ _ _ _ max out => some (out, kRecordBytes.toNat * max.toNat)
  | _ => none

/-- The bytes of the buffer a call fills. -/
def room (c : Call) : ℕ := (c.buffer?.map Prod.snd).getD 0

/-- How many bytes a read is asked for. -/
def count? : Call → Option ℕ
  | ioRead _ _ size => some size.toNat
  | _ => none

/-- What a call answers, and what it leaves in its buffer or in its last argument. A read reads no
more than it is asked to. -/
structure Reply (c : Call) where
  value : ℤ
  bytes : List UInt8
  out : ℤ
  fits : bytes.length ≤ c.room
  bound : ∀ n, c.count? = some n → value ≤ n

end Call

/-- What a server does to the world: its memory, the modules it calls, and the transfers. -/
inductive Op
  | load (address : UInt32) (n : ℕ)
  | store (address : UInt32) (bytes : List UInt8)
  | call (c : Call)
  | setDma (t : Transfer)
  | dmaStat
  /-- `while (dma_stat(id) >= 0) {}` -/
  | await
  | delay

/-- What each of these is replied. -/
def Op.Reply : Op → Type
  | .load _ n => { bytes : List UInt8 // bytes.length = n }
  | .store _ _ => Unit
  | .call c => c.Reply
  | .setDma _ => UInt32
  | .dmaStat => ℤ
  | .await => Unit
  | .delay => Unit

/-- A piece of a server's program. -/
abbrev Server (α : Type) := Prog Op.Reply α

/-- Bytes of the IOP's memory. -/
def load (address : UInt32) (n : ℕ) : Server { bytes : List UInt8 // bytes.length = n } :=
  Prog.op (Op.load address n)

/-- Bytes into the IOP's memory. -/
def store (address : UInt32) (bytes : List UInt8) : Server Unit := Prog.op (Op.store address bytes)

/-- A call of another module. -/
def call (c : Call) : Server c.Reply := Prog.op (Op.call c)

/-- A transfer handed to SIFMAN. -/
def setDma (t : Transfer) : Server UInt32 := Prog.op (Op.setDma t)

/-- Whether the transfer is done. -/
def dmaStat : Server ℤ := Prog.op Op.dmaStat

/-- A wait until the transfer is done. -/
def await : Server Unit := Prog.op Op.await

/-- A wait for some time. -/
def delay : Server Unit := Prog.op Op.delay

/-- The number some bytes are, the lowest first. -/
def littleEndian : List UInt8 → ℕ
  | [] => 0
  | b :: bs => b.toNat + 256 * littleEndian bs

/-- A word of the IOP's memory. -/
def loadWord (address : UInt32) : Server UInt32 := do
  return UInt32.ofNat (littleEndian (← load address 4).1)

/-- A halfword of the IOP's memory. -/
def loadHalf (address : UInt32) : Server UInt32 := do
  return UInt32.ofNat (littleEndian (← load address 2).1)

/-- Bytes of nought. -/
def zeros (n : ℕ) : List UInt8 := List.replicate n 0

/-- The transfer every `sendToEe` describes. -/
def transferOf (source ee bytes : UInt32) : Transfer := ⟨source, ee, bytes, 0⟩

/-- One transfer to EE memory, waited for. -/
def sendAndWait (source ee bytes : UInt32) : Server Unit := do
  let id ← setDma (transferOf source ee bytes)
  if id ≠ 0 then await

/-- FILEIO's `sendToEe`, which takes an id of nought as done. -/
def Fileio.sendToEe (source ee bytes : UInt32) : Server Unit := sendAndWait source ee bytes

/-- LOADFILE's `sendToEe`, which takes an id of nought as done. -/
def Loadfile.sendToEe (source ee bytes : UInt32) : Server Unit := sendAndWait source ee bytes

/-- CDVDFSV's `sendToEe`, which takes an id of nought as done. -/
def Cdvdfsv.sendToEe (source ee bytes : UInt32) : Server Unit := sendAndWait source ee bytes

/-- Look, and look again after a short sleep, `attempts` times. -/
def Mcserv.poll (id : UInt32) : ℕ → Server Unit
  | 0 => pure ()
  | attempts + 1 => do
    if id ≠ 0 then
      let stat ← dmaStat
      if 0 ≤ stat then
        delay
        poll id attempts

/-- MCSERV's `sendToEe`, whose arguments stand the other way round and which polls with a limit. -/
def Mcserv.sendToEe (ee source bytes : UInt32) : Server Unit := do
  let id ← setDma (transferOf source ee bytes)
  poll id 1000

/-- What a server's function answers with, `none` for no answer at all; and, for an observer, what
it says it has put into EE memory: so many bytes, from this address on. -/
structure Answer where
  words : Option (List ℤ)
  delivered : List (UInt32 × ℕ)
deriving Repr, DecidableEq

/-! ### Watching a server -/

/-- What has been seen of a server: the transfers it has handed over, and whether it has yet to wait
for the last one. -/
structure Watch where
  sent : List Transfer
  waiting : Bool

/-- Whether a server may touch its memory: MCSERV always, as it does not always wait. -/
def Watch.Quiet (w : Watch) (i : Service) : Prop := i = .mcserv ∨ w.waiting = false

/-- The bytes are the server's own. -/
def Layout.Owns (L : Layout) (i : Service) (address : UInt32) (n : ℕ) : Prop :=
  ∀ k < n, L.own i (address + UInt32.ofNat k)

/-- A server keeps to its own memory, and does not touch it while a transfer is taken from it. -/
def watch (L : Layout) (i : Service) : Monitor Op.Reply Watch where
  allows w o :=
    match o with
    | .store address bytes => w.Quiet i ∧ L.Owns i address bytes.length
    | .call c => ∀ b, c.buffer? = some b → w.Quiet i ∧ L.Owns i b.1 b.2
    | .setDma t => w.Quiet i ∧ ∀ a, t.Reads a → L.own i a
    | _ => True
  relies _ _ _ := True
  next w o r :=
    match o, r with
    | .setDma t, (id : UInt32) => ⟨w.sent ++ [t], id ≠ 0⟩
    | .await, _ => ⟨w.sent, false⟩
    | _, _ => w

/-- The transfers carry `n` bytes to `ee`. -/
def Carry (sent : List Transfer) (ee : UInt32) (n : ℕ) : Prop :=
  ∀ k < n, ∃ t ∈ sent, ∃ j < t.size.toNat, t.dest + UInt32.ofNat j = ee + UInt32.ofNat k

/-- The server is done: everything it says it has delivered is carried by a transfer. -/
def Delivered (i : Service) (a : Answer) (w : Watch) : Prop :=
  w.Quiet i ∧ ∀ d ∈ a.delivered, Carry w.sent d.1 d.2

section Watching

variable {L : Layout} {i : Service} {w : Watch} {α : Type}

@[simp]
theorem wp_load {a : UInt32} {n : ℕ}
    {Q : { bytes : List UInt8 // bytes.length = n } → Watch → Prop} :
    (load a n).wp (watch L i) Q w ↔ ∀ r, Q r w :=
  ⟨fun h r => h.2 r trivial, fun h => ⟨trivial, fun r _ => h r⟩⟩

@[simp]
theorem wp_store {a : UInt32} {bytes : List UInt8} {Q : Unit → Watch → Prop} :
    (store a bytes).wp (watch L i) Q w ↔ (w.Quiet i ∧ L.Owns i a bytes.length) ∧ Q () w :=
  and_congr_right fun _ => ⟨fun h => h () trivial, fun h _ _ => h⟩

@[simp]
theorem wp_call {c : Call} {Q : c.Reply → Watch → Prop} :
    (call c).wp (watch L i) Q w ↔
      (∀ b, c.buffer? = some b → w.Quiet i ∧ L.Owns i b.1 b.2) ∧ ∀ r, Q r w :=
  and_congr_right fun _ => ⟨fun h r => h r trivial, fun h r _ => h r⟩

@[simp]
theorem wp_setDma {t : Transfer} {Q : UInt32 → Watch → Prop} :
    (setDma t).wp (watch L i) Q w ↔
      (w.Quiet i ∧ ∀ a, t.Reads a → L.own i a) ∧ ∀ id, Q id ⟨w.sent ++ [t], id ≠ 0⟩ :=
  and_congr_right fun _ => ⟨fun h r => h r trivial, fun h r _ => h r⟩

@[simp]
theorem wp_dmaStat {Q : ℤ → Watch → Prop} :
    dmaStat.wp (watch L i) Q w ↔ ∀ r, Q r w :=
  ⟨fun h r => h.2 r trivial, fun h => ⟨trivial, fun r _ => h r⟩⟩

@[simp]
theorem wp_await {Q : Unit → Watch → Prop} :
    await.wp (watch L i) Q w ↔ Q () ⟨w.sent, false⟩ :=
  ⟨fun h => h.2 () trivial, fun h => ⟨trivial, fun _ _ => h⟩⟩

@[simp]
theorem wp_delay {Q : Unit → Watch → Prop} : delay.wp (watch L i) Q w ↔ Q () w :=
  ⟨fun h => h.2 () trivial, fun h => ⟨trivial, fun _ _ => h⟩⟩

@[simp]
theorem wp_loadWord {a : UInt32} {Q : UInt32 → Watch → Prop} :
    (loadWord a).wp (watch L i) Q w ↔
      ∀ bytes : { bytes : List UInt8 // bytes.length = 4 },
        Q (UInt32.ofNat (littleEndian bytes.1)) w := by
  simp only [loadWord, Prog.wp_bind, wp_load, Prog.wp_pure]

@[simp]
theorem wp_loadHalf {a : UInt32} {Q : UInt32 → Watch → Prop} :
    (loadHalf a).wp (watch L i) Q w ↔
      ∀ bytes : { bytes : List UInt8 // bytes.length = 2 },
        Q (UInt32.ofNat (littleEndian bytes.1)) w := by
  simp only [loadHalf, Prog.wp_bind, wp_load, Prog.wp_pure]

/-- Some of what a server owns. -/
theorem Layout.Owns.sub {a : UInt32} {m n : ℕ} (h : L.Owns i a n) {k : ℕ} (hk : k + m ≤ n) :
    L.Owns i (a + UInt32.ofNat k) m := by
  intro j hj
  rw [UInt32.add_assoc, ← UInt32.ofNat_add]
  exact h (k + j) (by omega)

theorem Layout.Owns.take {a : UInt32} {m n : ℕ} (h : L.Owns i a n) (hm : m ≤ n) : L.Owns i a m :=
  fun k hk => h k (by omega)

/-- A transfer out of a server's memory takes nothing from elsewhere. -/
theorem reads_own {source ee bytes : UInt32} {n : ℕ} (hown : L.Owns i source n)
    (hsize : bytes.toNat ≤ 0x1000) (hn : (bytes.toNat + 15) / 16 * 16 ≤ n) :
    ∀ a, (transferOf source ee bytes).Reads a → L.own i a := by
  rintro a ⟨k, hk, rfl⟩
  have hquads : (transferOf source ee bytes).block.quads = (bytes.toNat + 15) / 16 :=
    Link.quads_block (t := transferOf source ee bytes) (show bytes.toNat < 2 ^ 31 by omega)
  rw [hquads] at hk
  have hsource : Bus.source (transferOf source ee bytes).block = source := by
    have hzero : source + UInt32.ofNat 0 = source := UInt32.add_zero source
    exact (Link.source_block _).trans (L.physical i source (hzero ▸ hown 0 (by omega)))
  rw [hsource]
  exact hown k (by omega)

/-- A transfer that is waited for. -/
theorem wp_sendAndWait {source ee bytes : UInt32} {n : ℕ} {Q : Unit → Watch → Prop}
    (hquiet : w.Quiet i) (hown : L.Owns i source n) (hsize : bytes.toNat ≤ 0x1000)
    (hn : (bytes.toNat + 15) / 16 * 16 ≤ n)
    (hQ : Q () ⟨w.sent ++ [transferOf source ee bytes], false⟩) :
    (sendAndWait source ee bytes).wp (watch L i) Q w := by
  unfold sendAndWait
  rw [Prog.wp_bind, wp_setDma]
  refine ⟨⟨hquiet, reads_own hown hsize hn⟩, fun id => ?_⟩
  by_cases hid : id = 0
  · subst hid
    exact hQ
  · rw [if_pos hid, wp_await]
    exact hQ

/-- Looking changes nothing. -/
theorem wp_poll {id : UInt32} {n : ℕ} {Q : Unit → Watch → Prop} (hQ : Q () w) :
    (Mcserv.poll id n).wp (watch L i) Q w := by
  induction n with
  | zero => exact hQ
  | succ n ih =>
    unfold Mcserv.poll
    split
    · rw [Prog.wp_bind, wp_dmaStat]
      intro stat
      split
      · rw [Prog.wp_bind, wp_delay]
        exact ih
      · exact hQ
    · exact hQ

/-- MCSERV's transfers, of which it may not see the end. -/
theorem wp_mcserv_sendToEe {source ee bytes : UInt32} {n : ℕ} {Q : Unit → Watch → Prop}
    (hquiet : w.Quiet i) (hown : L.Owns i source n) (hsize : bytes.toNat ≤ 0x1000)
    (hn : (bytes.toNat + 15) / 16 * 16 ≤ n)
    (hQ : ∀ b, Q () ⟨w.sent ++ [transferOf source ee bytes], b⟩) :
    (Mcserv.sendToEe ee source bytes).wp (watch L i) Q w := by
  unfold Mcserv.sendToEe
  rw [Prog.wp_bind, wp_setDma]
  exact ⟨⟨hquiet, reads_own hown hsize hn⟩, fun id => wp_poll (hQ _)⟩

end Watching

/-! ### What transfers carry -/

section Carrying

variable {sent sent' : List Transfer} {ee : UInt32} {m n : ℕ}

@[simp]
theorem carry_zero : Carry sent ee 0 := nofun

theorem Carry.mono (h : Carry sent ee n) (hsent : sent ⊆ sent') : Carry sent' ee n := by
  intro k hk
  obtain ⟨t, ht, hj⟩ := h k hk
  exact ⟨t, hsent ht, hj⟩

theorem Carry.more (h : Carry sent ee n) (t : Transfer) : Carry (sent ++ [t]) ee n :=
  h.mono (List.subset_append_left ..)

/-- What two stretches carry, they carry together. -/
theorem Carry.add (h : Carry sent ee m) (h' : Carry sent (ee + UInt32.ofNat m) n) :
    Carry sent ee (m + n) := by
  intro k hk
  rcases Nat.lt_or_ge k m with hlt | hge
  · exact h k hlt
  · obtain ⟨j, rfl⟩ := Nat.exists_eq_add_of_le hge
    rw [UInt32.ofNat_add, ← UInt32.add_assoc]
    exact h' j (by omega)

/-- One transfer carries what lies within it. -/
theorem carry_last {t : Transfer} {k : ℕ} (hdest : t.dest + UInt32.ofNat k = ee)
    (hsize : k + n ≤ t.size.toNat) : Carry (sent ++ [t]) ee n := by
  intro j hj
  refine ⟨t, List.mem_append_right _ (.head _), k + j, by omega, ?_⟩
  rw [UInt32.ofNat_add, ← UInt32.add_assoc, hdest]

end Carrying

end PS2Bios.Servers
