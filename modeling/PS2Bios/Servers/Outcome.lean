import PS2Bios.Servers.Operations
import PS2Bios.Sif.Receive

/-!
# What a server leaves in EE memory

A server at work on one file. IOMAN answers its reads out of what the file holds, from the position
on; how many bytes a read gets, and whether it fails, is the file's own affair. A seek goes no
further than the end, as in ROMDRV and CDVDMAN. SIFMAN takes a transfer or finds the ring full. A
transfer that is taken lands as IOP memory is when it is handed over, because the server waits until
it has.

`serving` is all that, as a monitor: the executions under it are what a server can do.
-/

namespace PS2Bios.Servers

open Sif

/-- The address a tag is given. -/
def physical (address : UInt32) : UInt32 := address &&& 0x1FFFFFFF

/-- A file, and what reading it answers: how many bytes from a position on, of so many asked for. -/
structure File where
  contents : List UInt8
  answer : ℕ → ℕ → ℤ
  answer_le : ∀ p n, answer p n ≤ n
  answer_left : ∀ p n, answer p n ≤ (contents.length - p : ℕ)

/-- A file of which a read gets as many bytes as it asks for, while there are any. -/
def File.whole (contents : List UInt8) : File where
  contents := contents
  answer p n := (min n (contents.length - p) : ℕ)
  answer_le p n := by omega
  answer_left p n := by omega

/-- What there is of IOP memory, EE memory and the file. -/
structure World where
  iop : UInt32 → UInt8
  ee : UInt32 → UInt8
  /-- The descriptor the file is open under. -/
  fd : UInt32
  position : ℕ
  /-- For an observer: what the first read that failed has answered. -/
  failure : Option ℤ
  /-- For an observer: a transfer has found the ring full. -/
  refused : Bool

/-- The bytes a read gets. -/
def File.read (f : File) (p n : ℕ) : List UInt8 := (f.contents.drop p).take (f.answer p n).toNat

/-- What a call is answered, when it is about the file. -/
def File.Answers (f : File) (w : World) : (c : Call) → c.Reply → Prop
  | .ioRead fd _ size, r => fd = w.fd →
      r.value = f.answer w.position size.toNat ∧ r.bytes = f.read w.position size.toNat
  | .ioLseek fd offset whence, r => fd = w.fd → whence = 0 → offset.toNat < 2 ^ 31 →
      r.value = (min offset.toNat f.contents.length : ℕ)
  | _, _ => True

/-- What a call leaves. -/
def World.call (w : World) (c : Call) (r : c.Reply) : World :=
  let w := { w with iop := c.buffer?.elim w.iop fun b => put w.iop b.1 r.bytes }
  match c with
  | .ioOpen _ _ =>
    if 0 ≤ r.value then { w with fd := UInt32.ofNat r.value.toNat, position := 0 } else w
  | .ioRead fd _ _ =>
    if fd = w.fd then
      { w with
        position := w.position + r.value.toNat
        failure := if r.value < 0 then w.failure.or (some r.value) else w.failure }
    else w
  | .ioLseek fd _ _ =>
    if fd = w.fd ∧ 0 ≤ r.value then { w with position := r.value.toNat } else w
  | _ => w

/-- EE memory behind a transfer. -/
def World.landed (w : World) (t : Transfer) : UInt32 → UInt8 :=
  put w.ee t.block.destination (bytesOf (quadsOf w.iop t.block))

/-- A load reads the memory, and a call of another module is answered by the file. -/
def World.Replied (f : File) (w : World) : (o : Op) → o.Reply → Prop
  | .load a n, r => r.1 = (List.range n).map fun k => w.iop (a + UInt32.ofNat k)
  | .call c, r => f.Answers w c r
  | _, _ => True

/-- What an operation does to the memories on both sides. -/
def World.after (w : World) : (o : Op) → o.Reply → World
  | .store a bytes, _ => { w with iop := put w.iop a bytes }
  | .call c, r => w.call c r
  | .setDma t, (id : UInt32) =>
    if id = 0 then { w with refused := true } else { w with ee := w.landed t }
  | _, _ => w

/-- A server at work on a file, which is to load some of IOP memory only. -/
def servingWithin (f : File) (loads : World → UInt32 → ℕ → Prop) : Monitor Op.Reply World where
  allows w o :=
    match o with
    | .load a n => loads w a n
    | _ => True
  relies := World.Replied f
  next := World.after

/-- What is watched over a server: that it is replied as the file answers. -/
def serving (f : File) : Monitor Op.Reply World := servingWithin f fun _ _ _ => True

variable {f : File} {w : World} {loads : World → UInt32 → ℕ → Prop}

theorem File.length_read (f : File) (p n : ℕ) : (f.read p n).length = (f.answer p n).toNat := by
  have hleft := f.answer_left p n
  rw [File.read, List.length_take, List.length_drop]
  omega

/-- What a call is answered, for what is not about the file nothing. -/
def File.reply (f : File) (w : World) : (c : Call) → c.Reply
  | .ioRead _ _ size =>
    { value := f.answer w.position size.toNat
      bytes := f.read w.position size.toNat
      out := 0
      fits := by
        have hle := f.answer_le w.position size.toNat
        rw [f.length_read]
        show _ ≤ size.toNat
        omega
      bound := by
        rintro n ⟨⟩
        exact f.answer_le w.position size.toNat }
  | .ioLseek _ offset _ => ⟨(min offset.toNat f.contents.length : ℕ), [], 0, Nat.zero_le _, nofun⟩
  | .ioOpen _ _ => ⟨0, [], 0, Nat.zero_le _, nofun⟩
  | .ioClose _ => ⟨0, [], 0, Nat.zero_le _, nofun⟩
  | .ioGetstat _ _ => ⟨0, [], 0, Nat.zero_le _, nofun⟩
  | .isIllegal _ => ⟨0, [], 0, Nat.zero_le _, nofun⟩
  | .loadStart _ _ _ => ⟨0, [], 0, Nat.zero_le _, nofun⟩
  | .searchFile _ _ => ⟨0, [], 0, Nat.zero_le _, nofun⟩
  | .detect _ _ => ⟨0, [], 0, Nat.zero_le _, nofun⟩
  | .type _ => ⟨0, [], 0, Nat.zero_le _, nofun⟩
  | .getdir _ _ _ _ _ _ => ⟨0, [], 0, Nat.zero_le _, nofun⟩

/-- A reply to everything, `id` being what the ring answers. -/
def World.reply (f : File) (id : UInt32) (w : World) : (o : Op) → o.Reply
  | .load a n => ⟨(List.range n).map fun k => w.iop (a + UInt32.ofNat k), by simp⟩
  | .store _ _ => ()
  | .call c => f.reply w c
  | .setDma _ => id
  | .dmaStat => (0 : ℤ)
  | .await => ()
  | .delay => ()

/-- The `n`th thing a server asks. -/
def asked (f : File) (id : UInt32) {α : Type} : ℕ → Server α → World → Option (Op × World)
  | _, .ret _, _ => none
  | 0, .ask o _, w => some (o, w)
  | n + 1, .ask o k, w => asked f id n (k (w.reply f id o)) (w.after o (w.reply f id o))

theorem toNat_physical (a : UInt32) : (physical a).toNat = a.toNat % 2 ^ 29 := by
  rw [physical, UInt32.toNat_and]
  exact Nat.and_two_pow_sub_one_eq_mod _ 29

/-- Further on, within the space there is. -/
theorem toNat_physical_add {a b : UInt32} (h : (physical a).toNat + b.toNat < 2 ^ 29) :
    (physical (a + b)).toNat = (physical a).toNat + b.toNat := by
  rw [toNat_physical] at h ⊢
  rw [toNat_physical, UInt32.toNat_add]
  omega

/-- Where a transfer lands, and what. -/
theorem World.landed_eq {source ee bytes a : UInt32} (hsource : source &&& 0x7FFFFFFF = source)
    (hbytes : bytes.toNat ≤ 0x1000) :
    w.landed (transferOf source ee bytes) a =
      if (physical ee).toNat ≤ a.toNat ∧
          a.toNat < (physical ee).toNat + (bytes.toNat + 15) / 16 * 16 then
        w.iop (source + UInt32.ofNat (a.toNat - (physical ee).toNat))
      else w.ee a := by
  have hquads : (transferOf source ee bytes).block.quads = (bytes.toNat + 15) / 16 :=
    Link.quads_block (t := transferOf source ee bytes) (show bytes.toNat < 2 ^ 31 by omega)
  have hfrom : Bus.source (transferOf source ee bytes).block = source :=
    (Link.source_block _).trans hsource
  have hdestination : (transferOf source ee bytes).block.destination = physical ee := rfl
  have hlow := toNat_physical ee
  have hlength : (bytesOf (quadsOf w.iop (transferOf source ee bytes).block)).length =
      (bytes.toNat + 15) / 16 * 16 := by
    rw [quadsOf, bytesOf_quadsOf, List.length_map, List.length_range, hquads, Nat.mul_comm]
  rw [World.landed, hdestination, put_toNat_eq (by rw [hlength]; omega), hlength]
  refine ite_congr rfl (fun hin => ?_) fun _ => rfl
  rw [quadsOf, bytesOf_quadsOf, hfrom, hquads, List.getD_eq_getElem?_getD, List.getElem?_map,
    List.getElem?_range (by omega)]
  rfl

end PS2Bios.Servers
