import PS2Bios.Library.Bytes
import PS2Bios.Library.EveryStep
import PS2Bios.Library.Word
import Mathlib.Data.UInt

/-!
# The configuration session

Ordinals 31 to 34 of `cdvdman.cpp` and function numbers 14 to 17 of `cdvdfsv.cpp`, which forward to
them. The mechanism controller takes one turn for each command sent to it. Two modules remember how
many blocks the session was opened for: `CDVDMAN` what its last `open` asked for, whatever came of
it, and `CDVDFSV` what it last passed on.

The addresses of the callers' blocks that the two loops use are kept in `touched`.
-/

namespace PS2Bios.Cdvdman

open Bytes

/-- The command that opens the configuration. -/
def kSCmdOpenConfig : UInt8 := 0x40

/-- The command that reads its next block. -/
def kSCmdReadConfig : UInt8 := 0x41

/-- The command that writes its next block. -/
def kSCmdWriteConfig : UInt8 := 0x42

/-- The command that closes it. -/
def kSCmdCloseConfig : UInt8 := 0x43

/-- The bytes of a block on the wire, the check byte among them. -/
def kConfigWireBytes : ℕ := 16

/-- The bytes of a block. -/
def kConfigBytes : ℕ := 15

/-- The bytes of the server's reply area. -/
def kReplyBytes : ℕ := 0x80

/-- The bytes of the reply in front of the blocks. -/
def kConfigHeaderBytes : ℕ := 8

/-- `(kReplyBytes - kConfigHeaderBytes) / kConfigBlockBytes`. -/
def kConfigBlocksMax : UInt32 := 8

/-- What a command meets: the semaphore, the busy bit, and the bytes that come back. -/
structure Turn where
  polled : Bool
  busy : Bool
  fifo : List UInt8
deriving DecidableEq, Repr

/-- `sendSCommand`: the results with what came back in place of their first bytes, or `none` when
the command is declined. -/
def sendSCommand (turn : Turn) (results : List UInt8) : Option (List UInt8) :=
  if !turn.polled then none
  else if turn.busy then none
  else some (turn.fifo.take results.length ++ results.drop turn.fifo.length)

/-- What the two modules remember of the block count, and the memory. -/
structure Session where
  /-- `config_blocks` of `CDVDMAN`. -/
  config_blocks : UInt32
  /-- `config_blocks` of `CDVDFSV`. -/
  fsv_config_blocks : UInt32
  ram : Ram
  /-- How many commands have been sent, declined ones included. -/
  turns : ℕ
  /-- The commands that went out, with their parameters. -/
  sent : List (UInt8 × List UInt8)
  touched : List ℕ

section Ordinals

variable (mecha : ℕ → Turn)

/-- A command sent to the mechanism, which takes one of its turns. -/
def send (command : UInt8) (params results : List UInt8) (s : Session) :
    Option (List UInt8) × Session :=
  match sendSCommand (mecha s.turns) results with
  | none => (none, { s with turns := s.turns + 1 })
  | some results =>
    (some results, { s with turns := s.turns + 1, sent := s.sent ++ [(command, params)] })

/-- An ordinal's answer, and the status word it stores if it stores one. -/
structure Answer where
  result : ℤ
  status : Option UInt32
deriving DecidableEq, Repr

/-- The count is remembered before the command is sent. -/
def sceCdOpenConfig (a b count : UInt32) (s : Session) : Answer × Session :=
  match send mecha kSCmdOpenConfig [b.toUInt8, a.toUInt8, count.toUInt8] [0]
      { s with config_blocks := count } with
  | (none, s) => (⟨0, some 0⟩, s)
  | (some results, s) => (⟨1, some (results.headD 0).toUInt32⟩, s)

/-- `sceCdCloseConfig`: the count is forgotten whether the command goes through or not. -/
def sceCdCloseConfig (s : Session) : Answer × Session :=
  match send mecha kSCmdCloseConfig [] [0] { s with config_blocks := 0 } with
  | (none, s) => (⟨0, none⟩, s)
  | (some results, s) => (⟨1, some (results.headD 0).toUInt32⟩, s)

/-- The addresses of one of the caller's blocks. -/
def blockAt (buffer : ℕ) : List ℕ := (List.range kConfigBytes).map (buffer + ·)

/-- The loop of `sceCdReadConfig`, with the blocks that are left. -/
def readBlocks : ℕ → ℕ → ℕ → Option UInt32 → Session → ℕ × Option UInt32 × Session
  | 0, _, done, status, s => (done, status, s)
  | left + 1, buffer, done, status, s =>
    match send mecha kSCmdReadConfig [] (List.replicate kConfigWireBytes 0) s with
    | (none, s) => (done, status, s)
    | (some block, s) =>
      let sum := (block.take kConfigBytes).sum
      let verdict := if sum = block.getD kConfigBytes 0 then 0 else 1
      readBlocks left (buffer + kConfigBytes) (done + 1) (some verdict)
        { s with
          ram := write s.ram buffer (block.take kConfigBytes)
          touched := s.touched ++ blockAt buffer }

/-- `sceCdReadConfig`: as many blocks as the open named. -/
def sceCdReadConfig (buffer : ℕ) (s : Session) : Answer × Session :=
  match readBlocks mecha s.config_blocks.toNat buffer 0 none s with
  | (done, status, s) => (⟨int32 done, status⟩, s)

/-- The loop of `sceCdWriteConfig`. -/
def writeBlocks : ℕ → ℕ → ℕ → Option UInt32 → Session → ℕ × Option UInt32 × Session
  | 0, _, done, status, s => (done, status, s)
  | left + 1, buffer, done, status, s =>
    let bytes := (blockAt buffer).map s.ram
    match send mecha kSCmdWriteConfig (bytes ++ [bytes.sum]) [0]
        { s with touched := s.touched ++ blockAt buffer } with
    | (none, s) => (done, status, s)
    | (some results, s) =>
      writeBlocks left (buffer + kConfigBytes) (done + 1) (some (results.headD 0).toUInt32) s

/-- `sceCdWriteConfig`: as many blocks as the open named. -/
def sceCdWriteConfig (buffer : ℕ) (s : Session) : Answer × Session :=
  match writeBlocks mecha s.config_blocks.toNat buffer 0 none s with
  | (done, status, s) => (⟨int32 done, status⟩, s)

/-! ### `CDVDFSV` -/

variable (area : ℕ)

/-- The count of an open request, as it is passed on. -/
def openCount (m : Ram) (buffer : ℕ) (size : UInt32) : UInt32 :=
  let packed := if 4 ≤ size then UInt32.ofNat (readWord m buffer) else 0
  let count := (packed >>> 16) &&& 0xFF
  if count < kConfigBlocksMax then count else kConfigBlocksMax

/-- `cleared`: the reply area is at `area`. -/
def cleared (s : Session) : Session :=
  { s with ram := write s.ram area (List.replicate kReplyBytes 0) }

/-- The ordinal's answer goes to the first two words of the reply. -/
def replied : Answer × Session → Session
  | (answer, s) =>
    let ram := match answer.status with
      | none => s.ram
      | some status => writeWord s.ram (area + 4) status.toNat
    { s with ram := writeWord ram area (toWord answer.result) }

/-- The four function numbers of `serveMain`. -/
inductive Fno
  | openConfig
  | closeConfig
  | readConfig
  | writeConfig
deriving DecidableEq, Repr

/-- `serveMain`: the reply area is cleared and the request's function decides. -/
def serveMain (fno : Fno) (buffer : ℕ) (size : UInt32) (s : Session) : Session :=
  let s := cleared area s
  match fno with
  | .openConfig =>
    let packed := if 4 ≤ size then UInt32.ofNat (readWord s.ram buffer) else 0
    let config_blocks := openCount s.ram buffer size
    replied area (sceCdOpenConfig mecha ((packed >>> 8) &&& 0xFF) (packed &&& 0xFF) config_blocks
      { s with fsv_config_blocks := config_blocks })
  | .closeConfig => replied area (sceCdCloseConfig mecha { s with fsv_config_blocks := 0 })
  | .readConfig => replied area (sceCdReadConfig mecha (area + kConfigHeaderBytes) s)
  | .writeConfig =>
    if s.fsv_config_blocks * 15 ≤ size then replied area (sceCdWriteConfig mecha buffer s) else s

end Ordinals

/-! ### Calls and what is to hold of them -/

/-- A call of one of the ordinals, or a request to `CDVDFSV`. -/
inductive Call
  | openConfig (a b count : UInt32)
  | closeConfig
  | readConfig (buffer : ℕ)
  | writeConfig (buffer : ℕ)
  | serve (fno : Fno) (buffer : ℕ) (size : UInt32)
deriving DecidableEq, Repr

section Calls

variable (mecha : ℕ → Turn) (area : ℕ) (ok : UInt8 → Bool)

/-- The answer of a call, which `CDVDFSV` gives in the first word of the reply. -/
def Call.perform (s : Session) : Call → ℤ × Session
  | .openConfig a b count => (sceCdOpenConfig mecha a b count s).map Answer.result id
  | .closeConfig => (sceCdCloseConfig mecha s).map Answer.result id
  | .readConfig buffer => (sceCdReadConfig mecha buffer s).map Answer.result id
  | .writeConfig buffer => (sceCdWriteConfig mecha buffer s).map Answer.result id
  | .serve fno buffer size =>
    (int32 (readWord (serveMain mecha area fno buffer size s).ram area),
      serveMain mecha area fno buffer size s)

/-- The count a call opens the session with. -/
def Call.opens (s : Session) : Call → Option UInt32
  | .openConfig _ _ count => some count
  | .serve .openConfig buffer size => some (openCount (cleared area s).ram buffer size)
  | _ => none

/-- Where a call that reads has its blocks put. -/
def Call.reads : Call → Option ℕ
  | .readConfig buffer => some buffer
  | .serve .readConfig _ _ => some (area + kConfigHeaderBytes)
  | _ => none

/-- Where a call that writes has its blocks taken from. -/
def Call.writes : Call → Option ℕ
  | .writeConfig buffer => some buffer
  | .serve .writeConfig buffer _ => some buffer
  | _ => none

/-- The command went out, and `ok` of what the mechanism controller said. -/
def succeeded (turn : Turn) : Bool := turn.polled && !turn.busy && ok (turn.fifo.headD 0)

/-- The session, and how many blocks the last successful open named. -/
abbrev Named := Session × ℕ

/-- A call made, with the count kept that the last successful open named. -/
def Call.step (call : Call) (p : Named) : Named :=
  ((call.perform mecha area p.1).2, match call.opens area p.1 with
    | none => p.2
    | some count => if succeeded ok (mecha p.1.turns) then count.toNat else p.2)

/-- The addresses of the caller's blocks that a call uses. -/
def Call.uses (call : Call) (s : Session) : List ℕ :=
  (call.perform mecha area s).2.touched.drop s.touched.length

/-- A failed open leaves no session; a read answers no more blocks than the last successful open
named; the blocks copied stay within a buffer of that many blocks, within the reply area and within
the request. -/
structure Call.Bounded (call : Call) (p : Named) : Prop where
  failed : ∀ count, call.opens area p.1 = some count → succeeded ok (mecha p.1.turns) = false →
    (call.perform mecha area p.1).2.config_blocks = 0
  answered : ∀ buffer, call.reads area = some buffer →
    (call.perform mecha area p.1).1 ≤ (p.2 : ℤ)
  within : ∀ buffer, call.reads area = some buffer ∨ call.writes = some buffer →
    ∀ x ∈ call.uses mecha area p.1, buffer ≤ x ∧ x < buffer + kConfigBytes * p.2
  reply : ∀ buffer size, call = .serve .readConfig buffer size →
    ∀ x ∈ call.uses mecha area p.1, x < area + kReplyBytes
  request : ∀ buffer size, call = .serve .writeConfig buffer size →
    ∀ x ∈ call.uses mecha area p.1, x < buffer + size.toNat

/-- An open succeeds or names no block. When `CDVDFSV` is to read, `CDVDMAN` has no more blocks than
fit the reply area, and when it is to write, no more than are in the request. -/
structure Call.Safe (call : Call) (p : Named) : Prop where
  opened : ∀ count, call.opens area p.1 = some count →
    succeeded ok (mecha p.1.turns) = true ∨ count = 0
  reply : ∀ buffer size, call = .serve .readConfig buffer size →
    p.1.config_blocks ≤ kConfigBlocksMax
  request : ∀ buffer size, call = .serve .writeConfig buffer size →
    p.1.fsv_config_blocks * 15 ≤ size → kConfigBytes * p.1.config_blocks.toNat ≤ size.toNat

end Calls

/-! ### The two loops -/

variable {mecha : ℕ → Turn} {area : ℕ} {ok : UInt8 → Bool}

theorem mem_blockAt {buffer x : ℕ} (h : x ∈ blockAt buffer) :
    buffer ≤ x ∧ x < buffer + kConfigBytes := by
  obtain ⟨i, hi, rfl⟩ := List.mem_map.mp h
  have hlt := List.mem_range.mp hi
  omega

theorem send_touched (mecha : ℕ → Turn) (command : UInt8) (params results : List UInt8)
    (s : Session) : (send mecha command params results s).2.touched = s.touched ∧
    (send mecha command params results s).2.config_blocks = s.config_blocks := by
  unfold send
  split <;> exact ⟨rfl, rfl⟩

/-- The blocks used lie one behind another, as many as were left. -/
structure Uses (left buffer : ℕ) (s s' : Session) : Prop where
  config_blocks : s'.config_blocks = s.config_blocks
  touched : ∃ used, s'.touched = s.touched ++ used ∧
    ∀ x ∈ used, buffer ≤ x ∧ x < buffer + kConfigBytes * left

theorem Uses.refl (left buffer : ℕ) (s : Session) : Uses left buffer s s :=
  ⟨rfl, [], (List.append_nil _).symm, nofun⟩

/-- One block, and then the rest. -/
theorem Uses.block {left buffer : ℕ} {s s' t : Session}
    (htouched : s'.touched = s.touched ++ blockAt buffer)
    (hblocks : s'.config_blocks = s.config_blocks) (h : Uses left (buffer + kConfigBytes) s' t) :
    Uses (left + 1) buffer s t := by
  obtain ⟨hconfig, used, htouched', hused⟩ := h
  refine ⟨hconfig.trans hblocks, blockAt buffer ++ used, ?_, fun x hx => ?_⟩
  · rw [htouched', htouched, List.append_assoc]
  · rw [Nat.mul_succ]
    rcases List.mem_append.mp hx with hx | hx
    · have := mem_blockAt hx
      omega
    · have := hused x hx
      omega

/-- The read loop takes a turn for each block it asks for and stores what it got into its own
buffer. -/
theorem readBlocks_uses (mecha : ℕ → Turn) (left buffer done : ℕ) (status : Option UInt32)
    (s : Session) :
    (readBlocks mecha left buffer done status s).1 ≤ done + left ∧
    Uses left buffer s (readBlocks mecha left buffer done status s).2.2 := by
  induction left generalizing buffer done status s with
  | zero => exact ⟨Nat.le_refl _, .refl ..⟩
  | succ left ih =>
    obtain ⟨htouched, hblocks⟩ :=
      send_touched mecha kSCmdReadConfig [] (List.replicate kConfigWireBytes 0) s
    rw [readBlocks]
    generalize send mecha kSCmdReadConfig [] (List.replicate kConfigWireBytes 0) s = r at *
    obtain ⟨_ | block, s'⟩ := r
    · refine ⟨Nat.le_add_right _ _, hblocks, [], ?_, nofun⟩
      rw [List.append_nil]
      exact htouched
    · dsimp only at htouched hblocks ⊢
      generalize hnext : ({ s' with
        ram := write s'.ram buffer (block.take kConfigBytes)
        touched := s'.touched ++ blockAt buffer } : Session) = next
      have htouched' : next.touched = s.touched ++ blockAt buffer := by rw [← hnext, ← htouched]
      have hblocks' : next.config_blocks = s.config_blocks := by rw [← hnext, ← hblocks]
      have hrest := ih (buffer + kConfigBytes) (done + 1)
        (some (if (block.take kConfigBytes).sum = block.getD kConfigBytes 0 then 0 else 1)) next
      exact ⟨by omega, .block htouched' hblocks' hrest.2⟩

/-- The write loop takes a turn for each block and reads its own buffer. -/
theorem writeBlocks_uses (left buffer done : ℕ) (status : Option UInt32) (s : Session) :
    Uses left buffer s (writeBlocks mecha left buffer done status s).2.2 := by
  induction left generalizing buffer done status s with
  | zero => exact .refl ..
  | succ left ih =>
    rw [writeBlocks]
    obtain ⟨htouched, hblocks⟩ := send_touched mecha kSCmdWriteConfig
      ((blockAt buffer).map s.ram ++ [((blockAt buffer).map s.ram).sum]) [0]
      { s with touched := s.touched ++ blockAt buffer }
    generalize send mecha kSCmdWriteConfig
      ((blockAt buffer).map s.ram ++ [((blockAt buffer).map s.ram).sum]) [0]
      { s with touched := s.touched ++ blockAt buffer } = r at *
    obtain ⟨_ | results, s'⟩ := r
    · exact .block htouched hblocks (.refl ..)
    · exact .block htouched hblocks (ih ..)

/-! ### One call -/

/-- What a loop touches of the memory lies in the blocks it was asked for. -/
theorem drop_touched {s s' : Session} {left buffer : ℕ} (h : Uses left buffer s s') {x : ℕ}
    (hx : x ∈ s'.touched.drop s.touched.length) :
    buffer ≤ x ∧ x < buffer + kConfigBytes * left := by
  obtain ⟨-, used, htouched, hused⟩ := h
  rw [htouched, List.drop_left] at hx
  exact hused x hx

theorem int32_le (n : ℕ) : int32 n ≤ (n : ℤ) := by
  unfold int32
  split <;> omega

theorem int32_toWord_int32 (n : ℕ) : int32 (toWord (int32 n)) = int32 n := by
  unfold int32 toWord
  split <;> split <;> omega

/-- A read answers at most the count of the open, and uses no more than that many blocks. -/
theorem sceCdReadConfig_uses (mecha : ℕ → Turn) (buffer : ℕ) (s : Session) :
    (∃ done, (sceCdReadConfig mecha buffer s).1.result = int32 done ∧
      done ≤ s.config_blocks.toNat) ∧
    Uses s.config_blocks.toNat buffer s (sceCdReadConfig mecha buffer s).2 := by
  obtain ⟨hdone, huses⟩ := readBlocks_uses mecha s.config_blocks.toNat buffer 0 none s
  exact ⟨⟨_, rfl, by omega⟩, huses⟩

theorem sceCdWriteConfig_uses (mecha : ℕ → Turn) (buffer : ℕ) (s : Session) :
    Uses s.config_blocks.toNat buffer s (sceCdWriteConfig mecha buffer s).2 :=
  writeBlocks_uses s.config_blocks.toNat buffer 0 none s

/-- What an open leaves as the count, and that it answers by whether the command went out. -/
theorem sceCdOpenConfig_blocks (a b count : UInt32) (s : Session) :
    (sceCdOpenConfig mecha a b count s).2.config_blocks = count := by
  obtain ⟨-, hblocks⟩ := send_touched mecha kSCmdOpenConfig
    [b.toUInt8, a.toUInt8, count.toUInt8] [0] { s with config_blocks := count }
  unfold sceCdOpenConfig
  split <;> rename_i h <;> rw [h] at hblocks <;> exact hblocks

theorem sceCdCloseConfig_blocks (s : Session) :
    (sceCdCloseConfig mecha s).2.config_blocks = 0 := by
  obtain ⟨-, hblocks⟩ := send_touched mecha kSCmdCloseConfig [] [0] { s with config_blocks := 0 }
  unfold sceCdCloseConfig
  split <;> rename_i h <;> rw [h] at hblocks <;> exact hblocks

/-- The first word of the reply is the ordinal's answer. -/
theorem readWord_replied (r : Answer × Session) :
    readWord (replied area r).ram area = toWord r.1.result := by
  refine readWord_writeWord ?_
  unfold toWord
  omega

variable {s : Session} {call : Call} {count : UInt32} {buffer : ℕ} {size : UInt32} {p : Named}

/-- An open remembers its count. -/
theorem perform_opens (h : call.opens area s = some count) :
    (call.perform mecha area s).2.config_blocks = count := by
  cases call with
  | openConfig a b c =>
    obtain rfl := Option.some.inj h
    exact sceCdOpenConfig_blocks ..
  | closeConfig => cases h
  | readConfig buffer => cases h
  | writeConfig buffer => cases h
  | serve fno buffer size =>
    cases fno with
    | openConfig =>
      obtain rfl := Option.some.inj h
      exact sceCdOpenConfig_blocks ..
    | closeConfig => cases h
    | readConfig => cases h
    | writeConfig => cases h

/-- A read uses as many blocks as are remembered, and answers no more. -/
theorem perform_reads (h : call.reads area = some buffer) :
    (∃ done, (call.perform mecha area s).1 = int32 done ∧ done ≤ s.config_blocks.toNat) ∧
    Uses s.config_blocks.toNat buffer s (call.perform mecha area s).2 := by
  cases call with
  | openConfig a b c => cases h
  | closeConfig => cases h
  | readConfig buffer =>
    obtain rfl := Option.some.inj h
    exact sceCdReadConfig_uses mecha buffer s
  | writeConfig buffer => cases h
  | serve fno buffer' size =>
    cases fno with
    | openConfig => cases h
    | closeConfig => cases h
    | readConfig =>
      obtain rfl := Option.some.inj h
      obtain ⟨⟨done, hresult, hdone⟩, huses⟩ :=
        sceCdReadConfig_uses mecha (area + kConfigHeaderBytes) (cleared area s)
      refine ⟨⟨done, ?_, hdone⟩, huses.1, huses.2⟩
      change int32 (readWord (replied area _).ram area) = _
      rw [readWord_replied, hresult, int32_toWord_int32]
    | writeConfig => cases h

/-- A call that writes the configuration reads no more than the blocks of the open. -/
theorem perform_writes (h : call.writes = some buffer) :
    Uses s.config_blocks.toNat buffer s (call.perform mecha area s).2 := by
  cases call with
  | openConfig a b c => cases h
  | closeConfig => cases h
  | readConfig buffer => cases h
  | writeConfig buffer =>
    obtain rfl := Option.some.inj h
    exact sceCdWriteConfig_uses mecha buffer s
  | serve fno buffer' size =>
    cases fno with
    | openConfig => cases h
    | closeConfig => cases h
    | readConfig => cases h
    | writeConfig =>
      obtain rfl := Option.some.inj h
      have huses := sceCdWriteConfig_uses mecha buffer' (cleared area s)
      simp only [Call.perform, serveMain]
      split
      · exact ⟨huses.1, huses.2⟩
      · exact ⟨rfl, [], (List.append_nil _).symm, nofun⟩

/-- A write that is refused uses nothing. -/
theorem perform_refused (h : ¬ s.fsv_config_blocks * 15 ≤ size) :
    Call.uses mecha area (.serve .writeConfig buffer size) s = [] := by
  have hrefused : serveMain mecha area .writeConfig buffer size s = cleared area s := by
    simp only [serveMain]
    exact if_neg h
  simp only [Call.uses, Call.perform, hrefused]
  exact List.drop_length

theorem Uses.le {left : ℕ} {s' : Session} (h : Uses left buffer s s') :
    s'.config_blocks.toNat ≤ s.config_blocks.toNat := by rw [h.config_blocks]

/-- No other call makes the count any larger. -/
theorem perform_config_le (h : call.opens area s = none) :
    (call.perform mecha area s).2.config_blocks.toNat ≤ s.config_blocks.toNat := by
  cases call with
  | openConfig a b c => cases h
  | closeConfig =>
    change (sceCdCloseConfig mecha s).2.config_blocks.toNat ≤ _
    rw [sceCdCloseConfig_blocks]
    exact Nat.zero_le _
  | readConfig buffer =>
    have hreads : (Call.readConfig buffer).reads area = some buffer := rfl
    exact (perform_reads hreads).2.le
  | writeConfig buffer =>
    have hwrites : (Call.writeConfig buffer).writes = some buffer := rfl
    exact (perform_writes hwrites).le
  | serve fno buffer size =>
    cases fno with
    | openConfig => cases h
    | closeConfig =>
      change (sceCdCloseConfig mecha { cleared area s with
        fsv_config_blocks := 0 }).2.config_blocks.toNat ≤ _
      rw [sceCdCloseConfig_blocks]
      exact Nat.zero_le _
    | readConfig =>
      have hreads : (Call.serve .readConfig buffer size).reads area =
        some (area + kConfigHeaderBytes) := rfl
      exact (perform_reads hreads).2.le
    | writeConfig =>
      have hwrites : (Call.serve .writeConfig buffer size).writes = some buffer := rfl
      exact (perform_writes hwrites).le

/-- `CDVDMAN` remembers no more blocks than the last successful open named. -/
def Remembers (p : Named) : Prop := p.1.config_blocks.toNat ≤ p.2

/-- A safe call is bounded, and keeps it so. -/
theorem Call.Safe.step (hinv : Remembers p) (h : call.Safe mecha area ok p) :
    call.Bounded mecha area ok p ∧ Remembers (call.step mecha area ok p) := by
  obtain ⟨s, last⟩ := p
  have hle : kConfigBytes * s.config_blocks.toNat ≤ kConfigBytes * last :=
    Nat.mul_le_mul_left _ hinv
  -- the count is kept by an open that fails, which is why it is bounded by the last that did not
  refine ⟨⟨fun count hopens hfailed => ?_, fun buffer hreads => ?_, fun buffer hcopies x hx => ?_,
    fun buffer size hcall x hx => ?_, fun buffer size hcall x hx => ?_⟩, ?_⟩
  · rcases h.opened count hopens with hok | rfl
    · rw [hok] at hfailed
      cases hfailed
    · exact perform_opens hopens
  · obtain ⟨done, hresult, hdone⟩ : ∃ done, (call.perform mecha area s).1 = int32 done ∧
        done ≤ s.config_blocks.toNat := (perform_reads hreads).1
    have hint := int32_le done
    dsimp only at hresult ⊢
    have hlast : s.config_blocks.toNat ≤ last := hinv
    rw [hresult]
    omega
  · have huses : Uses s.config_blocks.toNat buffer s (call.perform mecha area s).2 :=
      hcopies.elim (fun hreads => (perform_reads hreads).2) perform_writes
    have hbound := drop_touched huses hx
    dsimp only
    omega
  · have huses : Uses s.config_blocks.toNat (area + kConfigHeaderBytes) s
        (call.perform mecha area s).2 := (perform_reads (by rw [hcall]; rfl)).2
    have hbound := drop_touched huses hx
    have hmax : s.config_blocks.toNat ≤ 8 := h.reply buffer size hcall
    simp only [kConfigBytes, kConfigHeaderBytes, kReplyBytes] at hbound ⊢
    omega
  · by_cases hsize : s.fsv_config_blocks * 15 ≤ size
    · have huses : Uses s.config_blocks.toNat buffer s (call.perform mecha area s).2 :=
        perform_writes (by rw [hcall]; rfl)
      have hbound := drop_touched huses hx
      have hrequest := h.request buffer size hcall hsize
      dsimp only at hrequest
      omega
    · rw [hcall, perform_refused hsize] at hx
      cases hx
  -- what is remembered
  · unfold Remembers Call.step
    dsimp only
    split
    next hopens => exact (perform_config_le hopens).trans hinv
    next count hopens =>
      rw [perform_opens hopens]
      split
      · exact Nat.le_refl _
      next hfailed =>
        rcases h.opened count hopens with hok | rfl
        · exact absurd hok hfailed
        · exact Nat.zero_le _

/-- No session, and nothing sent yet. -/
def unopened (m : Ram) : Named := (⟨0, 0, m, 0, [], []⟩, 0)

/-- In a run whose calls are all safe every call is bounded. -/
theorem config_bounded (m : Ram) {calls : List Call}
    (h : EveryStep (Call.step mecha area ok) (Call.Safe mecha area ok) calls (unopened m)) :
    EveryStep (Call.step mecha area ok) (Call.Bounded mecha area ok) calls (unopened m) :=
  h.of_invariant (fun _ _ hinv hsafe => hsafe.step hinv) (Nat.le_refl 0)

/-- A controller that takes every command. -/
def willing : ℕ → Turn := fun _ => ⟨true, false, List.replicate kConfigWireBytes 0⟩

/-- A controller that is busy all the time. -/
def alwaysBusy : ℕ → Turn := fun _ => ⟨true, true, []⟩

/-- Two requests to open two blocks each, one to read and one to write. -/
def requested : Ram := writeWord (writeWord (fun _ => 0) 0x4000 0x20000) 0x4010 0x20100

/-- Two blocks are opened, read and closed through `CDVDFSV`, then opened, written and closed, and
then opened, read and closed by the console's own call. -/
theorem two_blocks_bounded :
    EveryStep (Call.step willing 0x8000 fun _ => true)
      (Call.Bounded willing 0x8000 fun _ => true)
      [.serve .openConfig 0x4000 4, .serve .readConfig 0x4000 0, .serve .closeConfig 0x4000 0,
        .serve .openConfig 0x4010 4, .serve .writeConfig 0x4020 30, .serve .closeConfig 0x4020 0,
        .openConfig 1 0 2, .readConfig 0x1000, .closeConfig] (unopened requested) := by
  have hopened : ∀ (call : Call) (p : Named) (count : UInt32),
      call.opens 0x8000 p.1 = some count →
        succeeded (fun _ => true) (willing p.1.turns) = true ∨ count = 0 :=
    fun _ _ _ _ => .inl rfl
  have hother : ∀ (call : Call) (p : Named),
      (∀ buffer size, call ≠ .serve .readConfig buffer size) →
      (∀ buffer size, call ≠ .serve .writeConfig buffer size) →
        call.Safe willing 0x8000 (fun _ => true) p := fun call p hread hwrite =>
    ⟨hopened call p, fun buffer size h => absurd h (hread buffer size),
      fun buffer size h => absurd h (hwrite buffer size)⟩
  refine config_bounded requested ⟨hother _ _ (by simp) (by simp), ⟨hopened _ _, ?_, by simp⟩,
    hother _ _ (by simp) (by simp), hother _ _ (by simp) (by simp), ⟨hopened _ _, by simp, ?_⟩,
    hother _ _ (by simp) (by simp), hother _ _ (by simp) (by simp), hother _ _ (by simp) (by simp),
    hother _ _ (by simp) (by simp), trivial⟩
  · intro buffer size _
    decide +kernel
  · intro buffer size h _
    obtain ⟨-, rfl, rfl⟩ := Call.serve.inj h
    decide +kernel

/-- An open that is declined leaves a session of the blocks it asked for; and a session opened past
`CDVDFSV` has its blocks copied past the end of the reply area. -/
theorem session_unbounded :
    ¬ EveryStep (Call.step alwaysBusy 0x8000 fun _ => true)
      (Call.Bounded alwaysBusy 0x8000 fun _ => true) [.openConfig 1 0 2] (unopened fun _ => 0) ∧
    ¬ EveryStep (Call.step willing 0x8000 fun _ => true)
      (Call.Bounded willing 0x8000 fun _ => true)
      [.openConfig 1 0 9, .serve .readConfig 0 0] (unopened fun _ => 0) := by
  constructor
  · intro h
    have hleft := h.1.failed 2 rfl rfl
    exact absurd hleft (by decide)
  · intro h
    have hpast := h.2.1.reply 0 0 rfl (0x8000 + kReplyBytes)
    refine absurd (hpast ?_) (Nat.lt_irrefl _)
    decide

end PS2Bios.Cdvdman
