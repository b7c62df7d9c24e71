import PS2Bios.Sio2man.Serial

/-!
# SIO2MAN: one owner

At most one client has the interface, between the return of its claim and the return of its
transfer, as long as no client begins a claim while another is inside a claim of the same kind, and
the service thread answers no claim while a client is still inside the last call of its transfer
(`Alone`). The invariant is `Handshake`: the service thread and the client it serves stand at two
places of a fixed table (`Joint`), which also says which bits are set and how far the transfer is;
every other client is outside (`ClientPc.Out`), with the request of its kind set exactly while it
waits to be answered.

Two clients of one kind break it: the answer to one of them lets both through (`two_owners`).
-/

namespace PS2Bios.Sio2man

open EventFlag Serial

/-! ### Bits -/

/-- A bit is set. -/
def Has (bits : BitVec 32) (b : Bit) : Prop := bits &&& b.mask ≠ 0

instance (bits : BitVec 32) (b : Bit) : Decidable (Has bits b) :=
  inferInstanceAs (Decidable (_ ≠ _))

/-- The place of a bit in the flag's word. -/
def Bit.index : Bit → ℕ
  | padRequest => 0
  | padAck => 1
  | mcRequest => 2
  | mcAck => 3
  | run => 4
  | done => 5
  | release => 6
  | finished => 7

theorem Bit.mask_eq (b : Bit) : b.mask = BitVec.twoPow 32 b.index := by
  cases b <;> rfl

theorem Bit.index_lt (b : Bit) : b.index < 32 := by
  cases b <;> decide

theorem Bit.index_inj {b c : Bit} : b.index = c.index ↔ b = c := by
  cases b <;> cases c <;> decide

/-- A bit is there where its place in the word is set. -/
theorem has_iff {bits : BitVec 32} {b : Bit} : Has bits b ↔ bits.getLsbD b.index = true := by
  rw [Has, b.mask_eq, BitVec.and_twoPow]
  split
  · rename_i h
    have hne : BitVec.twoPow 32 b.index ≠ 0 := by
      cases b <;> decide
    exact ⟨fun _ => h, fun _ => hne⟩
  · rename_i h
    exact ⟨fun hne => absurd rfl hne, fun h' => absurd h' h⟩

/-- Setting a bit adds that bit. -/
@[simp]
theorem has_or {bits : BitVec 32} {b c : Bit} : Has (bits ||| b.mask) c ↔ Has bits c ∨ c = b := by
  rw [has_iff, has_iff, BitVec.getLsbD_or, b.mask_eq, BitVec.getLsbD_twoPow, Bool.or_eq_true,
    Bool.and_eq_true, decide_eq_true_eq, decide_eq_true_eq, Bit.index_inj]
  have hlt := b.index_lt
  constructor
  · rintro (h | ⟨-, rfl⟩)
    · exact .inl h
    · exact .inr rfl
  · rintro (h | rfl)
    · exact .inl h
    · exact .inr ⟨hlt, rfl⟩

/-- Clearing a bit takes that bit away. -/
@[simp]
theorem has_and_not {bits : BitVec 32} {b c : Bit} :
    Has (bits &&& ~~~b.mask) c ↔ Has bits c ∧ c ≠ b := by
  have hlt := c.index_lt
  rw [has_iff, has_iff, BitVec.getLsbD_and, BitVec.getLsbD_not, b.mask_eq, BitVec.getLsbD_twoPow,
    Bool.and_eq_true]
  have hindex : b.index = c.index ↔ c = b := by rw [Bit.index_inj, eq_comm]
  by_cases heq : c = b
  · simp [heq, b.index_lt]
  · have hne : b.index ≠ c.index := fun h => heq (hindex.mp h)
    simp [heq, hlt, hne]

@[simp]
theorem has_zero {b : Bit} : ¬Has 0 b := by
  rw [has_iff]
  simp

/-- Waiting for one bit. -/
@[simp]
theorem satisfied_mask {bits : BitVec 32} {b : Bit} :
    satisfied bits b.mask false = true ↔ Has bits b := by
  have hne : 0#32 ≠ BitVec.twoPow 32 b.index := by
    cases b <;> decide
  rw [has_iff, satisfied, if_neg Bool.false_ne_true, b.mask_eq, BitVec.and_twoPow, beq_iff_eq]
  by_cases h : bits.getLsbD b.index = true
  · rw [if_pos h]
    exact ⟨fun _ => h, fun _ => rfl⟩
  · rw [if_neg h]
    exact ⟨fun heq => absurd heq hne, fun h' => absurd h' h⟩

/-- Waiting for either request. -/
theorem satisfied_requests {bits : BitVec 32} :
    satisfied bits (Bit.mask .padRequest ||| Bit.mask .mcRequest) true = true ↔
      Has bits .padRequest ∨ Has bits .mcRequest := by
  have hor : bits &&& (Bit.mask .padRequest ||| Bit.mask .mcRequest) = 0#32 ↔
      bits &&& Bit.mask .padRequest = 0#32 ∧ bits &&& Bit.mask .mcRequest = 0#32 := by
    rw [BitVec.and_or_distrib_left, BitVec.or_eq_zero_iff]
  rw [satisfied, if_pos rfl, bne_iff_ne, Ne]
  exact (not_congr hor).trans not_and_or

/-! ### Where everybody is -/

/-- What a client is about, while it is about anything. -/
def ClientPc.kind? : ClientPc → Option Kind
  | .idle => none
  | .request k | .waitAck k | .clearAck k | .claimed k => some k
  | .give k _ | .setRun k _ | .waitDone k _ | .clearDone k _ | .setRelease k _ | .leaving k _ =>
    some k

/-- What a client claims, between the beginning of the claim and its return. -/
def ClientPc.claims? : ClientPc → Option Kind
  | .request k | .waitAck k | .clearAck k => some k
  | _ => none

/-- The places of a client nobody serves. -/
inductive ClientPc.Out : ClientPc → Prop
  | idle : Out .idle
  | request (k : Kind) : Out (.request k)
  | waitAck (k : Kind) : Out (.waitAck k)
  | leaving (k : Kind) (td : ℕ) : Out (.leaving k td)

/-- Between the return of a claim and the return of the transfer. -/
def ClientPc.owns : ClientPc → Bool
  | .idle | .request _ | .waitAck _ | .clearAck _ => false
  | _ => true

/-- How far a transfer is. -/
inductive Phase
  | none | called | pushed | running | finished | stored
  deriving DecidableEq

/-- What has happened to the interface for the client's descriptor, and what has come of it. -/
def Serial.Reached (x : Serial) (n td : ℕ) : Phase → Prop
  | .none => True
  | .called => x.transfer = td ∧ ∃ before, x.log = before ++ [.called n td (x.memory td)]
  | .pushed | .running => x.transfer = td ∧
      ∃ before, x.log = before ++ [.called n td (x.memory td), .pushed td (x.memory td)]
  | .finished => x.transfer = td ∧ ∃ before r,
      x.log = before ++ [.called n td (x.memory td), .pushed td (x.memory td), .finished r] ∧
      (x.device.harvestTransfer (x.memory td)).1 = (x.memory td).stored r
  | .stored => ∃ before data r,
      x.log = before ++ [.called n td data, .pushed td data, .finished r,
        .stored td (x.memory td)] ∧ x.memory td = data.stored r

/-- The places of the service thread and of the client it serves, the bit that is set between
them, whether the claim's answer is, and how far the transfer is. -/
inductive Joint (k : Kind) (td : ℕ) :
    ServerPc → ClientPc → Option Bit → Bool → Phase → Prop
  | acking : Joint k td (.acking k) (.waitAck k) none false .none
  | answered : Joint k td .waitRun (.waitAck k) none true .none
  | through : Joint k td .waitRun (.clearAck k) none true .none
  | claimed : Joint k td .waitRun (.claimed k) none false .none
  | give : Joint k td .waitRun (.give k td) none false .none
  | setRun : Joint k td .waitRun (.setRun k td) none false .called
  | run : Joint k td .waitRun (.waitDone k td) (some .run) false .called
  | clearRun : Joint k td .clearRun (.waitDone k td) (some .run) false .called
  | push : Joint k td .push (.waitDone k td) none false .called
  | start : Joint k td .start (.waitDone k td) none false .pushed
  | running : Joint k td .waitFinished (.waitDone k td) none false .running
  | finished : Joint k td .waitFinished (.waitDone k td) (some .finished) false .finished
  | clearFinished : Joint k td .clearFinished (.waitDone k td) (some .finished) false .finished
  | harvest : Joint k td .harvest (.waitDone k td) none false .finished
  | setDone : Joint k td .setDone (.waitDone k td) none false .stored
  | done : Joint k td .waitRelease (.waitDone k td) (some .done) false .stored
  | clearDone : Joint k td .waitRelease (.clearDone k td) (some .done) false .stored
  | setRelease : Joint k td .waitRelease (.setRelease k td) none false .stored

/-- Of the four bits between the service thread and who it serves, `b` is set. -/
def Inner (bits : BitVec 32) (b : Option Bit) : Prop :=
  ∀ x ∈ [Bit.run, .done, .release, .finished], Has bits x ↔ b = some x

/-- The places of the service thread while it serves nobody, and the bit that is set. -/
inductive Apart (bits : BitVec 32) : ServerPc → Option Bit → Prop
  | waitRequest : Apart bits .waitRequest none
  | woken {result : BitVec 32} {k : Kind} (hk : Sio2man.answered result = some k)
      (hrequest : Has bits k.request) : Apart bits (.woken result) none
  | waitRelease : Apart bits .waitRelease (some .release)
  | clearRelease : Apart bits .clearRelease (some .release)

/-- The service thread and the client it serves. -/
structure Served (k : Kind) (n : ℕ) (c : Core Serial) (td : ℕ) (b : Option Bit) (ack : Bool)
    (phase : Phase) : Prop where
  joint : Joint k td c.rest.server (c.rest.client n) b ack phase
  inner : Inner c.bits b
  ack : Has c.bits k.ack ↔ ack = true
  running : c.rest.running = true ↔ phase = .running
  reached : c.rest.Reached n td phase
  left : (∀ j, c.rest.server ≠ .acking j) → ∀ m j e, c.rest.client m ≠ .leaving j e

/-- The service thread serves nobody. -/
structure Unserved (c : Core Serial) (b : Option Bit) : Prop where
  apart : Apart c.bits c.rest.server b
  inner : Inner c.bits b
  running : c.rest.running = false

/-- The invariant: `serving` is the kind and the client the service thread is about. -/
structure Handshake (c : Core Serial) (serving : Option (Kind × ℕ)) : Prop where
  one : ∀ n m k, (c.rest.client n).claims? = some k → (c.rest.client m).claims? = some k → n = m
  near : ∀ n, (∀ k, serving ≠ some (k, n)) → (c.rest.client n).Out
  request : ∀ k, Has c.bits k.request ↔
    ∃ n, serving ≠ some (k, n) ∧ c.rest.client n = .waitAck k
  ack : ∀ k, (∀ n, serving ≠ some (k, n)) → ¬Has c.bits k.ack
  leaving : ∀ n k td, c.rest.client n = .leaving k td → c.rest.Reached n td .stored
  leavingOne : ∀ n m k td j e, c.rest.client n = .leaving k td → c.rest.client m = .leaving j e →
    n = m
  served : ∀ k n, serving = some (k, n) → ∃ td b ack phase, Served k n c td b ack phase
  unserved : serving = none → ∃ b, Unserved c b

/-! ### Frames -/

variable {c c' : Core Serial} {k j : Kind} {n m td : ℕ} {b : Option Bit} {ack : Bool}
  {phase : Phase} {serving : Option (Kind × ℕ)}

@[simp] theorem goClient_client (n : ℕ) (pc : ClientPc) (x : Serial) (m : ℕ) :
    (goClient n pc x).client m = if m = n then pc else x.client m := by
  simp [goClient, Function.update_apply]

@[simp] theorem goClient_server (n : ℕ) (pc : ClientPc) (x : Serial) :
    (goClient n pc x).server = x.server := rfl
@[simp] theorem goClient_memory (n : ℕ) (pc : ClientPc) (x : Serial) :
    (goClient n pc x).memory = x.memory := rfl
@[simp] theorem goClient_log (n : ℕ) (pc : ClientPc) (x : Serial) :
    (goClient n pc x).log = x.log := rfl
@[simp] theorem goClient_running (n : ℕ) (pc : ClientPc) (x : Serial) :
    (goClient n pc x).running = x.running := rfl
@[simp] theorem goServer_server (pc : ServerPc) (x : Serial) : (goServer pc x).server = pc := rfl
@[simp] theorem goServer_client (pc : ServerPc) (x : Serial) :
    (goServer pc x).client = x.client := rfl
@[simp] theorem goServer_memory (pc : ServerPc) (x : Serial) :
    (goServer pc x).memory = x.memory := rfl
@[simp] theorem goServer_log (pc : ServerPc) (x : Serial) : (goServer pc x).log = x.log := rfl
@[simp] theorem goServer_running (pc : ServerPc) (x : Serial) :
    (goServer pc x).running = x.running := rfl

/-- How far a transfer is stands in the log, the descriptors and the interface. -/
theorem Serial.Reached.congr {x y : Serial} (h : x.Reached n td phase)
    (htransfer : y.transfer = x.transfer) (hmemory : y.memory = x.memory) (hlog : y.log = x.log)
    (hdevice : y.device = x.device) : y.Reached n td phase := by
  cases phase with
  | none => exact True.intro
  | _ => simpa only [Serial.Reached, htransfer, hmemory, hlog, hdevice] using h

theorem Inner.congr {bits bits' : BitVec 32} (h : Inner bits b)
    (heq : ∀ x ∈ [Bit.run, .done, .release, .finished], Has bits' x ↔ Has bits x) :
    Inner bits' b :=
  fun x hx => (heq x hx).trans (h x hx)

/-- The bits of the claims are not those between the service thread and who it serves. -/
theorem Kind.request_not_inner (k : Kind) :
    ∀ x ∈ [Bit.run, .done, .release, .finished], x ≠ k.request ∧ x ≠ k.ack := by
  cases k <;> decide

theorem Kind.request_ne_ack (k j : Kind) : k.request ≠ j.ack := by
  cases k <;> cases j <;> decide

theorem Kind.request_inj : k.request = j.request ↔ k = j := by
  cases k <;> cases j <;> decide

theorem Kind.ack_inj : k.ack = j.ack ↔ k = j := by
  cases k <;> cases j <;> decide

/-- Who is served is of the kind served. -/
theorem Joint.kind {server : ServerPc} {pc : ClientPc} (h : Joint k td server pc b ack phase) :
    pc.kind? = some k := by
  cases h <;> rfl

/-- Until its answer is cleared, who is served is inside its claim. -/
theorem Joint.claims_of_ack {server : ServerPc} {pc : ClientPc}
    (h : Joint k td server pc b true phase) : pc.claims? = some k := by
  cases h <;> rfl

/-! ### Bits between the service thread and who it serves -/

section Bits

variable {bits : BitVec 32} {x : Bit}

theorem Inner.set (h : Inner bits none) (x : Bit) : Inner (bits ||| x.mask) (some x) := by
  intro y hy
  rw [has_or, h y hy, Option.some_inj]
  exact (or_iff_right (Option.some_ne_none y).symm).trans eq_comm

theorem Inner.clear (h : Inner bits (some x)) : Inner (bits &&& ~~~x.mask) none := by
  intro y hy
  rw [has_and_not, h y hy, Option.some_inj]
  exact ⟨fun h => absurd h.1.symm h.2, fun h => absurd h (Option.some_ne_none y).symm⟩

theorem Inner.set_ack (h : Inner bits b) (k : Kind) : Inner (bits ||| k.ack.mask) b :=
  h.congr fun x hx => has_or.trans (or_iff_left (k.request_not_inner x hx).2)

theorem Inner.clear_request (h : Inner bits b) (k : Kind) :
    Inner (bits &&& ~~~k.request.mask) b :=
  h.congr fun x hx => has_and_not.trans (and_iff_left (k.request_not_inner x hx).1)

theorem Inner.clear_ack (h : Inner bits b) (k : Kind) : Inner (bits &&& ~~~k.ack.mask) b :=
  h.congr fun x hx => has_and_not.trans (and_iff_left (k.request_not_inner x hx).2)

/-- Setting one of the four bits leaves the claims' alone. -/
theorem has_claim_set (bits : BitVec 32) (hx : x ∈ [Bit.run, .done, .release, .finished])
    (k : Kind) :
    (Has (bits ||| x.mask) k.request ↔ Has bits k.request) ∧
      (Has (bits ||| x.mask) k.ack ↔ Has bits k.ack) :=
  ⟨has_or.trans (or_iff_left (k.request_not_inner x hx).1.symm),
    has_or.trans (or_iff_left (k.request_not_inner x hx).2.symm)⟩

theorem has_claim_clear (bits : BitVec 32) (hx : x ∈ [Bit.run, .done, .release, .finished])
    (k : Kind) :
    (Has (bits &&& ~~~x.mask) k.request ↔ Has bits k.request) ∧
      (Has (bits &&& ~~~x.mask) k.ack ↔ Has bits k.ack) :=
  ⟨has_and_not.trans (and_iff_left (k.request_not_inner x hx).1.symm),
    has_and_not.trans (and_iff_left (k.request_not_inner x hx).2.symm)⟩

end Bits

/-! ### One step of somebody outside -/

/-- A client that is not served goes somewhere outside, and sets its request if it is about to
wait for the answer. -/
theorem Handshake.aside {bits : BitVec 32} {pc : ClientPc} (h : Handshake c serving)
    (hn : ∀ k, serving ≠ some (k, n))
    (hone : ∀ k, pc.claims? = some k → ∀ m ≠ n, (c.rest.client m).claims? ≠ some k)
    (hout : pc.Out) (hnotLeaving : ∀ k td, pc ≠ .leaving k td)
    (hold : ∀ k, c.rest.client n ≠ .waitAck k)
    (hbits : ∀ x, Has bits x ↔ Has c.bits x ∨ ∃ k, pc = .waitAck k ∧ x = k.request) :
    Handshake ⟨bits, goClient n pc c.rest⟩ serving := by
  -- only the client `n` moves, and only a request may be set
  have hother : ∀ m ≠ n, (goClient n pc c.rest).client m = c.rest.client m := fun m hm => by
    rw [goClient_client, if_neg hm]
  have hself : (goClient n pc c.rest).client n = pc := by
    rw [goClient_client, if_pos rfl]
  have hack : ∀ k : Kind, Has bits k.ack ↔ Has c.bits k.ack := by
    intro k
    rw [hbits, or_iff_left]
    rintro ⟨j, -, hj⟩
    exact (j.request_ne_ack k).symm hj
  have hinner : ∀ b, Inner c.bits b → Inner bits b := by
    refine fun b hb => hb.congr fun x hx => ?_
    rw [hbits, or_iff_left]
    rintro ⟨j, -, hj⟩
    exact (j.request_not_inner x hx).1 hj
  have hleaving : ∀ m k td, (goClient n pc c.rest).client m = .leaving k td →
      c.rest.client m = .leaving k td := by
    intro m k td hm
    by_cases hmn : m = n
    · rw [hmn, hself] at hm
      exact absurd hm (hnotLeaving k td)
    · rwa [hother m hmn] at hm
  refine ⟨fun i m k hi hm => ?_, fun m hm => ?_, fun k => ?_, fun k hk hhas =>
    h.ack k hk ((hack k).mp hhas), fun m k td hm => ?_, fun i m k td j e hi hm => ?_,
    fun k m hserving => ?_, fun hserving => ?_⟩
  -- no two clients of a kind claim
  · dsimp only at hi hm
    by_cases hin : i = n <;> by_cases hmn : m = n
    · rw [hin, hmn]
    · rw [hin, hself] at hi
      rw [hother m hmn] at hm
      exact absurd hm (hone k hi m hmn)
    · rw [hmn, hself] at hm
      rw [hother i hin] at hi
      exact absurd hi (hone k hm i hin)
    · rw [hother i hin] at hi
      rw [hother m hmn] at hm
      exact h.one i m k hi hm
  · dsimp only
    by_cases hmn : m = n
    · rwa [hmn, hself]
    · rw [hother m hmn]
      exact h.near m hm
  -- a request is up exactly for who waits for its acknowledgement
  · dsimp only
    rw [hbits, h.request]
    constructor
    · rintro (⟨m, hserving, hm⟩ | ⟨j, hpc, hj⟩)
      · exact ⟨m, hserving, by rwa [hother m fun heq => hold k (heq ▸ hm)]⟩
      · rw [Kind.request_inj.mp hj]
        exact ⟨n, hn j, hself.trans hpc⟩
    · rintro ⟨m, hserving, hm⟩
      by_cases hmn : m = n
      · rw [hmn, hself] at hm
        exact .inr ⟨k, hm, rfl⟩
      · exact .inl ⟨m, hserving, by rwa [hother m hmn] at hm⟩
  -- the turn that is served, or the server without one, is not touched
  · exact (h.leaving m k td (hleaving m k td hm)).congr rfl rfl rfl rfl
  · exact h.leavingOne i m k td j e (hleaving i k td hi) (hleaving m j e hm)
  · obtain ⟨td, b, ack, phase, hs⟩ := h.served k m hserving
    have hmn : m ≠ n := fun heq => hn k (heq ▸ hserving)
    refine ⟨td, b, ack, phase, ?_, hinner b hs.inner, (hack k).trans hs.ack, hs.running,
      hs.reached.congr rfl rfl rfl rfl, fun hserver i j e hi =>
        hs.left hserver i j e (hleaving i j e hi)⟩
    dsimp only
    rw [hother m hmn]
    exact hs.joint
  · obtain ⟨b, hu⟩ := h.unserved hserving
    refine ⟨b, ?_, hinner b hu.inner, hu.running⟩
    have hapart := hu.apart
    dsimp only [goClient_server]
    generalize c.rest.server = server at hapart
    cases hapart with
    | waitRequest => exact .waitRequest
    | woken hk hrequest => exact .woken hk ((hbits _).mpr (.inl hrequest))
    | waitRelease => exact .waitRelease
    | clearRelease => exact .clearRelease

/-! ### One step of the service thread, or of who it serves -/

/-- The service thread and who it serves go on together. -/
theorem Handshake.serve (h : Handshake c (some (k, n))) (hs : Served k n c' td b ack phase)
    (hclient : ∀ m ≠ n, c'.rest.client m = c.rest.client m)
    (hclaim : ∀ j, (c'.rest.client n).claims? = some j → (c.rest.client n).claims? = some j)
    (hrequest : ∀ j : Kind, Has c'.bits j.request ↔ Has c.bits j.request)
    (hack : ∀ j ≠ k, (Has c'.bits j.ack ↔ Has c.bits j.ack))
    (hleft : ∀ m j e, c'.rest.client m ≠ .leaving j e) : Handshake c' (some (k, n)) := by
  obtain ⟨_, _, _, _, hold⟩ := h.served k n rfl
  have hclaims : ∀ m j, (c'.rest.client m).claims? = some j →
      (c.rest.client m).claims? = some j := by
    intro m j hm
    by_cases hmn : m = n
    · rw [hmn] at hm ⊢
      exact hclaim j hm
    · rwa [hclient m hmn] at hm
  -- who is served waits for an answer to its own kind only
  have hother : ∀ {pc : ClientPc} {j m}, pc.kind? = some k → some (k, n) ≠ some (j, m) →
      pc = .waitAck j → m ≠ n := by
    rintro pc j m hkind hne rfl rfl
    exact hne (congrArg (fun i => some (i, m)) (Option.some.inj hkind).symm)
  refine ⟨fun i m j hi hm => h.one i m j (hclaims i j hi) (hclaims m j hm), fun m hm => ?_,
    fun j => ?_, fun j hj hhas => ?_, fun m j e hm => absurd hm (hleft m j e),
    fun i m k' td' j e hi => absurd hi (hleft i k' td'), fun j m hserving => ?_, fun hnone => ?_⟩
  · rw [hclient m fun heq => hm k (heq ▸ rfl)]
    exact h.near m hm
  · rw [hrequest, h.request]
    refine exists_congr fun m => and_congr_right fun hne => ?_
    by_cases hmn : m = n
    · subst hmn
      exact iff_of_false (fun hm => hother hold.joint.kind hne hm rfl)
        fun hm => hother hs.joint.kind hne hm rfl
    · rw [hclient m hmn]
  · have hjk : j ≠ k := fun heq => hj n (heq ▸ rfl)
    exact h.ack j hj ((hack j hjk).mp hhas)
  · obtain ⟨rfl, rfl⟩ := Prod.mk.inj (Option.some.inj hserving)
    exact ⟨td, b, ack, phase, hs⟩
  · exact absurd hnone (Option.some_ne_none _)

/-- Setting or clearing the answer to one kind leaves the answer to the other alone. -/
theorem has_set_ack {bits : BitVec 32} (hj : j ≠ k) :
    Has (bits ||| k.ack.mask) j.ack ↔ Has bits j.ack :=
  has_or.trans (or_iff_left fun heq => hj (Kind.ack_inj.mp heq))

theorem has_clear_ack {bits : BitVec 32} (hj : j ≠ k) :
    Has (bits &&& ~~~k.ack.mask) j.ack ↔ Has bits j.ack :=
  has_and_not.trans (and_iff_left fun heq => hj (Kind.ack_inj.mp heq))

/-- The service thread takes up a claim. -/
theorem Handshake.take {result : BitVec 32} (h : Handshake c none)
    (hserver : c.rest.server = .woken result) :
    ∃ k, answered result = some k ∧
      ∃ n, Handshake ⟨c.bits &&& ~~~k.request.mask, goServer (.acking k) c.rest⟩ (some (k, n)) := by
  obtain ⟨b, hu⟩ := h.unserved rfl
  have hapart := hu.apart
  have hinner := hu.inner
  rw [hserver] at hapart
  cases hapart with
  | @woken _ k hk hrequest =>
  obtain ⟨n, -, hn⟩ := (h.request k).mp hrequest
  have hnone : ∀ j m, (none : Option (Kind × ℕ)) ≠ some (j, m) :=
    fun j m => (Option.some_ne_none _).symm
  have hack : ∀ j : Kind, Has (c.bits &&& ~~~k.request.mask) j.ack ↔ Has c.bits j.ack :=
    fun j => has_and_not.trans (and_iff_left (k.request_ne_ack j).symm)
  refine ⟨k, hk, n, h.one, fun m _ => h.near m fun j => hnone j m, fun j => ?_, fun j _ hhas =>
    h.ack j (hnone j) ((hack j).mp hhas),
    fun m j e hm => (h.leaving m j e hm).congr rfl rfl rfl rfl, h.leavingOne,
    fun j m hserving => ?_, fun hnone => absurd hnone (Option.some_ne_none _)⟩
  · dsimp only
    rw [has_and_not, h.request, Ne, Kind.request_inj]
    constructor
    · rintro ⟨⟨m, -, hm⟩, hjk⟩
      exact ⟨m, fun heq => hjk (congrArg Prod.fst (Option.some.inj heq)).symm, hm⟩
    · rintro ⟨m, hne, hm⟩
      refine ⟨⟨m, hnone j m, hm⟩, fun hjk => hne ?_⟩
      -- two clients would be inside a claim of this kind
      subst hjk
      rw [h.one n m j (hn ▸ rfl) (hm ▸ rfl)]
  · obtain ⟨rfl, rfl⟩ := Prod.mk.inj (Option.some.inj hserving)
    refine ⟨0, none, false, .none, ?_, hinner.clear_request k, ?_, ?_, True.intro, ?_⟩
    · dsimp only [goServer_server, goServer_client]
      rw [hn]
      exact .acking
    · exact (hack k).trans (iff_of_false (h.ack k (hnone k)) Bool.false_ne_true)
    · exact iff_of_false (by simp [hu.running]) (by simp)
    · exact fun hserver => absurd rfl (hserver k)

/-- At the places between the answer and the release somebody is served. -/
theorem Handshake.exists_served {server : ServerPc} (h : Handshake c serving)
    (hserver : c.rest.server = server) (hnot : ∀ b, ¬Apart c.bits server b) :
    ∃ k n td b ack phase, serving = some (k, n) ∧ Served k n c td b ack phase ∧
      Joint k td server (c.rest.client n) b ack phase := by
  cases serving with
  | none =>
    obtain ⟨b, hu⟩ := h.unserved rfl
    exact absurd (hserver ▸ hu.apart) (hnot b)
  | some r =>
    obtain ⟨td, b, ack, phase, hs⟩ := h.served r.1 r.2 rfl
    exact ⟨r.1, r.2, td, b, ack, phase, rfl, hs, hserver ▸ hs.joint⟩

/-- The service thread goes on while it serves. -/
theorem Handshake.serve_server {x : Serial} {bits : BitVec 32} {b' : Option Bit} {ack' : Bool}
    {phase' : Phase} (h : Handshake c (some (k, n))) (hs : Served k n c td b ack phase)
    (hclient : x.client = c.rest.client)
    (hjoint : Joint k td x.server (c.rest.client n) b' ack' phase') (hinner : Inner bits b')
    (hclaims : ∀ j : Kind, (Has bits j.request ↔ Has c.bits j.request) ∧
      (Has bits j.ack ↔ Has c.bits j.ack)) (hack : ack' = ack)
    (hrunning : x.running = true ↔ phase' = .running) (hreached : x.Reached n td phase')
    (hleft : ∀ m j e, c.rest.client m ≠ .leaving j e) :
    Handshake ⟨bits, x⟩ (some (k, n)) := by
  subst hack
  have hserved : Served k n ⟨bits, x⟩ td b' ack' phase' :=
    ⟨hclient ▸ hjoint, hinner, (hclaims k).2.trans hs.ack, hrunning, hreached,
      fun _ => hclient ▸ hleft⟩
  exact h.serve hserved (fun m _ => congrFun hclient m) (fun j hj => congrFun hclient n ▸ hj)
    (fun j => (hclaims j).1) (fun j _ => (hclaims j).2) (hclient ▸ hleft)

/-- The service thread answers a claim. -/
theorem Handshake.answer (h : Handshake c serving) (hserver : c.rest.server = .acking k)
    (hleft : ∀ m j e, c.rest.client m ≠ .leaving j e) :
    ∃ serving', Handshake ⟨c.bits ||| k.ack.mask, goServer .waitRun c.rest⟩ serving' := by
  obtain ⟨j, n, td, b, ack, phase, rfl, hs, hj⟩ := h.exists_served hserver nofun
  generalize hpc : c.rest.client n = pc at hj
  cases hj
  have hserved : Served k n ⟨c.bits ||| k.ack.mask, goServer .waitRun c.rest⟩ td none true .none :=
    ⟨hpc ▸ .answered, hs.inner.set_ack k, by simp, hs.running, True.intro, fun _ => hleft⟩
  exact ⟨_, h.serve hserved (fun _ _ => rfl) (fun _ hi => hi)
    (fun i => has_or.trans (or_iff_left (i.request_ne_ack k))) (fun i hi => has_set_ack hi) hleft⟩

/-- While the service thread serves and has answered, nobody is leaving. -/
theorem Served.nobody_leaving {server : ServerPc} (hs : Served k n c td b ack phase)
    (hserver : c.rest.server = server) (hnot : ∀ j, server ≠ .acking j) :
    ∀ m j e, c.rest.client m ≠ .leaving j e :=
  hs.left fun j => hserver ▸ hnot j

/-- The server takes the run bit of the client it serves. -/
theorem Handshake.clearRun (h : Handshake c serving) (hserver : c.rest.server = .clearRun) :
    ∃ serving', Handshake ⟨c.bits &&& ~~~Bit.mask .run, goServer .push c.rest⟩ serving' := by
  obtain ⟨k, n, td, b, ack, phase, rfl, hs, hj⟩ := h.exists_served hserver nofun
  generalize hpc : c.rest.client n = pc at hj
  cases hj
  exact ⟨_, h.serve_server hs rfl (hpc ▸ .push) hs.inner.clear (has_claim_clear _ (by simp)) rfl
    hs.running (hs.reached.congr rfl rfl rfl rfl) (hs.nobody_leaving hserver nofun)⟩

/-- The server pushes what the client gave it. -/
theorem Handshake.push (h : Handshake c serving) (hserver : c.rest.server = .push) :
    ∃ serving', Handshake ⟨c.bits, goServer .start c.rest.pushed⟩ serving' := by
  obtain ⟨k, n, td, b, ack, phase, rfl, hs, hj⟩ := h.exists_served hserver nofun
  generalize hpc : c.rest.client n = pc at hj
  cases hj
  obtain ⟨rfl, before, hlog⟩ := hs.reached
  have hjoint : Joint k c.rest.transfer .start (c.rest.client n) none false .pushed :=
    hpc ▸ .start
  refine ⟨_, h.serve_server hs rfl hjoint hs.inner (fun j => ⟨Iff.rfl, Iff.rfl⟩) rfl
    (iff_of_false (fun hr => ?_) nofun) ⟨rfl, before, ?_⟩ (hs.nobody_leaving hserver nofun)⟩
  · exact absurd (hs.running.mp hr) nofun
  · simp [pushed, record, hlog]

/-- The server starts the transfer it pushed. -/
theorem Handshake.started (h : Handshake c serving) (hserver : c.rest.server = .start) :
    ∃ serving', Handshake ⟨c.bits, goServer .waitFinished c.rest.started⟩ serving' := by
  obtain ⟨k, n, td, b, ack, phase, rfl, hs, hj⟩ := h.exists_served hserver nofun
  generalize hpc : c.rest.client n = pc at hj
  cases hj
  have hjoint : Joint k td .waitFinished (c.rest.client n) none false .running :=
    hpc ▸ .running
  exact ⟨_, h.serve_server hs rfl hjoint hs.inner (fun j => ⟨Iff.rfl, Iff.rfl⟩) rfl
    (iff_of_true rfl rfl) hs.reached (hs.nobody_leaving hserver nofun)⟩

/-- The server takes the finished bit of its own transfer. -/
theorem Handshake.clearFinished (h : Handshake c serving)
    (hserver : c.rest.server = .clearFinished) : ∃ serving',
      Handshake ⟨c.bits &&& ~~~Bit.mask .finished, goServer .harvest c.rest⟩ serving' := by
  obtain ⟨k, n, td, b, ack, phase, rfl, hs, hj⟩ := h.exists_served hserver nofun
  generalize hpc : c.rest.client n = pc at hj
  cases hj
  exact ⟨_, h.serve_server hs rfl (hpc ▸ .harvest) hs.inner.clear (has_claim_clear _ (by simp)) rfl
    hs.running (hs.reached.congr rfl rfl rfl rfl) (hs.nobody_leaving hserver nofun)⟩

/-- The server harvests into what the client gave it. -/
theorem Handshake.harvest (h : Handshake c serving) (hserver : c.rest.server = .harvest) :
    ∃ serving', Handshake ⟨c.bits, goServer .setDone c.rest.harvested⟩ serving' := by
  obtain ⟨k, n, td, b, ack, phase, rfl, hs, hj⟩ := h.exists_served hserver nofun
  generalize hpc : c.rest.client n = pc at hj
  cases hj
  obtain ⟨rfl, before, r, hlog, hdevice⟩ := hs.reached
  have hjoint : Joint k c.rest.transfer .setDone (c.rest.client n) none false .stored :=
    hpc ▸ .setDone
  refine ⟨_, h.serve_server hs rfl hjoint hs.inner (fun j => ⟨Iff.rfl, Iff.rfl⟩) rfl
    (iff_of_false (fun hr => ?_) nofun) ⟨before, c.rest.memory c.rest.transfer, r, ?_, ?_⟩
    (hs.nobody_leaving hserver nofun)⟩
  · exact absurd (hs.running.mp hr) nofun
  · simp [harvested, record, hlog]
  · simp [harvested, record, hdevice]

/-- The server tells the client it serves that the transfer is done. -/
theorem Handshake.setDone (h : Handshake c serving) (hserver : c.rest.server = .setDone) :
    ∃ serving', Handshake ⟨c.bits ||| Bit.mask .done, goServer .waitRelease c.rest⟩ serving' := by
  obtain ⟨k, n, td, b, ack, phase, rfl, hs, hj⟩ := h.exists_served hserver nofun
  generalize hpc : c.rest.client n = pc at hj
  cases hj
  exact ⟨_, h.serve_server hs rfl (hpc ▸ .done) (hs.inner.set .done) (has_claim_set _ (by simp)) rfl
    hs.running (hs.reached.congr rfl rfl rfl rfl) (hs.nobody_leaving hserver nofun)⟩

/-- The service thread goes on while it serves nobody. -/
theorem Handshake.go_on {pc : ServerPc} {bits : BitVec 32} (h : Handshake c none)
    (hu : Unserved ⟨bits, goServer pc c.rest⟩ b)
    (hclaims : ∀ j : Kind, (Has bits j.request ↔ Has c.bits j.request) ∧
      (Has bits j.ack ↔ Has c.bits j.ack)) : Handshake ⟨bits, goServer pc c.rest⟩ none := by
  exact ⟨h.one, h.near, fun k => (hclaims k).1.trans (h.request k), fun k hk hhas =>
    h.ack k hk ((hclaims k).2.mp hhas), fun m j e hm => (h.leaving m j e hm).congr rfl rfl rfl rfl,
    h.leavingOne, fun k m hserving => absurd hserving (Option.some_ne_none _).symm,
    fun _ => ⟨b, hu⟩⟩

/-- A request is answered. -/
theorem exists_answered {bits : BitVec 32} (h : Has bits .padRequest ∨ Has bits .mcRequest) :
    ∃ k, answered bits = some k ∧ Has bits k.request := by
  by_cases hpad : Has bits .padRequest
  · exact ⟨.pad, if_pos hpad, hpad⟩
  · have hmc : Has bits .mcRequest := h.resolve_left hpad
    exact ⟨.mc, (if_neg hpad).trans (if_pos hmc), hmc⟩

/-- At the places outside nobody is served. -/
theorem Handshake.exists_unserved {server : ServerPc} (h : Handshake c serving)
    (hserver : c.rest.server = server)
    (hnot : ∀ k td pc b ack phase, ¬Joint k td server pc b ack phase) :
    ∃ b, serving = none ∧ Unserved c b ∧ Apart c.bits server b := by
  cases serving with
  | none =>
    obtain ⟨b, hu⟩ := h.unserved rfl
    exact ⟨b, rfl, hu, hserver ▸ hu.apart⟩
  | some r =>
    obtain ⟨td, b, ack, phase, hs⟩ := h.served r.1 r.2 rfl
    exact absurd (hserver ▸ hs.joint) (hnot _ _ _ _ _ _)

/-- The server comes out of its wait to answer one who asks. -/
theorem Handshake.waitRequest (h : Handshake c serving) (hserver : c.rest.server = .waitRequest)
    (hhas : Has c.bits .padRequest ∨ Has c.bits .mcRequest) :
    ∃ serving', Handshake ⟨c.bits, goServer (.woken c.bits) c.rest⟩ serving' := by
  obtain ⟨b, rfl, hu, hapart⟩ := h.exists_unserved hserver fun k td pc b ack phase hj => by
    cases hj
  cases hapart
  obtain ⟨k, hk, hrequest⟩ := exists_answered hhas
  have hwoken : Unserved ⟨c.bits, goServer (.woken c.bits) c.rest⟩ none :=
    ⟨.woken hk hrequest, hu.inner, hu.running⟩
  exact ⟨_, h.go_on hwoken fun j => ⟨Iff.rfl, Iff.rfl⟩⟩

/-- The run bit that wakes the server is its client's. -/
theorem Handshake.waitRun (h : Handshake c serving) (hserver : c.rest.server = .waitRun)
    (hhas : Has c.bits .run) :
    ∃ serving', Handshake ⟨c.bits, goServer .clearRun c.rest⟩ serving' := by
  obtain ⟨k, n, td, b, ack, phase, rfl, hs, hj⟩ := h.exists_served hserver nofun
  obtain rfl : b = some .run := (hs.inner .run (by simp)).mp hhas
  generalize hpc : c.rest.client n = pc at hj
  cases hj
  exact ⟨_, h.serve_server hs rfl (hpc ▸ .clearRun) hs.inner (fun j => ⟨Iff.rfl, Iff.rfl⟩) rfl
    hs.running (hs.reached.congr rfl rfl rfl rfl) (hs.nobody_leaving hserver nofun)⟩

/-- The finished bit that wakes the server is its transfer's. -/
theorem Handshake.waitFinished (h : Handshake c serving)
    (hserver : c.rest.server = .waitFinished) (hhas : Has c.bits .finished) :
    ∃ serving', Handshake ⟨c.bits, goServer .clearFinished c.rest⟩ serving' := by
  obtain ⟨k, n, td, b, ack, phase, rfl, hs, hj⟩ := h.exists_served hserver nofun
  obtain rfl : b = some .finished := (hs.inner .finished (by simp)).mp hhas
  generalize hpc : c.rest.client n = pc at hj
  cases hj
  exact ⟨_, h.serve_server hs rfl (hpc ▸ .clearFinished) hs.inner (fun j => ⟨Iff.rfl, Iff.rfl⟩) rfl
    hs.running (hs.reached.congr rfl rfl rfl rfl) (hs.nobody_leaving hserver nofun)⟩

/-- The release that wakes the server is its client's. -/
theorem Handshake.waitRelease (h : Handshake c serving) (hserver : c.rest.server = .waitRelease)
    (hhas : Has c.bits .release) :
    ∃ serving', Handshake ⟨c.bits, goServer .clearRelease c.rest⟩ serving' := by
  cases serving with
  | none =>
    obtain ⟨b, hu⟩ := h.unserved rfl
    have hapart := hu.apart
    have hinner := hu.inner
    rw [hserver] at hapart
    cases hapart
    have hclear : Unserved ⟨c.bits, goServer .clearRelease c.rest⟩ (some .release) :=
      ⟨.clearRelease, hinner, hu.running⟩
    exact ⟨_, h.go_on hclear fun j => ⟨Iff.rfl, Iff.rfl⟩⟩
  | some r =>
    obtain ⟨td, b, ack, phase, hs⟩ := h.served r.1 r.2 rfl
    have hj := hs.joint
    rw [hserver] at hj
    obtain rfl : b = some .release := (hs.inner .release (by simp)).mp hhas
    generalize c.rest.client r.2 = pc at hj
    cases hj

/-- After the release the server serves nobody. -/
theorem Handshake.clearRelease (h : Handshake c serving)
    (hserver : c.rest.server = .clearRelease) : ∃ serving',
      Handshake ⟨c.bits &&& ~~~Bit.mask .release, goServer .waitRequest c.rest⟩ serving' := by
  obtain ⟨b, rfl, hu, hapart⟩ := h.exists_unserved hserver fun k td pc b ack phase hj => by
    cases hj
  have hinner := hu.inner
  cases hapart
  have hwait : Unserved ⟨c.bits &&& ~~~Bit.mask .release, goServer .waitRequest c.rest⟩ none :=
    ⟨.waitRequest, hinner.clear, hu.running⟩
  exact ⟨_, h.go_on hwait (has_claim_clear _ (by simp))⟩

/-! ### The client that is served -/

/-- Who is served goes on. -/
theorem Handshake.serve_client {x : Serial} {pc : ClientPc} {bits : BitVec 32} {td' : ℕ}
    {b' : Option Bit} {ack' : Bool} {phase' : Phase} (h : Handshake c (some (k, n)))
    (hs : Served k n c td b ack phase) (hx : x.client = c.rest.client)
    (hserver : x.server = c.rest.server)
    (hclaim : ∀ j, pc.claims? = some j → (c.rest.client n).claims? = some j)
    (hjoint : Joint k td' c.rest.server pc b' ack' phase') (hinner : Inner bits b')
    (hclaims : ∀ j : Kind, (Has bits j.request ↔ Has c.bits j.request) ∧
      (j ≠ k → (Has bits j.ack ↔ Has c.bits j.ack))) (hack : Has bits k.ack ↔ ack' = true)
    (hrunning : x.running = true ↔ phase' = .running) (hreached : x.Reached n td' phase')
    (hnot : ∀ j, c.rest.server ≠ .acking j) : Handshake ⟨bits, goClient n pc x⟩ (some (k, n)) := by
  have hleft := hs.nobody_leaving rfl hnot
  have hself : (goClient n pc x).client n = pc := by
    rw [goClient_client, if_pos rfl]
  have hother : ∀ m ≠ n, (goClient n pc x).client m = c.rest.client m := fun m hm => by
    rw [goClient_client, if_neg hm, hx]
  have hleft' : ∀ m j e, (goClient n pc x).client m ≠ .leaving j e := by
    intro m j e
    by_cases hm : m = n
    · rw [hm, hself]
      rintro rfl
      generalize c.rest.server = server at hjoint
      cases hjoint
    · rw [hother m hm]
      exact hleft m j e
  have hplace : Joint k td' (goClient n pc x).server ((goClient n pc x).client n) b' ack'
      phase' := by
    rw [goClient_server, hself, hserver]
    exact hjoint
  have hserved : Served k n ⟨bits, goClient n pc x⟩ td' b' ack' phase' :=
    ⟨hplace, hinner, hack, hrunning, hreached.congr rfl rfl rfl rfl, fun _ => hleft'⟩
  refine h.serve hserved hother (fun j hj => hclaim j ?_) (fun j => (hclaims j).1)
    (fun j => (hclaims j).2) hleft'
  rwa [hself] at hj

/-- Who is at a place only the one who is served is at. -/
theorem Handshake.served_of_client {pc : ClientPc} (h : Handshake c serving)
    (hpc : c.rest.client n = pc) (hkind : pc.kind? = some k)
    (hnot : pc ≠ .request k ∧ (pc = .waitAck k → Has c.bits k.ack) ∧
      ∀ td, pc ≠ .leaving k td) : ∃ td b ack phase, serving = some (k, n) ∧
      Served k n c td b ack phase ∧ Joint k td c.rest.server pc b ack phase := by
  have hserving : serving = some (k, n) := by
    by_cases hsome : ∃ j, serving = some (j, n)
    · obtain ⟨j, hj⟩ := hsome
      obtain ⟨_, _, _, _, hs⟩ := h.served j n hj
      have hjk : j = k := Option.some.inj (hs.joint.kind.symm.trans (hpc ▸ hkind))
      rwa [← hjk]
    · have hout := h.near n fun j hj => hsome ⟨j, hj⟩
      rw [hpc] at hout
      cases hout with
      | idle => cases hkind
      | request j =>
        obtain rfl := Option.some.inj hkind
        exact absurd rfl hnot.1
      | leaving j td =>
        obtain rfl := Option.some.inj hkind
        exact absurd rfl (hnot.2.2 td)
      | waitAck j =>
        obtain rfl := Option.some.inj hkind
        -- the answer is there for somebody, who is inside its claim
        by_contra hne
        refine h.ack j (fun m hm => ?_) (hnot.2.1 rfl)
        obtain ⟨_, _, ack, _, hs⟩ := h.served j m hm
        obtain rfl : ack = true := hs.ack.mp (hnot.2.1 rfl)
        obtain rfl := h.one m n j hs.joint.claims_of_ack (hpc ▸ rfl)
        exact hne hm
  obtain ⟨td, b, ack, phase, hs⟩ := h.served k n hserving
  exact ⟨td, b, ack, phase, hserving, hs, hpc ▸ hs.joint⟩

/-- Setting or clearing one of the four bits, as who is served does it. -/
theorem has_claims_inner {bits bits' : BitVec 32}
    (h : ∀ j : Kind, (Has bits' j.request ↔ Has bits j.request) ∧
      (Has bits' j.ack ↔ Has bits j.ack)) (j : Kind) :
    (Has bits' j.request ↔ Has bits j.request) ∧ (j ≠ k → (Has bits' j.ack ↔ Has bits j.ack)) :=
  ⟨(h j).1, fun _ => (h j).2⟩

/-- The answer that wakes a client is meant for its kind. -/
theorem Handshake.waitAck (h : Handshake c serving) (hpc : c.rest.client n = .waitAck k)
    (hhas : Has c.bits k.ack) :
    ∃ serving', Handshake ⟨c.bits, goClient n (.clearAck k) c.rest⟩ serving' := by
  obtain ⟨td, b, ack, phase, rfl, hs, hj⟩ := h.served_of_client hpc rfl
    ⟨nofun, fun _ => hhas, nofun⟩
  obtain rfl : ack = true := hs.ack.mp hhas
  generalize hserver : c.rest.server = server at hj
  cases hj
  have hjoint : Joint k td c.rest.server (.clearAck k) none true .none := hserver ▸ .through
  have hclaim : ∀ j, (ClientPc.clearAck k).claims? = some j →
      (c.rest.client n).claims? = some j := fun j hj => by rwa [hpc]
  refine ⟨_, h.serve_client hs rfl rfl hclaim hjoint hs.inner
    (fun j => ⟨Iff.rfl, fun _ => Iff.rfl⟩) hs.ack hs.running True.intro fun j => ?_⟩
  rw [hserver]
  exact nofun

/-- The client that takes the answer is the one that is served. -/
theorem Handshake.clearAck (h : Handshake c serving) (hpc : c.rest.client n = .clearAck k) :
    ∃ serving', Handshake ⟨c.bits &&& ~~~k.ack.mask, goClient n (.claimed k) c.rest⟩ serving' := by
  obtain ⟨td, b, ack, phase, rfl, hs, hj⟩ := h.served_of_client hpc rfl ⟨nofun, nofun, nofun⟩
  generalize hserver : c.rest.server = server at hj
  cases hj
  have hjoint : Joint k td c.rest.server (.claimed k) none false .none := hserver ▸ .claimed
  refine ⟨_, h.serve_client hs rfl rfl nofun hjoint (hs.inner.clear_ack k)
    (fun j => ⟨?_, fun hj => ?_⟩) (by simp) hs.running True.intro fun j => ?_⟩
  · exact has_and_not.trans (and_iff_left (j.request_ne_ack k))
  · exact has_clear_ack hj
  · rw [hserver]
    exact nofun

/-- The client that is served gives its transfer. -/
theorem Handshake.give (h : Handshake c serving) (hpc : c.rest.client n = .give k td) :
    ∃ serving',
      Handshake ⟨c.bits, goClient n (.setRun k td) (c.rest.given n td)⟩ serving' := by
  obtain ⟨td', b, ack, phase, rfl, hs, hj⟩ := h.served_of_client hpc rfl ⟨nofun, nofun, nofun⟩
  generalize hserver : c.rest.server = server at hj
  cases hj
  have hjoint : Joint k td c.rest.server (.setRun k td) none false .called := hserver ▸ .setRun
  refine ⟨_, h.serve_client hs rfl rfl nofun hjoint hs.inner (fun j => ⟨Iff.rfl, fun _ => Iff.rfl⟩)
    hs.ack (iff_of_false (fun hr => ?_) nofun) ⟨rfl, c.rest.log, rfl⟩ fun j => ?_⟩
  · exact absurd (hs.running.mp hr) nofun
  · rw [hserver]
    exact nofun

/-- The client that is served tells the server to run. -/
theorem Handshake.setRun (h : Handshake c serving) (hpc : c.rest.client n = .setRun k td) :
    ∃ serving',
      Handshake ⟨c.bits ||| Bit.mask .run, goClient n (.waitDone k td) c.rest⟩ serving' := by
  obtain ⟨td', b, ack, phase, rfl, hs, hj⟩ := h.served_of_client hpc rfl ⟨nofun, nofun, nofun⟩
  generalize hserver : c.rest.server = server at hj
  cases hj
  have hclaims := has_claim_set c.bits (show Bit.run ∈ _ by simp)
  have hjoint : Joint k td c.rest.server (.waitDone k td) (some .run) false .called :=
    hserver ▸ .run
  refine ⟨_, h.serve_client hs rfl rfl nofun hjoint (hs.inner.set .run) (has_claims_inner hclaims)
    ((hclaims k).2.trans hs.ack) hs.running hs.reached fun j => ?_⟩
  rw [hserver]
  exact nofun

/-- The done bit that wakes a client is that of its transfer. -/
theorem Handshake.waitDone (h : Handshake c serving) (hpc : c.rest.client n = .waitDone k td)
    (hhas : Has c.bits .done) :
    ∃ serving', Handshake ⟨c.bits, goClient n (.clearDone k td) c.rest⟩ serving' := by
  obtain ⟨td', b, ack, phase, rfl, hs, hj⟩ := h.served_of_client hpc rfl ⟨nofun, nofun, nofun⟩
  obtain rfl : b = some .done := (hs.inner .done (by simp)).mp hhas
  generalize hserver : c.rest.server = server at hj
  cases hj
  have hjoint : Joint k td c.rest.server (.clearDone k td) (some .done) false .stored :=
    hserver ▸ .clearDone
  refine ⟨_, h.serve_client hs rfl rfl nofun hjoint hs.inner (fun j => ⟨Iff.rfl, fun _ => Iff.rfl⟩)
    hs.ack hs.running hs.reached fun j => ?_⟩
  rw [hserver]
  exact nofun

/-- The client takes the done bit of its own transfer. -/
theorem Handshake.clearDone (h : Handshake c serving) (hpc : c.rest.client n = .clearDone k td) :
    ∃ serving',
      Handshake ⟨c.bits &&& ~~~Bit.mask .done, goClient n (.setRelease k td) c.rest⟩ serving' := by
  obtain ⟨td', b, ack, phase, rfl, hs, hj⟩ := h.served_of_client hpc rfl ⟨nofun, nofun, nofun⟩
  generalize hserver : c.rest.server = server at hj
  cases hj
  have hclaims := has_claim_clear c.bits (show Bit.done ∈ _ by simp)
  have hjoint : Joint k td c.rest.server (.setRelease k td) none false .stored :=
    hserver ▸ .setRelease
  refine ⟨_, h.serve_client hs rfl rfl nofun hjoint hs.inner.clear (has_claims_inner hclaims)
    ((hclaims k).2.trans hs.ack) hs.running hs.reached fun j => ?_⟩
  rw [hserver]
  exact nofun

/-- With its last bit set, a client is not served any more. -/
theorem Handshake.setRelease (h : Handshake c serving)
    (hpc : c.rest.client n = .setRelease k td) :
    Handshake ⟨c.bits ||| Bit.mask .release, goClient n (.leaving k td) c.rest⟩ none := by
  obtain ⟨td', b, ack, phase, rfl, hs, hj⟩ := h.served_of_client hpc rfl ⟨nofun, nofun, nofun⟩
  generalize hserver : c.rest.server = server at hj
  cases hj
  -- among the bits that clients and the server exchange only the release appears
  have hclaims := has_claim_set c.bits (show Bit.release ∈ _ by simp)
  have hleft := hs.nobody_leaving hserver nofun
  have hself : (goClient n (.leaving k td) c.rest).client n = .leaving k td := by
    rw [goClient_client, if_pos rfl]
  have hother : ∀ m ≠ n, (goClient n (.leaving k td) c.rest).client m = c.rest.client m :=
    fun m hm => by rw [goClient_client, if_neg hm]
  -- the client claims nothing any more
  have hclaims' : ∀ m j, ((goClient n (.leaving k td) c.rest).client m).claims? = some j →
      (c.rest.client m).claims? = some j := by
    intro m j hm
    by_cases hmn : m = n
    · rw [hmn, hself] at hm
      cases hm
    · rwa [hother m hmn] at hm
  refine ⟨fun i m j hi hm => h.one i m j (hclaims' i j hi) (hclaims' m j hm), fun m _ => ?_,
    fun j => (hclaims j).1.trans ((h.request j).trans ?_), fun j _ hhas => ?_, fun m j e hm => ?_,
    fun i m j e j' e' hi hm => ?_, fun j m hserving => absurd hserving nofun, fun _ => ?_⟩
  · dsimp only
    by_cases hmn : m = n
    · rw [hmn, hself]
      exact .leaving k td
    · rw [hother m hmn]
      exact h.near m fun j hj => hmn (congrArg Prod.snd (Option.some.inj hj)).symm
  · refine exists_congr fun m => ?_
    dsimp only
    by_cases hmn : m = n
    · rw [hmn, hself, hpc]
      exact iff_of_false (fun hm => absurd hm.2 nofun) fun hm => absurd hm.2 nofun
    · rw [hother m hmn]
      refine and_congr_left fun _ => iff_of_true (fun hm => hmn ?_) nofun
      exact (congrArg Prod.snd (Option.some.inj hm)).symm
  · have hhas' := (hclaims j).2.mp hhas
    by_cases hjk : j = k
    · subst hjk
      exact absurd (hs.ack.mp hhas') nofun
    · exact h.ack j (fun m hm => hjk (congrArg Prod.fst (Option.some.inj hm)).symm) hhas'
  · by_cases hm' : m = n
    · subst hm'
      obtain ⟨rfl, rfl⟩ := ClientPc.leaving.inj (hself.symm.trans hm)
      exact hs.reached.congr rfl rfl rfl rfl
    · exact absurd ((hother m hm').symm.trans hm) (hleft m j e)
  · have hn : ∀ i j e, (goClient n (.leaving k td) c.rest).client i = .leaving j e → i = n := by
      intro i j e hi
      by_contra hin
      exact hleft i j e ((hother i hin).symm.trans hi)
    exact (hn i j e hi).trans (hn m j' e' hm).symm
  -- the server finds the release
  · refine ⟨some .release, ?_, hs.inner.set .release, ?_⟩
    · dsimp only [goClient_server]
      rw [hserver]
      exact .waitRelease
    · exact Bool.eq_false_iff.mpr fun hr => absurd (hs.running.mp hr) nofun

/-! ### What happens besides -/

/-- A client that has claimed may begin a transfer. -/
theorem Handshake.transfer (h : Handshake c serving) (hpc : c.rest.client n = .claimed k)
    (data : TransferData) : ∃ serving', Handshake ⟨c.bits,
      { c.rest with memory := Function.update c.rest.memory td data }.goClient n (.give k td)⟩
        serving' := by
  obtain ⟨td', b, ack, phase, rfl, hs, hj⟩ := h.served_of_client hpc rfl ⟨nofun, nofun, nofun⟩
  generalize hserver : c.rest.server = server at hj
  cases hj
  have hjoint : Joint k td c.rest.server (.give k td) none false .none := hserver ▸ .give
  refine ⟨_, h.serve_client hs rfl rfl nofun hjoint hs.inner (fun j => ⟨Iff.rfl, fun _ => Iff.rfl⟩)
    hs.ack hs.running True.intro fun j => ?_⟩
  rw [hserver]
  exact nofun

/-- The interface finishes the transfer that is running. -/
theorem Handshake.finish (h : Handshake c serving) (hrunning : c.rest.running = true)
    (r : Reply) : ∃ serving', Handshake ⟨c.bits ||| Bit.mask .finished,
      { c.rest with device := c.rest.device.finish r, running := false }.record (.finished r)⟩
        serving' := by
  cases serving with
  | none =>
    obtain ⟨b, hu⟩ := h.unserved rfl
    exact absurd (hu.running.symm.trans hrunning) nofun
  | some s =>
    obtain ⟨td, b, ack, phase, hs⟩ := h.served s.1 s.2 rfl
    obtain rfl := hs.running.mp hrunning
    have hj := hs.joint
    generalize hserver : c.rest.server = server at hj
    generalize hpc : c.rest.client s.2 = pc at hj
    cases hj
    obtain ⟨htransfer, before, hlog⟩ := hs.reached
    have hjoint : Joint s.1 td c.rest.server (c.rest.client s.2) (some .finished) false
        .finished := by
      rw [hserver, hpc]
      exact .finished
    refine ⟨_, h.serve_server hs rfl hjoint (hs.inner.set .finished) (has_claim_set _ (by simp)) rfl
      (iff_of_false nofun nofun) ⟨htransfer, before, r, ?_, rfl⟩
      (hs.nobody_leaving hserver nofun)⟩
    simp [record, hlog]

end PS2Bios.Sio2man
