import PS2Bios.Sio2man.Handshake

/-!
# SIO2MAN: every run keeps one owner

The handshake is kept by every step of the machine with its waiting list (`Coherent.next`): each bit
is waited for by one thread, so no setter leaves a waiter behind, and the only threads that stand
in the list after a wake stand at clients that wait for their answer, which nobody gives before
they have gone on. From it the four parts of the main result follow (`Owned`), the last of them that
as long as a client is inside a call somebody can go on.
-/

namespace PS2Bios.Sio2man

open EventFlag Serial

variable {c c' : Core Serial} {k j : Kind} {n m td : ℕ} {serving : Option (Kind × ℕ)}
  {s s' : State Tid Serial} {l : Label Tid Happening} {x y : Serial}

/-- No client begins a claim while another is inside a claim of that kind, and the service thread
answers no claim while a client is still inside the last call of its transfer. -/
def Alone (c : Core Serial) : Label Tid Happening → Prop
  | .event (.claim _ k) => ∀ m, (c.rest.client m).claims? ≠ some k
  | .thread .server => ∀ k, c.rest.server = .acking k → ∀ m j td, c.rest.client m ≠ .leaving j td
  | _ => True

/-! ### Each thread's place is its own -/

/-- The server's steps move no client. -/
theorem serviceThread_client {pc : ServerPc} {a : Action Serial} (h : serviceThread pc = some a)
    (bits : BitVec 32) (x : Serial) : (a.after bits x).client = x.client := by
  cases pc with
  | woken result =>
    simp only [serviceThread] at h
    split at h <;> (obtain rfl := Option.some.inj h; rfl)
  | exited => exact absurd h nofun
  | _ =>
    obtain rfl := Option.some.inj h
    rfl

/-- A client's steps move neither the server nor another client. -/
theorem clientThread_frame {pc : ClientPc} {a : Action Serial} (h : clientThread n pc = some a)
    (bits : BitVec 32) (x : Serial) : (a.after bits x).server = x.server ∧
      ∀ m ≠ n, (a.after bits x).client m = x.client m := by
  cases pc with
  | idle => exact absurd h nofun
  | claimed k => exact absurd h nofun
  | _ =>
    obtain rfl := Option.some.inj h
    exact ⟨rfl, fun m hm => Function.update_of_ne hm _ _⟩

/-- Only a client that is outside all calls begins one. -/
theorem event_frame {i : Happening} {r : Serial × BitVec 32} (h : serial.event i x = some r) :
    r.1.server = x.server ∧
      ∀ n, r.1.client n = x.client n ∨ clientThread n (x.client n) = none := by
  cases i with
  | claim m k =>
    simp only [serial] at h
    split at h
    · rename_i hpc
      obtain rfl := Option.some.inj h
      refine ⟨rfl, fun n => ?_⟩
      by_cases hn : n = m
      · rw [hn, hpc]
        exact .inr rfl
      · exact .inl (Function.update_of_ne hn _ _)
    · exact absurd h nofun
  | transfer m td data =>
    simp only [serial] at h
    split at h
    · rename_i hpc
      obtain rfl := Option.some.inj h
      refine ⟨rfl, fun n => ?_⟩
      by_cases hn : n = m
      · rw [hn, hpc]
        exact .inr rfl
      · exact .inl (Function.update_of_ne hn _ _)
    · exact absurd h nofun
  | finish r =>
    simp only [serial] at h
    split at h
    · obtain rfl := Option.some.inj h
      exact ⟨rfl, fun n => .inl rfl⟩
    · exact absurd h nofun

/-- Each thread's step depends on its own place only. -/
theorem isOwn_serial : IsOwn serial where
  thread := by
    intro t a x h bits u hu
    cases t with
    | server =>
      cases u with
      | server => exact absurd rfl hu
      | client n => exact congrArg (clientThread n) (congrFun (serviceThread_client h bits x) n)
    | client m =>
      have hframe := clientThread_frame h bits x
      cases u with
      | server => exact congrArg serviceThread hframe.1
      | client n =>
        exact congrArg (clientThread n) (hframe.2 n fun heq => hu (congrArg Tid.client heq))
  event := by
    intro i x r h u b any k hwait
    cases u with
    | server => exact (congrArg serviceThread (event_frame h).1).trans hwait
    | client n =>
      rcases (event_frame h).2 n with heq | hnone
      · exact (congrArg (clientThread n) heq).trans hwait
      · exact absurd (hnone.symm.trans hwait) nofun

/-! ### The handshake in every run -/

/-- Whatever the service thread does. -/
theorem Handshake.server (h : Handshake c serving) (halone : Alone c (.thread .server))
    (hm : Moves serial c (.thread .server) c') : ∃ serving', Handshake c' serving' := by
  generalize hl : (Label.thread Tid.server : Label Tid Happening) = l at hm
  cases hm with
  | @set t b k ha =>
    obtain rfl := Label.thread.inj hl
    have ha' : serviceThread c.rest.server = some (.set b k) := ha
    generalize hserver : c.rest.server = server at ha'
    cases server with
    | acking k =>
      obtain ⟨rfl, rfl⟩ := Action.set.inj (Option.some.inj ha')
      exact h.answer hserver (halone k hserver)
    | setDone =>
      obtain ⟨rfl, rfl⟩ := Action.set.inj (Option.some.inj ha')
      exact h.setDone hserver
    | woken result =>
      simp only [serviceThread] at ha'
      split at ha' <;> exact absurd ha' nofun
    | _ => exact absurd ha' nofun
  | @clear t keep k ha =>
    obtain rfl := Label.thread.inj hl
    have ha' : serviceThread c.rest.server = some (.clear keep k) := ha
    generalize hserver : c.rest.server = server at ha'
    cases server with
    | clearRun =>
      obtain ⟨rfl, rfl⟩ := Action.clear.inj (Option.some.inj ha')
      exact h.clearRun hserver
    | clearFinished =>
      obtain ⟨rfl, rfl⟩ := Action.clear.inj (Option.some.inj ha')
      exact h.clearFinished hserver
    | clearRelease =>
      obtain ⟨rfl, rfl⟩ := Action.clear.inj (Option.some.inj ha')
      exact h.clearRelease hserver
    | woken result =>
      obtain ⟨b, rfl, -, -⟩ := h.exists_unserved hserver fun k td pc b ack phase hj => by cases hj
      obtain ⟨k, hk, n, htake⟩ := h.take hserver
      simp only [serviceThread, hk] at ha'
      obtain ⟨rfl, rfl⟩ := Action.clear.inj (Option.some.inj ha')
      exact ⟨_, htake⟩
    | _ => exact absurd ha' nofun
  | @act t k ha =>
    obtain rfl := Label.thread.inj hl
    have ha' : serviceThread c.rest.server = some (.act k) := ha
    generalize hserver : c.rest.server = server at ha'
    cases server with
    | push =>
      obtain rfl := Action.act.inj (Option.some.inj ha')
      exact h.push hserver
    | start =>
      obtain rfl := Action.act.inj (Option.some.inj ha')
      exact h.started hserver
    | harvest =>
      obtain rfl := Action.act.inj (Option.some.inj ha')
      exact h.harvest hserver
    | woken result =>
      -- a thread that was woken finds a request
      obtain ⟨b, rfl, -, -⟩ := h.exists_unserved hserver fun k td pc b ack phase hj => by cases hj
      obtain ⟨k, hk, n, -⟩ := h.take hserver
      simp only [serviceThread, hk] at ha'
      exact absurd ha' nofun
    | _ => exact absurd ha' nofun
  | event h => exact absurd hl nofun

/-- A client at a place where it is served by nobody is not the one served. -/
theorem Handshake.not_served {pc : ClientPc} (h : Handshake c serving)
    (hpc : c.rest.client n = pc)
    (hnot : ∀ k td server b ack phase, ¬Joint k td server pc b ack phase) :
    ∀ k, serving ≠ some (k, n) := by
  intro k hserving
  obtain ⟨td, b, ack, phase, hs⟩ := h.served k n hserving
  exact hnot _ _ _ _ _ _ (hpc ▸ hs.joint)

/-- Whatever a client does. -/
theorem Handshake.client (h : Handshake c serving) (hm : Moves serial c (.thread (.client n)) c') :
    ∃ serving', Handshake c' serving' := by
  generalize hl : (Label.thread (Tid.client n) : Label Tid Happening) = l at hm
  cases hm with
  | @set t b f ha =>
    obtain rfl := Label.thread.inj hl
    have ha' : clientThread n (c.rest.client n) = some (.set b f) := ha
    generalize hpc : c.rest.client n = pc at ha'
    cases pc with
    -- a request is set by who stands aside; the other two bits are set in the middle of a turn
    | request k =>
      obtain ⟨rfl, rfl⟩ := Action.set.inj (Option.some.inj ha')
      refine ⟨_, h.aside (h.not_served hpc fun k td server b ack phase hj => by cases hj)
        (fun i hi m hmn hm => ?_) (.waitAck k) nofun (fun i hi => ?_) fun x => ?_⟩
      · obtain rfl := Option.some.inj hi
        exact hmn (h.one m n k hm (hpc ▸ rfl))
      · exact absurd (hpc.symm.trans hi) nofun
      · rw [has_or]
        refine or_congr_right ⟨fun hx => ⟨k, rfl, hx⟩, ?_⟩
        rintro ⟨i, hi, hx⟩
        exact ClientPc.waitAck.inj hi ▸ hx
    | setRun k td =>
      obtain ⟨rfl, rfl⟩ := Action.set.inj (Option.some.inj ha')
      exact h.setRun hpc
    | setRelease k td =>
      obtain ⟨rfl, rfl⟩ := Action.set.inj (Option.some.inj ha')
      exact ⟨_, h.setRelease hpc⟩
    | _ => exact absurd ha' nofun
  | @clear t keep f ha =>
    obtain rfl := Label.thread.inj hl
    have ha' : clientThread n (c.rest.client n) = some (.clear keep f) := ha
    generalize hpc : c.rest.client n = pc at ha'
    cases pc with
    | clearAck k =>
      obtain ⟨rfl, rfl⟩ := Action.clear.inj (Option.some.inj ha')
      exact h.clearAck hpc
    | clearDone k td =>
      obtain ⟨rfl, rfl⟩ := Action.clear.inj (Option.some.inj ha')
      exact h.clearDone hpc
    | _ => exact absurd ha' nofun
  | @act t f ha =>
    obtain rfl := Label.thread.inj hl
    have ha' : clientThread n (c.rest.client n) = some (.act f) := ha
    generalize hpc : c.rest.client n = pc at ha'
    cases pc with
    | give k td =>
      obtain rfl := Action.act.inj (Option.some.inj ha')
      exact h.give hpc
    | leaving k td =>
      obtain rfl := Action.act.inj (Option.some.inj ha')
      refine ⟨_, h.aside (h.not_served hpc fun k td server b ack phase hj => by cases hj)
        nofun .idle nofun (fun i hi => ?_) fun x => ?_⟩
      · exact absurd (hpc.symm.trans hi) nofun
      · exact (or_iff_left nofun).symm
    | _ => exact absurd ha' nofun
  | event h => exact absurd hl nofun

/-- Whatever happens besides. -/
theorem Handshake.event {i : Happening} (h : Handshake c serving) (halone : Alone c (.event i))
    (hm : Moves serial c (.event i) c') : ∃ serving', Handshake c' serving' := by
  generalize hl : (Label.event i : Label Tid Happening) = l at hm
  cases hm with
  | @event i' rest b he =>
    obtain rfl := Label.event.inj hl
    cases i with
    | claim n k =>
      simp only [serial] at he
      split at he
      · rename_i hpc
        obtain ⟨rfl, rfl⟩ := Prod.mk.inj (Option.some.inj he)
        refine ⟨_, h.aside (h.not_served hpc fun k td server b ack phase hj => by cases hj)
          (fun j hj m _ hm => ?_) (.request k) nofun (fun j hj => ?_) fun x => ?_⟩
        · exact halone m (hm.trans hj.symm)
        · exact absurd (hpc.symm.trans hj) nofun
        · have hbits : c.bits ||| 0 = c.bits := BitVec.or_zero
          rw [hbits]
          exact (or_iff_left nofun).symm
      · exact absurd he nofun
    | transfer n td data =>
      simp only [serial] at he
      split at he
      · rename_i k hpc
        obtain ⟨rfl, rfl⟩ := Prod.mk.inj (Option.some.inj he)
        have hbits : c.bits ||| 0 = c.bits := BitVec.or_zero
        rw [hbits]
        exact h.transfer hpc data
      · exact absurd he nofun
    | finish r =>
      simp only [serial] at he
      split at he
      · rename_i hrunning
        obtain ⟨rfl, rfl⟩ := Prod.mk.inj (Option.some.inj he)
        exact h.finish hrunning r
      · exact absurd he nofun
  | _ => exact absurd hl nofun

/-- A move keeps the handshake. -/
theorem Handshake.moves (h : Handshake c serving) (halone : Alone c l)
    (hm : Moves serial c l c') : ∃ serving', Handshake c' serving' := by
  cases l with
  | event i => exact h.event halone hm
  | thread t =>
    cases t with
    | server => exact h.server halone hm
    | client n => exact h.client hm

/-- The end of a wait keeps the handshake. -/
theorem Handshake.wakes (h : Handshake c serving) (hw : Wakes serial c c') :
    ∃ serving', Handshake c' serving' := by
  cases hw with
  | @wait t wanted any f ha hbits =>
    cases t with
    | server =>
      have ha' : serviceThread c.rest.server = some (.wait wanted any f) := ha
      generalize hserver : c.rest.server = server at ha'
      cases server with
      | waitRequest =>
        obtain ⟨rfl, rfl, rfl⟩ := Action.wait.inj (Option.some.inj ha')
        exact h.waitRequest hserver (satisfied_requests.mp hbits)
      | waitRun =>
        obtain ⟨rfl, rfl, rfl⟩ := Action.wait.inj (Option.some.inj ha')
        exact h.waitRun hserver (satisfied_mask.mp hbits)
      | waitFinished =>
        obtain ⟨rfl, rfl, rfl⟩ := Action.wait.inj (Option.some.inj ha')
        exact h.waitFinished hserver (satisfied_mask.mp hbits)
      | waitRelease =>
        obtain ⟨rfl, rfl, rfl⟩ := Action.wait.inj (Option.some.inj ha')
        exact h.waitRelease hserver (satisfied_mask.mp hbits)
      | woken result =>
        simp only [serviceThread] at ha'
        split at ha' <;> exact absurd ha' nofun
      | _ => exact absurd ha' nofun
    | client n =>
      have ha' : clientThread n (c.rest.client n) = some (.wait wanted any f) := ha
      generalize hpc : c.rest.client n = pc at ha'
      cases pc with
      | waitAck k =>
        obtain ⟨rfl, rfl, rfl⟩ := Action.wait.inj (Option.some.inj ha')
        exact h.waitAck hpc (satisfied_mask.mp hbits)
      | waitDone k td =>
        obtain ⟨rfl, rfl, rfl⟩ := Action.wait.inj (Option.some.inj ha')
        exact h.waitDone hpc (satisfied_mask.mp hbits)
      | _ => exact absurd ha' nofun

/-! ### Who waits for what -/

theorem mask_and_mask {a b : Bit} (h : a.mask &&& b.mask ≠ 0) : b = a := by
  revert h
  cases a <;> cases b <;> decide

theorem mask_inj {a b : Bit} (h : a.mask = b.mask) : a = b := by
  revert h
  cases a <;> cases b <;> decide

theorem requests_and_mask {b : Bit}
    (h : (Bit.mask .padRequest ||| Bit.mask .mcRequest) &&& b.mask ≠ 0) :
    b = .padRequest ∨ b = .mcRequest := by
  revert h
  cases b <;> decide

/-- What the service thread waits for, by where it waits. -/
inductive ServerWaits : ServerPc → Bit → Prop
  | padRequest : ServerWaits .waitRequest .padRequest
  | mcRequest : ServerWaits .waitRequest .mcRequest
  | run : ServerWaits .waitRun .run
  | finished : ServerWaits .waitFinished .finished
  | release : ServerWaits .waitRelease .release

/-- What a client waits for, by where it waits. -/
inductive ClientWaits : ClientPc → Bit → Prop
  | ack (k : Kind) : ClientWaits (.waitAck k) k.ack
  | done (k : Kind) (td : ℕ) : ClientWaits (.waitDone k td) .done

/-- Who waits for a bit. -/
inductive WaitsFor (x : Serial) : Tid → Bit → Prop
  | server {b : Bit} (h : ServerWaits x.server b) : WaitsFor x .server b
  | client {n : ℕ} {b : Bit} (h : ClientWaits (x.client n) b) : WaitsFor x (.client n) b

/-- Clients wait for answers and for the end of their transfers. -/
theorem server_of_waitsFor {t : Tid} {b : Bit} (h : WaitsFor x t b) (hack : ∀ k : Kind, b ≠ k.ack)
    (hdone : b ≠ .done) : t = .server := by
  cases h with
  | server hs => rfl
  | @client m _ hc =>
    generalize x.client m = pc at hc
    cases hc with
    | ack j => exact absurd rfl (hack j)
    | done j td => exact absurd rfl hdone

/-- A request is waited for at one place. -/
theorem server_waits_request {t : Tid} (h : WaitsFor x t k.request) :
    t = .server ∧ x.server = .waitRequest := by
  obtain rfl := server_of_waitsFor h k.request_ne_ack (by cases k <;> exact nofun)
  refine ⟨rfl, ?_⟩
  cases h with
  | server hs =>
    generalize hb : k.request = b at hs
    generalize x.server = server at hs
    cases hs with
    | padRequest => rfl
    | mcRequest => rfl
    | _ => cases k <;> exact absurd hb nofun

/-- Who waits on the flag for a bit is at a place that waits for it. -/
theorem waitsFor_of_waiter {ws : List (Waiter Tid)} {w : Waiter Tid} {b : Bit}
    (h : AtWaits serial x ws) (hw : w ∈ ws) (hb : w.wanted &&& b.mask ≠ 0) :
    WaitsFor x w.thread b := by
  obtain ⟨f, hf⟩ := h.wait w hw
  obtain ⟨t, wanted, any⟩ := w
  cases t with
  | server =>
    have hf' : serviceThread x.server = some (.wait wanted any f) := hf
    refine .server ?_
    generalize x.server = server at hf'
    cases server with
    | waitRequest =>
      obtain ⟨rfl, -, -⟩ := Action.wait.inj (Option.some.inj hf')
      rcases requests_and_mask hb with rfl | rfl
      · exact .padRequest
      · exact .mcRequest
    | waitRun =>
      obtain ⟨rfl, -, -⟩ := Action.wait.inj (Option.some.inj hf')
      exact mask_and_mask hb ▸ .run
    | waitFinished =>
      obtain ⟨rfl, -, -⟩ := Action.wait.inj (Option.some.inj hf')
      exact mask_and_mask hb ▸ .finished
    | waitRelease =>
      obtain ⟨rfl, -, -⟩ := Action.wait.inj (Option.some.inj hf')
      exact mask_and_mask hb ▸ .release
    | woken result =>
      simp only [serviceThread] at hf'
      split at hf' <;> exact absurd hf' nofun
    | _ => exact absurd hf' nofun
  | client n =>
    have hf' : clientThread n (x.client n) = some (.wait wanted any f) := hf
    refine .client ?_
    generalize x.client n = pc at hf'
    cases pc with
    | waitAck k =>
      obtain ⟨rfl, -, -⟩ := Action.wait.inj (Option.some.inj hf')
      exact mask_and_mask hb ▸ .ack k
    | waitDone k td =>
      obtain ⟨rfl, -, -⟩ := Action.wait.inj (Option.some.inj hf')
      exact mask_and_mask hb ▸ .done k td
    | _ => exact absurd hf' nofun

/-- A waiter that is a client waits for its answer or for the end of its transfer. -/
theorem client_of_waiter {ws : List (Waiter Tid)} {w : Waiter Tid} (h : AtWaits serial x ws)
    (hw : w ∈ ws) (hn : w.thread = .client n) :
    (∃ k, x.client n = .waitAck k ∧ w.wanted = k.ack.mask) ∨
      ∃ k td, x.client n = .waitDone k td ∧ w.wanted = Bit.mask .done := by
  obtain ⟨f, hf⟩ := h.wait w hw
  rw [hn] at hf
  have hf' : clientThread n (x.client n) = some (.wait w.wanted w.any f) := hf
  generalize x.client n = pc at hf'
  cases pc with
  | waitAck k =>
    obtain ⟨hwanted, -, -⟩ := Action.wait.inj (Option.some.inj hf')
    exact .inl ⟨k, rfl, hwanted.symm⟩
  | waitDone k td =>
    obtain ⟨hwanted, -, -⟩ := Action.wait.inj (Option.some.inj hf')
    exact .inr ⟨k, td, rfl, hwanted.symm⟩
  | _ => exact absurd hf' nofun

theorem waiter_eq {ws : List (Waiter Tid)} {w v : Waiter Tid} (h : AtWaits serial x ws)
    (hw : w ∈ ws) (hv : v ∈ ws) (heq : v.thread = w.thread) : v = w :=
  List.inj_on_of_nodup_map h.nodup hv hw heq

/-- Each bit is waited for by one thread. -/
theorem Handshake.waitsFor_unique {t u : Tid} {b : Bit} (h : Handshake c serving)
    (ht : WaitsFor c.rest t b) (hu : WaitsFor c.rest u b) : t = u := by
  cases ht with
  | server ht =>
    cases hu with
    | server hu => rfl
    | @client n _ hu =>
      generalize c.rest.server = server at ht
      generalize c.rest.client n = pc at hu
      cases hu with
      | ack k => cases k <;> cases ht
      | done k td => cases ht
  | @client n _ ht =>
    cases hu with
    | server hu =>
      generalize c.rest.server = server at hu
      generalize c.rest.client n = pc at ht
      cases ht with
      | ack k => cases k <;> cases hu
      | done k td => cases hu
    | @client m _ hu =>
      generalize hn : c.rest.client n = pc at ht
      generalize hm : c.rest.client m = pc' at hu
      cases ht with
      | ack k =>
        generalize hb : k.ack = b at hu
        cases hu with
        | ack j =>
          obtain rfl := Kind.ack_inj.mp hb
          rw [h.one n m k (hn ▸ rfl) (hm ▸ rfl)]
        | done j td => cases k <;> exact absurd hb nofun
      | done k td =>
        generalize hb : Bit.done = b at hu
        cases hu with
        | ack j => cases j <;> exact absurd hb nofun
        | done j e =>
          -- both are served
          obtain ⟨_, _, _, _, hs, -, -⟩ := h.served_of_client hn rfl ⟨nofun, nofun, nofun⟩
          obtain ⟨_, _, _, _, hs', -, -⟩ := h.served_of_client hm rfl ⟨nofun, nofun, nofun⟩
          have heq := (Prod.mk.inj (Option.some.inj (hs.symm.trans hs'))).2
          rw [heq]

/-! ### The machine with its waiting list -/

/-- The machine is calm, the handshake holds, and who still goes through the list stands at a
client that waits for its answer; a client that does so has set the bit that starts its transfer,
or its last. -/
structure Coherent (s : State Tid Serial) : Prop where
  calm : IsCalm serial s
  handshake : ∃ serving, Handshake s.toCore serving
  place : ∀ u x, s.walk u = some (some x) → ∃ m j, x = .client m ∧ s.rest.client m = .waitAck j
  setter : ∀ n x, s.walk (.client n) = some (some x) →
    (∃ k td, s.rest.client n = .waitDone k td) ∨ ∃ k td, s.rest.client n = .leaving k td
  walker : ∀ u, s.walk u ≠ none → ∀ w ∈ s.waiters, w.thread ≠ u

/-- Before the first call everything is coherent. -/
theorem coherent_start (memory : ℕ → TransferData) (device : Device) :
    Coherent (start memory device) where
  calm :=
    { atWaits := ⟨nofun, List.nodup_nil⟩
      quiet := nofun
      placed := nofun }
  handshake := by
    have hinner : Inner 0 none := fun x _ => iff_of_false has_zero nofun
    refine ⟨none, nofun, fun n _ => .idle, fun k => iff_of_false has_zero nofun,
      fun k _ => has_zero, nofun, nofun, nofun, fun _ => ⟨none, .waitRequest, hinner, rfl⟩⟩
  place := nofun
  setter := nofun
  walker := fun u hu => absurd rfl hu

/-- Who sets bits, and which. -/
theorem set_cases {t : Tid} {b : BitVec 32} {f : Serial → Serial}
    (hset : serial.action t x = some (.set b f)) :
    t = .server ∧ (∃ k, x.server = .acking k ∧ b = k.ack.mask ∨
        x.server = .setDone ∧ b = Bit.mask .done) ∨
      ∃ n, t = .client n ∧ ((∃ k, x.client n = .request k ∧ b = k.request.mask) ∨
        (∃ k td, x.client n = .setRun k td ∧ b = Bit.mask .run) ∨
        ∃ k td, x.client n = .setRelease k td ∧ b = Bit.mask .release) := by
  cases t with
  | server =>
    have ha : serviceThread x.server = some (.set b f) := hset
    refine .inl ⟨rfl, ?_⟩
    generalize x.server = server at ha
    cases server with
    | acking k =>
      obtain ⟨rfl, -⟩ := Action.set.inj (Option.some.inj ha)
      exact ⟨k, .inl ⟨rfl, rfl⟩⟩
    | setDone =>
      obtain ⟨rfl, -⟩ := Action.set.inj (Option.some.inj ha)
      exact ⟨.pad, .inr ⟨rfl, rfl⟩⟩
    | woken result =>
      simp only [serviceThread] at ha
      split at ha <;> exact absurd ha nofun
    | _ => exact absurd ha nofun
  | client n =>
    have ha : clientThread n (x.client n) = some (.set b f) := hset
    refine .inr ⟨n, rfl, ?_⟩
    generalize x.client n = pc at ha
    cases pc with
    | request k =>
      obtain ⟨rfl, -⟩ := Action.set.inj (Option.some.inj ha)
      exact .inl ⟨k, rfl, rfl⟩
    | setRun k td =>
      obtain ⟨rfl, -⟩ := Action.set.inj (Option.some.inj ha)
      exact .inr (.inl ⟨k, td, rfl, rfl⟩)
    | setRelease k td =>
      obtain ⟨rfl, -⟩ := Action.set.inj (Option.some.inj ha)
      exact .inr (.inr ⟨k, td, rfl, rfl⟩)
    | _ => exact absurd ha nofun

/-- Every set is of one bit. -/
theorem exists_bit_of_set {t : Tid} {b : BitVec 32} {f : Serial → Serial}
    (hset : serial.action t x = some (.set b f)) : ∃ a : Bit, b = a.mask := by
  rcases set_cases hset with ⟨-, k, ⟨-, rfl⟩ | ⟨-, rfl⟩⟩ |
    ⟨n, -, ⟨k, -, rfl⟩ | ⟨k, td, -, rfl⟩ | ⟨k, td, -, rfl⟩⟩
  all_goals exact ⟨_, rfl⟩

/-- Who is answered is nobody's place: no client is on its way through the list then. -/
theorem Coherent.wakesOne (h : Coherent s) (halone : Alone s.toCore l) : WakesOne serial s l := by
  obtain ⟨serving, hh⟩ := h.handshake
  have hat := h.calm.atWaits
  refine ⟨fun {t b f} hl hset w hw hwb v hv hvb => ?_,
    fun {t b f} hl hset w hw hwb u hu hwalk => ?_,
    fun {i r} hl hr w hw hwb u hwalk => ?_⟩
  · obtain ⟨a, rfl⟩ := exists_bit_of_set hset
    exact waiter_eq hat hw hv (hh.waitsFor_unique (waitsFor_of_waiter hat hv hvb)
      (waitsFor_of_waiter hat hw hwb))
  · obtain ⟨m, j, hm, hmpc⟩ := h.place u _ hwalk
    obtain ⟨a, rfl⟩ := exists_bit_of_set hset
    have hwaits := waitsFor_of_waiter hat hw hwb
    rw [hm] at hwaits
    generalize ht : Tid.client m = t' at hwaits
    cases hwaits with
    | server _ => exact absurd ht nofun
    | @client m' _ hc =>
      obtain rfl := Tid.client.inj ht
      rw [hmpc] at hc
      generalize ha : a = a' at hc
      cases hc
      -- only the service thread answers, and then the setter is a client
      rcases set_cases hset with ⟨rfl, k, ⟨hserver, hmask⟩ | ⟨-, hmask⟩⟩ |
        ⟨n, -, ⟨k, -, hmask⟩ | ⟨k, td, -, hmask⟩ | ⟨k, td, -, hmask⟩⟩
      · subst hl
        cases u with
        | server => exact hu rfl
        | client n =>
          rcases h.setter n _ hwalk with ⟨i, td, hn⟩ | ⟨i, td, hn⟩
          · obtain ⟨_, _, _, _, -, -, hj⟩ := hh.served_of_client hn rfl ⟨nofun, nofun, nofun⟩
            rw [hserver] at hj
            cases hj
          · exact halone k hserver n i td hn
      all_goals
        subst ha
        revert hmask
        cases j <;> first | decide | (cases k <;> decide)
  · obtain ⟨m, j, hm, hmpc⟩ := h.place u _ hwalk
    have hbit : r.2 = 0 ∨ r.2 = Bit.mask .finished := by
      cases i with
      | claim n k =>
        simp only [serial] at hr
        split at hr
        · exact .inl (congrArg Prod.snd (Option.some.inj hr)).symm
        · exact absurd hr nofun
      | transfer n td data =>
        simp only [serial] at hr
        split at hr
        · exact .inl (congrArg Prod.snd (Option.some.inj hr)).symm
        · exact absurd hr nofun
      | finish r' =>
        simp only [serial] at hr
        split at hr
        · exact .inr (congrArg Prod.snd (Option.some.inj hr)).symm
        · exact absurd hr nofun
    rcases hbit with hbit | hbit
    · rw [hbit] at hwb
      exact hwb (BitVec.and_zero)
    · rw [hbit] at hwb
      have hwaits := waitsFor_of_waiter hat hw hwb
      rw [hm] at hwaits
      generalize ht : Tid.client m = t' at hwaits
      cases hwaits with
      | server _ => exact absurd ht nofun
      | @client m' _ hc =>
        obtain rfl := Tid.client.inj ht
        rw [hmpc] at hc
        generalize hb : Bit.finished = b at hc
        cases hc
        cases j <;> exact absurd hb nofun

/-- A client inside a call goes nowhere by what the others do. -/
theorem client_keeps {pc : ClientPc} (hpc : clientThread n pc ≠ none) :
    (∀ {t a x}, t ≠ Tid.client n → serial.action t x = some a → x.client n = pc → ∀ bits,
      (a.after bits x).client n = pc) ∧
    ∀ {i x r}, serial.event i x = some r → x.client n = pc → r.1.client n = pc := by
  refine ⟨fun {t a x} ht ha hx bits => ?_, fun {i x r} hr hx => ?_⟩
  · cases t with
    | server => exact (congrFun (serviceThread_client ha bits x) n).trans hx
    | client m =>
      exact ((clientThread_frame ha bits x).2 n fun heq => ht (congrArg Tid.client heq.symm)).trans
        hx
  · rcases (event_frame hr).2 n with heq | hnone
    · exact heq.trans hx
    · exact absurd (hx ▸ hnone) hpc

/-- A waiter that stays is where it was. -/
theorem Coherent.stays (h : Coherent s)
    (hstep : step serial s l = some s') {v w : Waiter Tid} (hv : v ∈ s.waiters)
    (hw : w ∈ s'.waiters) (heq : w.thread = v.thread) : w = v := by
  rcases (step_frame hstep).1 w hw with hold | ⟨hl, -, -⟩
  · exact waiter_eq h.calm.atWaits hv hold heq
  · exact absurd heq.symm ((step_frame hstep).2.2 _ hl v hv)

/-- A setter that wakes somebody in front of another waiter: that one waits for its answer, and
the setter is past its claim. -/
theorem Coherent.behind {u : Tid} {a : Bit} {f : Serial → Serial} {v w : Waiter Tid}
    (h : Coherent s) (hset : serial.action u s.rest = some (.set a.mask f)) (hv : v ∈ s.waiters)
    (hvb : v.wanted &&& a.mask ≠ 0) (hw : w ∈ s.waiters) (hne : v.thread ≠ w.thread) :
    (∃ m j, w.thread = .client m ∧ s.rest.client m = .waitAck j) ∧
      ∀ n k, u = .client n → s.rest.client n ≠ .request k := by
  obtain ⟨serving, hh⟩ := h.handshake
  have hat := h.calm.atWaits
  have hvw := waitsFor_of_waiter hat hv hvb
  -- a client that waits for the end of its transfer is served
  have hdone : ∀ {m k td}, s.rest.client m = .waitDone k td →
      ∃ b ack phase, serving = some (k, m) ∧
        Joint k td s.rest.server (.waitDone k td) b ack phase := by
    intro m k td hm
    obtain ⟨td', b, ack, phase, hs, -, hj⟩ := hh.served_of_client hm rfl ⟨nofun, nofun, nofun⟩
    generalize s.rest.server = server at hj ⊢
    have htd : td' = td := by
      cases hj <;> rfl
    exact ⟨b, ack, phase, hs, htd ▸ hj⟩
  -- the waiter behind is a client, at one of a client's two waits
  have hclient : w.thread ≠ .server → ∃ m, w.thread = .client m ∧
      ((∃ j, s.rest.client m = .waitAck j) ∨ ∃ j td, s.rest.client m = .waitDone j td) := by
    intro hws
    obtain ⟨m, hm⟩ : ∃ m, w.thread = .client m := by
      cases hwt : w.thread with
      | server => exact absurd hwt hws
      | client m => exact ⟨m, rfl⟩
    refine ⟨m, hm, ?_⟩
    rcases client_of_waiter hat hw hm with ⟨j, hj, -⟩ | ⟨j, td, hj, -⟩
    · exact .inl ⟨j, hj⟩
    · exact .inr ⟨j, td, hj⟩
  have hserverSets : u = .server → w.thread ≠ .server := by
    rintro rfl hws
    obtain ⟨g, hg⟩ := hat.wait w hw
    rw [hws] at hg
    exact absurd (hset.symm.trans hg) nofun
  rcases set_cases hset with ⟨rfl, k, ⟨hserver, hmask⟩ | ⟨hserver, hmask⟩⟩ |
    ⟨n, rfl, ⟨k, hpc, hmask⟩ | ⟨k, td, hpc, hmask⟩ | ⟨k, td, hpc, hmask⟩⟩
  · obtain ⟨m, hm, ⟨j, hj⟩ | ⟨j, td, hj⟩⟩ := hclient (hserverSets rfl)
    · exact ⟨⟨m, j, hm, hj⟩, nofun⟩
    · obtain ⟨b, ack, phase, -, hjoint⟩ := hdone hj
      rw [hserver] at hjoint
      cases hjoint
  · obtain ⟨m, hm, ⟨j, hj⟩ | ⟨j, td, hj⟩⟩ := hclient (hserverSets rfl)
    · exact ⟨⟨m, j, hm, hj⟩, nofun⟩
    · -- the setter's bit is waited for by one thread
      obtain rfl : a = .done := mask_inj hmask
      have hwaits : WaitsFor s.rest w.thread .done := hm ▸ .client (hj ▸ .done j td)
      exact absurd (hh.waitsFor_unique hvw hwaits) hne
  · obtain rfl : a = k.request := mask_inj hmask
    obtain ⟨hvs, hserver⟩ := server_waits_request hvw
    obtain ⟨m, hm, ⟨j, hj⟩ | ⟨j, td, hj⟩⟩ := hclient fun hws => hne (hvs.trans hws.symm)
    · -- a request is set, and the service thread waits for it
      obtain ⟨b, rfl, -, -⟩ := hh.exists_unserved hserver fun k td pc b ack phase hj => by cases hj
      have hrequest : Has s.bits j.request :=
        (hh.request j).mpr ⟨m, (Option.some_ne_none _).symm, hj⟩
      have hsat : ∀ wanted any g, serial.action .server s.rest = some (.wait wanted any g) →
          satisfied s.bits wanted any := by
        intro wanted any g hg
        have hg' : serviceThread s.rest.server = some (.wait wanted any g) := hg
        rw [hserver] at hg'
        obtain ⟨rfl, rfl, -⟩ := Action.wait.inj (Option.some.inj hg')
        refine satisfied_requests.mpr ?_
        cases j with
        | pad => exact .inl hrequest
        | mc => exact .inr hrequest
      exact absurd hvs (h.calm.free_of_satisfied hsat v hv)
    · obtain ⟨b, ack, phase, -, hjoint⟩ := hdone hj
      rw [hserver] at hjoint
      cases hjoint
  all_goals
    have hvs : v.thread = .server := by
      obtain rfl := mask_inj hmask
      exact server_of_waitsFor hvw (fun k => by cases k <;> exact nofun) nofun
    obtain ⟨m, hm, ⟨j, hj⟩ | ⟨j, td', hj⟩⟩ := hclient fun hws => hne (hvs.trans hws.symm)
    · refine ⟨⟨m, j, hm, hj⟩, fun n' k' hn' => ?_⟩
      obtain rfl := Tid.client.inj hn'
      rw [hpc]
      exact nofun
    · -- both would be served
      obtain ⟨_, _, _, hs, -⟩ := hdone hj
      obtain ⟨_, _, _, _, hs', -, -⟩ := hh.served_of_client hpc rfl ⟨nofun, nofun, nofun⟩
      obtain rfl := (Prod.mk.inj (Option.some.inj (hs.symm.trans hs'))).2
      exact absurd (hpc.symm.trans hj) nofun

/-- **One step.** -/
theorem Coherent.next (h : Coherent s) (halone : Alone s.toCore l)
    (hstep : step serial s l = some s') : Coherent s' := by
  obtain ⟨serving, hh⟩ := h.handshake
  obtain ⟨hcalm, hstands⟩ := h.calm.step isOwn_serial (h.wakesOne halone) hstep
  obtain ⟨⟨c, hc, hwakes⟩, -⟩ := step_core isOwn_serial h.calm.atWaits hstep
  obtain ⟨hsub, hwalker, hfree⟩ := step_frame hstep
  -- a place is a client that waits for its answer, before the step and after
  have hplaced : ∀ u y, s'.walk u = some (some y) →
      (∃ v ∈ s.waiters, v.thread = y) → (∃ m j, y = .client m ∧ s.rest.client m = .waitAck j) →
        ∃ m j, y = .client m ∧ s'.rest.client m = .waitAck j := by
    rintro u _ hu ⟨v, hv, hvm⟩ ⟨m, j, rfl, hm⟩
    obtain ⟨w, hw, hwm⟩ := hcalm.placed u _ hu
    have hwv : w = v := h.stays hstep hv hw (hwm.trans hvm.symm)
    subst hwv
    refine ⟨m, ?_⟩
    rcases client_of_waiter hcalm.atWaits hw hwm with ⟨i, hi, -⟩ | ⟨i, td, hi, hdone⟩
    · exact ⟨i, rfl, hi⟩
    · rcases client_of_waiter h.calm.atWaits hv hvm with ⟨i', hi', hack⟩ | ⟨i', td', hi', -⟩
      · exact absurd (hdone.symm.trans hack) (by cases i' <;> decide)
      · exact absurd (hm.symm.trans hi') nofun
  refine ⟨hcalm, ?_, fun u y hu => ?_, fun n y hu => ?_, fun u hu w hw => ?_⟩
  · -- at most one move, and then some ends of waits
    have hmove : ∃ serving', Handshake c serving' := by
      rcases hc with rfl | hm
      · exact ⟨serving, hh⟩
      · exact hh.moves halone hm
    have hkeep : ∀ {c₁ c₂ : Core Serial}, Relation.ReflTransGen (Wakes serial) c₁ c₂ →
        (∃ serving', Handshake c₁ serving') → ∃ serving', Handshake c₂ serving' := by
      intro c₁ c₂ hrun hstart
      induction hrun with
      | refl => exact hstart
      | tail _ hw ih =>
        obtain ⟨_, hi⟩ := ih
        exact hi.wakes hw
    exact hkeep hwakes hmove
  · rcases hstands u y hu with hold | ⟨rfl, -, hy, b, f, hset, v, hv, hvy, hvb⟩
    · exact hplaced u y hu (h.calm.placed u y hold) (h.place u y hold)
    · obtain ⟨w, hw, rfl⟩ := hy
      obtain ⟨a, rfl⟩ := exists_bit_of_set hset
      exact hplaced u w.thread hu ⟨w, hw, rfl⟩ (h.behind hset hv hvb hw hvy).1
  · rcases hstands _ y hu with hold | ⟨rfl, hnone, ⟨w, hw, rfl⟩, b, f, hset, v, hv, hvy, hvb⟩
    · have hstay : ∀ pc, clientThread n pc ≠ none → s.rest.client n = pc →
          s'.rest.client n = pc := fun pc hpc hn =>
        step_keeps (P := fun x => x.client n = pc) (client_keeps hpc).1
          (fun _ => (client_keeps hpc).2) hstep
          (h.walker _ (by rw [hold]; exact nofun)) (.inr (by rw [hold]; exact nofun)) hn
      rcases h.setter n y hold with ⟨k, td, hn⟩ | ⟨k, td, hn⟩
      · exact .inl ⟨k, td, hstay _ nofun hn⟩
      · exact .inr ⟨k, td, hstay _ nofun hn⟩
    · obtain ⟨a, rfl⟩ := exists_bit_of_set hset
      have hbehind := (h.behind hset hv hvb hw hvy).2 n
      have hgo : ∀ pc, clientThread n pc ≠ none → (f s.rest).client n = pc →
          s'.rest.client n = pc := fun pc hpc hn =>
        set_keeps (P := fun x => x.client n = pc) (client_keeps hpc).1 hstep hnone hset hn
      have ha : clientThread n (s.rest.client n) = some (.set a.mask f) := hset
      generalize hpc : s.rest.client n = pc at ha
      cases pc with
      | request k => exact absurd hpc (hbehind k rfl)
      | setRun k td =>
        obtain ⟨-, rfl⟩ := Action.set.inj (Option.some.inj ha)
        exact .inl ⟨k, td, hgo _ nofun (by rw [goClient_client, if_pos rfl])⟩
      | setRelease k td =>
        obtain ⟨-, rfl⟩ := Action.set.inj (Option.some.inj ha)
        exact .inr ⟨k, td, hgo _ nofun (by rw [goClient_client, if_pos rfl])⟩
      | _ => exact absurd ha nofun
  · rcases hsub w hw with hold | ⟨hl, hnone, hwalk⟩
    · rcases hwalker u hu with hu | hl
      · exact h.walker u hu w hold
      · exact hfree u hl w hold
    · rintro rfl
      rw [hwalk] at hu
      exact hu hnone

/-! ### What the interface keeps -/

/-- Steps that begin no call. -/
def GoesOn : Label Tid Happening → Prop
  | .thread _ => True
  | .event (.finish _) => True
  | _ => False

/-- Inside `claim` or `doTransfer`. -/
def ClientPc.inCall : ClientPc → Bool
  | .idle | .claimed _ => false
  | _ => true

/-- What the interface keeps: it has one owner; a transfer returns once its own descriptor has been
pushed and its own reply is stored there; a claim that waits is asked for or answered; and while a
client is inside a call somebody can go on, if only by handing over a descriptor. -/
structure Owned (s : State Tid Serial) : Prop where
  one : ∀ n m, (s.rest.client n).owns → (s.rest.client m).owns → n = m
  served : ∀ n k td, s.rest.client n = .leaving k td → ∃ before data r,
    s.rest.log = before ++ [.called n td data, .pushed td data, .finished r,
      .stored td (s.rest.memory td)] ∧ s.rest.memory td = data.stored r
  claimed : ∀ n k, s.rest.client n = .waitAck k →
    Has s.bits k.request ∨ s.rest.server = .acking k ∨ Has s.bits k.ack
  progress : ∀ n, (s.rest.client n).inCall →
    (∃ l s', GoesOn l ∧ Alone s.toCore l ∧ step serial s l = some s') ∨
      ∃ m k, s.rest.client m = .claimed k

/-- A thread whose next action is no wait, or a wait that is over, can go on. -/
theorem Coherent.exists_thread {t : Tid} (h : Coherent s)
    (hsome : (serial.action t s.rest).isSome)
    (hwait : ∀ wanted any f, serial.action t s.rest = some (.wait wanted any f) →
      satisfied s.bits wanted any) : ∃ s', step serial s (.thread t) = some s' :=
  h.calm.exists_step (.inr hsome) (h.calm.free_of_satisfied hwait)

/-- A client that does not wait, or whose wait is over, can go on. -/
theorem Coherent.exists_client {pc : ClientPc} (h : Coherent s) (hpc : s.rest.client n = pc)
    (hsome : (clientThread n pc).isSome)
    (hwait : ∀ b, ClientWaits pc b → Has s.bits b) :
    ∃ l s', GoesOn l ∧ Alone s.toCore l ∧ step serial s l = some s' := by
  have haction : serial.action (.client n) s.rest = clientThread n pc := by
    rw [← hpc]
    rfl
  obtain ⟨s', hs'⟩ := h.exists_thread (t := .client n) (haction ▸ hsome) fun wanted any f hf => by
    rw [haction] at hf
    cases pc with
    | waitAck k =>
      obtain ⟨rfl, rfl, -⟩ := Action.wait.inj (Option.some.inj hf)
      exact satisfied_mask.mpr (hwait _ (.ack k))
    | waitDone k td =>
      obtain ⟨rfl, rfl, -⟩ := Action.wait.inj (Option.some.inj hf)
      exact satisfied_mask.mpr (hwait _ (.done k td))
    | _ => exact absurd hf nofun
  exact ⟨.thread (.client n), s', True.intro, True.intro, hs'⟩

/-- The service thread can go on where it does not wait, or where its wait is over, unless a client
is leaving while it is about to answer. -/
theorem Coherent.exists_server {pc : ServerPc} (h : Coherent s) (hpc : s.rest.server = pc)
    (hleft : ∀ m j td, s.rest.client m ≠ .leaving j td) (hsome : (serviceThread pc).isSome)
    (hwait : (∃ b, ServerWaits pc b) → ∃ b, ServerWaits pc b ∧ Has s.bits b) :
    ∃ l s', GoesOn l ∧ Alone s.toCore l ∧ step serial s l = some s' := by
  have haction : serial.action .server s.rest = serviceThread pc := by
    rw [← hpc]
    rfl
  obtain ⟨s', hs'⟩ := h.exists_thread (t := .server) (haction ▸ hsome) fun wanted any f hf => by
    rw [haction] at hf
    cases pc with
    | waitRequest =>
      obtain ⟨rfl, rfl, -⟩ := Action.wait.inj (Option.some.inj hf)
      obtain ⟨b, hb, hhas⟩ := hwait ⟨_, .padRequest⟩
      refine satisfied_requests.mpr ?_
      cases hb with
      | padRequest => exact .inl hhas
      | mcRequest => exact .inr hhas
    | waitRun =>
      obtain ⟨rfl, rfl, -⟩ := Action.wait.inj (Option.some.inj hf)
      obtain ⟨b, hb, hhas⟩ := hwait ⟨_, .run⟩
      cases hb
      exact satisfied_mask.mpr hhas
    | waitFinished =>
      obtain ⟨rfl, rfl, -⟩ := Action.wait.inj (Option.some.inj hf)
      obtain ⟨b, hb, hhas⟩ := hwait ⟨_, .finished⟩
      cases hb
      exact satisfied_mask.mpr hhas
    | waitRelease =>
      obtain ⟨rfl, rfl, -⟩ := Action.wait.inj (Option.some.inj hf)
      obtain ⟨b, hb, hhas⟩ := hwait ⟨_, .release⟩
      cases hb
      exact satisfied_mask.mpr hhas
    | woken result =>
      simp only [serviceThread] at hf
      split at hf <;> exact absurd hf nofun
    | _ => exact absurd hf nofun
  exact ⟨.thread .server, s', True.intro, fun k _ => hleft, hs'⟩

/-- While a client is in a call something can go on, or a client has claimed and can itself. -/
theorem Coherent.progress (h : Coherent s) (hn : (s.rest.client n).inCall) :
    (∃ l s', GoesOn l ∧ Alone s.toCore l ∧ step serial s l = some s') ∨
      ∃ m k, s.rest.client m = .claimed k := by
  -- a client on its way out, or a driver that waits, or the one in the middle of a client's turn
  obtain ⟨serving, hh⟩ := h.handshake
  by_cases hleave : ∃ m j td, s.rest.client m = .leaving j td
  · obtain ⟨m, j, td, hm⟩ := hleave
    exact .inl (h.exists_client hm rfl fun b hb => by cases hb)
  · have hleft : ∀ m j td, s.rest.client m ≠ .leaving j td := fun m j td hm =>
      hleave ⟨m, j, td, hm⟩
    cases serving with
    | none =>
      obtain ⟨b, hu⟩ := hh.unserved rfl
      have hapart := hu.apart
      have hinner := hu.inner
      generalize hserver : s.rest.server = server at hapart
      cases hapart with
      | waitRequest =>
        left
        have hout := hh.near n fun k => (Option.some_ne_none _).symm
        generalize hpc : s.rest.client n = pc at hn hout
        cases hout with
        | idle => cases hn
        | request k => exact h.exists_client hpc rfl fun b hb => by cases hb
        | leaving k td => exact absurd hpc (hleft n k td)
        | waitAck k =>
          have hhas : Has s.bits k.request :=
            (hh.request k).mpr ⟨n, (Option.some_ne_none _).symm, hpc⟩
          refine h.exists_server hserver hleft rfl fun _ => ⟨k.request, ?_, hhas⟩
          cases k with
          | pad => exact .padRequest
          | mc => exact .mcRequest
      | @woken result k hk hrequest =>
        refine .inl (h.exists_server hserver hleft ?_ fun hw => ?_)
        · simp only [serviceThread, hk]
          rfl
        · obtain ⟨b, hb⟩ := hw
          cases hb
      | waitRelease =>
        exact .inl (h.exists_server hserver hleft rfl fun _ =>
          ⟨.release, .release, (hinner .release (by simp)).mpr rfl⟩)
      -- a turn: whoever of the two is at work goes on, unless the client holds what it claimed
      | clearRelease => exact .inl (h.exists_server hserver hleft rfl (by rintro ⟨b, ⟨⟩⟩))
    | some r =>
      obtain ⟨td, b, ack, phase, hs⟩ := hh.served r.1 r.2 rfl
      have hj := hs.joint
      have hinner := hs.inner
      have hack := hs.ack
      have hrunning := hs.running
      generalize hserver : s.rest.server = server at hj
      generalize hpc : s.rest.client r.2 = pc at hj
      cases hj with
      | claimed => exact .inr ⟨r.2, r.1, hpc⟩
      | answered =>
        exact .inl (h.exists_client hpc rfl fun b hb => by
          generalize hw : ClientPc.waitAck r.1 = pc at hb
          cases hb with
          | ack k =>
            obtain rfl := ClientPc.waitAck.inj hw
            exact hack.mpr rfl
          | done k td => cases hw)
      | done =>
        exact .inl (h.exists_client hpc rfl fun b hb => by
          cases hb
          exact (hinner .done (by simp)).mpr rfl)
      | run =>
        exact .inl (h.exists_server hserver hleft rfl fun _ =>
          ⟨.run, .run, (hinner .run (by simp)).mpr rfl⟩)
      | finished =>
        exact .inl (h.exists_server hserver hleft rfl fun _ =>
          ⟨.finished, .finished, (hinner .finished (by simp)).mpr rfl⟩)
      -- the transfer may end at any time
      | running =>
        have hrun : s.rest.running = true := hrunning.mpr rfl
        have hstep : (step serial s (.event (.finish ⟨0, 0, 0, []⟩))).isSome := by
          simp [step, serial, hrun]
        obtain ⟨s', hs'⟩ := Option.isSome_iff_exists.mp hstep
        exact .inl ⟨.event (.finish ⟨0, 0, 0, []⟩), s', True.intro, True.intro, hs'⟩
      | acking => exact .inl (h.exists_server hserver hleft rfl (by rintro ⟨b, ⟨⟩⟩))
      | clearRun => exact .inl (h.exists_server hserver hleft rfl (by rintro ⟨b, ⟨⟩⟩))
      | push => exact .inl (h.exists_server hserver hleft rfl (by rintro ⟨b, ⟨⟩⟩))
      | start => exact .inl (h.exists_server hserver hleft rfl (by rintro ⟨b, ⟨⟩⟩))
      | clearFinished => exact .inl (h.exists_server hserver hleft rfl (by rintro ⟨b, ⟨⟩⟩))
      | harvest => exact .inl (h.exists_server hserver hleft rfl (by rintro ⟨b, ⟨⟩⟩))
      | setDone => exact .inl (h.exists_server hserver hleft rfl (by rintro ⟨b, ⟨⟩⟩))
      | through => exact .inl (h.exists_client hpc rfl fun b hb => by cases hb)
      | give => exact .inl (h.exists_client hpc rfl fun b hb => by cases hb)
      | setRun => exact .inl (h.exists_client hpc rfl fun b hb => by cases hb)
      | clearDone => exact .inl (h.exists_client hpc rfl fun b hb => by cases hb)
      | setRelease => exact .inl (h.exists_client hpc rfl fun b hb => by cases hb)

/-- In a coherent state the interface has one owner. -/
theorem Coherent.owned (h : Coherent s) : Owned s := by
  obtain ⟨serving, hh⟩ := h.handshake
  refine ⟨fun n m hn hm => ?_, fun n k td hn => hh.leaving n k td hn, fun n k hn => ?_,
    fun n hn => h.progress hn⟩
  · -- an owner is served, or leaving while nobody is served
    have howner : ∀ n, (s.rest.client n).owns → (∃ k, serving = some (k, n)) ∨
        ∃ k td, s.rest.client n = .leaving k td := by
      intro n hn
      generalize hpc : s.rest.client n = pc at hn
      cases pc with
      | leaving k td => exact .inr ⟨k, td, rfl⟩
      | idle => exact absurd hn nofun
      | request k => exact absurd hn nofun
      | waitAck k => exact absurd hn nofun
      | clearAck k => exact absurd hn nofun
      | _ =>
        obtain ⟨_, _, _, _, hserving, -, -⟩ := hh.served_of_client hpc rfl ⟨nofun, nofun, nofun⟩
        exact .inl ⟨_, hserving⟩
    -- whoever is served and owns keeps the others from leaving
    have hnobody : ∀ k n, serving = some (k, n) → (s.rest.client n).owns →
        ∀ m j td, s.rest.client m ≠ .leaving j td := by
      intro k n hserving hn
      obtain ⟨td, b, ack, phase, hs⟩ := hh.served k n hserving
      refine hs.left fun j hserver => ?_
      have hj := hs.joint
      rw [hserver] at hj
      generalize s.rest.client n = pc at hj hn
      cases hj
      exact absurd hn nofun
    rcases howner n hn with ⟨k, hk⟩ | ⟨k, td, hk⟩ <;> rcases howner m hm with ⟨j, hj⟩ | ⟨j, e, hj⟩
    · exact (Prod.mk.inj (Option.some.inj (hk.symm.trans hj))).2
    · exact absurd hj (hnobody k n hk hn m j e)
    · exact absurd hk (hnobody j m hj hm n k td)
    · exact hh.leavingOne n m k td j e hk hj
  · by_cases hserving : serving = some (k, n)
    · obtain ⟨td, b, ack, phase, hs⟩ := hh.served k n hserving
      have hj := hs.joint
      rw [hn] at hj
      generalize hserver : s.rest.server = server at hj
      cases hj with
      | acking => exact .inr (.inl rfl)
      | answered => exact .inr (.inr (hs.ack.mpr rfl))
    · exact .inl ((hh.request k).mpr ⟨n, hserving, hn⟩)

/-- **One owner.** In every run of the service thread, the interrupt and any number of clients, in
any order, in which no client begins a claim while another is inside one of that kind and no claim
is answered while a client is still inside the last call of its transfer: the interface has one
owner at any time, a transfer returns after its own descriptor was pushed and its own reply stored
in it, a claim that waits is asked for or answered, and while anybody is inside a call somebody can
go on. -/
theorem serial_interface_has_one_owner {memory : ℕ → TransferData} {device : Device}
    {labels : List (Label Tid Happening)}
    (h : Steps (fun s l s' => Alone s.toCore l ∧ step serial s l = some s') (start memory device)
      labels s) : Owned s := by
  have hcoherent : Coherent s :=
    h.invariant (fun s l s' hs hstep => hs.next hstep.1 hstep.2) (coherent_start memory device)
  exact hcoherent.owned

/-- A descriptor that asks for nothing. -/
def noTransfer : TransferData where
  stat6c := 0
  portCtrl1 := fun _ => 0
  portCtrl2 := fun _ => 0
  stat70 := 0
  regdata := fun _ => 0
  stat74 := 0
  inSize := 0
  outSize := 0
  input := fun _ => 0
  output := fun _ => 0
  inDma := ⟨0, 0, 0⟩
  outDma := ⟨0, 0, 0⟩

/-- An interface nothing has been done to. -/
def freshDevice : Device := ⟨fun _ => 0, [], [], []⟩

/-! A run of a pad's client and a card's, from the claims on. -/

/-- A client that never begins a claim stays outside. -/
theorem Coherent.stays_idle (h : Coherent s) (hstep : step serial s l = some s')
    (hl : ∀ k, l ≠ .event (.claim n k)) (hn : s.rest.client n = .idle) :
    s'.rest.client n = .idle := by
  -- a client that is idle takes no step of its own
  have haction : serial.action (.client n) s.rest = none := congrArg (clientThread n) hn
  have hfree : ∀ w ∈ s.waiters, w.thread ≠ .client n := by
    rintro w hw heq
    obtain ⟨f, hf⟩ := h.calm.atWaits.wait w hw
    rw [heq, haction] at hf
    exact Option.some_ne_none _ hf.symm
  have hnot : l ≠ .thread (.client n) ∨ s.walk (.client n) ≠ none := by
    by_cases hwalk : s.walk (.client n) = none
    · refine .inl ?_
      rintro rfl
      simp only [step, hwalk, haction, Option.map_none, ite_self] at hstep
      exact Option.some_ne_none _ hstep.symm
    · exact .inr hwalk
  refine step_keeps (P := fun x => x.client n = .idle) (fun {t a x} ht ha hx bits => ?_)
    (fun {i x r} hi hr hx => ?_) hstep hfree hnot hn
  -- another thread's step leaves it
  · cases t with
    | server => exact (congrFun (serviceThread_client ha bits x) n).trans hx
    | client m =>
      exact ((clientThread_frame ha bits x).2 n fun heq => ht (congrArg Tid.client heq.symm)).trans
        hx
  -- and only a claim of its own could call it back
  · cases i with
    | claim m k =>
      have hmn : n ≠ m := fun heq => hl k (heq ▸ hi)
      simp only [serial] at hr
      split at hr
      · obtain rfl := Option.some.inj hr
        exact (Function.update_of_ne hmn _ _).trans hx
      · exact absurd hr.symm (Option.some_ne_none r)
    | transfer m td data =>
      simp only [serial] at hr
      split at hr
      · rename_i k hm
        obtain rfl := Option.some.inj hr
        have hmn : n ≠ m := by
          rintro rfl
          cases hx.symm.trans hm
        exact (Function.update_of_ne hmn _ _).trans hx
      · exact absurd hr.symm (Option.some_ne_none r)
    | finish r =>
      simp only [serial] at hr
      split at hr
      · obtain rfl := Option.some.inj hr
        exact hx
      · exact absurd hr.symm (Option.some_ne_none _)

/-- The client is returning from the call that released the interface. -/
def ClientPc.isLeaving : ClientPc → Bool
  | .leaving _ _ => true
  | _ => false

/-- `Alone`, where only the first `count` clients ever claim. -/
def aloneAmong (count : ℕ) (c : Core Serial) : Label Tid Happening → Bool
  | .event (.claim n k) =>
    n < count && (List.range count).all fun m => (c.rest.client m).claims? != some k
  | .thread .server =>
    match c.rest.server with
    | .acking _ => (List.range count).all fun m => !(c.rest.client m).isLeaving
    | _ => true
  | _ => true

/-- Looking at the first clients is enough where the others are idle. -/
theorem alone_of_aloneAmong {count : ℕ} (hidle : ∀ m ≥ count, c.rest.client m = .idle)
    (h : aloneAmong count c l = true) : Alone c l := by
  cases l with
  | event i =>
    cases i with
    | claim n k =>
      intro m hm
      by_cases hlt : m < count
      · have hall := List.all_eq_true.mp (Bool.and_eq_true_iff.mp h).2 m (List.mem_range.mpr hlt)
        exact bne_iff_ne.mp hall hm
      · rw [hidle m (Nat.le_of_not_lt hlt)] at hm
        cases hm
    | transfer n td data => exact True.intro
    | finish r => exact True.intro
  | thread t =>
    cases t with
    | client n => exact True.intro
    | server =>
      intro k hk m j td hm
      by_cases hlt : m < count
      · simp only [aloneAmong, hk] at h
        have hall := List.all_eq_true.mp h m (List.mem_range.mpr hlt)
        rw [hm] at hall
        cases hall
      · cases (hidle m (Nat.le_of_not_lt hlt)).symm.trans hm

/-- One step, if it is alone among the first `count` clients. -/
def stepAmong (count : ℕ) (s : State Tid Serial) (l : Label Tid Happening) :
    Option (State Tid Serial) :=
  if aloneAmong count s.toCore l then step serial s l else none

/-- What `stepAmong` computes is a run in which the claims do not overlap. -/
theorem steps_of_stepAmong {count : ℕ} {labels : List (Label Tid Happening)} (h : Coherent s)
    (hidle : ∀ m ≥ count, s.rest.client m = .idle)
    (hrun : runList (stepAmong count) s labels = some s') :
    Steps (fun s l s' => Alone s.toCore l ∧ step serial s l = some s') s labels s' := by
  refine .of_runList_invariant
    (I := fun s => Coherent s ∧ ∀ m ≥ count, s.rest.client m = .idle) ?_ ⟨h, hidle⟩ hrun
  rintro s l s' ⟨h, hidle⟩ hs
  obtain ⟨hamong, hstep⟩ := Option.ite_none_right_eq_some.mp hs
  have halone := alone_of_aloneAmong hidle hamong
  refine ⟨⟨halone, hstep⟩, h.next halone hstep, fun m hm => ?_⟩
  refine h.stays_idle hstep ?_ (hidle m hm)
  rintro k rfl
  have hlt : m < count := of_decide_eq_true (Bool.and_eq_true_iff.mp hamong).1
  exact absurd hlt (Nat.not_lt_of_le hm)

/-- A pad's descriptor: two bytes go out, three come back. -/
def poll : TransferData :=
  { noTransfer with inSize := 2, outSize := 3, input := fun k => if k = 0 then 0x01 else 0x42 }

/-- A pad's client and a card's both claim; the pad's transfer goes through, up to its last call. -/
def padsTurn : List (Label Tid Happening) :=
  [.event (.claim 0 .pad), .event (.claim 1 .mc), .thread .server, .thread (.client 0),
    .thread (.client 1), .thread (.client 0), .thread (.client 0), .thread (.client 1),
    .thread .server, .thread .server, .thread (.client 0), .thread .server, .thread .server,
    .event (.transfer 0 8 poll), .thread (.client 0), .thread (.client 0), .thread (.client 0),
    .thread (.client 0), .thread .server, .thread .server, .thread .server, .thread .server,
    .event (.finish ⟨0x1100, 0xF, 0, [0xFF, 0x41, 0x5A]⟩), .thread .server, .thread .server,
    .thread .server, .thread (.client 0), .thread .server, .thread .server, .thread (.client 0)]

/-- The pad's client leaves, and the card's is answered. -/
def cardsTurn : List (Label Tid Happening) :=
  [.thread (.client 0), .thread (.client 0), .thread .server, .thread .server, .thread .server,
    .thread .server, .thread (.client 1)]

/-- The pad's client has the interface to itself until it leaves, with its reply stored; the card's,
which waited all along, has it then. -/
theorem serial_interface_has_one_owner_contended :
    ∃ s t, Steps (fun s l s' => Alone s.toCore l ∧ step serial s l = some s')
        (start (fun _ => noTransfer) freshDevice) padsTurn s ∧
      Steps (fun s l s' => Alone s.toCore l ∧ step serial s l = some s')
        (start (fun _ => noTransfer) freshDevice) (padsTurn ++ cardsTurn) t ∧
      Owned s ∧ s.rest.client 0 = .leaving .pad 8 ∧ s.rest.client 1 = .waitAck .mc ∧
      s.rest.device.sent = [0x01, 0x42] ∧ (s.rest.memory 8).stat6c = 0x1100 ∧
      (s.rest.memory 8).output 2 = 0x5A ∧
      Owned t ∧ t.rest.client 0 = .idle ∧ t.rest.client 1 = .claimed .mc := by
  have hpad : (runList (stepAmong 2) (start (fun _ => noTransfer) freshDevice) padsTurn).map
      (fun s => (s.rest.client 0, s.rest.client 1, s.rest.device.sent, (s.rest.memory 8).stat6c,
        (s.rest.memory 8).output 2)) =
      some (.leaving .pad 8, .waitAck .mc, [0x01, 0x42], 0x1100, 0x5A) := by
    decide +kernel
  have hcard : (runList (stepAmong 2) (start (fun _ => noTransfer) freshDevice)
      (padsTurn ++ cardsTurn)).map (fun s => (s.rest.client 0, s.rest.client 1)) =
      some (.idle, .claimed .mc) := by
    decide +kernel
  obtain ⟨s, hs, hpad⟩ := Option.map_eq_some_iff.mp hpad
  obtain ⟨t, ht, hcard⟩ := Option.map_eq_some_iff.mp hcard
  obtain ⟨hs0, hs1, hsent, hstat, hbyte⟩ : _ ∧ _ ∧ _ ∧ _ ∧ _ := by simpa using hpad
  obtain ⟨ht0, ht1⟩ : _ ∧ _ := by simpa using hcard
  have hstart := coherent_start (fun _ => noTransfer) freshDevice
  have hs' := steps_of_stepAmong hstart (fun m _ => rfl) hs
  have ht' := steps_of_stepAmong hstart (fun m _ => rfl) ht
  exact ⟨s, t, hs', ht', serial_interface_has_one_owner hs', hs0, hs1, hsent, hstat, hbyte,
    serial_interface_has_one_owner ht', ht0, ht1⟩

/-- Two clients claim for a card before the service thread looks, and its one answer lets both
through. -/
theorem two_owners :
    ∃ labels, (runList (step serial) (start (fun _ => noTransfer) freshDevice) labels).map
      (fun s => ((s.rest.client 0), (s.rest.client 1))) = some (.claimed .mc, .claimed .mc) :=
  ⟨[.event (.claim 0 .mc), .event (.claim 1 .mc), .thread (.client 0), .thread (.client 0),
    .thread (.client 1), .thread (.client 1), .thread .server, .thread .server, .thread .server,
    .thread .server, .thread (.client 0), .thread (.client 1)], by decide +kernel⟩

end PS2Bios.Sio2man
