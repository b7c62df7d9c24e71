import PS2Bios.Library.StableInsert
import PS2Bios.Threadman.SemaphoreSpec

/-!
# What THREADMAN's mailboxes are for

A mailbox is a semaphore whose units are messages: `Boxes` has the semaphores of the library for
the counts, the waiters and what threads are told, and besides them the messages that are queued,
where each thread that waits wants its message, and the memory that messages are received into. A
message that is sent goes to the first waiter, or is queued: behind the others, or by its urgency
byte. What has been sent to a box and what has been received from it is kept in `sent` and
`received`, which no step asks for.

The calls about event flags write through pointers too, so what they do to the memory is left open.
-/

namespace PS2Bios.Threadman

open Counting

/-- The mailboxes by id, their waiters by record. -/
structure Boxes where
  base : Counting.Semas ℕ UInt32 ℤ
  queue : UInt32 → List ℕ
  byUrgency : UInt32 → Bool
  byPriority : UInt32 → Bool
  address : ℕ → ℕ
  out : ℕ → ℕ
  sent : UInt32 → List ℕ
  received : UInt32 → List ℕ

namespace Boxes

/-- There are none. -/
def start (out : ℕ → ℕ) : Boxes where
  base := .start
  queue _ := []
  byUrgency _ := false
  byPriority _ := false
  address _ := 0
  out := out
  sent _ := []
  received _ := []

variable (urgency : ℕ → ℕ) (β : Boxes)

/-- A message's place among those that are queued. -/
def place (id : UInt32) (message : ℕ) : List ℕ :=
  if β.byUrgency id then insertBy urgency message (β.queue id) else β.queue id ++ [message]

/-- A message is received by a thread that waits, which may not want to know it. -/
def handed (t : ℕ) (message : ℕ) : ℕ → ℕ :=
  if β.address t = 0 then β.out else Function.update β.out (β.address t) message

/-- A message is sent to a box with `n` messages. -/
def send (id : UInt32) (message : ℕ) (n : ℤ) : Boxes :=
  let sent := Function.update β.sent id (β.sent id ++ [message])
  match β.base.waiting id with
  | [] => { β with base := β.base.signal (· + 1) id n
                   queue := Function.update β.queue id (β.place urgency id message)
                   sent := sent }
  | t :: _ => { β with base := β.base.signal (· + 1) id n
                       out := β.handed t message
                       sent := sent
                       received := Function.update β.received id (β.received id ++ [message]) }

/-- The first message of a box with `n` messages is written to `address`. -/
def take (id : UInt32) (address : ℕ) (n : ℤ) (message : ℕ) (messages : List ℕ) : Boxes :=
  { β with base := β.base.setCount id (some (n - 1))
           queue := Function.update β.queue id messages
           out := Function.update β.out address message
           received := Function.update β.received id (β.received id ++ [message]) }

/-- A new box is empty. -/
def made (attr id : UInt32) : Boxes :=
  { β with base := β.base.setCount id (some 0)
           queue := Function.update β.queue id []
           byUrgency := Function.update β.byUrgency id (attr &&& kMbxMessagePriority != 0)
           byPriority := Function.update β.byPriority id (attr &&& kMbxThreadPriority != 0)
           sent := Function.update β.sent id []
           received := Function.update β.received id [] }

/-- Creating a mailbox fails and changes nothing, or makes an empty one under an id nobody had. -/
def created (attr : UInt32) (answer : ℤ) (β' : Boxes) : Prop :=
  (answer < 0 ∧ β' = β) ∨
    ∃ id : UInt32, β.base.count id = none ∧ answer = id.toNat ∧ β' = β.made attr id

/-- The messages of a box that is deleted are given up. -/
def deleted (id : UInt32) (answer : ℤ) (β' : Boxes) : Prop :=
  match β.base.count id with
  | none => answer = kUnknownMbxid ∧ β' = β
  | some _ => answer = kOk ∧
      β' = { β with base := β.base.delete id kWaitDelete
                    queue := Function.update β.queue id [] }

/-- Sending to an id nobody has is refused; otherwise the message is handed on or kept. -/
def sends (id : UInt32) (message : ℕ) (answer : ℤ) (β' : Boxes) : Prop :=
  match β.base.count id with
  | none => answer = kUnknownMbxid ∧ β' = β
  | some n => answer = kOk ∧ β' = β.send urgency id message n

/-- A poll takes a message if there is one. -/
def polled (received : ℕ) (id : UInt32) (answer : ℤ) (β' : Boxes) : Prop :=
  match β.base.count id, β.queue id with
  | none, _ => answer = kUnknownMbxid ∧ β' = β
  | some _, [] => answer = kMbxNoMsg ∧ β' = β
  | some n, message :: messages => answer = kOk ∧ β' = β.take id received n message messages

/-- What a call that does not wait does to the mailboxes, and what it may answer. The slot of a
thread's id is the thread, unless the id is stale. -/
def direct (interrupt : Bool) (c : Service) (answer : ℤ) (β' : Boxes) : Prop :=
  match c with
  | .createMbx attr => β.created attr answer β'
  | .deleteMbx id =>
    if interrupt then answer = kIllegalContext ∧ β' = β else β.deleted id answer β'
  | .sendMbx iForm id message =>
    if interrupt ≠ iForm then answer = kIllegalContext ∧ β' = β
    else β.sends urgency id message answer β'
  | .pollMbx received id => β.polled received id answer β'
  | .receiveMbx _ _ => answer = kIllegalContext ∧ β' = β
  | .releaseWaitThread id => β' = β ∨ ∃ base', β.base.cancels (slotOf id) kReleaseWait base' ∧
      β' = { β with base := base' }
  | .terminateThread id =>
    β' = β ∨ β' = { β with base := (β.base.leave (slotOf id)).setReply (slotOf id) none }
  | .setEventFlag _ _ | .waitEventFlag _ _ _ _ _ => ∃ out', β' = { β with out := out' }
  | _ => β' = β

/-- What the caller of a call about mailboxes is told. -/
def told (answer : ℤ) : Service → Option (Counting.Reply UInt32 ℤ)
  | .createMbx _ | .deleteMbx _ | .sendMbx _ _ _ | .pollMbx _ _ => some (.own answer)
  | _ => none

/-- A wait takes a message if there is one, and else its caller waits. -/
def waited (received : ℕ) (id : UInt32) (caller : ℕ) (β' : Boxes) : Prop :=
  match β.base.count id, β.queue id with
  | none, _ => β' = { β with base := β.base.setReply caller (some (.own kUnknownMbxid)) }
  | some n, message :: messages =>
    β' = { β.take id received n message messages with
      base := (β.take id received n message messages).base.setReply caller (some (.own kOk)) }
  | some _, [] => ∃ l₁ l₂, β.base.waiting id = l₁ ++ l₂ ∧ (β.byPriority id = false → l₂ = []) ∧
      β' = { β with base := β.base.enlist (fun _ k => l₁ ++ k :: l₂) id caller
                    address := Function.update β.address caller received }

/-- What a thread's call does to the mailboxes. -/
def call (caller : ℕ) (c : Service) (β' : Boxes) : Prop :=
  match c with
  | .receiveMbx received id => β.waited received id caller β'
  | _ => ∃ answer β₁, β.direct urgency false c answer β₁ ∧
      β' = { β₁ with base := β₁.base.setReply caller (told answer c) }

end Boxes

/-- The observations mailboxes allow, when messages are as urgent as `urgency` says. -/
def BoxStep (urgency : ℕ → ℕ) (β : Boxes) (o : Observation) (β' : Boxes) : Prop :=
  match o with
  | .call caller c => β.call urgency caller c β'
  | .goOn => ∃ out', β' = { β with out := out' }
  | .handler c v => β.direct urgency true c v β'
  | .run k v => ∃ base', β.base.runs (fun _ => kOk) k v base' ∧ β' = { β with base := base' }

end PS2Bios.Threadman
