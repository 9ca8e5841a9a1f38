import Mathlib

/-!
# The stream batch of the client

`send_stream_batch` runs `Batch.send` and `Batch.recv` side by side on one connection and begins anew,
with the same `Batch` and the same generator, when the connection fails. A coroutine of a failed
attempt is not cancelled. A step of the system is what one coroutine does from one `await` to the
next, a failure, or what the wrapper does between two attempts, so that a run is a schedule.
-/

namespace OpenBmc
namespace HashServ
namespace Batch

variable {Query Reply Db : Type}

/-! ### The coroutines -/

/-- Where `Batch.send` stands. `next` is the loop that a `socket.send` is called from: the one over
the pending messages, with the index of its iterator, or the one over the generator. -/
inductive Sender (Query : Type)
  | resend (i : Nat)
  | fetch
  /-- With a message of the generator, before the lock. -/
  | enqueue (m : Query)
  /-- In `socket.send`, before and after the message is on its way. -/
  | write (m : Query) (next : Option Nat)
  | drain (next : Option Nat)
  /-- In the `finally` block, before the lock. -/
  | finish (raised : Bool)
  | stopped (raised : Bool)
deriving DecidableEq

/-- Where `Batch.recv` stands. `caught` says that the wrapper catches the exception. -/
inductive Receiver
  | wait
  | receive
  /-- With a reply stored, before the lock. -/
  | pop
  | returned
  | raised (caught : Bool)
deriving DecidableEq

/-- The two coroutines of an attempt and their connection: `wire` are the messages sent on it whose
replies are not read yet. -/
structure Attempt (Query : Type) where
  sender : Sender Query
  receiver : Receiver
  wire : List Query
  broken : Bool
deriving DecidableEq

def Attempt.fresh : Attempt Query := ⟨.resend 0, .wait, [], false⟩

/-- The attributes of the batch, and what the generator has left. -/
structure Shared (Query Reply : Type) where
  done : Bool
  pending : List Query
  results : List Reply
  sentCount : Nat
  msgs : List Query
deriving DecidableEq

/-- A step of `Batch.send`. -/
def Attempt.send (b : Shared Query Reply) (a : Attempt Query) :
    Option (Shared Query Reply × Attempt Query) :=
  match a.sender with
  | .resend i => match b.pending[i]? with
    | some m => some (b, { a with sender := .write m (some (i + 1)) })
    | none => some (b, { a with sender := .fetch })
  | .fetch => match b.msgs with
    | [] => some (b, { a with sender := .finish false })
    | m :: msgs => some ({ b with msgs }, { a with sender := .enqueue m })
  | .enqueue m =>
    some ({ b with pending := b.pending ++ [m], sentCount := b.sentCount + 1 },
      { a with sender := .write m none })
  | .write m next => some (b, { a with sender := .drain next, wire := a.wire ++ [m] })
  | .drain (some i) => some (b, { a with sender := .resend i })
  | .drain none => some (b, { a with sender := .fetch })
  | .finish raised => some ({ b with done := true }, { a with sender := .stopped raised })
  | .stopped _ => none

/-- `socket.send` raises. -/
def Attempt.sendFails (b : Shared Query Reply) (a : Attempt Query) :
    Option (Shared Query Reply × Attempt Query) :=
  match a.sender with
  | .write _ _ => some (b, { a with sender := .finish true })
  | .drain _ => some (b, { a with sender := .finish true })
  | _ => none

/-- A step of `Batch.recv`. The server answers in order; `lookup` is its reply, by what its database
holds at the time. -/
def Attempt.recv (lookup : Db → Query → Reply) (db : Db) (b : Shared Query Reply) (a : Attempt Query) :
    Option (Shared Query Reply × Attempt Query) :=
  match a.receiver with
  | .wait =>
    if b.pending ≠ [] then some (b, { a with receiver := .receive })
    else if b.done then some (b, { a with receiver := .returned })
    else none
  | .receive => match a.wire with
    | [] => none
    | q :: wire =>
      some ({ b with results := b.results ++ [lookup db q] }, { a with receiver := .pop, wire })
  | .pop => match b.pending with
    | [] => some (b, { a with receiver := .raised false })
    | _ :: pending => some ({ b with pending }, { a with receiver := .wait })
  | .returned => none
  | .raised _ => none

/-- `socket.recv` raises. -/
def Attempt.recvFails (b : Shared Query Reply) (a : Attempt Query) :
    Option (Shared Query Reply × Attempt Query) :=
  match a.receiver with
  | .receive => some (b, { a with receiver := .raised true })
  | _ => none

/-! ### The system -/

inductive Outcome (Reply : Type)
  | returned (results : List Reply)
  | valueError
  | indexError
  | connectionError
deriving DecidableEq

/-- `connecting` is from the failure of an attempt, or the call, to the start of the next attempt:
`connect` and `_set_mode`. -/
inductive Phase (Reply : Type)
  | connecting
  | running
  | exited (outcome : Outcome Reply)
deriving DecidableEq

/-- `attempts` are the newest first; `count` is the wrapper's count of the failures it caught, and
`failures` that of the connections that failed. -/
structure State (Query Reply : Type) where
  batch : Shared Query Reply
  attempts : List (Attempt Query)
  count : Nat
  failures : Nat
  phase : Phase Reply
deriving DecidableEq

/-- What makes `gather` return or raise. -/
inductive Gathered
  | finished
  | senderRaised
  | receiverRaised
deriving DecidableEq

inductive Event (Db : Type)
  | connect
  /-- A failure in `connect` or `_set_mode`, caught by the wrapper of the batch or by that of a
  request of `_set_mode`. -/
  | connectFails (outer : Bool)
  | breaks
  | gather (g : Gathered)
  /-- A step of a coroutine of the `k`-th newest attempt. -/
  | send (k : Nat)
  | sendFails (k : Nat)
  | recv (k : Nat) (db : Db)
  | recvFails (k : Nat)

namespace State

def init (queries : List Query) : State Query Reply where
  batch := ⟨false, [], [], 0, queries⟩
  attempts := []
  count := 0
  failures := 0
  phase := .connecting

/-- The `except` of `_send_wrapper`. -/
def caught (s : State Query Reply) : State Query Reply :=
  if 3 ≤ s.count then { s with phase := .exited .connectionError }
  else { s with count := s.count + 1, phase := .connecting }

/-- The end of `Batch.process`. -/
def processed (s : State Query Reply) : State Query Reply :=
  if s.batch.results.length ≠ s.batch.sentCount then { s with phase := .exited .valueError }
  else { s with phase := .exited (.returned s.batch.results) }

def gather (s : State Query Reply) (a : Attempt Query) : Gathered → Option (State Query Reply)
  | .finished => match a.sender, a.receiver with
    | .stopped false, .returned => some s.processed
    | _, _ => none
  | .senderRaised => match a.sender with
    | .stopped true => some s.caught
    | _ => none
  | .receiverRaised => match a.receiver with
    | .raised true => some s.caught
    | .raised false => some { s with phase := .exited .indexError }
    | _ => none

/-- A step of one coroutine of the `k`-th newest attempt. -/
def coroutine (s : State Query Reply) (k : Nat)
    (f : Shared Query Reply → Attempt Query → Option (Shared Query Reply × Attempt Query)) :
    Option (State Query Reply) :=
  s.attempts[k]?.bind fun a => (f s.batch a).map fun r =>
    { s with batch := r.1, attempts := s.attempts.set k r.2 }

/-- The connection of an attempt can fail, or is closed. -/
def lost (s : State Query Reply) (k : Nat) : Bool :=
  0 < k || (s.attempts[k]?.map Attempt.broken).getD false

variable (lookup : Db → Query → Reply)

def step (s : State Query Reply) (e : Event Db) : Option (State Query Reply) :=
  match s.phase, e with
  | .exited _, _ => none
  | .connecting, .connect => some { s with attempts := .fresh :: s.attempts, phase := .running }
  | .connecting, .connectFails outer =>
    if s.failures < 3 then
      if outer then some { s with failures := s.failures + 1 }.caught
      else some { s with failures := s.failures + 1 }
    else none
  | .running, .breaks => match s.attempts with
    | a :: attempts =>
      if s.failures < 3 ∧ a.broken = false then
        some { s with failures := s.failures + 1, attempts := { a with broken := true } :: attempts }
      else none
    | [] => none
  | .running, .gather g => s.attempts.head?.bind fun a => s.gather a g
  | _, .send k => s.coroutine k Attempt.send
  | _, .sendFails k => if s.lost k then s.coroutine k Attempt.sendFails else none
  | _, .recv k db => s.coroutine k (Attempt.recv lookup db)
  | _, .recvFails k => if s.lost k then s.coroutine k Attempt.recvFails else none
  | _, _ => none

def run (s : State Query Reply) (es : List (Event Db)) : Option (State Query Reply) :=
  es.foldlM (step lookup) s

end State

/-! ### The steps that go wrong -/

/-- The sender has taken its first step on the connection. -/
def Sender.begun : Sender Query → Bool
  | .resend 0 => false
  | _ => true

/-- The message that is neither in the generator nor pending. -/
def Sender.held : Sender Query → List Query
  | .enqueue m => [m]
  | _ => []

/-- How many replies are stored whose messages are still pending. -/
def Receiver.stored : Receiver → Nat
  | .pop => 1
  | _ => 0

/-- The index of the next pending message that is sent again. -/
def Sender.nextResend : Sender Query → Option Nat
  | .resend i => some i
  | .write _ next => next
  | .drain next => next
  | _ => none

/-- A message was taken or a reply stored, and the pending messages do not show it yet. -/
def Attempt.midway (a : Attempt Query) : Prop := a.sender.held ≠ [] ∨ a.receiver = .pop

/-- No message is left to be sent or answered. -/
def State.exhausted (s : State Query Reply) (pending : List Query) : Prop :=
  s.batch.msgs = [] ∧ pending = [] ∧ ∀ a ∈ s.attempts, a.sender.held = []

/-- The step does not run into one of the places where the batch of a failed attempt misleads the
next one. A coroutine that is not cancelled touches the batch only until a newer attempt begins to
send, and is not midway then; the receiver does not return, because of a `done` that is left from an
earlier attempt, while there are messages; no message is removed while the loop that sends the pending
ones again has some ahead; and an older receiver does not remove the last message that the newest
waits for. -/
def State.Clean (s : State Query Reply) : Event Db → Prop
  | .send k => ∀ a ∈ s.attempts[k]?,
      (a.sender = .resend 0 → ∀ b ∈ s.attempts.drop (k + 1), ¬ b.midway) ∧
      (a.sender = .fetch → s.batch.msgs ≠ [] → ∀ b ∈ s.attempts.take k, b.sender.begun = false)
  | .recv k _ => ∀ a ∈ s.attempts[k]?,
      (a.receiver = .wait → s.batch.pending = [] → k = 0 → s.phase = .running →
        s.exhausted s.batch.pending) ∧
      (a.receiver = .receive → ∀ b ∈ s.attempts.take k, b.sender.begun = false) ∧
      (a.receiver = .pop → (∀ i ∈ a.sender.nextResend, s.batch.pending.length ≤ i) ∧
        (s.phase = .running → ∀ b ∈ s.attempts.head?, b.receiver = .receive →
          ¬ s.exhausted s.batch.pending.tail))
  | _ => True

section Decide
variable [DecidableEq Query] [DecidableEq Reply]

instance (s : State Query Reply) (pending : List Query) : Decidable (s.exhausted pending) :=
  inferInstanceAs (Decidable (_ ∧ _ ∧ _))

instance (a : Attempt Query) : Decidable a.midway := inferInstanceAs (Decidable (_ ∨ _))

instance (s : State Query Reply) : (e : Event Db) → Decidable (s.Clean e)
  | .send k => Option.decidableForallMem (o := s.attempts[k]?)
  | .recv k _ => Option.decidableForallMem (o := s.attempts[k]?)
  | .connect => .isTrue trivial
  | .connectFails _ => .isTrue trivial
  | .breaks => .isTrue trivial
  | .gather _ => .isTrue trivial
  | .sendFails _ => .isTrue trivial
  | .recvFails _ => .isTrue trivial

end Decide

/-- The runs of the batch in which no step goes wrong. -/
inductive CleanRun (lookup : Db → Query → Reply) (s₀ : State Query Reply) : State Query Reply → Prop
  | start : CleanRun lookup s₀ s₀
  | step {s s' : State Query Reply} {e : Event Db} : CleanRun lookup s₀ s → s.Clean e →
      s.step lookup e = some s' → CleanRun lookup s₀ s'

/-! ### A run that goes wrong -/

namespace Sample

/-- A server that answers with the query. -/
def echo (_ : Unit) (q : Nat) : Nat := q

def send (n : Nat) : List (Event Unit) := List.replicate n (.send 0)

def recv (n : Nat) : List (Event Unit) := List.replicate n (.recv 0 ())

/-- The first message cannot be sent; on the new connection its reply comes before the sender goes on,
and `done` is still set. -/
def schedule : List (Event Unit) :=
  .connect :: send 3 ++ [.breaks, .sendFails 0, .send 0, .gather .senderRaised, .connect] ++
    send 2 ++ recv 4 ++ send 8 ++ [.gather .finished]

theorem second_reply_lost :
    ((State.init [1, 2]).run echo schedule).map State.phase = some (.exited .valueError) := by
  decide

end Sample

end Batch
end HashServ
end OpenBmc
