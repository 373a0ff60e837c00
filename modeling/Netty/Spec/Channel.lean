import Netty.Spec.Chan
import Netty.Spec.Head

/-!
# The request channel

`src/dispatch.rs`: the queue of requests, the `want` signal that bounds it, and the
callbacks over which responses come back. A send has two steps, the `give` and the
`enqueue`; between them the connection may run.

The state of both channels, of requests and of response bodies, is what the
connection shares with its users (`Shared`). Users act whenever the connection
touches it: `Shared.yield` lets them.
-/

namespace Netty

/-! ## Requests -/

/-- What a poll of a request body answers. -/
inductive BodyEv (β : Type) where
  | pending
  /-- Data, and whether `is_end_stream` holds after it. -/
  | data (chunk : β) (eos : Bool)
  | trailers (fields : HeaderMap)
  | unknown
  | err (e : ℕ)
  | done

structure RequestBody (β : Type) where
  isEndStream : Bool
  /-- The exact size, if the size hint is one. -/
  sizeHint : Option ℕ
  frames : Stream' (BodyEv β)

structure Request (β : Type) where
  head : RequestHead
  body : RequestBody β

/-- What a caller gets: a response with the number of its body, or an error with the
request if it was not sent. -/
inductive Reply (β : Type) where
  | response (head : ResponseHead) (body : Option ℕ)
  | error (e : Error) (message : Option (Request β))

def Error.with (e : Error) (c : Cause) : Error := { e with cause := some c }

/-- The one-shot channel of a callback. -/
structure OneShot (β : Type) where
  /-- The caller has dropped the response future. -/
  closed : Bool
  sent : Option (Reply β)

/-- The head of the response that is there for the caller. -/
def OneShot.head {β : Type} (o : OneShot β) : Option ResponseHead :=
  match o.sent with
  | some (.response head _) => some head
  | _ => none

/-! ## The channel -/

/-- The signal of the `want` library. -/
inductive Want where
  | idle | want | closed
  deriving DecidableEq, Repr

structure Channel (β : Type) where
  queue : List (ℕ × Request β)
  senderDropped : Bool
  receiverClosed : Bool
  signal : Want
  bufferedOnce : Bool
  /-- A send between its two steps. -/
  inFlight : Option (ℕ × Request β)
  nextId : ℕ
  calls : ℕ → OneShot β

namespace Channel

variable {β : Type}

def new : Channel β where
  queue := []
  senderDropped := false
  receiverClosed := false
  signal := .idle
  bufferedOnce := false
  inFlight := none
  nextId := 0
  calls := fun _ => ⟨false, none⟩

/-- `Giver::give` takes a `want` that is not yet consumed. -/
def give (c : Channel β) : Bool × Channel β :=
  if c.signal = .want then (true, { c with signal := .idle }) else (false, c)

/-- `SendRequest::try_send_request` and the first step of `try_send`. -/
def startSend (c : Channel β) (req : Request β) : Channel β :=
  if c.senderDropped || c.inFlight.isSome then c
  else if req.head.version = .http09 || req.head.version = .http3 then c
  else
    let (given, c) := c.give
    if given || !c.bufferedOnce then
      { c with bufferedOnce := true, inFlight := some (c.nextId, req), nextId := c.nextId + 1 }
    else c

/-- The second step. A closed receiver hands the request back. -/
def finishSend (c : Channel β) : Channel β :=
  match c.inFlight with
  | none => c
  | some m =>
    let c := { c with inFlight := none }
    if c.receiverClosed then c else { c with queue := c.queue ++ [m] }

def dropSender (c : Channel β) : Channel β :=
  if c.inFlight.isSome then c else { c with senderDropped := true }

def setCall (c : Channel β) (id : ℕ) (o : OneShot β) : Channel β :=
  { c with calls := fun j => if j = id then o else c.calls j }

/-- The caller drops the response future. -/
def cancel (c : Channel β) (id : ℕ) : Channel β := c.setCall id { c.calls id with closed := true }

/-- `Callback::send`. Nobody gets it if the caller is gone. -/
def send (c : Channel β) (id : ℕ) (r : Reply β) : Channel β :=
  if (c.calls id).closed then c else c.setCall id { c.calls id with sent := some r }

/-- The queue's own `poll_recv`. -/
def pollRecv (c : Channel β) : Poll (Option (ℕ × Request β)) × Channel β :=
  match c.queue with
  | m :: queue => (.ready (some m), { c with queue := queue })
  | [] => if c.senderDropped || c.receiverClosed then (.ready none, c) else (.pending, c)

def want (c : Channel β) : Channel β := { c with signal := .want }

def close (c : Channel β) : Channel β := { c with signal := .closed, receiverClosed := true }

def tryRecv (c : Channel β) : Option (ℕ × Request β) × Channel β :=
  match c.queue with
  | m :: queue => (some m, { c with queue := queue })
  | [] => (none, c)

/-- A dropped envelope hands its request back. -/
def dropEnvelope (c : Channel β) (m : ℕ × Request β) : Channel β :=
  c.send m.1 (.error (Error.newCanceled.with (.text "connection closed")) (some m.2))

/-- The receiver is dropped, and the envelopes in the queue with it. -/
def dropReceiver (c : Channel β) : Channel β :=
  let c := c.close
  c.queue.foldl dropEnvelope { c with queue := [] }

end Channel

/-! ## What is shared with the users -/

/-- What the users of a connection can do. -/
inductive Ext (β : Type) where
  | startSend (req : Request β)
  | finishSend
  | dropSender
  | cancel (id : ℕ)
  | pollBody (body : ℕ)
  | dropBody (body : ℕ)

structure Shared (β : Type) where
  channel : Channel β
  /-- The channels of the response bodies, by number. -/
  bodies : ℕ → Chan
  nextBody : ℕ
  /-- What the users will do, each time they can. -/
  users : Stream' (List (Ext β))

namespace Shared

variable {β : Type}

def new (users : Stream' (List (Ext β))) : Shared β :=
  ⟨Channel.new, fun _ => (Chan.new .zero false).dropReceiver.dropSender, 0, users⟩

def setBody (s : Shared β) (i : ℕ) (c : Chan) : Shared β :=
  { s with bodies := fun j => if j = i then c else s.bodies j }

def act (s : Shared β) : Ext β → Shared β
  | .startSend req => { s with channel := s.channel.startSend req }
  | .finishSend => { s with channel := s.channel.finishSend }
  | .dropSender => { s with channel := s.channel.dropSender }
  | .cancel id => { s with channel := s.channel.cancel id }
  | .pollBody i => s.setBody i (s.bodies i).poll
  | .dropBody i => s.setBody i (s.bodies i).dropReceiver

def yield (s : Shared β) : Shared β :=
  s.users.head.foldl act { s with users := s.users.tail }

end Shared

end Netty
