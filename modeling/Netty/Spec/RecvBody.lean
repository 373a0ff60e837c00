import Netty.Spec.Pipe

/-!
# Response bodies over HTTP/3

`src/proto/http3/body.rs`: a response body reads the receiving half of its stream. The task
that still sends the request, and a Datagram that should not have come, may stop it at any
time; a lock keeps them apart, so what each does under the lock is one step.

* `RecvStream`: the receiving half. What the HTTP/3 library answers is a parameter.
* `Active`: the share of an exchange in the connection. What it does to the counters of the
  connection is handed back as a list of atomic steps, in order.
* `RecvBody`: the body and the state it shares with the sending task.
-/

namespace Netty.H3

/-! ## The receiving half -/

/-- What the library answers to `poll_recv_data`; none if it has to wait. -/
abbrev DataAnswer := Option (Except StreamError (Option Bytes))

/-- What it answers to `poll_recv_trailers`, and whether FIN was read by then. -/
structure TrailersAnswer where
  answer : Option (Except StreamError (Option HeaderMap))
  fin : Bool

/-- All that it will answer. -/
structure RecvAnswers where
  data : Stream' DataAnswer
  trailers : Stream' TrailersAnswer

/-- The library answers with trailers, or that there are none, only once FIN was read: a HEADERS
frame is held until then. -/
def RecvAnswers.FinFirst (a : RecvAnswers) : Prop :=
  ∀ n x, (a.trailers.get n).answer = some (.ok x) → (a.trailers.get n).fin = true

/-- A poll, and its answer. -/
inductive RecvEv where
  | data (x : DataAnswer)
  | trailers (x : TrailersAnswer)

structure RecvStream where
  answers : RecvAnswers
  /-- The polls so far, latest first. -/
  read : List RecvEv

namespace RecvStream

def pollRecvData (s : RecvStream) : DataAnswer × RecvStream :=
  let x := s.answers.data.head
  (x, ⟨{ s.answers with data := s.answers.data.tail }, .data x :: s.read⟩)

def pollRecvTrailers (s : RecvStream) : Option (Except StreamError (Option HeaderMap)) × RecvStream :=
  let x := s.answers.trailers.head
  (x.answer, ⟨{ s.answers with trailers := s.answers.trailers.tail }, .trailers x :: s.read⟩)

end RecvStream

/-- `RecvGuard`. Dropping it before it is finished sends STOP_SENDING with `code`. -/
structure RecvGuard where
  stream : RecvStream
  finished : Bool
  code : ℕ

def RecvGuard.fresh (answers : RecvAnswers) : RecvGuard := ⟨⟨answers, []⟩, false, 0x10c⟩

/-- `Code::H3_MESSAGE_ERROR`. -/
def messageError : ℕ := 0x10e

/-! ## The share of an exchange in the connection -/

/-- One atomic step on what the connection shares. -/
inductive Micro where
  /-- `Semaphore::add_permits(1)`. -/
  | addPermit
  | subActive
  | subReserved
  /-- Read `draining`, and wake the driver if it is set. -/
  | check
  /-- Set `draining`, and wake the driver if it was not set. -/
  | swap
  | wake
  deriving DecidableEq, Repr

structure Active where
  admitted : Bool
  permit : Bool
  deriving DecidableEq, Repr

namespace Active

def releasePermit (a : Active) : List Micro × Active :=
  if a.permit then ([.addPermit], { a with permit := false }) else ([], a)

/-- `Drop for Active`. -/
def drop (a : Active) : List Micro :=
  (if a.admitted then a.releasePermit.1 ++ [.subActive] else [.subReserved]) ++ [.check]

end Active

/-! ## The shared state -/

structure State where
  recv : Option RecvGuard
  active : Option Active
  /-- Sending still runs on the executor. -/
  pipePending : Bool
  /-- The unfinished sending half of a refused CONNECT-UDP is kept. -/
  refused : Bool
  error : Option Error
  /-- The receiving half as it was when it was dropped. -/
  dropped : Option RecvGuard

namespace State

def dropRecv (s : State) : State := { s with recv := none, dropped := s.recv.or s.dropped }

/-- Releases the exchange once the response is done and sending is complete. Completed sending
alone returns the permit. -/
def release (s : State) : List Micro × State :=
  if s.pipePending then ([], s)
  else if s.recv.isNone then ((s.active.map Active.drop).getD [], { s with refused := false, active := none })
  else if !s.refused then
    match s.active with
    | some a => (a.releasePermit.1, { s with active := some a.releasePermit.2 })
    | none => ([], s)
  else ([], s)

/-- Releases the stream. An error of the connection, if one was published, comes first. -/
def finish (published : Option Error) (s : State) (e : Error) : Error × List Micro × State :=
  (if s.active.isSome then published.getD e else e, s.dropRecv.release)

end State

/-! ## The body -/

/-- What the reader of a body gets. -/
inductive Item where
  | data (bytes : Bytes)
  | trailers (fields : HeaderMap)
  | error (e : Error)

structure RecvBody where
  state : State
  /-- The response has failed: the sending task resets its direction. -/
  abort : Bool
  /-- The part of the declared length that is still expected. -/
  remaining : Option ℕ
  dataDone : Bool
  ended : Bool

namespace RecvBody

def new (recv : RecvGuard) (remaining : Option ℕ) (active : Active) (pipePending refused : Bool) :
    List Micro × RecvBody :=
  let x := State.release ⟨some recv, some active, pipePending, refused, none, none⟩
  (x.1, ⟨x.2, false, remaining, false, false⟩)

def setRecv (b : RecvBody) (recv : RecvGuard) : RecvBody := { b with state := { b.state with recv := some recv } }

/-- What a step of the reader gives: an answer if there is one, and steps on the counters. -/
abbrev Outcome := Poll (Option Item) × List Micro × RecvBody

/-- The reader finds that the response has failed. -/
def fail (published : Option Error) (b : RecvBody) (e : Error) : Outcome :=
  match b.state.finish published e with
  | (e, ms, s) => (.ready (some (.error e)), ms, { b with state := s })

/-- The data is over, and FIN is awaited. -/
def pollTrailers (published : Option Error) (b : RecvBody) (recv : RecvGuard) : Outcome :=
  match recv.stream.pollRecvTrailers with
  | (none, stream) => (.pending, [], b.setRecv { recv with stream := stream })
  | (some (.error e), stream) => (b.setRecv { recv with stream := stream }).fail published (.newH3 (.h3 e))
  | (some (.ok trailers), stream) =>
    let b := b.setRecv { recv with stream := stream, finished := true }
    let x := b.state.dropRecv.release
    (.ready (trailers.map .trailers), x.1, { b with state := x.2 })

def short (b : RecvBody) : Bool :=
  match b.remaining with
  | some n => n ≠ 0
  | none => false

def pollData (published : Option Error) (b : RecvBody) (recv : RecvGuard) : Outcome :=
  match recv.stream.pollRecvData with
  | (none, stream) => (.pending, [], b.setRecv { recv with stream := stream })
  | (some (.error e), stream) => (b.setRecv { recv with stream := stream }).fail published (.newH3 (.h3 e))
  | (some (.ok (some data)), stream) =>
    match consumeLength b.remaining data.length with
    | .ok remaining =>
      (.ready (some (.data data)), [], { b.setRecv { recv with stream := stream } with remaining := remaining })
    | .error reason =>
      (b.setRecv { recv with stream := stream, code := messageError }).fail published (.newH3 (.text reason))
  | (some (.ok none), stream) =>
    if b.short then
      (b.setRecv { recv with stream := stream, code := messageError }).fail published
        (.newBody (.text "HTTP/3 body shorter than content-length"))
    else
      let recv := { recv with stream := stream }
      { b.setRecv recv with dataDone := true }.pollTrailers published recv

/-- `State::poll_frame`. -/
def pollState (published : Option Error) (b : RecvBody) : Outcome :=
  match b.state.recv with
  | none => (.ready (b.state.error.map .error), [], { b with state := { b.state with error := none } })
  | some recv => if b.dataDone then b.pollTrailers published recv else b.pollData published recv

/-- After an answer: whether it was the last, and that an error aborts the exchange. -/
def settle (x : Outcome) : Outcome :=
  match x with
  | (.ready item, ms, b) =>
    let abort := match item with
      | some (.error _) => true
      | _ => b.abort
    (.ready item, ms, { b with ended := b.state.recv.isNone && b.state.error.isNone, abort := abort })
  | x => x

/-- `RecvBody::poll_frame`. -/
def pollFrame (published : Option Error) (b : RecvBody) : Outcome :=
  if b.ended then (.ready none, [], b) else settle (b.pollState published)

/-- `Drop for RecvBody`. -/
def drop (b : RecvBody) : List Micro × RecvBody :=
  if b.state.recv.isSome then
    let x := b.state.dropRecv.release
    (x.1, { b with state := x.2 })
  else ([], b)

/-- The first half of `Drop for PipeGuard`: sending is over. -/
def pipeDone (b : RecvBody) : List Micro × RecvBody :=
  let x := { b.state with pipePending := false }.release
  (x.1, { b with state := x.2 })

/-- `Link::cancel`. The second half of `Drop for PipeGuard` is one, if sending has failed. -/
def cancel (published : Option Error) (b : RecvBody) (e : Error) : List Micro × RecvBody :=
  if b.state.recv.isSome then
    match b.state.finish published e with
    | (e, ms, s) => (ms, { b with state := { s with error := some e } })
  else ([], b)

end RecvBody

end Netty.H3
