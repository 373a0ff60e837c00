import Netty.Spec.Channel

/-!
# The owners of a request

`src/dispatch.rs` again, with the client of `src/proto/http1/dispatch.rs`, down to who
holds a request and its callback at each moment. `Channel` leaves that to the types of
the program: there a callback is the number of its request, and here it may have lost
its sender, an envelope may be empty, and what is dropped is dropped by somebody.

* `Promise`: the one-shot channel that a caller waits on.
* `Callback`, `Envelope`: what resolves it, also when it is dropped.
* `Handoff`: the sender, the channel, the client, and what the client has in hand.
* `Handoff.step`: one step of the sender, of a caller or of the client. Between any
  two of them the others may act.
-/

namespace Netty

/-! ## Promises -/

structure TrySendError (T : Type) where
  error : Error
  message : Option T

/-- The request that comes back with an answer. -/
def carried {T U : Type} : Except (TrySendError T) U → Option T
  | .ok _ => none
  | .error e => e.message

/-- A `tokio::sync::oneshot` channel. No program reads `sends`, which counts what was
sent. -/
structure Promise (ρ : Type) where
  /-- The sender exists. -/
  tx : Bool
  /-- The receiver exists: the caller waits. -/
  rx : Bool
  value : Option ρ
  sends : ℕ

namespace Promise

variable {ρ : Type}

def new : Promise ρ := ⟨true, true, none, 0⟩

/-- `oneshot::Sender::send`. -/
def send (p : Promise ρ) (v : ρ) : Promise ρ :=
  { p with tx := false, value := if p.rx then some v else p.value, sends := p.sends + 1 }

def dropReceiver (p : Promise ρ) : Promise ρ := { p with rx := false }

/-- What the caller sees in `try_send_request`. A sender that is gone without an answer is
the panic "dispatch dropped without returning error". -/
def poll (p : Promise ρ) : Poll ρ :=
  match p.value with
  | some v => .ready v
  | none => if p.tx then .pending else .panicked

end Promise

/-! ## The parties -/

structure Callback where
  tx : Option ℕ

structure Envelope (T : Type) where
  content : Option (T × Callback)

/-- What the client has in hand between two of its steps. -/
inductive Hand (T : Type) where
  | nothing
  /-- `poll_recv` has answered. -/
  | received (req : T) (cb : Callback)
  /-- `poll_msg` has answered. The body is asked for its size, and the request goes to `write_head`. -/
  | starting (id : ℕ)
  /-- `recv_msg` has closed the channel. -/
  | closing (e : Error)
  /-- `try_recv` has answered. -/
  | returning (e : Error) (req : T) (cb : Callback)

/-- What has become of the client. -/
inductive Owner where
  | running
  /-- It is being dropped, and its callback is. -/
  | dropping
  /-- The receiver is closed, and its envelopes are being dropped. -/
  | draining
  | gone
  deriving DecidableEq, Repr

structure Handoff (T U : Type) where
  promises : ℕ → Promise (Except (TrySendError T) U)
  next : ℕ
  bufferedOnce : Bool
  senderDropped : Bool
  /-- A send between its two steps. -/
  inFlight : Option (Envelope T)
  signal : Want
  queue : List (Envelope T)
  /-- The receiver is closed. -/
  closed : Bool
  owner : Owner
  callback : Option Callback
  rxClosed : Bool
  hand : Hand T
  /-- An `expect` has failed. -/
  panicked : Bool
  /-- The requests by their numbers. The program does not read this and the next three. -/
  requests : ℕ → Option T
  /-- The requests that the channel has accepted. -/
  accepted : List ℕ
  /-- The requests that were given to `write_head`. -/
  handed : List ℕ
  /-- The request that was about to be when the client was dropped. -/
  lost : List ℕ

namespace Handoff

variable {T U : Type}

def new : Handoff T U where
  promises := fun _ => .new
  next := 0
  bufferedOnce := false
  senderDropped := false
  inFlight := none
  signal := .idle
  queue := []
  closed := false
  owner := .running
  callback := none
  rxClosed := false
  hand := .nothing
  panicked := false
  requests := fun _ => none
  accepted := []
  handed := []
  lost := []

def setPromise (x : Handoff T U) (id : ℕ) (p : Promise (Except (TrySendError T) U)) : Handoff T U :=
  { x with promises := fun j => if j = id then p else x.promises j }

def fail (x : Handoff T U) : Handoff T U := { x with panicked := true }

/-! ## Callbacks and envelopes -/

/-- `Callback::send`. -/
def send (x : Handoff T U) (cb : Callback) (v : Except (TrySendError T) U) : Handoff T U :=
  match cb.tx with
  | some id => x.setPromise id ((x.promises id).send v)
  -- "callback sender missing"
  | none => x.fail

def dispatchGone (panicking : Bool) : Error :=
  Error.newUserDispatchGone.with
    (.text (if panicking then "user code panicked" else "runtime dropped the dispatch task"))

/-- `Drop for Callback`. -/
def dropCallback (x : Handoff T U) (panicking : Bool) (cb : Callback) : Handoff T U :=
  match cb.tx with
  | some id => x.setPromise id ((x.promises id).send (.error ⟨dispatchGone panicking, none⟩))
  | none => x

/-- `Drop for Envelope`. -/
def dropEnvelope (x : Handoff T U) (env : Envelope T) : Handoff T U :=
  match env.content with
  | some (req, cb) => x.send cb (.error ⟨Error.newCanceled.with (.text "connection closed"), some req⟩)
  | none => x

/-! ## The sender and the callers -/

/-- The first step of `try_send`: `give`, and the one-shot channel. -/
def give (x : Handoff T U) (req : T) : Handoff T U :=
  if x.senderDropped || x.inFlight.isSome then x
  else if x.signal = .want || !x.bufferedOnce then
    { x.setPromise x.next .new with
      next := x.next + 1
      signal := if x.signal = .want then .idle else x.signal
      bufferedOnce := true
      inFlight := some ⟨some (req, ⟨some x.next⟩)⟩
      requests := fun j => if j = x.next then some req else x.requests j }
  else x

/-- The second step. A closed receiver refuses the envelope: the request goes back to the
caller at once, and both ends of the one-shot channel are dropped. -/
def enqueue (x : Handoff T U) : Handoff T U :=
  match x.inFlight with
  | none => x
  | some env =>
    let x := { x with inFlight := none }
    match env.content with
    -- "envelope not dropped"
    | none => if x.closed then x.fail else { x with queue := x.queue ++ [env] }
    | some (_, cb) =>
      if x.closed then
        match cb.tx with
        | some id => (x.setPromise id (x.promises id).dropReceiver).dropCallback false cb
        | none => x
      else { x with queue := x.queue ++ [env], accepted := cb.tx.toList ++ x.accepted }

def dropSender (x : Handoff T U) : Handoff T U :=
  if x.inFlight.isSome then x else { x with senderDropped := true }

/-- A caller stops to wait. -/
def cancel (x : Handoff T U) (id : ℕ) : Handoff T U := x.setPromise id (x.promises id).dropReceiver

/-! ## The client -/

/-- `Receiver::poll_recv`, called by `poll_msg` when the dispatcher wants a request. A poll
may be refused by the runtime whatever the queue holds. -/
def pollRecv (x : Handoff T U) (refused : Bool) : Handoff T U :=
  match x.owner, x.hand, x.callback with
  | .running, .nothing, none =>
    if refused then { x with signal := .want }
    else
      match x.queue with
      | env :: queue =>
        match env.content with
        | some (req, cb) => { x with queue := queue, hand := .received req cb }
        -- "envelope not dropped"
        | none => x.fail
      | [] => if x.senderDropped || x.closed then { x with rxClosed := true } else { x with signal := .want }
  | _, _, _ => x

/-- `Callback::poll_canceled` in `poll_msg`: the request of a caller that is gone is dropped
with its callback. -/
def pollCanceled (x : Handoff T U) (refused : Bool) : Handoff T U :=
  match x.hand with
  | .received _ cb =>
    match cb.tx with
    | some id =>
      if (x.promises id).rx || refused then { x with callback := some cb, hand := .starting id }
      else { x.dropCallback false cb with hand := .nothing }
    -- "callback sender missing"
    | none => x.fail
  | _ => x

/-- The request is given to `Conn::write_head`. -/
def writeHead (x : Handoff T U) : Handoff T U :=
  match x.hand with
  | .starting id => { x with handed := id :: x.handed, hand := .nothing }
  | _ => x

/-- `poll_ready`: whether the caller still waits. -/
def pollReady (x : Handoff T U) : Handoff T U :=
  match x.callback with
  | some ⟨none⟩ => x.fail
  | _ => x

/-- `recv_msg` with a response. -/
def recvOk (x : Handoff T U) (res : U) : Handoff T U :=
  match x.owner, x.hand, x.callback with
  | .running, .nothing, some cb => { x with callback := none }.send cb (.ok res)
  | _, _, _ => x

/-- `recv_msg` with an error, up to `close`. -/
def recvErr (x : Handoff T U) (e : Error) : Handoff T U :=
  match x.owner, x.hand, x.callback with
  | .running, .nothing, some cb => { x with callback := none }.send cb (.error ⟨e, none⟩)
  | .running, .nothing, none =>
    if x.rxClosed then x else { x with signal := .closed, closed := true, hand := .closing e }
  | _, _, _ => x

/-- `Receiver::try_recv`, which a refused poll leaves without an answer. -/
def tryRecv (x : Handoff T U) (refused : Bool) : Handoff T U :=
  match x.hand, x.queue with
  | .closing e, env :: queue =>
    if refused then { x with hand := .nothing }
    else
      match env.content with
      | some (req, cb) => { x with queue := queue, hand := .returning e req cb }
      | none => { x with queue := queue, hand := .nothing }
  | .closing _, [] => { x with hand := .nothing }
  | _, _ => x

/-- The request that was still queued goes back. -/
def giveBack (x : Handoff T U) : Handoff T U :=
  match x.hand with
  | .returning e req cb =>
    { x with hand := .nothing }.send cb (.error ⟨Error.newCanceled.with (.kind e.kind), some req⟩)
  | _ => x

/-! ## The client is dropped -/

def dropClient (x : Handoff T U) (panicking : Bool) : Handoff T U :=
  let x := { x with owner := .dropping }
  match x.callback with
  | some cb => { x with callback := none }.dropCallback panicking cb
  | none => x

/-- The client is dropped between two polls, or because user code has panicked: a body that is
polled, or one that is asked for its size on the way to `write_head`. -/
def drop (x : Handoff T U) (panicking : Bool) : Handoff T U :=
  match x.owner, x.hand with
  | .running, .nothing => x.dropClient panicking
  | .running, .starting id => { x with hand := .nothing, lost := id :: x.lost }.dropClient panicking
  | _, _ => x

/-- `Drop for Receiver`, and the receiver of the queue is closed. -/
def dropReceiver (x : Handoff T U) : Handoff T U :=
  if x.owner = .dropping then { x with owner := .draining, signal := .closed, closed := true } else x

/-- The receiver of the queue drops the next of its envelopes. -/
def drain (x : Handoff T U) : Handoff T U :=
  match x.owner, x.queue with
  | .draining, env :: queue => { x with queue := queue }.dropEnvelope env
  | .draining, [] => { x with owner := .gone }
  | _, _ => x

/-! ## Steps -/

inductive Action (T U : Type) where
  | give (req : T)
  | enqueue
  | dropSender
  | cancel (id : ℕ)
  | pollRecv (refused : Bool)
  | pollCanceled (refused : Bool)
  | writeHead
  | pollReady
  | recvOk (res : U)
  | recvErr (e : Error)
  | tryRecv (refused : Bool)
  | giveBack
  | drop (panicking : Bool)
  | dropReceiver
  | drain

def step (x : Handoff T U) : Action T U → Handoff T U
  | .give req => x.give req
  | .enqueue => x.enqueue
  | .dropSender => x.dropSender
  | .cancel id => x.cancel id
  | .pollRecv refused => x.pollRecv refused
  | .pollCanceled refused => x.pollCanceled refused
  | .writeHead => x.writeHead
  | .pollReady => x.pollReady
  | .recvOk res => x.recvOk res
  | .recvErr e => x.recvErr e
  | .tryRecv refused => x.tryRecv refused
  | .giveBack => x.giveBack
  | .drop panicking => x.drop panicking
  | .dropReceiver => x.dropReceiver
  | .drain => x.drain

def run (x : Handoff T U) (acts : List (Action T U)) : Handoff T U := acts.foldl step x

end Handoff

end Netty
