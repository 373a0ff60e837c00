import Netty.Spec.Conn

/-!
# The dispatcher

`src/proto/http1/dispatch.rs`: the task that drives a client connection. It takes
requests off the channel, writes them, reads responses and hands them to the
callbacks.

* `pollMsg`, `recvResponse`, `pollReady`: the client's side of an exchange.
* `pollRead`, `pollWrite`, `pollLoop`: one turn of the task.
* `pollCatch`: one poll of the task.
* `World`: the task with its users; `World.step` is one step of either.
-/

namespace Netty

/-- `Dispatcher<Client>`, with what it shares with its users. -/
structure Dispatcher (β : Type) [LawfulBuf β] where
  conn : Conn β
  callback : Option ℕ
  rxClosed : Bool
  bodyTx : Option ℕ
  bodyRx : Option (RequestBody β)
  isClosing : Bool
  isAborted : Bool
  shared : Shared β

inductive Dispatched where
  | shutdown
  | upgrade
  deriving DecidableEq, Repr

namespace Dispatcher

variable {β : Type} [LawfulBuf β]

def new (conn : Conn β) (users : Stream' (List (Ext β))) : Dispatcher β where
  conn := conn
  callback := none
  rxClosed := false
  bodyTx := none
  bodyRx := none
  isClosing := false
  isAborted := false
  shared := Shared.new users

def user (d : Dispatcher β) (act : Ext β) : Dispatcher β := { d with shared := d.shared.act act }

/-- The users act before the task touches what it shares with them. -/
def yield (d : Dispatcher β) : Dispatcher β := { d with shared := d.shared.yield }

def setChannel (d : Dispatcher β) (c : Channel β) : Dispatcher β := { d with shared := { d.shared with channel := c } }

def setBody (d : Dispatcher β) (i : ℕ) (c : Chan) : Dispatcher β := { d with shared := d.shared.setBody i c }

def body (d : Dispatcher β) (i : ℕ) : Chan := d.shared.bodies i

def setConn (d : Dispatcher β) (c : Conn β) : Dispatcher β := { d with conn := c }

def note (d : Dispatcher β) (ev : Ev) : Dispatcher β := d.setConn (d.conn.note ev)

/-! ## The client -/

/-- The request the channel has is taken, unless its caller is gone. -/
def takeRequest (d : Dispatcher β) (m : ℕ × Request β) : Poll (Option (Request β)) × Dispatcher β :=
  if (d.shared.channel.calls m.1).closed then (.ready none, d)
  else (.ready (some m.2), { d with callback := some m.1 }.note (.took m.1))

def pollMsg (d : Dispatcher β) : Poll (Option (Request β)) × Dispatcher β :=
  let d := d.yield
  match d.shared.channel.pollRecv with
  | (.ready (some m), c) => (d.setChannel c).yield.takeRequest m
  | (.ready none, c) => (.ready none, { d.setChannel c with rxClosed := true })
  | (_, c) =>
    -- the queue was empty; a request may come before the signal
    let d := (d.setChannel c).yield
    let early := d.shared.channel.queue ≠ [] || d.shared.channel.inFlight.isSome
    (.pending, (d.setChannel d.shared.channel.want).note (.wanted early))

/-- `Callback::send`. A response that nobody waits for is dropped with its body. -/
def reply (d : Dispatcher β) (id : ℕ) (r : Reply β) : Dispatcher β :=
  let d := d.yield
  let d' := d.setChannel (d.shared.channel.send id r)
  match r, (d.shared.channel.calls id).closed with
  | .response _ (some i), true => d'.setBody i (d'.body i).dropReceiver
  | _, _ => d'

/-- `recv_msg` with a response. -/
def recvResponse (d : Dispatcher β) (head : ResponseHead) (body : Option ℕ) : Except Error Unit × Dispatcher β :=
  match d.callback with
  | some id =>
    let d := { d with callback := none }.reply id (.response head body)
    let call := d.shared.channel.calls id
    (.ok (), d.note (.delivered id call.closed call.head))
  | none =>
    (.error .newUnexpectedMessage,
      match body with
      | some i => d.setBody i (d.body i).dropReceiver
      | none => d)

/-- `recv_msg` with an error: the one who waits gets it, or the next one in the queue. -/
def recvError (d : Dispatcher β) (e : Error) : Except Error Unit × Dispatcher β :=
  match d.callback with
  | some id => (.ok (), { d with callback := none }.reply id (.error e none))
  | none =>
    if d.rxClosed then (.error e, d)
    else
      let d := d.yield
      let d := (d.setChannel d.shared.channel.close).yield
      match d.shared.channel.tryRecv with
      | (some m, c) =>
        (.ok (), (d.setChannel c).reply m.1 (.error (Error.newCanceled.with (.kind e.kind)) (some m.2)))
      | (none, c) => (.error e, d.setChannel c)

/-- Somebody waits for the response. -/
def pollReady (d : Dispatcher β) : Bool × Dispatcher β :=
  match d.callback with
  | some id =>
    let d := d.yield
    (!(d.shared.channel.calls id).closed, d)
  | none => (false, d)

def shouldPoll (d : Dispatcher β) : Bool := d.callback.isNone

/-! ## Reading -/

def close (d : Dispatcher β) : Dispatcher β :=
  { d with isClosing := true }.setConn d.conn.closeRead.closeWrite

def dropBody (d : Dispatcher β) (i : ℕ) : Dispatcher β :=
  let d := d.yield
  d.setBody i (d.body i).dropSender

def sendBodyError (d : Dispatcher β) (i : ℕ) (e : Error) : Dispatcher β :=
  let d := d.yield
  d.setBody i ((d.body i).sendError e)

/-- `Incoming::h1`, and its sender kept; one that was kept before is dropped. -/
def openBody (d : Dispatcher β) (len : DecodedLength) (wanter : Bool) : ℕ × Dispatcher β :=
  let d := match d.bodyTx with
    | some i => d.dropBody i
    | none => d
  let i := d.shared.nextBody
  let d := d.setBody i (Chan.new len wanter)
  (i, { d with bodyTx := some i, shared := { d.shared with nextBody := i + 1 } })

def bodyFor (d : Dispatcher β) (len : DecodedLength) (wanter : Bool) : Option ℕ × Dispatcher β :=
  if len = .zero then (none, d)
  else
    match d.openBody len wanter with
    | (i, d) => (some i, d)

/-- A response head was read: hand it on with its body. -/
def respond (d : Dispatcher β) (head : ResponseHead) (len : DecodedLength) (wants : Wants) :
    Except Error Unit × Dispatcher β :=
  let (body, d) := d.bodyFor len wants.expect
  let d := if wants.upgrade then d.setConn d.conn.onUpgrade else d
  d.recvResponse head body

def pollReadHead (hp : Httparse) (fuel : ℕ) (d : Dispatcher β) : Poll (Except Error Unit) × Dispatcher β :=
  match d.pollReady with
  | (false, d) => (.ready (.ok ()), { d with isAborted := true }.close)
  | (true, d) =>
    whenReady (within (d.conn.pollReadHead hp fuel) d.setConn) fun res d =>
      match res with
      | some (.ok (head, len, wants)) =>
        match d.respond head len wants with
        | (res, d) => (.ready res, d)
      | some (.error e) =>
        match d.recvError e with
        | (.ok (), d) => (.ready (.ok ()), d.close)
        | (.error e, d) => (.ready (.error e), d)
      | none => (.ready (.ok ()), if d.conn.isWriteClosed then d.close else d)

/-- The receiver of a body was dropped: stop reading, and drop the sender. -/
def abandonBody (d : Dispatcher β) (i : ℕ) : Dispatcher β :=
  (if d.conn.canReadBody then d.setConn d.conn.closeRead else d).dropBody i

/-- The sender of a body has handed something over: keep it, or stop. -/
def afterSend {ε : Type} (i : ℕ) (x : Except ε Unit × Chan) (d : Dispatcher β) : Dispatcher β :=
  match x.1 with
  | .ok () => { d.setBody i x.2 with bodyTx := some i }
  | .error _ => (d.setBody i x.2).abandonBody i

/-- The receiver is ready for more of body `i`. -/
def readBody (hp : Httparse) (fuel i : ℕ) (d : Dispatcher β) : Ctl (Except Error Unit) (Dispatcher β) :=
  match within (d.conn.pollReadBody hp fuel i) d.setConn with
  | (.ready (some (.ok (.data chunk))), d) =>
    let d := d.yield
    .again (d.afterSend i ((d.body i).sendData chunk))
  | (.ready (some (.ok (.trailers fields))), d) =>
    let d := d.yield
    .again (d.afterSend i ((d.body i).sendTrailers fields))
  | (.ready none, d) => .again (d.dropBody i)
  | (.ready (some (.error e)), d) => .again ((d.sendBodyError i (.newBody (.io e))).dropBody i)
  | (.pending, d) => .ret (.pending, { d with bodyTx := some i })
  | (.busy, d) => .ret (.busy, { d with bodyTx := some i })
  | (.panicked, d) => .ret (.panicked, d.dropBody i)

/-- The sender of body `i` is in hand. -/
def bodyRound (hp : Httparse) (fuel i : ℕ) (d : Dispatcher β) : Ctl (Except Error Unit) (Dispatcher β) :=
  let d := { d with bodyTx := none }
  if d.conn.canReadBody then
    let d := d.yield
    match (d.body i).pollReady with
    | .ready (.ok ()) => d.readBody hp fuel i
    | .ready (.error _) =>
      Ctl.whenReady (within (d.conn.pollDrainOrCloseRead hp fuel i) d.setConn) fun _ d => .again (d.dropBody i)
    | _ => .ret (.pending, { d with bodyTx := some i })
  else .again (d.dropBody i)

/-- One round of `poll_read`. -/
def readRound (hp : Httparse) (fuel : ℕ) (d : Dispatcher β) : Ctl (Except Error Unit) (Dispatcher β) :=
  if d.isClosing then .ret (.ready (.ok ()), d)
  else if d.conn.canReadHead then Ctl.whenOk (d.pollReadHead hp fuel) fun _ d => .again d
  else
    match d.bodyTx with
    | some i => d.bodyRound hp fuel i
    | none => .ret (within d.conn.pollReadKeepAlive d.setConn)

def pollRead (hp : Httparse) (fuel : ℕ) (d : Dispatcher β) : Poll (Except Error Unit) × Dispatcher β :=
  loop (readRound hp fuel) fuel d

/-! ## Writing -/

def pollFlush (d : Dispatcher β) : Poll (Except Error Unit) × Dispatcher β :=
  match within d.conn.pollFlush d.setConn with
  | (.ready (.ok ()), d) => (.ready (.ok ()), d)
  | (.ready (.error e), d) => (.ready (.error (.newBodyWrite (.io e))), d)
  | (.pending, d) => (.pending, d)
  | (.busy, d) => (.busy, d)
  | (.panicked, d) => (.panicked, d)

/-- The head of a request, and its body to be written. -/
def startRequest (d : Dispatcher β) (req : Request β) : Dispatcher β :=
  if req.body.isEndStream then { d with bodyRx := none }.setConn (d.conn.writeHead req.head none)
  else
    let len := match req.body.sizeHint with
      | some n => BodyLength.known n
      | none => .unknown
    { d with bodyRx := some req.body }.setConn (d.conn.writeHead req.head (some len))

def endBody (d : Dispatcher β) : Ctl (Except Error Unit) (Dispatcher β) :=
  match d.conn.endBody with
  | (.ok (), c) => .again (d.setConn c)
  | (.error e, c) => .ret (.ready (.error e), d.setConn c)

def writeFrame (d : Dispatcher β) (body : RequestBody β) : Ctl (Except Error Unit) (Dispatcher β) :=
  let kept := { d with bodyRx := some { body with frames := body.frames.tail } }
  let cleared := { d with bodyRx := none }
  match body.frames.head with
  | .pending => .ret (.pending, kept)
  | .err e => .ret (.ready (.error (.newUserBody e)), cleared)
  | .data chunk eos =>
    if eos then
      if Buf.remaining chunk = 0 then cleared.endBody
      else .again (cleared.setConn (d.conn.writeBodyAndEnd chunk))
    else if Buf.remaining chunk = 0 then .again kept
    else .again (kept.setConn (d.conn.writeBody chunk))
  | .trailers fields => .again (cleared.setConn (d.conn.writeTrailers fields))
  | .unknown => .again kept
  | .done => cleared.endBody

/-- One round of `poll_write`. -/
def writeRound (d : Dispatcher β) : Ctl (Except Error Unit) (Dispatcher β) :=
  if d.isClosing then .ret (.ready (.ok ()), d)
  else if d.bodyRx.isNone && d.conn.canWriteHead && d.shouldPoll then
    Ctl.whenReady d.pollMsg fun msg d =>
      match msg with
      | some req => .again (d.startRequest req)
      | none => .ret (.ready (.ok ()), d.close)
  else if !d.conn.canBufferBody then Ctl.whenOk d.pollFlush fun _ d => .again d
  else
    match d.bodyRx with
    | some body => if d.conn.canWriteBody then d.writeFrame body else .again { d with bodyRx := none }
    | none => if d.conn.canWriteBody then d.endBody else .ret (.pending, d)

def pollWrite (fuel : ℕ) (d : Dispatcher β) : Poll (Except Error Unit) × Dispatcher β :=
  loop writeRound fuel d

/-! ## The task -/

def canWriteAgain (d : Dispatcher β) : Bool := !d.isClosing && d.bodyRx.isSome && d.conn.canWriteBody

def isDone (d : Dispatcher β) : Bool :=
  if d.isClosing then true
  else
    let readDone := d.conn.isReadClosed
    if readDone then true
    else readDone && (d.conn.isWriteClosed || (!d.shouldPoll && d.bodyRx.isNone))

/-- The task goes on only to write: whether a second write gets anywhere. A write that
does not may still have buffered the end of a message. -/
def writeAgain (fuel : ℕ) (d : Dispatcher β) : Ctl (Except Error Unit) (Dispatcher β) :=
  Ctl.unlessErr (d.pollWrite fuel) fun ready d =>
    if ready then .again d
    else if d.conn.hasBufferedWrite then Ctl.unlessErr d.pollFlush fun _ d => .ret (.ready (.ok ()), d)
    else .ret (.ready (.ok ()), d)

/-- After the flush: sleep, or go round again. -/
def afterFlush (fuel : ℕ) (ready : Bool) (d : Dispatcher β) : Ctl (Except Error Unit) (Dispatcher β) :=
  let wantsWriteAgain := d.canWriteAgain && ready
  let wantsReadAgain := d.conn.wantsReadAgain.1
  let d := d.setConn d.conn.wantsReadAgain.2
  if !(wantsWriteAgain || wantsReadAgain) then .ret (.ready (.ok ()), d)
  else if !wantsReadAgain && wantsWriteAgain then d.writeAgain fuel
  else .again d

/-- One round of `poll_loop`. -/
def pollRound (hp : Httparse) (fuel : ℕ) (d : Dispatcher β) : Ctl (Except Error Unit) (Dispatcher β) :=
  Ctl.unlessErr (d.pollRead hp fuel) fun _ d =>
    Ctl.unlessErr (d.pollWrite fuel) fun writeReady d =>
      Ctl.unlessErr d.pollFlush fun flushReady d => d.afterFlush fuel (writeReady || flushReady)

/-- `poll_loop`, with this many rounds left. -/
def pollLoop (hp : Httparse) (fuel : ℕ) : ℕ → Dispatcher β → Poll (Except Error Unit) × Dispatcher β
  | 0, d => (.pending, d.note .woke)
  | n + 1, d =>
    match d.pollRound hp fuel with
    | .again d => pollLoop hp fuel n d
    | .ret x => x

/-- The error that was kept for the end. -/
def finish (d : Dispatcher β) (r : Dispatched) : Poll (Except Error Dispatched) × Dispatcher β :=
  match d.conn.takeError with
  | (.ok (), c) => (.ready (.ok r), d.setConn c)
  | (.error e, c) => (.ready (.error e), d.setConn c)

def pollShutdown (d : Dispatcher β) : Poll (Except Error Unit) × Dispatcher β :=
  match within d.conn.pollShutdown d.setConn with
  | (.ready (.ok ()), d) => (.ready (.ok ()), d)
  | (.ready (.error e), d) => (.ready (.error (.newShutdown e)), d)
  | (.pending, d) => (.pending, d)
  | (.busy, d) => (.busy, d)
  | (.panicked, d) => (.panicked, d)

def pollInner (hp : Httparse) (fuel : ℕ) (shouldShutdown : Bool) (d : Dispatcher β) :
    Poll (Except Error Dispatched) × Dispatcher β :=
  whenOk (pollLoop hp fuel 16 d) fun _ d =>
    if d.isDone then
      let upgrade := d.conn.pendingUpgrade.1
      let d := d.setConn d.conn.pendingUpgrade.2
      if upgrade then d.finish .upgrade
      else if shouldShutdown && !d.isAborted && !d.conn.canWriteBody then
        whenOk d.pollShutdown fun _ d => d.finish .shutdown
      else d.finish .shutdown
    else (.pending, d)

/-- A streaming body is told of a failure. -/
def failBody (d : Dispatcher β) (e : Error) : Dispatcher β :=
  match d.bodyTx with
  | some i => ({ d with bodyTx := none }.sendBodyError i e).dropBody i
  | none => d

def pollCatch (hp : Httparse) (fuel : ℕ) (shouldShutdown : Bool) (d : Dispatcher β) :
    Poll (Except Error Dispatched) × Dispatcher β :=
  match d.pollInner hp fuel shouldShutdown with
  | (.ready (.error e), d) =>
    match (d.failBody (.newBody (.text "connection error"))).recvError e with
    | (.ok (), d) => (.ready (.ok .shutdown), d)
    | (.error e, d) => (.ready (.error e), d)
  | x => x

/-- The dispatcher is dropped: a caller that waits learns of it, the queue is handed
back, and a body that is still being received ends in an error. -/
def drop (d : Dispatcher β) : Dispatcher β :=
  let d := match d.callback with
    | some id => { d with callback := none }.reply id
        (.error (Error.newUserDispatchGone.with (.text "runtime dropped the dispatch task")) none)
    | none => d
  let d := d.yield
  let d := d.setChannel d.shared.channel.dropReceiver
  d.failBody .newIncomplete

end Dispatcher

/-! ## Runs -/

/-- What has become of the task. -/
inductive Phase where
  | running
  /-- It has answered. -/
  | finished
  /-- It is still in a poll after the rounds that were allowed. -/
  | stuck
  | dropped
  deriving DecidableEq, Repr

structure World (β : Type) [LawfulBuf β] where
  task : Dispatcher β
  phase : Phase

inductive Step (β : Type) where
  /-- The task is polled, with the given number of rounds for each of its loops. -/
  | poll (fuel : ℕ) (shouldShutdown : Bool)
  | drop
  | user (act : Ext β)

namespace World

variable {β : Type} [LawfulBuf β]

def new (opts : Http1Options) (io : Transport) (room : Stream' ℕ) (users : Stream' (List (Ext β))) : World β :=
  ⟨Dispatcher.new ((Conn.new io room).configure opts) users, .running⟩

def afterPoll (x : Poll (Except Error Dispatched) × Dispatcher β) : World β :=
  match x.1 with
  | .ready _ => ⟨x.2, .finished⟩
  | .pending => ⟨x.2, .running⟩
  | .busy => ⟨x.2, .stuck⟩
  -- the panic unwinds through the dispatcher
  | .panicked => ⟨x.2.drop, .dropped⟩

def step (hp : Httparse) (w : World β) : Step β → World β
  | .poll fuel shouldShutdown =>
    if w.phase = .running then afterPoll (w.task.pollCatch hp fuel shouldShutdown) else w
  | .drop => if w.phase = .running ∨ w.phase = .finished then ⟨w.task.drop, .dropped⟩ else w
  | .user act => { w with task := w.task.user act }

def run (hp : Httparse) (w : World β) (steps : List (Step β)) : World β := steps.foldl (step hp) w

/-- What has happened on the connection, latest first. -/
def log (w : World β) : List Ev := w.task.conn.state.log

end World

end Netty
