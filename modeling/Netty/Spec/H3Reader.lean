import Netty.Spec.RecvBody

/-!
# Reading from an HTTP/3 tunnel

The reading half of `H3Upgraded` in `src/proto/http3/upgrade.rs`, and the task that feeds it:
`UpgradeTask`, with its `Transfer` and `RecvStream`. The two share a channel of response bodies
and run at the same time, so each is cut at its operations on that channel. What the sending
half of the transfer answers is not up to this half.

* `Reader`: the channel, and how far the application's call and the task have got.
* `Reader.read`, `Reader.readOn`: `poll_read`.
* `Reader.poll`, `Reader.pumpOn`, `Reader.drop`: the task.
* `Reader.step`: one step of either.
-/

namespace Netty.H3

/-- How far the task has got. -/
inductive Feed where
  | idle
  /-- At the head of its loop, with so many rounds to go. -/
  | top (rounds : ℕ)
  /-- The reader is there. -/
  | opened (rounds : ℕ)
  /-- The channel has room. -/
  | roomy (rounds : ℕ)
  /-- The transfer has failed, and its error is about to be reported. -/
  | failed (e : Error)
  /-- The sender of the channel is about to be dropped. -/
  | closing
  | done

inductive ReadEv where
  | got (bytes : Bytes)
  /-- A read of no bytes into a buffer with room. -/
  | ended
  | failed (e : Error)
  deriving DecidableEq

structure Reader where
  chan : Chan
  /-- What was taken from the channel and not read yet. -/
  data : Bytes
  readClosed : Bool
  /-- The room in the buffer of a call that is under way. -/
  reading : Option ℕ
  recv : RecvGuard
  /-- What was received and does not fit into the channel yet. -/
  buffered : Option Bytes
  dataDone : Bool
  /-- Which halves of the transfer are done. -/
  sendDone : Bool
  recvDone : Bool
  /-- A Datagram has come that should not have come, or the application gave the session up. -/
  invalid : Bool
  aborted : Bool
  /-- The error of the connection, once it is known. -/
  published : Option Error
  feed : Feed
  /-- What happened, latest first. No program reads it. -/
  log : List ReadEv

namespace Reader

def new (answers : RecvAnswers) : Reader where
  chan := .new .chunked false
  data := []
  readClosed := false
  reading := none
  recv := .fresh answers
  buffered := none
  dataDone := false
  sendDone := false
  recvDone := false
  invalid := false
  aborted := false
  published := none
  feed := .idle
  log := []

def record (r : Reader) (e : ReadEv) : Reader := { r with log := e :: r.log }

/-! ## The application -/

/-- A call begins. A buffer without room is filled at once. -/
def read (r : Reader) (room : ℕ) : Reader := if room = 0 then r else { r with reading := some room }

/-- One round of the loop of `poll_read`. -/
def readOn (r : Reader) : Reader :=
  match r.reading with
  | none => r
  | some room =>
    if r.data ≠ [] then
      { r with data := r.data.drop room, reading := none }.record (.got (r.data.take room))
    else if r.readClosed then { r with reading := none }.record .ended
    else
      match r.chan.pollNext with
      | (.ready (some (.ok data)), chan) => { r with chan := chan, data := data }
      | (.ready (some (.error e)), chan) =>
        { r with chan := chan, readClosed := true, reading := none }.record (.failed e)
      | (.ready none, chan) => { r with chan := chan, readClosed := true, reading := none }.record .ended
      | (_, chan) => { r with chan := chan, reading := none }

/-! ## The task -/

def setFeed (r : Reader) (feed : Feed) : Reader := { r with feed := feed }

/-- The transfer has failed. The sender of the channel is handed on, if it was not dropped yet. -/
def fail (r : Reader) (e : Error) : Reader := r.setFeed (if r.recvDone then .done else .failed e)

def invalidDatagramError : Error := .newH3 (.text "HTTP Datagram on a request without Datagram semantics")

def malformedDatagramError : Error := .newH3 (.text "malformed HTTP Datagram or Capsule")

/-- Both halves were polled. -/
def rest (r : Reader) : Reader := r.setFeed (if r.sendDone && r.recvDone then .done else .idle)

/-- A poll of the task begins. `send` is what the sending half answers. -/
def poll (r : Reader) (send : Poll (Except Error Unit)) : Reader :=
  if r.invalid then r.fail invalidDatagramError
  else
    match r.sendDone, send with
    | false, .ready (.error e) => r.fail e
    | sendDone, send =>
      let r := { r with sendDone := sendDone || send.isReady }
      if r.recvDone then r.rest else r.setFeed (.top 32)

/-- HEADERS came where only DATA may come: the connection has failed. -/
def violate (r : Reader) : Reader :=
  let e := r.published.getD (.newH3 (.text "HEADERS frame after a CONNECT response"))
  { r with published := some e }.fail e

/-- The stream is at its end. Dropping the sender tells the reader. -/
def finish (r : Reader) : Reader :=
  { r with
    recv := { r.recv with finished := true }
    chan := r.chan.dropSender
    recvDone := true }.rest

def setStream (r : Reader) (stream : RecvStream) : Reader := { r with recv := { r.recv with stream := stream } }

/-- There is no more data. A HEADERS frame is held until FIN, so having to wait means that one came. -/
def pollTrailers (r : Reader) : Reader :=
  match r.recv.stream.pollRecvTrailers with
  | (some (.ok none), stream) => (r.setStream stream).finish
  | (none, stream) | (some (.ok (some _)), stream) | (some (.error (.streamError _)), stream)
  | (some (.error .headerTooBig), stream) => (r.setStream stream).violate
  | (some (.error e), stream) => (r.setStream stream).fail (.newH3 (.h3 e))

/-- Nothing is buffered. -/
def pollData (r : Reader) (rounds : ℕ) : Reader :=
  let r := { r with buffered := none }
  if r.dataDone then r.pollTrailers
  else
    match r.recv.stream.pollRecvData with
    | (none, stream) => (r.setStream stream).rest
    | (some (.error e), stream) => (r.setStream stream).fail (.newH3 (.h3 e))
    | (some (.ok (some data)), stream) =>
      { r.setStream stream with buffered := some data }.setFeed (.top rounds)
    | (some (.ok none), stream) => { r.setStream stream with dataDone := true }.pollTrailers

/-- A chunk of what is buffered goes into the channel. -/
def sendData (r : Reader) (rounds : ℕ) : Reader :=
  let data := r.buffered.getD []
  let size := min data.length chunkSize
  let r := { r with buffered := some (data.drop size) }
  match r.chan.sendData (data.take size) with
  | (.ok (), chan) => { r with chan := chan }.setFeed (.top rounds)
  | (.error _, chan) => { r with chan := chan }.fail .newCanceled

/-- The error of the connection comes first. -/
def reported (r : Reader) (e : Error) : Error := r.published.getD (if r.aborted then malformedDatagramError else e)

def pumpOn (r : Reader) : Reader :=
  match r.feed with
  | .idle | .done => r
  | .top 0 => r.rest
  | .top (rounds + 1) => if !r.chan.receiverOpen then r.fail .newCanceled else r.setFeed (.opened rounds)
  | .opened rounds =>
    if r.buffered.getD [] ≠ [] then
      match r.chan.pollReady with
      | .ready (.ok ()) => r.setFeed (.roomy rounds)
      | .ready (.error e) => r.fail e
      | _ => r.rest
    else r.pollData rounds
  | .roomy rounds => r.sendData rounds
  | .failed e => { r with chan := r.chan.sendError (r.reported e) }.setFeed .closing
  | .closing => { r with chan := r.chan.dropSender }.setFeed .done

/-- The task is dropped, and the sender of the channel with it if the task has it. -/
def drop (r : Reader) : Reader := { r with chan := r.chan.dropSender }.setFeed .done

/-! ## Runs -/

inductive Op where
  | read (room : ℕ)
  | readOn
  | dropIo
  | poll (send : Poll (Except Error Unit))
  | pump
  | drop
  | invalidate (aborted : Bool)
  | publish (e : Error)

def step (r : Reader) : Op → Reader
  | .read room => if r.reading.isNone && r.chan.receiverOpen then r.read room else r
  | .readOn => r.readOn
  | .dropIo => if r.reading.isNone then { r with chan := r.chan.dropReceiver } else r
  | .poll send =>
    match r.feed with
    | .idle => r.poll send
    | _ => r
  | .pump => r.pumpOn
  | .drop =>
    match r.feed with
    | .idle => r.drop
    | _ => r
  | .invalidate aborted => { r with invalid := true, aborted := r.aborted || aborted }
  | .publish e => { r with published := r.published.or (some e) }

def run (r : Reader) (ops : List Op) : Reader := ops.foldl step r

end Reader

end Netty.H3
