import Netty.Spec.Pipe

/-!
# Writing to an HTTP/2 tunnel

The writing half of `H2Upgraded` in `src/proto/http2/upgrade.rs`, and `UpgradedSendStreamTask`,
which does the writing. They share a channel with room for two chunks, a oneshot channel for the
error of the task, and one for a reset that somebody asks for. Both run at the same time, so each
is cut at its operations on what they share.

* `Oneshot`: one value, and whether its sender is there.
* `Tunnel`: what is shared, and how far the application's call and the task have got.
* `Tunnel.call`, `Tunnel.go`: `poll_write`, `poll_flush` and `poll_shutdown`.
* `Tunnel.poll`, `Tunnel.pumpOn`, `Tunnel.drop`: the task.
* `Tunnel.step`: one step of either.
-/

namespace Netty.H2

/-- A oneshot channel. A value that was taken, and a sender that was dropped, look the same. -/
inductive Oneshot (α : Type) where
  | waiting
  | sent (a : α)
  | gone

inductive TunnelError where
  | brokenPipe
  | other (e : Error)
  deriving DecidableEq

inductive Call where
  | write (buf : Bytes)
  | flush
  | shutdown
  deriving DecidableEq, Repr

/-- How far a call of the application has got. -/
inductive Caller where
  | idle
  /-- The channel has room. -/
  | send (buf : Bytes)
  /-- The channel is closed, and the error of the task is about to be looked at. -/
  | check (call : Call)
  deriving DecidableEq, Repr

/-- How far the task has got. -/
inductive Pump where
  | idle
  /-- At the head of its loop. -/
  | top
  /-- A chunk waits for capacity. -/
  | capacity
  | recv
  | failed (e : Error)
  | finished
  /-- The task is dropped: about to close and empty the channel, to drop the other ends. -/
  | closing
  | releasing
  | gone

inductive TunnelEv where
  | answered (call : Call) (r : Poll (Except TunnelError ℕ))
  /-- What `poll_reset` has answered. -/
  | polled (answer : ResetEv)
  /-- What the stream was given. -/
  | given (g : Given)
  deriving DecidableEq

structure Tunnel where
  queue : List Bytes
  /-- The sender has to wait for room. -/
  parked : Bool
  opened : Bool
  error : Oneshot Error
  reset : Oneshot ℕ
  caller : Caller
  ioGone : Bool
  tx : SendStream
  /-- A chunk that waits for capacity. -/
  buffered : Option Bytes
  /-- Whether the task has the sender of the error, and the receiver of a reset. -/
  errorTx : Bool
  resetRx : Bool
  /-- END_STREAM went out. -/
  ended : Bool
  pump : Pump
  /-- What happened, latest first. No program reads it. -/
  log : List TunnelEv

namespace Tunnel

/-- `pair`. A stream that nobody can ask to be reset has no channel for it. -/
def new (tx : SendStream) (resettable : Bool) : Tunnel where
  queue := []
  parked := false
  opened := true
  error := .waiting
  reset := .waiting
  caller := .idle
  ioGone := false
  tx := tx
  buffered := none
  errorTx := true
  resetRx := resettable
  ended := false
  pump := .idle
  log := []

def record (t : Tunnel) (e : TunnelEv) : Tunnel := { t with log := e :: t.log }

/-! ## The application -/

def answer (t : Tunnel) (call : Call) (r : Poll (Except TunnelError ℕ)) : Tunnel :=
  { t with caller := .idle }.record (.answered call r)

/-- `Sender::poll_ready`. -/
def pollReady (t : Tunnel) : Poll (Except Unit Unit) :=
  if !t.opened then .ready (.error ()) else if t.parked then .pending else .ready (.ok ())

def call (t : Tunnel) : Call → Tunnel
  | .write buf =>
    if buf = [] then t.answer (.write buf) (.ready (.ok 0))
    else
      match t.pollReady with
      | .ready (.ok ()) => { t with caller := .send buf }
      | .ready (.error ()) => { t with caller := .check (.write buf) }
      | _ => t.answer (.write buf) .pending
  | .flush =>
    match t.pollReady with
    | .ready (.ok ()) => t.answer .flush (.ready (.ok 0))
    | .ready (.error ()) => { t with caller := .check .flush }
    | _ => t.answer .flush .pending
  | .shutdown => { t with opened := false, caller := .check .shutdown }

/-- `Sender::start_send`: the channel has one place more than its buffer, and who takes it has to wait. -/
def startSend (t : Tunnel) (buf : Bytes) : Tunnel :=
  if !t.opened then { t with caller := .check (.write buf) }
  else
    { t with queue := t.queue ++ [buf], parked := 1 < t.queue.length + 1 }.answer (.write buf) (.ready (.ok buf.length))

/-- What it means that the task is gone without an error. -/
def withoutError : Call → Except TunnelError ℕ
  | .write _ => .error .brokenPipe
  | .flush | .shutdown => .ok 0

def checkError (t : Tunnel) (call : Call) : Tunnel :=
  match t.error with
  | .sent e => { t with error := .gone }.answer call (.ready (.error (.other e)))
  | .gone => t.answer call (.ready (withoutError call))
  | .waiting => t.answer call .pending

def go (t : Tunnel) : Tunnel :=
  match t.caller with
  | .idle => t
  | .send buf => t.startSend buf
  | .check call => t.checkError call

/-! ## The task -/

def setTx (t : Tunnel) (tx : SendStream) : Tunnel := { t with tx := tx }

def setPump (t : Tunnel) (pump : Pump) : Tunnel := { t with pump := pump }

/-- A poll of the task begins: a reset that was asked for comes first. -/
def poll (t : Tunnel) : Tunnel :=
  if t.resetRx then
    match t.reset with
    | .sent reason =>
      (({ t with reset := .gone }.setTx (t.tx.sendReset reason)).setPump
        (.failed (.newBodyWrite (.h2 (some reason))))).record (.given (.reset reason))
    | .gone => { t with resetRx := false }.setPump .top
    | .waiting => t.setPump .top
  else t.setPump .top

/-- The head of the loop. After END_STREAM only a reset can follow. -/
def top (t : Tunnel) : Tunnel :=
  let (answer, tx) := t.tx.pollReset
  let t := (t.setTx tx).record (.polled answer)
  match answer with
  | .reset reason => t.setPump (.failed (.newBodyWrite (.h2 (some reason))))
  | .err reason => t.setPump (.failed (.newBodyWrite (.h2 reason)))
  | .pending =>
    t.setPump
      (if t.ended then if t.resetRx then .idle else .finished
      else if t.buffered.isSome then .capacity else .recv)

/-- The chunk that waited has capacity. -/
def sendBuffered (t : Tunnel) : Tunnel :=
  let chunk := t.buffered.getD []
  let t := { t with buffered := none }
  match t.tx.sendData chunk false with
  | (.ok (), tx) => ((t.setTx tx).setPump .top).record (.given (.data chunk false))
  | (.error e, tx) => (t.setTx tx).setPump (.failed e)

/-- One round of `while capacity() == 0`. -/
def awaitCapacity (t : Tunnel) : Tunnel :=
  match t.tx.capacityRound with
  | .again tx => t.setTx tx
  | .ret (.ready (.ok ()), tx) => (t.setTx tx).sendBuffered
  | .ret (.ready (.error e), tx) => (t.setTx tx).setPump (.failed e)
  | .ret (_, tx) => (t.setTx tx).setPump .idle

/-- The channel is closed and empty. -/
def sendEnd (t : Tunnel) : Tunnel :=
  match t.tx.sendData [] true with
  | (.ok (), tx) =>
    ({ t.setTx tx with
      ended := true
      error := if t.errorTx then .gone else t.error
      errorTx := false }.setPump .top).record (.given (.data [] true))
  | (.error e, tx) => (t.setTx tx).setPump (.failed e)

/-- `Receiver::poll_next`. -/
def pollNext (t : Tunnel) : Tunnel :=
  match t.queue with
  | chunk :: queue => { t with queue := queue, parked := false, buffered := some chunk }.setPump .top
  | [] => if t.opened then t.setPump .idle else t.sendEnd

/-- The task goes on, or goes on being dropped. -/
def pumpOn (t : Tunnel) : Tunnel :=
  match t.pump with
  | .idle | .finished | .gone => t
  | .top => t.top
  | .capacity => t.awaitCapacity
  | .recv => t.pollNext
  | .failed e =>
    { t with error := if t.errorTx then .sent e else t.error, errorTx := false }.setPump .finished
  | .closing => { t with opened := false, queue := [], parked := false }.setPump .releasing
  | .releasing =>
    { t with error := if t.errorTx then .gone else t.error, errorTx := false, resetRx := false }.setPump .gone

def drop (t : Tunnel) : Tunnel := t.setPump .closing

/-! ## Runs -/

inductive Op where
  | call (c : Call)
  | go
  /-- The application drops its half: first the channel, and then what a reset goes through. -/
  | dropIo
  | dropSlot
  /-- Somebody asks for a reset. -/
  | reset (reason : ℕ)
  | poll
  | pump
  | drop

def step (t : Tunnel) : Op → Tunnel
  | .call c => if t.caller = .idle ∧ t.ioGone = false then t.call c else t
  | .go => t.go
  | .dropIo => if t.caller = .idle ∧ t.ioGone = false then { t with ioGone := true, opened := false } else t
  | .dropSlot =>
    match t.ioGone, t.reset with
    | true, .waiting => { t with reset := .gone }
    | _, _ => t
  | .reset reason =>
    match t.reset with
    | .waiting => { t with reset := .sent reason }
    | _ => t
  | .poll =>
    match t.pump with
    | .idle => t.poll
    | _ => t
  | .pump => t.pumpOn
  | .drop =>
    match t.pump with
    | .idle | .finished => t.drop
    | _ => t

def run (t : Tunnel) (ops : List Op) : Tunnel := ops.foldl step t

end Tunnel

end Netty.H2
