import Mathlib.Logic.Function.Basic
import Netty.Spec.Pipe

/-!
# Writing to an HTTP/3 tunnel

The writing half of `H3Upgraded` in `src/proto/http3/upgrade.rs`, and the task `SendStream` that
does the writing. The application hands over one command at a time, in a channel with room for
one; flushes and the finish are acknowledged in oneshot channels. Both run at the same time, so
each is cut at its operations on what they share.

* `Tunnel`: the channel, the acknowledgments, and how far the application's call and the task have got.
* `Tunnel.call`, `Tunnel.go`: `poll_write`, `poll_flush` and `poll_shutdown`.
* `Tunnel.poll`, `Tunnel.pump`, `Tunnel.drop`: the task.
* `Tunnel.step`: one step of either.
-/

namespace Netty.H3

/-- What the application asks of the task. Acknowledgments are numbered. -/
inductive Write where
  | data (bytes : Bytes)
  | flush (ack : ℕ)
  | finish (ack : ℕ)
  deriving DecidableEq, Repr

inductive Ack where
  | waiting
  | sent (r : Except Error Unit)
  | dropped

inductive TunnelError where
  /-- `closed`: a broken pipe, "HTTP/3 tunnel closed". -/
  | closed
  | other (e : Error)
  deriving DecidableEq

inductive Call where
  | write (buf : Bytes)
  | flush
  | shutdown
  deriving DecidableEq, Repr

/-- How far a call of the application has got. -/
inductive Caller where
  | idle
  /-- About to reserve the channel. -/
  | reserve (call : Call)
  /-- It has reserved the channel. -/
  | send (call : Call)
  /-- The command is sent, and the acknowledgment is about to be polled. -/
  | ack (call : Call)
  deriving DecidableEq, Repr

/-- How far the task has got. -/
inductive Pump where
  | idle
  /-- At the head of its loop, with so many rounds to go. -/
  | top (rounds : ℕ)
  /-- The stream is ready for data. -/
  | recv (rounds : ℕ)
  | got (rounds : ℕ) (w : Write)
  /-- FIN is submitted, and is about to be acknowledged. -/
  | finished
  | ended (r : Except Error Unit)
  /-- The task is dropped: about to close the channel, to empty it, to drop `finish`. -/
  | closing
  | emptying
  | releasing
  | gone

inductive TunnelEv where
  | answered (call : Call) (r : Poll (Except TunnelError ℕ))
  /-- The finish command was sent. -/
  | finishIssued
  /-- `poll_ready` of the stream has answered. -/
  | ready
  /-- What `start_send_data` was called with, and what it has failed with. -/
  | given (bytes : Bytes)
  | refused (bytes : Bytes)
  | fin

structure Tunnel where
  slot : Option Write
  /-- The application holds the permit of the channel. -/
  reserved : Bool
  /-- The task has closed the channel. -/
  closed : Bool
  senderGone : Bool
  acks : ℕ → Ack
  /-- How many acknowledgments were made. -/
  issued : ℕ
  /-- The acknowledgment that is waited for, and whether it is that of the finish. -/
  pending : Option (Bool × ℕ)
  shutdown : Bool
  caller : Caller
  send : SendGuard
  finish : Option ℕ
  pump : Pump
  /-- What happened, latest first. No program reads it. -/
  log : List TunnelEv
  /-- What was in the channel when it was emptied. No program reads it. -/
  lost : Bytes

namespace Tunnel

def new (send : SendGuard) : Tunnel where
  slot := none
  reserved := false
  closed := false
  senderGone := false
  acks := fun _ => .waiting
  issued := 0
  pending := none
  shutdown := false
  caller := .idle
  send := send
  finish := none
  pump := .idle
  log := []
  lost := []

def record (t : Tunnel) (e : TunnelEv) : Tunnel := { t with log := e :: t.log }

/-! ## The application -/

def answer (t : Tunnel) (call : Call) (r : Poll (Except TunnelError ℕ)) : Tunnel :=
  { t with caller := .idle }.record (.answered call r)

def pollAck (t : Tunnel) : Poll (Except TunnelError Unit) × Tunnel :=
  match t.pending with
  | none => (.ready (.ok ()), t)
  | some (finish, ack) =>
    match t.acks ack with
    | .waiting => (.pending, t)
    | .dropped => (.ready (.error .closed), { t with pending := none })
    | .sent (.error e) => (.ready (.error (.other e)), { t with pending := none })
    | .sent (.ok ()) => (.ready (.ok ()), { t with pending := none, shutdown := t.shutdown || finish })

/-- Go on when nothing is waited for any more. -/
def whenAcked (t : Tunnel) (call : Call) (k : Tunnel → Tunnel) : Tunnel :=
  match t.pollAck with
  | (.ready (.ok ()), t) => k t
  | (.ready (.error e), t) => t.answer call (.ready (.error e))
  | (_, t) => t.answer call .pending

def pollWrite (t : Tunnel) (buf : Bytes) : Tunnel :=
  t.whenAcked (.write buf) fun t =>
    if t.shutdown then t.answer (.write buf) (.ready (.error .closed))
    else if buf = [] then t.answer (.write buf) (.ready (.ok 0))
    else { t with caller := .reserve (.write buf) }

/-- The second part of `poll_barrier`. -/
def barrier (t : Tunnel) (call : Call) : Tunnel :=
  if t.shutdown then t.answer call (.ready (.ok 0)) else { t with caller := .reserve call }

def pollBarrier (t : Tunnel) (call : Call) (finish : Bool) : Tunnel :=
  match t.pending with
  | some (pendingFinish, _) =>
    t.whenAcked call fun t => if !finish || pendingFinish then t.answer call (.ready (.ok 0)) else t.barrier call
  | none => t.barrier call

def call (t : Tunnel) : Call → Tunnel
  | .write buf => t.pollWrite buf
  | .flush => t.pollBarrier .flush false
  | .shutdown => t.pollBarrier .shutdown true

def pollReserve (t : Tunnel) (call : Call) : Tunnel :=
  if t.closed then t.answer call (.ready (.error .closed))
  else if t.slot.isNone && !t.reserved then { t with reserved := true, caller := .send call }
  else t.answer call .pending

/-- A command that is acknowledged is sent. -/
def sendBarrier (t : Tunnel) (call : Call) (w : ℕ → Write) (finish : Bool) : Tunnel :=
  { t with
    reserved := false
    slot := some (w t.issued)
    acks := Function.update t.acks t.issued .waiting
    issued := t.issued + 1
    pending := some (finish, t.issued)
    caller := .ack call }

def sendItem (t : Tunnel) (call : Call) : Tunnel :=
  match call with
  | .write buf =>
    let size := min buf.length chunkSize
    { t with reserved := false, slot := some (.data (buf.take size)) }.answer call (.ready (.ok size))
  | .flush => t.sendBarrier call .flush false
  | .shutdown => (t.sendBarrier call .finish true).record .finishIssued

def go (t : Tunnel) : Tunnel :=
  match t.caller with
  | .idle => t
  | .reserve call => t.pollReserve call
  | .send call => t.sendItem call
  | .ack call => t.whenAcked call fun t => t.answer call (.ready (.ok 0))

/-! ## The task -/

def setSend (t : Tunnel) (send : SendGuard) : Tunnel := { t with send := send }

def setPump (t : Tunnel) (pump : Pump) : Tunnel := { t with pump := pump }

/-- Leave with what `poll_stopped` has answered. -/
def leave (t : Tunnel) (x : Option (Except StreamError Unit)) : Tunnel :=
  match x with
  | none => t.setPump .idle
  | some (.ok ()) => t.setPump (.ended (.ok ()))
  | some (.error e) => t.setPump (.ended (.error (.newH3 (.h3 e))))

/-- A poll of the task begins. At most 32 rounds, and then it is scheduled again. -/
def poll (t : Tunnel) : Tunnel :=
  if t.send.finished then
    match t.send.pollStopped with
    | (x, send) => (t.setSend send).leave x
  else t.setPump (.top 32)

/-- A round after the finish command. -/
def submit (t : Tunnel) : Tunnel :=
  match t.send.pollStopped with
  | (some x, send) => (t.setSend send).leave (some x)
  | (none, send) =>
    match send.pollFinish with
    | (none, send) => (t.setSend send).setPump .idle
    | (some (.error e), send) => (t.setSend send).setPump (.ended (streamResult e))
    | (some (.ok ()), send) => ((t.setSend { send with finished := true }).setPump .finished).record .fin

/-- Any other round, up to the next command. -/
def await (t : Tunnel) (rounds : ℕ) : Tunnel :=
  match t.send.pollStopped with
  | (some x, send) => (t.setSend send).leave (some x)
  | (none, send) =>
    match send.pollReady with
    | (none, send) => (t.setSend send).setPump .idle
    | (some (.error e), send) => (t.setSend send).setPump (.ended (streamResult e))
    | (some (.ok ()), send) => ((t.setSend send).setPump (.recv rounds)).record .ready

def pollRecv (t : Tunnel) (rounds : ℕ) : Tunnel :=
  match t.slot with
  | some w => { t with slot := none, pump := .got rounds w }
  | none => if t.senderGone then t.setPump (.ended (.error .newCanceled)) else t.setPump .idle

/-- `oneshot::Sender::send`. -/
def acknowledge (t : Tunnel) (ack : ℕ) : Tunnel :=
  { t with acks := Function.update t.acks ack (.sent (.ok ())) }

def handle (t : Tunnel) (rounds : ℕ) : Write → Tunnel
  | .data bytes =>
    match t.send.start (.data bytes) with
    | (.ok (), send) => ((t.setSend send).setPump (.top rounds)).record (.given bytes)
    | (.error e, send) => ((t.setSend send).setPump (.ended (.error (.newH3 (.h3 e))))).record (.refused bytes)
  | .flush ack => (t.acknowledge ack).setPump (.top rounds)
  | .finish ack => { t with finish := some ack, pump := .top rounds }

/-- FIN is acknowledged, and what remains is that it is delivered. -/
def acknowledgeFinish (t : Tunnel) : Tunnel :=
  let t :=
    match t.finish with
    | some ack => { t.acknowledge ack with finish := none }
    | none => t
  match t.send.pollStopped with
  | (x, send) => (t.setSend send).leave x

/-- The sender of an acknowledgment is dropped. -/
def dropAck (t : Tunnel) (ack : ℕ) : Tunnel := { t with acks := Function.update t.acks ack .dropped }

/-- What was in the channel is dropped. -/
def drain (t : Tunnel) : Tunnel :=
  match t.slot with
  | some (.data bytes) => { t with slot := none, lost := bytes }
  | some (.flush ack) | some (.finish ack) => { t with slot := none }.dropAck ack
  | none => t

/-- The task goes on, or goes on being dropped. -/
def pumpOn (t : Tunnel) : Tunnel :=
  match t.pump with
  | .idle | .ended _ | .gone => t
  | .top 0 => t.setPump .idle
  | .top (rounds + 1) => if t.finish.isSome then t.submit else t.await rounds
  | .recv rounds => t.pollRecv rounds
  | .got rounds w => t.handle rounds w
  | .finished => t.acknowledgeFinish
  | .closing => { t with closed := true }.setPump .emptying
  | .emptying => t.drain.setPump .releasing
  | .releasing =>
    match t.finish with
    | some ack => ({ t with finish := none }.dropAck ack).setPump .gone
    | none => t.setPump .gone

/-- The task is dropped: its sending half first, then the channel, and then `finish`. -/
def drop (t : Tunnel) : Tunnel := (t.setSend t.send.drop).setPump .closing

/-! ## Runs -/

inductive Op where
  | call (c : Call)
  | go
  | dropIo
  | poll
  | pump
  | drop

def step (t : Tunnel) : Op → Tunnel
  | .call c => if t.caller = .idle ∧ t.senderGone = false then t.call c else t
  | .go => t.go
  | .dropIo => if t.caller = .idle then { t with senderGone := true } else t
  | .poll =>
    match t.pump with
    | .idle => t.poll
    | _ => t
  | .pump => t.pumpOn
  | .drop =>
    match t.pump with
    | .idle | .ended _ => t.drop
    | _ => t

def run (t : Tunnel) (ops : List Op) : Tunnel := ops.foldl step t

end Tunnel

end Netty.H3
