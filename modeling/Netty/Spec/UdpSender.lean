import Netty.Spec.Capsule
import Netty.Spec.Datagram
import Netty.Spec.Io

/-!
# The sending half of a CONNECT-UDP tunnel

`UdpSender` of `src/proxy/masque/tunnel.rs`: UDP payloads go out as HTTP Datagrams where
those are available, and as capsules on the request stream otherwise. The request stream
is a `Transport`; what the datagram half answers and whether the HTTP/2 stream was reset
is up to the caller of each operation. Wakers are left out.

* `pollWriteBuf`: writes and flushes what is buffered.
* `trySend`, `pollSendReady`, `pollFlush`, `pollClose`: the operations.
* `SenderOp`, `UdpSender.run`: any sequence of them, with a record of what happened.
* `DualSender`: the sender together with the registry that answers for its datagram half.
-/

namespace Netty

open Capsule

/-- Capsule bytes that are buffered before sends report `Full`. -/
def writeLimit : ℕ := 64 * 1024

inductive SendError where
  | full | tooLarge | closed
  deriving DecidableEq, Repr

/-- What happened, for the record. -/
inductive SenderEv where
  /-- A capsule was appended; the length of the buffer with it. -/
  | appended (payload : Bytes) (buffered : ℕ)
  /-- The request stream has accepted these bytes. -/
  | wrote (bytes : Bytes)
  | flushed
  /-- A write, a flush or the shutdown has failed. -/
  | failed (e : IoError)
  /-- `poll_close` was called. -/
  | closing
  /-- `poll_shutdown` of the request stream was called. -/
  | shutdown
  /-- `poll_flush` or `poll_close` has returned this. -/
  | completed (res : Except IoError Unit)

structure UdpSender where
  control : Transport
  writeBuf : Bytes
  unflushed : Bool
  closing : Bool
  writeClosed : Bool
  writeError : Option IoError
  /-- The record, latest first. -/
  log : List SenderEv

namespace UdpSender

def new (control : Transport) : UdpSender := ⟨control, [], false, false, false, none, []⟩

def writeZero : IoError := ⟨.writeZero, .none⟩

/-- One round of the loop of `poll_write_buf`. -/
def writeRound (s : UdpSender) : Ctl (Except IoError Unit) UdpSender :=
  if s.writeBuf = [] then
    if !s.unflushed then .ret (.ready (.ok ()), s)
    else
      Ctl.whenReady (within s.control.pollFlush fun io => { s with control := io }) fun flushed s =>
        match flushed with
        | .ok () => .ret (.ready (.ok ()), { s with unflushed := false, log := .flushed :: s.log })
        | .error e => .ret (.ready (.error e), { s with unflushed := false })
  else
    Ctl.whenOk (within (s.control.pollWrite s.writeBuf) fun io => { s with control := io }) fun n s =>
      if n = 0 then .ret (.ready (.error writeZero), s)
      else .again { s with
        writeBuf := s.writeBuf.drop n
        unflushed := true
        log := .wrote (s.writeBuf.take n) :: s.log }

/-- `poll_write_buf`. Each round but the last writes a byte at least. -/
def pollWriteBuf (s : UdpSender) : Poll Unit × UdpSender :=
  if s.writeClosed then (.ready (), s)
  else
    whenReady (loop writeRound (s.writeBuf.length + 1) s) fun result s =>
      match result with
      | .ok () => (.ready (), s)
      | .error e =>
        (.ready (), { s with writeError := some e, writeClosed := true, writeBuf := [], log := .failed e :: s.log })

/-- What the datagram half says to a payload, if there is one, and whether the HTTP/2
stream is reset. -/
structure SendInput where
  reset : Bool
  native : Option (Except Datagram.SendErrorKind Unit)

/-- The end of `try_send`, without datagrams. -/
def sendCapsule (s : UdpSender) (payload : Bytes) : Except SendError Unit × UdpSender :=
  if s.writeClosed then (.error .closed, s)
  else if writeLimit ≤ s.writeBuf.length then (.error .full, s)
  else
    let buf := s.writeBuf ++ encodeDatagram payload
    let s := (pollWriteBuf { s with writeBuf := buf, log := .appended payload buf.length :: s.log }).2
    if s.writeClosed then (.error .closed, s) else (.ok (), s)

def trySend (s : UdpSender) (payload : Bytes) (input : SendInput) : Except SendError Unit × UdpSender :=
  if s.closing || input.reset then (.error .closed, s)
  else if maxUdpPayload < payload.length then (.error .tooLarge, s)
  else
    match input.native with
    | some (.ok ()) => (.ok (), s)
    | some (.error .full) => (.error .full, s)
    | some (.error .tooLarge) => (.error .tooLarge, s)
    | some (.error .closed) => (.error .closed, s)
    -- datagrams were not negotiated: capsules
    | some (.error .unavailable) | none => s.sendCapsule payload

/-- What the datagram half says when it is polled for room, and if its limit is zero. -/
structure ReadyInput where
  reset : Bool
  native : Option (Poll (Except Datagram.SendErrorKind Unit))
  noRoom : Bool

/-- The end of `poll_send_ready`, without datagrams. -/
def capsuleReady (s : UdpSender) : Poll (Except SendError Unit) × UdpSender :=
  let s := (pollWriteBuf s).2
  if s.writeClosed then (.ready (.error .closed), s)
  else if s.writeBuf.length < writeLimit then (.ready (.ok ()), s)
  else (.pending, s)

def pollSendReady (s : UdpSender) (input : ReadyInput) : Poll (Except SendError Unit) × UdpSender :=
  if s.closing || input.reset then (.ready (.error .closed), s)
  else
    match input.native with
    | none => s.capsuleReady
    | some p =>
      whenReady (p, s) fun res s =>
        match res with
        | .ok () => if input.noRoom then (.ready (.error .tooLarge), s) else (.ready (.ok ()), s)
        | .error .unavailable => s.capsuleReady
        | .error .tooLarge => (.ready (.error .tooLarge), s)
        | .error _ => (.ready (.error .closed), s)

/-- The stored error is returned, once. -/
def complete (s : UdpSender) : Poll (Except IoError Unit) × UdpSender :=
  let res : Except IoError Unit := match s.writeError with
    | some e => .error e
    | none => .ok ()
  (.ready res, { s with writeError := none })

def pollFlush (s : UdpSender) : Poll (Except IoError Unit) × UdpSender :=
  whenReady (pollWriteBuf s) fun _ s => s.complete

def pollClose (s : UdpSender) : Poll (Except IoError Unit) × UdpSender :=
  let s := { s with closing := true }
  whenReady (pollWriteBuf s) fun _ s =>
    if s.writeClosed then s.complete
    else
      let shutdown := s.control.pollShutdown
      let s := { s with control := shutdown.2, log := .shutdown :: s.log }
      whenReady (shutdown.1, s) fun res s =>
        match res with
        | .ok () => { s with writeClosed := true, writeError := none }.complete
        | .error e => { s with writeClosed := true, writeError := some e, log := .failed e :: s.log }.complete

end UdpSender

/-! ## Sequences of operations -/

inductive SenderOp where
  | trySend (payload : Bytes) (input : UdpSender.SendInput)
  | pollSendReady (input : UdpSender.ReadyInput)
  | pollFlush
  | pollClose
  /-- From the receiving side of the tunnel. -/
  | pollWriteBuf

namespace UdpSender

/-- A flush or a close has returned. -/
def returned (x : Poll (Except IoError Unit) × UdpSender) : UdpSender :=
  match x with
  | (.ready res, s) => { s with log := .completed res :: s.log }
  | (_, s) => s

def step (s : UdpSender) : SenderOp → UdpSender
  | .trySend payload input => (s.trySend payload input).2
  | .pollSendReady input => (s.pollSendReady input).2
  | .pollFlush => returned s.pollFlush
  | .pollClose => returned { s with log := .closing :: s.log }.pollClose
  | .pollWriteBuf => s.pollWriteBuf.2

def run (s : UdpSender) (ops : List SenderOp) : UdpSender := ops.foldl step s

end UdpSender

/-! ## With the datagram half

The registry of the connection answers for the datagram half. A readiness that finds no
room waits, so `poll_ready` is `ready` with `Pending` for `Full`. -/

/-- The datagram half: the registry of the connection, and the stream of the tunnel. -/
structure Native where
  registry : Datagram.State
  id : ℕ

namespace Native

def isClosed (n : Native) : Option Bool :=
  (Datagram.RequestState.ready n.registry n.id).map fun r => r matches .error .closed

def maxDatagramSize (n : Native) : Option ℕ := Datagram.RequestState.maxSize n.registry n.id

/-- `Sender::poll_ready`, in one state of the registry. -/
def pollReady (n : Native) : Option (Poll (Except Datagram.SendErrorKind Unit)) :=
  (Datagram.RequestState.ready n.registry n.id).map fun r => match r with
    | .error .full => .pending
    | r => .ready r

/-- `Sender::try_send_prefixed`, with the Context ID of UDP payloads in front. -/
def trySendPrefixed (n : Native) (payload : Bytes) : Option (Except Datagram.SendErrorKind Unit × Native) :=
  (n.registry.trySend n.id (0 :: payload)).map fun x => (x.1.map fun _ => (), { n with registry := x.2 })

end Native

structure DualSender where
  sender : UdpSender
  native : Option Native
  /-- The HTTP/2 stream is being reset. -/
  http2Reset : Bool

namespace DualSender

/-- The limit of HTTP Datagrams, if they are usable. -/
def nativeLimit (t : DualSender) : Option ℕ := do
  let n ← t.native
  let max ← n.maxDatagramSize
  some (min (max - 1) maxUdpPayload)

def maxPayloadSize (t : DualSender) : Option ℕ := do
  if t.sender.closing || t.http2Reset then some 0
  else
    let closed ← match t.native with
      | none => some false
      | some n => n.isClosed
    if closed then some 0
    else
      match t.nativeLimit with
      | some limit => some limit
      | none => if t.sender.writeClosed then some 0 else some maxUdpPayload

/-- The registry is asked once the sender is found open, and the payload not too long. -/
def trySend (t : DualSender) (payload : Bytes) : Option (Except SendError Unit × DualSender) := do
  let (native, answer) ← match t.native with
    | none => some (none, none)
    | some n =>
      if t.sender.closing || t.http2Reset || maxUdpPayload < payload.length then some (some n, none)
      else (n.trySendPrefixed payload).map fun x => (some x.2, some x.1)
  let x := t.sender.trySend payload ⟨t.http2Reset, answer⟩
  some (x.1, { t with sender := x.2, native := native })

def pollSendReady (t : DualSender) : Option (Poll (Except SendError Unit) × DualSender) := do
  let (answer, noRoom) ← match t.native with
    | none => some (none, false)
    | some n =>
      if t.sender.closing || t.http2Reset then some (none, false)
      else n.pollReady.map fun p => (some p, n.maxDatagramSize == some 0)
  let x := t.sender.pollSendReady ⟨t.http2Reset, answer, noRoom⟩
  some (x.1, { t with sender := x.2 })

end DualSender

end Netty
