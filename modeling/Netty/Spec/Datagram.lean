import Netty.Map.Total
import Netty.Spec.Bytes
import Netty.Varint.Basic

/-!
# The datagram registry

`src/proto/http3/datagram.rs`: HTTP Datagrams between one QUIC connection and its
request streams. Every operation takes the lock of the registry once, so it is one
step. Wake-ups are left out.

* `State`: the registry under its lock.
* `register`, `receive`, `next`, `trySend`, `pollRecv`, `closeSend`, `closeRecv`, `close`,
  `closeAll`: its operations. A counter that would fall below zero is `none`.
* `RequestState.maxSize`, `RequestState.ready`: what a session may send now.
* `Op`, `run`: sequences of operations.
* `Driver`: the future that moves packets between QUIC and the registry, one step for
  each time it takes the lock or calls QUIC.

The decoder of received packets is a library, and a parameter here.
-/

namespace Netty.Datagram

/-- Packets queued per session and direction. -/
def packets : ℕ := 64

/-- Bytes queued per session and direction. -/
def sessionBytes : ℕ := 128 * 1024

/-- Bytes queued per connection and direction. -/
def connectionBytes : ℕ := 1024 * 1024

/-- One registered request stream. -/
structure Entry where
  semantics : Bool
  sendOpen : Bool
  recvOpen : Bool
  incoming : List Bytes
  outgoing : List Bytes
  incomingBytes : ℕ
  outgoingBytes : ℕ

def Entry.new (semantics : Bool) : Entry := ⟨semantics, true, true, [], [], 0, 0⟩

structure State where
  streams : AList fun _ : ℕ => Entry
  ready : List ℕ
  incoming : ℕ
  outgoing : ℕ
  maxSize : Option ℕ
  negotiated : Bool
  closed : Bool

inductive SendErrorKind where
  | unavailable | tooLarge | full | closed
  deriving DecidableEq, Repr

/-- `Datagram::decode`: the stream ID and the payload of a received packet. -/
abbrev Decode := Bytes → Option (ℕ × Bytes)

/-- `Datagram::encode`: the Quarter Stream ID in front of the payload. -/
def encode (id : ℕ) (payload : Bytes) : Bytes := Varint.encode (id / 4) ++ payload

/-- `RequestState::prefix_size`. -/
def prefixSize (id : ℕ) : ℕ :=
  let quarter := id / 4
  if quarter ≤ 63 then 1 else if quarter ≤ 16383 then 2 else if quarter ≤ 1073741823 then 4 else 8

/-- What became of a received packet. -/
inductive Received where
  /-- An error of the connection. -/
  | malformed
  | dropped
  /-- The request has no Datagram semantics: a stream error. -/
  | invalidated (id : ℕ)
  | queued (id : ℕ) (payload : Bytes)
  deriving DecidableEq, Repr

namespace State

def new (maxSize : Option ℕ) : State := ⟨∅, [], 0, 0, maxSize, false, false⟩

def setEntry (s : State) (id : ℕ) (e : Entry) : State := { s with streams := s.streams.insert id e }

/-! ## The registry -/

def register (s : State) (id : ℕ) (semantics : Bool) : State :=
  if s.closed then s else s.setEntry id (Entry.new semantics)

/-- `Registry::close`. -/
def closeAll (s : State) : State :=
  { s with closed := true, incoming := 0, outgoing := 0, ready := [], streams := ∅ }

/-- A received packet is queued for its session, or dropped if there is no room. The
request of an entry may be gone (`upgraded`). -/
def receive (decode : Decode) (s : State) (packet : Bytes) (upgraded : Bool) : Option (Received × State) :=
  match decode packet with
  | none => some (.malformed, s)
  | some (id, payload) => do
    let capacity ← checkedSub connectionBytes s.incoming
    match s.streams.lookup id with
    | none => some (.dropped, s)
    | some e =>
      if !e.recvOpen then some (.dropped, s)
      else if !upgraded then some (.dropped, s)
      else if !e.semantics then some (.invalidated id, s)
      else
        let size := payload.length
        if e.incoming.length = packets then some (.dropped, s)
        else do
          let room ← checkedSub sessionBytes e.incomingBytes
          if room < size || capacity < size then some (.dropped, s)
          else
            let e := { e with incoming := e.incoming ++ [payload], incomingBytes := e.incomingBytes + size }
            some (.queued id payload, { s.setEntry id e with incoming := s.incoming + size })

/-- `next`, with this ready list left. -/
def nextFrom (s : State) : List ℕ → Option (Option (ℕ × Bytes) × State)
  | [] => some (none, { s with ready := [] })
  | id :: ready =>
    match s.streams.lookup id with
    | none => s.nextFrom ready
    | some e =>
      match e.outgoing with
      | [] => s.nextFrom ready
      | packet :: outgoing => do
        let bytes ← checkedSub e.outgoingBytes packet.length
        let ready := if outgoing ≠ [] then ready ++ [id] else ready
        let total ← checkedSub s.outgoing packet.length
        let e := { e with outgoing := outgoing, outgoingBytes := bytes }
        some (some (id, packet), { s.setEntry id e with ready := ready, outgoing := total })

/-- The next packet to send, in turn between the sessions. -/
def next (s : State) : Option (Option (ℕ × Bytes) × State) := s.nextFrom s.ready

/-- The session is there and may send. -/
def sendOpen (s : State) (id : ℕ) : Bool := ((s.streams.lookup id).map Entry.sendOpen).getD false

/-! ## A session -/

/-- `try_send_buf`: the packet that was queued, or why none was. -/
def trySend (s : State) (id : ℕ) (payload : Bytes) : Option (Except SendErrorKind Bytes × State) :=
  match s.streams.lookup id with
  | none => some (.error .closed, s)
  | some e =>
    if !e.sendOpen then some (.error .closed, s)
    else
      match if s.negotiated then s.maxSize else none with
      | none => some (.error .unavailable, s)
      | some max =>
        match checkedAdd payload.length (prefixSize id) with
        | none => some (.error .tooLarge, s)
        | some size =>
          if max < size || sessionBytes < size then some (.error .tooLarge, s)
          else if e.outgoing.length = packets then some (.error .full, s)
          else do
            let room ← checkedSub sessionBytes e.outgoingBytes
            if room < size then some (.error .full, s)
            else
              let capacity ← checkedSub connectionBytes s.outgoing
              if capacity < size then some (.error .full, s)
              else
                let packet := encode id payload
                let ready := if e.outgoing = [] then s.ready ++ [id] else s.ready
                let e := { e with outgoing := e.outgoing ++ [packet], outgoingBytes := e.outgoingBytes + size }
                some (.ok packet, { s.setEntry id e with ready := ready, outgoing := s.outgoing + size })

/-- What a poll for a payload answers: none once the receive direction is closed. -/
inductive RecvPoll where
  | pending
  | ready (payload : Option Bytes)
  deriving DecidableEq, Repr

def pollRecv (s : State) (id : ℕ) : Option (RecvPoll × State) :=
  match s.streams.lookup id with
  | none => some (.ready none, s)
  | some e =>
    match e.incoming with
    | packet :: incoming => do
      let bytes ← checkedSub e.incomingBytes packet.length
      let total ← checkedSub s.incoming packet.length
      let e := { e with incoming := incoming, incomingBytes := bytes }
      some (.ready (some packet), { s.setEntry id e with incoming := total })
    | [] => some (if !e.recvOpen then .ready none else .pending, s)

def closeSend (s : State) (id : ℕ) : Option State :=
  match s.streams.lookup id with
  | none => some s
  | some e => do
    let total ← checkedSub s.outgoing e.outgoingBytes
    let e := { e with sendOpen := false, outgoingBytes := 0, outgoing := [] }
    some { s.setEntry id e with outgoing := total, ready := s.ready.filter (· ≠ id) }

def closeRecv (s : State) (id : ℕ) : Option State :=
  match s.streams.lookup id with
  | none => some s
  | some e => do
    let total ← checkedSub s.incoming e.incomingBytes
    let e := { e with recvOpen := false, incomingBytes := 0, incoming := [] }
    some { s.setEntry id e with incoming := total }

/-- `RequestState::close`: the session is removed. -/
def close (s : State) (id : ℕ) : Option State :=
  match s.streams.lookup id with
  | none => some s
  | some e => do
    let incoming ← checkedSub s.incoming e.incomingBytes
    let outgoing ← checkedSub s.outgoing e.outgoingBytes
    some { s with
      streams := s.streams.erase id
      incoming := incoming
      outgoing := outgoing
      ready := s.ready.filter (· ≠ id) }

end State

namespace RequestState

/-- `RequestState::max_size`: the largest payload that the session can send now. -/
def maxSize (s : State) (id : ℕ) : Option ℕ := do
  let e ← s.streams.lookup id
  if !s.negotiated || !e.sendOpen then none
  else
    let max ← s.maxSize
    some (max - prefixSize id)

/-- `RequestState::ready`: a payload of the largest size would be queued now, or why not. -/
def ready (s : State) (id : ℕ) : Option (Except SendErrorKind Unit) :=
  match s.streams.lookup id with
  | none => some (.error .closed)
  | some e =>
    if !e.sendOpen then some (.error .closed)
    else
      match if s.negotiated then s.maxSize else none with
      | none => some (.error .unavailable)
      | some max =>
        if max < prefixSize id then some (.error .tooLarge)
        else
          let size := min max sessionBytes
          if e.outgoing.length = packets then some (.error .full)
          else do
            let room ← checkedSub sessionBytes e.outgoingBytes
            if room < size then some (.error .full)
            else
              let capacity ← checkedSub connectionBytes s.outgoing
              if capacity < size then some (.error .full) else some (.ok ())

end RequestState

/-! ## Sequences of operations -/

inductive Op where
  | register (id : ℕ) (semantics : Bool)
  /-- The peer's setting has arrived. -/
  | negotiated (enabled : Bool)
  /-- The driver has read the limit of the transport. -/
  | limit (maxSize : Option ℕ)
  | receive (packet : Bytes) (upgraded : Bool)
  | next
  | trySend (id : ℕ) (payload : Bytes)
  | pollRecv (id : ℕ)
  | closeSend (id : ℕ)
  | closeRecv (id : ℕ)
  | close (id : ℕ)
  | closeAll
  deriving DecidableEq, Repr

inductive Out where
  | done
  | received (r : Received)
  | taken (packet : Option (ℕ × Bytes))
  | sent (id : ℕ) (res : Except SendErrorKind Bytes)
  | payload (id : ℕ) (res : State.RecvPoll)

namespace State

def step (decode : Decode) (s : State) : Op → Option (Out × State)
  | .register id semantics => some (.done, s.register id semantics)
  | .negotiated enabled => some (.done, { s with negotiated := enabled })
  | .limit maxSize => some (.done, { s with maxSize := maxSize })
  | .receive packet upgraded => (s.receive decode packet upgraded).map fun x => (.received x.1, x.2)
  | .next => s.next.map fun x => (.taken x.1, x.2)
  | .trySend id payload => (s.trySend id payload).map fun x => (.sent id x.1, x.2)
  | .pollRecv id => (s.pollRecv id).map fun x => (.payload id x.1, x.2)
  | .closeSend id => (s.closeSend id).map fun s => (.done, s)
  | .closeRecv id => (s.closeRecv id).map fun s => (.done, s)
  | .close id => (s.close id).map fun s => (.done, s)
  | .closeAll => some (.done, s.closeAll)

/-- The answers of a sequence of operations, in order. -/
def run (decode : Decode) (s : State) : List Op → Option (List Out × State)
  | [] => some ([], s)
  | op :: ops => do
    let x ← s.step decode op
    let y ← x.2.run decode ops
    some (x.1 :: y.1, y.2)

end State

/-! ## The driver

`Driver::poll` moves packets in both directions. The handles of the sessions are used
from other threads, so their calls come at any time between two steps of a poll. -/

/-- A call from outside the driver. -/
inductive Call where
  | register (id : ℕ) (semantics : Bool)
  | negotiated (enabled : Bool)
  | trySend (id : ℕ) (payload : Bytes)
  | pollRecv (id : ℕ)
  | closeSend (id : ℕ)
  | closeRecv (id : ℕ)
  | close (id : ℕ)
  | closeAll
  deriving DecidableEq, Repr

def Call.op : Call → Op
  | .register id semantics => .register id semantics
  | .negotiated enabled => .negotiated enabled
  | .trySend id payload => .trySend id payload
  | .pollRecv id => .pollRecv id
  | .closeSend id => .closeSend id
  | .closeRecv id => .closeRecv id
  | .close id => .close id
  | .closeAll => .closeAll

/-- What the QUIC receiver answers a poll. -/
inductive RecvAnswer where
  | pending
  | packet (packet : Bytes) (upgraded : Bool)
  /-- The connection has closed normally. -/
  | ended
  | lost
  deriving DecidableEq, Repr

/-- What the QUIC sender answers when a packet is passed to it. -/
inductive SendAnswer where
  | pending
  | accepted
  /-- Too large, or not available any more. -/
  | rejected
  | lost
  deriving DecidableEq, Repr

/-- The answers of QUIC at one step. -/
structure Answers where
  maxSize : Option ℕ
  recv : RecvAnswer
  send : SendAnswer

/-- Where the driver stands. `checking` and `offering` hold the pending packet. -/
inductive Pc where
  | idle
  | receiving (index : ℕ)
  | taking (index : ℕ)
  | checking (index id : ℕ) (packet : Bytes)
  | offering (index id : ℕ) (packet : Bytes)
  /-- The future has completed. -/
  | finished
  deriving DecidableEq, Repr

structure Driver where
  registry : State
  pending : Option (ℕ × Bytes)
  pc : Pc

inductive Action where
  | call (call : Call)
  /-- The driver takes its next step. Between two polls, it is polled again. -/
  | drive (answers : Answers)

inductive Event where
  | called (call : Call) (out : Out)
  | started
  | offered (id : ℕ) (packet : Bytes) (answer : SendAnswer)

/-- Rounds of each loop in one poll. -/
def rounds : ℕ := 32

namespace Driver

def new (maxSize : Option ℕ) : Driver := ⟨State.new maxSize, none, .idle⟩

/-- The next round of the receive loop, or the first of the send loop. -/
def nextReceive (index : ℕ) : Pc := if index + 1 = rounds then .taking 0 else .receiving (index + 1)

/-- The next round of the send loop, or the end of the poll. -/
def nextTake (index : ℕ) : Pc := if index + 1 = rounds then .idle else .taking (index + 1)

/-- One step of `Driver::poll`. -/
def drive (decode : Decode) (d : Driver) (answers : Answers) : Option (List Event × Driver) :=
  match d.pc with
  | .finished => some ([], d)
  | .idle =>
    some ([.started], { d with registry := { d.registry with maxSize := answers.maxSize }, pc := .receiving 0 })
  | .receiving index =>
    match answers.recv with
    | .pending => some ([], { d with pc := .taking 0 })
    | .ended => some ([], { d with pc := .finished })
    | .lost => some ([], { d with pc := .finished })
    | .packet packet upgraded => do
      let x ← d.registry.receive decode packet upgraded
      let pc := if x.1 = .malformed then .finished else nextReceive index
      some ([], { d with registry := x.2, pc := pc })
  | .taking index => do
    let d ← match d.pending with
      | some _ => some d
      | none => d.registry.next.map fun x => { d with registry := x.2, pending := x.1 }
    match d.pending with
    | none => some ([], { d with pc := .idle })
    | some (id, packet) => some ([], { d with pc := .checking index id packet })
  | .checking index id packet =>
    if d.registry.sendOpen id then some ([], { d with pc := .offering index id packet })
    else some ([], { d with pending := none, pc := nextTake index })
  | .offering index id packet =>
    match answers.send with
    | .pending => some ([.offered id packet .pending], { d with pc := .idle })
    | .lost => some ([.offered id packet .lost], { d with pc := .finished })
    | .accepted => some ([.offered id packet .accepted], { d with pending := none, pc := nextTake index })
    | .rejected => some ([.offered id packet .rejected], { d with pending := none, pc := nextTake index })

def step (decode : Decode) (d : Driver) : Action → Option (List Event × Driver)
  | .call call => (d.registry.step decode call.op).map fun x => ([.called call x.1], { d with registry := x.2 })
  | .drive answers => d.drive decode answers

/-- The events of any interleaving, in order. -/
def run (decode : Decode) (d : Driver) : List Action → Option (List Event × Driver)
  | [] => some ([], d)
  | action :: actions => do
    let x ← d.step decode action
    let y ← x.2.run decode actions
    some (x.1 ++ y.1, y.2)

end Driver

end Netty.Datagram
