import Netty.Spec.Multiplexed
import Netty.Spec.Pipe

/-!
# Extended CONNECT waits for the SETTINGS of the peer

`PeerSettings`, `ConnectGate` and `ClientTask::poll` of `src/proto/http2/client.rs`. The connection task publishes
the SETTINGS, and the dispatcher parks requests until they are known. Both run at the same time, so the dispatcher
is cut at its looks at what others write. The queue of the gate belongs to it alone.

* `Request`: a request, and what is sent of it.
* `PeerSettings`: what is shared.
* `System`: what is shared, the dispatcher with its gate, the channel of requests, and the callers.
* `System.go`: the dispatcher goes on.
* `System.step`: one step of anyone.
-/

namespace Netty.H2

/-! ## Requests -/

structure Request where
  /-- The number of the request, in the order of arrival. -/
  id : ℕ
  method : Method
  /-- The `:protocol` of an extended CONNECT. -/
  protocol : Option Bytes
  headers : HeaderMap
  /-- What the body says about its length. -/
  sizeHint : Option ℕ
  /-- `OnPreserveHeader`. -/
  preserve : Option (HeaderMap → HeaderMap)

namespace Request

/-- The fields with a length that the body knows. -/
def withLength (r : Request) (headers : HeaderMap) : HeaderMap :=
  match r.sizeHint with
  | some len =>
    if len ≠ 0 || H3.methodHasDefinedPayloadSemantics r.method then H3.setContentLengthIfMissing headers len
    else headers
  | none => headers

def sentHeaders (r : Request) : HeaderMap :=
  let headers := r.withLength (stripConnectionHeaders r.headers true)
  match r.preserve with
  | some sort => sort headers
  | none => headers

/-- A CONNECT request with a body is not sent. -/
def invalidConnect (r : Request) : Bool :=
  r.method = .connect && (contentLengthParseAll r.sentHeaders).any (· ≠ 0)

end Request

/-- A request in the hands of the dispatcher, and whether it was parked. -/
structure Held where
  req : Request
  parked : Bool

/-- How a request leaves the dispatcher. -/
inductive Way where
  /-- It is passed to `send_request`. -/
  | sent
  /-- The peer does not support it. The request is returned. -/
  | refused
  /-- The connection is over. The request is returned. -/
  | released
  /-- Its caller has left. -/
  | dropped
  /-- It is a CONNECT with a body. The request is not returned. -/
  | invalid
  deriving DecidableEq, Repr

/-! ## The state -/

/-- `PeerSettings`. The waker of the connection task is left out. -/
structure PeerSettings where
  /-- What was published, once it is known. -/
  extendedConnect : Option Bool
  /-- The dispatcher is registered. -/
  waker : Bool
  parked : Bool

/-- How far the dispatcher has got. -/
inductive Stage where
  | idle
  /-- `poll_settle`: its first look at the SETTINGS, registering, its second look, and what it found. -/
  | settle | settleRegister | settleRecheck | settled (seen : Option Bool)
  /-- `retain_mut` of `poll_settle`, with those that it has not polled. -/
  | retain (rest : List Request)
  /-- `poll_ready` of the connection. -/
  | ready
  | releasing
  /-- `pop_enabled`: its look, and taking the request. -/
  | pop | popFront
  /-- `poll_recv`. -/
  | recv
  /-- There is nothing to do, and `conn_eof` is polled. -/
  | waiting
  | taken (h : Held)
  /-- `admit`: its first look, registering, its second look, and parking. -/
  | admitLook (h : Held) | admitRegister (h : Held) | admitRecheck (h : Held) | park (h : Held)
  | send (h : Held)
  | finished
  | gone

inductive GateEv where
  | published (enabled : Bool)
  | canceled (id : ℕ)
  | admitted (r : Request)
  | parked (r : Request)
  /-- The request left, and whether it had been parked. -/
  | left (r : Request) (way : Way) (parked : Bool)

structure System where
  peer : PeerSettings
  /-- A publication has stored, and has not woken yet. -/
  waking : Bool
  /-- `ConnectGate::parked`. -/
  queue : List Request
  rx : List Request
  /-- All senders of requests are dropped. -/
  closed : Bool
  /-- The callers that left. -/
  canceled : List ℕ
  arrived : ℕ
  stage : Stage
  /-- `fut_ctx`: a stream waits to be opened. -/
  opening : Bool
  /-- What the last `poll_extended_connect` found. No program reads it. -/
  seen : Option (Option Bool)
  /-- The dispatcher was woken since. No program reads it. -/
  woken : Bool
  /-- What happened, latest first. No program reads it. -/
  log : List GateEv

/-- What others answer to the dispatcher. -/
structure Answers where
  /-- `poll_ready`: an error, or whether there is room for a stream. -/
  ready : Except Unit Bool
  /-- The channel may be read in this turn. -/
  budget : Bool
  /-- `send_request` takes the request. -/
  accepts : Bool
  /-- `conn_eof` is ready, and whether the keep-alive has timed out. -/
  eof : Option Bool

def Answers.pending (a : Answers) : Bool :=
  match a.ready with
  | .ok false => true
  | _ => false

namespace System

def new : System where
  peer := ⟨none, false, false⟩
  waking := false
  queue := []
  rx := []
  closed := false
  canceled := []
  arrived := 0
  stage := .idle
  opening := false
  seen := none
  woken := false
  log := []

def goto (s : System) (stage : Stage) : System := { s with stage := stage }

def record (s : System) (e : GateEv) : System := { s with log := e :: s.log }

def leave (s : System) (h : Held) (way : Way) : System := s.record (.left h.req way h.parked)

/-- The requests leave the gate, one by one. -/
def leaveAll (s : System) (way : Way) (rs : List Request) : System :=
  rs.foldl (fun s r => s.leave ⟨r, true⟩ way) s

def isCanceled (s : System) (r : Request) : Bool := s.canceled.contains r.id

/-! ## `PeerSettings` -/

/-- The look that `poll_extended_connect` answers with. -/
def looked (s : System) : System := { s with seen := some s.peer.extendedConnect, woken := false }

def register (s : System) : System := { s with peer := { s.peer with waker := true } }

def setParked (s : System) (parked : Bool) : System := { s with peer := { s.peer with parked := parked } }

/-! ## The gate -/

def pollSettle (s : System) : System :=
  if s.queue.isEmpty then s.goto .ready
  else if s.peer.extendedConnect = none then s.goto .settleRegister
  else s.looked.goto (.settled s.peer.extendedConnect)

/-- What the look of `poll_settle` means for the queue. -/
def settle (s : System) : Option Bool → System
  | some true => (s.setParked (!s.queue.isEmpty)).goto .ready
  | some false =>
    let s := { s.leaveAll .refused s.queue with queue := [] }
    (s.setParked (!s.queue.isEmpty)).goto .ready
  | none => { s with queue := [] }.goto (.retain s.queue)

/-- `retain_mut` polls the next caller. -/
def retain (s : System) : List Request → System
  | [] => (s.setParked (!s.queue.isEmpty)).goto .ready
  | r :: rest =>
    if s.isCanceled r then (s.leave ⟨r, true⟩ .dropped).goto (.retain rest)
    else { s with queue := s.queue ++ [r] }.goto (.retain rest)

/-- `pop_enabled`, behind its look. -/
def popFront (s : System) : System :=
  match s.queue with
  | [] => (s.setParked (!s.queue.isEmpty)).goto .recv
  | r :: queue => ({ s with queue := queue }.setParked (!queue.isEmpty)).goto (.taken ⟨r, true⟩)

def release (s : System) : System := { s.leaveAll .released s.queue with queue := [] }.setParked false

/-- The SETTINGS are known to `admit`. -/
def admitKnown (s : System) (h : Held) (enabled : Bool) : System :=
  if enabled then (s.looked.record (.admitted h.req)).goto (.send h) else (s.looked.leave h .refused).goto .settle

def park (s : System) (h : Held) : System :=
  (({ s with queue := s.queue ++ [h.req] }.setParked true).record (.parked h.req)).goto .settle

/-! ## The dispatcher -/

def pollReady (s : System) : Except Unit Bool → System
  | .error () => { s with opening := false }.goto .releasing
  | .ok false => s.goto .idle
  | .ok true => if s.opening then { s with opening := false }.goto .settle else s.goto .pop

def pollRecv (s : System) (budget : Bool) : System :=
  match budget, s.rx with
  | true, r :: rx => { s with rx := rx }.goto (.taken ⟨r, false⟩)
  -- parked requests keep the dispatcher alive
  | true, [] => s.goto (if s.closed && s.queue.isEmpty then .finished else .waiting)
  | false, _ => s.goto .waiting

def pollEof (s : System) : Option Bool → System
  | none => s.goto .idle
  | some true => s.goto .releasing
  | some false => s.goto .finished

/-- A request that was taken may be canceled by now. -/
def take (s : System) (h : Held) : System :=
  if s.isCanceled h.req then (s.leave h .dropped).goto .settle
  else s.goto (if h.req.protocol.isNone then .send h else .admitLook h)

def sendRequest (s : System) (h : Held) (a : Answers) : System :=
  if h.req.invalidConnect then (s.leave h .invalid).goto .settle
  else if a.accepts && a.pending then { s.leave h .sent with opening := true }.goto .idle
  else (s.leave h .sent).goto .settle

def go (s : System) (a : Answers) : System :=
  match s.stage with
  | .idle | .finished | .gone => s
  | .settle => s.pollSettle
  | .settleRegister => s.register.goto .settleRecheck
  | .settleRecheck => s.looked.goto (.settled s.peer.extendedConnect)
  | .settled seen => s.settle seen
  | .retain rest => s.retain rest
  | .ready => s.pollReady a.ready
  | .releasing => s.release.goto .finished
  | .pop => s.goto (if s.peer.extendedConnect = some true then .popFront else .recv)
  | .popFront => s.popFront
  | .recv => s.pollRecv a.budget
  | .waiting => s.pollEof a.eof
  | .taken h => s.take h
  | .admitLook h =>
    match s.peer.extendedConnect with
    | some enabled => s.admitKnown h enabled
    | none => s.goto (.admitRegister h)
  | .admitRegister h => s.register.goto (.admitRecheck h)
  | .admitRecheck h =>
    match s.peer.extendedConnect with
    | some enabled => s.admitKnown h enabled
    | none => s.looked.goto (.park h)
  | .park h => s.park h
  | .send h => s.sendRequest h a

/-! ## Runs -/

inductive Op where
  | arrive (r : Request)
  | close
  | cancel (id : ℕ)
  /-- The connection task publishes a change: it stores, and it wakes the dispatcher. -/
  | publish (enabled : Bool)
  | wake
  /-- The dispatcher is polled, goes on, and is dropped. -/
  | poll
  | go (a : Answers)
  | drop

/-- The request is in the channel, and has a number. -/
def arrive (s : System) (r : Request) : System :=
  { s with rx := s.rx ++ [{ r with id := s.arrived }], arrived := s.arrived + 1 }

def publish (s : System) (enabled : Bool) : System :=
  { s with waking := true, peer := { s.peer with extendedConnect := some enabled } }.record (.published enabled)

def wake (s : System) : System :=
  { s with waking := false, woken := s.woken || s.peer.waker, peer := { s.peer with waker := false } }

def step (s : System) : Op → System
  | .arrive r => if s.closed then s else s.arrive r
  | .close => { s with closed := true }
  | .cancel id => { s with canceled := id :: s.canceled }.record (.canceled id)
  | .publish enabled => if s.waking || s.peer.extendedConnect = some enabled then s else s.publish enabled
  | .wake => if s.waking then s.wake else s
  | .poll =>
    match s.stage with
    | .idle => s.goto .settle
    | _ => s
  | .go a => s.go a
  | .drop =>
    match s.stage with
    | .idle | .finished => s.release.goto .gone
    | _ => s

def run (s : System) (ops : List Op) : System := ops.foldl step s

end System

end Netty.H2
