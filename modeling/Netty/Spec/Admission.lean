import Mathlib.Data.List.AList
import Netty.Spec.RecvBody

/-!
# Admission and draining of HTTP/3 connections

`src/proto/http3/shared.rs`, with the callers of its counters: request futures, response
bodies, upload tasks, tunnels, request handles and the driver of the connection. Each of them
is cut into atomic steps, and the steps of different owners may come in any order.

An exchange is owned by its request future until its response head, and then by a lock; while
its owner is inside a sequence of atomic steps, nobody else touches it.

* `Shared`: the counters, the semaphore and the waker.
* `Phase`: how far an exchange has got.
* `System`: a connection with all its exchanges.
* `System.step`: one atomic step.
-/

namespace Netty.H3

/-! ## What is shared -/

structure Shared where
  permits : ℕ
  /-- Waiting acquires without a permit, first come first. -/
  queue : List ℕ
  closed : Bool
  reserved : ℕ
  active : ℕ
  senders : ℕ
  draining : Bool
  /-- The driver's waker is registered. -/
  registered : Bool
  /-- The driver is scheduled. -/
  notified : Bool
  /-- How often the driver's waker was woken. No program reads it. -/
  wakes : ℕ

namespace Shared

/-- `AtomicWaker::wake` takes the registered waker. -/
def wake (s : Shared) : Shared :=
  { s with registered := false, notified := s.notified || s.registered, wakes := s.wakes + 1 }

/-- One atomic step other than returning a permit, and what its owner does next. -/
def exec (s : Shared) : Micro → List Micro × Shared
  | .subActive => ([], { s with active := s.active - 1 })
  | .subReserved => ([], { s with reserved := s.reserved - 1 })
  | .check => (if s.draining then [.wake] else [], s)
  | .swap => if s.draining then ([], s) else ([.wake], { s with draining := true })
  | .wake => ([], s.wake)
  | .addPermit => ([], s)

end Shared

/-! ## Exchanges -/

inductive Phase where
  /-- `try_send_request` has found that the connection is not draining. -/
  | checked
  | reserved
  /-- The acquire waits, or it was assigned a permit and was not polled since. -/
  | waiting (assigned : Bool)
  /-- The permit is taken. -/
  | acquired
  /-- And the exchange is counted as active. -/
  | counted
  | running
  /-- The response head is delivered. Whether the application holds the body, and whether the
  upload task still runs. -/
  | responded (b : RecvBody) (held piping : Bool)
  | tunnel
  | gone

structure Exchange where
  phase : Phase
  /-- What its owner is about to do, step by step. -/
  todo : List Micro
  /-- Permits that it was given, and that it has returned. No program reads them. -/
  taken : ℕ
  returned : ℕ

/-- What is left of sending when the response head comes. -/
inductive Sending where
  | complete
  | pending
  /-- A refused CONNECT-UDP keeps its sending half. -/
  | refused
  deriving DecidableEq, Repr

/-- How far the driver has got in its poll. -/
inductive Driver where
  | parked
  | polling
  | registered
  | sawDraining
  | sawUnreserved
  | closed
  deriving DecidableEq, Repr

structure System where
  shared : Shared
  exchanges : AList fun _ : ℕ => Exchange
  /-- Request handles that are inside a call. -/
  busy : ℕ
  /-- What the last request handle is about to do as it is dropped. -/
  dropping : List Micro
  driver : Driver

/-- `Semaphore::MAX_PERMITS`. -/
def maxPermits : ℕ := usizeMax / 8

namespace System

def new (limit : ℕ) : System where
  shared := ⟨min limit maxPermits, [], false, 0, 0, 1, false, false, false, 0⟩
  exchanges := ∅
  busy := 0
  dropping := []
  driver := .polling

def put (s : System) (i : ℕ) (e : Exchange) : System := { s with exchanges := s.exchanges.insert i e }

/-- A handle that no call uses. -/
def free (s : System) : Bool := s.busy < s.shared.senders

/-- The owner of exchange `i` does something to it. -/
def own (s : System) (i : ℕ) (f : Exchange → System) : System :=
  match s.exchanges.lookup i with
  | some e => if e.todo = [] then f e else s
  | none => s

/-! ### Permits -/

/-- The first waiting acquire is assigned the permit, or it becomes available. -/
def addPermit (s : System) : System :=
  match s.shared.queue with
  | [] => { s with shared := { s.shared with permits := s.shared.permits + 1 } }
  | w :: queue =>
    let s := { s with shared := { s.shared with queue := queue } }
    match s.exchanges.lookup w with
    | some e => s.put w { e with phase := .waiting true, taken := e.taken + 1 }
    | none => s

/-- The request was given a permit that was available. -/
def takePermit (s : System) (i : ℕ) (e : Exchange) : System :=
  { s with shared := { s.shared with permits := s.shared.permits - 1, queue := s.shared.queue.erase i } }.put i
    { e with phase := .acquired, taken := e.taken + 1 }

/-- A request without admission is dropped: its acquire first, if it has one, and then its
reservation. -/
def dropReserved (s : System) (i : ℕ) (e : Exchange) (assigned : Bool) : System :=
  { s with shared := { s.shared with queue := s.shared.queue.erase i } }.put i
    { e with phase := .gone, todo := (if assigned then [Micro.addPermit] else []) ++ Active.drop ⟨false, false⟩ }

/-- `Active::admit` is polled. -/
def acquire (s : System) (i : ℕ) : System :=
  s.own i fun e =>
    match e.phase with
    | .reserved =>
      if s.shared.closed then s.dropReserved i e false
      else if 0 < s.shared.permits then s.takePermit i e
      else { s with shared := { s.shared with queue := s.shared.queue ++ [i] } }.put i { e with phase := .waiting false }
    | .waiting assigned =>
      if s.shared.closed then s.dropReserved i e assigned
      else if assigned then s.put i { e with phase := .acquired }
      else if 0 < s.shared.permits then s.takePermit i e
      else s
    | _ => s

/-- `Semaphore::close`: nobody waits any more. -/
def shutdown (s : System) : System :=
  { s with shared := { s.shared with closed := true, queue := [], draining := true }.wake }

/-! ### Request handles -/

/-- The first step of `try_send_request`. -/
def check (s : System) (i : ℕ) : System :=
  if s.free && !s.shared.draining && (s.exchanges.lookup i).isNone then
    { s with busy := s.busy + 1 }.put i ⟨.checked, [], 0, 0⟩
  else s

/-- The second step: the request is reserved, and the handle is free again. -/
def reserve (s : System) (i : ℕ) : System :=
  s.own i fun e =>
    match e.phase with
    | .checked =>
      { s with busy := s.busy - 1, shared := { s.shared with reserved := s.shared.reserved + 1 } }.put i
        { e with phase := .reserved }
    | _ => s

def clone (s : System) : System :=
  if s.free then { s with shared := { s.shared with senders := s.shared.senders + 1 } } else s

/-- `Drop for SendRequest`: the last one starts draining. -/
def dropSender (s : System) : System :=
  if s.free then
    { s with
      shared := { s.shared with senders := s.shared.senders - 1 }
      dropping := if s.shared.senders = 1 then [.swap] else s.dropping }
  else s

/-! ### The request future -/

/-- The admitted request is counted, and after that it is no longer reserved. -/
def count (s : System) (i : ℕ) : System :=
  s.own i fun e =>
    match e.phase with
    | .acquired => { s with shared := { s.shared with active := s.shared.active + 1 } }.put i { e with phase := .counted }
    | _ => s

def unreserve (s : System) (i : ℕ) : System :=
  s.own i fun e =>
    match e.phase with
    | .counted =>
      { s with shared := { s.shared with reserved := s.shared.reserved - 1 } }.put i { e with phase := .running }
    | _ => s

/-- The request future is dropped, or it fails. A tunnel ends. -/
def cancel (s : System) (i : ℕ) : System :=
  s.own i fun e =>
    match e.phase with
    | .reserved => s.dropReserved i e false
    | .waiting assigned => s.dropReserved i e assigned
    | .running | .tunnel => s.put i { e with phase := .gone, todo := Active.drop ⟨true, true⟩ }
    | _ => s

def respond (s : System) (i : ℕ) (answers : RecvAnswers) (declared : Option ℕ) (sending : Sending) : System :=
  s.own i fun e =>
    match e.phase with
    | .running =>
      let x := RecvBody.new (.fresh answers) declared ⟨true, true⟩ (sending = .pending) (sending = .refused)
      s.put i { e with phase := .responded x.2 true (sending = .pending), todo := x.1 }
    | _ => s

def upgrade (s : System) (i : ℕ) : System :=
  s.own i fun e =>
    match e.phase with
    | .running => s.put i { e with phase := .tunnel }
    | _ => s

/-! ### After the response head -/

def read (s : System) (i : ℕ) (published : Option Error) : System :=
  s.own i fun e =>
    match e.phase with
    | .responded b true piping =>
      let x := b.pollFrame published
      s.put i { e with phase := .responded x.2.2 true piping, todo := x.2.1 }
    | _ => s

def dropBody (s : System) (i : ℕ) : System :=
  s.own i fun e =>
    match e.phase with
    | .responded b true piping => s.put i { e with phase := .responded b.drop.2 false piping, todo := b.drop.1 }
    | _ => s

/-- `Link::cancel`, from the upload task or from a Datagram. -/
def cancelBody (s : System) (i : ℕ) (published : Option Error) (err : Error) : System :=
  s.own i fun e =>
    match e.phase with
    | .responded b held piping =>
      let x := b.cancel published err
      s.put i { e with phase := .responded x.2 held piping, todo := x.1 }
    | _ => s

/-- The upload task has finished or failed, or the executor discards it. -/
def pipeDone (s : System) (i : ℕ) : System :=
  s.own i fun e =>
    match e.phase with
    | .responded b held true => s.put i { e with phase := .responded b.pipeDone.2 held false, todo := b.pipeDone.1 }
    | _ => s

/-! ### Steps that were begun -/

/-- The next atomic step of the owner of exchange `i`. -/
def exec (s : System) (i : ℕ) : System :=
  match s.exchanges.lookup i with
  | some e =>
    match e.todo with
    | [] => s
    | .addPermit :: todo => (s.put i { e with todo := todo, returned := e.returned + 1 }).addPermit
    | m :: todo =>
      let x := s.shared.exec m
      { s with shared := x.2 }.put i { e with todo := x.1 ++ todo }
  | none => s

/-- The next atomic step of the last request handle. -/
def execDropping (s : System) : System :=
  match s.dropping with
  | [] => s
  | m :: rest =>
    let x := s.shared.exec m
    { s with shared := x.2, dropping := x.1 ++ rest }

/-- One step of the driver's poll. Reservations are read before active exchanges. -/
def drive (s : System) : System :=
  match s.driver with
  | .parked =>
    if s.shared.notified then { s with driver := .polling, shared := { s.shared with notified := false } } else s
  | .polling => { s with driver := .registered, shared := { s.shared with registered := true } }
  | .registered => { s with driver := if s.shared.draining then .sawDraining else .parked }
  | .sawDraining => { s with driver := if s.shared.closed || s.shared.reserved = 0 then .sawUnreserved else .parked }
  | .sawUnreserved => { s with driver := if s.shared.active = 0 then .closed else .parked }
  | .closed => s

/-! ### Runs -/

inductive Op where
  | check (i : ℕ) | reserve (i : ℕ) | acquire (i : ℕ) | count (i : ℕ) | unreserve (i : ℕ) | cancel (i : ℕ)
  | respond (i : ℕ) (answers : RecvAnswers) (declared : Option ℕ) (sending : Sending)
  | upgrade (i : ℕ)
  | read (i : ℕ) (published : Option Error)
  | dropBody (i : ℕ)
  | cancelBody (i : ℕ) (published : Option Error) (err : Error)
  | pipeDone (i : ℕ)
  | exec (i : ℕ)
  | clone | dropSender | execDropping
  | drive
  /-- Something else wakes the driver. -/
  | notify
  | shutdown

def step (s : System) : Op → System
  | .check i => s.check i
  | .reserve i => s.reserve i
  | .acquire i => s.acquire i
  | .count i => s.count i
  | .unreserve i => s.unreserve i
  | .cancel i => s.cancel i
  | .respond i answers declared sending => s.respond i answers declared sending
  | .upgrade i => s.upgrade i
  | .read i published => s.read i published
  | .dropBody i => s.dropBody i
  | .cancelBody i published err => s.cancelBody i published err
  | .pipeDone i => s.pipeDone i
  | .exec i => s.exec i
  | .clone => s.clone
  | .dropSender => s.dropSender
  | .execDropping => s.execDropping
  | .drive => s.drive
  | .notify => { s with shared := { s.shared with notified := true } }
  | .shutdown => s.shutdown

def run (s : System) (ops : List Op) : System := ops.foldl step s

end System

end Netty.H3
