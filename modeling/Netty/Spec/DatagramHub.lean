import Netty.Spec.Datagram

/-!
# Wake-ups around the datagram registry

The wake-ups that `Spec/Datagram` leaves out: the task of the driver with its `AtomicWaker`
(`src/proto/http3/datagram.rs`), and the cloned senders of the sessions that wait for
capacity with tokio's `Notify` (`src/conn/http3/datagram.rs`).

* `Task`: the task that polls the driver.
* `Sender`: one sender, at some point of `poll_admit`.
* `Hub`: both, around one driver and its registry.
* `Hub.run`: any interleaving. A call changes the registry under the lock and wakes or
  notifies after it has released it, so each of the three is a step of its own.

A thread that owes a wake and a notification may pay them in any order here, and at any time.
-/

namespace Netty.Datagram

/-! ## Tasks -/

inductive Phase where
  | unpolled
  /-- The runtime has started a poll. -/
  | entered
  /-- The waker is registered. -/
  | polling
  /-- The last poll has returned `Pending`. -/
  | resting
  /-- The future has completed. -/
  | ended
  deriving DecidableEq, Repr

/-- The task of the driver. -/
structure Task where
  phase : Phase
  /-- The `AtomicWaker` of the registry holds its waker. -/
  registered : Bool
  /-- It was woken after its last poll had started. -/
  woken : Bool
  /-- What happened in the last poll, or in this one. -/
  recvPending : Bool
  sendPending : Bool
  selfWoke : Bool
  deriving DecidableEq, Repr

def Task.new : Task := ⟨.unpolled, false, false, false, false, false⟩

/-- `AtomicWaker::wake`. -/
def Task.wake (t : Task) : Task := if t.registered then { t with registered := false, woken := true } else t

/-- `cx.waker().wake_by_ref()`, if `self`. -/
def Task.wakeSelf (t : Task) (self : Bool) : Task := { t with woken := t.woken || self, selfWoke := t.selfWoke || self }

/-- A future of `Notify::notified_owned`. -/
inductive Notified where
  /-- Not polled yet. There had been this many calls of `notify_waiters`. -/
  | init (calls : ℕ)
  /-- Among the waiters. -/
  | waiting
  | notified
  deriving DecidableEq, Repr

/-- What `poll_admit` tries: `poll_send` or `poll_ready`. -/
inductive Attempt where
  | send (payload : Bytes)
  | ready
  deriving DecidableEq, Repr

/-- Where a sender stands in `poll_admit`. -/
inductive AdmitPc where
  | idle
  /-- The first attempt was `Full`. -/
  | full (attempt : Attempt)
  /-- There is a future to poll. -/
  | made (attempt : Attempt)
  /-- It is pending. -/
  | rechecking (attempt : Attempt)
  deriving DecidableEq, Repr

/-- A sender, with the task that polls it. -/
structure Sender where
  id : ℕ
  waiting : Option Notified
  pc : AdmitPc
  woken : Bool
  /-- The attempt of the last poll, if that has returned `Pending`. -/
  parked : Option Attempt
  deriving DecidableEq, Repr

def Sender.new (id : ℕ) : Sender := ⟨id, none, .idle, false, none⟩

/-- The sender's part of `notify_waiters`. -/
def Sender.notify (x : Sender) : Sender :=
  if x.waiting = some .waiting then { x with waiting := some .notified, woken := true } else x

/-- The poll returns `Pending`. -/
def Sender.park (x : Sender) (attempt : Attempt) : Sender := { x with pc := .idle, parked := some attempt }

def Sender.answer (x : Sender) : Sender := { x with pc := .idle, waiting := none, parked := none }

/-! ## What owes a wake-up -/

/-- The call wakes the driver. -/
def Call.wakes : Call → Out → Bool
  | .trySend _ _, .sent _ (.ok _) => true
  | .closeSend _, _ | .close _, _ | .closeAll, _ => true
  | _, _ => false

/-- A packet that a sender has queued wakes the driver. -/
def Attempt.wakes : Attempt → Except SendErrorKind Unit → Bool
  | .send _, .ok _ => true
  | _, _ => false

/-- The call notifies the senders. -/
def Call.notifies : Call → Bool
  | .closeSend _ | .close _ | .closeAll => true
  | _ => false

/-- The driver wakes its own task at the end of the last round of a loop. -/
def Driver.wakesSelf (d : Driver) (answers : Answers) (after : Pc) : Bool :=
  match d.pc with
  | .receiving index =>
    match answers.recv with
    | .packet _ _ => index + 1 = rounds && after ≠ .finished
    | _ => false
  | .checking index id _ => index + 1 = rounds && !d.registry.sendOpen id
  | .offering index _ _ => index + 1 = rounds && (answers.send = .accepted || answers.send = .rejected)
  | _ => false

/-- The driver notifies the senders: the limit of the transport has changed, or `next` has
taken a packet. -/
def Driver.notifies (d : Driver) (answers : Answers) (pending : Option (ℕ × Bytes)) : Bool :=
  match d.pc with
  | .idle => d.registry.maxSize ≠ answers.maxSize
  | .taking _ => d.pending.isNone && pending.isSome
  | _ => false

/-- The receiver returns `Pending` at this step. -/
def Driver.recvPending (d : Driver) (answers : Answers) : Bool :=
  match d.pc with
  | .receiving _ => answers.recv = .pending
  | _ => false

/-- The sender returns `Pending` at this step. -/
def Driver.sendPending (d : Driver) (answers : Answers) : Bool :=
  match d.pc with
  | .offering _ _ _ => answers.send = .pending
  | _ => false

/-! ## The hub -/

structure Hub where
  driver : Driver
  task : Task
  /-- Calls of `notify_waiters` so far. -/
  calls : ℕ
  /-- Calls that have released the lock, and are about to wake the driver. -/
  owedWakes : ℕ
  /-- Calls that have released the lock, and are about to notify the senders. -/
  owedNotifies : ℕ
  senders : ℕ → Sender

namespace Hub

inductive Action where
  /-- A call from any thread, up to the release of the lock. -/
  | call (call : Call)
  /-- The task of the driver is polled. -/
  | enter
  | drive (answers : Answers)
  /-- A call wakes the driver. -/
  | wake
  /-- A call notifies the senders. -/
  | notify
  /-- The task of a sender is polled, and makes its first attempt. -/
  | poll (k : ℕ) (attempt : Attempt)
  | admitOn (k : ℕ)

/-- A driver that was not polled yet, and senders for these sessions. -/
def new (maxSize : Option ℕ) (ids : ℕ → ℕ) : Hub := ⟨.new maxSize, .new, 0, 0, 0, fun k => .new (ids k)⟩

def setSender (h : Hub) (k : ℕ) (x : Sender) : Hub := { h with senders := Function.update h.senders k x }

def owe (h : Hub) (wake notify : Bool) : Hub :=
  { h with owedWakes := h.owedWakes + wake.toNat, owedNotifies := h.owedNotifies + notify.toNat }

def call (decode : Decode) (h : Hub) (call : Call) : Option Hub := do
  let x ← h.driver.registry.step decode call.op
  some ({ h with driver := { h.driver with registry := x.2 } }.owe (call.wakes x.1) call.notifies)

/-- The runtime clears what was woken before it polls. -/
def enter (h : Hub) : Hub :=
  match h.task.phase with
  | .unpolled | .resting =>
    { h with task := { h.task with
        phase := .entered, woken := false, recvPending := false, sendPending := false, selfWoke := false } }
  | .entered | .polling | .ended => h

/-- What the poll of the driver has come to. -/
def phaseOf : Pc → Phase
  | .idle => .resting
  | .finished => .ended
  | _ => .polling

def drive (decode : Decode) (h : Hub) (answers : Answers) : Option Hub :=
  match h.task.phase with
  | .entered => some { h with task := { h.task with phase := .polling, registered := true } }
  | .polling => do
    let x ← h.driver.drive decode answers
    let task := { h.task with
      phase := phaseOf x.2.pc
      recvPending := h.task.recvPending || h.driver.recvPending answers
      sendPending := h.task.sendPending || h.driver.sendPending answers }
    some ({ h with driver := x.2, task := task.wakeSelf (h.driver.wakesSelf answers x.2.pc) }.owe false
      (h.driver.notifies answers x.2.pending))
  | .unpolled | .resting | .ended => some h

def wake (h : Hub) : Hub :=
  if h.owedWakes = 0 then h else { h with owedWakes := h.owedWakes - 1, task := h.task.wake }

def notify (h : Hub) : Hub :=
  if h.owedNotifies = 0 then h
  else { h with
    owedNotifies := h.owedNotifies - 1
    calls := h.calls + 1
    senders := fun k => (h.senders k).notify }

/-- One attempt of `poll_admit`. -/
def attempt (s : State) (id : ℕ) : Attempt → Option (Except SendErrorKind Unit × State)
  | .send payload => (s.trySend id payload).map fun x => (x.1.map fun _ => (), x.2)
  | .ready => (RequestState.ready s id).map fun r => (r, s)

/-- Sender `k` makes an attempt: `full` is where it stands if that is `Full`. -/
def tryAdmit (h : Hub) (k : ℕ) (a : Attempt) (full : Sender) : Option Hub := do
  let x ← attempt h.driver.registry (h.senders k).id a
  let h := { h with driver := { h.driver with registry := x.2 } }.owe (a.wakes x.1) false
  some (h.setSender k (if x.1 = .error .full then full else full.answer))

def poll (h : Hub) (k : ℕ) (a : Attempt) : Option Hub :=
  match (h.senders k).pc with
  | .idle => h.tryAdmit k a { h.senders k with woken := false, parked := none, pc := .full a }
  | .full _ | .made _ | .rechecking _ => some h

/-- The rest of `poll_admit`, step by step. -/
def admitOn (h : Hub) (k : ℕ) : Option Hub :=
  let x := h.senders k
  -- the future is ready: it is dropped, and the task wakes itself
  let again (a : Attempt) : Hub := h.setSender k ({ x with waiting := none, woken := true }.park a)
  match x.pc with
  | .idle => some h
  | .full a => some (h.setSender k { x with waiting := some (x.waiting.getD (.init h.calls)), pc := .made a })
  | .made a =>
    match x.waiting with
    | none => some h
    | some .notified => some (again a)
    | some (.init calls) =>
      if calls ≠ h.calls then some (again a)
      else some (h.setSender k { x with waiting := some .waiting, pc := .rechecking a })
    | some .waiting => some (h.setSender k { x with pc := .rechecking a })
  | .rechecking a => h.tryAdmit k a (x.park a)

def step (decode : Decode) (h : Hub) : Action → Option Hub
  | .call call => h.call decode call
  | .enter => some h.enter
  | .drive answers => h.drive decode answers
  | .wake => some h.wake
  | .notify => some h.notify
  | .poll k a => h.poll k a
  | .admitOn k => h.admitOn k

def run (decode : Decode) (h : Hub) : List Action → Option Hub
  | [] => some h
  | action :: actions => do
    let h ← h.step decode action
    h.run decode actions

end Hub

end Netty.Datagram
