import Netty.Spec.H3Reader
import Netty.Spec.H3Writer

/-!
# Both directions of an HTTP/3 tunnel

`UpgradeTask` and `Transfer` of `src/proto/http3/upgrade.rs`: one task polls the sending half
of a tunnel and then its receiving half. An error of either ends both; a half that is done is
dropped, and the other one goes on.

* `Transfer`: the two halves of `Spec/H3Writer` and `Spec/H3Reader`, and which one is at work.
* `Transfer.pumpOn`: the next step of a poll.
* `Transfer.step`: one step of the task, or of the application.
-/

namespace Netty.H3

/-- What `Reader.poll` does behind the check of `invalid`, which comes before the sending half is polled. -/
def Reader.resume (r : Reader) (send : Poll (Except Error Unit)) : Reader :=
  { { r with invalid := false }.poll send with invalid := r.invalid }

/-- Where a poll of the transfer stands. -/
inductive Half where
  /-- At the receiving half, or between two polls. -/
  | receiving
  | sending
  /-- The sending half has ended, and is being dropped. -/
  | dropping
  deriving DecidableEq, Repr

structure Transfer where
  writer : Tunnel
  reader : Reader
  half : Half
  /-- What the sending half has answered, latest first. No program reads it. -/
  answers : List (Poll (Except Error Unit))

namespace Transfer

def new (send : SendGuard) (answers : RecvAnswers) : Transfer := ⟨.new send, .new answers, .receiving, []⟩

/-- The sending half was polled, and the receiving half follows. -/
def answer (t : Transfer) (send : Poll (Except Error Unit)) : Transfer :=
  { t with half := .receiving, reader := t.reader.resume send, answers := send :: t.answers }

def poll (t : Transfer) : Transfer :=
  if t.reader.invalid then { t with reader := t.reader.poll .pending }
  else if t.reader.sendDone then { t with reader := t.reader.resume .pending }
  else { t with writer := t.writer.poll, half := .sending }

def isOver : Feed → Bool
  | .failed _ | .done => true
  | _ => false

/-- The sending half is dropped, one step after the other. -/
def release (w : Tunnel) : Tunnel :=
  match w.pump with
  | .closing | .emptying | .releasing | .gone => w.pumpOn
  | _ => w.drop

def isGone : Pump → Bool
  | .gone => true
  | _ => false

/-- The poll goes on. The transfer is dropped before its error is reported. -/
def pumpOn (t : Transfer) : Transfer :=
  match t.half with
  | .sending =>
    match t.writer.pump with
    | .idle => t.answer .pending
    | .ended (.ok ()) => { t with writer := t.writer.drop, half := .dropping }
    | .ended (.error e) => t.answer (.ready (.error e))
    | _ => { t with writer := t.writer.pumpOn }
  | .dropping =>
    if isGone t.writer.pump then t.answer (.ready (.ok ())) else { t with writer := t.writer.pumpOn }
  | .receiving =>
    if isOver t.reader.feed && !isGone t.writer.pump then { t with writer := release t.writer }
    else { t with reader := t.reader.pumpOn }

/-! ## Runs -/

inductive Op where
  | call (c : Call)
  | go
  | read (room : ℕ)
  | readOn
  | dropIo
  | poll
  | pump
  | drop
  | invalidate (aborted : Bool)
  | publish (e : Error)

def step (t : Transfer) : Op → Transfer
  | .call c => { t with writer := t.writer.step (.call c) }
  | .go => { t with writer := t.writer.step .go }
  | .read room => { t with reader := t.reader.step (.read room) }
  | .readOn => { t with reader := t.reader.step .readOn }
  | .dropIo =>
    if t.writer.caller = .idle ∧ t.reader.reading = none then
      { t with writer := t.writer.step .dropIo, reader := t.reader.step .dropIo }
    else t
  | .poll =>
    match t.half, t.reader.feed with
    | .receiving, .idle => t.poll
    | _, _ => t
  | .pump => t.pumpOn
  | .drop =>
    match t.half, t.reader.feed with
    | .receiving, .idle => { t with writer := t.writer.step .drop, reader := t.reader.step .drop }
    | _, _ => t
  | .invalidate aborted => { t with reader := t.reader.step (.invalidate aborted) }
  | .publish e => { t with reader := t.reader.step (.publish e) }

def run (t : Transfer) (ops : List Op) : Transfer := ops.foldl step t

end Transfer

end Netty.H3
