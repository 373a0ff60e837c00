import Netty.Poll.Basic
import Netty.Spec.Bytes

/-!
# The stream adapter over a QUIC backend

`Stream` of `src/proto/http3/transport.rs` presents a stream of a QUIC backend to the
protocol layer. It holds at most one buffer that the backend has not taken yet.

* `Backend`: a backend with any state. It takes what it likes of a buffer, and it may say
  anything about it.
* `pollReady`, `sendData`, `pollFinish`, `pollSend`, `reset`, `split`: the operations.
* `Stream.run`: any sequence of them, with a record of what happened.

What the backend reads and `poll_stopped` are passed through, and left out.
-/

namespace Netty.Quic

/-- The backend's answer to a poll. -/
inductive Answer (ε α : Type) where
  | pending
  | err (e : ε)
  | ok (a : α)
  deriving DecidableEq, Repr

/-- An error of the backend, or a breach of its contract. -/
inductive StreamError (ε : Type) where
  | backend (e : ε)
  | contract (reason : String)
  deriving DecidableEq, Repr

/-- The answer of the backend, as it is passed on. -/
def Answer.poll {ε α : Type} : Answer ε α → Poll (Except (StreamError ε) α)
  | .pending => .pending
  | .err e => .ready (.error (.backend e))
  | .ok a => .ready (.ok a)

/-- A backend stream. `pollSend` advances the buffer by the first number, as far as the
buffer goes, and answers with the second. -/
structure Backend (T ε : Type) where
  pollSend : T → Bytes → ℕ × Answer ε ℕ × T
  pollFinish : T → Answer ε Unit × T
  reset : T → ℕ → T

/-- What happened, for the record. -/
inductive Ev (ε : Type) where
  /-- A buffer was accepted. -/
  | accepted (data : Bytes)
  /-- The backend was given the pending buffer, took these bytes of it, and answered. -/
  | sent (bytes : Bytes) (answer : Answer ε ℕ)
  /-- The pending buffer is used up. -/
  | drained
  /-- The backend was given the caller's buffer, took these bytes of it, and answered. -/
  | unframed (bytes : Bytes) (answer : Answer ε ℕ)
  | finish (answer : Answer ε Unit)
  /-- The stream was reset; these bytes were still pending. -/
  | reset (code : ℕ) (dropped : Bytes)
  /-- The task was woken by itself. -/
  | woke
  deriving DecidableEq, Repr

structure Stream (T ε : Type) where
  inner : T
  pending : Option Bytes
  /-- The record, latest first. -/
  log : List (Ev ε)

namespace Stream

variable {T S R ε : Type}

def new (inner : T) : Stream T ε := ⟨inner, none, []⟩

def note (s : Stream T ε) (ev : Ev ε) : Stream T ε := { s with log := ev :: s.log }

/-- Backend sends in one poll. -/
def budget : ℕ := 32

def inconsistent : String := "QUIC send did not advance its buffer consistently"

def notReady : String := "send_data called without QUIC readiness"

/-- The loop of `poll_ready`, with this many sends left. -/
def sendLoop (A : Backend T ε) : ℕ → Stream T ε → Bytes → Poll (Except (StreamError ε) Unit) × Stream T ε
  | _, s, [] => (.ready (.ok ()), { s with pending := none }.note .drained)
  | 0, s, _ => (.pending, s.note .woke)
  | n + 1, s, buf =>
    let (k, answer, inner) := A.pollSend s.inner buf
    let left := buf.drop k
    let s := { s with inner := inner, pending := some left }.note (.sent (buf.take k) answer)
    match answer with
    | .pending => (.pending, s)
    | .err e => (.ready (.error (.backend e)), s)
    | .ok written =>
      if written = 0 ∨ buf.length - left.length ≠ written then (.ready (.error (.contract inconsistent)), s)
      else sendLoop A n s left

def pollReady (A : Backend T ε) (s : Stream T ε) : Poll (Except (StreamError ε) Unit) × Stream T ε :=
  match s.pending with
  | some buf => sendLoop A budget s buf
  | none => (.ready (.ok ()), s)

def sendData (s : Stream T ε) (data : Bytes) : Except (StreamError ε) Unit × Stream T ε :=
  if s.pending.isSome then (.error (.contract notReady), s)
  else (.ok (), { s with pending := some data })

def pollFinish (A : Backend T ε) (s : Stream T ε) : Poll (Except (StreamError ε) Unit) × Stream T ε :=
  whenOk (pollReady A s) fun _ s =>
    let (answer, inner) := A.pollFinish s.inner
    (answer.poll, { s with inner := inner }.note (.finish answer))

/-- `SendStreamUnframed::poll_send`, for a buffer of the caller. -/
def pollSend (A : Backend T ε) (s : Stream T ε) (buf : Bytes) : Poll (Except (StreamError ε) ℕ) × Stream T ε :=
  whenOk (pollReady A s) fun _ s =>
    let (k, answer, inner) := A.pollSend s.inner buf
    (answer.poll, { s with inner := inner }.note (.unframed (buf.take k) answer))

def reset (A : Backend T ε) (s : Stream T ε) (code : ℕ) : Stream T ε :=
  { s with pending := none, inner := A.reset s.inner code }.note (.reset code (s.pending.getD []))

/-- The pending buffer goes with the sending half. -/
def split (f : T → S × R) (s : Stream T ε) : Stream S ε × Stream R ε :=
  (⟨(f s.inner).1, s.pending, s.log⟩, new (f s.inner).2)

end Stream

/-! ## Sequences of operations -/

inductive Op where
  | sendData (data : Bytes)
  | pollReady
  | pollSend (buf : Bytes)
  | pollFinish
  | reset (code : ℕ)
  deriving DecidableEq, Repr

namespace Stream

variable {T ε : Type}

def step (A : Backend T ε) (s : Stream T ε) : Op → Stream T ε
  | .sendData data =>
    match s.sendData data with
    | (.ok (), s) => s.note (.accepted data)
    | (.error _, s) => s
  | .pollReady => (s.pollReady A).2
  | .pollSend buf => (s.pollSend A buf).2
  | .pollFinish => (s.pollFinish A).2
  | .reset code => s.reset A code

/-- What an operation returns; the number of `poll_send` is left out. -/
def result (A : Backend T ε) (s : Stream T ε) : Op → Poll (Except (StreamError ε) Unit)
  | .sendData data => .ready (s.sendData data).1
  | .pollReady => (s.pollReady A).1
  | .pollSend buf => (whenOk (s.pollSend A buf) fun _ s => (.ready (.ok ()), s)).1
  | .pollFinish => (s.pollFinish A).1
  | .reset _ => .ready (.ok ())

def run (A : Backend T ε) (s : Stream T ε) (ops : List Op) : Stream T ε := ops.foldl (step A) s

end Stream

end Netty.Quic
