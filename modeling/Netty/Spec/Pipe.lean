import Netty.Spec.Channel

/-!
# Request bodies of multiplexed connections

`PipeToSendStream` of `src/proto/http2.rs` and of `src/proto/http3/client.rs`: a task that
takes frames from a request body and hands them to a stream. What a stream answers to each
call is not up to the program, and what it was given is kept in the order it came.

* `H2.PipeToSendStream`: one chunk waits for capacity.
* `H3.PipeToSendStream`: a chunk is cut into pieces, and the declared length is counted.
* `H3.declareLength`: which length that is.
-/

namespace Netty

variable {β : Type} [LawfulBuf β]

/-- `Buf::copy_to_bytes`. -/
def copyToBytes (b : β) (n : ℕ) : Bytes × β := ((LawfulBuf.content b).take n, Buf.advance b n)

/-! ## HTTP/2 -/

namespace H2

/-- `SendStream::poll_reset`. -/
inductive ResetEv where
  | pending
  | reset (reason : ℕ)
  | err (reason : Option ℕ)
  deriving DecidableEq, Repr

/-- `SendStream::poll_capacity`. -/
inductive CapacityEv where
  | pending
  | granted (n : ℕ)
  | err (reason : Option ℕ)
  /-- The stream is no longer sending. -/
  | closed
  deriving DecidableEq, Repr

/-- What a stream was given. -/
inductive Given where
  | data (bytes : Bytes) (eos : Bool)
  | trailers (fields : HeaderMap)
  | reset (reason : ℕ)
  deriving DecidableEq

/-- The sending half of a stream. What is asked of its window has no other effect than on
what it answers. -/
structure SendStream where
  resets : Stream' ResetEv
  /-- What `capacity` answers. -/
  capacities : Stream' ℕ
  grants : Stream' CapacityEv
  /-- Whether data and trailers are taken. -/
  sends : Stream' (Except (Option ℕ) Unit)
  /-- What was taken, latest first. -/
  given : List Given

namespace SendStream

/-- A stream on which nothing was sent. -/
def fresh (resets : Stream' ResetEv) (capacities : Stream' ℕ) (grants : Stream' CapacityEv)
    (sends : Stream' (Except (Option ℕ) Unit)) : SendStream := ⟨resets, capacities, grants, sends, []⟩

def pollReset (tx : SendStream) : ResetEv × SendStream := (tx.resets.head, { tx with resets := tx.resets.tail })

def capacity (tx : SendStream) : ℕ × SendStream :=
  (tx.capacities.head, { tx with capacities := tx.capacities.tail })

def pollCapacity (tx : SendStream) : CapacityEv × SendStream := (tx.grants.head, { tx with grants := tx.grants.tail })

/-- Data or trailers are taken, or the call fails. -/
def give (tx : SendStream) (g : Given) : Except Error Unit × SendStream :=
  match tx.sends.head with
  | .ok () => (.ok (), { tx with sends := tx.sends.tail, given := g :: tx.given })
  | .error reason => (.error (.newBodyWrite (.h2 reason)), { tx with sends := tx.sends.tail })

def sendData (tx : SendStream) (bytes : Bytes) (eos : Bool) : Except Error Unit × SendStream :=
  tx.give (.data bytes eos)

def sendTrailers (tx : SendStream) (fields : HeaderMap) : Except Error Unit × SendStream := tx.give (.trailers fields)

def sendReset (tx : SendStream) (reason : ℕ) : SendStream := { tx with given := .reset reason :: tx.given }

/-- One round of `while capacity() == 0`. -/
def capacityRound (tx : SendStream) : Ctl (Except Error Unit) SendStream :=
  match tx.capacity with
  | (n, tx) =>
    if n ≠ 0 then .ret (.ready (.ok ()), tx)
    else
      match tx.pollCapacity with
      | (.pending, tx) => .ret (.pending, tx)
      | (.granted n, tx) => if n = 0 then .again tx else .ret (.ready (.ok ()), tx)
      | (.err reason, tx) => .ret (.ready (.error (.newBodyWrite (.h2 reason))), tx)
      | (.closed, tx) =>
        .ret (.ready (.error (.newBodyWrite (.text "send stream capacity unexpectedly closed"))), tx)

end SendStream

structure PipeToSendStream (β : Type) where
  stream : Stream' (BodyEv β)
  bodyTx : SendStream
  /-- A chunk that waits for capacity, and whether it is the last. -/
  bufferedData : Option (β × Bool)
  /-- What the body has answered so far, latest first. No program reads it. -/
  taken : List (BodyEv β)

namespace PipeToSendStream

def new (stream : Stream' (BodyEv β)) (bodyTx : SendStream) : PipeToSendStream β := ⟨stream, bodyTx, none, []⟩

def setTx (p : PipeToSendStream β) (tx : SendStream) : PipeToSendStream β := { p with bodyTx := tx }

def pollFrame (p : PipeToSendStream β) : BodyEv β × PipeToSendStream β :=
  (p.stream.head, { p with stream := p.stream.tail, taken := p.stream.head :: p.taken })

/-- Go round again after a chunk, or leave after the last one. -/
def afterData (p : PipeToSendStream β) (x : Except Error Unit × SendStream) (eos : Bool) :
    Ctl (Except Error Unit) (PipeToSendStream β) :=
  match x with
  | (.error e, tx) => .ret (.ready (.error e), p.setTx tx)
  | (.ok (), tx) => if eos then .ret (.ready (.ok ()), p.setTx tx) else .again (p.setTx tx)

/-- A chunk has waited for capacity. -/
def sendBuffered (fuel : ℕ) (p : PipeToSendStream β) (chunk : β) (eos : Bool) :
    Ctl (Except Error Unit) (PipeToSendStream β) :=
  Ctl.whenOk (within (loop SendStream.capacityRound fuel p.bodyTx) p.setTx) fun _ p =>
    let p := { p with bufferedData := none }
    p.afterData (p.bodyTx.sendData (LawfulBuf.content chunk) eos) eos

variable (reasonOf : ℕ → ℕ)

/-- The next frame of the body. An error of the body has a reason to reset the stream with. -/
def nextFrame (p : PipeToSendStream β) : Ctl (Except Error Unit) (PipeToSendStream β) :=
  match p.pollFrame with
  | (.pending, p) => .ret (.pending, p)
  | (.data chunk eos, p) =>
    if Buf.remaining chunk = 0 then p.afterData (p.bodyTx.sendData (LawfulBuf.content chunk) eos) eos
    else .again { p with bufferedData := some (chunk, eos) }
  | (.trailers fields, p) =>
    match p.bodyTx.sendTrailers fields with
    | (x, tx) => .ret (.ready x, p.setTx tx)
  | (.unknown, p) => .again p
  | (.err e, p) => .ret (.ready (.error (.newUserBody e)), p.setTx (p.bodyTx.sendReset (reasonOf e)))
  | (.done, p) =>
    match p.bodyTx.sendData [] true with
    | (x, tx) => .ret (.ready x, p.setTx tx)

def round (fuel : ℕ) (p : PipeToSendStream β) : Ctl (Except Error Unit) (PipeToSendStream β) :=
  match p.bodyTx.pollReset with
  | (.reset reason, tx) => .ret (.ready (.error (.newBodyWrite (.h2 (some reason)))), p.setTx tx)
  | (.err reason, tx) => .ret (.ready (.error (.newBodyWrite (.h2 reason))), p.setTx tx)
  | (.pending, tx) =>
    match p.bufferedData with
    | some (chunk, eos) => (p.setTx tx).sendBuffered fuel chunk eos
    | none => (p.setTx tx).nextFrame reasonOf

def poll (fuel : ℕ) (p : PipeToSendStream β) : Poll (Except Error Unit) × PipeToSendStream β :=
  loop (round reasonOf fuel) fuel p

end PipeToSendStream

end H2

/-! ## HTTP/3 -/

namespace H3

/-- Largest chunk handed to the sending half at once. -/
def chunkSize : ℕ := 16 * 1024

/-- What a stream was given. -/
inductive Given where
  | data (bytes : Bytes)
  | trailers (fields : HeaderMap)
  | fin
  | reset (code : ℕ)
  deriving DecidableEq

/-- `SendGuard`: the sending half of a stream. A poll that has to wait answers `none`. -/
structure SendGuard where
  stops : Stream' (Option (Except StreamError Unit))
  readies : Stream' (Option (Except StreamError Unit))
  sends : Stream' (Except StreamError Unit)
  finishes : Stream' (Option (Except StreamError Unit))
  finished : Bool
  code : ℕ
  /-- What was taken, latest first. -/
  given : List Given

namespace SendGuard

/-- A stream on which nothing was sent but the head. -/
def fresh (stops readies : Stream' (Option (Except StreamError Unit))) (sends : Stream' (Except StreamError Unit))
    (finishes : Stream' (Option (Except StreamError Unit))) (code : ℕ) : SendGuard :=
  ⟨stops, readies, sends, finishes, false, code, []⟩

def pollStopped (g : SendGuard) : Option (Except StreamError Unit) × SendGuard :=
  (g.stops.head, { g with stops := g.stops.tail })

def pollReady (g : SendGuard) : Option (Except StreamError Unit) × SendGuard :=
  (g.readies.head, { g with readies := g.readies.tail })

/-- `start_send_data` and `start_send_trailers`. -/
def start (g : SendGuard) (x : Given) : Except StreamError Unit × SendGuard :=
  match g.sends.head with
  | .ok () => (.ok (), { g with sends := g.sends.tail, given := x :: g.given })
  | .error e => (.error e, { g with sends := g.sends.tail })

def pollFinish (g : SendGuard) : Option (Except StreamError Unit) × SendGuard :=
  let g' := { g with finishes := g.finishes.tail }
  match g.finishes.head with
  | some (.ok ()) => (some (.ok ()), { g' with given := .fin :: g.given })
  | x => (x, g')

/-- `Drop for SendGuard`. -/
def drop (g : SendGuard) : SendGuard := if g.finished then g else { g with given := .reset g.code :: g.given }

end SendGuard

/-- An answer of `poll_stopped` as that of a task. -/
def stoppedResult : Option (Except StreamError Unit) → Poll (Except Error Unit)
  | none => .pending
  | some (.ok ()) => .ready (.ok ())
  | some (.error e) => .ready (.error (.newH3 (.h3 e)))

/-- An error of the stream, unless the peer has ended it. -/
def streamResult : StreamError → Except Error Unit
  | .remoteTerminate _ => .ok ()
  | e => .error (.newH3 (.h3 e))

/-- Counts `size` against the declared length. -/
def consumeLength (remaining : Option ℕ) (size : ℕ) : Except String (Option ℕ) :=
  match remaining with
  | none => .ok none
  | some left => if size ≤ left then .ok (some (left - size)) else .error "body exceeds content-length"

/-- `str::trim_matches` with the bytes that are trimmed. -/
def trimMatches (p : UInt8 → Bool) (s : Bytes) : Bytes := ((s.dropWhile p).reverse.dropWhile p).reverse

inductive ParseIntError where
  | empty | invalidDigit | posOverflow
  deriving DecidableEq, Repr

def ParseIntError.text : ParseIntError → String
  | .empty => "cannot parse integer from empty string"
  | .invalidDigit => "invalid digit found in string"
  | .posOverflow => "number too large to fit in target type"

/-- The loop of `u64::from_str`. It leaves out the checks where they cannot fail, for up to sixteen digits. -/
def parseDigits : ℕ → Bytes → Except ParseIntError ℕ
  | result, [] => .ok result
  | result, b :: rest =>
    if 48 ≤ b && b ≤ 57 then
      match checkedMul result 10 with
      | none => .error .posOverflow
      | some mul =>
        match checkedAdd mul (b - 48).toNat with
        | none => .error .posOverflow
        | some result => parseDigits result rest
    else .error .invalidDigit

/-- `u64::from_str`: a plus sign may stand before the digits. -/
def parseU64 : Bytes → Except ParseIntError ℕ
  | [] => .error .empty
  | b :: rest =>
    if b = 43 || b = 45 then
      if rest = [] then .error .invalidDigit
      else if b = 43 then parseDigits 0 rest
      else parseDigits 0 (b :: rest)
    else parseDigits 0 (b :: rest)

def contentLengthItem (length : Option ℕ) (item : Bytes) : Except Error (Option ℕ) :=
  let item := trimMatches (fun b => b = 32 || b = 9) item
  if item = [] || !item.all (fun b => 48 ≤ b && b ≤ 57) then .error (.newH3 (.text "invalid content-length"))
  else
    match parseU64 item, length with
    | .error e, _ => .error (.newH3 (.text e.text))
    | .ok parsed, none => .ok (some parsed)
    | .ok parsed, some n =>
      if n ≠ parsed then .error (.newH3 (.text "conflicting content-length")) else .ok (some parsed)

def contentLengthLine (length : Option ℕ) (value : HeaderValue) : Except Error (Option ℕ) :=
  match value.toStr with
  | none => .error (.newH3 (.text "failed to convert header to a str"))
  | some line => (splitComma line).foldlM contentLengthItem length

/-- `content_length`: every field, and no two that differ. -/
def contentLength (headers : HeaderMap) : Except Error (Option ℕ) :=
  (headers.getAll .contentLength).foldlM contentLengthLine none

def methodHasDefinedPayloadSemantics : Method → Bool
  | .get | .head | .delete | .connect | .options => false
  | _ => true

def setContentLengthIfMissing (headers : HeaderMap) (len : ℕ) : HeaderMap :=
  if headers.containsKey .contentLength then headers else headers.insert .contentLength (.fromU64 len)

/-- A request that does not say how long its body is says so if the body knows. -/
def chooseLength (connect : Bool) (method : Method) (headers : HeaderMap) (sizeHint length : Option ℕ) :
    HeaderMap × Option ℕ :=
  if length = none && !connect then
    match sizeHint with
    | some size =>
      if size ≠ 0 || methodHasDefinedPayloadSemantics method then
        (setContentLengthIfMissing headers size, some size)
      else (headers, some size)
    | none => (headers, none)
  else (headers, length)

/-- The part of `request` that settles the length: the fields that are sent, and the length the
body is held to. -/
def declareLength (connect : Bool) (method : Method) (headers : HeaderMap) (body : RequestBody β) :
    Except Error (HeaderMap × Option ℕ) :=
  match contentLength headers with
  | .error e => .error (.newUserInvalidRequest (.kind e.kind))
  | .ok length =>
    let x := chooseLength connect method headers body.sizeHint length
    if body.isEndStream && x.2.any (· ≠ 0) then .error (.newUserBodyText "body shorter than content-length")
    else .ok x

structure PipeToSendStream (β : Type) where
  send : SendGuard
  body : Stream' (BodyEv β)
  data : Option β
  remaining : Option ℕ
  trailersSent : Bool
  finishing : Bool
  /-- What the body has answered so far, latest first. No program reads it. -/
  taken : List (BodyEv β)

namespace PipeToSendStream

def new (send : SendGuard) (body : Stream' (BodyEv β)) (remaining : Option ℕ) : PipeToSendStream β :=
  ⟨send, body, none, remaining, false, false, []⟩

def setSend (p : PipeToSendStream β) (g : SendGuard) : PipeToSendStream β := { p with send := g }

def pollFrame (p : PipeToSendStream β) : BodyEv β × PipeToSendStream β :=
  (p.body.head, { p with body := p.body.tail, taken := p.body.head :: p.taken })

/-- "body shorter than content-length" -/
def short (p : PipeToSendStream β) : Bool :=
  match p.remaining with
  | some n => n ≠ 0
  | none => false

def failBody (p : PipeToSendStream β) (reason : String) : Ctl (Except Error Unit) (PipeToSendStream β) :=
  .ret (.ready (.error (.newUserBodyText reason)), p)

/-- FIN is submitted, and what remains is that it is acknowledged. -/
def finish (p : PipeToSendStream β) : Ctl (Except Error Unit) (PipeToSendStream β) :=
  match p.send.pollFinish with
  | (none, g) => .ret (.pending, p.setSend g)
  | (some (.error e), g) => .ret (.ready (streamResult e), p.setSend g)
  | (some (.ok ()), g) =>
    match { g with finished := true }.pollStopped with
    | (x, g) => .ret (stoppedResult x, p.setSend g)

def nextFrame (p : PipeToSendStream β) : Ctl (Except Error Unit) (PipeToSendStream β) :=
  match p.pollFrame with
  | (.pending, p) => .ret (.pending, p)
  | (.err e, p) => .ret (.ready (.error (.newUserBody e)), p)
  | (.done, p) => if p.short then p.failBody "body shorter than content-length" else .again { p with finishing := true }
  | (.data chunk _, p) =>
    if p.trailersSent then p.failBody "body frame after trailers"
    else
      match consumeLength p.remaining (Buf.remaining chunk) with
      | .ok remaining => .again { p with remaining := remaining, data := some chunk }
      | .error reason => p.failBody reason
  | (.trailers fields, p) =>
    if p.trailersSent then p.failBody "body frame after trailers"
    else if p.short then p.failBody "body shorter than content-length"
    else
      match p.send.start (.trailers fields) with
      | (.ok (), g) => .again { p.setSend g with trailersSent := true }
      | (.error e, g) => .ret (.ready (streamResult e), p.setSend g)
  | (.unknown, p) => if p.trailersSent then p.failBody "body frame after trailers" else .again p

/-- The stream is ready for data: the next piece of the chunk, or the next frame. -/
def proceed (p : PipeToSendStream β) : Ctl (Except Error Unit) (PipeToSendStream β) :=
  match p.data with
  | some data =>
    if Buf.hasRemaining data then
      let (bytes, data) := copyToBytes data (min (Buf.remaining data) chunkSize)
      let p := { p with data := some data }
      match p.send.start (.data bytes) with
      | (.ok (), g) => .again (p.setSend g)
      | (.error e, g) => .ret (.ready (streamResult e), p.setSend g)
    else { p with data := none }.nextFrame
  | none => p.nextFrame

def round (p : PipeToSendStream β) : Ctl (Except Error Unit) (PipeToSendStream β) :=
  if p.finishing then p.finish
  else
    match p.send.pollStopped with
    | (some (.ok ()), g) => .ret (.ready (.ok ()), p.setSend g)
    | (some (.error e), g) => .ret (.ready (.error (.newH3 (.h3 e))), p.setSend g)
    | (none, g) =>
      match g.pollReady with
      | (none, g) => .ret (.pending, p.setSend g)
      | (some (.error e), g) => .ret (.ready (streamResult e), p.setSend g)
      | (some (.ok ()), g) => (p.setSend g).proceed

/-- At most 32 rounds, and then the task is scheduled again. -/
def poll (p : PipeToSendStream β) : Poll (Except Error Unit) × PipeToSendStream β :=
  if p.send.finished then
    match p.send.pollStopped with
    | (x, g) => (stoppedResult x, p.setSend g)
  else
    match loop round 32 p with
    | (.busy, p) => (.pending, p)
    | x => x

def drop (p : PipeToSendStream β) : SendGuard := p.send.drop

end PipeToSendStream

end H3

end Netty
