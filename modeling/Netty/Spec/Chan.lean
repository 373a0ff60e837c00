import Netty.Spec.Decode

/-!
# The channel of a response body

`src/body/chan.rs`, and the HTTP/1 part of `src/body/incoming.rs`. The connection
holds the `Sender`, the user the `Receiver`; every operation of either takes the
lock of the shared state, so it is one step. Wake-ups are left out.
-/

namespace Netty

def DecodedLength.subIf (len : DecodedLength) (amt : ℕ) : DecodedLength :=
  match len with
  | .exact known => .exact (known - amt)
  | .chunked => .chunked
  | .closeDelimited => .closeDelimited

/-- What a poll of a body answers. -/
inductive BodyItem where
  | data (bytes : Bytes)
  | trailers (fields : HeaderMap)
  | error (e : Error)
  | ended
  deriving DecidableEq

structure Chan where
  item : Option (Except Error Bytes)
  pendingError : Option Error
  trailers : Option HeaderMap
  senderOpen : Bool
  receiverOpen : Bool
  want : Bool
  /-- `Sender::trailers_sent` -/
  trailersSent : Bool
  /-- `Receiver::terminated` -/
  terminated : Bool
  contentLength : DecodedLength
  /-- All that the polls of the body have answered, latest first. No program reads it. -/
  seen : List BodyItem

namespace Chan

/-- `Incoming::h1`. -/
def new (contentLength : DecodedLength) (wanter : Bool) : Chan where
  item := none
  pendingError := none
  trailers := none
  senderOpen := true
  receiverOpen := true
  want := !wanter
  trailersSent := false
  terminated := false
  contentLength := contentLength
  seen := []

/-! ## The sender -/

def pollReady (c : Chan) : Poll (Except Error Unit) :=
  if !c.receiverOpen then .ready (.error .newClosed)
  else if c.want && c.item.isNone && c.pendingError.isNone then .ready (.ok ())
  else .pending

/-- A chunk that is not accepted comes back. -/
def sendData (c : Chan) (chunk : Bytes) : Except Bytes Unit × Chan :=
  if !c.receiverOpen || !c.want || c.item.isSome || c.pendingError.isSome then (.error chunk, c)
  else (.ok (), { c with item := some (.ok chunk) })

def sendTrailers (c : Chan) (trailers : HeaderMap) : Except (Option HeaderMap) Unit × Chan :=
  if c.trailersSent then (.error none, c)
  else
    let c := { c with trailersSent := true }
    if !c.receiverOpen then (.error (some trailers), c) else (.ok (), { c with trailers := some trailers })

/-- An error does not displace data that was already accepted. -/
def sendError (c : Chan) (e : Error) : Chan :=
  if !c.receiverOpen then c
  else if c.item.isNone then { c with item := some (.error e) }
  else if c.pendingError.isNone then { c with pendingError := some e }
  else c

def dropSender (c : Chan) : Chan := { c with senderOpen := false }

/-! ## The receiver -/

def pollNext (c : Chan) : Poll (Option (Except Error Bytes)) × Chan :=
  if c.terminated then (.ready none, c)
  else
    let c := { c with want := true }
    match c.item, c.pendingError with
    | some item, _ => (.ready (some item), { c with item := none })
    | none, some e => (.ready (some (.error e)), { c with pendingError := none })
    | none, none => if c.senderOpen then (.pending, c) else (.ready none, { c with terminated := true })

def takeTrailers (c : Chan) : Option HeaderMap × Chan := (c.trailers, { c with trailers := none })

/-- `Incoming::poll_frame`: the item it answers with, unless it is refused. -/
def pollFrame (c : Chan) : Poll BodyItem × Chan :=
  whenReady c.pollNext fun next c =>
    match next with
    | some (.ok chunk) => (.ready (.data chunk), { c with contentLength := c.contentLength.subIf chunk.length })
    | some (.error e) => (.ready (.error e), c)
    | none =>
      match c.takeTrailers with
      | (some fields, c) => (.ready (.trailers fields), c)
      | (none, c) => (.ready .ended, c)

/-- A poll by the user who holds the body. -/
def poll (c : Chan) : Chan :=
  if !c.receiverOpen then c
  else
    match c.pollFrame with
    | (.ready i, c) => { c with seen := i :: c.seen }
    | (_, c) => c

def dropReceiver (c : Chan) : Chan := { c with receiverOpen := false }

end Chan

end Netty
