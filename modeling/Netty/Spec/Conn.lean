import Netty.Spec.Channel

/-!
# The connection

`src/proto/http1/conn.rs`, for a client. Debug assertions are left out: they are the
conditions under which the dispatcher calls these functions.

* `State`: where the connection is in reading a response and in writing a request.
* `tryKeepAlive`: both done, and the connection is idle again or closed.
* `pollReadHead`, `pollReadBody`, `pollReadKeepAlive`: the reading side.
* `writeHead`, `writeBody`, `endBody`, `pollFlush`: the writing side.

`Ev` records what the connection does. The program does not read its log.
-/

namespace Netty

/-! ## State -/

inductive KA where
  | idle | busy | disabled
  deriving DecidableEq, Repr

inductive Reading where
  | init
  | continue_ (d : Decoder)
  | body (d : Decoder)
  | keepAlive
  | closed
  deriving DecidableEq, Repr

inductive Writing where
  | init
  | body (e : Encoder)
  | keepAlive
  | closed
  deriving DecidableEq

/-- What happens on a connection. -/
inductive Ev where
  /-- The request with this number was taken off the channel. -/
  | took (id : ℕ)
  /-- A request head was encoded: the version of the remote as it is known, the head as
  it was given, its encoder, and the received bytes that were still unread. -/
  | wroteHead (remote : Version) (head : RequestHead) (encoder : Encoder) (unread : Bytes)
  /-- The write buffer has gained these bytes of a request body. -/
  | wroteBody (bytes : Bytes)
  /-- A final response head was parsed. -/
  | gotHead (msg : ParsedMessage)
  /-- It was given to the callback of this request: whether its caller is gone, and the head that the callback
  has got. -/
  | delivered (id : ℕ) (gone : Bool) (head : Option ResponseHead)
  /-- A call of the decoder for this body has left it like this. -/
  | decoded (body : ℕ) (d : Decoder)
  /-- "incoming body unexpectedly ended" -/
  | unexpectedEnd
  /-- Reading or writing was closed. -/
  | closed
  /-- A flush was completed, or refused by the transport. -/
  | flushed (done : Bool)
  /-- `want` was signalled, with a request already on its way or not. -/
  | wanted (early : Bool)
  /-- The task has woken itself. -/
  | woke

structure State where
  allowHalfClose : Bool
  cachedHeaders : Option HeaderMap
  error : Option Error
  keepAlive : KA
  method : Option Method
  h1ParserConfig : ParserConfig
  h1MaxHeaders : Option ℕ
  h1MaxHeaderSize : Option ℕ
  h09Responses : Bool
  onInformational : Bool
  notifyRead : Bool
  reading : Reading
  writing : Writing
  /-- An upgrade is expected. -/
  upgrade : Bool
  version : Version
  allowTrailerFields : Bool
  /-- The interim heads given to callbacks. -/
  informed : List ResponseHead
  /-- What has happened, latest first. -/
  log : List Ev

namespace State

def new : State where
  allowHalfClose := false
  cachedHeaders := none
  error := none
  keepAlive := .busy
  method := none
  h1ParserConfig := ⟨false, false, false⟩
  h1MaxHeaders := none
  h1MaxHeaderSize := none
  h09Responses := false
  onInformational := false
  notifyRead := false
  reading := .init
  writing := .init
  upgrade := false
  version := .http11
  allowTrailerFields := false
  informed := []
  log := []

def note (s : State) (ev : Ev) : State := { s with log := ev :: s.log }

def close (s : State) : State :=
  { s with reading := .closed, writing := .closed, keepAlive := .disabled }.note .closed

def closeRead (s : State) : State := { s with reading := .closed, keepAlive := .disabled }.note .closed

def closeWrite (s : State) : State := { s with writing := .closed, keepAlive := .disabled }.note .closed

def wantsKeepAlive (s : State) : Bool := s.keepAlive ≠ .disabled

def isIdle (s : State) : Bool := s.keepAlive = .idle

def busy (s : State) : State := if s.keepAlive = .disabled then s else { s with keepAlive := .busy }

def disableKeepAlive (s : State) : State := { s with keepAlive := .disabled }

/-- `keep_alive &= enabled`. -/
def andKeepAlive (s : State) (enabled : Bool) : State := if enabled then s else { s with keepAlive := .disabled }

/-- The exchange is over: wait for the next request. The source asks whether the state
is idle, which it just made it. -/
def idle (s : State) : State :=
  { s with method := none, keepAlive := .idle, reading := .init, writing := .init, notifyRead := true }

def tryKeepAlive (s : State) : State :=
  match s.reading, s.writing with
  | .keepAlive, .keepAlive => if s.keepAlive = .busy then s.idle else s.close
  | .closed, .keepAlive => s.close
  | .keepAlive, .closed => s.close
  | _, _ => s

end State

def Error.isParse (e : Error) : Bool :=
  match e.kind with
  | .parse _ => true
  | _ => false

def HeaderValue.keepAlive : HeaderValue := ⟨ascii "keep-alive", by decide⟩

def HeaderValue.close : HeaderValue := ⟨ascii "close", by decide⟩

structure Conn (β : Type) [LawfulBuf β] where
  io : Buffered (EncodedBuf β)
  state : State

structure Http1Options where
  h09Responses : Bool
  h1Writev : Option Bool
  h1MaxHeaders : Option ℕ
  h1MaxHeaderSize : Option ℕ
  h1ReadBufExactSize : Option ℕ
  h1MaxBufSize : Option ℕ
  h1ParserConfig : ParserConfig

structure Wants where
  expect : Bool
  upgrade : Bool

namespace Conn

variable {β : Type} [LawfulBuf β]

def new (io : Transport) (room : Stream' ℕ) : Conn β := ⟨Buffered.new io room, State.new⟩

/-- The options of a connection, set before it is used. -/
def configure (opts : Http1Options) (c : Conn β) : Conn β :=
  let io := match opts.h1Writev with
    | some writev => c.io.setWriteStrategy (if writev then .queue else .flatten)
    | none => c.io
  let io := (opts.h1ReadBufExactSize.map io.setReadBufExactSize).getD io
  let io := (opts.h1MaxBufSize.map io.setMaxBufSize).getD io
  { c with
    io := io
    state := { c.state with
      h1ParserConfig := opts.h1ParserConfig
      h1MaxHeaders := opts.h1MaxHeaders
      h1MaxHeaderSize := opts.h1MaxHeaderSize
      h09Responses := opts.h09Responses } }

def modify (c : Conn β) (f : State → State) : Conn β := { c with state := f c.state }

def note (c : Conn β) (ev : Ev) : Conn β := c.modify (·.note ev)

def isReadClosed (c : Conn β) : Bool := c.state.reading = .closed

def isWriteClosed (c : Conn β) : Bool := c.state.writing = .closed

def canReadHead (c : Conn β) : Bool := c.state.reading = .init && c.state.writing ≠ .init

def canReadBody (c : Conn β) : Bool :=
  match c.state.reading with
  | .body _ | .continue_ _ => true
  | _ => false

def shouldErrorOnEof (c : Conn β) : Bool := !c.state.isIdle

def closeRead (c : Conn β) : Conn β := c.modify State.closeRead

def closeWrite (c : Conn β) : Conn β := c.modify State.closeWrite

/-! ## Idle connections -/

/-- Reading may have stopped before the transport was exhausted: look once more, or
have the dispatcher look. -/
def maybeNotify (c : Conn β) : Conn β :=
  if c.state.reading ≠ .init then c
  else
    match c.state.writing with
    | .body _ => c
    | _ =>
      if c.io.readBlocked then c
      else if c.io.readBuf ≠ [] then c.modify ({ · with notifyRead := true })
      else
        match c.io.pollReadFromIo with
        | (.ready (.ok n), io) =>
          let c := { c with io := io }
          if n = 0 then (if c.state.isIdle then c.modify State.close else c.closeRead)
          else c.modify ({ · with notifyRead := true })
        | (.ready (.error e), io) =>
          { c with io := io }.modify fun s => { s.close with error := some (.newIo e), notifyRead := true }
        | (_, io) => { c with io := io }

def tryKeepAlive (c : Conn β) : Conn β := (c.modify State.tryKeepAlive).maybeNotify

/-! ## Reading a head -/

def parseContext (c : Conn β) : ParseContext where
  reqMethod := c.state.method
  h1ParserConfig := c.state.h1ParserConfig
  h1MaxHeaders := c.state.h1MaxHeaders
  h1MaxHeaderSize := c.state.h1MaxHeaderSize
  h09Responses := c.state.h09Responses
  onInformational := c.state.onInformational

/-- `Buffered::parse` on the connection's buffers. -/
def parse (hp : Httparse) (fuel : ℕ) (c : Conn β) : Poll (Except Error ParsedMessage) × Conn β :=
  within (HeadReader.parse hp c.parseContext fuel ⟨c.io, c.state.cachedHeaders, c.state.informed⟩) fun r =>
    { c with io := r.io, state := { c.state with cachedHeaders := r.cachedHeaders, informed := r.informed } }

def h2Preface : Bytes := ascii "PRI * HTTP/2.0\r\n\r\nSM\r\n\r\n"

def hasH2Prefix (c : Conn β) : Bool := h2Preface.isPrefixOf c.io.readBuf

/-- Line ends in front of a message. -/
def consumeLeadingLines (c : Conn β) : Conn β :=
  { c with io := { c.io with readBuf := c.io.readBuf.dropWhile fun b => b = cr || b = lf } }

/-- A client has no answer to a bad message. -/
def onParseError (c : Conn β) (e : Error) : Error :=
  if c.state.writing = .init && c.hasH2Prefix then .newVersionH2 else e

/-- The end of the stream is an error only in the middle of a message. -/
def onReadHeadError (c : Conn β) (e : Error) :
    Poll (Option (Except Error (ResponseHead × DecodedLength × Wants))) × Conn β :=
  let mustError := c.shouldErrorOnEof
  let c := c.closeRead.consumeLeadingLines
  if e.isParse || c.io.readBuf ≠ [] || mustError then (.ready (some (.error (c.onParseError e))), c)
  else (.ready none, c.closeWrite)

/-- Where reading goes behind a head. -/
def readingOf (s : State) (msg : ParsedMessage) : Reading :=
  let d := Decoder.new msg.decode s.h1MaxHeaders s.h1MaxHeaderSize
  if msg.decode = .zero then .keepAlive
  else if msg.expectContinue && (msg.head.version ≠ .http09 && msg.head.version ≠ .http10) then .continue_ d
  else .body d

/-- `te == "trailers"`. -/
def allowsTrailers (headers : HeaderMap) : Bool :=
  (headers.get .te).any fun v => v.bytes = ascii "trailers"

def gotHead (msg : ParsedMessage) (s : State) : State :=
  let s := { s with h09Responses := false, onInformational := false }
  let s := s.busy.andKeepAlive msg.keepAlive
  let s := { s with version := msg.head.version }
  { s with reading := readingOf s msg, allowTrailerFields := allowsTrailers msg.head.headers }.note (.gotHead msg)

def wantsOf (msg : ParsedMessage) : Wants :=
  ⟨msg.decode ≠ .zero && msg.expectContinue && (msg.head.version ≠ .http09 && msg.head.version ≠ .http10),
    msg.wantsUpgrade⟩

/-- After the head of a message without a body the response is complete. -/
def acceptHead (msg : ParsedMessage) (c : Conn β) : Conn β :=
  let c := c.modify (gotHead msg)
  if msg.decode = .zero then c.tryKeepAlive else c

def pollReadHead (hp : Httparse) (fuel : ℕ) (c : Conn β) :
    Poll (Option (Except Error (ResponseHead × DecodedLength × Wants))) × Conn β :=
  whenReady (c.parse hp fuel) fun res c =>
    match res with
    | .error e => c.onReadHeadError e
    | .ok msg => (.ready (some (.ok (msg.head, msg.decode, wantsOf msg))), c.acceptHead msg)

/-! ## Reading a body -/

/-- Where reading goes behind a frame, if it leaves the body; and what is handed out. -/
def afterFrame (d : Decoder) (res : Except IoError Frame) :
    Option Reading × Option (Except IoError Frame) × Bool :=
  match res with
  | .ok (.data slice) =>
    if d.isEof then (some .keepAlive, if slice ≠ [] then some res else none, false)
    -- the branch that reports "incoming body unexpectedly ended"
    else if slice = [] then (some .closed, none, true)
    else (none, some res, false)
  | .ok (.trailers _) => (some .keepAlive, some res, false)
  | .error _ => (some .closed, some res, false)

/-- The decoder for body number `body` is called. -/
def decodeBody (hp : Httparse) (fuel body : ℕ) (d : Decoder) (c : Conn β) :
    Poll (Except IoError Frame) × Conn β × Decoder :=
  within (d.decode hp fuel c.io) fun (d, io) =>
    ({ c with io := io, state := { c.state with reading := .body d } }.note (.decoded body d), d)

def pollReadBodyFrom (hp : Httparse) (fuel body : ℕ) (d : Decoder) (c : Conn β) :
    Poll (Option (Except IoError Frame)) × Conn β :=
  match c.decodeBody hp fuel body d with
  | (.ready res, c, d) =>
    match afterFrame d res with
    | (none, frame, _) => (.ready frame, c)
    | (some reading, frame, unexpected) =>
      let c := if unexpected then c.note .unexpectedEnd else c
      (.ready frame, (c.modify ({ · with reading := reading })).tryKeepAlive)
  | (.pending, c, _) => (.pending, c)
  | (.busy, c, _) => (.busy, c)
  -- the panic unwinds through the task, which reads no more
  | (.panicked, c, _) => (.panicked, c.modify ({ · with reading := .closed }))

/-- The interim response that a server sends before it reads the body it was told of. -/
def continueLine : Bytes := ascii "HTTP/1.1 100 Continue\r\n\r\n"

def pollReadBody (hp : Httparse) (fuel body : ℕ) (c : Conn β) :
    Poll (Option (Except IoError Frame)) × Conn β :=
  match c.state.reading with
  | .body d => c.pollReadBodyFrom hp fuel body d
  | .continue_ d =>
    let c := if c.state.writing = .init then
        { c with io := { c.io with writeBuf := c.io.writeBuf.extendHeaders continueLine } }
      else c
    c.pollReadBodyFrom hp fuel body d
  | _ => (.panicked, c)

/-- Read a body that was held back. -/
def unhold (c : Conn β) : Conn β :=
  match c.state.reading with
  | .continue_ d => c.modify ({ · with reading := .body d })
  | _ => c

def closeReadUnlessDone (c : Conn β) : Conn β :=
  match c.state.reading with
  | .init | .keepAlive => c
  | _ => c.closeRead

/-- Nobody reads the body: take one more look at it, and give up on the connection if
that does not end it. -/
def pollDrainOrCloseRead (hp : Httparse) (fuel body : ℕ) (c : Conn β) : Poll Unit × Conn β :=
  match c.unhold.pollReadBody hp fuel body with
  | (.ready _, c) => (.ready (), c.closeReadUnlessDone)
  | (.pending, c) => (.ready (), c.closeReadUnlessDone)
  | (.busy, c) => (.busy, c)
  | (.panicked, c) => (.panicked, c)

/-! ## Between messages -/

def wantsReadAgain (c : Conn β) : Bool × Conn β :=
  (c.state.notifyRead, c.modify ({ · with notifyRead := false }))

def isMidMessage (c : Conn β) : Bool := !(c.state.reading = .init && c.state.writing = .init)

def forceIoRead (c : Conn β) : Poll (Except IoError ℕ) × Conn β :=
  whenReady (within c.io.pollReadFromIo fun io => { c with io := io }) fun res c =>
    match res with
    | .ok n => (.ready (.ok n), c)
    | .error e => (.ready (.error e), c.modify State.close)

/-- A read, with its errors turned into the connection's. -/
def readMore (c : Conn β) (k : ℕ → Conn β → Poll (Except Error Unit) × Conn β) : Poll (Except Error Unit) × Conn β :=
  whenReady c.forceIoRead fun res c =>
    match res with
    | .ok n => k n c
    | .error e => (.ready (.error (.newIo e)), c)

/-- Between messages nothing may arrive. -/
def requireEmptyRead (c : Conn β) : Poll (Except Error Unit) × Conn β :=
  if c.io.readBuf ≠ [] then (.ready (.error .newUnexpectedMessage), c)
  else
    c.readMore fun n c =>
      if n = 0 then
        ((if c.shouldErrorOnEof then .ready (.error .newIncomplete) else .ready (.ok ())), c.closeRead)
      else (.ready (.error .newUnexpectedMessage), c)

def midMessageDetectEof (c : Conn β) : Poll (Except Error Unit) × Conn β :=
  if c.state.allowHalfClose || c.io.readBuf ≠ [] then (.pending, c)
  else
    c.readMore fun n c =>
      if n = 0 then (.ready (.error .newIncomplete), c.closeRead) else (.ready (.ok ()), c)

def pollReadKeepAlive (c : Conn β) : Poll (Except Error Unit) × Conn β :=
  if c.isReadClosed then (.pending, c)
  else if c.isMidMessage then c.midMessageDetectEof
  else c.requireEmptyRead

/-! ## Writing -/

def canWriteHead (c : Conn β) : Bool :=
  c.state.reading ≠ .closed && (c.state.writing = .init && c.io.canHeadersBuf)

def canWriteBody (c : Conn β) : Bool :=
  match c.state.writing with
  | .body _ => true
  | _ => false

def canBufferBody (c : Conn β) : Bool := c.io.canBuffer

def hasBufferedWrite (c : Conn β) : Bool := c.io.hasBufferedWrite

/-- An HTTP/1.0 remote keeps the connection only if it is asked to. -/
def fixKeepAlive (s : State) (head : RequestHead) : State × RequestHead :=
  if (head.headers.getAll .connection).any connectionKeepAlive then (s, head)
  else
    match head.version with
    | .http10 => (s.disableKeepAlive, head)
    | .http11 =>
      if s.wantsKeepAlive then (s, { head with headers := head.headers.append .connection HeaderValue.keepAlive })
      else (s, head)
    | _ => (s, head)

/-- The head for the version of the remote. -/
def enforceVersion (s : State) (head : RequestHead) : State × RequestHead :=
  match s.version with
  | .http10 =>
    let (s, head) := fixKeepAlive s head
    (s, { head with version := .http10 })
  | .http11 =>
    if s.keepAlive = .disabled && !connectionAnyClose head.headers then
      (s, { head with headers := head.headers.append .connection HeaderValue.close })
    else (s, head)
  | _ => (s, head)

def encodeHead (c : Conn β) (head : RequestHead) (body : Option BodyLength) : Encoder × Conn β :=
  let given := head
  let s := c.state.busy
  let s := if connectionAnyClose head.headers then s.disableKeepAlive else s
  let (s, head) := enforceVersion s head
  let (encoder, bytes) := Client.encode head body
  let s := { s with
    method := some head.subject.method
    cachedHeaders := some .empty
    onInformational := head.extensions.informational }
  (encoder,
    { c with
      io := { c.io with writeBuf := c.io.writeBuf.extendHeaders bytes }
      state := s.note (.wroteHead c.state.version given encoder c.io.readBuf) })

/-- Where writing goes behind a message. -/
def writingDone (e : Encoder) : Writing := if e.isLast then .closed else .keepAlive

def writeHead (c : Conn β) (head : RequestHead) (body : Option BodyLength) : Conn β :=
  let (encoder, c) := c.encodeHead head body
  c.modify ({ · with writing := if !encoder.isEof then .body encoder else writingDone encoder })

def bufferBody (c : Conn β) (buf : EncodedBuf β) : Conn β :=
  { c with io := c.io.buffer buf }.note (.wroteBody (c.io.writeBuf.gained (c.io.buffer buf).writeBuf))

def setWriting (c : Conn β) (w : Writing) : Conn β := c.modify ({ · with writing := w })

def writeBody (c : Conn β) (chunk : β) : Conn β :=
  match c.state.writing with
  | .body e =>
    let (buf, e) := e.encode chunk
    (c.bufferBody buf).setWriting (if !e.isEof then .body e else writingDone e)
  | _ => c

def writeTrailers (c : Conn β) (trailers : HeaderMap) : Conn β :=
  match c.state.writing with
  | .body e =>
    match e.encodeTrailers trailers with
    | some buf => (c.bufferBody buf).setWriting (if e.isLast || e.isCloseDelimited then .closed else .keepAlive)
    | none => c
  | _ => c

/-- The piece and the end of the body at once; `Encoder.encodeAndEnd` buffers it. -/
def writeBodyAndEnd (c : Conn β) (chunk : β) : Conn β :=
  match c.state.writing with
  | .body e =>
    let (canKeepAlive, w) := e.encodeAndEnd chunk c.io.writeBuf
    ({ c with io := { c.io with writeBuf := w } }.note (.wroteBody (c.io.writeBuf.gained w))).setWriting
      (if canKeepAlive then .keepAlive else .closed)
  | _ => c

def endBody (c : Conn β) : Except Error Unit × Conn β :=
  match c.state.writing with
  | .body e =>
    match e.end' (β := β) with
    | .ok none => (.ok (), c.setWriting (if e.isLast || e.isCloseDelimited then .closed else .keepAlive))
    | .ok (some buf) =>
      (.ok (), (c.bufferBody buf).setWriting (if e.isLast || e.isCloseDelimited then .closed else .keepAlive))
    | .error n => (.error (Error.newBodyWriteAborted.with (.notEof n)), c.setWriting .closed)
  | _ => (.ok (), c)

def pollFlush (c : Conn β) : Poll (Except IoError Unit) × Conn β :=
  match within c.io.pollFlush fun io => { c with io := io } with
  | (.ready (.ok ()), c) => (.ready (.ok ()), (c.note (.flushed true)).tryKeepAlive)
  | (.pending, c) => (.pending, c.note (.flushed false))
  | x => x

def pollShutdown (c : Conn β) : Poll (Except IoError Unit) × Conn β :=
  within c.io.pollShutdown fun io => { c with io := io }

/-! ## The rest -/

def takeError (c : Conn β) : Except Error Unit × Conn β :=
  match c.state.error with
  | some e => (.error e, c.modify ({ · with error := none }))
  | none => (.ok (), c)

def pendingUpgrade (c : Conn β) : Bool × Conn β := (c.state.upgrade, c.modify ({ · with upgrade := false }))

def onUpgrade (c : Conn β) : Conn β := c.modify ({ · with upgrade := true })

end Conn

end Netty
