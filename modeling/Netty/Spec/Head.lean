import Netty.Spec.Decode
import Netty.Spec.Message

/-!
# Reading response heads

The parsing half of `src/proto/http1/role.rs`, and `Buffered::parse` of `io.rs`.

* `Client.decoder`: how the body of a response is framed.
* `Client.parse`: one head off the front of the buffer; interim heads are skipped.
* `isCompleteFast`: the scan that saves parsing a head of which only a little more
  has arrived.
* `Buffered.parse`: read until a head is there.
-/

namespace Netty

/-! ## Types -/

structure StatusCode where
  code : ℕ
  ok : 100 ≤ code ∧ code < 1000
  deriving DecidableEq, Repr

def StatusCode.fromU16 (n : ℕ) : Option StatusCode := if h : 100 ≤ n ∧ n < 1000 then some ⟨n, h⟩ else none

def StatusCode.okStatus : StatusCode := ⟨200, by decide⟩

def StatusCode.isInformational (s : StatusCode) : Bool := s.code < 200

abbrev ResponseHead := MessageHead StatusCode

structure ParsedMessage where
  head : ResponseHead
  decode : DecodedLength
  expectContinue : Bool
  keepAlive : Bool
  wantsUpgrade : Bool

/-- The part of `ParseContext` that parsing only reads. -/
structure ParseContext where
  reqMethod : Option Method
  h1ParserConfig : ParserConfig
  h1MaxHeaders : Option ℕ
  h1MaxHeaderSize : Option ℕ
  h09Responses : Bool
  /-- A callback for interim responses is registered. -/
  onInformational : Bool

/-- What parsing changes: the buffer, the map that the last message left to be used
again, and the heads that were given to the callback. -/
structure Parsing where
  buf : Bytes
  cachedHeaders : Option HeaderMap
  informed : List ResponseHead

/-! ## Obsolete line folding -/

/-- `u8::is_ascii_whitespace`. -/
def isAsciiWhitespace (b : UInt8) : Bool := b = 32 || b = 9 || b = 10 || b = 12 || b = 13

def trimEndWs (s : Bytes) : Bytes := (s.reverse.dropWhile isAsciiWhitespace).reverse

def trimWs (s : Bytes) : Bytes := (trimEndWs s).dropWhile isAsciiWhitespace

/-- `slice[a..b]`. -/
def sliceOf (s : Bytes) (r : ℕ × ℕ) : Bytes := (s.take r.2).drop r.1

/-- `obs_fold_line`: the lines of a folded value are joined by a space, in place. -/
def obsFoldLine (all : Bytes) (idx : HeaderIndices) : Bytes × HeaderIndices :=
  match (sliceOf all idx.value).splitOn 10 with
  | first :: line :: lines =>
    let unfolded := trimEndWs first ++ (line :: lines).flatMap fun l => 32 :: trimWs l
    (all.take idx.value.1 ++ unfolded ++ all.drop (idx.value.1 + unfolded.length),
      { idx with value := (idx.value.1, idx.value.1 + unfolded.length) })
  | _ => (all, idx)

/-- `obs_fold_line` step by step, with the bounds that its slices are checked against: `none` is a panic. -/
def obsFoldLineChecked (all : Bytes) (idx : HeaderIndices) : Option (Bytes × HeaderIndices) :=
  if idx.value.1 ≤ idx.value.2 ∧ idx.value.2 ≤ all.length then
    let buf := sliceOf all idx.value
    match buf.idxOf? 10 with
    | none => some (all, idx)
    | some firstNl =>
      let unfolded := trimEndWs (buf.take firstNl) ++ ((buf.drop (firstNl + 1)).splitOn 10).flatMap fun l => 32 :: trimWs l
      if unfolded.length ≤ buf.length then
        some (all.take idx.value.1 ++ (unfolded ++ buf.drop unfolded.length) ++ all.drop idx.value.2,
          { idx with value := (idx.value.1, idx.value.1 + unfolded.length) })
      else none
  else none

def obsFoldLines : Bytes → List HeaderIndices → Bytes × List HeaderIndices
  | all, [] => (all, [])
  | all, idx :: idxs =>
    let (all, idx) := obsFoldLine all idx
    let (all, idxs) := obsFoldLines all idxs
    (all, idx :: idxs)

/-! ## The fields of a head -/

/-- What the loop over the header lines collects. -/
structure Fields where
  headers : HeaderMap
  keepAlive : Bool
  sawConnectionClose : Bool

/-- Once a line asks to close, a later `keep-alive` does not undo it. -/
def Fields.add (f : Fields) (name : HeaderName) (value : HeaderValue) : Fields :=
  let f :=
    if name = .connection then
      if f.sawConnectionClose || connectionClose value then { f with sawConnectionClose := true, keepAlive := false }
      else if !f.keepAlive then { f with keepAlive := connectionKeepAlive value }
      else f
    else f
  { f with headers := f.headers.append name value }

/-- The lines that the parser found. It has checked names and values: a bad name is
reported as an internal error, and a bad value is a panic (`none`), which a release
build leaves out together with its check. -/
def readFields (slice : Bytes) : List HeaderIndices → Fields → Option (Except Parse Fields)
  | [], f => some (.ok f)
  | idx :: idxs, f =>
    match HeaderName.fromBytes (sliceOf slice idx.name), HeaderValue.fromBytes (sliceOf slice idx.value) with
    | none, _ => some (.error .internal)
    | some _, none => none
    | some name, some value => readFields slice idxs (f.add name value)

/-- A head as the parser found it. -/
structure RawHead where
  len : ℕ
  status : StatusCode
  reason : Option Bytes
  version : Version
  headers : List HeaderIndices
  deriving DecidableEq, Repr

namespace Client

/-- `Client::decoder`: the length of the body and whether the connection is upgraded;
`none` for a head to be skipped. -/
def decoder (inc : ResponseHead) (method : Option Method) : Except Parse (Option (DecodedLength × Bool)) :=
  let code := inc.subject.code
  if code = 101 then .ok (some (.zero, true))
  else if code < 200 then .ok none
  else if code < 300 && method = some .connect then .ok (some (.zero, true))
  else if code = 204 || code = 304 then .ok (some (.zero, false))
  else if method = some .head then .ok (some (.zero, false))
  else if inc.headers.containsKey .transferEncoding then
    if inc.version = .http10 then .error (.header .transferEncodingUnexpected)
    else if transferEncodingIsChunked inc.headers then .ok (some (.chunked, false))
    else .ok (some (.closeDelimited, false))
  else
    match contentLengthParseAll inc.headers with
    | some len => (DecodedLength.checkedNew len).map fun l => some (l, false)
    | none =>
      if inc.headers.containsKey .contentLength then .error (.header .contentLengthInvalid)
      else .ok (some (.closeDelimited, false))

/-- A complete parse, checked. -/
def checkHead (hp : Httparse) (ctx : ParseContext) (r : RawResponse) : Except Parse RawHead :=
  if ctx.h1MaxHeaderSize.any (· < r.len) then .error .tooLarge
  else
    match StatusCode.fromU16 r.code with
    | none => .error .status
    | some status =>
      -- `record_header_indices`: no name of 64 kB
      if r.headers.any fun h => 65536 ≤ h.name.2 - h.name.1 then .error .tooLarge
      else
        .ok ⟨r.len, status, if some r.reason ≠ hp.canonicalReason r.code then some r.reason else none,
          if r.version = 1 then .http11 else .http10, r.headers⟩

/-- The next head in the buffer, if all of it is there. -/
def nextHead (hp : Httparse) (ctx : ParseContext) (buf : Bytes) : Except Parse (Option RawHead) :=
  match hp.parseResponse ctx.h1ParserConfig buf (ctx.h1MaxHeaders.getD defaultMaxHeaders) with
  | .ok (.complete r) => (checkHead hp ctx r).map some
  | .ok .incomplete => .ok none
  | .error e =>
    if e = .version && ctx.h09Responses then .ok (some ⟨0, .okStatus, none, .http09, []⟩)
    else .error (.ofHttparse e)

/-- The message head that the bytes of a head make, and whether they leave the
connection open. -/
def readHead (ctx : ParseContext) (slice : Bytes) (raw : RawHead) (cached : Option HeaderMap) :
    Option (Except Parse (ResponseHead × Bool)) :=
  let (slice, headers) :=
    if ctx.h1ParserConfig.obsoleteMultilineHeaders then obsFoldLines slice raw.headers else (slice, raw.headers)
  (readFields slice headers ⟨cached.getD .empty, raw.version = .http11, false⟩).map fun res => res.map fun f =>
    (⟨raw.version, raw.status, f.headers, { Extensions.none with reason := raw.reason }⟩, f.keepAlive)

/-- What becomes of a head: a message, or an interim response to be skipped. -/
def finishHead (ctx : ParseContext) (x : ResponseHead × Bool) (s : Parsing) :
    Ctl (Except Parse (Option ParsedMessage)) Parsing :=
  match decoder x.1 ctx.reqMethod with
  | .error e => .ret (.ready (.error e), s)
  | .ok (some (decode, isUpgrade)) =>
    .ret (.ready (.ok (some ⟨x.1, decode, false, x.2 && !isUpgrade, isUpgrade⟩)), s)
  | .ok none =>
    let s := if x.1.subject.isInformational && ctx.onInformational then { s with informed := s.informed ++ [x.1] } else s
    if s.buf = [] then .ret (.ready (.ok none), s) else .again s

/-- One round of `Client::parse`. -/
def parseRound (hp : Httparse) (ctx : ParseContext) (s : Parsing) :
    Ctl (Except Parse (Option ParsedMessage)) Parsing :=
  match nextHead hp ctx s.buf with
  | .error e => .ret (.ready (.error e), s)
  | .ok none => .ret (.ready (.ok none), s)
  | .ok (some raw) =>
    let slice := s.buf.take raw.len
    let cached := s.cachedHeaders
    let s := { s with buf := s.buf.drop raw.len, cachedHeaders := none }
    match readHead ctx slice raw cached with
    | none => .ret (.panicked, s)
    | some (.error e) => .ret (.ready (.error e), s)
    | some (.ok x) => finishHead ctx x s

/-- `Client::parse`. A skipped head is not empty, so a round for each byte is enough. -/
def parse (hp : Httparse) (ctx : ParseContext) (s : Parsing) : Poll (Except Parse (Option ParsedMessage)) × Parsing :=
  loop (parseRound hp ctx) (s.buf.length + 1) s

end Client

/-! ## Partial heads -/

/-- An empty line ends here. -/
def endsHere (b : UInt8) (rest : Bytes) : Bool :=
  if b = cr then rest.take 3 = [10, 13, 10]
  else b = lf && (rest.head? = some 10 || rest.take 2 = [13, 10])

def scanEnd : Bytes → Bool
  | [] => false
  | b :: rest => endsHere b rest || scanEnd rest

/-- `is_complete_fast`; `none` if the scan starts behind the end. -/
def isCompleteFast (bytes : Bytes) (prevLen : ℕ) : Option Bool :=
  if bytes.length < prevLen - 3 then none else some (scanEnd (bytes.drop (prevLen - 3)))

def parseHeaders (hp : Httparse) (prevLen : Option ℕ) (ctx : ParseContext) (s : Parsing) :
    Poll (Except Parse (Option ParsedMessage)) × Parsing :=
  if s.buf = [] then (.ready (.ok none), s)
  else
    match prevLen.map (isCompleteFast s.buf) with
    | some none => (.panicked, s)
    | some (some false) => (.ready (.ok none), s)
    | some (some true) | none => Client.parse hp ctx s

/-! ## `Buffered::parse` -/

/-- The buffers and what parsing changes beside them. -/
structure HeadReader (β : Type) [LawfulBuf β] where
  io : Buffered β
  cachedHeaders : Option HeaderMap
  informed : List ResponseHead

namespace HeadReader

variable {β : Type} [LawfulBuf β]

def parsing (r : HeadReader β) : Parsing := ⟨r.io.readBuf, r.cachedHeaders, r.informed⟩

def put (r : HeadReader β) (s : Parsing) : HeadReader β :=
  ⟨{ r.io with readBuf := s.buf }, s.cachedHeaders, s.informed⟩

/-- There is no whole head yet: how far the next scan need not look. -/
def setPartialLen (r : HeadReader β) : HeadReader β :=
  { r with io := { r.io with partialLen := if r.io.readBuf = [] then none else some r.io.readBuf.length } }

/-- One round of `Buffered::parse`. -/
def parseRound (hp : Httparse) (ctx : ParseContext) (r : HeadReader β) :
    Ctl (Except Error ParsedMessage) (HeadReader β) :=
  Ctl.whenReady (within (parseHeaders hp r.io.partialLen ctx r.parsing) r.put) fun res r =>
    match res with
    | .error e => .ret (.ready (.error (.ofParse e)), r)
    | .ok (some msg) => .ret (.ready (.ok msg), { r with io := { r.io with partialLen := none } })
    | .ok none =>
      if ctx.h1MaxHeaderSize.any (· ≤ r.io.readBuf.length) then .ret (.ready (.error .newTooLarge), r)
      else if r.io.readBufStrategy.max ≤ r.io.readBuf.length then .ret (.ready (.error .newTooLarge), r)
      else
        let r := r.setPartialLen
        Ctl.whenReady (within r.io.pollReadFromIo fun io => { r with io := io }) fun res r =>
          match res with
          | .error e => .ret (.ready (.error (.newIo e)), r)
          | .ok n => if n = 0 then .ret (.ready (.error .newIncomplete), r) else .again r

/-- `Buffered::parse`, for at most `fuel` reads. -/
def parse (hp : Httparse) (ctx : ParseContext) (fuel : ℕ) (r : HeadReader β) :
    Poll (Except Error ParsedMessage) × HeadReader β :=
  loop (parseRound hp ctx) fuel r

end HeadReader

end Netty
