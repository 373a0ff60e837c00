import Netty.Spec.Io

/-!
# The body decoder

`src/proto/http1/decode.rs`, over any reader, and `src/body/length.rs`.

* `Chunked`: the state of the chunked decoder with its counters and limits.
* `Chunked.step`: one transition; every state but the one inside a chunk reads one
  byte (`withByte`, the source's `byte!`).
* `Decoder.decode`: one call of the decoder.
-/

namespace Netty

/-! ## `src/body/length.rs` -/

inductive DecodedLength where
  | closeDelimited
  | chunked
  | exact (n : ℕ)
  deriving DecidableEq, Repr

def DecodedLength.maxLen : ℕ := u64Size - 3

def DecodedLength.zero : DecodedLength := .exact 0

def DecodedLength.checkedNew (len : ℕ) : Except Parse DecodedLength :=
  if len ≤ maxLen then .ok (.exact len) else .error .tooLarge

/-! ## Frames and errors -/

inductive Frame where
  | data (bytes : Bytes)
  | trailers (fields : HeaderMap)
  deriving DecidableEq

/-- The errors of `decode.rs` that carry a text. -/
def ioError (kind : IoErrorKind) (text : String) : IoError := ⟨kind, .text text⟩

def incompleteBody : IoError := ⟨.unexpectedEof, .incompleteBody⟩

def eofInSizeLine : IoError := ioError .unexpectedEof "unexpected EOF during chunk size line"

def sizeOverflow : IoError := ioError .invalidData "invalid chunk size: overflow"

def trailersOverLimit : IoError := ioError .invalidData "chunk trailers bytes over limit"

/-! ## The chunked state -/

inductive ChunkedState where
  | start | size | sizeLws | extension | sizeLf
  | body | bodyCr | bodyLf
  | trailer | trailerLf
  | endCr | endLf | ended
  deriving DecidableEq, Repr

/-- What one byte does to the state. -/
inductive Move where
  | to (s : ChunkedState)
  | fail (e : IoError)
  | panic
  deriving DecidableEq, Repr

structure Chunked where
  state : ChunkedState
  chunkLen : ℕ
  extensionsCnt : ℕ
  trailersBuf : Option Bytes
  trailersCnt : ℕ
  h1MaxHeaders : Option ℕ
  h1MaxHeaderSize : Option ℕ
  deriving DecidableEq, Repr

def defaultMaxHeaders : ℕ := 100

def chunkedExtensionsLimit : ℕ := 1024 * 16

def trailerLimit : ℕ := 1024 * 16

namespace Chunked

def new (h1MaxHeaders h1MaxHeaderSize : Option ℕ) : Chunked :=
  ⟨.start, 0, 0, none, 0, h1MaxHeaders, h1MaxHeaderSize⟩

def maxHeadersCnt (c : Chunked) : ℕ := c.h1MaxHeaders.getD defaultMaxHeaders

def maxHeadersBytes (c : Chunked) : ℕ := c.h1MaxHeaderSize.getD trailerLimit

/-- What a byte does, with the counters it leaves. -/
abbrev Next := Move × Chunked

def go (c : Chunked) (s : ChunkedState) : Next := (.to s, c)

def fail (c : Chunked) (e : IoError) : Next := (.fail e, c)

/-- The value of a hex digit of either case. -/
def hexVal (b : UInt8) : Option ℕ :=
  if 48 ≤ b && b ≤ 57 then some (b - 48).toNat
  else if 97 ≤ b && b ≤ 102 then some (b + 10 - 97).toNat
  else if 65 ≤ b && b ≤ 70 then some (b + 10 - 65).toNat
  else none

def pushDigit (c : Chunked) (d : ℕ) : Next :=
  match checkedMul c.chunkLen 16 with
  | none => c.fail sizeOverflow
  | some m =>
    match checkedAdd m d with
    | none => { c with chunkLen := m }.fail sizeOverflow
    | some n => { c with chunkLen := n }.go .size

/-- `put_u8!`: keep a byte of the trailer section, up to the limit. -/
def putU8 (c : Chunked) (buf : Bytes) (b : UInt8) (next : ChunkedState) : Next :=
  let c' := { c with trailersBuf := some (buf ++ [b]) }
  if c.maxHeadersBytes ≤ buf.length + 1 then c'.fail trailersOverLimit else c'.go next

def readStart (c : Chunked) (b : UInt8) : Next :=
  match hexVal b with
  | some d => c.pushDigit d
  | none => c.fail (ioError .invalidInput "Invalid chunk size line: missing size digit")

def readSize (c : Chunked) (b : UInt8) : Next :=
  match hexVal b with
  | some d => c.pushDigit d
  | none =>
    if b = 9 || b = 32 then c.go .sizeLws
    else if b = 59 then c.go .extension
    else if b = cr then c.go .sizeLf
    else c.fail (ioError .invalidInput "Invalid chunk size line: Invalid Size")

def readSizeLws (c : Chunked) (b : UInt8) : Next :=
  if b = 9 || b = 32 then c.go .sizeLws
  else if b = 59 then c.go .extension
  else if b = cr then c.go .sizeLf
  else c.fail (ioError .invalidInput "Invalid chunk size linear white space")

def readExtension (c : Chunked) (b : UInt8) : Next :=
  if b = cr then c.go .sizeLf
  else if b = lf then c.fail (ioError .invalidData "invalid chunk extension contains newline")
  else
    let c := { c with extensionsCnt := c.extensionsCnt + 1 }
    if chunkedExtensionsLimit ≤ c.extensionsCnt then
      c.fail (ioError .invalidData "chunk extensions over limit")
    else c.go .extension

def readSizeLf (c : Chunked) (b : UInt8) : Next :=
  if b = lf then (if c.chunkLen = 0 then c.go .endCr else c.go .body)
  else c.fail (ioError .invalidInput "Invalid chunk size LF")

def readBodyCr (c : Chunked) (b : UInt8) : Next :=
  if b = cr then c.go .bodyLf else c.fail (ioError .invalidInput "Invalid chunk body CR")

def readBodyLf (c : Chunked) (b : UInt8) : Next :=
  if b = lf then c.go .start else c.fail (ioError .invalidInput "Invalid chunk body LF")

def readTrailer (c : Chunked) (b : UInt8) : Next :=
  match c.trailersBuf with
  | none => (.panic, c)
  | some buf => c.putU8 buf b (if b = cr then .trailerLf else .trailer)

def readTrailerLf (c : Chunked) (b : UInt8) : Next :=
  if b = lf then
    if c.maxHeadersCnt ≤ c.trailersCnt then
      c.fail (ioError .invalidData "chunk trailers count overflow")
    else
      let c := { c with trailersCnt := c.trailersCnt + 1 }
      match c.trailersBuf with
      | none => (.panic, c)
      | some buf => c.putU8 buf b .endCr
  else c.fail (ioError .invalidInput "Invalid trailer end LF")

def readEndCr (c : Chunked) (b : UInt8) : Next :=
  let next := if b = cr then ChunkedState.endLf else .trailer
  match c.trailersBuf with
  | some buf => c.putU8 buf b next
  | none =>
    if b = cr then c.go next
    -- the first byte of the section is not held against the limit
    else { c with trailersBuf := some [b] }.go next

def readEndLf (c : Chunked) (b : UInt8) : Next :=
  if b = lf then
    match c.trailersBuf with
    | some buf => c.putU8 buf b .ended
    | none => c.go .ended
  else c.fail (ioError .invalidInput "Invalid chunk end LF")

/-- The transition on a byte, in the states that read one. -/
def onByte (c : Chunked) (b : UInt8) : Next :=
  match c.state with
  | .start => c.readStart b
  | .size => c.readSize b
  | .sizeLws => c.readSizeLws b
  | .extension => c.readExtension b
  | .sizeLf => c.readSizeLf b
  | .bodyCr => c.readBodyCr b
  | .bodyLf => c.readBodyLf b
  | .trailer => c.readTrailer b
  | .trailerLf => c.readTrailerLf b
  | .endCr => c.readEndCr b
  | .endLf => c.readEndLf b
  | .body | .ended => c.go c.state

variable {ρ : Type} [MemRead ρ]

/-- `byte!`: read one byte for the transition. -/
def withByte (c : Chunked) (rdr : ρ) : Poll (Except IoError (ChunkedState × Option Bytes)) × Chunked × ρ :=
  whenOk (within (MemRead.readMem rdr 1) fun rdr => (c, rdr)) fun buf (c, rdr) =>
    match buf with
    | [] => (.ready (.error eofInSizeLine), c, rdr)
    | b :: _ =>
      match c.onByte b with
      | (.to s, c) => (.ready (.ok (s, none)), c, rdr)
      | (.fail e, c) => (.ready (.error e), c, rdr)
      | (.panic, c) => (.panicked, c, rdr)

/-- Inside a chunk: hand out what is there of it. -/
def readBody (c : Chunked) (rdr : ρ) : Poll (Except IoError (ChunkedState × Option Bytes)) × Chunked × ρ :=
  whenOk (within (MemRead.readMem rdr (min c.chunkLen usizeMax)) fun rdr => (c, rdr)) fun slice (c, rdr) =>
    if slice = [] then (.ready (.error incompleteBody), { c with chunkLen := 0 }, rdr)
    else
      let rem := c.chunkLen - slice.length
      (.ready (.ok (if 0 < rem then .body else .bodyCr, some slice)), { c with chunkLen := rem }, rdr)

/-- One transition: the next state, and the data it found. -/
def step (c : Chunked) (rdr : ρ) : Poll (Except IoError (ChunkedState × Option Bytes)) × Chunked × ρ :=
  match c.state with
  | .body => c.readBody rdr
  | .ended => (.ready (.ok (.ended, none)), c, rdr)
  | _ => c.withByte rdr

end Chunked

/-! ## Trailers -/

/-- The lines the parser found, as a header map. With `none` it panics, since the map is
full. -/
def trailerFields (hp : Httparse) : List (Bytes × Bytes) → HeaderMap → Option (Except IoError HeaderMap)
  | [], m => some (.ok m)
  | (name, value) :: rest, m =>
    match HeaderName.fromBytes name with
    | none => some (.error ⟨.invalidInput, .header "Invalid header name: " name value⟩)
    | some n =>
      match HeaderValue.fromBytes value with
      | none => some (.error ⟨.invalidInput, .header "Invalid header value: " name value⟩)
      | some v => if hp.full m then none else trailerFields hp rest (m.append n v)

def decodeTrailers (hp : Httparse) (buf : Bytes) (count : ℕ) : Option (Except IoError HeaderMap) :=
  match hp.parseHeaders buf count with
  | .ok (.complete (_, headers)) => trailerFields hp headers .empty
  | .ok .incomplete => some (.error (ioError .invalidInput "Partial header"))
  | .error e => some (.error ⟨.invalidInput, .httparse e⟩)

/-! ## The decoder -/

inductive Decoder where
  | length (remaining : ℕ)
  | chunked (c : Chunked)
  /-- Until the end of the stream, which has been seen or not. -/
  | eof (seen : Bool)
  deriving DecidableEq, Repr

namespace Decoder

def new (len : DecodedLength) (h1MaxHeaders h1MaxHeaderSize : Option ℕ) : Decoder :=
  match len with
  | .chunked => .chunked (Chunked.new h1MaxHeaders h1MaxHeaderSize)
  | .closeDelimited => .eof false
  | .exact n => .length n

def isEof : Decoder → Bool
  | .length n => n = 0
  | .chunked c => c.state = .ended
  | .eof seen => seen

variable {ρ : Type} [MemRead ρ]

/-- One round of the chunked loop. -/
def chunkedRound (hp : Httparse) (x : Chunked × ρ) : Ctl (Except IoError Frame) (Chunked × ρ) :=
  Ctl.whenOk (x.1.step x.2) fun (s, buf) (c, rdr) =>
    let c := { c with state := s }
    if s = .ended then
      match c.trailersBuf with
      | some t =>
        let c := { c with trailersBuf := none }
        match decodeTrailers hp t c.trailersCnt with
        | some res => .ret (.ready (res.map .trailers), c, rdr)
        | none => .ret (.panicked, c, rdr)
      | none => .ret (.ready (.ok (.data [])), c, rdr)
    else
      match buf with
      | some b => .ret (.ready (.ok (.data b)), c, rdr)
      | none => .again (c, rdr)

/-- One call of the decoder. The chunked loop runs for at most `fuel` rounds. -/
def decode (hp : Httparse) (fuel : ℕ) (d : Decoder) (body : ρ) : Poll (Except IoError Frame) × Decoder × ρ :=
  match d with
  | .length remaining =>
    if remaining = 0 then (.ready (.ok (.data [])), d, body)
    else
      whenOk (within (MemRead.readMem body (min remaining usizeMax)) fun body => (d, body)) fun buf (d, body) =>
        let num := buf.length
        if remaining < num then (.ready (.ok (.data buf)), .length 0, body)
        else if num = 0 then (.ready (.error incompleteBody), d, body)
        else (.ready (.ok (.data buf)), .length (remaining - num), body)
  | .chunked c => within (loop (chunkedRound hp) fuel (c, body)) fun x => (.chunked x.1, x.2)
  | .eof seen =>
    if seen then (.ready (.ok (.data [])), d, body)
    else
      whenOk (within (MemRead.readMem body 8192) fun body => (d, body)) fun slice (_, body) =>
        (.ready (.ok (.data slice)), .eof (slice = []), body)

end Decoder

end Netty
