import Netty.Spec.Encode

/-!
# Message heads and how a request head is written

The types of `src/proto.rs`, and the encoding half of `src/proto/http1/role.rs`.

* `setLength`: the framing headers of a request and the encoder that goes with them.
* `Client.encode`: the bytes of a request head.
-/

namespace Netty

/-! ## Types -/

inductive Method where
  | options | get | post | put | delete | head | trace | connect | patch
  | extension (name : Bytes)
  deriving DecidableEq, Repr

def Method.asStr : Method → Bytes
  | .options => ascii "OPTIONS"
  | .get => ascii "GET"
  | .post => ascii "POST"
  | .put => ascii "PUT"
  | .delete => ascii "DELETE"
  | .head => ascii "HEAD"
  | .trace => ascii "TRACE"
  | .connect => ascii "CONNECT"
  | .patch => ascii "PATCH"
  | .extension name => name

inductive Version where
  | http09 | http10 | http11 | http2 | http3
  deriving DecidableEq, Repr

structure RequestLine where
  method : Method
  /-- The target, as it is displayed. -/
  uri : Bytes
  deriving DecidableEq, Repr

/-- The extensions that HTTP/1 reads or sets. -/
structure Extensions where
  /-- A received reason phrase that is not the usual one. -/
  reason : Option Bytes
  /-- `OnPreserveHeader`: the names and values it wants written. -/
  preserveHeader : Option (HeaderMap → List (Bytes × HeaderValue))
  /-- `OnInformational`: a callback is registered. -/
  informational : Bool

def Extensions.none : Extensions := ⟨Option.none, Option.none, false⟩

structure MessageHead (σ : Type) where
  version : Version
  subject : σ
  headers : HeaderMap
  extensions : Extensions

abbrev RequestHead := MessageHead RequestLine

inductive BodyLength where
  | known (n : ℕ)
  | unknown
  deriving DecidableEq, Repr

/-! ## Framing headers -/

/-- `HeaderValue::from(u64)`: the digits of the number. -/
def decimalBytes (n : ℕ) : Bytes :=
  if n = 0 then [48] else (Nat.digits 10 n).reverse.map fun d => UInt8.ofNat (48 + d)

theorem decimalBytes_ok (n : ℕ) : (decimalBytes n).all isValueByte = true := by
  unfold decimalBytes
  split
  · decide
  · rw [List.all_eq_true]
    intro b hb
    obtain ⟨d, hd, rfl⟩ := List.mem_map.1 hb
    have hlt : d < 10 := Nat.digits_lt_base (by decide) (List.mem_reverse.1 hd)
    have hall : ∀ d : Fin 10, isValueByte (UInt8.ofNat (48 + d)) = true := by decide
    exact hall ⟨d, hlt⟩

def HeaderValue.fromU64 (n : ℕ) : HeaderValue := ⟨decimalBytes n, decimalBytes_ok n⟩

def HeaderValue.chunked : HeaderValue := ⟨ascii "chunked", by decide⟩

def setContentLength (headers : HeaderMap) (len : ℕ) : Encoder × HeaderMap :=
  (Encoder.length len, headers.insert .contentLength (HeaderValue.fromU64 len))

/-- The field names in the `Trailer` lines. -/
def trailerNames (headers : HeaderMap) : List HeaderName :=
  ((headers.getAll .trailer).filterMap HeaderValue.toStr).flatMap fun s =>
    (splitComma s).filterMap fun item => HeaderName.fromBytes (trim item)

/-- A chunked encoder is told the announced trailer fields. -/
def withTrailerNames (headers : HeaderMap) (e : Encoder) : Encoder :=
  if e.isChunked && trailerNames headers ≠ [] then e.intoChunkedWithTrailingFields (trailerNames headers) else e

namespace Client

/-- `Client::set_length`: the encoder, and the headers that go with it. -/
def setLength (head : RequestHead) (body : Option BodyLength) : Encoder × HeaderMap :=
  match body with
  | none => (Encoder.length 0, head.headers.remove .transferEncoding)
  | some body =>
    let headers := head.headers
    let existingConLen := contentLengthParseAll headers
    if head.version ≠ .http11 then
      -- chunked is not known to this version
      let headers := headers.remove .transferEncoding
      match existingConLen, body with
      | some len, _ => (Encoder.length len, headers)
      | none, .known len => setContentLength headers len
      | none, .unknown => (Encoder.length 0, headers)
    else if headers.containsKey .transferEncoding then
      -- the user's codings, with `chunked` behind them if it is missing
      let headers :=
        if isChunked (headers.getAll .transferEncoding) then headers
        else headers.mapValues .transferEncoding addChunked
      (withTrailerNames headers Encoder.chunked, headers.remove .contentLength)
    else
      match existingConLen, body with
      | some len, _ => (Encoder.length len, headers)
      | none, .unknown =>
        match head.subject.method with
        | .get | .head | .connect => (Encoder.length 0, headers)
        | _ =>
          let headers := headers.insert .transferEncoding .chunked
          (withTrailerNames headers Encoder.chunked, headers.remove .contentLength)
      | none, .known len => setContentLength headers len

/-! ## The head -/

def versionBytes : Version → Bytes
  | .http10 => ascii "HTTP/1.0"
  | _ => ascii "HTTP/1.1"

/-- A line of a header-preserving callback. -/
def preservedLine (f : Bytes × HeaderValue) : Bytes :=
  if f.2.bytes = [] then f.1 ++ ascii ":" ++ crlf else f.1 ++ ascii ": " ++ f.2.bytes ++ crlf

def headerLines (ext : Extensions) (headers : HeaderMap) : Bytes :=
  match ext.preserveHeader with
  | some visit => (visit headers).flatMap preservedLine
  | none => writeHeaders headers

/-- `Client::encode`: the encoder for the body, and the bytes of the head. -/
def encode (head : RequestHead) (body : Option BodyLength) : Encoder × Bytes :=
  let (encoder, headers) := setLength head body
  (encoder, head.subject.method.asStr ++ ascii " " ++ head.subject.uri ++ ascii " " ++ versionBytes head.version ++
    crlf ++ headerLines head.extensions headers ++ crlf)

end Client

end Netty
