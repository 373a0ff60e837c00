import Netty.Spec.WriteBuf
import Mathlib.Data.Nat.Digits.Defs

/-!
# The body encoder

`src/proto/http1/encode.rs`, and `write_headers` of `src/proto/http1/role.rs`.

* `ChunkSize`: the size line of a chunk.
* `EncodedBuf`: what the encoder makes of a piece of a body. It is again a buffer
  that is read from the front.
* `Encoder`: the framing of a request body, chunked or of a known length.
-/

namespace Netty

/-! ## Chunk sizes -/

def hexDigit (d : ℕ) : UInt8 := UInt8.ofNat (if d < 10 then 48 + d else 55 + d)

/-- `{n:X}`. -/
def upperHex (n : ℕ) : Bytes := if n = 0 then [48] else (Nat.digits 16 n).reverse.map hexDigit

/-- The written part of the array, and how much of it was read. -/
structure ChunkSize where
  bytes : Bytes
  pos : ℕ
  deriving DecidableEq, Repr

def ChunkSize.new (len : ℕ) : ChunkSize := ⟨upperHex len ++ crlf, 0⟩

instance : LawfulBuf ChunkSize where
  remaining c := c.bytes.length - c.pos
  chunk c := c.bytes.drop c.pos
  advance c cnt := { c with pos := c.pos + cnt }
  chunksVectored c k := firstChunk (c.bytes.length - c.pos) (c.bytes.drop c.pos) k
  content c := c.bytes.drop c.pos
  remaining_eq c := by rw [List.length_drop]
  chunk_isPrefix _ := List.prefix_rfl
  chunk_ne_nil _ h := h
  content_advance c n _ := by rw [List.drop_drop]

/-! ## Encoded pieces -/

inductive EncodedBuf (β : Type) where
  | exact (b : β)
  | limited (b : Take β)
  | chunked (b : Chain (Chain ChunkSize β) Bytes)
  | chunkedEnd (b : Bytes)
  | trailers (b : Chain (Chain Bytes Bytes) Bytes)

namespace EncodedBuf

variable {β : Type} [LawfulBuf β]

instance : Buf (EncodedBuf β) where
  remaining
    | exact b => Buf.remaining b
    | limited b => Buf.remaining b
    | chunked b => Buf.remaining b
    | chunkedEnd b => Buf.remaining b
    | trailers b => Buf.remaining b
  chunk
    | exact b => Buf.chunk b
    | limited b => Buf.chunk b
    | chunked b => Buf.chunk b
    | chunkedEnd b => Buf.chunk b
    | trailers b => Buf.chunk b
  advance x n :=
    match x with
    | exact b => exact (Buf.advance b n)
    | limited b => limited (Buf.advance b n)
    | chunked b => chunked (Buf.advance b n)
    | chunkedEnd b => chunkedEnd (Buf.advance b n)
    | trailers b => trailers (Buf.advance b n)
  chunksVectored x k :=
    match x with
    | exact b => Buf.chunksVectored b k
    | limited b => Buf.chunksVectored b k
    | chunked b => Buf.chunksVectored b k
    | chunkedEnd b => Buf.chunksVectored b k
    | trailers b => Buf.chunksVectored b k

instance : LawfulBuf (EncodedBuf β) where
  content
    | exact b => LawfulBuf.content b
    | limited b => LawfulBuf.content b
    | chunked b => LawfulBuf.content b
    | chunkedEnd b => LawfulBuf.content b
    | trailers b => LawfulBuf.content b
  remaining_eq
    | exact b => LawfulBuf.remaining_eq b
    | limited b => LawfulBuf.remaining_eq b
    | chunked b => LawfulBuf.remaining_eq b
    | chunkedEnd b => LawfulBuf.remaining_eq b
    | trailers b => LawfulBuf.remaining_eq b
  chunk_isPrefix
    | exact b => LawfulBuf.chunk_isPrefix b
    | limited b => LawfulBuf.chunk_isPrefix b
    | chunked b => LawfulBuf.chunk_isPrefix b
    | chunkedEnd b => LawfulBuf.chunk_isPrefix b
    | trailers b => LawfulBuf.chunk_isPrefix b
  chunk_ne_nil
    | exact b => LawfulBuf.chunk_ne_nil b
    | limited b => LawfulBuf.chunk_ne_nil b
    | chunked b => LawfulBuf.chunk_ne_nil b
    | chunkedEnd b => LawfulBuf.chunk_ne_nil b
    | trailers b => LawfulBuf.chunk_ne_nil b
  content_advance
    | exact b => LawfulBuf.content_advance b
    | limited b => LawfulBuf.content_advance b
    | chunked b => LawfulBuf.content_advance b
    | chunkedEnd b => LawfulBuf.content_advance b
    | trailers b => LawfulBuf.content_advance b

end EncodedBuf

/-! ## The encoder -/

inductive Encoder.Kind where
  /-- With the fields that the `Trailer` header announced. -/
  | chunked (trailers : Option (List HeaderName))
  | length (n : ℕ)
  deriving DecidableEq

structure Encoder where
  kind : Encoder.Kind
  isLast : Bool
  deriving DecidableEq

/-- `write_headers`. -/
def headerLine (f : HeaderName × HeaderValue) : Bytes :=
  f.1.bytes ++ ascii ": " ++ f.2.bytes ++ crlf

def writeHeaders (headers : HeaderMap) : Bytes := headers.iter.flatMap headerLine

def isValidTrailerField (name : HeaderName) : Bool :=
  !([.authorization, .cacheControl, .contentEncoding, .contentLength, .contentRange, .contentType,
    .host, .maxForwards, .setCookie, .trailer, .transferEncoding, .te] : List HeaderName).contains name

/-- The loop over the trailers: a value without a name belongs to the name before it. -/
def allowedTrailers (allowed : List HeaderName) :
    List (Option HeaderName × HeaderValue) → Option HeaderName → HeaderMap → Option HeaderMap
  | [], _, m => some m
  | (optName, value) :: rest, curName, m =>
    let curName := optName.or curName
    match curName with
    | none => none
    | some name =>
      let m := if allowed.contains name && isValidTrailerField name then m.append name value else m
      allowedTrailers allowed rest curName m

namespace Encoder

def new (kind : Kind) : Encoder := ⟨kind, false⟩

def chunked : Encoder := new (.chunked none)

def length (len : ℕ) : Encoder := new (.length len)

def intoChunkedWithTrailingFields (e : Encoder) (trailers : List HeaderName) : Encoder :=
  match e.kind with
  | .chunked _ => { e with kind := .chunked (some trailers) }
  | .length _ => e

def isEof (e : Encoder) : Bool := e.kind = .length 0

def isCloseDelimited (_ : Encoder) : Bool := false

def isChunked (e : Encoder) : Bool :=
  match e.kind with
  | .chunked _ => true
  | .length _ => false

variable {β : Type} [LawfulBuf β]

/-- The end of the body, or how many bytes of it are missing. -/
def end' (e : Encoder) : Except ℕ (Option (EncodedBuf β)) :=
  match e.kind with
  | .length 0 => .ok none
  | .chunked _ => .ok (some (.chunkedEnd (ascii "0" ++ crlf ++ crlf)))
  | .length n => .error n

/-- The size line of a chunk, its data, and what stands behind it. -/
def chunk (msg : β) (tail : Bytes) : EncodedBuf β :=
  .chunked ⟨⟨ChunkSize.new (Buf.remaining msg), msg⟩, tail⟩

def encode (e : Encoder) (msg : β) : EncodedBuf β × Encoder :=
  let len := Buf.remaining msg
  match e.kind with
  | .chunked _ => (chunk msg crlf, e)
  | .length remaining =>
    if remaining < len then (.limited ⟨msg, remaining⟩, { e with kind := .length 0 })
    else (.exact msg, { e with kind := .length (remaining - len) })

/-- No buffer at all if no field may be sent. -/
def encodeTrailers (e : Encoder) (trailers : HeaderMap) : Option (EncodedBuf β) :=
  match e.kind with
  | .chunked (some allowed) =>
    match allowedTrailers allowed trailers.intoIter none .empty with
    | none => none
    | some m =>
      let buf := writeHeaders m
      if buf = [] then none
      else some (.trailers ⟨⟨ascii "0" ++ crlf, buf⟩, crlf⟩)
  | .chunked none => none
  | .length _ => none

/-- Buffer the last piece and the end of the body; whether the connection can go on. -/
def encodeAndEnd (e : Encoder) (msg : β) (dst : WriteBuf (EncodedBuf β)) : Bool × WriteBuf (EncodedBuf β) :=
  let len := Buf.remaining msg
  match e.kind with
  | .chunked _ => (!e.isLast, dst.buffer (chunk msg (crlf ++ ascii "0" ++ crlf ++ crlf)))
  | .length remaining =>
    if len = remaining then (!e.isLast, dst.buffer (.exact msg))
    else if remaining < len then (!e.isLast, dst.buffer (.limited ⟨msg, remaining⟩))
    else (false, dst.buffer (.exact msg))

end Encoder

end Netty
