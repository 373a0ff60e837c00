import Netty.Spec.Bytes

/-!
# The reply of a CONNECT proxy

`read_response` of `src/proxy/tunnel.rs`, and `read` of `src/proxy.rs`. The parser
`httparse::Response` is a parameter.

* `Io.read`: one read of the connection, which gives what has arrived in its own portions.
* `readResponse`: the loop over the heads of the reply.
* `Head`, `Httparse`: well-formed heads, and what the parser says about them.
-/

namespace Netty.Proxy

/-! ## Reading -/

/-- How the connection answers a read. Bytes are given one at least, and as many as asked
for at most. -/
inductive ReadAnswer where
  | give (n : ℕ)
  | fail
  deriving DecidableEq, Repr

/-- The bytes the peer sends, and the answers to the reads. A read that is not ready is
polled again (`poll_fn(..).await`), so only the last answer counts. -/
structure Io where
  input : Bytes
  answers : ℕ → ReadAnswer
  reads : ℕ

/-- `read`: no bytes at the end of the stream. -/
def Io.read (io : Io) (want : ℕ) : Option Bytes × Io :=
  match io.answers io.reads with
  | .fail => (none, { io with reads := io.reads + 1 })
  | .give n =>
    let n := min want (max 1 n)
    (some (io.input.take n), { io with input := io.input.drop n, reads := io.reads + 1 })

/-! ## `read_response` -/

/-- The most header fields of a head. -/
def maxHeaders : ℕ := 64

/-- The most bytes of all heads. -/
def maxResponseHead : ℕ := 8192

/-- The errors of `read_response`. -/
inductive TunnelError where
  | io
  | parse
  | proxyAuthRequired
  | proxyHeadersTooLong
  | tunnelUnexpectedEof
  | tunnelUnsuccessful (status : ℕ)
  deriving DecidableEq, Repr

/-- What `httparse::Response::parse` returns, with the status code it has read. -/
inductive Parsed where
  | complete (parsed : ℕ) (code : Option ℕ)
  | incomplete
  | tooManyHeaders
  | failed
  deriving DecidableEq, Repr

abbrev ResponseParser := Bytes → Parsed

def statusCode (code : ℕ) : Option ℕ := if 100 ≤ code && code < 1000 then some code else none

def endsWith (head tail : Bytes) : Bool := tail.isSuffixOf head

/-- How much may be read without passing the end of the head. -/
def wantBytes (head : Bytes) : ℕ := if endsWith head [10] || endsWith head [10, 13] then 1 else 2

def isAsciiWhitespace (b : UInt8) : Bool := b = 9 || b = 10 || b = 12 || b = 13 || b = 32

def trimAsciiStart (s : Bytes) : Bytes := s.dropWhile isAsciiWhitespace

/-- Neither at an empty line nor still in the version and the status code: not parsed. -/
def notParsed (head : Bytes) : Bool :=
  !(endsWith head [10, 10] || endsWith head [10, 13, 10]) &&
    (ascii "HTTP/1.1 200 ").length < (trimAsciiStart head).length

/-- What is done with a status: `none` is an interim response, which is skipped. -/
def verdict (status : ℕ) : Option (Except TunnelError Unit) :=
  if 100 ≤ status && status < 200 && status ≠ 101 then none
  else if 200 ≤ status && status < 300 then some (.ok ())
  else if status = 407 then some (.error .proxyAuthRequired)
  else some (.error (.tunnelUnsuccessful status))

/-- The loop of `read_response`. The buffer holds what was read so far. -/
def readLoop (parse : ResponseParser) : ℕ → ℕ → Bytes → Io → Option (Except TunnelError Unit × Io)
  | 0, _, _, _ => none
  | fuel + 1, start, buf, io =>
    if buf.length = maxResponseHead then some (.error .proxyHeadersTooLong, io)
    else
      let stop := min (buf.length + wantBytes (buf.drop start)) maxResponseHead
      match io.read (stop - buf.length) with
      | (none, io) => some (.error .io, io)
      | (some [], io) => some (.error .tunnelUnexpectedEof, io)
      | (some (b :: bytes), io) =>
        let buf := buf ++ b :: bytes
        let head := buf.drop start
        if notParsed head then readLoop parse fuel start buf io
        else
          match parse head with
          | .incomplete => readLoop parse fuel start buf io
          | .tooManyHeaders => some (.error .proxyHeadersTooLong, io)
          | .failed => some (.error .parse, io)
          | .complete parsed code =>
            match code.bind statusCode with
            | none => some (.error .parse, io)
            | some status =>
              match verdict status with
              | none => readLoop parse fuel (start + parsed) buf io
              | some res => some (res, io)

/-- `read_response`. Every round reads something, so the rounds are bounded by the buffer. -/
def readResponse (parse : ResponseParser) (io : Io) : Option (Except TunnelError Unit × Io) :=
  readLoop parse (maxResponseHead + 1) 0 [] io

/-! ## Well-formed heads -/

/-- The end of a line. -/
inductive Eol where
  | lf
  | crlf
  deriving DecidableEq, Repr

def Eol.bytes : Eol → Bytes
  | .lf => [10]
  | .crlf => [13, 10]

/-- A line that is not empty. -/
structure Line where
  text : Bytes
  eol : Eol
  nonempty : text ≠ []
  clean : ∀ b ∈ text, b ≠ cr ∧ b ≠ lf

def Line.bytes (l : Line) : Bytes := l.text ++ l.eol.bytes

/-- A response head: empty lines that are skipped, the status line, the fields, and the
empty line at the end. -/
structure Head where
  lead : List Eol
  statusLine : Line
  fields : List Line
  stop : Eol
  status : ℕ

def Head.bytes (h : Head) : Bytes :=
  h.lead.flatMap Eol.bytes ++ h.statusLine.bytes ++ h.fields.flatMap Line.bytes ++ h.stop.bytes

/-- What the parser does with the heads it takes for well-formed: it completes at the end,
if there is a slot for each field, and asks for more before. -/
structure Httparse (parse : ResponseParser) (wellFormed : Head → Prop) : Prop where
  complete : ∀ h, wellFormed h → h.fields.length ≤ maxHeaders →
    parse h.bytes = .complete h.bytes.length (some h.status)
  crowded : ∀ h, wellFormed h → maxHeaders < h.fields.length → parse h.bytes = .tooManyHeaders
  incomplete : ∀ h p q, wellFormed h → h.bytes = p ++ q → q ≠ [] →
    parse p = .incomplete ∨ (maxHeaders < h.fields.length ∧ parse p = .tooManyHeaders)

end Netty.Proxy
