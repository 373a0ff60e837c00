import Netty.Spec.Headers

/-!
# Errors, and the parser of head lines

* `IoError`: the errors of the transport and of the body decoder.
* `Error`: `src/error.rs`, the kinds that are used here.
* `Httparse`: the parser library, as a parameter of the model. It finds the parts
  of a head in a byte string; the source turns its positions into headers.
-/

namespace Netty

/-! ## The parser library -/

inductive HttparseError where
  | headerName | headerValue | newLine | status | token | tooManyHeaders | version
  deriving DecidableEq, Repr

/-- A complete parse, or a prefix of one. -/
inductive Status (α : Type) where
  | complete (a : α)
  | incomplete
  deriving DecidableEq, Repr

structure ParserConfig where
  ignoreInvalidHeaders : Bool
  spacesAfterHeaderName : Bool
  obsoleteMultilineHeaders : Bool
  deriving DecidableEq, Repr

/-- Where a header line's name and value stand in the parsed bytes. -/
structure HeaderIndices where
  name : ℕ × ℕ
  value : ℕ × ℕ
  deriving DecidableEq, Repr

/-- A complete response head: its length and its parts. -/
structure RawResponse where
  len : ℕ
  code : ℕ
  reason : Bytes
  /-- The minor version: 0 or 1. -/
  version : ℕ
  headers : List HeaderIndices
  deriving DecidableEq, Repr

/-- What reading a head or a trailer section takes from libraries: the parser, whose last
argument is the room for headers, the usual text of a status code, and what a map holds. -/
structure Httparse where
  parseHeaders : Bytes → ℕ → Except HttparseError (Status (ℕ × List (Bytes × Bytes)))
  parseResponse : ParserConfig → Bytes → ℕ → Except HttparseError (Status RawResponse)
  canonicalReason : ℕ → Option Bytes
  /-- The table of the map cannot grow, so `append` panics. Names whose hashes collide
  can fill it sooner. -/
  full : HeaderMap → Bool := fun m => decide (HeaderMap.maxNames ≤ m.entries.length)

/-! ## I/O errors -/

inductive IoErrorKind where
  | unexpectedEof | invalidInput | invalidData | writeZero | other
  deriving DecidableEq, Repr

/-- What an I/O error was made from. -/
inductive IoCause where
  | none
  | text (s : String)
  /-- "end of file before message length reached" -/
  | incompleteBody
  | httparse (e : HttparseError)
  /-- A header line, after the words in front of it. -/
  | header (s : String) (name value : Bytes)
  /-- An error of the transport itself. -/
  | os (code : ℕ)
  deriving DecidableEq, Repr

structure IoError where
  kind : IoErrorKind
  cause : IoCause
  deriving DecidableEq, Repr

/-! ## `src/error.rs` -/

inductive ParseHeader where
  | token | contentLengthInvalid | transferEncodingUnexpected
  deriving DecidableEq, Repr

inductive Parse where
  | method | version | versionH2 | uri
  | header (h : ParseHeader)
  | tooLarge | status | internal
  deriving DecidableEq, Repr

inductive User where
  | body | bodyWriteAborted | noUpgrade | manualUpgrade | dispatchGone
  | invalidRequest | invalidConnectWithBody
  deriving DecidableEq, Repr

inductive Error.Kind where
  | parse (p : Parse)
  | user (u : User)
  | incompleteMessage | unexpectedMessage | canceled | channelClosed
  | io | body | bodyWrite | shutdown
  | http2 | http3
  deriving DecidableEq, Repr

/-- What the HTTP/3 library reports of a stream. -/
inductive StreamError where
  /-- The peer has stopped or reset the stream. -/
  | remoteTerminate (code : ℕ)
  | streamError (code : ℕ)
  | headerTooBig
  /-- The connection has failed. -/
  | connection (e : ℕ)
  deriving DecidableEq, Repr

inductive Cause where
  | io (e : IoError)
  | text (s : String)
  /-- "early end, expected {n} more bytes" -/
  | notEof (n : ℕ)
  /-- An error value of the user's body. -/
  | user (e : ℕ)
  /-- Another error of the crate, by its kind. -/
  | kind (k : Error.Kind)
  /-- An error of the HTTP/2 library, with its reason if it has one. -/
  | h2 (reason : Option ℕ)
  | h3 (e : StreamError)
  deriving DecidableEq, Repr

structure Error where
  kind : Error.Kind
  cause : Option Cause
  deriving DecidableEq, Repr

namespace Error

def newCanceled : Error := ⟨.canceled, none⟩
def newIncomplete : Error := ⟨.incompleteMessage, none⟩
def newTooLarge : Error := ⟨.parse .tooLarge, none⟩
def newVersionH2 : Error := ⟨.parse .versionH2, none⟩
def newUnexpectedMessage : Error := ⟨.unexpectedMessage, none⟩
def newIo (e : IoError) : Error := ⟨.io, some (.io e)⟩
def newClosed : Error := ⟨.channelClosed, none⟩
def newBody (c : Cause) : Error := ⟨.body, some c⟩
def newBodyWrite (c : Cause) : Error := ⟨.bodyWrite, some c⟩
def newBodyWriteAborted : Error := ⟨.user .bodyWriteAborted, none⟩
def newUserBody (e : ℕ) : Error := ⟨.user .body, some (.user e)⟩
def newUserBodyText (s : String) : Error := ⟨.user .body, some (.text s)⟩
def newUserInvalidRequest (c : Cause) : Error := ⟨.user .invalidRequest, some c⟩
def newH3 (c : Cause) : Error := ⟨.http3, some c⟩
def newShutdown (e : IoError) : Error := ⟨.shutdown, some (.io e)⟩
def newUserDispatchGone : Error := ⟨.user .dispatchGone, none⟩
def ofParse (p : Parse) : Error := ⟨.parse p, none⟩

end Error

/-- `From<httparse::Error> for Parse`. -/
def Parse.ofHttparse : HttparseError → Parse
  | .headerName | .headerValue | .newLine | .token => .header .token
  | .status => .status
  | .tooManyHeaders => .tooLarge
  | .version => .version

end Netty
