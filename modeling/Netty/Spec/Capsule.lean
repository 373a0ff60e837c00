import Netty.Spec.Bytes
import Netty.Varint.Basic

/-!
# Capsules

`src/proxy/masque/capsule.rs` and `udp_payload` of `src/proxy/masque/tunnel.rs`: the
Capsule Protocol, with a decoder that is fed in pieces.

* `encodeDatagram`, `decode`, `isPartial`, `udpPayload`: as the source has them.
* `Receiver`: the decoder with its buffer, and what it has delivered.
* `Capsule`, `wire`: capsules with any type and length, in any form of the numbers.
-/

namespace Netty.Capsule

/-- The type of a DATAGRAM capsule. -/
def datagram : ℕ := 0

def maxUdpPayload : ℕ := 65527

/-- The longest value that is buffered: a Context ID and the largest UDP payload. -/
def maxDatagram : ℕ := 8 + maxUdpPayload

/-- A DATAGRAM capsule with this payload under Context ID 0. -/
def encodeDatagram (payload : Bytes) : Bytes :=
  Varint.encode datagram ++ Varint.encode (payload.length + 1) ++ 0 :: payload

/-! ## `Decoder` -/

inductive Decoded where
  | more
  /-- The value of a DATAGRAM capsule. -/
  | value (value : Bytes)
  | malformed
  deriving DecidableEq, Repr

/-- The loop of `Decoder::decode`, with the bytes still to be skipped. -/
def decodeLoop : ℕ → ℕ → Bytes → Option (Decoded × ℕ × Bytes)
  | 0, _, _ => none
  | fuel + 1, skip, buf =>
    let n := min skip buf.length
    let buf := buf.drop n
    let skip := skip - n
    if 0 < skip then some (.more, skip, buf)
    else
      match Varint.decode buf with
      | none => some (.more, 0, buf)
      | some (kind, kindLen) =>
        match Varint.decode (buf.drop kindLen) with
        | none => some (.more, 0, buf)
        | some (len, lenLen) =>
          let header := kindLen + lenLen
          if kind = datagram then
            if len ≤ maxDatagram then
              if buf.length < header + len then some (.more, 0, buf)
              else some (.value ((buf.drop header).take len), 0, (buf.drop header).drop len)
            else
              -- longer than any Context ID and UDP payload, so the Context ID is there
              match Varint.decode (buf.drop header) with
              | none => some (.more, 0, buf)
              | some (0, _) => some (.malformed, 0, buf)
              | some _ => decodeLoop fuel len (buf.drop header)
          else decodeLoop fuel len (buf.drop header)

/-- `Decoder::decode`. Each round takes a byte at least. -/
def decode (skip : ℕ) (buf : Bytes) : Option (Decoded × ℕ × Bytes) := decodeLoop (buf.length + 1) skip buf

def isPartial (skip : ℕ) (buf : Bytes) : Bool := 0 < skip || buf ≠ []

/-! ## `udp_payload` -/

inductive UdpPayload where
  /-- Of another context, or too short for one. -/
  | dropped
  | payload (payload : Bytes)
  | malformed
  deriving DecidableEq, Repr

def udpPayload (datagram : Bytes) : UdpPayload :=
  match Varint.decode datagram with
  | none => .dropped
  | some (context, len) =>
    if context ≠ 0 then .dropped
    else if maxUdpPayload < (datagram.drop len).length then .malformed
    else .payload (datagram.drop len)

/-! ## A stream that is fed in pieces -/

structure Receiver where
  skip : ℕ
  buf : Bytes
  payloads : List Bytes
  failed : Bool
  deriving DecidableEq, Repr

namespace Receiver

def new : Receiver := ⟨0, [], [], false⟩

/-- Decodes until more bytes are needed. -/
def drain : ℕ → Receiver → Option Receiver
  | 0, _ => none
  | fuel + 1, r =>
    match decode r.skip r.buf with
    | none => none
    | some (.more, skip, buf) => some { r with skip := skip, buf := buf }
    | some (.malformed, skip, buf) => some { r with skip := skip, buf := buf, failed := true }
    | some (.value value, skip, buf) =>
      match udpPayload value with
      | .dropped => drain fuel { r with skip := skip, buf := buf }
      | .payload payload => drain fuel { r with skip := skip, buf := buf, payloads := r.payloads ++ [payload] }
      | .malformed => some { r with skip := skip, buf := buf, failed := true }

/-- The next bytes of the stream. Nothing is read after a failure. -/
def feed (r : Receiver) (chunk : Bytes) : Option Receiver :=
  if r.failed then some r
  else drain ((r.buf ++ chunk).length + 1) { r with buf := r.buf ++ chunk }

def feedAll (r : Receiver) : List Bytes → Option Receiver
  | [] => some r
  | chunk :: chunks => (r.feed chunk).bind fun r => r.feedAll chunks

end Receiver

/-! ## Well-formed capsules -/

end Capsule

/-- A capsule, with the forms its type and its length are written in. -/
structure Capsule where
  kind : ℕ
  kindForm : Varint.Form
  value : Bytes
  lenForm : Varint.Form
  kind_lt : kind < kindForm.limit
  len_lt : value.length < lenForm.limit

namespace Capsule

def header (c : Capsule) : Bytes := Varint.encodeAs c.kindForm c.kind ++ Varint.encodeAs c.lenForm c.value.length

def bytes (c : Capsule) : Bytes := c.header ++ c.value

def wire (cs : List Capsule) : Bytes := cs.flatMap bytes

/-- What a DATAGRAM capsule carries under Context ID 0. -/
def udp (c : Capsule) : Option Bytes :=
  if c.kind = datagram then
    match Varint.decode c.value with
    | some (0, len) => some (c.value.drop len)
    | _ => none
  else none

/-- The payload, unless it is too large. -/
def payload (c : Capsule) : Option Bytes := c.udp.filter fun payload => payload.length ≤ maxUdpPayload

def oversized (c : Capsule) : Bool := c.udp.any fun payload => maxUdpPayload < payload.length

/-- How much of an oversized capsule tells that it is: all of it, or the Context ID if it
cannot be buffered. -/
def toldBy (c : Capsule) : ℕ :=
  if c.value.length ≤ maxDatagram then c.bytes.length
  else c.header.length + ((Varint.decode c.value).map Prod.snd).getD 0

end Capsule

end Netty
