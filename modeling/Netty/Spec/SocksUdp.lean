import Netty.Spec.Bytes

/-!
# SOCKS5 UDP datagrams

`src/proxy/socks/udp.rs`: the header in front of every datagram that a SOCKS5 relay
forwards, and the unframing of a batch of received datagrams in its buffer.

* `Address`: an IP address or a domain name, with a port. `AddressRef` is the same value,
  borrowed.
* `headerLen`, `encodeHeader`, `decodeHeader`: the header.
* `unframe`: moves the payloads of a run of datagrams to the front of the buffer. The loop
  keeps a record of the parts of the buffer that it reads and writes.
-/

namespace Netty.Socks

/-! ## Addresses -/

/-- An array of this many bytes. -/
abbrev Octets (n : ℕ) := { bytes : Bytes // bytes.length = n }

inductive IpAddr where
  | v4 (octets : Octets 4)
  | v6 (octets : Octets 16)
  deriving DecidableEq

inductive SocketAddr where
  | v4 (ip : Octets 4) (port : UInt16)
  | v6 (ip : Octets 16) (port : UInt16) (flowinfo scopeId : UInt32)
  deriving DecidableEq

inductive Address where
  | ip (addr : SocketAddr)
  | domain (name : String) (port : UInt16)
  deriving DecidableEq

inductive HeaderError where
  | truncated
  | reserved
  | fragmented
  | unsupportedAddress
  | invalidDomain
  deriving DecidableEq, Repr

/-- What an IPv4-mapped IPv6 address starts with. -/
def mappedStart : Bytes := List.replicate 10 0 ++ [255, 255]

/-- `IpAddr::to_canonical`: an IPv4-mapped address is its IPv4 address. -/
def IpAddr.toCanonical : IpAddr → IpAddr
  | .v4 o => .v4 o
  | .v6 o =>
    if o.1.take 12 = mappedStart then .v4 ⟨o.1.drop 12, by rw [List.length_drop, o.2]⟩ else .v6 o

namespace SocketAddr

/-- `SocketAddr::new`: no flow information, and no scope. -/
def new : IpAddr → UInt16 → SocketAddr
  | .v4 ip, port => .v4 ip port
  | .v6 ip, port => .v6 ip port 0 0

def ip : SocketAddr → IpAddr
  | .v4 ip _ => .v4 ip
  | .v6 ip _ _ _ => .v6 ip

def port : SocketAddr → UInt16
  | .v4 _ port => port
  | .v6 _ port _ _ => port

end SocketAddr

/-! ## Bytes -/

def utf8 (name : String) : Bytes := name.toUTF8.data.toList

def fromUtf8 (bytes : Bytes) : Option String := String.fromUTF8? ⟨bytes.toArray⟩

/-- `put_u16`: the high byte is first. -/
def beBytes (n : UInt16) : Bytes := [UInt8.ofNat (n.toNat / 256), UInt8.ofNat (n.toNat % 256)]

def fromBeBytes (o : Octets 2) : UInt16 :=
  UInt16.ofNat (o.1.foldl (fun n b => n * 256 + b.toNat) 0)

def splitFirstChunk (n : ℕ) (bytes : Bytes) : Except HeaderError (Octets n × Bytes) :=
  if h : n ≤ bytes.length then .ok (⟨bytes.take n, List.length_take_of_le h⟩, bytes.drop n)
  else .error .truncated

/-! ## The header -/

def atypIpv4 : UInt8 := 1
def atypDomain : UInt8 := 3
def atypIpv6 : UInt8 := 4

def headerLen : Address → ℕ
  | .ip addr =>
    match addr.ip.toCanonical with
    | .v4 _ => 10
    | .v6 _ => 22
  | .domain name _ => 7 + (utf8 name).length

/-- The address type, the IP address and the port. -/
def putIp (buf : Bytes) (addr : SocketAddr) : Bytes :=
  (match addr.ip.toCanonical with
    | .v4 ip => buf ++ [atypIpv4] ++ ip.1
    | .v6 ip => buf ++ [atypIpv6] ++ ip.1) ++ beBytes addr.port

/-- The buffer with the header behind it. -/
def encodeHeader (target : Address) (buf : Bytes) : Except HeaderError Unit × Bytes :=
  match target with
  | .ip addr => (.ok (), putIp (buf ++ [0, 0, 0]) addr)
  | .domain name port =>
    let len := (utf8 name).length
    if len ≤ 255 ∧ 0 < len then
      (.ok (), buf ++ [0, 0, 0, atypDomain, UInt8.ofNat len] ++ utf8 name ++ beBytes port)
    else (.error .invalidDomain, buf)

/-- The port behind an address. -/
def decodePort (bytes : Bytes) : Except HeaderError (UInt16 × Bytes) := do
  let (port, rest) ← splitFirstChunk 2 bytes
  .ok (fromBeBytes port, rest)

def decodeIp (addr : IpAddr) (bytes : Bytes) : Except HeaderError (Address × Bytes) := do
  let (port, rest) ← decodePort bytes
  .ok (.ip (.new addr.toCanonical port), rest)

/-- A name is UTF-8, and not empty. -/
def domainOf (name : Bytes) (port : UInt16) : Except HeaderError Address :=
  match (fromUtf8 name).filter fun name => name ≠ "" with
  | some name => .ok (.domain name port)
  | none => .error .invalidDomain

/-- A name behind its length, and its port. -/
def decodeDomain : Bytes → Except HeaderError (Address × Bytes)
  | [] => .error .truncated
  | len :: bytes => do
    let (name, rest) ← splitFirstChunk len.toNat bytes
    let (port, rest) ← decodePort rest
    let addr ← domainOf name.1 port
    .ok (addr, rest)

/-- The address and the port in front of the bytes, and the rest of them. -/
def decodeAddr (atyp : UInt8) (bytes : Bytes) : Except HeaderError (Address × Bytes) :=
  if atyp = atypIpv4 then do
    let (ip, rest) ← splitFirstChunk 4 bytes
    decodeIp (.v4 ip) rest
  else if atyp = atypIpv6 then do
    let (ip, rest) ← splitFirstChunk 16 bytes
    decodeIp (.v6 ip) rest
  else if atyp = atypDomain then decodeDomain bytes
  else .error .unsupportedAddress

/-- The source and the payload of a relayed datagram. -/
def decodeHeader : Bytes → Except HeaderError (Address × Bytes)
  | rsv0 :: rsv1 :: frag :: atyp :: rest =>
    if (rsv0, rsv1) ≠ (0, 0) then .error .reserved
    else if frag ≠ 0 then .error .fragmented
    else decodeAddr atyp rest
  | _ => .error .truncated

/-! ## Batches -/

/-- The payloads of a run, now at the front of the buffer. -/
structure Unframed where
  source : Address
  len : ℕ
  stride : ℕ
  consumed : ℕ
  deriving DecidableEq

/-- A part of the buffer that is read or written, from its first byte to behind its last. -/
inductive Access where
  | read (first last : ℕ)
  | write (first last : ℕ)
  deriving DecidableEq, Repr

/-- `copy_within`: the bytes from `first` to `last` are moved to `dest`. -/
def copyWithin (buf : Bytes) (first last dest : ℕ) : Bytes :=
  let bytes := (buf.take last).drop first
  buf.take dest ++ bytes ++ buf.drop (dest + bytes.length)

/-- The variables of the loop, and the record of its accesses, latest first. -/
structure Cursor where
  buf : Bytes
  read : ℕ
  write : ℕ
  run : Option (Address × ℕ)
  trace : List Access

/-- One round of the loop: where it goes on, or where it ends. -/
def unframeRound (stride : ℕ) (c : Cursor) : Cursor ⊕ Cursor :=
  let last := min (c.read + stride) c.buf.length
  let c := { c with trace := .read c.read last :: c.trace }
  match decodeHeader ((c.buf.take last).drop c.read) with
  | .error _ => .inl { c with read := last }
  | .ok (source, payload) =>
    let len := payload.length
    let run := c.run.getD (source, len)
    -- another source or a longer payload starts the next run
    if run.1 ≠ source ∨ run.2 < len then .inr c
    else
      let c := { c with
        buf := copyWithin c.buf (last - len) last c.write
        read := last
        write := c.write + len
        run := some run
        trace := .write c.write (c.write + len) :: .read (last - len) last :: c.trace }
      -- a shorter payload ends the run
      if len < run.2 then .inr c else .inl c

/-- Rounds until the end of the buffer; each takes a byte at least. -/
def unframeLoop (stride : ℕ) : ℕ → Cursor → Cursor
  | 0, c => c
  | fuel + 1, c =>
    if c.read < c.buf.length then
      match unframeRound stride c with
      | .inl c => unframeLoop stride fuel c
      | .inr c => c
    else c

def isUnicastLinkLocal (o : Octets 16) : Bool :=
  match o.1 with
  | b0 :: b1 :: _ => b0 = 0xfe && b1 &&& 0xc0 = 0x80
  | _ => false

/-- The interface that an address names. -/
def zone : SocketAddr → UInt32
  | .v6 ip _ _ scopeId => if isUnicastLinkLocal ip then scopeId else 0
  | .v4 _ _ => 0

/-- What was received from this address comes from the relay. -/
def accepted (relay sender : SocketAddr) : Bool :=
  (sender.ip.toCanonical, sender.port) = (relay.ip.toCanonical, relay.port) &&
    ([0, zone sender].contains (zone relay))

/-- The buffer after the call, with what was unframed and the accesses in order. -/
structure Unframing where
  result : Option Unframed
  buf : Bytes
  accesses : List Access

def unframe (relay sender : SocketAddr) (buf : Bytes) (stride : ℕ) : Unframing :=
  if !accepted relay sender then ⟨none, buf, []⟩
  else
    let stride := if stride = 0 then buf.length else stride
    let c := unframeLoop stride buf.length ⟨buf, 0, 0, none, []⟩
    ⟨c.run.map fun run => ⟨run.1, c.write, run.2, c.read⟩, c.buf, c.trace.reverse⟩

/-- Unframe a whole batch, call by call on what is left of it, until a call unframes
nothing: each result with the payloads at the front of the buffer. -/
def unframeAll (relay sender : SocketAddr) (stride : ℕ) : ℕ → Bytes → Option (List (Unframed × Bytes))
  | 0, _ => none
  | fuel + 1, buf =>
    let call := unframe relay sender buf stride
    match call.result with
    | none => some []
    | some u =>
      (unframeAll relay sender stride fuel (call.buf.drop u.consumed)).map fun runs =>
        (u, call.buf.take u.len) :: runs

end Netty.Socks
