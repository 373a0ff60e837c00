import Netty.Spec.Dispatch

/-!
# The hand-over of an upgraded connection

`src/upgrade.rs`, `UpgradeableConnection` of `src/conn/http1.rs`, and the functions that
take a connection apart. The one-shot channel of an upgrade is its answer: what
`Pending::fulfill` sends is what `poll` returns beside its result.

* `Rewind`: a transport whose reads start with bytes that were already read.
* `UpgradeableConnection.poll`: the connection until it is upgraded.
* `Upgraded.readAll`: what is read from it, with buffers of any sizes.
-/

namespace Netty

/-! ## `Rewind` -/

/-- A read into a buffer with this much room: what does not fit is left for the next one. -/
def Transport.pollReadInto (io : Transport) (room : ℕ) : Poll (Except IoError Bytes) × Transport :=
  match io.reads.head with
  | .ok bytes =>
    (.ready (.ok (bytes.take room)),
      { io with
        reads := if bytes.length ≤ room then io.reads.tail else Stream'.cons (.ok (bytes.drop room)) io.reads.tail
        received := io.received ++ bytes.take room })
  | .err e => (.ready (.error e), { io with reads := io.reads.tail })
  | .pending => (.pending, { io with reads := io.reads.tail })

structure Rewind where
  pre : Option Bytes
  inner : Transport

namespace Rewind

def newBuffered (io : Transport) (buf : Bytes) : Rewind := ⟨some buf, io⟩

/-- `poll_read` of what is below, with nothing left in front of it. -/
def pollInner (r : Rewind) (room : ℕ) : Poll (Except IoError Bytes) × Rewind :=
  within (r.inner.pollReadInto room) fun io => ⟨none, io⟩

/-- `Rewind::poll_read`: the bytes that are added to a buffer with this much room. -/
def pollRead (r : Rewind) (room : ℕ) : Poll (Except IoError Bytes) × Rewind :=
  match r.pre with
  | some pre =>
    if pre ≠ [] then
      let copyLen := min pre.length room
      let left := pre.drop copyLen
      (.ready (.ok (pre.take copyLen)), { r with pre := if left ≠ [] then some left else none })
    else r.pollInner room
  | none => r.pollInner room

end Rewind

/-! ## `Upgraded` -/

structure Upgraded where
  io : Rewind

namespace Upgraded

def new (io : Transport) (readBuf : Bytes) : Upgraded := ⟨Rewind.newBuffered io readBuf⟩

def pollRead (u : Upgraded) (room : ℕ) : Poll (Except IoError Bytes) × Upgraded :=
  within (u.io.pollRead room) fun io => ⟨io⟩

/-- All the bytes that reads with these buffers give, one after the other. -/
def readAll (u : Upgraded) : List ℕ → Bytes × Upgraded
  | [] => ([], u)
  | room :: rooms =>
    match u.pollRead room with
    | (.ready (.ok bytes), u) =>
      let (rest, u) := u.readAll rooms
      (bytes ++ rest, u)
    | (_, u) => u.readAll rooms

end Upgraded

/-! ## The connection -/

variable {β : Type} [LawfulBuf β]

def Buffered.intoInner (b : Buffered β) : Transport × Bytes := (b.io, b.readBuf)

def Conn.intoInner (c : Conn β) : Transport × Bytes := c.io.intoInner

/-- `Connection::into_parts`. The dispatcher and what it holds is dropped. -/
def Dispatcher.intoParts (d : Dispatcher β) : Transport × Bytes := d.conn.intoInner

structure UpgradeableConnection (β : Type) [LawfulBuf β] where
  inner : Option (Dispatcher β)

/-- `UpgradeableConnection::poll`, with what a pending upgrade was fulfilled with. -/
def UpgradeableConnection.poll (hp : Httparse) (fuel : ℕ) (c : UpgradeableConnection β) :
    Poll (Except Error Unit) × UpgradeableConnection β × Option Upgraded :=
  match c.inner with
  | none => (.panicked, c, none)
  | some d =>
    match d.pollCatch hp fuel true with
    | (.ready (.ok .shutdown), d) => (.ready (.ok ()), ⟨some d⟩, none)
    | (.ready (.ok .upgrade), d) =>
      let (io, readBuf) := d.intoParts
      (.ready (.ok ()), ⟨none⟩, some (Upgraded.new io readBuf))
    | (.ready (.error e), d) => (.ready (.error e), ⟨some d⟩, none)
    | (.pending, d) => (.pending, ⟨some d⟩, none)
    | (.busy, d) => (.busy, ⟨some d⟩, none)
    | (.panicked, d) => (.panicked, ⟨some d⟩, none)

end Netty
