import Netty.Poll.Basic
import Netty.Spec.WriteBuf

/-!
# The transport and the buffers around it

`src/proto/http1/io.rs`. What a transport answers to each call is not up to the
program: a `Transport` holds one stream of answers for each of its operations, and
theorems are about every such streams. It also keeps what no program reads, all the
bytes it handed over and all it accepted.

* `ReadStrategy`: how much room to make for the next read.
* `Buffered`: the transport with its read and write buffers.
* `MemRead`: what the body decoder needs of a reader.
-/

namespace Netty

/-! ## The transport -/

inductive ReadEv where
  /-- These bytes were read; none at the end of the stream. -/
  | ok (bytes : Bytes)
  | err (e : IoError)
  | pending
  deriving DecidableEq, Repr

inductive WriteEv where
  /-- Up to `n` of the offered bytes are accepted. -/
  | ok (n : ℕ)
  | err (e : IoError)
  | pending
  deriving DecidableEq, Repr

/-- The answer of a flush or a shutdown. -/
inductive DoneEv where
  | ok
  | err (e : IoError)
  | pending
  deriving DecidableEq, Repr

def DoneEv.toPoll : DoneEv → Poll (Except IoError Unit)
  | .ok => .ready (.ok ())
  | .err e => .ready (.error e)
  | .pending => .pending

structure Transport where
  reads : Stream' ReadEv
  writes : Stream' WriteEv
  flushes : Stream' DoneEv
  shutdowns : Stream' DoneEv
  isWriteVectored : Bool
  /-- All bytes handed over by reads so far. -/
  received : Bytes
  /-- All bytes accepted by writes so far. -/
  sent : Bytes
  /-- The latest write was left pending. -/
  refused : Bool

namespace Transport

def pollRead (io : Transport) : Poll (Except IoError Bytes) × Transport :=
  let io' := { io with reads := io.reads.tail }
  match io.reads.head with
  | .ok bytes => (.ready (.ok bytes), { io' with received := io.received ++ bytes })
  | .err e => (.ready (.error e), io')
  | .pending => (.pending, io')

def pollWrite (io : Transport) (buf : Bytes) : Poll (Except IoError ℕ) × Transport :=
  let io' := { io with writes := io.writes.tail, refused := false }
  match io.writes.head with
  | .ok n => (.ready (.ok (min n buf.length)), { io' with sent := io.sent ++ buf.take n })
  | .err e => (.ready (.error e), io')
  | .pending => (.pending, { io' with refused := true })

def pollWriteVectored (io : Transport) (bufs : List Bytes) : Poll (Except IoError ℕ) × Transport :=
  io.pollWrite bufs.flatten

def pollFlush (io : Transport) : Poll (Except IoError Unit) × Transport :=
  (io.flushes.head.toPoll, { io with flushes := io.flushes.tail })

def pollShutdown (io : Transport) : Poll (Except IoError Unit) × Transport :=
  (io.shutdowns.head.toPoll, { io with shutdowns := io.shutdowns.tail })

end Transport

/-! ## How much to read -/

inductive ReadStrategy where
  | adaptive (decreaseNow : Bool) (next max : ℕ)
  | exact (n : ℕ)
  deriving DecidableEq, Repr

def incrPowerOfTwo (n : ℕ) : ℕ := min (n * 2) usizeMax

/-- `(usize::MAX >> (n.leading_zeros() + 2)) + 1`, with `leading_zeros` of a 64-bit word. -/
def prevPowerOfTwo (n : ℕ) : ℕ := (usizeMax >>> ((63 - n.log2) + 2)) + 1

namespace ReadStrategy

def withMax (max : ℕ) : ReadStrategy := .adaptive false initBufferSize max

def next : ReadStrategy → ℕ
  | .adaptive _ next _ => next
  | .exact n => n

def max : ReadStrategy → ℕ
  | .adaptive _ _ max => max
  | .exact n => n

def record (bytesRead : ℕ) : ReadStrategy → ReadStrategy
  | .adaptive decreaseNow next max =>
    if next ≤ bytesRead then .adaptive false (min (incrPowerOfTwo next) max) max
    else
      let decrTo := prevPowerOfTwo next
      if bytesRead < decrTo then
        -- decreasing takes two small reads
        if decreaseNow then .adaptive false (Nat.max decrTo initBufferSize) max
        else .adaptive true next max
      else .adaptive false next max
  | .exact n => .exact n

def default : ReadStrategy := withMax defaultMaxBufferSize

end ReadStrategy

/-! ## `Buffered` -/

structure Buffered (β : Type) [LawfulBuf β] where
  flushPipeline : Bool
  io : Transport
  partialLen : Option ℕ
  readBlocked : Bool
  readBuf : Bytes
  readBufStrategy : ReadStrategy
  writeBuf : WriteBuf β

namespace Buffered

variable {β : Type} [LawfulBuf β]

def new (io : Transport) (room : Stream' ℕ) : Buffered β where
  flushPipeline := false
  io := io
  partialLen := none
  readBlocked := false
  readBuf := []
  readBufStrategy := ReadStrategy.default
  writeBuf := WriteBuf.new (if io.isWriteVectored then .queue else .flatten) room

/-- The source asserts `minimumMaxBufferSize ≤ max` first. -/
def setMaxBufSize (b : Buffered β) (max : ℕ) : Buffered β :=
  { b with
    readBufStrategy := ReadStrategy.withMax max
    writeBuf := { b.writeBuf with maxBufSize := max } }

def setReadBufExactSize (b : Buffered β) (sz : ℕ) : Buffered β :=
  { b with readBufStrategy := .exact sz }

def setWriteStrategy (b : Buffered β) (s : WriteStrategy) : Buffered β :=
  { b with writeBuf := b.writeBuf.setStrategy s }

/-- No body bytes of an earlier message are waiting in the queue. -/
def canHeadersBuf (b : Buffered β) : Bool := !Buf.hasRemaining b.writeBuf.queue

def buffer (b : Buffered β) (buf : β) : Buffered β :=
  { b with writeBuf := b.writeBuf.buffer buf }

def hasBufferedWrite (b : Buffered β) : Bool := 0 < Buf.remaining b.writeBuf

def canBuffer (b : Buffered β) : Bool := b.flushPipeline || b.writeBuf.canBuffer

/-- One read of the transport behind the bytes already buffered. The room that is
made for it, `min next (max - len)`, bounds nothing that is observed here: the
transport may answer with fewer bytes, and the allocator may have left more room. -/
def pollReadFromIo (b : Buffered β) : Poll (Except IoError ℕ) × Buffered β :=
  let b := { b with readBlocked := false }
  match b.io.pollRead with
  | (.ready (.ok bytes), io) =>
    (.ready (.ok bytes.length),
      { b with
        io := io
        readBuf := b.readBuf ++ bytes
        readBufStrategy := b.readBufStrategy.record bytes.length })
  | (.ready (.error e), io) => (.ready (.error e), { b with io := io })
  | (.pending, io) => (.pending, { b with io := io, readBlocked := true })
  | (.busy, io) => (.busy, { b with io := io })
  | (.panicked, io) => (.panicked, { b with io := io })

/-- The buffers after a read that found `bytes`. -/
def gotRead (b : Buffered β) (bytes : Bytes) : Buffered β :=
  { b with
    readBlocked := false
    io := { b.io with reads := b.io.reads.tail, received := b.io.received ++ bytes }
    readBuf := b.readBuf ++ bytes
    readBufStrategy := b.readBufStrategy.record bytes.length }

/-- The buffers after a read that found nothing, blocked or not. -/
def gotNothing (b : Buffered β) (blocked : Bool) : Buffered β :=
  { b with readBlocked := blocked, io := { b.io with reads := b.io.reads.tail } }

@[simp] theorem gotRead_readBuf (b : Buffered β) (x : Bytes) : (b.gotRead x).readBuf = b.readBuf ++ x := rfl

@[simp] theorem gotRead_reads (b : Buffered β) (x : Bytes) :
    (b.gotRead x).io.reads = b.io.reads.tail := rfl

@[simp] theorem gotNothing_readBuf (b : Buffered β) (k : Bool) : (b.gotNothing k).readBuf = b.readBuf := rfl

@[simp] theorem gotNothing_reads (b : Buffered β) (k : Bool) :
    (b.gotNothing k).io.reads = b.io.reads.tail := rfl

/-- **What a read does**, by the transport's answer. -/
theorem pollReadFromIo_eq (b : Buffered β) :
    b.pollReadFromIo =
      match b.io.reads.head with
      | .ok bytes => (.ready (.ok bytes.length), b.gotRead bytes)
      | .err e => (.ready (.error e), b.gotNothing false)
      | .pending => (.pending, b.gotNothing true) := by
  unfold pollReadFromIo Transport.pollRead
  cases h : b.io.reads.head <;> simp only [h] <;> rfl

/-! ### Flushing -/

def maxBufs : ℕ := 64

/-- `poll_write_buf`: one write of the write buffer, vectored if the transport is. -/
def pollWriteBuf (b : Buffered β) : Poll (Except IoError ℕ) × Buffered β :=
  if Buf.remaining b.writeBuf = 0 then (.ready (.ok 0), b)
  else
    let x :=
      if b.io.isWriteVectored then b.io.pollWriteVectored (Buf.chunksVectored b.writeBuf maxBufs)
      else b.io.pollWrite (Buf.chunk b.writeBuf)
    whenOk (within x fun io => { b with io := io }) fun n b =>
      (.ready (.ok n), { b with writeBuf := Buf.advance b.writeBuf n })

def writeZero : IoError := ⟨.writeZero, .none⟩

/-- After a write of `n` bytes: flush the transport, write again, or give up. -/
def afterWrite (left n : ℕ) (b : Buffered β) : Ctl (Except IoError Unit) (Buffered β) :=
  if left = 0 then .ret (within b.io.pollFlush fun io => { b with io := io })
  else if n = 0 then .ret (.ready (.error writeZero), b)
  else .again b

/-- One write of the head buffer, which is emptied when all of it was written. -/
def pollWriteHeaders (b : Buffered β) : Poll (Except IoError ℕ) × Buffered β :=
  whenOk (within (b.io.pollWrite (Buf.chunk b.writeBuf.headers)) fun io => { b with io := io })
    fun n b =>
      let h := Buf.advance b.writeBuf.headers n
      let h := if Buf.remaining h = 0 then h.reset else h
      (.ready (.ok n), { b with writeBuf := { b.writeBuf with headers := h } })

def flushFlattenedStep (b : Buffered β) : Ctl (Except IoError Unit) (Buffered β) :=
  Ctl.whenOk b.pollWriteHeaders fun n b => afterWrite (Buf.remaining b.writeBuf.headers) n b

def flushQueuedStep (b : Buffered β) : Ctl (Except IoError Unit) (Buffered β) :=
  Ctl.whenOk b.pollWriteBuf fun n b => afterWrite (Buf.remaining b.writeBuf) n b

/-- The loops write at least a byte each round, so a round for each byte is enough. -/
def pollFlush (b : Buffered β) : Poll (Except IoError Unit) × Buffered β :=
  if b.flushPipeline && b.readBuf ≠ [] then (.ready (.ok ()), b)
  else if Buf.remaining b.writeBuf = 0 then within b.io.pollFlush fun io => { b with io := io }
  else
    match b.writeBuf.strategy with
    | .flatten => loop flushFlattenedStep (Buf.remaining b.writeBuf) b
    | .queue => loop flushQueuedStep (Buf.remaining b.writeBuf) b

def pollShutdown (b : Buffered β) : Poll (Except IoError Unit) × Buffered β :=
  whenOk b.pollFlush fun _ b => within b.io.pollShutdown fun io => { b with io := io }

end Buffered

/-! ## `MemRead` -/

class MemRead (ρ : Type) where
  readMem : ρ → ℕ → Poll (Except IoError Bytes) × ρ

/-- Take up to `len` bytes off the read buffer, after a read if it was empty. -/
def Buffered.readMem {β : Type} [LawfulBuf β] (b : Buffered β) (len : ℕ) :
    Poll (Except IoError Bytes) × Buffered β :=
  if b.readBuf ≠ [] then
    let n := min len b.readBuf.length
    (.ready (.ok (b.readBuf.take n)), { b with readBuf := b.readBuf.drop n })
  else
    whenOk b.pollReadFromIo fun n b =>
      let k := min len n
      (.ready (.ok (b.readBuf.take k)), { b with readBuf := b.readBuf.drop k })

instance {β : Type} [LawfulBuf β] : MemRead (Buffered β) := ⟨Buffered.readMem⟩

/-- A byte string read to its end. -/
instance : MemRead Bytes := ⟨fun r len => (.ready (.ok (r.take len)), r.drop len)⟩

end Netty
