import Netty.Spec.Error
import Mathlib.Data.Stream.Init

/-!
# The write buffer

`src/proto/http1/buf.rs` and the `Cursor` and `WriteBuf` of `src/proto/http1/io.rs`.

* `BufList`: a queue of buffers that is read as their concatenation. Its count of
  remaining bytes is the sum over the buffers it holds, by construction.
* `CopyBuf`: buffers with their own way to copy bytes out; `BufList.copyToBytes` uses it.
* `Cursor`: a vector that is read from a position on.
* `WriteBuf`: the bytes of heads in a cursor, and the body buffers either copied
  behind them (`flatten`) or kept in a `BufList` (`queue`).
-/

namespace Netty

open List

variable {β γ : Type} [LawfulBuf β]

/-! ## `BufList` -/

/-- Drop `cnt` bytes from the front: whole buffers, then part of one. -/
def advanceBufs : List β → ℕ → List β
  | [], _ => []
  | b :: bs, cnt =>
    if cnt = 0 then b :: bs
    else if cnt < Buf.remaining b then Buf.advance b cnt :: bs
    else advanceBufs bs (cnt - Buf.remaining b)

/-- The runs of one buffer after the other, until `k` are found. -/
def gather : List β → ℕ → List Bytes
  | [], _ => []
  | b :: bs, k =>
    let v := Buf.chunksVectored b k
    if v.length = k then v else v ++ gather bs (k - v.length)

def remainingAll : List β → ℕ
  | [] => 0
  | b :: bs => Buf.remaining b + remainingAll bs

theorem remainingAll_append (bs cs : List β) : remainingAll (bs ++ cs) = remainingAll bs + remainingAll cs := by
  induction bs with
  | nil => simp [remainingAll]
  | cons b bs ih => simp only [cons_append, remainingAll, ih]; omega

theorem remainingAll_advanceBufs (bufs : List β) :
    ∀ cnt, remainingAll (advanceBufs bufs cnt) = remainingAll bufs - cnt := by
  induction bufs with
  | nil => intro cnt; simp [advanceBufs, remainingAll]
  | cons b bs ih =>
    intro cnt
    unfold advanceBufs
    by_cases h0 : cnt = 0
    · rw [if_pos h0, h0, Nat.sub_zero]
    · rw [if_neg h0]
      by_cases hlt : cnt < Buf.remaining b
      · rw [if_pos hlt]
        have hb : Buf.remaining (Buf.advance b cnt) = Buf.remaining b - cnt := by
          rw [LawfulBuf.remaining_eq] at hlt ⊢
          rw [LawfulBuf.remaining_eq, LawfulBuf.content_advance _ _ (by omega), length_drop]
        simp only [remainingAll, hb]
        omega
      · rw [if_neg hlt, ih]
        simp only [remainingAll]
        omega

structure BufList (β : Type) [LawfulBuf β] where
  bufs : List β
  remaining : ℕ
  counted : remaining = remainingAll bufs

namespace BufList

def new : BufList β := ⟨[], 0, rfl⟩

def push (l : BufList β) (buf : β) : BufList β :=
  ⟨l.bufs ++ [buf], l.remaining + Buf.remaining buf, by simp [remainingAll_append, remainingAll, l.counted]⟩

def bufsCnt (l : BufList β) : ℕ := l.bufs.length

/-- The source asserts `cnt ≤ remaining` first. -/
def advance (l : BufList β) (cnt : ℕ) : BufList β :=
  ⟨advanceBufs l.bufs cnt, l.remaining - cnt, by rw [remainingAll_advanceBufs, l.counted]⟩

instance : Buf (BufList β) where
  remaining l := l.remaining
  chunk l := (l.bufs.head?.map Buf.chunk).getD []
  advance := advance
  chunksVectored l k := if k = 0 then [] else gather l.bufs k

end BufList

/-! ### Copying out -/

/-- The loop of `advance`; `none` if it indexes an empty queue. -/
def advanceLoop : List β → ℕ → Option (List β)
  | bufs, 0 => some bufs
  | [], _ + 1 => none
  | b :: bs, cnt + 1 =>
    if cnt + 1 < Buf.remaining b then some (Buf.advance b (cnt + 1) :: bs)
    else advanceLoop bs (cnt + 1 - Buf.remaining b)

/-- A buffer with an implementation of `copy_to_bytes`. -/
class CopyBuf (β : Type) extends LawfulBuf β where
  copyToBytes : β → ℕ → Bytes × β
  copied : ∀ b n, n ≤ (content b).length →
    (copyToBytes b n).1 = (content b).take n ∧ content (copyToBytes b n).2 = (content b).drop n

instance : CopyBuf Bytes where
  copyToBytes b n := (b.take n, b.drop n)
  copied _ _ _ := ⟨rfl, rfl⟩

theorem CopyBuf.remaining_copy [CopyBuf γ] {b : γ} {n : ℕ} (h : n ≤ Buf.remaining b) :
    Buf.remaining (CopyBuf.copyToBytes b n).2 = Buf.remaining b - n := by
  rw [LawfulBuf.remaining_eq] at h ⊢
  rw [(CopyBuf.copied b n h).2, LawfulBuf.remaining_eq, length_drop]

namespace BufList

variable [CopyBuf γ]

/-- `BytesMut::put(self.take(len))`: run after run, until the buffer or the limit is used up. -/
def putTake : ℕ → BufList γ → ℕ → Bytes × BufList γ
  | 0, l, _ => ([], l)
  | fuel + 1, l, len =>
    if min l.remaining len = 0 then ([], l)
    else
      let run := (Buf.chunk l).take len
      let (bytes, l) := putTake fuel (l.advance run.length) (len - run.length)
      (run ++ bytes, l)

/-- The general path; `none` if the assertion fails. A run has a byte, so `len` rounds are enough. -/
def copyAcross (l : BufList γ) (len : ℕ) : Option (Bytes × BufList γ) :=
  if len ≤ l.remaining then some (putTake len l len) else none

/-- `copy_to_bytes`: the front buffer if it holds all of it, and the general path otherwise. -/
def copyToBytes (l : BufList γ) (len : ℕ) : Option (Bytes × BufList γ) :=
  match h : l.bufs with
  | [] => l.copyAcross len
  | front :: rest =>
    if heq : Buf.remaining front = len then
      some ((CopyBuf.copyToBytes front len).1, ⟨rest, l.remaining - len, by rw [l.counted, h, remainingAll]; omega⟩)
    else if hlt : len < Buf.remaining front then
      some ((CopyBuf.copyToBytes front len).1, ⟨(CopyBuf.copyToBytes front len).2 :: rest, l.remaining - len, by
        rw [l.counted, h, remainingAll, remainingAll, CopyBuf.remaining_copy (le_of_lt hlt)]
        omega⟩)
    else l.copyAcross len

end BufList

/-! ## `Cursor` -/

structure Cursor where
  bytes : Bytes
  pos : ℕ
  pos_le : pos ≤ bytes.length
  deriving DecidableEq, Repr

namespace Cursor

def new (bytes : Bytes) : Cursor := ⟨bytes, 0, Nat.zero_le _⟩

/-- `room` is what `capacity() - len()` answers. -/
def maybeUnshift (c : Cursor) (room additional : ℕ) : Cursor :=
  if c.pos = 0 then c
  else if additional ≤ room then c
  else new (c.bytes.drop c.pos)

def reset (_ : Cursor) : Cursor := new []

def extend (c : Cursor) (bytes : Bytes) : Cursor :=
  ⟨c.bytes ++ bytes, c.pos, by rw [length_append]; have := c.pos_le; omega⟩

/-- The source asserts `pos + cnt ≤ len` first. -/
def advance (c : Cursor) (cnt : ℕ) : Cursor :=
  ⟨c.bytes, min (c.pos + cnt) c.bytes.length, min_le_right _ _⟩

instance : LawfulBuf Cursor where
  remaining c := c.bytes.length - c.pos
  chunk c := c.bytes.drop c.pos
  advance := advance
  chunksVectored c k := firstChunk (c.bytes.length - c.pos) (c.bytes.drop c.pos) k
  content c := c.bytes.drop c.pos
  remaining_eq c := by rw [length_drop]
  chunk_isPrefix _ := prefix_rfl
  chunk_ne_nil _ h := h
  content_advance c n h := by
    rw [length_drop] at h
    show c.bytes.drop (min (c.pos + n) c.bytes.length) = _
    rw [drop_drop, min_eq_left (by have := c.pos_le; omega)]

@[simp] theorem content_extend (c : Cursor) (bytes : Bytes) :
    LawfulBuf.content (c.extend bytes) = LawfulBuf.content c ++ bytes :=
  drop_append_of_le_length c.pos_le

@[simp] theorem content_maybeUnshift (c : Cursor) (room additional : ℕ) :
    LawfulBuf.content (c.maybeUnshift room additional) = LawfulBuf.content c := by
  unfold maybeUnshift
  split
  · rfl
  · split <;> rfl

@[simp] theorem content_reset (c : Cursor) : LawfulBuf.content c.reset = [] := rfl

end Cursor

/-! ## `WriteBuf` -/

inductive WriteStrategy where
  | flatten
  | queue
  deriving DecidableEq, Repr

def initBufferSize : ℕ := 8192

def minimumMaxBufferSize : ℕ := initBufferSize

def defaultMaxBufferSize : ℕ := 8192 + 4096 * 100

def maxBufListBuffers : ℕ := 16

structure WriteBuf (β : Type) [LawfulBuf β] where
  headers : Cursor
  maxBufSize : ℕ
  queue : BufList β
  strategy : WriteStrategy
  /-- How much room the allocator left in `headers`, each time it is asked. -/
  room : Stream' ℕ

/-- The copying loop of `buffer`: run after run until an empty one. A lawful
buffer has fewer runs than bytes. -/
def copyOut : ℕ → β → Bytes
  | 0, _ => []
  | n + 1, b =>
    if Buf.chunk b = [] then []
    else Buf.chunk b ++ copyOut n (Buf.advance b (Buf.chunk b).length)

namespace WriteBuf

def new (strategy : WriteStrategy) (room : Stream' ℕ) : WriteBuf β :=
  ⟨Cursor.new [], defaultMaxBufferSize, BufList.new, strategy, room⟩

def setStrategy (w : WriteBuf β) (strategy : WriteStrategy) : WriteBuf β :=
  { w with strategy := strategy }

/-- Buffer a body piece that has bytes. Turning it into the queue's type wraps it. -/
def buffer (w : WriteBuf β) (buf : β) : WriteBuf β :=
  match w.strategy with
  | .flatten =>
    let head := w.headers.maybeUnshift w.room.head (Buf.remaining buf)
    { w with headers := head.extend (copyOut (Buf.remaining buf) buf), room := w.room.tail }
  | .queue => { w with queue := w.queue.push buf }

/-- Write bytes of a head behind those already there. -/
def extendHeaders (w : WriteBuf β) (bytes : Bytes) : WriteBuf β :=
  { w with headers := w.headers.extend bytes }

instance : Buf (WriteBuf β) where
  remaining w := Buf.remaining w.headers + w.queue.remaining
  chunk w := if Buf.chunk w.headers ≠ [] then Buf.chunk w.headers else Buf.chunk w.queue
  advance w cnt :=
    let hrem := Buf.remaining w.headers
    if hrem = cnt then { w with headers := w.headers.reset }
    else if cnt < hrem then { w with headers := Buf.advance w.headers cnt }
    else { w with headers := w.headers.reset, queue := w.queue.advance (cnt - hrem) }
  chunksVectored w k :=
    let v := Buf.chunksVectored w.headers k
    v ++ Buf.chunksVectored w.queue (k - v.length)

/-- What `w'` has behind all that `w` has. -/
def gained (w w' : WriteBuf β) : Bytes :=
  (LawfulBuf.content w'.headers).drop (LawfulBuf.content w.headers).length ++
    (w'.queue.bufs.flatMap LawfulBuf.content).drop (w.queue.bufs.flatMap LawfulBuf.content).length

def canBuffer (w : WriteBuf β) : Bool :=
  match w.strategy with
  | .flatten => Buf.remaining w < w.maxBufSize
  | .queue => w.queue.bufsCnt < maxBufListBuffers && Buf.remaining w < w.maxBufSize

end WriteBuf

end Netty
