import Netty.Proof.RoundTrip

/-!
# Ending a body in one step or in two

`Conn::write_body_and_end` buffers the last chunk of a request body and its end at once. It puts
the same bytes into the buffer and leaves the same state as `write_body` followed by `end_body`.
It has no result, though: a body that ends before its length is only reported in two steps.

* `Conn.writeBodyThenEnd`: the two steps.
* `fused_or_not`: **one step against two**, for every encoder.
* `short_body_unreported`: the body that is too short.
-/

namespace Netty

variable {β : Type} [LawfulBuf β]

theorem WriteBuf.content_buffer_buffer (w : WriteBuf β) {a b x : β}
    (h : LawfulBuf.content x = LawfulBuf.content a ++ LawfulBuf.content b) :
    ((w.buffer a).buffer b).content = (w.buffer x).content := by
  have hcopy : ∀ y : β, copyOut (Buf.remaining y) y = LawfulBuf.content y := fun y =>
    copyOut_eq _ y (le_of_eq (LawfulBuf.remaining_eq y).symm)
  cases hs : w.strategy with
  | flatten => simp [WriteBuf.buffer, hs, WriteBuf.content, hcopy, h]
  | queue => simp [WriteBuf.buffer, hs, WriteBuf.content, BufList.push, contentAll, h]

namespace Conn

/-- `write_body`, and then `end_body` if the body is still open. -/
def writeBodyThenEnd (c : Conn β) (chunk : β) : Except Error Unit × Conn β :=
  match (c.writeBody chunk).state.writing with
  | .body _ => (c.writeBody chunk).endBody
  | _ => (.ok (), c.writeBody chunk)

/-- What is there after the last chunk, however it was written. -/
structure SameEnd (one two : Conn β) : Prop where
  bytes : one.io.writeBuf.content = two.io.writeBuf.content
  writing : one.state.writing = two.state.writing

variable {c : Conn β} {e : Encoder} (chunk : β)

theorem writeBodyThenEnd_chunked {tr : Option (List HeaderName)} (he : c.state.writing = .body e)
    (hk : e.kind = .chunked tr) :
    (c.writeBodyThenEnd chunk).1 = .ok () ∧ SameEnd (c.writeBodyAndEnd chunk) (c.writeBodyThenEnd chunk).2 := by
  have hw : c.writeBody chunk = (c.bufferBody (Encoder.chunk chunk crlf)).setWriting (.body e) := by
    simp [writeBody, he, Encoder.encode, hk, Encoder.isEof]
  have hend : e.end' (β := β) = .ok (some (.chunkedEnd (ascii "0" ++ crlf ++ crlf))) := by simp [Encoder.end', hk]
  have h2 : c.writeBodyThenEnd chunk =
      (.ok (), ((((c.bufferBody (Encoder.chunk chunk crlf)).setWriting (.body e)).bufferBody
        (.chunkedEnd (ascii "0" ++ crlf ++ crlf))).setWriting
          (if e.isLast || e.isCloseDelimited then .closed else .keepAlive))) := by
    simp only [writeBodyThenEnd, hw, setWriting, modify, endBody, hend]
  rw [h2]
  refine ⟨rfl, ?_, ?_⟩
  · simp only [writeBodyAndEnd, he, Encoder.encodeAndEnd, hk]
    refine (WriteBuf.content_buffer_buffer _ ?_).symm
    rw [content_chunk, content_chunk]
    simp [LawfulBuf.content]
  · simp only [writeBodyAndEnd, he, Encoder.encodeAndEnd, hk]
    cases hl : e.isLast <;> simp [setWriting, modify, Encoder.isCloseDelimited]

/-- A body of known length that the chunk completes. What is too much is cut off. -/
theorem writeBodyThenEnd_complete {n : ℕ} (he : c.state.writing = .body e) (hk : e.kind = .length n)
    (hn : n ≤ Buf.remaining chunk) :
    (c.writeBodyThenEnd chunk).1 = .ok () ∧ SameEnd (c.writeBodyAndEnd chunk) (c.writeBodyThenEnd chunk).2 := by
  have hw : c.writeBody chunk = (c.bufferBody (e.lastPiece chunk)).setWriting (writingDone e) := by
    by_cases hlt : n < Buf.remaining chunk
    · simp [writeBody, he, Encoder.encode, Encoder.lastPiece, hk, hlt, Encoder.isEof, writingDone]
    · have heq : Buf.remaining chunk = n := by omega
      simp [writeBody, he, Encoder.encode, Encoder.lastPiece, hk, heq, Encoder.isEof, writingDone]
  have hdone : (c.writeBody chunk).state.writing = writingDone e := by rw [hw]; rfl
  have h2 : c.writeBodyThenEnd chunk = (.ok (), c.writeBody chunk) := by
    unfold writeBodyThenEnd writingDone at *
    rw [hdone]
    cases e.isLast <;> rfl
  have h1 : e.encodeAndEnd chunk c.io.writeBuf = (!e.isLast, c.io.writeBuf.buffer (e.lastPiece chunk)) := by
    by_cases hlt : n < Buf.remaining chunk
    · have hne : Buf.remaining chunk ≠ n := by omega
      simp [Encoder.encodeAndEnd, Encoder.lastPiece, hk, hlt, hne]
    · have heq : Buf.remaining chunk = n := by omega
      simp [Encoder.encodeAndEnd, Encoder.lastPiece, hk, heq]
  rw [h2]
  refine ⟨rfl, ?_, ?_⟩
  · simp only [writeBodyAndEnd, he, h1, hw]
    rfl
  · rw [hdone]
    simp only [writeBodyAndEnd, he, h1, writingDone]
    cases e.isLast <;> rfl

/-- **A body that is too short** is reported in two steps, and in one step it is not. -/
theorem writeBodyThenEnd_short {n : ℕ} (he : c.state.writing = .body e) (hk : e.kind = .length n)
    (hn : Buf.remaining chunk < n) :
    (c.writeBodyThenEnd chunk).1 = .error (Error.newBodyWriteAborted.with (.notEof (n - Buf.remaining chunk))) ∧
      SameEnd (c.writeBodyAndEnd chunk) (c.writeBodyThenEnd chunk).2 := by
  have hpos : n - Buf.remaining chunk ≠ 0 := by omega
  have hw : c.writeBody chunk = (c.bufferBody (.exact chunk)).setWriting
      (.body { e with kind := .length (n - Buf.remaining chunk) }) := by
    simp [writeBody, he, Encoder.encode, hk, not_lt.2 hn.le, Encoder.isEof, hpos]
  have h2 : c.writeBodyThenEnd chunk =
      (.error (Error.newBodyWriteAborted.with (.notEof (n - Buf.remaining chunk))),
        ((c.bufferBody (.exact chunk)).setWriting
          (.body { e with kind := .length (n - Buf.remaining chunk) })).setWriting .closed) := by
    obtain ⟨m, hm⟩ : ∃ m, n - Buf.remaining chunk = m + 1 := ⟨n - Buf.remaining chunk - 1, by omega⟩
    simp only [writeBodyThenEnd, hw, setWriting, modify, endBody, Encoder.end', hm]
  rw [h2]
  have hne : Buf.remaining chunk ≠ n := hn.ne
  refine ⟨rfl, ?_, ?_⟩
  · simp only [writeBodyAndEnd, he, Encoder.encodeAndEnd, hk, if_neg hne, if_neg (not_lt.2 hn.le)]
    rfl
  · simp only [writeBodyAndEnd, he, Encoder.encodeAndEnd, hk, if_neg hne, if_neg (not_lt.2 hn.le)]
    rfl

/-- **One step against two.** For every connection, encoder and last chunk the bytes in the write buffer and
the state are the same. Two steps succeed, as one step always does, if and only if the chunk does not end a body of
known length too early. -/
theorem fused_or_not (c : Conn β) (e : Encoder) (he : c.state.writing = .body e) (chunk : β) :
    (c.writeBodyAndEnd chunk).io.writeBuf.content = (c.writeBodyThenEnd chunk).2.io.writeBuf.content ∧
    (c.writeBodyAndEnd chunk).state.writing = (c.writeBodyThenEnd chunk).2.state.writing ∧
    ((c.writeBodyThenEnd chunk).1 = .ok () ↔ ∀ n, e.kind = .length n → n ≤ Buf.remaining chunk) := by
  cases hk : e.kind with
  | chunked tr =>
    obtain ⟨hok, hsame⟩ := writeBodyThenEnd_chunked chunk he hk
    exact ⟨hsame.bytes, hsame.writing, nofun, fun _ => hok⟩
  | length n =>
    by_cases hn : n ≤ Buf.remaining chunk
    · obtain ⟨hok, hsame⟩ := writeBodyThenEnd_complete chunk he hk hn
      refine ⟨hsame.bytes, hsame.writing, fun _ m hm => ?_, fun _ => hok⟩
      cases hm
      exact hn
    · obtain ⟨herr, hsame⟩ := writeBodyThenEnd_short chunk he hk (by omega)
      refine ⟨hsame.bytes, hsame.writing, fun hok => ?_, fun h => absurd (h n rfl) hn⟩
      rw [herr] at hok
      cases hok

/-- Five bytes of a body are missing. -/
def shortBody : Conn Bytes := (Conn.new slowTransport (Stream'.const 0)).setWriting (.body (Encoder.length 5))

/-- All five bytes in one chunk. -/
theorem fused_or_not_five : (shortBody.writeBodyAndEnd (ascii "abcde")).state.writing =
    (shortBody.writeBodyThenEnd (ascii "abcde")).2.state.writing :=
  (fused_or_not shortBody (Encoder.length 5) rfl (ascii "abcde")).2.1

/-- **A body that ends two bytes too early**: in two steps the write is aborted, and in one step the connection is
closed without any error. -/
theorem short_body_unreported :
    (shortBody.writeBodyThenEnd (ascii "abc")).1 = .error (Error.newBodyWriteAborted.with (.notEof 2)) ∧
    (shortBody.writeBodyAndEnd (ascii "abc")).state.writing = .closed ∧
    (shortBody.writeBodyAndEnd (ascii "abc")).state.error = none :=
  ⟨(writeBodyThenEnd_short (n := 5) (ascii "abc") rfl rfl (by decide)).1, rfl, rfl⟩

end Conn

end Netty
