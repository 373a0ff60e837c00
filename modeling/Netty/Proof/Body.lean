import Netty.Proof.KeepAlive

/-!
# Request bodies are framed exactly

A request body is polled frame by frame while responses are read, output is flushed
and users act. What is buffered for it behind its head is its framing.

* `Encoder.framing`: what a whole body looks like on the wire.
* `Yields`: the data and the trailers of a body that is polled to its end.
* `Wrote`: how far the body has come, in the state right behind a write.
* `Framed`: the same at any later point, until the next request head.
-/

namespace Netty

open LawfulBuf List

/-! ## What a body is to look like -/

namespace Encoder

/-- The trailer lines that are sent: of fields that were announced and are allowed there. -/
def trailerLines (e : Encoder) (trailers : Option HeaderMap) : Bytes :=
  match e.kind, trailers with
  | .chunked (some allowed), some fields =>
    writeHeaders ((allowedTrailers allowed fields.intoIter none .empty).getD .empty)
  | _, _ => []

/-- Pieces of a body, and no end yet. -/
def framed (e : Encoder) (pieces : List Bytes) : Bytes :=
  match e.kind with
  | .length _ => pieces.flatten
  | .chunked _ => pieces.flatMap chunkBytes

/-- **A body on the wire**: its data up to the announced length, or a chunk for each piece
and one terminator. -/
def framing (e : Encoder) (pieces : List Bytes) (trailers : Option HeaderMap) : Bytes :=
  match e.kind with
  | .length n => pieces.flatten.take n
  | .chunked _ => pieces.flatMap chunkBytes ++ (ascii "0" ++ crlf ++ e.trailerLines trailers ++ crlf)

/-- All bytes that were announced, or the chunks with their terminator. -/
def Finished (e : Encoder) (pieces : List Bytes) (trailers : Option HeaderMap) (sent : Bytes) : Prop :=
  match e.kind with
  | .length n => sent.length = n
  | .chunked _ => sent = e.framing pieces trailers

/-- `r` is what is left of `e` behind these pieces. -/
def Left (e : Encoder) (done : List Bytes) (r : Encoder) : Prop :=
  r.isLast = false ∧
    match e.kind with
    | .length n => done.flatten.length < n ∧ r.kind = .length (n - done.flatten.length)
    | .chunked t => r.kind = .chunked t

end Encoder

variable {β : Type} [LawfulBuf β]

/-- A body that is polled to its end gives this data, in pieces that are not empty, and
these trailers. It may have nothing yet at any time, and what would follow the end it
reports is not asked for. -/
inductive Yields : Stream' (BodyEv β) → List Bytes → Option HeaderMap → Prop
  | pending {s : Stream' (BodyEv β)} {pieces : List Bytes} {trailers : Option HeaderMap} :
      s.head = .pending → Yields s.tail pieces trailers → Yields s pieces trailers
  | unknown {s : Stream' (BodyEv β)} {pieces : List Bytes} {trailers : Option HeaderMap} :
      s.head = .unknown → Yields s.tail pieces trailers → Yields s pieces trailers
  | empty {s : Stream' (BodyEv β)} {chunk : β} {pieces : List Bytes} {trailers : Option HeaderMap} :
      s.head = .data chunk false → Buf.remaining chunk = 0 → Yields s.tail pieces trailers → Yields s pieces trailers
  | data {s : Stream' (BodyEv β)} {chunk : β} {pieces : List Bytes} {trailers : Option HeaderMap} :
      s.head = .data chunk false → Buf.remaining chunk ≠ 0 → Yields s.tail pieces trailers →
      Yields s (content chunk :: pieces) trailers
  | lastEmpty {s : Stream' (BodyEv β)} {chunk : β} : s.head = .data chunk true → Buf.remaining chunk = 0 →
      Yields s [] none
  | last {s : Stream' (BodyEv β)} {chunk : β} : s.head = .data chunk true → Buf.remaining chunk ≠ 0 →
      Yields s [content chunk] none
  | trailers {s : Stream' (BodyEv β)} {fields : HeaderMap} : s.head = .trailers fields → Yields s [] (some fields)
  | done {s : Stream' (BodyEv β)} : s.head = .done → Yields s [] none

/-- The same for the body of a request, which may have reported its end before it was
polled at all. -/
structure RequestBody.Gives (b : RequestBody β) (pieces : List Bytes) (trailers : Option HeaderMap) : Prop where
  frames : Yields b.frames pieces trailers
  empty : b.isEndStream = true → pieces = [] ∧ trailers = none

/-- The bytes of request bodies in a log, latest event first. -/
def sentBody : List Ev → Bytes
  | [] => []
  | .wroteBody bytes :: l => sentBody l ++ bytes
  | _ :: l => sentBody l

theorem sentBody_append (l l' : List Ev) : sentBody (l ++ l') = sentBody l' ++ sentBody l := by
  induction l with
  | nil => exact (append_nil _).symm
  | cons ev l ih =>
    cases ev with
    | wroteBody bytes => rw [cons_append, sentBody, ih, append_assoc]; rfl
    | _ => exact ih

theorem sentBody_unwritten {l : List Ev} (h : ∀ ev ∈ l, ¬ev.Writes) (l' : List Ev) :
    sentBody (l ++ l') = sentBody l' := by
  induction l with
  | nil => rfl
  | cons ev l ih =>
    have hl := ih fun ev' h' => h ev' (mem_cons_of_mem _ h')
    have hev := h ev (by simp)
    cases ev <;> first | exact hl | exact absurd trivial hev

/-! ## Encoding -/

namespace Encoder

variable {e r : Encoder} {done : List Bytes}

theorem trailerLines_none (e : Encoder) : e.trailerLines none = [] := by
  unfold trailerLines
  split
  · rename_i h
    cases h
  · rfl

theorem left_start (hl : e.isLast = false) (he : e.isEof = false) : e.Left [] e := by
  refine ⟨hl, ?_⟩
  simp only [isEof, decide_eq_false_iff_not] at he
  split
  · rename_i n hk
    refine ⟨?_, by simpa using hk⟩
    rcases Nat.eq_zero_or_pos n with rfl | hn
    · exact absurd hk he
    · simpa using hn
  · assumption

theorem Left.isEof (h : e.Left done r) : r.isEof = false := by
  obtain ⟨-, h⟩ := h
  simp only [Encoder.isEof, decide_eq_false_iff_not]
  intro hr
  split at h
  · rw [hr] at h
    injection h.2 with h'
    omega
  · rw [hr] at h; cases h

theorem Left.not_finished (h : e.Left done r) (left : List Bytes) (trailers : Option HeaderMap) :
    ¬e.Finished (done ++ left) trailers (e.framed done) := by
  obtain ⟨-, h⟩ := h
  unfold Finished framed framing
  cases hk : e.kind with
  | length n =>
    rw [hk] at h
    exact fun hn => by simp only at hn; omega
  | chunked t =>
    simp only [flatMap_append, append_assoc]
    intro hn
    have := congrArg List.length hn
    simp only [length_append] at this
    have h0 : (ascii "0").length = 1 := rfl
    omega

theorem Left.isPrefix (h : e.Left done r) (left : List Bytes) (trailers : Option HeaderMap) :
    e.framed done <+: e.framing (done ++ left) trailers := by
  obtain ⟨-, h⟩ := h
  unfold framed framing
  cases hk : e.kind with
  | length n =>
    rw [hk] at h
    simp only [flatten_append]
    rw [take_append, take_of_length_le (le_of_lt h.1)]
    exact prefix_append _ _
  | chunked t =>
    simp only [flatMap_append, append_assoc]
    exact prefix_append _ _

theorem content_lastChunk (msg : β) :
    content (chunk msg (crlf ++ ascii "0" ++ crlf ++ crlf)) =
      chunkBytes (content msg) ++ (ascii "0" ++ crlf ++ crlf) := by
  rw [content_chunk]
  simp [chunkBytes]

theorem content_limited (msg : β) (n : ℕ) :
    content (EncodedBuf.limited ⟨msg, n⟩) = (content msg).take n := rfl

theorem content_exact (msg : β) : content (EncodedBuf.exact msg) = content msg := rfl

theorem chunkBytes_ne_nil (d : Bytes) : chunkBytes d ≠ [] := by simp [chunkBytes, crlf]

theorem take_content_ne_nil {n : ℕ} (hr : r.isEof = false) (hk : r.kind = .length n) {msg : β}
    (hm : Buf.remaining msg ≠ 0) : (content msg).take n ≠ [] := by
  simp only [isEof, hk, decide_eq_false_iff_not, Kind.length.injEq] at hr
  rw [ne_eq, take_eq_nil_iff, not_or]
  exact ⟨hr, content_ne_nil hm⟩

theorem encode_ne_nil (hr : r.isEof = false) {msg : β} (hm : Buf.remaining msg ≠ 0) :
    content (r.encode msg).1 ≠ [] := by
  unfold encode
  simp only
  split
  · rw [content_crlf]; exact chunkBytes_ne_nil _
  · split
    · exact take_content_ne_nil hr ‹_› hm
    · exact content_ne_nil hm

theorem lastPiece_ne_nil (hr : r.isEof = false) {msg : β} (hm : Buf.remaining msg ≠ 0) :
    content (r.lastPiece msg) ≠ [] := by
  unfold lastPiece
  split
  · rw [content_lastChunk]; simp [chunkBytes_ne_nil]
  · split
    · exact take_content_ne_nil hr ‹_› hm
    · exact content_ne_nil hm

theorem end'_ne_nil {buf : EncodedBuf β} (h : r.end' = .ok (some buf)) : content buf ≠ [] := by
  unfold end' at h
  split at h
  · cases h
  · cases h; simp [content, crlf]
  · cases h

theorem encodeTrailers_ne_nil {fields : HeaderMap} {buf : EncodedBuf β} (h : r.encodeTrailers fields = some buf) :
    content buf ≠ [] := by
  unfold encodeTrailers at h
  split at h
  · split at h
    · cases h
    · simp only at h
      split at h
      · cases h
      · cases h; simp [content, crlf]
  · cases h
  · cases h

theorem finished_length {n : ℕ} (hk : e.kind = .length n) (hd : done.flatten.length < n) (data : Bytes)
    (hn : n ≤ done.flatten.length + data.length) (more : List Bytes) (trailers : Option HeaderMap) :
    done.flatten ++ data.take (n - done.flatten.length) = e.framing (done ++ data :: more) trailers ∧
      e.Finished (done ++ data :: more) trailers (done.flatten ++ data.take (n - done.flatten.length)) := by
  constructor
  · simp only [framing, hk, flatten_append, flatten_cons]
    rw [take_append, take_of_length_le (le_of_lt hd), take_append_of_le_length (by omega)]
  · simp only [Finished, hk, length_append, length_take]
    omega

/-- **A piece of the body** is buffered, and either something is left behind it or it has used
up the length, and whatever follows is cut off. -/
theorem Left.encode (h : e.Left done r) {msg : β} (hm : Buf.remaining msg ≠ 0) :
    (r.encode msg).2.isLast = false ∧
      ((r.encode msg).2.isEof = false ∧ e.Left (done ++ [content msg]) (r.encode msg).2 ∧
          e.framed done ++ content (r.encode msg).1 = e.framed (done ++ [content msg]) ∨
        (r.encode msg).2.isEof = true ∧ ∀ more trailers,
          e.framed done ++ content (r.encode msg).1 =
              e.framing (done ++ content msg :: more) trailers ∧
            e.Finished (done ++ content msg :: more) trailers
              (e.framed done ++ content (r.encode msg).1)) := by
  obtain ⟨hl, h⟩ := h
  have hpos := length_pos_iff.2 (content_ne_nil hm)
  cases hk : e.kind with
  | length n =>
    rw [hk] at h
    obtain ⟨hd, hr⟩ := h
    simp only [framed, hk]
    by_cases hlt : n - done.flatten.length < Buf.remaining msg
    · have henc : r.encode msg = (.limited ⟨msg, n - done.flatten.length⟩, { r with kind := .length 0 }) := by
        simp only [Encoder.encode, hr, if_pos hlt]
      rw [henc, content_limited]
      rw [remaining_eq] at hlt
      exact ⟨hl, .inr ⟨by simp [Encoder.isEof], fun more trailers =>
        finished_length hk hd _ (by omega) more trailers⟩⟩
    · have henc : r.encode msg =
          (.exact msg, { r with kind := .length (n - done.flatten.length - Buf.remaining msg) }) := by
        simp only [Encoder.encode, hr, if_neg hlt]
      rw [henc, content_exact]
      rw [remaining_eq] at hlt ⊢
      refine ⟨hl, ?_⟩
      rcases lt_or_ge (content msg).length (n - done.flatten.length) with h' | h'
      · refine .inl ⟨?_, ⟨hl, ?_⟩, by simp⟩
        · simp only [Encoder.isEof, decide_eq_false_iff_not, Kind.length.injEq]; omega
        · simp only [hk, flatten_append, length_append, Kind.length.injEq]
          simp only [flatten_cons, flatten_nil, append_nil]
          omega
      · refine .inr ⟨?_, fun more trailers => ?_⟩
        · simp only [Encoder.isEof, decide_eq_true_eq, Kind.length.injEq]; omega
        · have := finished_length hk hd (content msg) (by omega) more trailers
          rwa [take_of_length_le (by omega)] at this
  | chunked t =>
    rw [hk] at h
    have henc : r.encode msg = (chunk msg crlf, r) := by simp only [Encoder.encode, h]
    rw [henc, content_crlf]
    simp only [framed, hk]
    exact ⟨hl, .inl ⟨by simp [Encoder.isEof, h], ⟨hl, by rw [hk]; exact h⟩, by simp⟩⟩

theorem Left.lastPiece (h : e.Left done r) (msg : β) (w : WriteBuf (EncodedBuf β)) :
    e.framed done ++ content (r.lastPiece msg) = e.framing (done ++ [content msg]) none ∧
      ((r.encodeAndEnd msg w).1 = true ↔ e.Finished (done ++ [content msg]) none
        (e.framed done ++ content (r.lastPiece msg))) := by
  obtain ⟨hl, h⟩ := h
  cases hk : e.kind with
  | length n =>
    rw [hk] at h
    obtain ⟨hd, hr⟩ := h
    simp only [framed, hk]
    by_cases hlt : n - done.flatten.length < Buf.remaining msg
    · have hlast : r.lastPiece msg = .limited ⟨msg, n - done.flatten.length⟩ := by
        simp only [Encoder.lastPiece, hr, if_pos hlt]
      have hend : (r.encodeAndEnd msg w).1 = true := by
        simp only [Encoder.encodeAndEnd, hr, if_pos hlt]
        rw [if_neg (by omega), hl]
        rfl
      rw [hlast, content_limited, hend]
      rw [remaining_eq] at hlt
      obtain ⟨h1, h2⟩ := finished_length hk hd (content msg) (by omega) [] none
      exact ⟨h1, fun _ => h2, fun _ => rfl⟩
    · have hlast : r.lastPiece msg = .exact msg := by simp only [Encoder.lastPiece, hr, if_neg hlt]
      have hend : (r.encodeAndEnd msg w).1 = decide (Buf.remaining msg = n - done.flatten.length) := by
        simp only [Encoder.encodeAndEnd, hr, if_neg hlt]
        split
        · rename_i heq; rw [decide_eq_true heq, hl]; rfl
        · rename_i heq; exact (decide_eq_false heq).symm
      rw [hlast, content_exact, hend]
      rw [remaining_eq] at hlt ⊢
      refine ⟨?_, ?_⟩
      · simp only [framing, hk, flatten_append]
        rw [take_of_length_le]
        · simp
        · simp only [length_append, flatten_cons, flatten_nil, append_nil]; omega
      · simp only [Finished, hk, length_append, decide_eq_true_eq]
        omega
  | chunked t =>
    rw [hk] at h
    have hlast : r.lastPiece msg = chunk msg (crlf ++ ascii "0" ++ crlf ++ crlf) := by simp only [Encoder.lastPiece, h]
    have hend : (r.encodeAndEnd msg w).1 = true := by simp only [Encoder.encodeAndEnd, h, hl]; rfl
    have hframing : e.framed done ++ content (chunk msg (crlf ++ ascii "0" ++ crlf ++ crlf)) =
        e.framing (done ++ [content msg]) none := by
      rw [content_lastChunk]
      simp [framed, framing, trailerLines, hk]
    rw [hlast, hend]
    refine ⟨hframing, fun _ => ?_, fun _ => rfl⟩
    simp only [Finished, hk]
    exact hframing

theorem Left.end' (h : e.Left done r) {trailers : Option HeaderMap} (ht : e.trailerLines trailers = []) :
    (∃ buf : EncodedBuf β, r.end' = .ok (some buf) ∧
        e.framed done ++ content buf = e.framing done trailers ∧
        e.Finished done trailers (e.framed done ++ content buf)) ∨
      (∃ n, r.end' (β := β) = .error n) ∧ e.framed done = e.framing done trailers ∧
        ¬e.Finished done trailers (e.framed done) := by
  have hnot := h.not_finished [] trailers
  rw [append_nil] at hnot
  obtain ⟨-, h⟩ := h
  cases hk : e.kind with
  | length n =>
    rw [hk] at h
    obtain ⟨hd, hr⟩ := h
    refine .inr ⟨?_, ?_, hnot⟩
    · obtain ⟨m, hm⟩ : ∃ m, n - done.flatten.length = m + 1 := ⟨n - done.flatten.length - 1, by omega⟩
      rw [hm] at hr
      exact ⟨m + 1, by simp only [Encoder.end', hr]⟩
    · simp only [framed, framing, hk]
      rw [take_of_length_le (le_of_lt hd)]
  | chunked t =>
    rw [hk] at h
    have hframing : e.framed done ++ (ascii "0" ++ crlf ++ crlf) = e.framing done trailers := by
      simp [framed, framing, hk, ht]
    refine .inl ⟨.chunkedEnd (ascii "0" ++ crlf ++ crlf), by simp only [Encoder.end', h], hframing, ?_⟩
    simp only [Finished, hk]
    exact hframing

/-- **The trailers** end the body, unless no line of them may be sent. -/
theorem Left.encodeTrailers (h : e.Left done r) (fields : HeaderMap) :
    (∃ buf : EncodedBuf β, r.encodeTrailers fields = some buf ∧
        e.framed done ++ content buf = e.framing done (some fields) ∧
        e.Finished done (some fields) (e.framed done ++ content buf)) ∨
      r.encodeTrailers (β := β) fields = none ∧ e.trailerLines (some fields) = [] := by
  obtain ⟨-, h⟩ := h
  cases hk : e.kind with
  | length n =>
    rw [hk] at h
    exact .inr ⟨by simp only [Encoder.encodeTrailers, h.2], by simp only [trailerLines, hk]⟩
  | chunked t =>
    rw [hk] at h
    cases t with
    | none => exact .inr ⟨by simp only [Encoder.encodeTrailers, h], by simp only [trailerLines, hk]⟩
    | some allowed =>
      simp only [Encoder.encodeTrailers, h]
      have hlines : e.trailerLines (some fields) =
          writeHeaders ((allowedTrailers allowed fields.intoIter none .empty).getD .empty) := by
        simp only [trailerLines, hk]
      cases hm : allowedTrailers allowed fields.intoIter none .empty with
      | none =>
        rw [hm] at hlines
        exact .inr ⟨rfl, hlines⟩
      | some m =>
        rw [hm, Option.getD_some] at hlines
        simp only
        split
        · rename_i hb
          exact .inr ⟨rfl, hlines.trans hb⟩
        · have hframing : e.framed done ++ (ascii "0" ++ crlf ++ writeHeaders m ++ crlf) =
              e.framing done (some fields) := by
            simp only [framed, framing, hk, hlines]
          refine .inl ⟨_, rfl, hframing, ?_⟩
          simp only [Finished, hk]
          exact hframing

end Encoder

/-! ## Buffers with bytes -/

namespace Conn

variable {H : Httparse} {c c' : Conn β}

/-- A body that is being written has an end to come, and no buffer was pushed without bytes. -/
structure Pushes (s : State) : Prop where
  writing : ∀ r, s.writing = .body r → r.isEof = false
  bytes : ∀ bytes, .wroteBody bytes ∈ s.log → bytes ≠ []

theorem Pushes.unwritten {s s' : State} (h : Pushes s) (hs : s.Unwritten s') : Pushes s' := by
  obtain ⟨l, hl, hev, hw⟩ := hs
  refine ⟨fun r hr => ?_, fun bytes hb => ?_⟩
  · cases hsw : s.writing with
    | body r' =>
      rw [hsw] at hw
      rcases hw with hw | ⟨hw, -⟩ <;> rw [hw] at hr <;> cases hr
      exact h.writing r hsw
    | closed => rw [hsw] at hw; rw [show s'.writing = .closed from hw] at hr; cases hr
    | init => rw [hsw] at hw; exact absurd hr (hw r)
    | keepAlive => rw [hsw] at hw; exact absurd hr (hw r)
  · rw [hl, mem_append] at hb
    rcases hb with hb | hb
    · exact absurd trivial (hev _ hb)
    · exact h.bytes bytes hb

theorem Pushes.wrote {s s' : State} (h : Pushes s) (hw : ∀ r, s'.writing = .body r → r.isEof = false)
    (hl : s'.log = s.log ∨ ∃ bytes, bytes ≠ [] ∧ s'.log = .wroteBody bytes :: s.log) : Pushes s' := by
  refine ⟨hw, fun bytes hb => ?_⟩
  rcases hl with hl | ⟨b, hne, hl⟩ <;> rw [hl] at hb
  · exact h.bytes bytes hb
  · rcases mem_cons.1 hb with hb | hb
    · cases hb; exact hne
    · exact h.bytes bytes hb

theorem Pushes.calm (hm : Calm H c c') (h : Pushes c.state) : Pushes c'.state := by
  -- a message that is over is not being written
  have ended : ∀ (b : Bool) (r : Encoder), (if b then Writing.closed else .keepAlive) = .body r → r.isEof = false := by
    intro b r hr
    cases b <;> cases hr
  cases hm with
  | parse fuel hr => exact h.unwritten (Quiet.parse (H := H) fuel hr).2
  | interim hr hw => exact h.unwritten (Quiet.interim (H := H) hr hw).2
  | unhold hr => exact h.unwritten (Quiet.unhold (H := H) hr).2
  | decode hr hd hp => exact h.unwritten (Quiet.decode hr hd hp).2
  | frame hr hd ha => exact h.unwritten (Quiet.frame hr hd ha).2
  | tryKeepAlive => exact h.unwritten (Quiet.tryKeepAlive (H := H)).2
  | read => exact h.unwritten (Quiet.read (H := H)).2
  | skip hr => exact h.unwritten (Quiet.skip (H := H) hr).2
  | closeRead => exact h.unwritten (Quiet.closeRead (H := H)).2
  | closeWrite hr => exact h.unwritten (Quiet.closeWrite (H := H) hr).2
  | close => exact h.unwritten (Quiet.close (H := H)).2
  | @writeBody chunk _ hm =>
    unfold writeBody
    split
    · rename_i r hr
      simp only [bufferBody_eq]
      refine h.wrote (fun r' hr' => ?_) (.inr ⟨_, Encoder.encode_ne_nil (h.writing r hr) hm, rfl⟩)
      change (if !(r.encode chunk).2.isEof then Writing.body (r.encode chunk).2
        else writingDone (r.encode chunk).2) = _ at hr'
      split at hr'
      · cases hr'; simpa using ‹(!(r.encode chunk).2.isEof) = true›
      · exact ended _ _ hr'
    · exact h
  | writeTrailers fields _ =>
    unfold writeTrailers
    split
    · split
      · rename_i buf hb
        rw [bufferBody_eq]
        exact h.wrote (ended _) (.inr ⟨_, Encoder.encodeTrailers_ne_nil hb, rfl⟩)
      · exact h
    · exact h
  | @writeBodyAndEnd chunk hcan hm =>
    obtain ⟨r, hr⟩ := canWriteBody_writing hcan
    rw [writeBodyAndEnd_eq hr, bufferBody_eq]
    refine h.wrote (fun r' hr' => ?_) (.inr ⟨_, Encoder.lastPiece_ne_nil (h.writing r hr) hm, rfl⟩)
    change (if (r.encodeAndEnd chunk c.io.writeBuf).1 then Writing.keepAlive else .closed) = _ at hr'
    split at hr' <;> cases hr'
  | endBody _ =>
    unfold endBody
    split
    · split
      · exact h.wrote (ended _) (.inl rfl)
      · rename_i buf hb
        rw [bufferBody_eq]
        exact h.wrote (ended _) (.inr ⟨_, Encoder.end'_ne_nil hb, rfl⟩)
      · exact h.wrote (by intro r hr; cases hr) (.inl rfl)
    · exact h
  | flush => exact h.unwritten (Quiet.flush (H := H)).2
  | flushed done => exact h.unwritten (Quiet.flushed (H := H) done).2
  | shutdown => exact h.unwritten (State.unwritten_of_eq rfl rfl)
  | quiet hs => exact h.unwritten hs.unwritten

theorem Pushes.move (hm : Move H c c') (h : Pushes c.state) : Pushes c'.state := by
  cases hm with
  | calm hm => exact h.calm hm
  | @head c₁ fuel msg hr hparse =>
    have h₁ := (Quiet.parse (H := H) fuel hr).2
    rw [hparse] at h₁
    exact h.unwritten (h₁.trans (gotHead_unwritten c₁.state msg))
  | writeHead head body _ =>
    have hw := c.writeHead_wrote head body
    refine ⟨fun r hr => ?_, fun bytes hb => ?_⟩
    · rw [hw.writing] at hr
      split at hr
      · cases hr; simpa using ‹(!Encoder.isEof _) = true›
      · unfold writingDone at hr
        split at hr <;> cases hr
    · rw [hw.log] at hb
      rcases mem_cons.1 hb with hb | hb
      · cases hb
      · exact h.bytes bytes hb
  | @note ev hev => exact h.unwritten (c.state.unwritten_note ev (by cases ev <;> first | exact id | exact hev.elim))

end Conn

/-! ## Writing a body -/

/-- What a body has yet to give: what the stream in hand gives, or nothing, if it was let go. -/
def ToCome (e : Encoder) (left : List Bytes) (trailers : Option HeaderMap) : Option (RequestBody β) → Prop
  | some b => Yields b.frames left trailers
  | none => left = [] ∧ e.trailerLines trailers = []

/-- How far a body has come with these bytes, right behind a write: where writing is, and what
of the body is in hand. -/
inductive Wrote (e : Encoder) (pieces : List Bytes) (trailers : Option HeaderMap) (sent : Bytes) :
    Writing → Option (RequestBody β) → Prop
  | part {done left : List Bytes} {r : Encoder} {rx : Option (RequestBody β)} : pieces = done ++ left →
      sent = e.framed done → e.Left done r → ToCome e left trailers rx → Wrote e pieces trailers sent (.body r) rx
  | whole {rx : Option (RequestBody β)} : sent = e.framing pieces trailers → e.Finished pieces trailers sent →
      Wrote e pieces trailers sent .keepAlive rx
  | short {rx : Option (RequestBody β)} : sent = e.framing pieces trailers → ¬e.Finished pieces trailers sent →
      Wrote e pieces trailers sent .closed rx

theorem Wrote.keepAlive_iff {e : Encoder} {pieces : List Bytes} {trailers : Option HeaderMap} {sent : Bytes}
    {w : Writing} {rx : Option (RequestBody β)} (h : Wrote e pieces trailers sent w rx) :
    w = .keepAlive ↔ e.Finished pieces trailers sent := by
  cases h with
  | part hp hs hleft _ =>
    refine ⟨nofun, fun hf => ?_⟩
    rw [hp, hs] at hf
    exact absurd hf (hleft.not_finished _ _)
  | whole _ hf => exact ⟨fun _ => hf, fun _ => rfl⟩
  | short _ hf => exact ⟨nofun, fun h => absurd h hf⟩

namespace Dispatcher

variable {H : Httparse} {d d' : Dispatcher β} {e r : Encoder} {pieces done left : List Bytes}
  {trailers : Option HeaderMap}

/-- A step of writing: the body has come this far with what was buffered. -/
def Advances (e : Encoder) (pieces : List Bytes) (trailers : Option HeaderMap) (sent : Bytes)
    (d d' : Dispatcher β) : Prop :=
  ∃ l, d'.conn.state.log = l ++ d.conn.state.log ∧
    Wrote e pieces trailers (sent ++ sentBody l) d'.conn.state.writing d'.bodyRx

section

variable (hw : d.conn.state.writing = .body r) (h : e.Left done r)

include hw h

theorem endBody_advances (ht : e.trailerLines trailers = []) :
    Advances e done trailers (e.framed done) d d.endBody.state := by
  rcases h.end' (β := β) ht with ⟨buf, hb, hf, hfin⟩ | ⟨⟨n, hn⟩, hf, hfin⟩
  · have hd : d.endBody.state = d.setConn ((d.conn.bufferBody buf).setWriting .keepAlive) := by
      simp only [endBody, Conn.endBody, hw, hb, h.1]
      rfl
    rw [hd, Conn.bufferBody_eq]
    exact ⟨[.wroteBody (content buf)], rfl, .whole hf hfin⟩
  · have hd : d.endBody.state = d.setConn (d.conn.setWriting .closed) := by
      simp only [endBody, Conn.endBody, hw, hn]
      rfl
    rw [hd]
    refine ⟨[], rfl, ?_⟩
    rw [sentBody, append_nil]
    exact .short hf hfin

theorem writeBody_advances {chunk : β}
    (hm : Buf.remaining chunk ≠ 0) (rx : RequestBody β) (hrx : Yields rx.frames left trailers) :
    Advances e (done ++ content chunk :: left) trailers (e.framed done) d
      ({ d with bodyRx := some rx }.setConn (d.conn.writeBody chunk)) := by
  obtain ⟨hlast, hcase⟩ := h.encode hm
  have hc : d.conn.writeBody chunk = (d.conn.bufferBody (r.encode chunk).1).setWriting
      (if !(r.encode chunk).2.isEof then .body (r.encode chunk).2 else Conn.writingDone (r.encode chunk).2) := by
    simp only [Conn.writeBody, hw]
  rw [hc, Conn.bufferBody_eq]
  refine ⟨[.wroteBody (content (r.encode chunk).1)], rfl, ?_⟩
  rcases hcase with ⟨heof, hleft, hf⟩ | ⟨heof, hall⟩
  · rw [heof]
    exact .part (append_cons _ _ _) hf hleft hrx
  · rw [heof]
    obtain ⟨hf, hfin⟩ := hall left trailers
    show Wrote _ _ _ _ (Conn.writingDone _) _
    rw [Conn.writingDone, hlast]
    exact .whole hf hfin

theorem writeBodyAndEnd_advances (chunk : β) :
    Advances e (done ++ [content chunk]) none (e.framed done) d
      ({ d with bodyRx := none }.setConn (d.conn.writeBodyAndEnd chunk)) := by
  obtain ⟨hf, hfin⟩ := h.lastPiece chunk d.conn.io.writeBuf
  rw [Conn.writeBodyAndEnd_eq hw, Conn.bufferBody_eq]
  refine ⟨[.wroteBody (content (r.lastPiece chunk))], rfl, ?_⟩
  show Wrote _ _ _ _ (if (r.encodeAndEnd chunk d.conn.io.writeBuf).1 then Writing.keepAlive else .closed) _
  split
  · rename_i hk
    exact .whole hf (hfin.1 hk)
  · rename_i hk
    exact .short hf fun h => hk (hfin.2 h)

theorem writeTrailers_advances (fields : HeaderMap) :
    Advances e done (some fields) (e.framed done) d
      ({ d with bodyRx := none }.setConn (d.conn.writeTrailers fields)) := by
  rcases h.encodeTrailers (β := β) fields with ⟨buf, hb, hf, hfin⟩ | ⟨hb, hlines⟩
  · have hc : d.conn.writeTrailers fields = (d.conn.bufferBody buf).setWriting .keepAlive := by
      simp only [Conn.writeTrailers, hw, hb, h.1]
      rfl
    rw [hc, Conn.bufferBody_eq]
    exact ⟨[.wroteBody (content buf)], rfl, .whole hf hfin⟩
  · have hc : d.conn.writeTrailers fields = d.conn := by simp only [Conn.writeTrailers, hw, hb]
    rw [hc]
    refine ⟨[], rfl, ?_⟩
    show Wrote _ _ _ _ d.conn.state.writing _
    rw [hw]
    exact .part (append_nil _).symm (by simp [sentBody]) h ⟨rfl, hlines⟩

end

theorem writeFrame_advances {body : RequestBody β} (hw : d.conn.state.writing = .body r) (h : e.Left done r)
    (hy : Yields body.frames left trailers) :
    Advances e (done ++ left) trailers (e.framed done) d (d.writeFrame body).state := by
  -- nothing was given yet, and the rest of the frames is kept
  have kept : Yields body.frames.tail left trailers → Advances e (done ++ left) trailers (e.framed done) d
      { d with bodyRx := some { body with frames := body.frames.tail } } := by
    intro hrest
    refine ⟨[], rfl, ?_⟩
    show Wrote _ _ _ _ d.conn.state.writing _
    rw [hw]
    exact .part rfl (by simp [sentBody]) h hrest
  have ended := endBody_advances (d := { d with bodyRx := none }) hw h e.trailerLines_none
  unfold writeFrame
  cases hy with
  | pending hh hrest => simp only [hh]; exact kept hrest
  | unknown hh hrest => simp only [hh]; exact kept hrest
  | empty hh hm hrest =>
    simp only [hh, hm, Bool.false_eq_true, if_false, if_true]
    exact kept hrest
  | data hh hm hrest =>
    simp only [hh, hm, Bool.false_eq_true, if_false]
    exact writeBody_advances hw h hm _ hrest
  | lastEmpty hh hm =>
    simp only [hh, hm, if_true, append_nil]
    exact ended
  | last hh hm =>
    simp only [hh, hm, if_true, if_false]
    exact writeBodyAndEnd_advances hw h _
  | trailers hh =>
    simp only [hh, append_nil]
    exact writeTrailers_advances hw h _
  | done hh =>
    simp only [hh, append_nil]
    exact ended

/-! ## Everything else -/

theorem recvError_bodyRx (d : Dispatcher β) (e : Error) : (d.recvError e).2.bodyRx = d.bodyRx := by
  unfold recvError
  split
  · rw [reply_sharedOnly]
  split
  · rfl
  simp only
  split
  · rw [reply_sharedOnly]; rfl
  · rfl

theorem failBody_bodyRx (d : Dispatcher β) (e : Error) : (d.failBody e).bodyRx = d.bodyRx := by
  unfold failBody
  cases d.bodyTx <;> rfl

theorem pollReady_bodyRx (d : Dispatcher β) : d.pollReady.2.bodyRx = d.bodyRx := by
  unfold pollReady
  cases d.callback <;> rfl

theorem pollReadHead_unwritten {c : Conn β} (fuel : ℕ) (h : c.canReadHead = true) :
    c.state.Unwritten (c.pollReadHead H fuel).2.state := by
  by_cases hno : ∀ x, (c.pollReadHead H fuel).1 ≠ .ready (some (.ok x))
  · exact (Conn.pollReadHead_quiets fuel h hno).unwritten
  · simp only [ne_eq, not_forall, Classical.not_not] at hno
    obtain ⟨⟨head, len, wants⟩, hx⟩ := hno
    rcases hc : c.pollReadHead H fuel with ⟨p, c'⟩
    rw [hc] at hx
    obtain ⟨msg, c₁, hparse, -, -, -, rfl⟩ := Conn.pollReadHead_ok (hc.trans (Prod.ext hx rfl))
    have h₁ := (Conn.Quiet.parse (H := H) fuel h).2
    rw [hparse] at h₁
    exact (h₁.trans (Conn.gotHead_unwritten c₁.state msg)).trans (Conn.acceptHead_quiets (H := H) c₁ msg).unwritten

/-- All that can happen to a request body: nothing, unless it is written, or the next request
begins. -/
abbrev Writes (d d' : Dispatcher β) : Prop :=
  d.conn.state.Unwritten d'.conn.state ∧ (d.conn.canWriteBody = true → d'.bodyRx = d.bodyRx) ∨
    d.conn.canWriteBody = true ∧ (∃ body, d.bodyRx = some body ∧ d' = (d.writeFrame body).state) ∨
    d.conn.canWriteBody = true ∧ d.bodyRx = none ∧ d' = d.endBody.state ∨
    d.conn.canWriteHead = true ∧ ∃ d₁ req, d.pollMsg = (.ready (some req), d₁) ∧ d' = d₁.startRequest req

theorem Act.writes (h : Act H d d') : Writes d d' := by
  have unwritten : ∀ {t : Dispatcher β}, d.conn.state.Unwritten t.conn.state → t.bodyRx = d.bodyRx →
      d.conn.state.Unwritten t.conn.state ∧ (d.conn.canWriteBody = true → t.bodyRx = d.bodyRx) :=
    fun h h' => ⟨h, fun _ => h'⟩
  cases h with
  | abort _ =>
    refine .inl (unwritten ?_ d.pollReady_bodyRx)
    have h := (close_quiets (H := H) { d.pollReady.2 with isAborted := true }).unwritten
    rwa [pollReady_conn] at h
  | noHead fuel _ hr _ _ => exact .inl (unwritten (pollReadHead_unwritten fuel hr) rfl)
  | @response fuel i head len wants c _ hr hcb hx =>
    have h₁ := pollReadHead_unwritten (H := H) fuel hr
    rw [hx] at h₁
    obtain ⟨up, hd'⟩ := respond_some (d := d.yield.setConn c) hcb head len wants
    rw [hd']
    exact .inl (unwritten (h₁.trans (State.unwritten_note { c.state with upgrade := up } (.delivered i _ _) id)) rfl)
  | @headError fuel _ e c _ hr _ hx =>
    have h₁ := pollReadHead_unwritten (H := H) fuel hr
    rw [hx] at h₁
    have h₂ := (close_quiets (H := H) ((d.yield.setConn c).recvError e).2).unwritten
    rw [recvError_conn] at h₂
    exact .inl (unwritten (h₁.trans h₂) (recvError_bodyRx (d.yield.setConn c) e))
  | @headNone fuel _ c _ hr _ hx =>
    have h₁ := pollReadHead_unwritten (H := H) fuel hr
    rw [hx] at h₁
    split
    · exact .inl (unwritten (h₁.trans (close_quiets (H := H) (d.yield.setConn c)).unwritten) rfl)
    · exact .inl (unwritten h₁ rfl)
  | @body fuel i _ _ _ =>
    refine .inl (unwritten (bodyRound_quiets fuel i d).unwritten ?_)
    rw [bodyRound_bodyOnly]
  | keepAlive _ _ _ => exact .inl (unwritten (Conn.pollReadKeepAlive_quiets (H := H)).unwritten rfl)
  | aside h =>
    cases h with
    | request _ _ hw _ hx => exact .inr (.inr (.inr ⟨hw, _, _, hx, rfl⟩))
    | noRequest _ _ _ _ hx =>
      rw [pollMsg_none hx]
      exact .inl (unwritten (close_quiets (H := H) _).unwritten rfl)
    | want _ _ _ _ hx =>
      obtain ⟨early, hd'⟩ := pollMsg_pending hx
      rw [hd']
      exact .inl (unwritten (d.conn.state.unwritten_note (.wanted early) id) rfl)
    | flush => exact .inl (unwritten (Conn.pollFlush_quiets (H := H)).unwritten rfl)
    | clearBody hw => exact .inl ⟨State.unwritten_of_eq rfl rfl, fun h => by rw [hw] at h; cases h⟩
    | frame _ hb hw => exact .inr (.inl ⟨hw, _, hb, rfl⟩)
    | endBody _ hb hw => exact .inr (.inr (.inl ⟨hw, hb, rfl⟩))
    | tidy _ => exact .inl (unwritten (State.unwritten_of_eq rfl rfl) rfl)
    | woke => exact .inl (unwritten (d.conn.state.unwritten_note .woke id) rfl)
    | shutdown => exact .inl (unwritten (State.unwritten_of_eq rfl rfl) rfl)

theorem Turn.writes (h : Turn H d d') : Writes d d' := by
  cases h with
  | act h => exact h.writes
  | user a => exact .inl ⟨State.unwritten_of_eq rfl rfl, fun _ => rfl⟩
  | failed e =>
    refine .inl ⟨?_, fun _ => ?_⟩
    · rw [failed_conn]; exact State.unwritten_of_eq rfl rfl
    · rw [Dispatcher.failed, recvError_bodyRx, failBody_bodyRx]
  | drop =>
    refine .inl ⟨?_, fun _ => ?_⟩
    · rw [drop_conn]; exact State.unwritten_of_eq rfl rfl
    · unfold Dispatcher.drop
      simp only
      rw [failBody_bodyRx]
      cases d.callback with
      | none => rfl
      | some id =>
        show (reply { d with callback := none } id _).bodyRx = _
        rw [reply_sharedOnly]

/-! ## A request in progress -/

/-- How far the body of a request has come since its head, with these events. -/
inductive Framed (e : Encoder) (pieces : List Bytes) (trailers : Option HeaderMap) (l : List Ev)
    (d : Dispatcher β) : Prop
  | wrote : Wrote e pieces trailers (sentBody l) d.conn.state.writing d.bodyRx → Framed e pieces trailers l d
  | later : sentBody l = e.framing pieces trailers → e.Finished pieces trailers (sentBody l) →
      (∀ r, d.conn.state.writing ≠ .body r) → Framed e pieces trailers l d
  /-- The connection was closed in the middle of the body. -/
  | aborted {done left : List Bytes} {r : Encoder} : pieces = done ++ left → sentBody l = e.framed done →
      e.Left done r → d.conn.state.writing = .closed → .closed ∈ l → Framed e pieces trailers l d

variable {l l' : List Ev}

section

variable (h : Framed e pieces trailers l d)

include h

theorem Framed.part (hw : d.conn.state.writing = .body r) :
    ∃ done left, pieces = done ++ left ∧ sentBody l = e.framed done ∧ e.Left done r ∧
      ToCome e left trailers d.bodyRx := by
  cases h with
  | wrote h =>
    rw [hw] at h
    cases h with
    | part hp hs hleft hrx => exact ⟨_, _, hp, hs, hleft, hrx⟩
  | later _ _ hno => exact absurd hw (hno r)
  | aborted _ _ _ hc _ => rw [hc] at hw; cases hw

theorem Framed.isPrefix : sentBody l <+: e.framing pieces trailers := by
  cases h with
  | wrote h =>
    generalize d.conn.state.writing = w at h
    cases h with
    | part hp hs hleft _ => rw [hp, hs]; exact hleft.isPrefix _ _
    | whole hs _ => exact ⟨[], by rw [append_nil, hs]⟩
    | short hs _ => exact ⟨[], by rw [append_nil, hs]⟩
  | later hs _ _ => exact ⟨[], by rw [append_nil, hs]⟩
  | aborted hp hs hleft _ _ => rw [hp, hs]; exact hleft.isPrefix _ _

theorem Framed.left_body (hw : ∀ r, d.conn.state.writing ≠ .body r)
    (hc : .closed ∉ l) : sentBody l = e.framing pieces trailers := by
  cases h with
  | wrote h =>
    generalize d.conn.state.writing = w at h hw
    cases h with
    | part _ _ _ _ => exact absurd rfl (hw _)
    | whole hs _ => exact hs
    | short hs _ => exact hs
  | later hs _ _ => exact hs
  | aborted _ _ _ _ hm => exact absurd hm hc

theorem Framed.keepAlive (hw : d.conn.state.writing = .keepAlive ∨ d.conn.state.writing = .init) :
    sentBody l = e.framing pieces trailers ∧ e.Finished pieces trailers (sentBody l) := by
  cases h with
  | wrote h =>
    generalize d.conn.state.writing = w at h hw
    cases h with
    | part _ _ _ _ => simp at hw
    | whole hs hf => exact ⟨hs, hf⟩
    | short _ _ => simp at hw
  | later hs hf _ => exact ⟨hs, hf⟩
  | aborted _ _ _ hc _ => rw [hc] at hw; simp at hw

theorem Framed.unwritten (hev : ∀ ev ∈ l', ¬ev.Writes)
    (hw : d.conn.state.writing.Rests l' d'.conn.state.writing)
    (hrx : d.conn.canWriteBody = true → d'.bodyRx = d.bodyRx) : Framed e pieces trailers (l' ++ l) d' := by
  have hsent := sentBody_unwritten hev l
  cases h with
  | wrote h =>
    cases hwr : d.conn.state.writing with
    | body r =>
      rw [hwr] at h hw
      cases h with
      | part hp hs hleft hrx' =>
        rcases hw with hw | ⟨hw, hc⟩
        · refine .wrote ?_
          rw [hw, hsent, hrx (by rw [Conn.canWriteBody, hwr])]
          exact .part hp hs hleft hrx'
        · exact .aborted hp (hsent.trans hs) hleft hw (mem_append_left _ hc)
    | keepAlive =>
      rw [hwr] at h hw
      cases h with
      | whole hs hf => exact .later (hsent.trans hs) (hsent ▸ hf) hw
    | closed =>
      rw [hwr] at h hw
      cases h with
      | short hs hf =>
        refine .wrote ?_
        rw [show d'.conn.state.writing = .closed from hw, hsent]
        exact .short hs hf
    | init =>
      rw [hwr] at h
      cases h
  | later hs hf hno =>
    refine .later (hsent.trans hs) (hsent ▸ hf) fun r hr => ?_
    cases hwr : d.conn.state.writing with
    | body r' => exact hno r' hwr
    | keepAlive => rw [hwr] at hw; exact hw r hr
    | init => rw [hwr] at hw; exact hw r hr
    | closed => rw [hwr] at hw; rw [show d'.conn.state.writing = .closed from hw] at hr; cases hr
  | aborted hp hs hleft hc hm =>
    rw [hc] at hw
    exact .aborted hp (hsent.trans hs) hleft hw (mem_append_right _ hm)

/-- **A write of the body**: the frame in hand, or the end of a body that was let go. -/
theorem Framed.advances (hw : d.conn.state.writing = .body r)
    (hd : (∃ body, d.bodyRx = some body ∧ d' = (d.writeFrame body).state) ∨ d.bodyRx = none ∧ d' = d.endBody.state) :
    Advances e pieces trailers (sentBody l) d d' := by
  obtain ⟨done, left, rfl, hs, hleft, hrx⟩ := h.part hw
  rw [hs]
  rcases hd with ⟨body, hb, rfl⟩ | ⟨hb, rfl⟩
  · rw [hb] at hrx
    exact writeFrame_advances hw hleft hrx
  · rw [hb] at hrx
    obtain ⟨rfl, hlines⟩ := hrx
    rw [append_nil]
    exact endBody_advances hw hleft hlines

end

def NoHead (l : List Ev) : Prop := ∀ remote head e unread, Ev.wroteHead remote head e unread ∉ l

/-- **One turn** while no other request begins. A body in the middle goes on, and the step
that buffers its end is the one that leads to keep-alive. -/
theorem Framed.turn (h : Framed e pieces trailers l d) (ht : Turn H d d')
    (hl : d'.conn.state.log = l' ++ d.conn.state.log) (hno : NoHead l' ∨ d.conn.canWriteBody = true) :
    Framed e pieces trailers (l' ++ l) d' ∧ (d.conn.canWriteBody = true →
      (d'.conn.state.writing = .keepAlive ↔ e.Finished pieces trailers (sentBody (l' ++ l)))) := by
  have wrote : Advances e pieces trailers (sentBody l) d d' → Framed e pieces trailers (l' ++ l) d' ∧
      (d.conn.canWriteBody = true →
        (d'.conn.state.writing = .keepAlive ↔ e.Finished pieces trailers (sentBody (l' ++ l)))) := by
    rintro ⟨l₁, hl₁, hw⟩
    obtain rfl : l₁ = l' := append_cancel_right (hl₁.symm.trans hl)
    rw [← sentBody_append] at hw
    exact ⟨.wrote hw, fun _ => hw.keepAlive_iff⟩
  rcases ht.writes with ⟨⟨l₁, hl₁, hev, hw⟩, hrx⟩ | ⟨hw, hd⟩ | ⟨hw, hd⟩ | ⟨hw, d₁, req, hmsg, rfl⟩
  · obtain rfl : l₁ = l' := append_cancel_right (hl₁.symm.trans hl)
    refine ⟨h.unwritten hev hw hrx, fun hcw => ?_⟩
    obtain ⟨r, hr⟩ := Conn.canWriteBody_writing hcw
    obtain ⟨done, left, hp, hs, hleft, -⟩ := h.part hr
    rw [hr] at hw
    refine ⟨fun hk => ?_, fun hf => ?_⟩
    · rcases hw with hw | ⟨hw, -⟩ <;> rw [hw] at hk <;> cases hk
    · rw [sentBody_unwritten hev, hp, hs] at hf
      exact absurd hf (hleft.not_finished _ _)
  · obtain ⟨r, hr⟩ := Conn.canWriteBody_writing hw
    exact wrote (h.advances hr (.inl hd))
  · obtain ⟨r, hr⟩ := Conn.canWriteBody_writing hw
    exact wrote (h.advances hr (.inr hd))
  · obtain ⟨id, hd₁⟩ := pollMsg_some hmsg
    obtain ⟨body, hb⟩ := startRequest_conn d₁ req
    have hlog : d₁.conn.state.log = [.took id] ++ d.conn.state.log := by rw [hd₁]; rfl
    rw [hb, (d₁.conn.writeHead_wrote req.head body).log, hlog, ← cons_append] at hl
    have hmem := append_cancel_right hl ▸ mem_cons_self
    rcases hno with hno | hcw
    · exact absurd hmem (hno _ _ _ _)
    · obtain ⟨r, hr⟩ := Conn.canWriteBody_writing hcw
      simp [Conn.canWriteHead, hr] at hw

theorem Framed.turns (h : Framed e pieces trailers [] d) (ht : Turns H d d') :
    ∀ l, d'.conn.state.log = l ++ d.conn.state.log → NoHead l → Framed e pieces trailers l d' := by
  induction ht with
  | refl =>
    intro l hl _
    rw [self_eq_append_left.1 hl]
    exact h
  | @tail b c hab hbc ih =>
    intro l hl hno
    obtain ⟨l₁, hl₁⟩ := Turns.log hab
    obtain ⟨l₂, hl₂⟩ := Turns.log (.single hbc)
    have happ : l ++ d.conn.state.log = (l₂ ++ l₁) ++ d.conn.state.log := by
      rw [← hl, ← hl₂, ← hl₁, append_assoc]
    obtain rfl : l = l₂ ++ l₁ := append_cancel_right happ
    have hb := ih l₁ hl₁.symm fun v hd x u hm => hno v hd x u (mem_append_right _ hm)
    exact (hb.turn hbc hl₂.symm (.inl fun v hd x u hm => hno v hd x u (mem_append_left _ hm))).1

/-! ## The beginning -/

end Dispatcher

theorem withTrailerNames_isLast (headers : HeaderMap) {e : Encoder} (h : e.isLast = false) :
    (withTrailerNames headers e).isLast = false := by
  unfold withTrailerNames Encoder.intoChunkedWithTrailingFields
  split
  · split <;> exact h
  · exact h

theorem Client.setLength_isLast (head : RequestHead) (body : Option BodyLength) :
    (Client.setLength head body).1.isLast = false := by
  unfold Client.setLength setContentLength
  split
  · rfl
  simp only
  split
  · split <;> rfl
  split
  · exact withTrailerNames_isLast _ rfl
  · split
    · rfl
    · split
      · rfl
      · rfl
      · rfl
      · exact withTrailerNames_isLast _ rfl
    · rfl

namespace Dispatcher

variable {H : Httparse} {d : Dispatcher β} {pieces : List Bytes} {trailers : Option HeaderMap}

theorem encodeHead_isLast (c : Conn β) (head : RequestHead) (body : Option BodyLength) :
    (c.encodeHead head body).1.isLast = false := Client.setLength_isLast _ body

theorem encodeHead_none (c : Conn β) (head : RequestHead) : (c.encodeHead head none).1 = Encoder.length 0 := rfl

theorem writeHead_framed {c : Conn β} {head : RequestHead} {body : Option BodyLength} {rx : Option (RequestBody β)}
    (hrx : (c.encodeHead head body).1.isEof = false → ∃ b, rx = some b ∧ Yields b.frames pieces trailers)
    (hd : d.conn = c.writeHead head body) (hb : d.bodyRx = rx) :
    Framed (c.encodeHead head body).1 pieces trailers [] d := by
  have hl := encodeHead_isLast c head body
  refine .wrote ?_
  rw [hd, (c.writeHead_wrote head body).writing, hb]
  generalize (c.encodeHead head body).1 = e at hrx hl ⊢
  cases he : e.isEof with
  | false =>
    obtain ⟨b, rfl, hy⟩ := hrx he
    have hframed : [] = e.framed [] := by unfold Encoder.framed; split <;> rfl
    exact .part rfl hframed (Encoder.left_start hl he) hy
  | true =>
    simp only [Encoder.isEof, decide_eq_true_eq] at he
    show Wrote _ _ _ _ (Conn.writingDone e) _
    rw [Conn.writingDone, hl]
    exact .whole (by simp [Encoder.framing, he, sentBody]) (by simp [Encoder.Finished, he, sentBody])

theorem startRequest_framed (d : Dispatcher β) {req : Request β} (hb : req.body.Gives pieces trailers) :
    ∃ e, (d.startRequest req).conn.state.log =
        .wroteHead d.conn.state.version req.head e d.conn.io.readBuf :: d.conn.state.log ∧
      Framed e pieces trailers [] (d.startRequest req) := by
  unfold startRequest
  split
  · refine ⟨_, (d.conn.writeHead_wrote req.head none).log, writeHead_framed (fun he => ?_) rfl rfl⟩
    rw [encodeHead_none] at he
    cases he
  · exact ⟨_, (d.conn.writeHead_wrote req.head (some _)).log,
      writeHead_framed (fun _ => ⟨req.body, rfl, hb.frames⟩) rfl rfl⟩

end Dispatcher

/-! ## Runs -/

open Dispatcher

/-- **Request bodies are framed exactly.** In every run, no buffer without bytes is pushed
and no body that is being written has come to its announced length. From the moment a
request is begun until the next one is, whatever the task and its users do: what is
buffered behind the head is the front of the body's framing, made of the pieces that were
taken from the body; it is the whole framing once writing has left the body, unless the
connection was closed meanwhile; and a step leads from the body to keep-alive if and only
if it buffers the last announced byte or the terminator. -/
theorem request_bodies_framed (H : Httparse) :
    (∀ (opts : Http1Options) (io : Transport) (room : Stream' ℕ) (users : Stream' (List (Ext β)))
        (steps : List (Step β)), let w := (World.new opts io room users).run H steps
      (∀ bytes, .wroteBody bytes ∈ w.log → bytes ≠ []) ∧
        ∀ r, w.task.conn.state.writing = .body r → r.isEof = false) ∧
    ∀ (d₁ d : Dispatcher β) (req : Request β) (pieces : List Bytes) (trailers : Option HeaderMap),
      req.body.Gives pieces trailers → Turns H (d₁.startRequest req) d →
      ∀ (l : List Ev) (remote : Version) (head : RequestHead) (e : Encoder) (unread : Bytes),
      d.conn.state.log = l ++ .wroteHead remote head e unread :: d₁.conn.state.log → NoHead l →
      sentBody l <+: e.framing pieces trailers ∧
      (∀ r, d.conn.state.writing = .body r → r.isEof = false ∧ ∃ done left, pieces = done ++ left ∧
        sentBody l = e.framed done ∧ ToCome e left trailers d.bodyRx) ∧
      ((∀ r, d.conn.state.writing ≠ .body r) → .closed ∉ l → sentBody l = e.framing pieces trailers) ∧
      (d.conn.state.writing = .keepAlive ∨ d.conn.state.writing = .init →
        sentBody l = e.framing pieces trailers ∧ e.Finished pieces trailers (sentBody l)) ∧
      ∀ d' l', Turn H d d' → d'.conn.state.log = l' ++ d.conn.state.log → d.conn.canWriteBody = true →
        (d'.conn.state.writing = .keepAlive ↔ e.Finished pieces trailers (sentBody (l' ++ l))) := by
  refine ⟨fun opts io room users steps => ?_, ?_⟩
  · have h : Conn.Pushes ((World.new opts io room users).run H steps).task.conn.state :=
      World.run_conn_keeps (P := fun c => Conn.Pushes c.state) (fun _ _ => Conn.Pushes.move) steps _
        ⟨nofun, nofun⟩
    exact ⟨h.bytes, h.writing⟩
  · intro d₁ d req pieces trailers hb hrun l remote head e unread hlog hno
    obtain ⟨e', hstart, hf⟩ := startRequest_framed d₁ hb
    obtain ⟨l₁, hl₁⟩ := Turns.log hrun
    rw [← hl₁, hstart] at hlog
    obtain ⟨rfl, hev⟩ := append_inj' hlog rfl
    injection hev with hev
    injection hev with _ _ he _
    subst he
    have h := hf.turns hrun l₁ hl₁.symm hno
    refine ⟨h.isPrefix, fun r hr => ?_, h.left_body, h.keepAlive, fun d' l' ht hl' hcw => ?_⟩
    · obtain ⟨done, left, hp, hs, hleft, hrx⟩ := h.part hr
      exact ⟨hleft.isEof, done, left, hp, hs, hrx⟩
    · exact (h.turn ht hl' (.inr hcw)).2 hcw

/-- `POST /` with a body of unknown length, which has nothing at first. -/
def postRequest : Request Bytes :=
  ⟨⟨.http11, ⟨.post, ascii "/"⟩, .empty, .none⟩,
    ⟨false, none, [.pending, .data (ascii "hi") true] ++ₛ Stream'.const .done⟩⟩

def postTask : Dispatcher Bytes :=
  Dispatcher.new (Conn.new (promptTransport (Stream'.const .pending)) (Stream'.const 0)) (Stream'.const [])

/-- The request is begun, and its body is asked twice. -/
def postSent : Dispatcher Bytes :=
  let d := ((postTask.startRequest postRequest).writeFrame postRequest.body).state
  (d.writeFrame { postRequest.body with frames := postRequest.body.frames.tail }).state

theorem postSent_turns (H : Httparse) : Turns H (postTask.startRequest postRequest) postSent := by
  unfold postSent
  exact (Relation.ReflTransGen.single (.act (.aside (.frame rfl rfl rfl)))).tail (.act (.aside (.frame rfl rfl rfl)))

theorem request_bodies_framed_post :
    postSent.conn.state.writing = .keepAlive ∧
      sentBody [.wroteBody (ascii "2\r\nhi\r\n0\r\n\r\n")] =
        Encoder.chunked.framing [ascii "hi"] none ∧
      Encoder.chunked.Finished [ascii "hi"] none (ascii "2\r\nhi\r\n0\r\n\r\n") := by
  have hgives : postRequest.body.Gives [ascii "hi"] none := by
    have hlast : Yields postRequest.body.frames.tail [ascii "hi"] none := .last rfl (by decide)
    exact ⟨.pending rfl hlast, nofun⟩
  have h := (request_bodies_framed endedParser).2 postTask postSent postRequest [ascii "hi"] none hgives
    (postSent_turns endedParser) [.wroteBody (ascii "2\r\nhi\r\n0\r\n\r\n")] .http11 postRequest.head
    Encoder.chunked [] (by rfl) (by intro _ _ _ _ hm; simp at hm)
  have hw : postSent.conn.state.writing = .keepAlive := by rfl
  exact ⟨hw, h.2.2.2.1 (.inl hw)⟩

end Netty
