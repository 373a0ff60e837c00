import Netty.Proof.Dispatch
import Netty.Proof.RoundTrip

/-!
# One exchange at a time

The abstract protocol of a client connection: a request is taken and its head written,
its body and the response follow in any order, and the next head comes only when both
are complete. The log of every run is a trace of it.

* `Exchange`, `Exchange.Step`: how far one exchange has come, and what may happen next.
* `Caller`: whose response is awaited.
* `Conn.Serial`: the connection's own state against the exchange it is in.
-/

namespace Netty

open LawfulBuf List

/-! ## The protocol -/

/-- How much of the response has been read. -/
inductive Answer where
  | awaited
  | body
  | whole
  deriving DecidableEq, Repr

structure Exchange where
  encoder : Encoder
  sent : Bytes
  answer : Answer

/-- The whole body: as many bytes as announced, or chunks with their terminator. -/
def Encoder.SentWhole (e : Encoder) (sent : Bytes) : Prop :=
  match e.kind with
  | .length n => sent.length = n
  | .chunked _ => ∃ (ds : List Bytes) (fields : HeaderMap), (∀ d ∈ ds, d ≠ []) ∧
      sent = ds.flatMap chunkBytes ++ (ascii "0" ++ crlf ++ writeHeaders fields ++ crlf)

/-- A part of the body, with `rest` to encode what is missing. -/
def Encoder.SentPart (e : Encoder) (sent : Bytes) (rest : Encoder) : Prop :=
  match e.kind with
  | .length n => ∃ m, rest.kind = .length m ∧ sent.length + m = n
  | .chunked _ => (∃ t, rest.kind = .chunked t) ∧
      ∃ ds : List Bytes, (∀ d ∈ ds, d ≠ []) ∧ sent = ds.flatMap chunkBytes

namespace Exchange

def start : Exchange := ⟨Encoder.length 0, [], .whole⟩

/-- The request was sent and the response received, to the end. -/
structure Complete (x : Exchange) : Prop where
  sent : x.encoder.SentWhole x.sent
  answer : x.answer = .whole

/-- What may happen in an exchange. -/
inductive Step : Exchange → Ev → Exchange → Prop
  /-- A new one begins when the last one is complete. -/
  | head {x : Exchange} {remote : Version} {head : RequestHead} {e : Encoder} {unread : Bytes} : x.Complete →
      Step x (.wroteHead remote head e unread) ⟨e, [], .awaited⟩
  | body {x : Exchange} (bytes : Bytes) : Step x (.wroteBody bytes) { x with sent := x.sent ++ bytes }
  | answer {x : Exchange} (msg : ParsedMessage) : x.answer = .awaited →
      Step x (.gotHead msg) { x with answer := if msg.decode = .zero then .whole else .body }
  | decoded {x : Exchange} (i : ℕ) (d : Decoder) : x.answer = .body →
      Step x (.decoded i d) { x with answer := if d.isEof then .whole else .body }
  | took {x : Exchange} (id : ℕ) : Step x (.took id) x
  | delivered {x : Exchange} (id : ℕ) (gone : Bool) (head : Option ResponseHead) : Step x (.delivered id gone head) x
  | unexpectedEnd {x : Exchange} : Step x .unexpectedEnd x
  | closed {x : Exchange} : Step x .closed x
  | flushed {x : Exchange} (done : Bool) : Step x (.flushed done) x
  | wanted {x : Exchange} (early : Bool) : Step x (.wanted early) x
  | woke {x : Exchange} : Step x .woke x

inductive Trace : List Ev → Exchange → Prop
  | nil : Trace [] start
  | cons {log : List Ev} {x y : Exchange} {ev : Ev} : Trace log x → Step x ev y → Trace (ev :: log) y

end Exchange

/-- Whose response is awaited. -/
inductive Caller where
  | nobody
  /-- The request was taken and its head is not yet written. -/
  | taken (id : ℕ)
  | waiting (id : ℕ)
  /-- The response head was read and is not yet handed over. -/
  | answered (id : ℕ) (head : ResponseHead)

/-- An event of the exchange between the callers and the connection. -/
def Ev.isTurn : Ev → Bool
  | .took _ | .wroteHead _ _ _ _ | .gotHead _ | .delivered _ _ _ => true
  | _ => false

/-- Requests are taken, written, answered and delivered in turn. Each caller then has the head that answers its
request, or is gone. -/
inductive Caller.Step : Caller → Ev → Caller → Prop
  | took (id : ℕ) : Step .nobody (.took id) (.taken id)
  | wrote {id : ℕ} (remote : Version) (head : RequestHead) (e : Encoder) (unread : Bytes) :
      Step (.taken id) (.wroteHead remote head e unread) (.waiting id)
  | got {id : ℕ} (msg : ParsedMessage) : Step (.waiting id) (.gotHead msg) (.answered id msg.head)
  | delivered {id : ℕ} {head : ResponseHead} {gone : Bool} {got : Option ResponseHead} :
      gone = true ∨ got = some head → Step (.answered id head) (.delivered id gone got) .nobody
  | other {s : Caller} {ev : Ev} : ev.isTurn = false → Step s ev s

inductive Callers : List Ev → Caller → Prop
  | nil : Callers [] .nobody
  | cons {log : List Ev} {s s' : Caller} {ev : Ev} : Callers log s → s.Step ev s' → Callers (ev :: log) s'

/-- No request is taken and not written, no response read and not handed over. -/
def Caller.AtRest (s : Caller) : Prop := s = .nobody ∨ ∃ id, s = .waiting id

/-! ## Encoding a body -/

namespace Encoder

variable {β : Type} [LawfulBuf β] {e r : Encoder} {sent : Bytes}

theorem sentPart_start (e : Encoder) : e.SentPart [] e := by
  unfold SentPart
  cases h : e.kind with
  | length n => exact ⟨n, rfl, by simp⟩
  | chunked t => exact ⟨⟨t, rfl⟩, [], by simp, rfl⟩

theorem SentPart.whole (h : e.SentPart sent r) (hr : r.isEof = true) : e.SentWhole sent := by
  simp only [isEof, decide_eq_true_eq] at hr
  unfold SentPart at h
  unfold SentWhole
  cases hk : e.kind with
  | length n =>
    rw [hk] at h
    obtain ⟨m, hm, hs⟩ := h
    rw [hr] at hm
    cases hm
    exact hs
  | chunked t =>
    rw [hk] at h
    obtain ⟨⟨t', ht⟩, -⟩ := h
    rw [hr] at ht
    cases ht

theorem sentWhole_chunked {ds : List Bytes} {t : Option (List HeaderName)} (hk : e.kind = .chunked t)
    (hds : ∀ d ∈ ds, d ≠ []) (fields : HeaderMap) (bytes : Bytes)
    (hb : bytes = ascii "0" ++ crlf ++ writeHeaders fields ++ crlf) : e.SentWhole (ds.flatMap chunkBytes ++ bytes) := by
  unfold SentWhole
  rw [hk]
  exact ⟨ds, fields, hds, by rw [hb]⟩

variable {msg : β}

theorem content_ne_nil (h : Buf.remaining msg ≠ 0) : content msg ≠ [] := by
  rw [remaining_eq] at h
  exact fun h' => h (by rw [h']; rfl)

theorem content_crlf (msg : β) : content (chunk msg crlf) = chunkBytes (content msg) := by
  rw [content_chunk]
  rfl

theorem length_limited (msg : β) (n : ℕ) (h : n ≤ Buf.remaining msg) :
    (content (EncodedBuf.limited ⟨msg, n⟩)).length = n := by
  show ((content msg).take n).length = n
  rw [remaining_eq] at h
  rw [length_take]
  omega

theorem length_exact (msg : β) : (content (EncodedBuf.exact msg)).length = Buf.remaining msg :=
  (remaining_eq msg).symm

theorem SentPart.encode (h : e.SentPart sent r) (hm : Buf.remaining msg ≠ 0) :
    e.SentPart (sent ++ content (r.encode msg).1) (r.encode msg).2 := by
  unfold SentPart at h ⊢
  cases hk : e.kind with
  | length n =>
    rw [hk] at h
    obtain ⟨m, hr, hs⟩ := h
    simp only [Encoder.encode, hr]
    split
    · refine ⟨0, rfl, ?_⟩
      rw [length_append, length_limited _ _ (by omega)]
      omega
    · refine ⟨m - Buf.remaining msg, rfl, ?_⟩
      rw [length_append, length_exact]
      omega
  | chunked t =>
    rw [hk] at h
    obtain ⟨⟨t', hr⟩, ds, hds, hs⟩ := h
    simp only [Encoder.encode, hr]
    refine ⟨⟨t', rfl⟩, ds ++ [content msg], ?_, ?_⟩
    · intro d hd
      rcases mem_append.1 hd with hd | hd
      · exact hds d hd
      · rw [mem_singleton.1 hd]; exact content_ne_nil hm
    · rw [hs, content_crlf]
      simp

theorem SentPart.encodeAndEnd (h : e.SentPart sent r) (hm : Buf.remaining msg ≠ 0) {w : WriteBuf (EncodedBuf β)}
    (hk : (r.encodeAndEnd msg w).1 = true) : e.SentWhole (sent ++ content (r.lastPiece msg)) := by
  unfold SentPart at h
  cases he : e.kind with
  | length n =>
    rw [he] at h
    obtain ⟨m, hr, hs⟩ := h
    unfold SentWhole
    simp only [Encoder.encodeAndEnd, Encoder.lastPiece, hr, he, length_append] at hk ⊢
    split
    · rw [length_limited _ _ (by omega)]
      exact hs
    · rw [length_exact]
      rename_i hlt
      split at hk
      · omega
      · cases hk
  | chunked t =>
    rw [he] at h
    obtain ⟨⟨t', hr⟩, ds, hds, hs⟩ := h
    have hc : content (r.lastPiece msg) =
        chunkBytes (content msg) ++ (ascii "0" ++ crlf ++ writeHeaders .empty ++ crlf) := by
      simp only [Encoder.lastPiece, hr]
      rw [content_chunk]
      simp [chunkBytes, writeHeaders, HeaderMap.iter, HeaderMap.empty]
    have hds' : ∀ d ∈ ds ++ [content msg], d ≠ [] := by
      intro d hd
      rcases mem_append.1 hd with hd | hd
      · exact hds d hd
      · rw [mem_singleton.1 hd]; exact content_ne_nil hm
    have := sentWhole_chunked he hds' .empty _ rfl
    rw [hs, hc]
    simpa using this

theorem SentPart.end' (h : e.SentPart sent r) {buf : Option (EncodedBuf β)} (hb : r.end' = .ok buf) :
    e.SentWhole (sent ++ (buf.map content).getD []) := by
  unfold SentPart at h
  cases he : e.kind with
  | length n =>
    rw [he] at h
    obtain ⟨m, hr, hs⟩ := h
    unfold SentWhole
    rw [he]
    cases m with
    | zero =>
      simp only [Encoder.end', hr, Except.ok.injEq] at hb
      subst hb
      simpa using hs
    | succ m => simp only [Encoder.end', hr] at hb; cases hb
  | chunked t =>
    rw [he] at h
    obtain ⟨⟨t', hr⟩, ds, hds, hs⟩ := h
    simp only [Encoder.end', hr, Except.ok.injEq] at hb
    subst hb
    rw [hs]
    exact sentWhole_chunked he hds .empty _ rfl

theorem SentPart.encodeTrailers (h : e.SentPart sent r) {fields : HeaderMap} {buf : EncodedBuf β}
    (hb : r.encodeTrailers fields = some buf) : e.SentWhole (sent ++ content buf) := by
  unfold SentPart at h
  unfold Encoder.encodeTrailers at hb
  cases he : e.kind with
  | length n =>
    rw [he] at h
    obtain ⟨m, hr, -⟩ := h
    rw [hr] at hb
    cases hb
  | chunked t =>
    rw [he] at h
    obtain ⟨⟨t', hr⟩, ds, hds, hs⟩ := h
    rw [hr] at hb
    cases t' with
    | none => cases hb
    | some allowed =>
      simp only at hb
      split at hb
      · cases hb
      · rename_i m _
        split at hb
        · cases hb
        · cases hb
          rw [hs]
          exact sentWhole_chunked he hds m _ rfl

end Encoder

/-! ## The connection in an exchange -/

namespace Conn

open Exchange

variable {β : Type} [LawfulBuf β] {H : Httparse} {c c' : Conn β} {x : Exchange}

/-- What each state of writing says about the exchange. -/
def Written (x : Exchange) : Writing → Prop
  | .init => x.Complete
  | .body e => x.encoder.SentPart x.sent e
  | .keepAlive => x.encoder.SentWhole x.sent
  | .closed => True

/-- What each state of reading says about it, and about writing. -/
def Received (answer : Answer) (w : Writing) : Reading → Prop
  | .init => w = .init ∨ answer = .awaited
  | .body d | .continue_ d => answer = .body ∧ w ≠ .init ∧ d.Live
  | .keepAlive => answer = .whole ∧ w ≠ .init
  | .closed => True

def inResponse : Reading → Bool
  | .body _ | .continue_ _ | .keepAlive => true
  | .init | .closed => false

/-- The connection is in this exchange. -/
structure Serial (x : Exchange) (s : State) : Prop where
  writing : Written x s.writing
  reading : Received x.answer s.writing s.reading

/-- The log is a trace that ends in an exchange the connection is in. -/
def InTurn (s : State) : Prop := ∃ x, Trace s.log x ∧ Serial x s

variable {s s' : State}

theorem Serial.congr (h : Serial x s) (hr : s'.reading = s.reading) (hw : s'.writing = s.writing) : Serial x s' := by
  obtain ⟨h1, h2⟩ := h
  exact ⟨by rw [hw]; exact h1, by rw [hr, hw]; exact h2⟩

theorem InTurn.same (hs : s.Same s') (h : InTurn s) : InTurn s' := by
  obtain ⟨x, ht, hx⟩ := h
  exact ⟨x, hs.log ▸ ht, hx.congr hs.reading hs.writing⟩

theorem InTurn.close (h : InTurn s) : InTurn s.close := by
  obtain ⟨x, ht, -⟩ := h
  exact ⟨x, .cons ht .closed, trivial, trivial⟩

theorem InTurn.closeRead (h : InTurn s) : InTurn s.closeRead := by
  obtain ⟨x, ht, hx⟩ := h
  exact ⟨x, .cons ht .closed, hx.writing, trivial⟩

theorem InTurn.tryKeepAlive (h : InTurn s) : InTurn s.tryKeepAlive := by
  rcases s.tryKeepAlive_cases with ⟨hk, -⟩ | ⟨hk, hr, hw, -⟩ | hk <;> rw [hk]
  · exact h
  · obtain ⟨x, ht, hx⟩ := h
    have h1 := hx.writing
    have h2 := hx.reading
    rw [hw] at h1
    rw [hr] at h2
    exact ⟨x, ht, ⟨h1, h2.1⟩, .inl rfl⟩
  · exact h.close

theorem maybeNotify_inTurn (h : InTurn c.state) : InTurn c.maybeNotify.state := by
  rcases c.maybeNotify_cases with ⟨⟨s, hs, hn⟩, -⟩ | ⟨-, -, s, hn, hs⟩ <;> rw [hn]
  · exact h.same hs
  · rcases hs with ⟨hs, -⟩ | hs | ⟨hs, -⟩
    · exact h.same hs
    · exact h.close.same hs
    · exact h.closeRead.same hs

variable {d : Decoder} {p : Poll (Except IoError Frame)}

theorem decodeBody_live {fuel i : ℕ} {d' : Decoder}
    (h : c.decodeBody H fuel i d = (p, c', d')) (hd : d.Live) : d'.LiveCall p := by
  have hl := decode_live (H := H) (Buffered.measured.answers) fuel c.io hd
  rwa [(decodeBody_inv h).1] at hl

theorem live_of_stays (hl : d.LiveCall p) (hs : GoesOn d p) : d.Live := by
  rcases p with (e | b | fields) | _ | _ | _
  · exact absurd (hs.2 _ rfl) (by simp [afterFrame])
  · rcases hl with he | ⟨-, hl⟩
    · exact absurd (hs.2 _ rfl) (by simp [afterFrame, he])
    · exact hl
  · exact absurd (hs.2 _ rfl) (by simp [afterFrame])
  · exact hl
  · exact hl
  · exact absurd rfl hs.1

/-- A frame behind which it does not: the body has ended, or it is given up. It never
ends where it is not expected to. -/
theorem leaves_ends {r : Reading} {unexpected : Bool} (hl : d.LiveCall p)
    (h : Leaves d p r unexpected) : unexpected = false ∧ (r = .keepAlive ∧ d.isEof = true ∨ r = .closed) := by
  rcases h with @⟨e | b | fields, _, _, _, h⟩ | _
  · cases h
    exact ⟨rfl, .inr rfl⟩
  · simp only [afterFrame] at h
    rcases hl with he | ⟨hb, hl⟩
    · rw [if_pos he] at h
      cases h
      exact ⟨rfl, .inl ⟨rfl, he⟩⟩
    · rw [if_neg (by simp [hl.notEof]), if_neg hb] at h
      cases h
  · cases h
    exact ⟨rfl, .inl ⟨rfl, hl⟩⟩
  · exact ⟨rfl, .inr rfl⟩

theorem Serial.inBody (h : Serial x s) (hr : s.reading = .body d ∨ s.reading = .continue_ d) :
    x.answer = .body ∧ s.writing ≠ .init ∧ d.Live := by
  have h2 := h.reading
  rcases hr with hr | hr <;> rw [hr] at h2 <;> exact h2

theorem Serial.writing_ne (h : Serial x s) (hr : inResponse s.reading = true) : s.writing ≠ .init := by
  have h2 := h.reading
  cases hs : s.reading with
  | init | closed => rw [hs] at hr; cases hr
  | body d | continue_ d => rw [hs] at h2; exact h2.2.1
  | keepAlive => rw [hs] at h2; exact h2.2

theorem Serial.inRequest {e : Encoder} (h : Serial x s) (hw : s.writing = .body e) : x.encoder.SentPart x.sent e := by
  have h1 := h.writing
  rw [hw] at h1
  exact h1

theorem Received.write {answer : Answer} {w w' : Writing} {r : Reading} (h : Received answer w r) (hw : w ≠ .init)
    (hw' : w' ≠ .init) : Received answer w' r := by
  cases r with
  | init => exact .inr (h.resolve_left hw)
  | body d => exact ⟨h.1, hw', h.2.2⟩
  | continue_ d => exact ⟨h.1, hw', h.2.2⟩
  | keepAlive => exact ⟨h.1, hw'⟩
  | closed => trivial

theorem Written.answer {w : Writing} (h : Written x w) (hw : w ≠ .init) (a : Answer) :
    Written { x with answer := a } w := by
  cases w with
  | init => exact absurd rfl hw
  | body e => exact h
  | keepAlive => exact h
  | closed => trivial

theorem InTurn.wrote {e : Encoder} {bytes : Bytes} (h : InTurn s) (hw : s.writing = .body e)
    (hlog : s'.log = .wroteBody bytes :: s.log) (hr : s'.reading = s.reading) (hne : s'.writing ≠ .init)
    (hs : ∀ x : Exchange, x.encoder.SentPart x.sent e → Written { x with sent := x.sent ++ bytes } s'.writing) :
    InTurn s' := by
  obtain ⟨x, ht, hx⟩ := h
  refine ⟨{ x with sent := x.sent ++ bytes }, hlog ▸ .cons ht (.body bytes), hs x (hx.inRequest hw), ?_⟩
  rw [hr]
  exact hx.reading.write (by rw [hw]; simp) hne

theorem InTurn.calm (hm : Calm H c c') (h : InTurn c.state) : InTurn c'.state := by
  cases hm with
  | parse fuel _ =>
    obtain ⟨x, ht, hx⟩ := h
    exact ⟨x, ht, hx.writing, hx.reading⟩
  | interim hr hw =>
    obtain ⟨x, -, hx⟩ := h
    exact absurd hw (hx.inBody (.inr hr)).2.1
  | unhold hr =>
    obtain ⟨x, ht, hx⟩ := h
    exact ⟨x, ht, hx.writing, hx.inBody (.inr hr)⟩
  | @decode _ fuel i d d' p hr hd hs =>
    obtain ⟨x, ht, hx⟩ := h
    obtain ⟨ha, hw, hl⟩ := hx.inBody hr
    have hl' := live_of_stays (decodeBody_live hd hl) hs
    rw [(decodeBody_inv hd).2]
    refine ⟨_, .cons ht (.decoded i d' ha), hx.writing.answer hw _, ?_, hw, hl'⟩
    simp [hl'.notEof]
  | @frame c₁ fuel i d d' p r unexpected hr hd hf =>
    obtain ⟨x, ht, hx⟩ := h
    obtain ⟨ha, hw, hl⟩ := hx.inBody hr
    obtain ⟨rfl, hcase⟩ := leaves_ends (decodeBody_live hd hl) hf
    show InTurn { c₁.state with reading := r }
    rw [(decodeBody_inv hd).2]
    refine ⟨_, .cons ht (.decoded i d' ha), hx.writing.answer hw _, ?_⟩
    rcases hcase with ⟨rfl, he⟩ | rfl
    · exact ⟨by simp [he], hw⟩
    · trivial
  | tryKeepAlive => exact maybeNotify_inTurn h.tryKeepAlive
  | read => exact h
  | skip _ => exact h
  | closeRead => exact h.closeRead
  | closeWrite hr =>
    obtain ⟨x, ht, hx⟩ := h
    refine ⟨x, .cons ht .closed, trivial, ?_⟩
    show Received _ _ c.state.reading
    rw [hr]
    trivial
  | close => exact h.close
  | @writeBody chunk _ hn =>
    unfold writeBody
    split
    · rename_i e hw
      rcases hy : e.encode chunk with ⟨buf, e'⟩
      simp only [bufferBody_eq]
      refine h.wrote hw rfl rfl ?_ fun x hx => ?_
      · show (if !e'.isEof then Writing.body e' else writingDone e') ≠ .init
        unfold writingDone
        split_ifs <;> simp
      · have hp := hx.encode hn
        rw [hy] at hp
        show Written _ (if !e'.isEof then Writing.body e' else writingDone e')
        split
        · exact hp
        · rename_i he
          unfold writingDone
          split
          · trivial
          · exact hp.whole (by simpa using he)
    · exact h
  | writeTrailers fields _ =>
    unfold writeTrailers
    split
    · rename_i e hw
      split
      · rename_i buf hb
        rw [bufferBody_eq]
        refine h.wrote hw rfl rfl ?_ fun x hx => ?_
        · show (if e.isLast || e.isCloseDelimited then Writing.closed else .keepAlive) ≠ .init
          split <;> simp
        · show Written _ (if e.isLast || e.isCloseDelimited then Writing.closed else .keepAlive)
          split
          · trivial
          · exact hx.encodeTrailers hb
      · exact h
    · exact h
  | @writeBodyAndEnd chunk hcan hn =>
    obtain ⟨e, hw⟩ := canWriteBody_writing hcan
    rw [writeBodyAndEnd_eq hw, bufferBody_eq]
    refine h.wrote hw rfl rfl ?_ fun x hx => ?_
    · show (if (e.encodeAndEnd chunk c.io.writeBuf).1 then Writing.keepAlive else .closed) ≠ .init
      split <;> simp
    · show Written _ (if (e.encodeAndEnd chunk c.io.writeBuf).1 then Writing.keepAlive else .closed)
      split
      · rename_i hk
        exact hx.encodeAndEnd hn hk
      · trivial
  | endBody _ =>
    unfold endBody
    split
    · rename_i e hw
      have hne : (if e.isLast || e.isCloseDelimited then Writing.closed else .keepAlive) ≠ .init := by
        split <;> simp
      obtain ⟨x, ht, hx⟩ := h
      have hrd : ∀ w' : Writing, w' ≠ .init → Received x.answer w' c.state.reading := fun _ hw' =>
        hx.reading.write (by rw [hw]; simp) hw'
      split
      · rename_i hb
        refine ⟨x, ht, ?_, hrd _ hne⟩
        show Written x (if e.isLast || e.isCloseDelimited then Writing.closed else .keepAlive)
        split
        · trivial
        · have hs := (hx.inRequest hw).end' (β := β) hb
          show x.encoder.SentWhole x.sent
          simpa using hs
      · rename_i buf hb
        rw [bufferBody_eq]
        refine ⟨{ x with sent := x.sent ++ content buf }, .cons ht (.body _), ?_, hrd _ hne⟩
        show Written _ (if e.isLast || e.isCloseDelimited then Writing.closed else .keepAlive)
        split
        · trivial
        · exact (hx.inRequest hw).end' hb
      · exact ⟨x, ht, trivial, hrd .closed (by simp)⟩
    · exact h
  | flush => exact h
  | flushed done =>
    obtain ⟨x, ht, hx⟩ := h
    exact ⟨x, .cons ht (.flushed done), hx.writing, hx.reading⟩
  | shutdown => exact h
  | quiet hs => exact h.same hs

/-- **Every move keeps the exchanges in turn.** -/
theorem InTurn.move (hm : Move H c c') (h : InTurn c.state) : InTurn c'.state := by
  cases hm with
  | calm hm => exact h.calm hm
  | @head c₁ fuel msg hr hparse =>
    obtain ⟨x, ht, hx⟩ := h
    simp only [canReadHead, Bool.and_eq_true, decide_eq_true_eq, ne_eq] at hr
    have h2 := hx.reading
    rw [hr.1] at h2
    have ha : x.answer = .awaited := h2.resolve_left (by simpa using hr.2)
    have hg := gotHead_got c₁.state msg
    have hlog : c.state.log = c₁.state.log := congrArg (fun y => y.2.state.log) hparse
    have hwr : c.state.writing = c₁.state.writing := congrArg (fun y => y.2.state.writing) hparse
    refine ⟨{ x with answer := if msg.decode = .zero then .whole else .body }, ?_, ?_, ?_⟩
    · show Trace (gotHead msg c₁.state).log _
      rw [hg.log, ← hlog]
      exact .cons ht (.answer msg ha)
    · show Written _ (gotHead msg c₁.state).writing
      rw [hg.writing, ← hwr]
      exact hx.writing.answer (by simpa using hr.2) _
    · show Received _ (gotHead msg c₁.state).writing (gotHead msg c₁.state).reading
      have hne : (gotHead msg c₁.state).writing ≠ .init := by rw [hg.writing, ← hwr]; simpa using hr.2
      rcases hg.reading with ⟨hz, hk⟩ | ⟨hz, d, hk, rfl⟩
      · rw [hk]; exact ⟨by simp [hz], hne⟩
      · have hl : (Decoder.new msg.decode c₁.state.h1MaxHeaders c₁.state.h1MaxHeaderSize).Live := by
          refine ⟨Decoder.new_wf _ _ _, ?_⟩
          cases hm : msg.decode with
          | exact n => rw [hm] at hz; simpa [Decoder.new, Decoder.isEof, DecodedLength.zero] using hz
          | chunked => rfl
          | closeDelimited => rfl
        rcases hk with hk | hk <;> rw [hk] <;> exact ⟨by simp [hz], hne, hl⟩
  | writeHead head body hw =>
    obtain ⟨x, ht, hx⟩ := h
    simp only [canWriteHead, Bool.and_eq_true, decide_eq_true_eq, ne_eq] at hw
    obtain ⟨hr, hw, -⟩ := hw
    have h1 := hx.writing
    have h2 := hx.reading
    rw [hw] at h1 h2
    have hi : c.state.reading = .init := by
      cases hr' : c.state.reading with
      | init => rfl
      | body d => rw [hr'] at h2; exact absurd rfl h2.2.1
      | continue_ d => rw [hr'] at h2; exact absurd rfl h2.2.1
      | keepAlive => rw [hr'] at h2; exact absurd rfl h2.2
      | closed => exact absurd hr' (by simpa using hr)
    have hg := c.writeHead_wrote head body
    refine ⟨⟨(c.encodeHead head body).1, [], .awaited⟩, hg.log ▸ .cons ht (.head h1), ?_, ?_⟩
    · rw [hg.writing]
      split
      · exact Encoder.sentPart_start _
      · rename_i he
        unfold writingDone
        split
        · trivial
        · exact (Encoder.sentPart_start _).whole (by simpa using he)
    · rw [hg.reading, hi]
      exact .inr rfl
  | @note ev hev =>
    obtain ⟨x, ht, hx⟩ := h
    refine ⟨x, .cons ht ?_, hx.writing, hx.reading⟩
    cases ev with
    | took id => exact .took id
    | delivered id gone head => exact .delivered id gone head
    | wanted early => exact .wanted early
    | woke => exact .woke
    | wroteHead _ _ _ _ => exact hev.elim
    | wroteBody _ => exact hev.elim
    | gotHead _ => exact hev.elim
    | decoded _ _ => exact hev.elim
    | unexpectedEnd => exact hev.elim
    | closed => exact hev.elim
    | flushed _ => exact hev.elim

/-! ## Back to the start -/

/-- **Writing returns to its start only together with reading.** -/
theorem tryKeepAlive_returns (hw : c.state.writing ≠ .init) (hw' : c.tryKeepAlive.state.writing = .init) :
    c.state.reading = .keepAlive ∧ c.tryKeepAlive.state.reading = .init := by
  unfold tryKeepAlive at hw' ⊢
  rcases c.state.tryKeepAlive_cases with ⟨hk, -⟩ | ⟨hk, hr, -⟩ | hk
  · have hc : c.modify State.tryKeepAlive = c := by unfold modify; rw [hk]
    rw [hc] at hw'
    rcases c.maybeNotify_cases with ⟨⟨s, hs, hn⟩, -⟩ | ⟨-, -, s, hn, hs⟩ <;> rw [hn] at hw'
    · exact absurd (hs.writing ▸ hw') hw
    · rcases hs with ⟨hs, -⟩ | hs | ⟨hs, -⟩
      · exact absurd (hs.writing ▸ hw') hw
      · exact absurd (hs.writing.symm.trans hw') (by simp [State.close, State.note])
      · exact absurd (hs.writing ▸ hw') hw
  · refine ⟨hr, ?_⟩
    have hc : c.modify State.tryKeepAlive = c.modify State.idle := by unfold modify; rw [hk]
    rw [hc] at hw' ⊢
    rcases (c.modify State.idle).maybeNotify_cases with ⟨⟨s, hs, hn⟩, -⟩ | ⟨-, -, s, hn, hs⟩ <;> rw [hn] at hw' ⊢
    · exact hs.reading
    · rcases hs with ⟨hs, -⟩ | hs | ⟨-, hi⟩
      · exact hs.reading
      · exact absurd (hs.writing.symm.trans hw') (by simp [State.close, State.note])
      · cases hi
  · have hc : c.modify State.tryKeepAlive = c.modify State.close := by unfold modify; rw [hk]
    rw [hc] at hw'
    rcases (c.modify State.close).maybeNotify_cases with ⟨⟨s, hs, hn⟩, -⟩ | ⟨hr, -⟩
    · rw [hn] at hw'
      exact absurd (hs.writing.symm.trans hw') (by simp [modify, State.close, State.note])
    · cases hr

theorem BodyWritten.ne_init (h : BodyWritten c c') (hw : c.state.writing ≠ .init) : c'.state.writing ≠ .init := by
  obtain ⟨w, l, hs, -, hne⟩ := h.state
  rw [hs]
  exact hne hw

theorem Move.returns (hm : Move H c c') (hw : c.state.writing ≠ .init) (hw' : c'.state.writing = .init) :
    c.state.reading = .keepAlive ∧ c'.state.reading = .init := by
  cases hm with
  | calm hm =>
    cases hm with
    | parse _ _ => exact absurd hw' hw
    | interim _ _ => exact absurd hw' hw
    | unhold _ => exact absurd hw' hw
    | decode _ hd _ =>
      rw [(decodeBody_inv hd).2] at hw'
      exact absurd hw' hw
    | @frame c₁ _ _ _ _ _ _ unexpected _ hd _ =>
      have h : c₁.state.writing = .init := by cases unexpected <;> exact hw'
      rw [(decodeBody_inv hd).2] at h
      exact absurd h hw
    | tryKeepAlive => exact tryKeepAlive_returns hw hw'
    | read => exact absurd hw' hw
    | skip _ => exact absurd hw' hw
    | closeRead => exact absurd hw' hw
    | closeWrite _ => cases hw'
    | close => cases hw'
    | @writeBody chunk _ _ => exact absurd hw' ((c.writeBody_written chunk).ne_init hw)
    | writeTrailers fields _ => exact absurd hw' ((c.writeTrailers_written fields).ne_init hw)
    | @writeBodyAndEnd chunk _ _ => exact absurd hw' ((c.writeBodyAndEnd_written chunk).ne_init hw)
    | endBody _ => exact absurd hw' (c.endBody_written.ne_init hw)
    | flush => exact absurd hw' hw
    | flushed _ => exact absurd hw' hw
    | shutdown => exact absurd hw' hw
    | quiet hs => exact absurd (hs.writing ▸ hw') hw
  | @head c₁ fuel msg hr hparse =>
    have h1 := (gotHead_got c₁.state msg).writing
    have h2 : c.state.writing = c₁.state.writing := congrArg (fun y => y.2.state.writing) hparse
    exact absurd (h2.trans (h1.symm.trans hw')) hw
  | writeHead head body hc =>
    simp only [canWriteHead, Bool.and_eq_true, decide_eq_true_eq] at hc
    exact absurd hc.2.1 hw
  | note _ => exact absurd hw' hw

end Conn

/-! ## Callers -/

theorem Callers.inner {log log' : List Ev} {s : Caller} (hc : Callers log s) (h : AddsInner log log') :
    Callers log' s := by
  obtain ⟨l, rfl, hl⟩ := h
  induction l with
  | nil => exact hc
  | cons ev l ih =>
    have hev : ev.Inner := hl ev mem_cons_self
    refine .cons (ih fun e he => hl e (mem_cons_of_mem _ he)) (.other ?_)
    cases ev <;> first | exact hev.elim | rfl

namespace Channel

variable {β : Type}

/-- The heads that callers have got. -/
def Told (Q : ℕ → ResponseHead → Prop) (c : Channel β) : Prop :=
  ∀ id head, (c.calls id).head = some head → Q id head

variable {Q Q' : ℕ → ResponseHead → Prop} {c : Channel β}

theorem Told.mono (h : Told Q c) (hQ : ∀ id head, Q id head → Q' id head) : Told Q' c :=
  fun id head hh => hQ id head (h id head hh)

theorem Told.setCall (h : Told Q c) {id : ℕ} {o : OneShot β} (ho : ∀ head, o.head = some head → Q id head) :
    Told Q (c.setCall id o) := by
  intro j head hh
  unfold Channel.setCall at hh
  simp only at hh
  split at hh
  · rename_i hj
    exact hj ▸ ho head hh
  · exact h j head hh

theorem Told.send (h : Told Q c) {id : ℕ} {r : Reply β} (hr : ∀ head body, r = .response head body → Q id head) :
    Told Q (c.send id r) := by
  unfold Channel.send
  split
  · exact h
  · refine h.setCall fun head hh => ?_
    cases r with
    | response head' body =>
      cases hh
      exact hr _ body rfl
    | error e message => cases hh

theorem startSend_calls (c : Channel β) (req : Request β) : (c.startSend req).calls = c.calls := by
  have hg : c.give.2.calls = c.calls := by
    unfold give
    split <;> rfl
  unfold startSend
  split
  · rfl
  split
  · rfl
  simp only
  split <;> exact hg

theorem stable_told (Q : ℕ → ResponseHead → Prop) : Dispatcher.Stable (Told (β := β) Q) where
  act s a h := by
    cases a with
    | startSend req =>
      intro id head hh
      exact h id head (s.channel.startSend_calls req ▸ hh)
    | finishSend =>
      show Told Q s.channel.finishSend
      unfold Channel.finishSend
      split
      · exact h
      · simp only
        split <;> exact h
    | dropSender =>
      show Told Q s.channel.dropSender
      unfold Channel.dropSender
      split <;> exact h
    | cancel id => exact h.setCall fun head hh => h id head hh
    | pollBody i => exact h
    | dropBody i => exact h
  refuse c id e message h := h.send nofun
  recv c h := by
    unfold Channel.pollRecv
    repeat' split
    all_goals exact h
  tryRecv c h := by
    unfold Channel.tryRecv
    split <;> exact h
  close c h := h

theorem Told.dropReceiver (h : Told Q c) : Told Q c.dropReceiver := by
  have key : ∀ (ms : List (ℕ × Request β)) (c : Channel β), Told Q c → Told Q (ms.foldl Channel.dropEnvelope c) := by
    intro ms
    induction ms with
    | nil => exact fun c h => h
    | cons m ms ih => exact fun c h => ih _ (h.send nofun)
  exact key _ _ h

end Channel

namespace Dispatcher

open Channel (Told stable_told)

variable {β : Type} [LawfulBuf β] {H : Httparse} {d d' : Dispatcher β}

/-- The caller that the dispatcher holds the callback of. -/
def holder (d : Dispatcher β) : Caller :=
  match d.callback with
  | some id => .waiting id
  | none => .nobody

/-- The log is in turn, and until the connection is given up the callback is that of the
request that was written last and not answered. -/
def CallersInTurn (d : Dispatcher β) : Prop :=
  ∃ s, Callers d.conn.state.log s ∧ s.AtRest ∧ (d.isClosing = false → s = d.holder)

theorem CallersInTurn.calm (h : CallersInTurn d) (hc : Conn.Calms H d.conn d'.conn) (hcb : d'.callback = d.callback)
    (hcl : d'.isClosing = false → d.isClosing = false) : CallersInTurn d' := by
  obtain ⟨s, hs, hrest, hh⟩ := h
  refine ⟨s, hs.inner hc.events, hrest, fun h' => ?_⟩
  rw [hh (hcl h'), holder, holder, hcb]

theorem CallersInTurn.closed (h : CallersInTurn d) (hc : Conn.Calms H d.conn d'.conn) (hcl : d'.isClosing = true) :
    CallersInTurn d' := by
  obtain ⟨s, hs, hrest, -⟩ := h
  exact ⟨s, hs.inner hc.events, hrest, by simp [hcl]⟩

theorem CallersInTurn.note (h : CallersInTurn d) (ev : Ev) (hev : ev.isTurn = false)
    (hlog : d'.conn.state.log = ev :: d.conn.state.log) (hcb : d'.callback = d.callback)
    (hcl : d'.isClosing = d.isClosing) : CallersInTurn d' := by
  obtain ⟨s, hs, hrest, hh⟩ := h
  refine ⟨s, hlog ▸ .cons hs (.other hev), hrest, fun h' => ?_⟩
  rw [hh (hcl ▸ h'), holder, holder, hcb]

theorem CallersInTurn.act (ha : Act H d d') (h : CallersInTurn d) : CallersInTurn d' := by
  cases ha with
  | abort _ =>
    refine h.closed (H := H) ?_ rfl
    rw [← d.pollReady_conn]
    exact (close_quiets { d.pollReady.2 with isAborted := true }).calms
  | noHead fuel hc hr hcb hn =>
    exact h.calm (Conn.pollReadHead_quiets fuel hr fun x => hn _).calms rfl id
  | @response fuel id head len wants c hc hr hcb hx =>
    obtain ⟨s, hs, -, hh⟩ := h
    rw [hh hc, holder, hcb] at hs
    obtain ⟨msg, c₁, hparse, rfl, -, -, rfl⟩ := Conn.pollReadHead_ok hx
    obtain ⟨up, hd'⟩ := respond_some (d := d.yield.setConn (c₁.acceptHead msg)) hcb msg.head len wants
    have hgot := respond_got (d := d.yield.setConn (c₁.acceptHead msg)) hcb msg.head len wants
    have hlog : d.conn.state.log = c₁.state.log := congrArg (fun y => y.2.state.log) hparse
    have h1 : Callers (Conn.gotHead msg c₁.state).log (.answered id msg.head) := by
      rw [(Conn.gotHead_got c₁.state msg).log, ← hlog]
      exact .cons hs (.got msg)
    rw [hd']
    exact ⟨.nobody, .cons (h1.inner (Conn.acceptHead_quiets (H := H) c₁ msg).calms.events) (.delivered hgot), .inl rfl,
      fun _ => rfl⟩
  | @headError fuel id e c hc hr hcb hx =>
    have h1 := (Conn.pollReadHead_quiets (H := H) (c := d.conn) fuel hr (by simp [hx])).calms
    rw [hx] at h1
    have h2 := (close_quiets (H := H) ((d.yield.setConn c).recvError e).2).calms
    rw [recvError_conn] at h2
    exact h.closed (h1.trans h2) rfl
  | @headNone fuel id c hc hr hcb hx =>
    have h1 := (Conn.pollReadHead_quiets (H := H) (c := d.conn) fuel hr (by simp [hx])).calms
    rw [hx] at h1
    split
    · exact h.closed (h1.trans (close_quiets (d.yield.setConn c)).calms) rfl
    · exact h.calm h1 rfl fun h => h
  | @body fuel i _ _ _ =>
    have hb := bodyRound_bodyOnly (H := H) fuel i d
    exact h.calm (bodyRound_quiets fuel i d).calms (by rw [hb]) (by rw [hb]; exact id)
  | keepAlive _ _ _ => exact h.calm (Conn.pollReadKeepAlive_quiets (H := H)).calms rfl id
  | aside ha =>
    cases ha with
    | @request d₁ req hc _ _ hcb hx =>
      obtain ⟨s, hs, -, hh⟩ := h
      rw [hh hc, holder, hcb] at hs
      obtain ⟨id, hd₁⟩ := pollMsg_some hx
      have hw := startRequest_writeOnly d₁ req
      obtain ⟨body, hb⟩ := startRequest_conn d₁ req
      refine ⟨.waiting id, ?_, .inr ⟨id, rfl⟩, fun _ => ?_⟩
      · rw [hb, (d₁.conn.writeHead_wrote req.head body).log, hd₁]
        exact .cons (.cons hs (.took id)) (.wrote _ _ _ _)
      · rw [holder, hw, hd₁]
    | noRequest _ _ _ _ hx =>
      rw [pollMsg_none hx]
      exact h.closed (close_quiets (H := H) _).calms rfl
    | want _ _ _ hcb hx =>
      obtain ⟨early, hd'⟩ := pollMsg_pending hx
      rw [hd']
      exact h.note (.wanted early) rfl rfl rfl rfl
    | flush => exact h.calm (Conn.pollFlush_quiets (H := H)).calms rfl id
    | clearBody _ => exact h
    | @frame body _ _ hw =>
      have hb := writeFrame_writeOnly d body
      exact h.calm (writeFrame_calms (H := H) body hw) (by rw [hb]) (by rw [hb]; exact id)
    | endBody _ _ hw =>
      have hb := endBody_writeOnly d
      exact h.calm (endBody_calms (H := H) hw) (by rw [hb]) (by rw [hb]; exact id)
    | tidy _ => exact h.calm (H := H) (.single (.quiet ⟨rfl, rfl, rfl, rfl, rfl, rfl⟩)) rfl id
    | woke => exact h.note .woke rfl rfl rfl rfl
    | shutdown => exact h.calm (H := H) (.single .shutdown) rfl id

def Handed (log : List Ev) (id : ℕ) (head : ResponseHead) : Prop := ∃ gone, .delivered id gone (some head) ∈ log

/-- **Callers have what was handed to them**, and nothing else. -/
def Answered (d : Dispatcher β) : Prop := Told (Handed d.conn.state.log) d.shared.channel

theorem Answered.act (ha : Act H d d') (h : Answered d) : Answered d' := by
  have hlog : ∀ id head, Handed d.conn.state.log id head → Handed d'.conn.state.log id head :=
    fun id head hd => hd.imp fun _ hm => ha.moves.log.subset hm
  obtain hk | ha | ⟨id, c, head, len, wants, hcb, rfl⟩ := (stable_told _).kept ha h
  · exact Told.mono hk hlog
  · have hw := (stable_told _).pollMsg (d := d) (.inl fun _ h => h) h
    rw [ha.pollMsg] at hw
    exact Told.mono hw hlog
  · -- what the callback of the request has got is in the last event
    obtain ⟨up, hd'⟩ := respond_some (d := d.yield.setConn c) hcb head len wants
    have hy : Told (Handed d.conn.state.log) d.yield.shared.channel := (stable_told _).yield h
    have hr := (stable_told fun j head => j = id ∨ Handed d.conn.state.log j head).respond (d := d.yield.setConn c) hcb
      (fun _ _ h => h.send fun _ _ _ => .inl rfl) head len wants (hy.mono fun _ _ => .inr)
    intro j got hj
    rcases hr j got hj with rfl | hold
    · refine ⟨(((d.yield.setConn c).respond head len wants).2.shared.channel.calls j).closed, ?_⟩
      rw [← hj, hd']
      exact mem_cons_self
    · exact hlog j got hold

theorem Answered.failed (h : Answered d) (e : Error) : Answered (d.failed e) := by
  unfold Answered
  rw [failed_conn]
  exact (stable_told _).recvError e ((stable_told _).failBody _ h)

theorem Answered.drop (h : Answered d) : Answered d.drop := by
  unfold Answered
  rw [drop_conn]
  refine (stable_told _).failBody _ (Told.dropReceiver ((stable_told _).yield ?_))
  split
  · exact (stable_told _).reply (d := { d with callback := none }) (fun _ h => h.send nofun) h
  · exact h

end Dispatcher

/-! ## Runs -/

namespace World

variable {β : Type} [LawfulBuf β] {H : Httparse}

theorem new_inTurn (opts : Http1Options) (io : Transport) (room : Stream' ℕ) (users : Stream' (List (Ext β))) :
    Conn.InTurn (new opts io room users).task.conn.state :=
  ⟨.start, .nil, ⟨rfl, rfl⟩, .inl rfl⟩

theorem run_inTurn (steps : List (Step β)) {w : World β} (h : Conn.InTurn w.task.conn.state) :
    Conn.InTurn (w.run H steps).task.conn.state :=
  run_conn_keeps (P := fun c => Conn.InTurn c.state) (fun _ _ => Conn.InTurn.move) steps w h

theorem run_callersInTurn (steps : List (Step β)) {w : World β} (h : w.task.CallersInTurn) :
    ∃ s, Callers (w.run H steps).log s ∧ s.AtRest := by
  have hrest : ∀ d : Dispatcher β, d.CallersInTurn → ∃ s, Callers d.conn.state.log s ∧ s.AtRest :=
    fun d ⟨s, hs, hr, _⟩ => ⟨s, hs, hr⟩
  refine (run_keeps (I := Dispatcher.CallersInTurn) (J := fun d => ∃ s, Callers d.conn.state.log s ∧ s.AtRest)
    (fun _ _ => Dispatcher.CallersInTurn.act) (fun _ _ h => h) hrest (fun d e hd => ?_) (fun _ _ h => h)
    (fun d hd => ?_) steps w (hrest _ h) fun _ => h).1
  · rw [Dispatcher.failed_conn]; exact hrest d hd
  · rw [Dispatcher.drop_conn]; exact hd

theorem run_answered (steps : List (Step β)) {w : World β} (h : w.task.Answered) : (w.run H steps).task.Answered :=
  (run_keeps (fun _ _ => Dispatcher.Answered.act) (fun d a h => (Channel.stable_told _).act d.shared a h)
    (fun _ h => h) (fun _ e h => h.failed e) (fun d a h => (Channel.stable_told _).act d.shared a h)
    (fun _ h => h.drop) steps w h fun _ => h).1

end World

/-- **Exchanges are strictly serial and paired.** In every run the log is a trace of the
protocol, where a head is written only after the last request was sent and the last
response received to the end, and each response head goes to the caller whose request it
answers, and to no other: a caller has a head only if it was handed to it. While a response
is being read the writer is not back at its start, and it gets there only together with
the reader. -/
theorem exchanges_serial {β : Type} [LawfulBuf β] (H : Httparse) (opts : Http1Options) (io : Transport)
    (room : Stream' ℕ) (users : Stream' (List (Ext β))) (steps : List (Step β)) :
    let w := (World.new opts io room users).run H steps
    (∃ x, Exchange.Trace w.log x) ∧ (∃ s, Callers w.log s ∧ s.AtRest) ∧
      (∀ id head, (w.task.shared.channel.calls id).head = some head → ∃ gone, .delivered id gone (some head) ∈ w.log) ∧
      (Conn.inResponse w.task.conn.state.reading = true → w.task.conn.state.writing ≠ .init) ∧
      ∀ c', Conn.Move H w.task.conn c' → w.task.conn.state.writing ≠ .init → c'.state.writing = .init →
        w.task.conn.state.reading = .keepAlive ∧ c'.state.reading = .init := by
  intro w
  obtain ⟨x, ht, hx⟩ := World.run_inTurn (H := H) steps (World.new_inTurn opts io room users)
  refine ⟨⟨x, ht⟩, World.run_callersInTurn steps ⟨.nobody, .nil, .inl rfl, fun _ => rfl⟩,
    World.run_answered steps nofun, fun hr => ?_, fun c' hm => hm.returns⟩
  exact hx.writing_ne hr

end Netty
