import Mathlib.Data.List.Nodup
import Netty.Proof.Grammar
import Netty.Proof.SentTrailers
import Netty.Proof.Wire

/-!
# Chunked bodies round-trip

What the chunked encoder writes is read back by the chunked decoder, however it is
cut into reads and whatever follows it.

* `printedLine`: what the encoder prints is a size line of the grammar.
* `meaning_dataPart`: so the decoder reads the chunks and the last-chunk line.
* `meaning_line`: it collects a trailer line.
* `chunked_round_trip`: the whole body.
-/

namespace Netty

open LawfulBuf List

variable (hp : Httparse) {H B : Option ℕ}

/-! ## Chunks -/

theorem hexDigit_digit {d : ℕ} (h : d < 16) : HexDigit (hexDigit d) d := by
  have hall : ∀ d : Fin 16, HexDigit (hexDigit d) d.val := by decide
  exact hall ⟨d, h⟩

theorem hexString_upperHex (n : ℕ) : HexString (upperHex n) n := by
  unfold upperHex
  split
  · rename_i h0
    exact ⟨[0], .cons (by decide) .nil, h0⟩
  · refine ⟨Nat.digits 16 n, ?_, (Nat.ofDigits_digits 16 n).symm⟩
    rw [map_reverse, reverse_reverse, forall₂_map_left_iff, forall₂_same]
    exact fun d hd => hexDigit_digit (Nat.digits_lt_base (by decide) hd)

theorem upperHex_ne_nil (n : ℕ) : upperHex n ≠ [] := by
  unfold upperHex
  split
  · simp
  · rename_i h0
    simpa [Nat.digits_eq_nil_iff_eq_zero] using h0

theorem white_nil : ∀ b ∈ ([] : Bytes), b = 9 ∨ b = 32 := by simp

theorem extension_none : ∀ e ∈ (none : Option Bytes), cr ∉ e ∧ lf ∉ e := by simp

def printedLine (n : ℕ) (hn : n < u64Size) : SizeLine where
  digits := upperHex n
  size := n
  white := []
  extension := none
  digits_ne := upperHex_ne_nil n
  denotes := hexString_upperHex n
  size_lt := hn
  white_ok := white_nil
  extension_ok := extension_none

theorem printedLine_bytes {n : ℕ} (hn : n < u64Size) : (printedLine n hn).bytes = upperHex n ++ crlf := by
  simp [SizeLine.bytes, SizeLine.front, SizeLine.extensionPart, printedLine]

def chunkBytes (d : Bytes) : Bytes := upperHex d.length ++ crlf ++ d ++ crlf

/-- **The chunks of a body** are read, and the decoder is ready for the next one. -/
theorem reaches_chunkBytes (ds : List Bytes) (h : ∀ d ∈ ds, d ≠ [] ∧ d.length < u64Size) :
    dataPart.Reaches (Chunked.new H B) (ds.flatMap chunkBytes) ds.flatten (Chunked.new H B) := by
  induction ds with
  | nil => exact .refl _
  | cons d ds ih =>
    obtain ⟨hd, hn⟩ := h d mem_cons_self
    have hchunk := reaches_chunk (H := H) (B := B) (k := 0) ⟨printedLine d.length hn, d, rfl, hd⟩
      (Nat.zero_lt_succ _)
    rw [Chunk.bytes, printedLine_bytes hn] at hchunk
    exact hchunk.trans (ih fun x hx => h x (mem_cons_of_mem _ hx))

/-! ## Trailers -/

/-- The decoder with `buf` of the trailer section collected and `k` lines counted. -/
def Chunked.collected (c : Chunked) (st : ChunkedState) (buf : Option Bytes) (k : ℕ) : Chunked :=
  { c with state := st, trailersBuf := buf, trailersCnt := k }

/-- **The data part of a body** is read: its chunks and the last-chunk line. -/
theorem Chunked.meaning_dataPart (ds : List Bytes) (h : ∀ d ∈ ds, d ≠ [] ∧ d.length < u64Size) (s : Bytes) :
    (Chunked.new H B).meaning hp (ds.flatMap chunkBytes ++ (ascii "0" ++ crlf ++ s)) =
      (((Chunked.new H B).collected .endCr none 0).meaning hp s).after ds.flatten
        ((ds.flatMap chunkBytes).length + 3) := by
  have hlast := reaches_line (H := H) (B := B) (k := 0) (printedLine 0 (by decide)) (by decide)
  rw [printedLine_bytes] at hlast
  have hall := meaning_of_reaches hp ((reaches_chunkBytes ds h).trans hlast) s
  rw [append_nil, append_assoc, length_append] at hall
  exact hall

theorem Chunked.putU8_eq (c : Chunked) {buf : Bytes} {b : UInt8} (st : ChunkedState)
    (h : buf.length + 1 < c.maxHeadersBytes) :
    c.putU8 buf b st = { c with trailersBuf := some (buf ++ [b]) }.go st := by
  simp only [putU8]
  rw [if_neg (by omega)]

theorem Chunked.meaning_collect {c : Chunked} {st st' : ChunkedState} {buf buf' : Option Bytes} {k k' : ℕ} {b : UInt8}
    (s : Bytes) (h : (c.collected st buf k).onByte b = (.to st', c.collected st buf' k')) (hb : st ≠ .body)
    (he : st ≠ .ended) (hst : st' ≠ .ended) :
    (c.collected st buf k).meaning hp (b :: s) = ((c.collected st' buf' k').meaning hp s).after [] 1 :=
  meaning_to hp s h hb he hst

theorem Chunked.meaning_text (s : Bytes) (k : ℕ) (text : Bytes) : ∀ (c : Chunked) (buf : Bytes),
    (∀ b ∈ text, b ≠ cr) → buf.length + text.length < c.maxHeadersBytes →
      (c.collected .trailer (some buf) k).meaning hp (text ++ s) =
        ((c.collected .trailer (some (buf ++ text)) k).meaning hp s).after [] text.length := by
  induction text with
  | nil => intro c buf _ _; simp
  | cons b text ih =>
    intro c buf hcr hlen
    rw [length_cons] at hlen
    have hb := hcr b (by simp)
    have hstep : (c.collected .trailer (some buf) k).onByte b =
        (.to .trailer, c.collected .trailer (some (buf ++ [b])) k) := by
      simp only [onByte, collected, readTrailer, if_neg hb]
      exact putU8_eq _ _ (show buf.length + 1 < c.maxHeadersBytes by omega)
    rw [cons_append, meaning_collect hp _ hstep (by simp) (by simp) (by simp),
      ih c _ (fun x hx => hcr x (mem_cons_of_mem _ hx)) (by simp; omega)]
    simp [add_comm]

theorem Chunked.meaning_lineEnd (c : Chunked) (buf : Bytes) {k : ℕ} (s : Bytes) (hk : k < c.maxHeadersCnt)
    (hlen : buf.length + 2 < c.maxHeadersBytes) :
    (c.collected .trailer (some buf) k).meaning hp (crlf ++ s) =
      ((c.collected .endCr (some (buf ++ crlf)) (k + 1)).meaning hp s).after [] 2 := by
  have hcr : (c.collected .trailer (some buf) k).onByte cr =
      (.to .trailerLf, c.collected .trailer (some (buf ++ [cr])) k) := by
    simp only [onByte, collected, readTrailer, if_true]
    exact putU8_eq _ _ (show buf.length + 1 < c.maxHeadersBytes by omega)
  have hlf : (c.collected .trailerLf (some (buf ++ [cr])) k).onByte lf =
      (.to .endCr, c.collected .trailerLf (some (buf ++ [cr] ++ [lf])) (k + 1)) := by
    simp only [onByte, collected, readTrailerLf, if_true]
    refine (if_neg (show ¬ c.maxHeadersCnt ≤ k by omega)).trans ?_
    exact putU8_eq _ _ (show (buf ++ [cr]).length + 1 < c.maxHeadersBytes by simp; omega)
  have hbuf : buf ++ [cr] ++ [lf] = buf ++ crlf := by simp [cr, lf, crlf]
  show (c.collected .trailer (some buf) k).meaning hp (cr :: lf :: s) = _
  rw [meaning_collect hp _ hcr (by simp) (by simp) (by simp), meaning_collect hp _ hlf (by simp) (by simp) (by simp),
    hbuf, Decoded.after_after]
  rfl

theorem Chunked.meaning_line (c : Chunked) {buf : Option Bytes} {k : ℕ} {text : Bytes} (s : Bytes)
    (hne : text ≠ []) (hcr : ∀ b ∈ text, b ≠ cr) (hk : k < c.maxHeadersCnt)
    (hlen : (buf.getD []).length + (text ++ crlf).length < c.maxHeadersBytes) :
    (c.collected .endCr buf k).meaning hp (text ++ crlf ++ s) =
      ((c.collected .endCr (some (buf.getD [] ++ (text ++ crlf))) (k + 1)).meaning hp s).after []
        (text ++ crlf).length := by
  obtain ⟨b, text, rfl⟩ := exists_cons_of_ne_nil hne
  have hlen' : (buf.getD []).length + (text.length + 3) < c.maxHeadersBytes := by
    simpa [crlf, add_assoc] using hlen
  have hb := hcr b (by simp)
  have hfirst : (c.collected .endCr buf k).onByte b =
      (.to .trailer, c.collected .endCr (some (buf.getD [] ++ [b])) k) := by
    cases buf with
    | none => simp [onByte, collected, readEndCr, go, if_neg hb]
    | some x =>
      simp only [onByte, collected, readEndCr, if_neg hb, Option.getD_some] at hlen' ⊢
      exact putU8_eq _ _ (show x.length + 1 < c.maxHeadersBytes by omega)
  have h1 := meaning_collect hp (text ++ (crlf ++ s)) hfirst (by simp) (by simp) (by simp)
  have h2 := meaning_text hp (crlf ++ s) k text c (buf.getD [] ++ [b])
    (fun x hx => hcr x (mem_cons_of_mem _ hx)) (by simp; omega)
  have h3 := meaning_lineEnd hp c (buf.getD [] ++ [b] ++ text) s hk (by simp; omega)
  rw [append_assoc, cons_append, h1, h2, h3]
  simp only [Decoded.after_after, append_nil, append_assoc, cons_append, nil_append]
  congr 1
  simp [crlf]
  omega

def PlainLine (text : Bytes) : Prop := text ≠ [] ∧ ∀ b ∈ text, b ≠ cr

/-- **The trailer section** is collected line by line. -/
theorem Chunked.meaning_lines (c : Chunked) (s : Bytes) (texts : List Bytes) : ∀ (buf : Option Bytes) (k : ℕ),
    texts ≠ [] → (∀ t ∈ texts, PlainLine t) → k + texts.length ≤ c.maxHeadersCnt →
    (buf.getD []).length + (texts.flatMap (· ++ crlf)).length < c.maxHeadersBytes →
      (c.collected .endCr buf k).meaning hp (texts.flatMap (· ++ crlf) ++ s) =
        ((c.collected .endCr (some (buf.getD [] ++ texts.flatMap (· ++ crlf))) (k + texts.length)).meaning hp s).after
          [] (texts.flatMap (· ++ crlf)).length := by
  induction texts with
  | nil => intro buf k h; exact absurd rfl h
  | cons t ts ih =>
    intro buf k _ hpl hk hlen
    obtain ⟨hne, hcr⟩ := hpl t (by simp)
    rw [length_cons] at hk
    rw [flatMap_cons, length_append] at hlen
    rw [flatMap_cons, append_assoc, meaning_line hp c _ hne hcr (by omega) (by omega)]
    by_cases hts : ts = []
    · subst hts; simp
    · rw [ih _ _ hts (fun x hx => hpl x (mem_cons_of_mem _ hx)) (by omega)
        (by rw [Option.getD_some, length_append]; omega)]
      have hk1 : k + 1 + ts.length = k + (ts.length + 1) := by omega
      simp only [Decoded.after_after, Option.getD_some, append_assoc, append_nil, length_cons,
        length_append, add_assoc] at hk1 ⊢
      rw [hk1]

theorem Chunked.meaning_emptyLine {c : Chunked} {buf buf₁ buf₂ : Option Bytes} {k : ℕ} (s : Bytes)
    (hcr : (c.collected .endCr buf k).onByte cr = (.to .endLf, c.collected .endCr buf₁ k))
    (hlf : (c.collected .endLf buf₁ k).onByte lf = (.to .ended, c.collected .endLf buf₂ k)) :
    (c.collected .endCr buf k).meaning hp (crlf ++ s) = (finish hp (c.collected .endLf buf₂ k)).after [] 1 := by
  show (c.collected .endCr buf k).meaning hp (cr :: lf :: s) = _
  rw [meaning_collect hp _ hcr (by simp) (by simp) (by simp),
    meaning_end hp _ hlf (by simp [collected]) (by simp [collected])]

theorem Chunked.meaning_sectionEnd (c : Chunked) {buf : Bytes} {k : ℕ} (s : Bytes)
    (hlen : (buf ++ crlf).length < c.maxHeadersBytes) :
    (c.collected .endCr (some buf) k).meaning hp (crlf ++ s) =
      (finish hp (c.collected .endLf (some (buf ++ crlf)) k)).after [] 1 := by
  have hl : buf.length + 2 < c.maxHeadersBytes := by simpa [crlf] using hlen
  have hcr : (c.collected .endCr (some buf) k).onByte cr =
      (.to .endLf, c.collected .endCr (some (buf ++ [cr])) k) := by
    simp only [onByte, collected, readEndCr, if_true]
    exact putU8_eq _ _ (show buf.length + 1 < c.maxHeadersBytes by omega)
  have hlf : (c.collected .endLf (some (buf ++ [cr])) k).onByte lf =
      (.to .ended, c.collected .endLf (some (buf ++ crlf)) k) := by
    have hbuf : buf ++ [cr] ++ [lf] = buf ++ crlf := by simp [cr, lf, crlf]
    simp only [onByte, collected, readEndLf, if_true, ← hbuf]
    exact putU8_eq _ _ (show (buf ++ [cr]).length + 1 < c.maxHeadersBytes by simp; omega)
  exact meaning_emptyLine hp s hcr hlf

theorem Chunked.meaning_plainEnd (c : Chunked) (k : ℕ) (s : Bytes) :
    (c.collected .endCr none k).meaning hp (crlf ++ s) = ⟨[], none, .ended, 2⟩ := by
  have hcr : (c.collected .endCr none k).onByte cr = (.to .endLf, c.collected .endCr none k) := rfl
  have hlf : (c.collected .endLf none k).onByte lf = (.to .ended, c.collected .endLf none k) := rfl
  rw [meaning_emptyLine hp s hcr hlf]
  simp [finish, collected, Decoded.after]

/-! ## Trailer fields -/

def fieldBytes (f : HeaderName × HeaderValue) : Bytes × Bytes := (f.1.bytes, f.2.bytes)

theorem HeaderName.fromBytes_bytes (n : HeaderName) : HeaderName.fromBytes n.bytes = some n :=
  HeaderName.fromBytes_eq_some.2 (decide_eq_true rfl)

theorem HeaderValue.fromBytes_bytes (v : HeaderValue) : HeaderValue.fromBytes v.bytes = some v := by
  unfold fromBytes
  rw [dif_pos v.ok]

/-- Each of the fields finds room in the map that those before it have led to. -/
def Room (m : HeaderMap) (fs : List (HeaderName × HeaderValue)) : Prop :=
  ∀ before f after, fs = before ++ f :: after →
    hp.full (before.foldl (fun acc f => acc.append f.1 f.2) m) = false

theorem trailerFields_cons (f : HeaderName × HeaderValue) (fs : List (HeaderName × HeaderValue)) (m : HeaderMap) :
    trailerFields hp ((f :: fs).map fieldBytes) m =
      if hp.full m then none else trailerFields hp (fs.map fieldBytes) (m.append f.1 f.2) := by
  simp only [map_cons, fieldBytes, trailerFields, HeaderName.fromBytes_bytes, HeaderValue.fromBytes_bytes]

theorem trailerFields_fields (fs : List (HeaderName × HeaderValue)) : ∀ m, Room hp m fs →
    trailerFields hp (fs.map fieldBytes) m = some (.ok (fs.foldl (fun acc f => acc.append f.1 f.2) m)) := by
  induction fs with
  | nil => intro m _; rfl
  | cons f fs ih =>
    intro m hroom
    have hnow : hp.full m = false := hroom [] f fs rfl
    have hlater : Room hp (m.append f.1 f.2) fs := fun before f' after h => hroom (f :: before) f' after (by rw [h]; rfl)
    rw [trailerFields_cons, hnow]
    exact ih _ hlater

def fieldText (f : HeaderName × HeaderValue) : Bytes := f.1.bytes ++ ascii ": " ++ f.2.bytes

theorem fieldText_plain (f : HeaderName × HeaderValue) : PlainLine (fieldText f) := by
  have hname : ∀ b ∈ f.1.bytes, b ≠ cr := by
    intro b hb h
    have hn := all_eq_true.1 f.1.ok.2 b hb
    rw [h] at hn
    exact absurd hn (by decide)
  have hvalue : ∀ b ∈ f.2.bytes, b ≠ cr := by
    intro b hb h
    have hv := all_eq_true.1 f.2.ok b hb
    rw [h] at hv
    exact absurd hv (by decide)
  refine ⟨by simp [fieldText, f.1.ok.1], fun b hb => ?_⟩
  rcases mem_append.1 hb with hb | hb
  · rcases mem_append.1 hb with hb | hb
    · exact hname b hb
    · rw [show ascii ": " = [58, 32] from rfl, mem_cons, mem_singleton] at hb
      rcases hb with rfl | rfl <;> decide
  · exact hvalue b hb

theorem writeHeaders_eq (m : HeaderMap) : writeHeaders m = (m.iter.map fieldText).flatMap (· ++ crlf) := by
  rw [writeHeaders, flatMap_map]
  rfl

/-- **The trailer section of a map**, from its first line to the empty one. -/
theorem Chunked.meaning_section (c : Chunked) {fields : HeaderMap} (hne : fields.iter ≠ [])
    (hcnt : fields.iter.length ≤ c.maxHeadersCnt) (hlen : (writeHeaders fields ++ crlf).length < c.maxHeadersBytes)
    (s : Bytes) :
    (c.collected .endCr none 0).meaning hp (writeHeaders fields ++ crlf ++ s) =
      (finish hp (c.collected .endLf (some (writeHeaders fields ++ crlf)) fields.iter.length)).after []
        ((writeHeaders fields).length + 1) := by
  have hwl : (writeHeaders fields).length + 2 < c.maxHeadersBytes := by simpa [crlf] using hlen
  have hlines := meaning_lines hp c (crlf ++ s) (fields.iter.map fieldText) none 0 (by simpa using hne)
    (fun t ht => by obtain ⟨f, -, rfl⟩ := mem_map.1 ht; exact fieldText_plain f)
    (by rw [zero_add, length_map]; exact hcnt)
    (by rw [← writeHeaders_eq]; show 0 + _ < c.maxHeadersBytes; omega)
  rw [← writeHeaders_eq, length_map, zero_add, Option.getD_none, nil_append,
    meaning_sectionEnd hp c s hlen, Decoded.after_after] at hlines
  rw [append_assoc, hlines]
  rfl

theorem allowedTrailers_all {allowed : List HeaderName} {t : HeaderMap}
    (h : ∀ f ∈ t.iter, allowed.contains f.1 = true ∧ isValidTrailerField f.1 = true) :
    allowedTrailers allowed t.intoIter none .empty = some t := by
  rw [allowedTrailers_eq]
  refine congrArg some (HeaderMap.ext_entries (filter_eq_self.2 fun b hb => ?_))
  obtain ⟨ha, hv⟩ := h (b.name, b.value) (mem_flatMap.2 ⟨b, hb, by simp [Bucket.values]⟩)
  rw [mayTrail, ha, hv]
  rfl

/-! ## Bodies -/

variable {β : Type} [LawfulBuf β]

/-- How a body ends: by its own end, together with its last piece, or with trailers. -/
inductive BodyEnd (β : Type) where
  | plain
  | last (msg : β)
  | trailers (fields : HeaderMap)

/-- Encode the pieces of a body and its end into a write buffer. -/
def encodeBody (e : Encoder) (w : WriteBuf (EncodedBuf β)) : List β → BodyEnd β → Option (WriteBuf (EncodedBuf β))
  | msg :: msgs, fin => encodeBody (e.encode msg).2 (w.buffer (e.encode msg).1) msgs fin
  | [], .plain =>
    match e.end' with
    | .ok (some buf) => some (w.buffer buf)
    | _ => none
  | [], .last msg => some (e.encodeAndEnd msg w).2
  | [], .trailers fields => (e.encodeTrailers fields).map w.buffer

def BodyEnd.pieces : BodyEnd β → List Bytes
  | .last msg => [content msg]
  | _ => []

def BodyEnd.fields : BodyEnd β → Option HeaderMap
  | .trailers fields => some fields
  | _ => none

def BodyEnd.bytes : BodyEnd β → Bytes
  | .trailers fields => ascii "0" ++ crlf ++ writeHeaders fields ++ crlf
  | _ => ascii "0" ++ crlf ++ crlf

theorem content_chunk (msg : β) (tail : Bytes) : content (Encoder.chunk msg tail) =
    upperHex (content msg).length ++ crlf ++ content msg ++ tail := by
  show content (ChunkSize.new (Buf.remaining msg)) ++ content msg ++ tail = _
  rw [remaining_eq]
  rfl

/-- A body that a receiver with these limits takes: pieces with bytes, and trailers that
may be sent, fit, also in a map, and are parsed as they were written. -/
def BodyEnd.Ok (hp : Httparse) (e : Encoder) (h1MaxHeaders h1MaxHeaderSize : Option ℕ) : BodyEnd β → Prop
  | .plain => True
  | .last msg => content msg ≠ [] ∧ (content msg).length < u64Size
  | .trailers fields =>
    (∃ allowed, e.kind = .chunked (some allowed) ∧
      ∀ f ∈ fields.iter, allowed.contains f.1 = true ∧ isValidTrailerField f.1 = true) ∧
    fields.iter.length ≤ h1MaxHeaders.getD defaultMaxHeaders ∧
    (writeHeaders fields ++ crlf).length < h1MaxHeaderSize.getD trailerLimit ∧ Room hp .empty fields.iter ∧
    ∃ k, hp.parseHeaders (writeHeaders fields ++ crlf) fields.iter.length =
      .ok (.complete (k, fields.iter.map fieldBytes))

theorem content_encodeBody {e : Encoder} {tr : Option (List HeaderName)} (he : e.kind = .chunked tr)
    {h1MaxHeaders h1MaxHeaderSize : Option ℕ} {fin : BodyEnd β} (hfin : fin.Ok hp e h1MaxHeaders h1MaxHeaderSize)
    (msgs : List β) : ∀ {w w' : WriteBuf (EncodedBuf β)}, (w.strategy = .flatten → w.queue.bufs = []) →
      encodeBody e w msgs fin = some w' →
      w'.content = w.content ++ (msgs.map content ++ fin.pieces).flatMap chunkBytes ++ fin.bytes ∧
        ∀ m, fin = .trailers m → m.iter ≠ [] := by
  induction msgs with
  | nil =>
    intro w w' hf h
    cases fin with
    | plain =>
      simp only [encodeBody, Encoder.end', he, Option.some.injEq] at h
      refine ⟨?_, by simp⟩
      rw [← h, WriteBuf.content_buffer hf]
      simp [BodyEnd.pieces, BodyEnd.bytes, content]
    | last msg =>
      simp only [encodeBody, Encoder.encodeAndEnd, he, Option.some.injEq] at h
      refine ⟨?_, by simp⟩
      rw [← h, WriteBuf.content_buffer hf, content_chunk]
      simp [BodyEnd.pieces, BodyEnd.bytes, chunkBytes]
    | trailers fields =>
      obtain ⟨⟨allowed, hk, hall⟩, -⟩ := hfin
      simp only [encodeBody, Encoder.encodeTrailers, hk, allowedTrailers_all hall] at h
      split at h
      · cases h
      · rename_i hbuf
        simp only [Option.map_some, Option.some.injEq] at h
        refine ⟨?_, fun m hm hnil => hbuf ?_⟩
        · rw [← h, WriteBuf.content_buffer hf]
          simp [BodyEnd.pieces, BodyEnd.bytes, content]
        · cases hm; rw [writeHeaders, hnil]; rfl
  | cons msg msgs ih =>
    intro w w' hf h
    have henc : e.encode msg = (Encoder.chunk msg crlf, e) := by simp [Encoder.encode, he]
    rw [encodeBody, henc] at h
    have hf' : (w.buffer (Encoder.chunk msg crlf)).strategy = .flatten →
        (w.buffer (Encoder.chunk msg crlf)).queue.bufs = [] := by
      unfold WriteBuf.buffer
      split
      · exact hf
      · rename_i hs
        intro h'
        rw [show w.strategy = .flatten from h'] at hs; cases hs
    obtain ⟨hc, hne⟩ := ih hf' h
    refine ⟨?_, hne⟩
    rw [hc, WriteBuf.content_buffer hf, content_chunk]
    simp [chunkBytes]

theorem Chunked.meaning_bodyEnd {e : Encoder} {fin : BodyEnd β} (hfin : fin.Ok hp e H B)
    (hne : ∀ m, fin = .trailers m → m.iter ≠ []) (ds : List Bytes) (hds : ∀ d ∈ ds, d ≠ [] ∧ d.length < u64Size)
    (s : Bytes) :
    (Chunked.new H B).meaning hp (ds.flatMap chunkBytes ++ fin.bytes ++ s) =
      ⟨ds.flatten, fin.fields, .ended, (ds.flatMap chunkBytes ++ fin.bytes).length⟩ := by
  set c := Chunked.new H B with hc
  -- an end that the decoder reads behind the last-chunk line
  have hend : ∀ (x : Bytes) (m : Option HeaderMap),
      (c.collected .endCr none 0).meaning hp (x ++ s) = ⟨[], m, .ended, x.length⟩ →
      c.meaning hp (ds.flatMap chunkBytes ++ (ascii "0" ++ crlf ++ x) ++ s) =
        ⟨ds.flatten, m, .ended, (ds.flatMap chunkBytes ++ (ascii "0" ++ crlf ++ x)).length⟩ := by
    intro x m hx
    have hlen : (ascii "0" ++ crlf ++ x).length = 3 + x.length := length_append
    rw [append_assoc, append_assoc _ x, meaning_dataPart hp ds hds, hx, length_append, hlen,
      Decoded.after, append_nil, add_assoc]
  have hplain := hend crlf none (meaning_plainEnd hp c 0 s)
  cases fin with
  | plain => exact hplain
  | last msg => exact hplain
  | trailers fields =>
    obtain ⟨-, hcnt, hlen, hroom, k, hparse⟩ := hfin
    have hdec : decodeTrailers hp (writeHeaders fields ++ crlf) fields.iter.length = some (.ok fields) := by
      simp only [decodeTrailers, hparse]
      rw [trailerFields_fields hp fields.iter .empty hroom, fields.foldl_append_iter]
    have hfinish : finish hp (c.collected .endLf (some (writeHeaders fields ++ crlf)) fields.iter.length) =
        ⟨[], some fields, .ended, 1⟩ := by
      simp only [finish, collected, hdec]
    rw [BodyEnd.bytes, append_assoc (ascii "0" ++ crlf)]
    refine hend _ (some fields) ?_
    rw [meaning_section hp c (hne fields rfl) hcnt hlen s, hfinish]
    simp [Decoded.after, crlf]

/-- **Chunked bodies round-trip.** A body of non-empty pieces, ended in any of the three
ways, is decoded to its data and its trailers from the bytes that were produced, cut
into reads in any way; the decoder is at its end, and what follows is unread. -/
theorem chunked_round_trip {γ : Type} [LawfulBuf γ] {e : Encoder} (he : e.isChunked = true)
    (strategy : WriteStrategy) (room : Stream' ℕ) (msgs : List β)
    (hmsgs : ∀ m ∈ msgs, content m ≠ [] ∧ (content m).length < u64Size)
    {h1MaxHeaders h1MaxHeaderSize : Option ℕ} (fin : BodyEnd β) (hfin : fin.Ok hp e h1MaxHeaders h1MaxHeaderSize)
    {w : WriteBuf (EncodedBuf β)} (hw : encodeBody e (WriteBuf.new strategy room) msgs fin = some w)
    (rest : Bytes) :
    Decodes γ hp (Decoder.new .chunked h1MaxHeaders h1MaxHeaderSize) (w.content ++ rest)
      ⟨(msgs.map content ++ fin.pieces).flatten, fin.fields, .ended, w.content.length⟩ := by
  obtain ⟨tr, hk⟩ : ∃ tr, e.kind = .chunked tr := by
    unfold Encoder.isChunked at he
    split at he
    · exact ⟨_, ‹_›⟩
    · cases he
  obtain ⟨hcontent, hne⟩ :=
    content_encodeBody hp hk hfin msgs (w := WriteBuf.new strategy room) (fun _ => rfl) hw
  rw [show (WriteBuf.new strategy room : WriteBuf (EncodedBuf β)).content = [] from rfl, nil_append] at hcontent
  have hpieces : ∀ d ∈ msgs.map content ++ fin.pieces, d ≠ [] ∧ d.length < u64Size := by
    intro d hd
    rcases mem_append.1 hd with hd | hd
    · obtain ⟨m, hm, rfl⟩ := mem_map.1 hd
      exact hmsgs m hm
    · cases fin with
      | last msg => rw [mem_singleton.1 hd]; exact hfin
      | plain => cases hd
      | trailers fields => cases hd
  have hd := decodes_meaning (β := γ) hp (Decoder.new_wf .chunked h1MaxHeaders h1MaxHeaderSize) (w.content ++ rest)
  have hm : (Decoder.new .chunked h1MaxHeaders h1MaxHeaderSize).meaning hp (w.content ++ rest) =
      ⟨(msgs.map content ++ fin.pieces).flatten, fin.fields, .ended, w.content.length⟩ := by
    show (Chunked.new h1MaxHeaders h1MaxHeaderSize).meaning hp _ = _
    rw [hcontent, Chunked.meaning_bodyEnd hp hfin hne _ hpieces]
  rwa [hm] at hd

/-- One trailer field. -/
def idField : HeaderMap := HeaderMap.empty.append ⟨ascii "x-id", by decide⟩ ⟨ascii "7", by decide⟩

/-- A parser that knows the trailer section of one map. -/
def sectionParser (fields : HeaderMap) : Httparse where
  parseHeaders := fun buf n =>
    if buf = writeHeaders fields ++ crlf ∧ fields.iter.length ≤ n then
      .ok (.complete (buf.length, fields.iter.map fieldBytes))
    else .ok .incomplete
  parseResponse := fun _ _ _ => .ok .incomplete
  canonicalReason := fun _ => none

theorem sectionParser_parse (fields : HeaderMap) :
    (sectionParser fields).parseHeaders (writeHeaders fields ++ crlf) fields.iter.length =
      .ok (.complete ((writeHeaders fields ++ crlf).length, fields.iter.map fieldBytes)) :=
  if_pos ⟨rfl, le_rfl⟩

theorem idField_room : Room (sectionParser idField) .empty idField.iter := by
  intro before f after h
  have hnil : before = [] := by
    have hlen := congrArg List.length h
    rw [length_append, length_cons, show idField.iter.length = 1 by decide] at hlen
    exact length_eq_zero_iff.1 (by omega)
  rw [hnil]
  decide

/-- Two pieces and a trailer, with another message behind them. -/
theorem chunked_round_trip_trailers :
    Decodes Bytes (sectionParser idField) (Decoder.new .chunked none none)
      (ascii "2\r\nhi\r\n6\r\n there\r\n0\r\nx-id: 7\r\n\r\n" ++ ascii "HTTP")
      ⟨ascii "hi there", some idField, .ended, 32⟩ :=
  chunked_round_trip (sectionParser idField) (e := ⟨.chunked (some [⟨ascii "x-id", by decide⟩]), false⟩) rfl .queue
    (Stream'.const 0) [ascii "hi", ascii " there"] (by decide) (.trailers idField)
    ⟨⟨[⟨ascii "x-id", by decide⟩], rfl, by decide⟩, by decide, by decide, idField_room, _,
      sectionParser_parse idField⟩ rfl (ascii "HTTP")

/-! ## A map that is full -/

section Full

variable {hp} {n : ℕ}

/-- **More names than a map takes** are not put together again. -/
theorem trailerFields_full (hfull : ∀ m : HeaderMap, HeaderMap.maxNames ≤ m.entries.length → hp.full m = true)
    (fs : List (HeaderName × HeaderValue)) : ∀ m : HeaderMap, (fs.map Prod.fst).Nodup →
    (∀ f ∈ fs, f.1 ∉ m.entries.map Bucket.name) → m.entries.length ≤ HeaderMap.maxNames →
    HeaderMap.maxNames < m.entries.length + fs.length → trailerFields hp (fs.map fieldBytes) m = none := by
  induction fs with
  | nil =>
    intro m _ _ hle hlt
    rw [length_nil] at hlt
    omega
  | cons f fs ih =>
    intro m hnd hnew hle hlt
    rw [trailerFields_cons]
    split
    · rfl
    · rename_i hnot
      rw [map_cons, nodup_cons] at hnd
      rw [length_cons] at hlt
      have hentries := HeaderMap.entries_append_new (hnew f mem_cons_self) f.2
      have hroom : m.entries.length < HeaderMap.maxNames := by
        by_contra hge
        exact hnot (hfull m (by omega))
      refine ih _ hnd.2 (fun g hg => ?_) ?_ ?_
      · rw [hentries, map_append, mem_append, not_or]
        refine ⟨hnew g (mem_cons_of_mem _ hg), fun hgf => hnd.1 ?_⟩
        have hname : g.1 = f.1 := mem_singleton.1 hgf
        exact hname ▸ mem_map_of_mem hg
      · rw [hentries, length_append, length_singleton]
        omega
      · rw [hentries, length_append, length_singleton]
        omega

end Full

/-- Fifteen letters, one for each binary digit of `i`. -/
def digitLetters (i : ℕ) : Bytes := (range 15).map fun j => if i.testBit j then 98 else 97

theorem digitLetters_ok (i : ℕ) : digitLetters i ≠ [] ∧ (digitLetters i).all isNameByte = true := by
  refine ⟨by simp [digitLetters], all_eq_true.2 fun b hb => ?_⟩
  obtain ⟨j, -, rfl⟩ := mem_map.1 hb
  cases i.testBit j <;> decide

def digitName (i : ℕ) : HeaderName := ⟨digitLetters i, digitLetters_ok i⟩

theorem digitName_inj {i j : ℕ} (hi : i < 32768) (hj : j < 32768) (h : digitName i = digitName j) : i = j := by
  have hletters : digitLetters i = digitLetters j := congrArg HeaderName.bytes h
  refine Nat.eq_of_testBit_eq fun k => ?_
  by_cases hk : k < 15
  · have hbit := (map_inj_left.1 hletters) k (mem_range.2 hk)
    cases hx : i.testBit k <;> cases hy : j.testBit k <;> simp [hx, hy] at hbit ⊢
  · have hle : 32768 ≤ 2 ^ k := Nat.pow_le_pow_right (by decide : 0 < 2) (le_of_not_gt hk)
    rw [Nat.testBit_lt_two_pow (hi.trans_le hle), Nat.testBit_lt_two_pow (hj.trans_le hle)]

theorem digitName_nodup (hn : n ≤ 32768) : ((range n).map digitName).Nodup := by
  refine Nodup.map_on (fun i hi j hj h => ?_) nodup_range
  exact digitName_inj ((mem_range.1 hi).trans_le hn) ((mem_range.1 hj).trans_le hn) h

def digitBucket (i : ℕ) : Bucket := ⟨digitName i, ⟨ascii "1", rfl⟩, []⟩

theorem digitBucket_nodup (hn : n ≤ 32768) : (((range n).map digitBucket).map Bucket.name).Nodup := by
  rw [map_map]
  exact digitName_nodup hn

/-- `n` trailers, each with another name. -/
def manyTrailers (n : ℕ) (hn : n ≤ 32768) : HeaderMap := ⟨(range n).map digitBucket, digitBucket_nodup hn⟩

theorem manyTrailers_iter (hn : n ≤ 32768) :
    (manyTrailers n hn).iter = (range n).map fun i => (digitName i, ⟨ascii "1", rfl⟩) := by
  rw [map_eq_flatMap]
  exact flatMap_map _ _ _

/-- A body without data, whose trailers are these. -/
def trailersOnly (fields : HeaderMap) : Bytes := ascii "0" ++ crlf ++ (writeHeaders fields ++ crlf)

/-- **Trailers that a decoder admits overflow the map**, if there are more of them than it takes. -/
theorem manyTrailers_overflow (hn : n ≤ 32768) (hmax : HeaderMap.maxNames < n) :
    let fields := manyTrailers n hn
    ∃ fuel, (drain (sectionParser fields) fuel
      (.new .chunked (some n) (some (trailersOnly fields).length)) (trailersOnly fields)).1 = .ready .panicked := by
  intro fields
  set hp := sectionParser fields
  set c := Chunked.new (some n) (some (trailersOnly fields).length)
  have hiter : fields.iter.length = n := by
    rw [manyTrailers_iter hn, length_map, length_range]
  have hnone : decodeTrailers hp (writeHeaders fields ++ crlf) fields.iter.length = none := by
    unfold decodeTrailers
    rw [sectionParser_parse]
    refine trailerFields_full (fun m hm => decide_eq_true hm) fields.iter .empty ?_ ?_ ?_ ?_
    · rw [manyTrailers_iter hn, map_map]
      exact digitName_nodup hn
    · intro f _
      exact not_mem_nil
    · exact Nat.zero_le _
    · rw [hiter]
      exact hmax.trans_le (Nat.le_add_left n _)
  have hfinish : Chunked.finish hp (c.collected .endLf (some (writeHeaders fields ++ crlf)) fields.iter.length) =
      ⟨[], none, .panicked, 1⟩ := by
    simp only [Chunked.finish, Chunked.collected, hnone]
  have hne : fields.iter ≠ [] := by
    rw [← length_pos_iff, hiter]
    exact (Nat.zero_le _).trans_lt hmax
  have hlen : (writeHeaders fields ++ crlf).length < (trailersOnly fields).length := by
    simp [trailersOnly, crlf, ascii]
  have hsection := Chunked.meaning_section hp c hne hiter.le hlen []
  have hmeaning := Chunked.meaning_dataPart hp (H := some n) (B := some (trailersOnly fields).length) []
    (by simp) (writeHeaders fields ++ crlf)
  rw [append_nil, hfinish] at hsection
  rw [hsection] at hmeaning
  obtain ⟨x, _, hdrain, -⟩ := drain_meaning bytes_serves hp (n := 0) (s := trailersOnly fields) rfl
    (Decoder.new_wf .chunked (some n) (some (trailersOnly fields).length)) (lt_add_one _)
  exact ⟨_, (congrArg Prod.fst hdrain).trans (congrArg (fun v : Decoded => Poll.ready v.outcome) hmeaning)⟩

/-- 24577 trailers with names of fifteen letters, and a decoder that admits as many. -/
theorem full_map_panics :
    let fields := manyTrailers 24577 (by decide)
    ∃ fuel, (drain (sectionParser fields) fuel
      (.new .chunked (some 24577) (some (trailersOnly fields).length)) (trailersOnly fields)).1 = .ready .panicked :=
  manyTrailers_overflow (by decide) (by decide)

end Netty
