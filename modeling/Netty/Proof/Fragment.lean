import Netty.Proof.Bounded

/-!
# Body decoding does not depend on fragmentation

A connection hands a byte stream to the decoder in reads of any size, with any
number of refusals between them.

* `Buffered.Streams`: what is buffered and what the transport will still deliver
  make up a byte string, followed by the end of the stream.
* `streams_serves`: such a connection is a reader of that string.
* `meaning_take`, `meaning_short`: an ended body depends on the bytes it used, and
  on each of them.
* `decode_unfragmented`: the outcome of decoding is a function of the byte string.
-/

namespace Netty

open List

variable {β : Type} [LawfulBuf β]

/-! ## Streams in pieces -/

/-- A non-empty piece of a stream, or a refusal. -/
def ReadEv.Piece : ReadEv → Prop
  | .ok bytes => bytes ≠ []
  | .pending => True
  | .err _ => False

def ReadEv.bytes : ReadEv → Bytes
  | .ok bytes => bytes
  | _ => []

/-- The bytes of the buffer and of the `n` answers to come are `s`; after them the
transport is at its end. -/
def Buffered.Streams (b : Buffered β) (n : ℕ) (s : Bytes) : Prop :=
  ∃ evs : List ReadEv, b.io.reads = evs ++ₛ Stream'.const (.ok []) ∧ (∀ e ∈ evs, e.Piece) ∧
    evs.length = n ∧ b.readBuf ++ (evs.map ReadEv.bytes).flatten = s

variable {s : Bytes}

theorem Buffered.Streams.pollReadFromIo {b : Buffered β} {n : ℕ} (h : b.Streams n s) :
    (∃ b' n', b.pollReadFromIo = (.pending, b') ∧ n' < n ∧ b'.readBuf = b.readBuf ∧ b'.Streams n' s) ∨
    (∃ b' n' x, b.pollReadFromIo = (.ready (.ok x.length), b') ∧ n' ≤ n ∧
      b'.readBuf = b.readBuf ++ x ∧ (x = [] → s = b.readBuf) ∧ b'.Streams n' s) := by
  obtain ⟨evs, hreads, hpc, hn, hs⟩ := h
  rw [b.pollReadFromIo_eq, hreads]
  cases evs with
  | nil =>
    refine .inr ⟨_, 0, [], rfl, by omega, rfl, fun _ => by simpa using hs.symm, [], ?_, by simp, rfl, ?_⟩
    · rw [Buffered.gotRead_reads, hreads]; rfl
    · simpa using hs
  | cons e evs =>
    have he := hpc e (by simp)
    have htl : ∀ e' ∈ evs, e'.Piece := fun e' h => hpc e' (mem_cons_of_mem _ h)
    rw [length_cons] at hn
    cases e with
    | err e => exact absurd he (by simp [ReadEv.Piece])
    | pending =>
      refine .inl ⟨_, evs.length, rfl, by omega, rfl, evs, ?_, htl, rfl, ?_⟩
      · rw [Buffered.gotNothing_reads, hreads]; rfl
      · simpa [ReadEv.bytes] using hs
    | ok x =>
      refine .inr ⟨_, evs.length, x, rfl, by omega, rfl, fun h => absurd h he, evs, ?_, htl, rfl, ?_⟩
      · rw [Buffered.gotRead_reads, hreads]; rfl
      · simpa [ReadEv.bytes] using hs

theorem bytes_serves : Serves fun (r : Bytes) (_ : ℕ) s => r = s := by
  refine ⟨fun r n s len h hlen => .inr ⟨r.take len, r.drop len, r.drop len, n, rfl, ?_, ?_, fun hx => ?_, le_rfl, rfl⟩⟩
  · rw [take_append_drop, h]
  · exact length_take_le _ _
  · rw [take_eq_nil_iff] at hx
    exact h ▸ hx.resolve_left hlen.ne'

/-- **A connection is a reader of its stream.** -/
theorem streams_serves : Serves (Buffered.Streams (β := β)) := by
  refine ⟨fun b n s len h hlen => ?_⟩
  simp only [MemRead.readMem, Buffered.readMem]
  by_cases hb : b.readBuf = []
  · rw [if_neg (by simpa using hb)]
    rcases h.pollReadFromIo with ⟨b', n', hrd, hn, hbuf, h'⟩ | ⟨b', n', x, hrd, hn, hbuf, hnil, h'⟩
    · exact .inl ⟨b', n', by rw [hrd]; rfl, hn, h'⟩
    · right
      obtain ⟨evs, h1, h2, h3, h4⟩ := h'
      rw [hb, nil_append] at hbuf
      rw [hbuf] at h4
      have hk : x.take (min len x.length) = x.take len := by rw [take_eq_take_iff]; omega
      refine ⟨x.take len, x.drop len ++ (evs.map ReadEv.bytes).flatten,
        { b' with readBuf := x.drop (min len x.length) }, n', ?_, ?_, ?_, ?_, hn, ?_⟩
      · rw [hrd, whenOk_ok, hbuf, hk]
      · rw [← h4, ← append_assoc, take_append_drop]
      · rw [length_take]; omega
      · intro h0
        rw [hnil (by rw [take_eq_nil_iff] at h0; rcases h0 with h0 | h0; omega; exact h0), hb]
      · refine ⟨evs, h1, h2, h3, ?_⟩
        rcases Nat.le_total len x.length with hle | hle
        · rw [min_eq_left hle]
        · rw [min_eq_right hle, drop_length, drop_eq_nil_of_le hle]
  · right
    rw [if_pos hb]
    obtain ⟨evs, h1, h2, h3, h4⟩ := h
    have hpos := length_pos_iff.2 hb
    refine ⟨_, b.readBuf.drop (min len b.readBuf.length) ++ (evs.map ReadEv.bytes).flatten, _, n, rfl, ?_, ?_, ?_,
      le_refl _, evs, h1, h2, h3, rfl⟩
    · rw [← h4, ← append_assoc, take_append_drop]
    · rw [length_take]; omega
    · intro h0
      rw [take_eq_nil_iff] at h0
      rcases h0 with h0 | h0
      · omega
      · exact absurd h0 hb

/-! ## The last byte of a body -/

variable {c : Chunked}

theorem Chunked.meaning_of_ended (hp : Httparse) (h : c.state = .ended) (s : Bytes) :
    c.meaning hp s = ⟨[], none, .ended, 0⟩ :=
  Decoder.meaning_of_isEof hp (d := .chunked c) s (by simp [Decoder.isEof, h])

theorem Chunked.meaning_nil (hp : Httparse) (h : (c.meaning hp []).outcome = .ended) : c.state = .ended := by
  unfold meaning at h
  split at h
  · assumption
  · cases h
  · cases h

/-- How a body that ends reads its next byte, whatever stands behind it: as the last
byte, or as the front of a body that ends. -/
theorem Chunked.meaning_cons_ended (hp : Httparse) {b : UInt8} (he : c.state ≠ .ended)
    (h : (c.meaning hp (b :: s)).outcome = .ended) :
    (∃ v : Decoded, v.used = 1 ∧ ∀ t, c.meaning hp (b :: t) = v) ∨
    (∃ d c', (meaning hp c' s).outcome = .ended ∧
      ∀ t, c.meaning hp (b :: t) = (meaning hp c' t).after d 1) := by
  by_cases hb : c.state = .body
  · have hm : ∀ t, c.meaning hp (b :: t) = ((c.eat 1).meaning hp t).after [b] 1 := fun t => by
      rw [meaning, if_neg he, if_pos hb]
    rw [hm] at h
    exact .inr ⟨[b], c.eat 1, h, hm⟩
  · rw [meaning_cons hp s hb he] at h
    rcases ho : c.onByte b with ⟨st | e | _, c'⟩
    · by_cases hst : st = .ended
      · subst hst
        refine .inl ⟨finish hp c', ?_, fun t => meaning_end hp t ho hb he⟩
        unfold finish
        split
        · rfl
        · split <;> rfl
      · rw [ho] at h
        simp only [if_neg hst] at h
        exact .inr ⟨[], _, h, fun t => meaning_to hp t ho hb he hst⟩
    · rw [ho] at h; cases h
    · rw [ho] at h; cases h

theorem Chunked.meaning_take (hp : Httparse) (s t : Bytes) :
    ∀ c : Chunked, (c.meaning hp s).outcome = .ended →
      c.meaning hp (s.take (c.meaning hp s).used ++ t) = c.meaning hp s := by
  induction s with
  | nil =>
    intro c h
    have hm := meaning_of_ended hp (meaning_nil hp h)
    rw [hm, hm]
  | cons b s ih =>
    intro c h
    by_cases he : c.state = .ended
    · rw [meaning_of_ended hp he, meaning_of_ended hp he]
    · rcases meaning_cons_ended hp he h with ⟨v, hu, hv⟩ | ⟨d, c', hc', hm⟩
      · rw [hv, hu, take_succ_cons, cons_append, hv]
      · have hu : ((c'.meaning hp s).after d 1).used = (c'.meaning hp s).used + 1 := add_comm _ _
        rw [hm, hu, take_succ_cons, cons_append, hm, ih c' hc']

theorem Chunked.meaning_short (hp : Httparse) (s : Bytes) :
    ∀ (c : Chunked) (j : ℕ), (c.meaning hp s).outcome = .ended → j < (c.meaning hp s).used →
      (c.meaning hp (s.take j)).outcome ≠ .ended := by
  induction s with
  | nil =>
    intro c j h hj
    rw [meaning_of_ended hp (meaning_nil hp h)] at hj
    exact absurd hj (Nat.not_lt_zero j)
  | cons b s ih =>
    intro c j h hj hend
    have he : c.state ≠ .ended := by
      intro he
      rw [meaning_of_ended hp he] at hj
      exact absurd hj (Nat.not_lt_zero j)
    cases j with
    | zero => exact he (meaning_nil hp hend)
    | succ j =>
      rw [take_succ_cons] at hend
      rcases meaning_cons_ended hp he h with ⟨v, hu, hv⟩ | ⟨d, c', hc', hm⟩
      · rw [hv, hu] at hj; omega
      · rw [hm] at hj hend
        have hj' : j < (c'.meaning hp s).used := by simp only [Decoded.after] at hj; omega
        exact ih c' j hc' hj' hend

variable {d : Decoder}

/-- **An ended body depends on no byte behind it**, unless it is ended by the end of
the stream. -/
theorem Decoder.meaning_take (hp : Httparse) (t : Bytes) (hd : d ≠ .eof false) (h : (d.meaning hp s).outcome = .ended) :
    d.meaning hp (s.take (d.meaning hp s).used ++ t) = d.meaning hp s := by
  cases d with
  | length n =>
    have hn : n ≤ s.length := by
      by_contra hn
      simp [meaning, hn] at h
    simp [meaning, hn]
  | chunked c => exact Chunked.meaning_take hp s t c h
  | eof seen =>
    cases seen with
    | true => rfl
    | false => exact absurd rfl hd

/-- **An ended body needs each of its bytes.** -/
theorem Decoder.meaning_short (hp : Httparse) {j : ℕ} (hd : d ≠ .eof false) (h : (d.meaning hp s).outcome = .ended)
    (hj : j < (d.meaning hp s).used) : (d.meaning hp (s.take j)).outcome ≠ .ended := by
  cases d with
  | length n =>
    have hn : n ≤ s.length := by
      by_contra hn
      simp [meaning, hn] at h
    simp only [meaning, if_pos hn] at hj
    have hlt : ¬ n ≤ (s.take j).length := by rw [length_take]; omega
    simp only [meaning, if_neg hlt]
    intro hend; cases hend
  | chunked c => exact Chunked.meaning_short hp s c j h hj
  | eof seen =>
    cases seen with
    | true => exact absurd hj (Nat.not_lt_zero j)
    | false => exact absurd rfl hd

/-! ## Fragmentation -/

/-- `d` makes `v` of `s`: called until the body has ended or failed, over any
connection that will deliver `s` and then end, it hands out the data and trailers
of `v`, has the outcome of `v`, and leaves unread what stands behind the first
`v.used` bytes. -/
def Decodes (β : Type) [LawfulBuf β] (hp : Httparse) (d : Decoder) (s : Bytes) (v : Decoded) : Prop :=
  ∀ (b : Buffered β) (n : ℕ), b.Streams n s → ∃ N, ∀ fuel, N ≤ fuel →
    ∃ x n', drain hp fuel d b = (.ready v.outcome, x) ∧ DrainOk Buffered.Streams s v n' x

theorem decodes_meaning (hp : Httparse) (hw : d.Wf) (s : Bytes) : Decodes β hp d s (d.meaning hp s) := fun _ n hb =>
  ⟨s.length + n + 2, fun _ hf => drain_meaning streams_serves hp hb hw (by omega)⟩

theorem Decoder.new_wf (len : DecodedLength) (h1MaxHeaders h1MaxHeaderSize : Option ℕ) :
    (Decoder.new len h1MaxHeaders h1MaxHeaderSize).Wf := by
  cases len with
  | chunked => exact ⟨nofun, nofun⟩
  | closeDelimited => trivial
  | exact n => trivial

/-- **Body decoding does not depend on fragmentation.** Each decoder makes one thing
of a byte string, however it is cut into reads. A body that ends of itself is read
to its last byte and not beyond: the same bytes give the same with anything behind
them, and no shorter front of them ends. A close-delimited body is the whole string. -/
theorem decode_unfragmented (hp : Httparse) (len : DecodedLength) (h1MaxHeaders h1MaxHeaderSize : Option ℕ)
    (s : Bytes) :
    ∃ v, Decodes β hp (Decoder.new len h1MaxHeaders h1MaxHeaderSize) s v ∧
      (hp.Holds (h1MaxHeaders.getD defaultMaxHeaders) → v.outcome ≠ .panicked) ∧
      (v.outcome = .ended →
        if len = .closeDelimited then v.used = s.length
        else
          (∀ t, Decodes β hp (Decoder.new len h1MaxHeaders h1MaxHeaderSize) (s.take v.used ++ t) v) ∧
          ∀ j < v.used, ∃ w, Decodes β hp (Decoder.new len h1MaxHeaders h1MaxHeaderSize) (s.take j) w ∧
            w.outcome ≠ .ended) := by
  set d := Decoder.new len h1MaxHeaders h1MaxHeaderSize with hd
  have hw : d.Wf := Decoder.new_wf len h1MaxHeaders h1MaxHeaderSize
  refine ⟨d.meaning hp s, decodes_meaning hp hw s,
    fun hH => Decoder.meaning_ne_panicked hH len h1MaxHeaderSize s, fun h => ?_⟩
  by_cases hlen : len = .closeDelimited
  · rw [if_pos hlen, hd, hlen]; rfl
  · rw [if_neg hlen]
    have hne : d ≠ .eof false := by
      rw [hd]
      cases len with
      | closeDelimited => exact absurd rfl hlen
      | chunked => simp [Decoder.new]
      | exact n => simp [Decoder.new]
    refine ⟨fun t => ?_, fun j hj => ⟨_, decodes_meaning hp hw _, d.meaning_short hp hne h hj⟩⟩
    have hdec : Decodes β hp d (s.take (d.meaning hp s).used ++ t) _ := decodes_meaning hp hw _
    rw [Decoder.meaning_take hp t hne h] at hdec
    exact hdec

end Netty
