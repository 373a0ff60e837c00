import Netty.Proof.Conn
import Netty.Proof.Reader

/-!
# The chunked decoder keeps its limits

The state tag of the decoder is linked with its counters and its buffer. A byte keeps the link, or the call
fails and the decoder is not called again.

* `Chunked.Bounded`: what holds in every state, that of a failed call included.
* `Chunked.Inv`: what holds while the decoder goes on.
* `Httparse.Holds`: the parser and the header map have room for so many trailers.
* `onByte_inv`, `chunkedRound_inv`: a byte, and a round of the loop.
* `chunked_bounded`: **the states that can be reached**, over any reads.
-/

namespace Netty

/-- **There is room for `n` trailers**: the parser fills no more slots than it is given, and a map with fewer than `n`
names takes another field. -/
structure Httparse.Holds (H : Httparse) (n : ℕ) : Prop where
  slots : ∀ {buf : Bytes} {room k : ℕ} {headers : List (Bytes × Bytes)},
    H.parseHeaders buf room = .ok (.complete (k, headers)) → headers.length ≤ room
  takes : ∀ m : HeaderMap, m.entries.length < n → H.full m = false

section Holds

variable {H : Httparse} {n : ℕ}

theorem trailerFields_ne_none (hH : H.Holds n) (headers : List (Bytes × Bytes)) : ∀ m : HeaderMap,
    m.entries.length + headers.length ≤ n → trailerFields H headers m ≠ none := by
  induction headers with
  | nil => intro m _; simp [trailerFields]
  | cons header headers ih =>
    intro m hlen
    obtain ⟨name, value⟩ := header
    rw [List.length_cons] at hlen
    unfold trailerFields
    split
    · simp
    · rename_i k _
      split
      · simp
      · rename_i v _
        rw [hH.takes m (by omega)]
        have happend := m.length_append_le k v
        exact ih _ (by omega)

theorem decodeTrailers_ne_none (hH : H.Holds n) {count : ℕ} (hcount : count ≤ n) (t : Bytes) :
    decodeTrailers H t count ≠ none := by
  unfold decodeTrailers
  split
  · rename_i headers hparse
    exact trailerFields_ne_none hH headers .empty (by simpa [HeaderMap.empty] using (hH.slots hparse).trans hcount)
  · simp
  · simp

end Holds

namespace Chunked

/-- In this state there is a buffer for the trailer section, no length is left over from the last
chunk, and the limits for trailers are kept. -/
structure Bounded (c : Chunked) : Prop where
  buffered : c.state = .trailer ∨ c.state = .trailerLf → c.trailersBuf ≠ none
  start : c.state = .start → c.chunkLen = 0
  count : c.trailersCnt ≤ c.maxHeadersCnt
  bytes : ∀ t ∈ c.trailersBuf, t.length ≤ max c.maxHeadersBytes 2

/-- What does not depend on the state tag. The first byte of the trailer section is not held against the limit, so one
byte may be there whatever the limit is. -/
structure Counts (heads size : Option ℕ) (c : Chunked) : Prop where
  extensions : c.extensionsCnt < chunkedExtensionsLimit
  count : c.trailersCnt ≤ c.maxHeadersCnt
  bytes : ∀ t ∈ c.trailersBuf, t.length < max c.maxHeadersBytes 2
  headers : c.h1MaxHeaders = heads
  headerSize : c.h1MaxHeaderSize = size

def Drained (s : ChunkedState) : Prop := s = .start ∨ s = .bodyCr ∨ s = .bodyLf

/-- The decoder can go on. -/
structure Inv (heads size : Option ℕ) (c : Chunked) : Prop where
  counts : c.Counts heads size
  wf : c.Wf
  drained : Drained c.state → c.chunkLen = 0

/-- The state that a failed call leaves. -/
structure Failed (heads size : Option ℕ) (c : Chunked) : Prop where
  bounded : c.Bounded
  extensions : c.extensionsCnt ≤ chunkedExtensionsLimit
  headers : c.h1MaxHeaders = heads
  headerSize : c.h1MaxHeaderSize = size

def Next.Inv (heads size : Option ℕ) : Next → Prop
  | (.to st, c) => Chunked.Inv heads size { c with state := st }
  | (.fail _, c) => c.Failed heads size
  | (.panic, _) => False

variable {heads size : Option ℕ} {c : Chunked}

theorem new_inv (heads size : Option ℕ) : (Chunked.new heads size).Inv heads size where
  counts := ⟨Nat.zero_lt_succ _, Nat.zero_le _, nofun, rfl, rfl⟩
  wf := ⟨nofun, nofun⟩
  drained _ := rfl

theorem Inv.bounded (h : c.Inv heads size) : c.Bounded where
  buffered := h.wf.trailer
  start hs := h.drained (.inl hs)
  count := h.counts.count
  bytes t ht := (h.counts.bytes t ht).le

theorem Inv.count_le (h : c.Inv heads size) : c.trailersCnt ≤ heads.getD defaultMaxHeaders := by
  have hcount := h.counts.count
  unfold maxHeadersCnt at hcount
  rwa [h.counts.headers] at hcount

theorem Inv.failed (h : c.Inv heads size) : c.Failed heads size :=
  ⟨h.bounded, h.counts.extensions.le, h.counts.headers, h.counts.headerSize⟩

/-! ## A byte -/

theorem Counts.state (h : c.Counts heads size) (st : ChunkedState) :
    Counts heads size { c with state := st } :=
  { h with }

theorem Counts.go (h : c.Counts heads size) {st : ChunkedState} (hf : free st = true)
    (hd : ¬ Drained st) : (c.go st).Inv heads size :=
  ⟨h.state st, c.go_ok hf, fun h => absurd h hd⟩

section

variable (h : c.Inv heads size)

include h

theorem pushDigit_inv (d : ℕ) : (c.pushDigit d).Inv heads size := by
  have hc := h.counts
  unfold pushDigit
  cases hm : checkedMul c.chunkLen 16 with
  | none => exact h.failed
  | some m =>
    simp only
    cases checkedAdd m d with
    | none =>
      refine ⟨⟨h.bounded.buffered, fun hs => ?_, hc.count, fun t ht => (hc.bytes t ht).le⟩, hc.extensions.le,
        hc.headers, hc.headerSize⟩
      -- the first digit cannot overflow
      rw [h.bounded.start hs] at hm
      cases hm
      rfl
    | some n =>
      have hc' : Counts heads size { c with chunkLen := n } :=
        { hc with }
      exact hc'.go rfl (by simp [Drained])

theorem putU8_inv {buf : Bytes} (hbuf : c.trailersBuf = some buf) (b : UInt8)
    {st : ChunkedState} (hb : st ≠ .body) (hd : ¬ Drained st) :
    (c.putU8 buf b st).Inv heads size := by
  have hc := h.counts
  have hlen := hc.bytes buf hbuf
  unfold putU8
  simp only
  split_ifs with hover
  · refine ⟨⟨fun _ => by simp, h.bounded.start, hc.count, fun t ht => ?_⟩, hc.extensions.le, hc.headers, hc.headerSize⟩
    cases ht
    rw [List.length_append, List.length_singleton]
    exact hlen
  · refine ⟨⟨hc.extensions, hc.count, fun t ht => ?_, hc.headers, hc.headerSize⟩,
      ⟨fun h => absurd h hb, fun _ => by simp⟩, fun h => absurd h hd⟩
    cases ht
    rw [List.length_append, List.length_singleton]
    exact lt_max_of_lt_left (lt_of_not_ge hover)

/-- **A byte keeps the invariant**, and the decoder does not panic on it. -/
theorem onByte_inv (hb : c.state ≠ .body) (he : c.state ≠ .ended) (b : UInt8) :
    (c.onByte b).Inv heads size := by
  have hc := h.counts
  unfold onByte
  split
  · unfold readStart
    split
    · exact pushDigit_inv h _
    · exact h.failed
  · unfold readSize
    split
    · exact pushDigit_inv h _
    · split_ifs <;> first | exact h.failed | exact hc.go rfl (by simp [Drained])
  · unfold readSizeLws
    split_ifs <;> first | exact h.failed | exact hc.go rfl (by simp [Drained])
  · unfold readExtension
    simp only
    split_ifs with hcr hlf hlim
    · exact hc.go rfl (by simp [Drained])
    · exact h.failed
    · exact { hc with bounded := ⟨h.bounded.buffered, h.bounded.start, hc.count, h.bounded.bytes⟩ }
    · have hc' : Counts heads size { c with extensionsCnt := c.extensionsCnt + 1 } :=
        { hc with extensions := lt_of_not_ge hlim }
      exact hc'.go rfl (by simp [Drained])
  · unfold readSizeLf
    split_ifs with hlf h0
    · exact hc.go rfl (by simp [Drained])
    · exact ⟨hc.state _, ⟨fun _ => pos_of_ne_zero h0, by simp⟩, by simp [Drained]⟩
    · exact h.failed
  · rename_i hs
    unfold readBodyCr
    split_ifs
    · exact ⟨hc.state _, c.go_ok rfl, fun _ => h.drained (.inr (.inl hs))⟩
    · exact h.failed
  · rename_i hs
    unfold readBodyLf
    split_ifs
    · exact ⟨hc.state _, c.go_ok rfl, fun _ => h.drained (.inr (.inr hs))⟩
    · exact h.failed
  · rename_i hs
    unfold readTrailer
    split
    · exact absurd ‹_› (h.wf.trailer (.inl hs))
    · exact putU8_inv h ‹_› b (by split <;> simp) (by split <;> simp [Drained])
  · rename_i hs
    unfold readTrailerLf
    split
    · split
      · exact h.failed
      · rename_i hcnt
        -- another line, which the limit allows
        have h' : Chunked.Inv heads size { c with trailersCnt := c.trailersCnt + 1 } :=
          ⟨⟨hc.extensions, lt_of_not_ge hcnt, hc.bytes, hc.headers, hc.headerSize⟩, ⟨h.wf.body, h.wf.trailer⟩,
            h.drained⟩
        simp only
        split
        · exact absurd ‹_› (h.wf.trailer (.inr hs))
        · exact putU8_inv h' ‹_› b (by simp) (by simp [Drained])
    · exact h.failed
  · unfold readEndCr
    simp only
    split
    · exact putU8_inv h ‹_› b (by split <;> simp) (by split <;> simp [Drained])
    · split_ifs
      · exact hc.go rfl (by simp [Drained])
      · refine ⟨⟨hc.extensions, hc.count, fun t ht => ?_, hc.headers, hc.headerSize⟩, ⟨by simp, by simp⟩,
          by simp [Drained]⟩
        cases ht
        exact lt_max_of_lt_right (lt_add_one 1)
  · unfold readEndLf
    split
    · split
      · exact putU8_inv h ‹_› b (by simp) (by simp [Drained])
      · exact hc.go rfl (by simp [Drained])
    · exact h.failed
  · exact absurd ‹_› hb
  · exact absurd ‹_› he

theorem eat_inv (k : ℕ) : (c.eat k).Inv heads size := by
  have hc := h.counts
  refine ⟨⟨hc.extensions, hc.count, hc.bytes, hc.headers, hc.headerSize⟩, c.eat_ok k, fun hd => ?_⟩
  by_contra hne
  have hpos : 0 < c.chunkLen - k := pos_of_ne_zero hne
  revert hd
  simp [eat, hpos, Drained]

end

/-- **A decoder with room for its trailers does not panic**, whatever bytes it reads. -/
theorem Inv.meaning_ne_panicked {H : Httparse} (hH : H.Holds (heads.getD defaultMaxHeaders)) (s : Bytes) :
    ∀ {c : Chunked}, c.Inv heads size → (c.meaning H s).outcome ≠ .panicked := by
  induction s with
  | nil => intro c _; unfold meaning; split <;> simp
  | cons b s ih =>
    intro c h
    unfold meaning
    by_cases he : c.state = .ended
    · rw [if_pos he]; simp
    by_cases hb : c.state = .body
    · rw [if_neg he, if_pos hb]; exact ih (eat_inv h 1)
    · rw [if_neg he, if_neg hb]
      have hok := onByte_inv h hb he b
      rcases ho : c.onByte b with ⟨st | e | _, c'⟩
      · rw [ho] at hok
        simp only
        split
        · unfold finish
          split
          · simp
          · rename_i t _
            split
            · simp
            · simp
            · exact absurd ‹_› (decodeTrailers_ne_none hH (Inv.count_le hok) t)
        · exact ih hok
      · simp
      · rw [ho] at hok; exact hok.elim

end Chunked

theorem Decoder.meaning_ne_panicked {H : Httparse} {heads : Option ℕ}
    (hH : H.Holds (heads.getD defaultMaxHeaders)) (len : DecodedLength) (size : Option ℕ) (s : Bytes) :
    ((Decoder.new len heads size).meaning H s).outcome ≠ .panicked := by
  cases len with
  | chunked => exact (Chunked.new_inv heads size).meaning_ne_panicked hH s
  | closeDelimited => simp [Decoder.new, meaning]
  | exact n => simp only [Decoder.new, meaning]; split <;> simp

/-! ## A round of the loop -/

section Round

variable {ρ : Type} [MemRead ρ] {H : Httparse} {heads size : Option ℕ} {c : Chunked}

/-- How a call ends: it does not panic if there is room, keeps the limits, and can be repeated unless it failed. -/
structure CallEnds (H : Httparse) (heads size : Option ℕ)
    (x : Poll (Except IoError Frame) × Chunked × ρ) : Prop where
  answers : H.Holds (heads.getD defaultMaxHeaders) → x.1 ≠ .panicked
  failed : x.2.1.Failed heads size
  goesOn : (∀ e, x.1 ≠ .ready (.error e)) → x.2.1.Inv heads size

omit [MemRead ρ] in
theorem Chunked.Inv.ends (h : c.Inv heads size) {p : Poll (Except IoError Frame)} (hp : p ≠ .panicked)
    (r : ρ) : CallEnds H heads size (p, c, r) :=
  ⟨fun _ => hp, h.failed, fun _ => h⟩

omit [MemRead ρ] in
theorem Chunked.Failed.ends (h : c.Failed heads size) (e : IoError) (r : ρ) :
    CallEnds H heads size (.ready (.error e), c, r) :=
  ⟨by simp, h, fun hn => absurd rfl (hn e)⟩

theorem Chunked.Inv.taken (h : c.Inv heads size) (he : c.state = .ended) :
    Chunked.Inv heads size { c with trailersBuf := none } where
  counts := ⟨h.counts.extensions, h.counts.count, nofun, h.counts.headers, h.counts.headerSize⟩
  wf := Decoder.wf_of_isEof (d := .chunked { c with trailersBuf := none }) (by simp [Decoder.isEof, he])
  drained := h.drained

def StepOk (heads size : Option ℕ)
    (x : Poll (Except IoError (ChunkedState × Option Bytes)) × Chunked × ρ) : Prop :=
  match x with
  | (.ready (.ok (s, _)), c, _) => Chunked.Inv heads size { c with state := s }
  | (.ready (.error _), c, _) => c.Failed heads size
  | (.pending, c, _) | (.busy, c, _) => c.Inv heads size
  | (.panicked, _, _) => False

theorem step_inv (hρ : Measured ρ) (h : c.Inv heads size) (r : ρ) : StepOk heads size (c.step r) := by
  by_cases hb : c.state = .body
  · simp only [Chunked.step, hb, Chunked.readBody]
    rcases hr : MemRead.readMem r (min c.chunkLen usizeMax) with ⟨(e | slice) | _ | _ | _, r'⟩
    · exact h.failed
    · simp only [within, whenOk_ok]
      by_cases hs : slice = []
      · have hc := h.counts
        rw [if_pos hs]
        exact ⟨⟨h.bounded.buffered, fun _ => rfl, hc.count, h.bounded.bytes⟩, hc.extensions.le, hc.headers,
          hc.headerSize⟩
      · rw [if_neg hs]
        exact Chunked.eat_inv h slice.length
    · exact h
    · exact h
    · exact absurd (congrArg Prod.fst hr) (hρ.answers r _)
  by_cases he : c.state = .ended
  · simp only [Chunked.step, he]
    have hc : { c with state := ChunkedState.ended } = c := by rw [← he]
    show Chunked.Inv heads size { c with state := ChunkedState.ended }
    rw [hc]
    exact h
  · simp only [Chunked.step_withByte hb he, Chunked.withByte]
    rcases hr : MemRead.readMem r 1 with ⟨(e | _ | ⟨b, _⟩) | _ | _ | _, r'⟩
    · exact h.failed
    · exact h.failed
    · have hok := Chunked.onByte_inv h hb he b
      simp only [within, whenOk_ok]
      rcases ho : c.onByte b with ⟨st | e | _, c'⟩ <;> rw [ho] at hok <;> exact hok
    · exact h
    · exact h
    · exact absurd (congrArg Prod.fst hr) (hρ.answers r _)

theorem chunkedRound_inv (hρ : Measured ρ) (h : c.Inv heads size) (r : ρ) :
    (Decoder.chunkedRound H (c, r)).Sat (fun y => y.1.Inv heads size)
      (CallEnds H heads size) := by
  have hok := step_inv hρ h r
  unfold Decoder.chunkedRound
  rcases hs : c.step r with ⟨(e | ⟨s, buf⟩) | _ | _ | _, c', r'⟩ <;> rw [hs] at hok
  · exact hok.ends e r'
  · have hok : Chunked.Inv heads size { c' with state := s } := hok
    simp only [Ctl.whenOk, Ctl.whenReady]
    split_ifs with he
    · split
      · rename_i t _
        have h' := hok.taken he
        split
        · exact h'.ends (by simp) r'
        · rename_i hd
          exact ⟨fun hH => absurd hd (decodeTrailers_ne_none hH hok.count_le t), h'.failed, fun _ => h'⟩
      · exact hok.ends (by simp) r'
    · cases buf with
      | some b => exact hok.ends (by simp) r'
      | none => exact hok
  · exact hok.ends (by simp) r'
  · exact hok.ends (by simp) r'
  · exact hok.elim

end Round

/-! ## Whole runs -/

/-- The states of a decoder between two rounds of its loop: it is new, or it went through a round on some reader
without an error. Behind an error it is not called again. -/
inductive Reachable (ρ : Type) [MemRead ρ] (H : Httparse) (heads size : Option ℕ) : Chunked → Prop
  | new : Reachable ρ H heads size (.new heads size)
  | again {c c' : Chunked} {r r' : ρ} : Reachable ρ H heads size c →
      Decoder.chunkedRound H (c, r) = .again (c', r') → Reachable ρ H heads size c'
  | left {c c' : Chunked} {r r' : ρ} {p : Poll (Except IoError Frame)} :
      Reachable ρ H heads size c → Decoder.chunkedRound H (c, r) = .ret (p, c', r') →
      (∀ e, p ≠ .ready (.error e)) → Reachable ρ H heads size c'

section Run

variable {ρ : Type} [MemRead ρ] {H : Httparse} {heads size : Option ℕ} {c : Chunked}

theorem Reachable.inv (hρ : Measured ρ) (h : Reachable ρ H heads size c) : c.Inv heads size := by
  induction h with
  | new => exact Chunked.new_inv _ _
  | @again c c' r r' _ hround ih =>
    have h := chunkedRound_inv (H := H) hρ ih r
    rw [hround] at h
    exact h
  | @left c c' r r' p _ hround hne ih =>
    have h := chunkedRound_inv (H := H) hρ ih r
    rw [hround] at h
    exact h.goesOn hne

def chunkedCall (H : Httparse) (fuel : ℕ) (c : Chunked) (r : ρ) : Poll (Except IoError Frame) × Chunked × ρ :=
  loop (Decoder.chunkedRound H) fuel (c, r)

theorem decode_chunked (fuel : ℕ) (r : ρ) : Decoder.decode H fuel (.chunked c) r =
    ((chunkedCall H fuel c r).1, .chunked (chunkedCall H fuel c r).2.1, (chunkedCall H fuel c r).2.2) := rfl

theorem Reachable.call (h : Reachable ρ H heads size c) (fuel : ℕ) (r : ρ)
    (hne : ∀ e, (chunkedCall H fuel c r).1 ≠ .ready (.error e)) :
    Reachable ρ H heads size (chunkedCall H fuel c r).2.1 := by
  revert hne
  refine loop_inv (I := fun y : Chunked × ρ => Reachable ρ H heads size y.1)
    (Q := fun x : Poll (Except IoError Frame) × Chunked × ρ => (∀ e, x.1 ≠ .ready (.error e)) →
      Reachable ρ H heads size x.2.1)
    (fun y hy => ?_) (fun y hy _ => hy) fuel (c, r) h
  cases hr : Decoder.chunkedRound H y with
  | again z => exact hy.again hr
  | ret x => exact hy.left hr

theorem chunkedCall_ends (hρ : Measured ρ) (h : c.Inv heads size) (fuel : ℕ) (r : ρ) :
    CallEnds H heads size (chunkedCall H fuel c r) :=
  loop_inv (I := fun y : Chunked × ρ => y.1.Inv heads size)
    (Q := CallEnds H heads size) (fun y hy => chunkedRound_inv hρ hy y.2)
    (fun y hy => hy.ends (by simp) y.2) fuel (c, r) h

end Run

namespace Conn

variable {β : Type} [LawfulBuf β] {H : Httparse} {c c' : Conn β} {fuel i : ℕ} {e : IoError}

theorem afterFrame_error {d : Decoder} {res : Except IoError Frame} {r : Option Reading} {unexpected : Bool}
    (h : afterFrame d res = (r, some (.error e), unexpected)) : r = some .closed := by
  rcases res with e' | b | t
  · cases h
    rfl
  · unfold afterFrame at h
    simp only at h
    split_ifs at h <;> simp at h
  · cases h

theorem pollReadBodyFrom_error {d : Decoder} (h : c.pollReadBodyFrom H fuel i d = (.ready (some (.error e)), c')) :
    c'.state.reading = .closed := by
  unfold pollReadBodyFrom at h
  rcases hd : c.decodeBody H fuel i d with ⟨res | _ | _ | _, x, d'⟩ <;> rw [hd] at h
  · simp only at h
    rcases ha : afterFrame d' res with ⟨_ | r, out, unexpected⟩ <;> rw [ha] at h
    · cases h
      cases afterFrame_error ha
    · cases h
      cases afterFrame_error ha
      exact closed_tryKeepAlive rfl
  · cases h
  · cases h
  · cases h

theorem pollReadBody_error (h : c.pollReadBody H fuel i = (.ready (some (.error e)), c')) :
    c'.state.reading = .closed := by
  unfold pollReadBody at h
  split at h
  · exact pollReadBodyFrom_error h
  · exact pollReadBodyFrom_error h
  · cases h

end Conn

/-- **The chunked decoder keeps its limits, and does not panic while a header map has room for as many trailers as it
admits.** Whatever limits it was made with and whatever its readers hand over, in each state that it can be in:

* there is a buffer inside a trailer line, no chunk length at the start of a chunk, the number of trailers is within
  the limit and their bytes are within the limit, or 2;
* the bytes of extensions are below their limit;
* a read inside a chunk hands over no more than what is left of it;
* a call leaves such a state, or fails within the limits, and does not panic if there is that room.

Behind a failed call the connection does not call it again. -/
theorem chunked_bounded (β : Type) [LawfulBuf β] (H : Httparse) (h1MaxHeaders h1MaxHeaderSize : Option ℕ) :
    (∀ c, Reachable (Buffered β) H h1MaxHeaders h1MaxHeaderSize c →
      c.Bounded ∧ c.h1MaxHeaders = h1MaxHeaders ∧ c.h1MaxHeaderSize = h1MaxHeaderSize ∧
      c.extensionsCnt < chunkedExtensionsLimit ∧
      (∀ (io io' : Buffered β) slice, MemRead.readMem io (min c.chunkLen usizeMax) = (.ready (.ok slice), io') →
        slice.length ≤ c.chunkLen) ∧
      ∀ (fuel : ℕ) (io : Buffered β), ∃ p c' io', Decoder.decode H fuel (.chunked c) io = (p, .chunked c', io') ∧
        (H.Holds (h1MaxHeaders.getD defaultMaxHeaders) → p ≠ .panicked) ∧ c'.Bounded ∧
        ((∀ e, p ≠ .ready (.error e)) → Reachable (Buffered β) H h1MaxHeaders h1MaxHeaderSize c')) ∧
    ∀ (c c' : Conn β) (fuel i : ℕ) (e : IoError),
      c.pollReadBody H fuel i = (.ready (some (.error e)), c') → c'.state.reading = .closed := by
  refine ⟨fun c h => ?_, fun c c' fuel i e => Conn.pollReadBody_error⟩
  have hinv := h.inv Buffered.measured
  refine ⟨hinv.bounded, hinv.counts.headers, hinv.counts.headerSize, hinv.counts.extensions, fun io io' slice hr => ?_,
    fun fuel io => ?_⟩
  · exact (Buffered.measured.length_le hr).trans (min_le_left _ _)
  · have hends := chunkedCall_ends (H := H) Buffered.measured hinv fuel io
    exact ⟨_, _, _, decode_chunked fuel io, hends.answers, hends.failed.bounded, h.call fuel io⟩

end Netty
