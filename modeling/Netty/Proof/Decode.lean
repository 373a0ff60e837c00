import Netty.Spec.Decode

/-!
# The body decoder reads a byte string

A decoder that is called again and again reads the body off the front of what its
reader will hand over. What it makes of a byte string is a function of the string:

* `Decoder.meaning`: data, trailers, outcome and number of bytes used, found by
  going through the string byte by byte.
* `Serves`: what a reader guarantees. It hands over a byte string in pieces of any
  size, with any finite number of refusals between them.
* `decode_meaning`: one call hands out the front of the meaning and leaves the rest
  of it to later calls.
* `drain_meaning`: calling until the end gives the meaning, for every reader.
* `meaning_take`: an ended body was read to its last byte and not beyond.
-/

namespace Netty

open List

/-! ## Reading a body to its end -/

inductive Outcome where
  | ended
  | failed (e : IoError)
  | panicked
  deriving DecidableEq, Repr

/-- What was made of a byte string: the data, the trailers, how it ended and how
many bytes were used up to there. -/
structure Decoded where
  data : Bytes
  trailers : Option HeaderMap
  outcome : Outcome
  used : ℕ
  deriving DecidableEq

/-- With `data` and `used` bytes found before. -/
def Decoded.after (data : Bytes) (used : ℕ) (v : Decoded) : Decoded :=
  { v with data := data ++ v.data, used := used + v.used }

@[simp] theorem Decoded.after_nil_zero (v : Decoded) : v.after [] 0 = v := by
  simp [Decoded.after]

@[simp] theorem Decoded.after_after (v : Decoded) (d d' : Bytes) (k k' : ℕ) :
    (v.after d k).after d' k' = v.after (d' ++ d) (k' + k) := by
  simp [Decoded.after, Nat.add_assoc]

/-- A body being read: what was handed out so far, the decoder and its reader. -/
structure BodyRead (ρ : Type) where
  data : Bytes
  trailers : Option HeaderMap
  decoder : Decoder
  rdr : ρ

variable {ρ : Type} [MemRead ρ]

/-- One more call of the decoder, unless the body has ended. A call that could not
go on is repeated. -/
def drainRound (hp : Httparse) (fuel : ℕ) (x : BodyRead ρ) : Ctl Outcome (BodyRead ρ) :=
  if x.decoder.isEof then .ret (.ready .ended, x)
  else
    match x.decoder.decode hp fuel x.rdr with
    | (.ready (.ok (.data b)), d, r) => .again ⟨x.data ++ b, x.trailers, d, r⟩
    | (.ready (.ok (.trailers t)), d, r) => .again ⟨x.data, some t, d, r⟩
    | (.ready (.error e), d, r) => .ret (.ready (.failed e), ⟨x.data, x.trailers, d, r⟩)
    | (.pending, d, r) => .again ⟨x.data, x.trailers, d, r⟩
    | (.busy, d, r) => .ret (.busy, ⟨x.data, x.trailers, d, r⟩)
    | (.panicked, d, r) => .ret (.ready .panicked, ⟨x.data, x.trailers, d, r⟩)

/-- Call the decoder until the body has ended or failed. -/
def drain (hp : Httparse) (fuel : ℕ) (d : Decoder) (rdr : ρ) : Poll Outcome × BodyRead ρ :=
  loop (drainRound hp fuel) fuel ⟨[], none, d, rdr⟩

/-! ## The meaning of a byte string -/

namespace Chunked

/-- After `k` bytes of a chunk's data. -/
def eat (c : Chunked) (k : ℕ) : Chunked :=
  { c with chunkLen := c.chunkLen - k, state := if 0 < c.chunkLen - k then .body else .bodyCr }

/-- The end of the body, when the last byte of it has been read. -/
def finish (hp : Httparse) (c : Chunked) : Decoded :=
  match c.trailersBuf with
  | none => ⟨[], none, .ended, 1⟩
  | some t =>
    match decodeTrailers hp t c.trailersCnt with
    | some (.ok m) => ⟨[], some m, .ended, 1⟩
    | some (.error e) => ⟨[], none, .failed e, 1⟩
    | none => ⟨[], none, .panicked, 1⟩

def meaning (hp : Httparse) : Chunked → Bytes → Decoded
  | c, [] =>
    match c.state with
    | .ended => ⟨[], none, .ended, 0⟩
    | .body => ⟨[], none, .failed incompleteBody, 0⟩
    | _ => ⟨[], none, .failed eofInSizeLine, 0⟩
  | c, b :: bs =>
    if c.state = .ended then ⟨[], none, .ended, 0⟩
    else if c.state = .body then (meaning hp (c.eat 1) bs).after [b] 1
    else
      match c.onByte b with
      | (.to s, c') =>
        if s = .ended then finish hp c' else (meaning hp { c' with state := s } bs).after [] 1
      | (.fail e, _) => ⟨[], none, .failed e, 1⟩
      | (.panic, _) => ⟨[], none, .panicked, 1⟩

end Chunked

def Decoder.meaning (hp : Httparse) (d : Decoder) (s : Bytes) : Decoded :=
  match d with
  | .length n =>
    if n ≤ s.length then ⟨s.take n, none, .ended, n⟩
    else ⟨s, none, .failed incompleteBody, s.length⟩
  | .chunked c => c.meaning hp s
  | .eof seen => if seen then ⟨[], none, .ended, 0⟩ else ⟨s, none, .ended, s.length⟩

variable {d : Decoder}

theorem Decoder.meaning_of_isEof (hp : Httparse) (s : Bytes) (h : d.isEof = true) :
    d.meaning hp s = ⟨[], none, .ended, 0⟩ := by
  cases d with
  | length n =>
    simp only [isEof, decide_eq_true_eq] at h
    simp [meaning, h]
  | chunked c =>
    simp only [isEof, decide_eq_true_eq] at h
    cases s <;> simp [meaning, Chunked.meaning, h]
  | eof seen =>
    simp only [isEof] at h
    simp [meaning, h]

/-! ## Readers -/

/-- `H r n s`: the reader `r` will hand over `s` and then the end, and will refuse
at most `n` times before. -/
structure Serves (H : ρ → ℕ → Bytes → Prop) : Prop where
  read : ∀ r n s len, H r n s → 0 < len →
    (∃ r' n', MemRead.readMem r len = (.pending, r') ∧ n' < n ∧ H r' n' s) ∨
    (∃ x s' r' n', MemRead.readMem r len = (.ready (.ok x), r') ∧ s = x ++ s' ∧ x.length ≤ len ∧
      (x = [] → s = []) ∧ n' ≤ n ∧ H r' n' s')

/-! ## One call -/

/-- Inside a chunk there is a byte left to read, and inside a trailer line there is a
buffer for it. -/
structure Chunked.Wf (c : Chunked) : Prop where
  body : c.state = .body → 0 < c.chunkLen
  trailer : c.state = .trailer ∨ c.state = .trailerLf → c.trailersBuf ≠ none

def Decoder.Wf : Decoder → Prop
  | .chunked c => c.Wf
  | _ => True

theorem Decoder.wf_of_isEof (h : d.isEof = true) : d.Wf := by
  cases d with
  | chunked c =>
    simp only [isEof, decide_eq_true_eq] at h
    exact ⟨by simp [h], by simp [h]⟩
  | length n => trivial
  | eof seen => trivial

def Chunked.Next.Ok : Next → Prop
  | (.to st, c) => Wf { c with state := st }
  | (.fail _, _) => True
  | (.panic, _) => False

namespace Chunked

/-- The states that ask nothing of the rest of the decoder. -/
def free : ChunkedState → Bool
  | .body | .trailer | .trailerLf => false
  | _ => true

theorem go_ok (c : Chunked) {st : ChunkedState} (h : free st = true) : (c.go st).Ok := by
  refine ⟨?_, ?_⟩
  · rintro rfl
    cases h
  · rintro (rfl | rfl) <;> cases h

theorem pushDigit_ok (c : Chunked) (d : ℕ) : (c.pushDigit d).Ok := by
  unfold pushDigit
  split
  · trivial
  · split
    · trivial
    · exact go_ok _ rfl

theorem putU8_ok (c : Chunked) (buf : Bytes) (b : UInt8) {st : ChunkedState} (h : st ≠ .body) :
    (c.putU8 buf b st).Ok := by
  unfold putU8
  split
  · trivial
  · exact ⟨fun h' => absurd h' h, fun _ => by simp⟩

/-- **A byte keeps the state well formed**, and the decoder does not panic on it. -/
theorem onByte_ok {c : Chunked} (hw : c.Wf) (hb : c.state ≠ .body) (he : c.state ≠ .ended) (b : UInt8) :
    (c.onByte b).Ok := by
  unfold onByte
  split
  · unfold readStart
    split
    · exact pushDigit_ok c _
    · trivial
  · unfold readSize
    split
    · exact pushDigit_ok c _
    · split_ifs <;> first | trivial | exact go_ok _ rfl
  · unfold readSizeLws
    split_ifs <;> first | trivial | exact go_ok _ rfl
  · unfold readExtension
    simp only
    split_ifs <;> first | trivial | exact go_ok _ rfl
  · unfold readSizeLf
    split_ifs with hb h0
    · exact go_ok _ rfl
    · exact ⟨fun _ => Nat.pos_of_ne_zero h0, by simp⟩
    · trivial
  · unfold readBodyCr
    split_ifs <;> first | trivial | exact go_ok _ rfl
  · unfold readBodyLf
    split_ifs <;> first | trivial | exact go_ok _ rfl
  · rename_i hs
    unfold readTrailer
    split
    · exact absurd ‹_› (hw.trailer (.inl hs))
    · exact putU8_ok _ _ _ (by split <;> simp)
  · rename_i hs
    unfold readTrailerLf
    split
    · split
      · trivial
      · simp only
        split
        · exact absurd ‹_› (hw.trailer (.inr hs))
        · exact putU8_ok _ _ _ (by simp)
    · trivial
  · unfold readEndCr
    simp only
    split
    · exact putU8_ok _ _ _ (by split <;> simp)
    · split_ifs
      · exact go_ok _ rfl
      · exact ⟨by simp, by simp⟩
  · unfold readEndLf
    split
    · split
      · exact putU8_ok _ _ _ (by simp)
      · exact go_ok _ rfl
    · trivial
  · exact absurd ‹_› hb
  · exact absurd ‹_› he

theorem eat_ok (c : Chunked) (k : ℕ) : (c.eat k).Wf := by
  unfold eat
  refine ⟨fun h => ?_, fun h => ?_⟩
  · by_contra hz
    simp only at h hz
    rw [if_neg hz] at h; cases h
  · simp only at h
    split at h <;> simp at h

end Chunked

section OnByte

variable (hp : Httparse) {c c' : Chunked} {b : UInt8} (s : Bytes)

theorem Chunked.meaning_cons (hb : c.state ≠ .body) (he : c.state ≠ .ended) :
    c.meaning hp (b :: s) =
      match c.onByte b with
      | (.to st, c') =>
        if st = .ended then finish hp c' else (meaning hp { c' with state := st } s).after [] 1
      | (.fail e, _) => ⟨[], none, .failed e, 1⟩
      | (.panic, _) => ⟨[], none, .panicked, 1⟩ := by
  rw [meaning, if_neg he, if_neg hb]

theorem Chunked.meaning_to {st : ChunkedState} (h : c.onByte b = (.to st, c')) (hb : c.state ≠ .body)
    (he : c.state ≠ .ended) (hst : st ≠ .ended) :
    c.meaning hp (b :: s) = (meaning hp { c' with state := st } s).after [] 1 := by
  rw [meaning_cons hp s hb he, h]
  exact if_neg hst

theorem Chunked.meaning_end (h : c.onByte b = (.to .ended, c')) (hb : c.state ≠ .body)
    (he : c.state ≠ .ended) : c.meaning hp (b :: s) = finish hp c' := by
  rw [meaning_cons hp s hb he, h]
  exact if_pos rfl

end OnByte

theorem Chunked.meaning_body (hp : Httparse) (x s : Bytes) :
    ∀ c : Chunked, c.state = .body → x ≠ [] → x.length ≤ c.chunkLen →
      c.meaning hp (x ++ s) = ((c.eat x.length).meaning hp s).after x x.length := by
  induction x with
  | nil => intro c _ hx; exact absurd rfl hx
  | cons b x ih =>
    intro c hs _ hlen
    have hne : c.state ≠ .ended := by rw [hs]; simp
    rw [cons_append, meaning, if_neg hne, if_pos hs]
    rw [length_cons] at hlen
    by_cases hx : x = []
    · subst hx; simp
    · have hpos : 0 < x.length := length_pos_iff.2 hx
      have he : (c.eat 1).state = .body := by unfold eat; simp only; rw [if_pos (by omega)]
      have hsub : (c.eat 1).eat x.length = c.eat (x.length + 1) := by
        unfold eat; simp only [Nat.sub_sub, Nat.add_comm 1]
      rw [ih (c.eat 1) he hx (by show x.length ≤ c.chunkLen - 1; omega), hsub]
      simp [Nat.add_comm 1]

variable {H : ρ → ℕ → Bytes → Prop}

/-- What a call may do to a reader that serves `s`, for a decoder that makes `v` of
it: it uses some front `pre` of `s` and hands out the front of `v` that belongs to it. -/
def CallOk (hp : Httparse) (H : ρ → ℕ → Bytes → Prop) (n : ℕ) (s : Bytes) (v : Decoded)
    (x : Poll (Except IoError Frame) × Decoder × ρ) : Prop :=
  ∃ pre s' n', s = pre ++ s' ∧ n' ≤ n ∧ H x.2.2 n' s' ∧
    match x.1 with
    | .pending => n' < n ∧ x.2.1.Wf ∧ v = (x.2.1.meaning hp s').after [] pre.length
    | .ready (.ok (.data b)) =>
      (pre ≠ [] ∨ x.2.1.isEof = true) ∧ x.2.1.Wf ∧ v = (x.2.1.meaning hp s').after b pre.length
    | .ready (.ok (.trailers t)) =>
      pre ≠ [] ∧ x.2.1.isEof = true ∧ v = ⟨[], some t, .ended, pre.length⟩
    | .ready (.error e) => v = ⟨[], none, .failed e, pre.length⟩
    | .panicked => v = ⟨[], none, .panicked, pre.length⟩
    | .busy => False

variable {s : Bytes} {n : ℕ}

omit [MemRead ρ] in
theorem CallOk.shift {hp : Httparse} {n' : ℕ} {pre : Bytes} {v w : Decoded}
    {x : Poll (Except IoError Frame) × Decoder × ρ} (h : CallOk hp H n' s w x) (hn : n' ≤ n)
    (hv : v = w.after [] pre.length) : CallOk hp H n (pre ++ s) v x := by
  obtain ⟨p, s', k, rfl, hk, hH, hx⟩ := h
  refine ⟨pre ++ p, s', k, (append_assoc _ _ _).symm, by omega, hH, ?_⟩
  subst hv
  obtain ⟨res, d, r⟩ := x
  cases res with
  | pending =>
    obtain ⟨h1, h2, h3⟩ := hx
    exact ⟨by omega, h2, by rw [h3]; simp⟩
  | busy => exact hx
  | panicked => rw [show w = _ from hx]; simp [Decoded.after]
  | ready f =>
    cases f with
    | error e => rw [show w = _ from hx]; simp [Decoded.after]
    | ok f =>
      cases f with
      | data b =>
        obtain ⟨h1, h2, h3⟩ := hx
        exact ⟨h1.imp (by intro h; simp [h]) id, h2, by rw [h3]; simp⟩
      | trailers t =>
        obtain ⟨h1, h2, h3⟩ := hx
        exact ⟨by simp [h1], h2, by rw [h3]; simp [Decoded.after]⟩

/-- How a round of the chunked loop may go on: after one byte that carried no data. -/
def RoundOn (hp : Httparse) (H : ρ → ℕ → Bytes → Prop) (n : ℕ) (s : Bytes) (v : Decoded)
    (y : Chunked × ρ) : Prop :=
  ∃ b s' n', s = b :: s' ∧ n' ≤ n ∧ H y.2 n' s' ∧ y.1.Wf ∧ y.1.state ≠ .ended ∧
    v = (y.1.meaning hp s').after [] 1

variable {r : ρ} {c : Chunked}

theorem readBody_meaning (hH : Serves H) (hp : Httparse) (hr : H r n s) (hw : c.Wf) (hb : c.state = .body) :
    (Decoder.chunkedRound hp (c, r)).Sat (RoundOn hp H n s (c.meaning hp s))
      (fun x => CallOk hp H n s (c.meaning hp s) (x.1, .chunked x.2.1, x.2.2)) := by
  have hlen : 0 < min c.chunkLen usizeMax := by
    have := hw.body hb; have : 0 < usizeMax := by decide
    omega
  simp only [Decoder.chunkedRound, Chunked.step, hb, Chunked.readBody]
  rcases hH.read r n s _ hr hlen with ⟨r', n', hrd, hn, hr'⟩ | ⟨x, s', r', n', hrd, rfl, hx, hnil, hn, hr'⟩
  · rw [hrd]
    exact ⟨[], s, n', rfl, by omega, hr', hn, hw, by simp [Decoder.meaning]⟩
  · rw [hrd]
    by_cases hx0 : x = []
    · subst hx0
      have hs' : s' = [] := by simpa using hnil rfl
      subst hs'
      exact ⟨[], [], n', rfl, hn, hr', by simp [Chunked.meaning, hb]⟩
    · have hst : (if 0 < c.chunkLen - x.length then ChunkedState.body else .bodyCr) ≠ .ended := by
        split <;> simp
      simp only [within, whenOk, whenReady, if_neg hx0, Ctl.whenOk, Ctl.whenReady, if_neg hst]
      exact ⟨x, s', n', rfl, hn, hr', .inl hx0, c.eat_ok x.length,
        Chunked.meaning_body hp x s' c hb hx0 (by omega)⟩

theorem Chunked.step_withByte (hb : c.state ≠ .body) (he : c.state ≠ .ended) : c.step r = c.withByte r := by
  unfold Chunked.step
  split
  · exact absurd ‹_› hb
  · exact absurd ‹_› he
  · rfl

theorem withByte_meaning (hH : Serves H) (hp : Httparse) (hr : H r n s) (hw : c.Wf) (hb : c.state ≠ .body)
    (hne : c.state ≠ .ended) :
    (Decoder.chunkedRound hp (c, r)).Sat (RoundOn hp H n s (c.meaning hp s))
      (fun x => CallOk hp H n s (c.meaning hp s) (x.1, .chunked x.2.1, x.2.2)) := by
  simp only [Decoder.chunkedRound, Chunked.step_withByte hb hne, Chunked.withByte]
  rcases hH.read r n s 1 hr Nat.one_pos with ⟨r', n', hrd, hn, hr'⟩ | ⟨x, s', r', n', hrd, rfl, hx, hnil, hn, hr'⟩
  · rw [hrd]
    exact ⟨[], s, n', rfl, by omega, hr', hn, hw, by simp [Decoder.meaning]⟩
  · rw [hrd]
    match x, hx, hnil with
    | [], _, hnil =>
      have hs' : s' = [] := by simpa using hnil rfl
      subst hs'
      have hm : c.meaning hp [] = ⟨[], none, .failed eofInSizeLine, 0⟩ := by
        unfold Chunked.meaning
        split
        · exact absurd ‹_› hne
        · exact absurd ‹_› hb
        · rfl
      exact ⟨[], [], n', rfl, hn, hr', hm⟩
    | [b], _, _ =>
      simp only [within, whenOk, whenReady, Ctl.whenOk, Ctl.whenReady]
      have hok := Chunked.onByte_ok hw hb hne b
      rcases ho : c.onByte b with ⟨st | e | _, c'⟩
      · rw [ho] at hok
        by_cases he : st = .ended
        · subst he
          have hm := Chunked.meaning_end hp s' ho hb hne
          simp only [Chunked.finish] at hm
          simp only [if_true, singleton_append, hm]
          cases ht : c'.trailersBuf with
          | none =>
            refine ⟨[b], s', n', rfl, hn, hr', .inr rfl, Decoder.wf_of_isEof rfl, ?_⟩
            rw [Decoder.meaning_of_isEof hp s' rfl]
            rfl
          | some t =>
            simp only
            rcases hd : decodeTrailers hp t c'.trailersCnt with _ | (e | m)
            · exact ⟨[b], s', n', rfl, hn, hr', rfl⟩
            · exact ⟨[b], s', n', rfl, hn, hr', rfl⟩
            · exact ⟨[b], s', n', rfl, hn, hr', by simp, rfl, rfl⟩
        · have hm := Chunked.meaning_to hp s' ho hb hne he
          simp only [if_neg he]
          exact ⟨b, s', n', rfl, hn, hr', hok, he, hm⟩
      · have hm := Chunked.meaning_cons (b := b) hp s' hb hne
        rw [ho] at hm
        exact ⟨[b], s', n', rfl, hn, hr', hm⟩
      · rw [ho] at hok; exact hok.elim
    | _ :: _ :: _, hx, _ => simp at hx

/-- **One call.** The decoder uses some of the bytes and hands out the front of the
meaning that belongs to them, given more rounds than there are bytes. -/
theorem decode_meaning (hH : Serves H) (hp : Httparse) {fuel : ℕ} (hr : H r n s) (hw : d.Wf) (he : d.isEof = false)
    (hf : s.length < fuel) : CallOk hp H n s (d.meaning hp s) (d.decode hp fuel r) := by
  cases d with
  | length remaining =>
    have h0 : remaining ≠ 0 := by simpa [Decoder.isEof] using he
    have hlen : 0 < min remaining usizeMax := by
      have : 0 < usizeMax := by decide
      omega
    simp only [Decoder.decode, if_neg h0]
    rcases hH.read r n s _ hr hlen with ⟨r', n', hrd, hn, hr'⟩ | ⟨x, s', r', n', hrd, rfl, hx, hnil, hn, hr'⟩
    · rw [hrd]
      exact ⟨[], s, n', rfl, by omega, hr', hn, trivial, (Decoded.after_nil_zero _).symm⟩
    · rw [hrd]
      have hle : ¬ remaining < x.length := by omega
      simp only [within, whenOk, whenReady, if_neg hle]
      by_cases hx0 : x.length = 0
      · rw [length_eq_zero_iff] at hx0
        subst hx0
        have hs' : s' = [] := by simpa using hnil rfl
        subst hs'
        exact ⟨[], [], n', rfl, hn, hr', by simp [Decoder.meaning, h0]⟩
      · rw [if_neg hx0]
        refine ⟨x, s', n', rfl, hn, hr', .inl (by simpa using hx0), trivial, ?_⟩
        simp only [Decoder.meaning, length_append]
        by_cases hr : remaining ≤ x.length + s'.length
        · rw [if_pos hr, if_pos (by omega), take_append, take_of_length_le (by omega)]
          simp only [Decoded.after, Decoded.mk.injEq, true_and]
          omega
        · rw [if_neg hr, if_neg (by omega)]
          rfl
  | chunked c =>
    have hne : c.state ≠ .ended := by simpa [Decoder.isEof] using he
    -- the invariant of the loop: bytes without data have been read so far
    refine loop_progress (I := fun m (y : Chunked × ρ) => ∃ pre s' n', s = pre ++ s' ∧ n' ≤ n ∧
        H y.2 n' s' ∧ y.1.Wf ∧ y.1.state ≠ .ended ∧ m = s'.length ∧
        c.meaning hp s = (y.1.meaning hp s').after [] pre.length)
      (Q := fun x => CallOk hp H n s (c.meaning hp s) (x.1, .chunked x.2.1, x.2.2)) ?_
      fuel s.length (c, r) ⟨[], s, n, rfl, le_refl _, hr, hw, hne, rfl, by simp⟩ hf
    rintro m ⟨c', r'⟩ ⟨pre, s', n', rfl, hn, hr', hw', hne', rfl, hm⟩
    have hround : (Decoder.chunkedRound hp (c', r')).Sat (RoundOn hp H n' s' (c'.meaning hp s'))
        (fun x => CallOk hp H n' s' (c'.meaning hp s') (x.1, .chunked x.2.1, x.2.2)) := by
      by_cases hb : c'.state = .body
      · exact readBody_meaning hH hp hr' hw' hb
      · exact withByte_meaning hH hp hr' hw' hb hne'
    cases hc : Decoder.chunkedRound hp (c', r') with
    | again y =>
      rw [hc] at hround
      obtain ⟨b, s'', k, rfl, hk, hH', hw'', hne'', hm'⟩ := hround
      refine ⟨s''.length, by simp, pre ++ [b], s'', k, by simp, by omega, hH', hw'', hne'', rfl, ?_⟩
      rw [hm, hm']; simp
    | ret x =>
      rw [hc] at hround
      exact CallOk.shift hround hn hm
  | eof seen =>
    have hseen : seen = false := by simpa [Decoder.isEof] using he
    subst hseen
    simp only [Decoder.decode]
    rcases hH.read r n s 8192 hr (by decide) with ⟨r', n', hrd, hn, hr'⟩ | ⟨x, s', r', n', hrd, rfl, hx, hnil, hn, hr'⟩
    · rw [hrd]
      exact ⟨[], s, n', rfl, by omega, hr', hn, trivial, (Decoded.after_nil_zero _).symm⟩
    · rw [hrd]
      by_cases hx0 : x = []
      · subst hx0
        have hs' : s' = [] := by simpa using hnil rfl
        subst hs'
        exact ⟨[], [], n', rfl, hn, hr', .inr (by simp [Decoder.isEof, within]), trivial, by
          simp [Decoder.meaning, within, whenOk, whenReady]⟩
      · exact ⟨x, s', n', rfl, hn, hr', .inl hx0, trivial, by
          simp [Decoder.meaning, within, whenOk, whenReady, hx0, Decoded.after]⟩

/-! ## Calling until the end -/

/-- What is left of the meaning `v` when some of it has been handed out. -/
def Rest (hp : Httparse) (H : ρ → ℕ → Bytes → Prop) (s : Bytes) (v : Decoded) (m : ℕ)
    (x : BodyRead ρ) : Prop :=
  ∃ pre s' n, s = pre ++ s' ∧ H x.rdr n s' ∧ x.decoder.Wf ∧
    m = s'.length + n + (if x.decoder.isEof then 0 else 1) ∧
    ((x.trailers = none ∧ v = (x.decoder.meaning hp s').after x.data pre.length) ∨
      (x.decoder.isEof = true ∧ v = ⟨x.data, x.trailers, .ended, pre.length⟩))

/-- A body that was read to its end or its error, as `v` says. -/
structure DrainOk (H : ρ → ℕ → Bytes → Prop) (s : Bytes) (v : Decoded) (n : ℕ) (x : BodyRead ρ) : Prop where
  data : x.data = v.data
  trailers : x.trailers = v.trailers
  isEof : v.outcome = .ended → x.decoder.isEof = true
  used_le : v.used ≤ s.length
  unread : H x.rdr n (s.drop v.used)

/-- **Calling until the end** gives the meaning of what the reader serves, and
leaves the reader with the bytes behind those used. -/
theorem drain_meaning (hH : Serves H) (hp : Httparse) {fuel : ℕ} (hr : H r n s) (hw : d.Wf)
    (hf : s.length + n + 1 < fuel) :
    ∃ x n', drain hp fuel d r = (.ready (d.meaning hp s).outcome, x) ∧
      DrainOk H s (d.meaning hp s) n' x := by
  set v := d.meaning hp s with hv
  suffices h : ∃ n', (drain hp fuel d r).1 = .ready v.outcome ∧ DrainOk H s v n' (drain hp fuel d r).2 by
    obtain ⟨n', h1, h2⟩ := h
    exact ⟨_, n', Prod.ext h1 rfl, h2⟩
  refine loop_progress (I := Rest hp H s v)
    (Q := fun x => ∃ n', x.1 = .ready v.outcome ∧ DrainOk H s v n' x.2) ?_ fuel
    (s.length + n + if d.isEof then 0 else 1) ⟨[], none, d, r⟩
    ⟨[], s, n, rfl, hr, hw, rfl, .inl ⟨rfl, by simp [hv]⟩⟩ (by split <;> omega)
  rintro m x ⟨pre, s', n', rfl, hH', hw', rfl, hx⟩
  unfold drainRound
  cases he : x.decoder.isEof with
  | true =>
    have hv' : v = ⟨x.data, x.trailers, .ended, pre.length⟩ := by
      rcases hx with ⟨ht, h⟩ | ⟨-, h⟩
      · rw [h, Decoder.meaning_of_isEof hp s' he, ht]; simp [Decoded.after]
      · exact h
    rw [hv']
    exact ⟨n', rfl, rfl, rfl, fun _ => he, by simp, by simpa using hH'⟩
  | false =>
    obtain ⟨ht, hm⟩ : x.trailers = none ∧ v = (x.decoder.meaning hp s').after x.data pre.length := by
      rcases hx with h | ⟨h, -⟩
      · exact h
      · rw [he] at h; cases h
    have hlen : s'.length < fuel := by rw [length_append] at hf; omega
    obtain ⟨p, s'', k, rfl, hk, hH'', hc⟩ := decode_meaning hH hp hH' hw' he hlen
    rcases hd : x.decoder.decode hp fuel x.rdr with ⟨res, d', r'⟩
    rw [hd] at hc hH''
    have hdrop : (pre ++ (p ++ s'')).drop (pre.length + p.length) = s'' := by
      rw [← append_assoc, drop_left' (by simp)]
    simp only [Bool.false_eq_true, if_false]
    match res, hc with
    | .pending, ⟨hlt, hw'', hc⟩ =>
      refine ⟨_, ?_, pre ++ p, s'', k, by simp, hH'', hw'', rfl, .inl ⟨ht, ?_⟩⟩
      · rw [length_append]; split <;> omega
      · rw [hm, hc]; simp
    | .ready (.ok (.data b)), ⟨hp', hw'', hc⟩ =>
      refine ⟨_, ?_, pre ++ p, s'', k, by simp, hH'', hw'', rfl, .inl ⟨ht, ?_⟩⟩
      · -- the call used a byte or saw the end
        rw [length_append]
        rcases hp' with hp' | hp'
        · have := length_pos_iff.2 hp'
          split <;> omega
        · rw [if_pos hp']; omega
      · rw [hm, hc]; simp
    | .ready (.ok (.trailers t)), ⟨hp', hd', hc⟩ =>
      refine ⟨_, ?_, pre ++ p, s'', k, by simp, hH'', ?_, rfl, .inr ⟨hd', ?_⟩⟩
      · rw [length_append, if_pos hd']; omega
      · exact Decoder.wf_of_isEof hd'
      · rw [hm, hc]; simp [Decoded.after]
    | .ready (.error e), hc =>
      rw [hm, hc]
      exact ⟨k, rfl, by simp [Decoded.after], ht, nofun, by simp [Decoded.after],
        by rwa [← hdrop] at hH''⟩
    | .panicked, hc =>
      rw [hm, hc]
      exact ⟨k, rfl, by simp [Decoded.after], ht, nofun, by simp [Decoded.after],
        by rwa [← hdrop] at hH''⟩

end Netty
