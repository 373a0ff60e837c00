import Netty.Spec.Tunnel

/-!
# The handshake takes no tunneled byte

* `wantBytes_le`: inside a head, a read never asks for more than is left of it.
* `readLoop_head`: from inside a head, the loop reaches its end or the limits.
* `tunnel_exact`: what becomes of a whole reply, for every fragmentation of the reads.
-/

namespace Netty.Proxy

open List

/-! ## The end of a head -/

section Ends

variable {head p q : Bytes}

theorem endsWith_append (p tail : Bytes) : endsWith (p ++ tail) tail = true :=
  isSuffixOf_iff_suffix.2 (suffix_append p tail)

/-- A head is closed by an empty line. -/
def Closed (bytes : Bytes) : Prop := ∃ p, bytes = p ++ [10, 10] ∨ bytes = p ++ [10, 13, 10]

theorem Line.bytes_ends (l : Line) : ∃ p, l.bytes = p ++ [10] := by
  unfold Line.bytes
  cases l.eol with
  | lf => exact ⟨l.text, rfl⟩
  | crlf => exact ⟨l.text ++ [13], by simp [Eol.bytes]⟩

theorem lines_end (lines : List Line) (p : Bytes) : ∃ p', p ++ [10] ++ lines.flatMap Line.bytes = p' ++ [10] := by
  induction lines generalizing p with
  | nil => exact ⟨p, by simp⟩
  | cons l lines ih =>
    obtain ⟨r, hr⟩ := l.bytes_ends
    obtain ⟨p', hp'⟩ := ih (p ++ [10] ++ r)
    refine ⟨p', ?_⟩
    rw [flatMap_cons, hr, ← hp']
    simp

theorem Head.closed (h : Head) : Closed h.bytes := by
  obtain ⟨r, hr⟩ := h.statusLine.bytes_ends
  obtain ⟨p, hp⟩ := lines_end h.fields (h.lead.flatMap Eol.bytes ++ r)
  have hb : h.bytes = p ++ [10] ++ h.stop.bytes := by
    rw [Head.bytes, hr, ← hp]
    simp
  cases hs : h.stop with
  | lf => exact ⟨p, .inl (by rw [hb, hs]; simp [Eol.bytes])⟩
  | crlf => exact ⟨p, .inr (by rw [hb, hs]; simp [Eol.bytes])⟩

theorem Closed.parsed (h : Closed head) : notParsed head = false := by
  unfold notParsed
  obtain ⟨p, rfl | rfl⟩ := h
  · rw [endsWith_append]; rfl
  · rw [endsWith_append, Bool.or_true]; rfl

/-- **A read inside a head does not pass its end.** One byte from the end, the head has
ended a line, or begun to end an empty one. -/
theorem wantBytes_le (h : Closed (p ++ q)) (hq : q ≠ []) : wantBytes p ≤ q.length := by
  obtain ⟨a, q, rfl⟩ := exists_cons_of_ne_nil hq
  cases q with
  | cons b q =>
    unfold wantBytes
    split <;> simp
  | nil =>
    have hw : endsWith p [10] = true ∨ endsWith p [10, 13] = true := by
      obtain ⟨r, hr | hr⟩ := h
      · rw [show r ++ [10, 10] = (r ++ [10]) ++ [10] by simp] at hr
        rw [(append_inj' hr rfl).1]
        exact .inl (endsWith_append r _)
      · rw [show r ++ [10, 13, 10] = (r ++ [10, 13]) ++ [10] by simp] at hr
        rw [(append_inj' hr rfl).1]
        exact .inr (endsWith_append r _)
    have h1 : wantBytes p = 1 := by
      unfold wantBytes
      rcases hw with hw | hw <;> simp [hw]
    rw [h1]
    exact Nat.le_refl 1

end Ends

/-! ## One round -/

/-- The verdict on what the parser has read; `none` is an interim response. -/
def outcome (code : ℕ) : Option (Except TunnelError Unit) :=
  match statusCode code with
  | none => some (.error .parse)
  | some status => verdict status

def Io.Gives (io : Io) : Prop := ∀ k, ∃ n, io.answers k = .give n

section Round

variable {parse : ResponseParser} {fuel start : ℕ} {buf c : Bytes} {io io' : Io}

def request (start : ℕ) (buf : Bytes) : ℕ :=
  min (buf.length + wantBytes (buf.drop start)) maxResponseHead - buf.length

/-- A round that has read `c`. -/
structure Reads (start : ℕ) (buf : Bytes) (io : Io) (c : Bytes) (io' : Io) : Prop where
  room : buf.length ≠ maxResponseHead
  read : io.read (request start buf) = (some c, io')
  nonempty : c ≠ []

theorem readLoop_full (h : buf.length = maxResponseHead) :
    readLoop parse (fuel + 1) start buf io = some (.error .proxyHeadersTooLong, io) := if_pos h

theorem Reads.skip (h : Reads start buf io c io') (hn : notParsed ((buf ++ c).drop start) = true) :
    readLoop parse (fuel + 1) start buf io = readLoop parse fuel start (buf ++ c) io' := by
  obtain ⟨b, bytes, rfl⟩ := exists_cons_of_ne_nil h.nonempty
  have hr := h.read
  unfold request at hr
  rw [readLoop, if_neg h.room]
  simp only [hr, hn, if_true]

theorem Reads.incomplete (h : Reads start buf io c io') (hp : parse ((buf ++ c).drop start) = .incomplete) :
    readLoop parse (fuel + 1) start buf io = readLoop parse fuel start (buf ++ c) io' := by
  obtain ⟨b, bytes, rfl⟩ := exists_cons_of_ne_nil h.nonempty
  have hr := h.read
  unfold request at hr
  rw [readLoop, if_neg h.room]
  simp only [hr, hp, ite_self]

theorem Reads.tooMany (h : Reads start buf io c io') (hn : notParsed ((buf ++ c).drop start) = false)
    (hp : parse ((buf ++ c).drop start) = .tooManyHeaders) :
    readLoop parse (fuel + 1) start buf io = some (.error .proxyHeadersTooLong, io') := by
  obtain ⟨b, bytes, rfl⟩ := exists_cons_of_ne_nil h.nonempty
  have hr := h.read
  unfold request at hr
  rw [readLoop, if_neg h.room]
  simp only [hr, hn, hp, Bool.false_eq_true, if_false]

theorem Reads.complete {parsed code : ℕ} (h : Reads start buf io c io')
    (hn : notParsed ((buf ++ c).drop start) = false)
    (hp : parse ((buf ++ c).drop start) = .complete parsed (some code)) :
    (outcome code = none →
      readLoop parse (fuel + 1) start buf io = readLoop parse fuel (start + parsed) (buf ++ c) io') ∧
    ∀ res, outcome code = some res → readLoop parse (fuel + 1) start buf io = some (res, io') := by
  obtain ⟨b, bytes, rfl⟩ := exists_cons_of_ne_nil h.nonempty
  have hr := h.read
  unfold request at hr
  rw [readLoop, if_neg h.room]
  simp only [hr, hn, hp, Bool.false_eq_true, if_false, Option.bind_some]
  unfold outcome
  cases statusCode code with
  | none =>
    refine ⟨fun h => (nomatch h), fun res h => ?_⟩
    injection h with h
    rw [← h]
  | some status =>
    simp only
    refine ⟨fun h => by rw [h], fun res h => by rw [h]⟩

theorem Io.read_piece {q tail : Bytes} (want : ℕ) (hg : io.Gives) (hin : io.input = q ++ tail) (h0 : 0 < want)
    (hw : want ≤ q.length) :
    ∃ c q' reads, c ≠ [] ∧ q = c ++ q' ∧ c.length ≤ want ∧
      io.read want = (some c, ⟨q' ++ tail, io.answers, reads⟩) := by
  obtain ⟨n, hn⟩ := hg io.reads
  have hle : min want (max 1 n) ≤ q.length := by omega
  refine ⟨q.take (min want (max 1 n)), q.drop (min want (max 1 n)), io.reads + 1, ?_,
    (take_append_drop _ _).symm, ?_, ?_⟩
  · rw [← length_pos_iff, length_take]
    omega
  · rw [length_take]
    omega
  · unfold Io.read
    rw [hn]
    simp only [hin, take_append_of_le_length hle, drop_append_of_le_length hle]

end Round

/-! ## One head -/

section Heads

variable {parse : ResponseParser} {wellFormed : Head → Prop} {fuel : ℕ} {read p q tail : Bytes} {io : Io}

/-- The head fits in what is left of the buffer, and its fields in the slots. -/
def Head.Fits (h : Head) (before : ℕ) : Prop := before + h.bytes.length ≤ maxResponseHead ∧ h.fields.length ≤ maxHeaders

/-- The loop ends with this head: with its verdict, or behind it if it is an interim one. -/
def Head.Reached (h : Head) (parse : ResponseParser) (read tail : Bytes) (answers : ℕ → ReadAnswer)
    (r : Option (Except TunnelError Unit × Io)) : Prop :=
  ∃ reads,
    (∀ res, outcome h.status = some res → r = some (res, ⟨tail, answers, reads⟩)) ∧
    (outcome h.status = none → ∃ fuel, maxResponseHead < fuel + (read ++ h.bytes).length ∧
      r = readLoop parse fuel (read ++ h.bytes).length (read ++ h.bytes) ⟨tail, answers, reads⟩)

/-- The loop gives up with some of `q` not read. -/
def GivesUp (q tail : Bytes) (r : Option (Except TunnelError Unit × Io)) : Prop :=
  ∃ c left io, q = c ++ left ∧ io.input = left ++ tail ∧ r = some (.error .proxyHeadersTooLong, io)

theorem GivesUp.append {c q' : Bytes} {r : Option (Except TunnelError Unit × Io)} (h : GivesUp q' tail r)
    (hq : q = c ++ q') : GivesUp q tail r := by
  obtain ⟨d, left, io, rfl, hin, hr⟩ := h
  exact ⟨c ++ d, left, io, by rw [hq, append_assoc], hin, hr⟩

theorem readLoop_end {c : Bytes} {reads : ℕ} {answers : ℕ → ReadAnswer} (fuel : ℕ)
    (hp : Httparse parse wellFormed) {h : Head}
    (hwf : wellFormed h) (hb : h.bytes = p ++ c)
    (hr : Reads read.length (read ++ p) io c ⟨tail, answers, reads⟩)
    (hfuel : maxResponseHead < fuel + (read.length + h.bytes.length)) :
    (h.fields.length ≤ maxHeaders →
      h.Reached parse read tail answers (readLoop parse (fuel + 1) read.length (read ++ p) io)) ∧
    (maxHeaders < h.fields.length →
      readLoop parse (fuel + 1) read.length (read ++ p) io =
        some (.error .proxyHeadersTooLong, ⟨tail, answers, reads⟩)) := by
  have hbuf : read ++ p ++ c = read ++ h.bytes := by rw [append_assoc, ← hb]
  have hdrop : (read ++ p ++ c).drop read.length = h.bytes := by rw [hbuf, drop_left]
  have hn : notParsed ((read ++ p ++ c).drop read.length) = false := by
    rw [hdrop]
    exact h.closed.parsed
  refine ⟨fun hf => ?_, fun hf => hr.tooMany hn (by rw [hdrop, hp.crowded h hwf hf])⟩
  obtain ⟨h1, h2⟩ := hr.complete hn (by rw [hdrop]; exact hp.complete h hwf hf)
  refine ⟨reads, h2, fun ho => ⟨fuel, by rw [length_append]; exact hfuel, ?_⟩⟩
  rw [h1 ho, hbuf, length_append]

/-- **From inside a head**, behind `read` and with `p` of it in the buffer, the loop ends
with the head if there is room for it, and fails inside it or at its end if not. -/
theorem readLoop_head (hp : Httparse parse wellFormed) {h : Head} (hwf : wellFormed h) (hb : h.bytes = p ++ q)
    (hq : q ≠ []) (hg : io.Gives) (hin : io.input = q ++ tail) (hlen : read.length + p.length ≤ maxResponseHead)
    (hfuel : maxResponseHead < fuel + (read.length + p.length)) :
    (h.Fits read.length →
      h.Reached parse read tail io.answers (readLoop parse fuel read.length (read ++ p) io)) ∧
    (¬ h.Fits read.length → GivesUp q tail (readLoop parse fuel read.length (read ++ p) io)) := by
  -- on the rounds left: each one moves at least one byte from `q` to `p`
  induction fuel generalizing p q io with
  | zero => omega
  | succ fuel ih =>
    have hpos : 0 < q.length := length_pos_iff.2 hq
    have hhead : h.bytes.length = p.length + q.length := by rw [hb, length_append]
    by_cases hfull : (read ++ p).length = maxResponseHead
    · rw [readLoop_full hfull]
      rw [length_append] at hfull
      exact ⟨fun hf => by have := hf.1; omega, fun _ => ⟨[], q, io, rfl, hin, rfl⟩⟩
    have hw := wantBytes_le (hb ▸ h.closed) hq
    have hw0 : 0 < wantBytes p := by unfold wantBytes; split <;> omega
    have hreq : request read.length (read ++ p) = min (wantBytes p) (maxResponseHead - (read.length + p.length)) := by
      rw [request, drop_left, length_append]
      omega
    rw [length_append] at hfull
    obtain ⟨c, q', reads, hc, hqc, hcl, hread⟩ :=
      Io.read_piece (request read.length (read ++ p)) hg hin (by omega) (by omega)
    have hr : Reads read.length (read ++ p) io c ⟨q' ++ tail, io.answers, reads⟩ :=
      ⟨by rw [length_append]; exact hfull, hread, hc⟩
    have hdrop : (read ++ p ++ c).drop read.length = p ++ c := by rw [append_assoc, drop_left]
    have hcpos : 0 < c.length := length_pos_iff.2 hc
    by_cases hq' : q' = []
    · -- the end of the head
      subst hq'
      rw [append_nil] at hqc
      have hpc : h.bytes = p ++ c := by rw [hb, hqc]
      have hroom : read.length + h.bytes.length ≤ maxResponseHead := by rw [hhead, hqc]; omega
      obtain ⟨h1, h2⟩ := readLoop_end fuel hp hwf hpc hr (by omega)
      refine ⟨fun hf => h1 hf.2, fun hf => ⟨c, [], _, by rw [hqc, append_nil], rfl, h2 ?_⟩⟩
      exact Nat.lt_of_not_le fun hle => hf ⟨hroom, hle⟩
    · have hrest : read.length + (p ++ c).length ≤ maxResponseHead := by
        rw [length_append]
        omega
      have hnext := @ih (p ++ c) q' ⟨q' ++ tail, io.answers, reads⟩ (by rw [hb, hqc, append_assoc]) hq' hg rfl
        hrest (by rw [length_append]; omega)
      rw [← append_assoc] at hnext
      have hgo : ∀ r, (h.Fits read.length → h.Reached parse read tail io.answers r) ∧
          (¬ h.Fits read.length → GivesUp q' tail r) →
          (h.Fits read.length → h.Reached parse read tail io.answers r) ∧
          (¬ h.Fits read.length → GivesUp q tail r) := fun r hr => ⟨hr.1, fun hf => (hr.2 hf).append hqc⟩
      cases hn : notParsed ((read ++ p ++ c).drop read.length) with
      | true =>
        rw [hr.skip hn]
        exact hgo _ hnext
      | false =>
        have hi := hp.incomplete h (p ++ c) q' hwf (by rw [hb, hqc, append_assoc]) hq'
        rw [← hdrop] at hi
        rcases hi with hi | ⟨hcrowd, hi⟩
        · rw [hr.incomplete hi]
          exact hgo _ hnext
        · rw [hr.tooMany hn hi]
          exact ⟨fun hf => absurd hf.2 (by omega), fun _ => ⟨c, q', _, hqc, rfl, rfl⟩⟩

/-! ## The whole reply -/

/-- An interim head, which is skipped. -/
def Head.Interim (h : Head) : Prop := 100 ≤ h.status ∧ h.status < 200 ∧ h.status ≠ 101

theorem outcome_interim {h : Head} (hi : h.Interim) : outcome h.status = none := by
  obtain ⟨h1, h2, h3⟩ := hi
  have hs : statusCode h.status = some h.status := by
    rw [statusCode, if_pos (by simp; omega)]
  rw [outcome, hs]
  exact if_pos (by simp; omega)

/-- A final head has a verdict, which is good for 2xx only and never about the limits. -/
theorem outcome_final {h : Head} (hf : ¬ h.Interim) :
    ∃ res, outcome h.status = some res ∧ (res = .ok () ↔ 200 ≤ h.status ∧ h.status < 300) ∧
      res ≠ .error .proxyHeadersTooLong := by
  unfold Head.Interim at hf
  unfold outcome statusCode
  split
  · rename_i hs
    refine ⟨_, rfl, ?_, nofun⟩
    split at hs
    · cases hs
    · rename_i hn
      simp at hn
      exact ⟨nofun, fun h => by omega⟩
  · rename_i status hs
    split at hs
    · rename_i hr
      injection hs with hs
      subst hs
      unfold verdict
      rw [if_neg (by simp; omega)]
      split
      · rename_i h2
        simp at h2
        exact ⟨_, rfl, ⟨fun _ => h2, fun _ => rfl⟩, nofun⟩
      · rename_i h2
        simp at h2
        have hno : ¬ (200 ≤ h.status ∧ h.status < 300) := by omega
        split
        · exact ⟨_, rfl, ⟨nofun, fun h => absurd h hno⟩, nofun⟩
        · exact ⟨_, rfl, ⟨nofun, fun h => absurd h hno⟩, nofun⟩
    · cases hs

def headBytes (heads : List Head) : Bytes := heads.flatMap Head.bytes

/-- The heads fit in what is left of the buffer, and the fields of each in the slots. -/
def AllFit (heads : List Head) (before : ℕ) : Prop :=
  before + (headBytes heads).length ≤ maxResponseHead ∧ ∀ h ∈ heads, h.fields.length ≤ maxHeaders

theorem Head.bytes_ne_nil (h : Head) : h.bytes ≠ [] := by
  obtain ⟨p, hp | hp⟩ := h.closed <;> rw [hp] <;> simp

theorem headBytes_cons (h : Head) (heads : List Head) : headBytes (h :: heads) = h.bytes ++ headBytes heads :=
  flatMap_cons

theorem allFit_cons (h : Head) (heads : List Head) (before : ℕ) :
    AllFit (h :: heads) before ↔ h.Fits before ∧ AllFit heads (before + h.bytes.length) := by
  unfold AllFit Head.Fits
  rw [headBytes_cons, length_append, forall_mem_cons]
  constructor
  · rintro ⟨h1, h2, h3⟩
    exact ⟨⟨by omega, h2⟩, by omega, h3⟩
  · rintro ⟨⟨-, h2⟩, h1, h3⟩
    exact ⟨by omega, h2, h3⟩

theorem readLoop_start (fuel : ℕ) (read : Bytes) (hp : Httparse parse wellFormed) {h : Head} (hwf : wellFormed h)
    (hg : io.Gives) (hin : io.input = h.bytes ++ tail) (hlen : read.length ≤ maxResponseHead)
    (hfuel : maxResponseHead < fuel + read.length) :
    (h.Fits read.length → h.Reached parse read tail io.answers (readLoop parse fuel read.length read io)) ∧
    (¬ h.Fits read.length → GivesUp h.bytes tail (readLoop parse fuel read.length read io)) := by
  have h' := @readLoop_head parse wellFormed fuel read [] h.bytes tail io hp h hwf rfl h.bytes_ne_nil hg hin hlen hfuel
  rwa [append_nil] at h'

theorem GivesUp.before {more : Bytes} {r : Option (Except TunnelError Unit × Io)} (h : GivesUp q (more ++ tail) r) :
    GivesUp (q ++ more) tail r := by
  obtain ⟨c, left, io, rfl, hin, hr⟩ := h
  exact ⟨c, left ++ more, io, append_assoc _ _ _, by rw [hin, append_assoc], hr⟩

/-- **From between two heads.** -/
theorem readLoop_heads (hp : Httparse parse wellFormed) {interims : List Head} {final : Head}
    (hwf : ∀ h ∈ interims ++ [final], wellFormed h) (hint : ∀ h ∈ interims, h.Interim)
    {res : Except TunnelError Unit} (hres : outcome final.status = some res)
    (hg : io.Gives) (hin : io.input = headBytes (interims ++ [final]) ++ tail) (hlen : read.length ≤ maxResponseHead)
    (hfuel : maxResponseHead < fuel + read.length) :
    (AllFit (interims ++ [final]) read.length → ∃ io', io'.input = tail ∧
      readLoop parse fuel read.length read io = some (res, io')) ∧
    (¬ AllFit (interims ++ [final]) read.length →
      GivesUp (headBytes (interims ++ [final])) tail (readLoop parse fuel read.length read io)) := by
  induction interims generalizing read fuel io with
  | nil =>
    have hin' : io.input = final.bytes ++ tail := by
      rw [hin, nil_append, headBytes_cons]
      exact congrArg (· ++ tail) (append_nil _)
    obtain ⟨h1, h2⟩ := readLoop_start fuel read hp (hwf final (by simp)) hg hin' hlen hfuel
    have hend : ∀ before, before ≤ maxResponseHead → AllFit [] before := fun before hb => ⟨hb, nofun⟩
    rw [nil_append, allFit_cons, show headBytes [final] = final.bytes from append_nil _]
    refine ⟨fun hf => ?_, fun hf => h2 fun hfit => hf ⟨hfit, hend _ hfit.1⟩⟩
    obtain ⟨reads, hr, -⟩ := h1 hf.1
    exact ⟨_, rfl, hr res hres⟩
  | cons h interims ih =>
    rw [cons_append] at hin hwf ⊢
    rw [headBytes_cons, append_assoc] at hin
    rw [headBytes_cons, allFit_cons]
    obtain ⟨h1, h2⟩ := readLoop_start fuel read hp (hwf h mem_cons_self) hg hin hlen hfuel
    by_cases hfit : h.Fits read.length
    · obtain ⟨reads, -, hnext⟩ := h1 hfit
      obtain ⟨fuel', hfuel', hr⟩ := hnext (outcome_interim (hint h mem_cons_self))
      have hlen' : (read ++ h.bytes).length ≤ maxResponseHead := by
        rw [length_append]
        exact hfit.1
      obtain ⟨ih1, ih2⟩ := @ih fuel' (read ++ h.bytes) ⟨headBytes (interims ++ [final]) ++ tail, io.answers, reads⟩
        (fun h' hh => hwf h' (mem_cons_of_mem _ hh))
        (fun h' hh => hint h' (mem_cons_of_mem _ hh)) hg rfl hlen'
        hfuel'
      rw [length_append] at ih1 ih2
      rw [hr, length_append]
      exact ⟨fun hf => ih1 hf.2, fun hf => (ih2 fun hall => hf ⟨hfit, hall⟩).append rfl⟩
    · exact ⟨fun hf => absurd hf.1 hfit, fun _ => (h2 hfit).before⟩

/-- **The CONNECT handshake never takes a tunneled byte.** The reply is any number of
interim heads, a final head and what the tunnel brings, in any portions. Nothing behind
the final head is read, and all heads are unless the limits are passed; the tunnel is
open exactly if the final status is 2xx and the limits are kept. -/
theorem tunnel_exact (parse : ResponseParser) (wellFormed : Head → Prop) (hp : Httparse parse wellFormed)
    (interims : List Head) (final : Head) (hwf : ∀ h ∈ interims ++ [final], wellFormed h)
    (hint : ∀ h ∈ interims, h.Interim) (hfin : ¬ final.Interim) (rest : Bytes) (answers : ℕ → ReadAnswer)
    (hg : ∀ k, ∃ n, answers k = .give n) :
    ∃ res io', readResponse parse ⟨headBytes (interims ++ [final]) ++ rest, answers, 0⟩ = some (res, io') ∧
      (∃ read left, headBytes (interims ++ [final]) = read ++ left ∧ io'.input = left ++ rest) ∧
      (res ≠ .error .proxyHeadersTooLong → io'.input = rest) ∧
      (res = .ok () ↔ (200 ≤ final.status ∧ final.status < 300) ∧
        (headBytes (interims ++ [final])).length ≤ maxResponseHead ∧
        ∀ h ∈ interims ++ [final], h.fields.length ≤ maxHeaders) ∧
      (maxResponseHead < (headBytes (interims ++ [final])).length → res = .error .proxyHeadersTooLong) := by
  obtain ⟨res, hres, hok, hno⟩ := outcome_final hfin
  obtain ⟨h1, h2⟩ := @readLoop_heads parse wellFormed (maxResponseHead + 1) [] rest
    ⟨headBytes (interims ++ [final]) ++ rest, answers, 0⟩ hp interims final hwf hint res hres hg rfl (Nat.zero_le _)
    (Nat.lt_succ_self _)
  have hfit : AllFit (interims ++ [final]) ([] : Bytes).length ↔
      (headBytes (interims ++ [final])).length ≤ maxResponseHead ∧
        ∀ h ∈ interims ++ [final], h.fields.length ≤ maxHeaders := by
    rw [AllFit, length_nil, Nat.zero_add]
  rw [hfit] at h1 h2
  by_cases hf : (headBytes (interims ++ [final])).length ≤ maxResponseHead ∧
      ∀ h ∈ interims ++ [final], h.fields.length ≤ maxHeaders
  · obtain ⟨io', hin, hr⟩ := h1 hf
    exact ⟨res, io', hr, ⟨_, [], (append_nil _).symm, hin⟩, fun _ => hin,
      ⟨fun h => ⟨hok.1 h, hf⟩, fun h => hok.2 h.1⟩, fun hlt => absurd hf.1 (Nat.not_le_of_lt hlt)⟩
  · obtain ⟨c, left, io', hq, hin, hr⟩ := h2 hf
    exact ⟨_, io', hr, ⟨c, left, hq, hin⟩, fun h => absurd rfl h, ⟨nofun, fun h => absurd h.2 hf⟩, fun _ => rfl⟩

end Heads

/-! ## Sample replies -/

/-- A parser that knows these heads. -/
def tableParser (heads : List Head) : ResponseParser := fun bytes =>
  match heads.find? fun h => h.bytes = bytes with
  | some h => .complete h.bytes.length (some h.status)
  | none => .incomplete

/-- It is as assumed, if no head is the start of another one. -/
theorem tableParser_httparse {heads : List Head} (hf : ∀ h ∈ heads, h.fields.length ≤ maxHeaders)
    (hc : ∀ h ∈ heads, tableParser heads h.bytes = .complete h.bytes.length (some h.status))
    (hi : ∀ h ∈ heads, ∀ k < h.bytes.length, tableParser heads (h.bytes.take k) = .incomplete) :
    Httparse (tableParser heads) (· ∈ heads) := by
  refine ⟨fun h hh _ => hc h hh, fun h hh hlt => absurd (hf h hh) (Nat.not_le_of_lt hlt), fun h p q hh hb hq => ?_⟩
  have hp : p = h.bytes.take p.length := by rw [hb, take_left]
  have hlt : p.length < h.bytes.length := by
    have := length_pos_iff.2 hq
    rw [hb, length_append]
    omega
  rw [hp]
  exact .inl (hi h hh p.length hlt)

def continueHead : Head :=
  ⟨[], ⟨ascii "HTTP/1.1 100 Continue", .crlf, by decide, by decide +kernel⟩, [], .crlf, 100⟩

def okHead : Head :=
  ⟨[], ⟨ascii "HTTP/1.1 200 OK", .lf, by decide, by decide +kernel⟩,
    [⟨ascii "x: 1", .crlf, by decide, by decide +kernel⟩], .lf, 200⟩

theorem tunnel_exact_banner :
    ∃ res io', readResponse (tableParser [continueHead, okHead])
        ⟨headBytes ([continueHead] ++ [okHead]) ++ ascii "banner", fun _ => .give 2, 0⟩ = some (res, io') ∧
      (∃ read left, headBytes ([continueHead] ++ [okHead]) = read ++ left ∧ io'.input = left ++ ascii "banner") ∧
      (res ≠ .error .proxyHeadersTooLong → io'.input = ascii "banner") ∧
      (res = .ok () ↔ (200 ≤ okHead.status ∧ okHead.status < 300) ∧
        (headBytes ([continueHead] ++ [okHead])).length ≤ maxResponseHead ∧
        ∀ h ∈ [continueHead] ++ [okHead], h.fields.length ≤ maxHeaders) ∧
      (maxResponseHead < (headBytes ([continueHead] ++ [okHead])).length → res = .error .proxyHeadersTooLong) :=
  tunnel_exact _ (· ∈ [continueHead, okHead]) (tableParser_httparse (by decide) (by decide +kernel) (by decide +kernel))
    [continueHead] okHead (fun _ h => h) (by simp [Head.Interim, continueHead]) (by simp [Head.Interim, okHead]) _ _
    fun _ => ⟨2, rfl⟩

/-! ## The buffer bounds what is read -/

theorem Io.read_bounded (io : Io) (want : ℕ) :
    io.input = ((io.read want).1.getD []) ++ (io.read want).2.input ∧ ((io.read want).1.getD []).length ≤ want := by
  unfold Io.read
  cases io.answers io.reads with
  | fail => exact ⟨rfl, Nat.zero_le _⟩
  | give n =>
    refine ⟨(take_append_drop _ _).symm, ?_⟩
    rw [Option.getD_some, length_take]
    omega

theorem readLoop_bounded {parse : ResponseParser} {fuel start : ℕ} {buf : Bytes} {io io' : Io}
    {res : Except TunnelError Unit} (hlen : buf.length ≤ maxResponseHead)
    (h : readLoop parse fuel start buf io = some (res, io')) :
    ∃ read, io.input = read ++ io'.input ∧ buf.length + read.length ≤ maxResponseHead := by
  induction fuel generalizing start buf io with
  | zero => cases h
  | succ fuel ih =>
    rw [readLoop] at h
    split at h
    · injection h with h
      injection h with _ h
      exact ⟨[], by rw [h]; rfl, hlen⟩
    obtain ⟨hin, hle⟩ := io.read_bounded (request start buf)
    have hreq : buf.length + request start buf ≤ maxResponseHead := by
      unfold request
      omega
    simp only at h
    rw [show min (buf.length + wantBytes (buf.drop start)) maxResponseHead - buf.length =
      request start buf from rfl] at h
    generalize io.read (request start buf) = r at h hin hle
    obtain ⟨bytes, io₁⟩ := r
    -- what this round has read, if it ends here or goes on
    have hend : ∀ {e}, some (e, io₁) = some (res, io') →
        ∃ read, io.input = read ++ io'.input ∧ buf.length + read.length ≤ maxResponseHead := by
      intro e he
      injection he with he
      injection he with _ he
      exact ⟨_, by rw [← he]; exact hin, by omega⟩
    match bytes with
    | none => exact hend h
    | some [] => exact hend h
    | some (b :: bytes) =>
      have hgo : ∀ {start'}, readLoop parse fuel start' (buf ++ b :: bytes) io₁ = some (res, io') →
          ∃ read, io.input = read ++ io'.input ∧ buf.length + read.length ≤ maxResponseHead := by
        intro start' hr
        simp only [Option.getD_some] at hin hle
        obtain ⟨read, h1, h2⟩ := ih (by rw [length_append]; omega) hr
        rw [length_append] at h2
        exact ⟨b :: bytes ++ read, by rw [hin, h1, append_assoc], by rw [length_append]; omega⟩
      simp only at h
      split at h
      · exact hgo h
      split at h
      · exact hgo h
      · exact hend h
      · exact hend h
      split at h
      · exact hend h
      split at h
      · exact hgo h
      · exact hend h

/-- A head of more than 8192 bytes. -/
def longHead : Head :=
  ⟨[], ⟨ascii "HTTP/1.1 200 OK", .lf, by decide, by decide +kernel⟩,
    [⟨120 :: 58 :: replicate 8192 97, .lf, nofun, by
      intro b hb
      simp only [mem_cons, mem_replicate] at hb
      rcases hb with rfl | rfl | ⟨-, rfl⟩ <;> decide⟩], .lf, 200⟩

theorem longHead_length : maxResponseHead < longHead.bytes.length := by
  simp only [longHead, Head.bytes, Line.bytes, flatMap_cons, length_append, length_cons,
    length_replicate, maxResponseHead]
  omega

theorem tableParser_single (h : Head) (hf : h.fields.length ≤ maxHeaders) :
    Httparse (tableParser [h]) (· ∈ [h]) := by
  refine tableParser_httparse ?_ ?_ ?_ <;> intro h' hh <;> cases mem_singleton.1 hh
  · exact hf
  · simp [tableParser]
  · intro k hk
    have hne : h.bytes ≠ h.bytes.take k := fun he => by
      have := congrArg List.length he
      rw [length_take] at this
      omega
    simp only [tableParser, find?_cons, hne, decide_false, find?_nil]

theorem longHead_httparse : Httparse (tableParser [longHead]) (· ∈ [longHead]) :=
  tableParser_single longHead (Nat.le_of_ble_eq_true rfl)

/-- **Not all of the heads are read** if they are too long: the end of this one stays in
the connection. -/
theorem long_head_left :
    Httparse (tableParser [longHead]) (· ∈ [longHead]) ∧ ¬ longHead.Interim ∧
      ∃ res io', readResponse (tableParser [longHead])
        ⟨headBytes ([] ++ [longHead]) ++ ascii "banner", fun _ => .give 2, 0⟩ = some (res, io') ∧
        io'.input ≠ ascii "banner" := by
  have hlong : (headBytes ([] ++ [longHead])).length = longHead.bytes.length := by
    rw [nil_append, show headBytes [longHead] = longHead.bytes from append_nil _]
  have hlt := longHead_length
  have hfinal : ¬ longHead.Interim := fun h => absurd h.2.1 (by decide)
  obtain ⟨res, hres, -⟩ := outcome_final hfinal
  have hnot : ¬ AllFit ([] ++ [longHead]) ([] : Bytes).length := fun h => by
    have := h.1
    rw [hlong] at this
    omega
  obtain ⟨-, h2⟩ := @readLoop_heads (tableParser [longHead]) (· ∈ [longHead]) (maxResponseHead + 1) [] (ascii "banner")
    ⟨headBytes ([] ++ [longHead]) ++ ascii "banner", fun _ => .give 2, 0⟩ longHead_httparse [] longHead
    (fun _ h => h) nofun res hres (fun _ => ⟨2, rfl⟩) rfl (Nat.zero_le _) (Nat.lt_succ_self _)
  obtain ⟨c, left, io', -, -, hr⟩ := h2 hnot
  refine ⟨longHead_httparse, hfinal, _, io', hr, fun hin => ?_⟩
  obtain ⟨read, hread, hle⟩ := readLoop_bounded (Nat.zero_le _) hr
  rw [hin] at hread
  have := congrArg List.length (append_cancel_right hread)
  rw [hlong] at this
  rw [length_nil, Nat.zero_add, ← this] at hle
  omega

end Netty.Proxy
