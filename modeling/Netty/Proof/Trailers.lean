import Mathlib.Data.List.Count
import Netty.Proof.Framing
import Netty.Proof.Grammar
import Netty.Split.Basic

/-!
# The trailer section is split into lines twice

The decoder collects the bytes behind the last chunk. It takes a line to end at CRLF, counts the lines, and
hands the bytes and their number to the parser. The parser takes a line to end at LF, and stops behind the first empty
line.

* `InTrailers`: what has been collected, for each state of the decoder.
* `Httparse.StopsAtEmptyLine`: what the parser is taken to do.
* `trailers_complete`: **all of the section is parsed if and only if no line has a bare LF in it.**
* `bare_lf_drops_lines`: a section that loses a line.
-/

namespace Netty

open List

/-! ## The lines of the decoder -/

/-- Lines that end at CRLF. -/
def linesBytes (lines : List Bytes) : Bytes := lines.flatMap (· ++ crlf)

theorem linesBytes_concat (lines : List Bytes) (w : Bytes) :
    linesBytes (lines ++ [w]) = linesBytes lines ++ w ++ crlf := by
  simp [linesBytes]

/-- The decoder has collected `x`: these lines, and `w` behind them. -/
structure Collects (c : Chunked) (x : Bytes) (lines : List Bytes) (w : Bytes) : Prop where
  buffered : c.trailersBuf = some x
  bytes : x = linesBytes lines ++ w
  lines_ok : ∀ l ∈ lines, l ≠ [] ∧ cr ∉ l
  count : c.trailersCnt = lines.length

/-- **What has been read behind the last chunk**, for each state. -/
inductive InTrailers : Bytes → Chunked → Prop
  | start {c : Chunked} : c.state = .endCr → c.trailersBuf = none → c.trailersCnt = 0 → InTrailers [] c
  | noTrailers {c : Chunked} : c.state = .endLf → c.trailersBuf = none → InTrailers [cr] c
  | line {c : Chunked} {x : Bytes} {lines : List Bytes} {w : Bytes} : c.state = .trailer → Collects c x lines w →
      w ≠ [] → cr ∉ w → InTrailers x c
  | lineLf {c : Chunked} {x : Bytes} {lines : List Bytes} {w : Bytes} : c.state = .trailerLf →
      Collects c x lines (w ++ [cr]) → w ≠ [] → cr ∉ w → InTrailers x c
  | between {c : Chunked} {x : Bytes} {lines : List Bytes} : c.state = .endCr → Collects c x lines [] → lines ≠ [] →
      InTrailers x c
  | stop {c : Chunked} {x : Bytes} {lines : List Bytes} : c.state = .endLf → Collects c x lines [cr] → lines ≠ [] →
      InTrailers x c

/-- The section has ended. -/
def EndsTrailers (x : Bytes) (c : Chunked) : Prop :=
  c.trailersBuf = none ∨ ∃ lines, Collects c x lines crlf ∧ lines ≠ []

section Collect

variable {c c' : Chunked} {x : Bytes} {b : UInt8} {st : ChunkedState} {lines : List Bytes} {w : Bytes}

theorem putU8_to {buf : Bytes} {next : ChunkedState} (h : c.putU8 buf b next = (.to st, c')) :
    st = next ∧ c' = { c with trailersBuf := some (buf ++ [b]) } := by
  unfold Chunked.putU8 at h
  simp only at h
  split at h
  · cases h
  · cases h
    exact ⟨rfl, rfl⟩

theorem Collects.push (h : Collects c x lines w) (b : UInt8) (st : ChunkedState) :
    Collects { c with trailersBuf := some (x ++ [b]), state := st } (x ++ [b]) lines (w ++ [b]) :=
  ⟨rfl, by rw [h.bytes, append_assoc], h.lines_ok, h.count⟩

theorem Collects.pushLine (h : Collects c x lines (w ++ [cr])) (hw : w ≠ []) (hcr : cr ∉ w) (st : ChunkedState) :
    Collects { c with trailersCnt := c.trailersCnt + 1, trailersBuf := some (x ++ [lf]), state := st } (x ++ [lf])
      (lines ++ [w]) [] where
  buffered := rfl
  bytes := by
    rw [h.bytes, linesBytes_concat]
    simp [crlf, cr, lf]
  lines_ok := forall_mem_append.2 ⟨h.lines_ok, forall_mem_singleton.2 ⟨hw, hcr⟩⟩
  count := by rw [length_append, length_singleton, ← h.count]

section

variable (hb : c.trailersBuf = some x)

include hb

theorem readTrailer_to (h : c.readTrailer b = (.to st, c')) :
    st = (if b = cr then .trailerLf else .trailer) ∧ c' = { c with trailersBuf := some (x ++ [b]) } := by
  unfold Chunked.readTrailer at h
  rw [hb] at h
  exact putU8_to h

theorem readTrailerLf_to (h : c.readTrailerLf b = (.to st, c')) :
    b = lf ∧ st = .endCr ∧ c' = { c with trailersCnt := c.trailersCnt + 1, trailersBuf := some (x ++ [b]) } := by
  unfold Chunked.readTrailerLf at h
  split at h
  · split at h
    · cases h
    · simp only [hb] at h
      obtain ⟨rfl, rfl⟩ := putU8_to h
      exact ⟨‹_›, rfl, rfl⟩
  · cases h

theorem readEndCr_to (h : c.readEndCr b = (.to st, c')) :
    st = (if b = cr then .endLf else .trailer) ∧ c' = { c with trailersBuf := some (x ++ [b]) } := by
  unfold Chunked.readEndCr at h
  simp only [hb] at h
  exact putU8_to h

theorem readEndLf_to (h : c.readEndLf b = (.to st, c')) :
    b = lf ∧ st = .ended ∧ c' = { c with trailersBuf := some (x ++ [b]) } := by
  unfold Chunked.readEndLf at h
  split at h
  · rw [hb] at h
    obtain ⟨rfl, rfl⟩ := putU8_to h
    exact ⟨‹_›, rfl, rfl⟩
  · cases h

end

/-- **A byte more** of the section, or its last one. -/
theorem InTrailers.step (h : InTrailers x c) (hs : c.onByte b = (.to st, c')) :
    st = .ended ∧ EndsTrailers (x ++ [b]) c' ∨ st ≠ .ended ∧ InTrailers (x ++ [b]) { c' with state := st } := by
  unfold Chunked.onByte at hs
  cases h with
  | start hst hnone hcnt =>
    rw [hst] at hs
    unfold Chunked.readEndCr at hs
    simp only [hnone] at hs
    right
    by_cases hb : b = cr
    · subst hb
      cases hs
      exact ⟨by simp, .noTrailers rfl hnone⟩
    · rw [if_neg hb] at hs
      simp only [if_neg hb] at hs
      cases hs
      have hc : Collects { c with trailersBuf := some [b], state := .trailer } [b] [] [b] := ⟨rfl, rfl, by simp, hcnt⟩
      exact ⟨by simp, .line rfl hc (by simp) (by simpa using Ne.symm hb)⟩
  | noTrailers hst hnone =>
    rw [hst] at hs
    unfold Chunked.readEndLf at hs
    simp only [hnone] at hs
    split at hs
    · cases hs
      exact .inl ⟨rfl, .inl hnone⟩
    · cases hs
  | line hst hc hw hcr =>
    rw [hst] at hs
    obtain ⟨rfl, rfl⟩ := readTrailer_to hc.buffered hs
    right
    by_cases hb : b = cr
    · subst hb
      exact ⟨by simp, .lineLf rfl (hc.push cr _) hw hcr⟩
    · rw [if_neg hb]
      exact ⟨by simp, .line rfl (hc.push b _) (by simp) (by simp [hcr, Ne.symm hb])⟩
  | lineLf hst hc hw hcr =>
    rw [hst] at hs
    obtain ⟨rfl, rfl, rfl⟩ := readTrailerLf_to hc.buffered hs
    exact .inr ⟨by simp, .between rfl (hc.pushLine hw hcr _) (by simp)⟩
  | between hst hc hne =>
    rw [hst] at hs
    obtain ⟨rfl, rfl⟩ := readEndCr_to hc.buffered hs
    right
    by_cases hb : b = cr
    · subst hb
      exact ⟨by simp, .stop rfl (hc.push cr _) hne⟩
    · rw [if_neg hb]
      exact ⟨by simp, .line rfl (hc.push b _) (by simp) (by simpa using Ne.symm hb)⟩
  | stop hst hc hne =>
    rw [hst] at hs
    obtain ⟨rfl, rfl, rfl⟩ := readEndLf_to hc.buffered hs
    exact .inl ⟨rfl, .inr ⟨_, hc.push lf c.state, hne⟩⟩

theorem InTrailers.state_ne (h : InTrailers x c) : c.state ≠ .body ∧ c.state ≠ .ended := by
  cases h <;> simp_all

end Collect

/-! ## The frame -/

/-- A trailers frame with these fields comes from this section. -/
structure FromSection (hp : Httparse) (m : HeaderMap) (t : Bytes) (lines : List Bytes) : Prop where
  bytes : t = linesBytes lines ++ crlf
  lines_ok : ∀ l ∈ lines, l ≠ [] ∧ cr ∉ l
  lines_ne : lines ≠ []
  decoded : decodeTrailers hp t lines.length = some (.ok m)

variable {m : HeaderMap} {hp : Httparse}

theorem fromSection_of_finish {c : Chunked} {x : Bytes} (h : EndsTrailers x c) (hm : (c.finish hp).trailers = some m) :
    ∃ lines, FromSection hp m x lines := by
  unfold Chunked.finish at hm
  rcases h with hnone | ⟨lines, hc, hne⟩
  · rw [hnone] at hm
    cases hm
  · simp only [hc.buffered, hc.count] at hm
    rcases hd : decodeTrailers hp x lines.length with _ | (e | m') <;> rw [hd] at hm <;> cases hm
    exact ⟨lines, hc.bytes, hc.lines_ok, hne, hd⟩

theorem finish_data_used (hp : Httparse) (c : Chunked) : (c.finish hp).data = [] ∧ (c.finish hp).used = 1 := by
  unfold Chunked.finish
  split
  · exact ⟨rfl, rfl⟩
  · split <;> exact ⟨rfl, rfl⟩

theorem section_of_meaning (hp : Httparse) (y : Bytes) : ∀ {c : Chunked} {x : Bytes}, InTrailers x c →
    (c.meaning hp y).trailers = some m →
    ∃ t rest lines, y = t ++ rest ∧ (c.meaning hp y).data = [] ∧ (c.meaning hp y).used = t.length ∧
      FromSection hp m (x ++ t) lines := by
  induction y with
  | nil =>
    intro c x h hm
    unfold Chunked.meaning at hm
    split at hm <;> cases hm
  | cons b y ih =>
    intro c x h hm
    obtain ⟨hbody, hended⟩ := h.state_ne
    rcases hb : c.onByte b with ⟨st | e | _, c'⟩
    · rcases h.step hb with ⟨rfl, hends⟩ | ⟨hst, hin⟩
      · rw [Chunked.meaning_end hp y hb hbody hended] at hm ⊢
        obtain ⟨lines, hfrom⟩ := fromSection_of_finish hends hm
        obtain ⟨hdata, hused⟩ := finish_data_used hp c'
        exact ⟨[b], y, lines, rfl, hdata, hused, hfrom⟩
      · rw [Chunked.meaning_to hp y hb hbody hended hst] at hm ⊢
        obtain ⟨t, rest, lines, rfl, hdata, hused, hfrom⟩ := ih hin hm
        refine ⟨b :: t, rest, lines, rfl, hdata, ?_, ?_⟩
        · rw [Decoded.after, hused, length_cons, add_comm]
        · rwa [append_assoc, singleton_append] at hfrom
    · rw [Chunked.meaning_cons hp y hbody hended, hb] at hm
      cases hm
    · rw [Chunked.meaning_cons hp y hbody hended, hb] at hm
      cases hm

theorem Progress.inTrailers {H B : Option ℕ} {x o : Bytes} {c : Chunked} (h : Progress H B x o c)
    (hd : dataPart.done c = true) : InTrailers [] c := by
  obtain ⟨chunks, w, d, -, -, hw, -⟩ := h
  obtain ⟨l, -, -, -, rfl⟩ := hw.last_of_done hd
  exact .start rfl rfl rfl

/-- **Where a trailers frame comes from**: a data part, and the section behind it. -/
theorem exists_section (hp : Httparse) (H B : Option ℕ) {s : Bytes}
    (hm : ((Chunked.new H B).meaning hp s).trailers = some m) :
    ∃ x t rest lines, s = x ++ t ++ rest ∧ InGrammar x ((Chunked.new H B).meaning hp s).data ∧
      ((Chunked.new H B).meaning hp s).used = (x ++ t).length ∧ FromSection hp m t lines := by
  rcases (recognizes H B).scan s with ⟨x, y, c, rfl, hL, -, -⟩ | ⟨c, -, hr, -, -, -⟩ |
    ⟨x, b, y, c, out, rfl, -, -, hr, hs, -, -⟩
  · obtain ⟨c', hr, hd⟩ := (recognizes H B).complete hL
    rw [meaning_of_reaches hp hr] at hm ⊢
    have hin := (progress_of_reaches hr).inTrailers hd
    obtain ⟨t, rest, lines, rfl, hdata, hused, hfrom⟩ := section_of_meaning hp y hin hm
    refine ⟨x, t, rest, lines, (append_assoc _ _ _).symm, ?_, ?_, hfrom⟩
    · rw [Decoded.after, hdata, append_nil]
      exact hL
    · rw [Decoded.after, hused, length_append]
  · obtain ⟨e, -, hnil⟩ := meaning_nil_of_progress hp (progress_of_reaches hr)
    have hall := meaning_of_reaches hp hr []
    rw [append_nil] at hall
    rw [hall, hnil] at hm
    cases hm
  · obtain ⟨_, _, _, -, -, hw, hinv⟩ := progress_of_reaches hr
    obtain ⟨e, c', rfl, hb, hbyte, -⟩ := dataPartStep_error hinv hw.state_ne hs
    rw [meaning_of_reaches hp hr, Chunked.meaning_cons hp y hb hw.state_ne, hbyte] at hm
    cases hm

/-! ## The lines of the parser -/

/-- Lines that end at LF. -/
def lfLinesBytes (lines : List Bytes) : Bytes := lines.flatMap (· ++ [lf])

/-- **What the parser is taken to do** when it finds the fields: it takes lines that end at LF, with or without a CR
before it, one field for each, no more than there is room for, and stops behind the first empty one. -/
structure Httparse.StopsAtEmptyLine (hp : Httparse) : Prop where
  complete : ∀ {buf : Bytes} {n k : ℕ} {headers : List (Bytes × Bytes)},
    hp.parseHeaders buf n = .ok (.complete (k, headers)) →
    ∃ lines stop rest, buf = lfLinesBytes lines ++ stop ++ rest ∧ k = (lfLinesBytes lines ++ stop).length ∧
      (stop = [lf] ∨ stop = crlf) ∧ headers.length = lines.length ∧ headers.length ≤ n ∧
      ∀ l ∈ lines, lf ∉ l ∧ l ≠ [] ∧ l ≠ [cr]

theorem linesBytes_cons_append (w : Bytes) (lines : List Bytes) (z : Bytes) :
    linesBytes (w :: lines) ++ z = (w ++ [cr]) ++ lf :: (linesBytes lines ++ z) := by
  simp [linesBytes, crlf, cr, lf]

theorem lfLinesBytes_cons_append (l : Bytes) (lines : List Bytes) (z : Bytes) :
    lfLinesBytes (l :: lines) ++ z = l ++ lf :: (lfLinesBytes lines ++ z) := by
  simp [lfLinesBytes]

/-- Without a bare LF, both see the same lines. -/
theorem lfLines_eq {stop rest : Bytes} (hstop : stop = [lf] ∨ stop = crlf) (lines : List Bytes) : ∀ ls : List Bytes,
    (∀ l ∈ ls, lf ∉ l ∧ l ≠ [] ∧ l ≠ [cr]) → (∀ l ∈ lines, l ≠ [] ∧ lf ∉ l) →
    lfLinesBytes ls ++ (stop ++ rest) = linesBytes lines ++ crlf → rest = [] ∧ ls.length = lines.length := by
  have hone : lf ∉ [cr] := by decide
  induction lines with
  | nil =>
    intro ls hls _ h
    have h : lfLinesBytes ls ++ (stop ++ rest) = [cr] ++ lf :: [] := h
    cases ls with
    | nil =>
      rcases hstop with rfl | rfl
      · cases (append_sep_inj (a := []) not_mem_nil hone h).1
      · exact ⟨(append_sep_inj hone hone h).2, rfl⟩
    | cons l ls =>
      obtain ⟨hlf, -, hne⟩ := hls l mem_cons_self
      rw [lfLinesBytes_cons_append] at h
      exact absurd (append_sep_inj hlf hone h).1 hne
  | cons w lines ih =>
    intro ls hls hlines h
    obtain ⟨hw, hwlf⟩ := hlines w mem_cons_self
    have hwcr : lf ∉ w ++ [cr] := by simp [hwlf, hone]
    rw [linesBytes_cons_append] at h
    cases ls with
    | nil =>
      rcases hstop with rfl | rfl
      · exact absurd (append_sep_inj (a := []) not_mem_nil hwcr h).1 (by simp)
      · exact absurd (append_sep_inj hone hwcr h).1 (by simp [hw])
    | cons l ls =>
      obtain ⟨hlf, -, -⟩ := hls l mem_cons_self
      rw [lfLinesBytes_cons_append] at h
      obtain ⟨hrest, hlen⟩ := ih ls (fun l hl => hls l (mem_cons_of_mem _ hl))
        (fun l hl => hlines l (mem_cons_of_mem _ hl)) (append_sep_inj hlf hwcr h).2
      exact ⟨hrest, by rw [length_cons, length_cons, hlen]⟩

theorem count_lfLinesBytes {ls : List Bytes} (h : ∀ l ∈ ls, lf ∉ l) : (lfLinesBytes ls).count lf = ls.length := by
  induction ls with
  | nil => rfl
  | cons l ls ih =>
    have hl := count_eq_zero.2 (h l mem_cons_self)
    have hls := ih fun x hx => h x (mem_cons_of_mem _ hx)
    rw [← append_nil (lfLinesBytes (l :: ls)), lfLinesBytes_cons_append, append_nil, count_append,
      count_cons_self, hl, hls, length_cons, zero_add]

/-- Lines that end at CRLF have one for each line, and those inside them. -/
theorem lf_notMem_of_count {lines : List Bytes} : (linesBytes lines).count lf ≤ lines.length → ∀ l ∈ lines, lf ∉ l := by
  have hle : ∀ ls : List Bytes, ls.length ≤ (linesBytes ls).count lf := by
    intro ls
    induction ls with
    | nil => exact Nat.zero_le _
    | cons l ls ih =>
      rw [← append_nil (linesBytes (l :: ls)), linesBytes_cons_append, append_nil, count_append,
        count_cons_self, length_cons]
      omega
  induction lines with
  | nil => intro _ l hl; cases hl
  | cons w lines ih =>
    intro h l hl
    rw [← append_nil (linesBytes (w :: lines)), linesBytes_cons_append, append_nil, count_append,
      count_cons_self, count_append, length_cons] at h
    have hrest := hle lines
    rcases mem_cons.1 hl with rfl | hl
    · exact count_eq_zero.1 (by omega)
    · exact ih (by omega) l hl

/-- **All of the section is parsed if and only if no line has a bare LF in it.** -/
theorem parsed_iff (hstops : hp.StopsAtEmptyLine) {t : Bytes} {lines : List Bytes} {k : ℕ}
    {headers : List (Bytes × Bytes)} (ht : t = linesBytes lines ++ crlf) (hok : ∀ l ∈ lines, l ≠ [] ∧ cr ∉ l)
    (h : hp.parseHeaders t lines.length = .ok (.complete (k, headers))) :
    k = t.length ∧ headers.length = lines.length ↔ ∀ l ∈ lines, lf ∉ l := by
  obtain ⟨ls, stop, rest, hbuf, rfl, hstop, hlen, hroom, hls⟩ := hstops.complete h
  rw [ht, append_assoc] at hbuf
  constructor
  · rintro ⟨hk, -⟩
    -- the parser has used all line feeds, and had room for no more lines
    have hcount := congrArg (List.count lf) hbuf
    have hls' := count_lfLinesBytes fun l hl => (hls l hl).1
    have hlength := congrArg List.length hbuf
    rw [ht] at hk
    simp only [length_append] at hlength hk
    obtain rfl : rest = [] := length_eq_zero_iff.1 (by omega)
    have hstop1 : stop.count lf = 1 := by rcases hstop with rfl | rfl <;> decide
    have hcrlf1 : crlf.count lf = 1 := by decide
    rw [append_nil, count_append, count_append, hls', hstop1, hcrlf1] at hcount
    exact lf_notMem_of_count (by omega)
  · intro hno
    obtain ⟨rfl, hlines⟩ := lfLines_eq hstop lines ls hls (fun l hl => ⟨(hok l hl).1, hno l hl⟩) hbuf.symm
    refine ⟨?_, hlen.trans hlines⟩
    rw [ht, hbuf, append_nil]

/-! ## A parser of lines -/

/-- A field with its name before the colon. -/
def fieldOfLine (line : Bytes) : Option (Bytes × Bytes) :=
  let line := if line.getLast? = some cr then line.dropLast else line
  match line.dropWhile (· ≠ 58) with
  | [] => none
  | _ :: value => some (line.takeWhile (· ≠ 58), trim value)

/-- The fields of the lines up to the first empty one, if there is room for them. The last piece has no LF behind it. -/
def parseLines : List Bytes → ℕ → Except HttparseError (Status (ℕ × List (Bytes × Bytes)))
  | [], _ => .ok .incomplete
  | [_], _ => .ok .incomplete
  | line :: next :: rest, n =>
    if line = [] ∨ line = [cr] then .ok (.complete (line.length + 1, []))
    else
      match n, fieldOfLine line with
      | 0, _ => .error .tooManyHeaders
      | _, none => .error .headerName
      | n + 1, some f =>
        match parseLines (next :: rest) n with
        | .ok (.complete (k, fields)) => .ok (.complete (line.length + 1 + k, f :: fields))
        | r => r

/-- A parser that finds nothing but header lines. -/
def trailerParser : Httparse where
  parseHeaders := fun buf n => parseLines (buf.splitOn lf) n
  parseResponse := fun _ _ _ => .ok .incomplete
  canonicalReason := fun _ => none

theorem parseLines_complete {first : Bytes} {pieces : List Bytes} : ∀ {n k : ℕ} {headers : List (Bytes × Bytes)},
    (∀ l ∈ first :: pieces, lf ∉ l) → parseLines (first :: pieces) n = .ok (.complete (k, headers)) →
    ∃ lines stop rest, first ++ pieces.flatMap (lf :: ·) = lfLinesBytes lines ++ stop ++ rest ∧
      k = (lfLinesBytes lines ++ stop).length ∧ (stop = [lf] ∨ stop = crlf) ∧ headers.length = lines.length ∧
      headers.length ≤ n ∧ ∀ l ∈ lines, lf ∉ l ∧ l ≠ [] ∧ l ≠ [cr] := by
  induction pieces generalizing first with
  | nil => intro n k headers _ h; cases h
  | cons next pieces ih =>
    intro n k headers hlf h
    unfold parseLines at h
    split at h
    · rename_i hempty
      cases h
      rcases hempty with rfl | rfl
      · exact ⟨[], [lf], next ++ pieces.flatMap (lf :: ·), rfl, rfl, .inl rfl, rfl, Nat.zero_le n, by simp⟩
      · exact ⟨[], crlf, next ++ pieces.flatMap (lf :: ·), rfl, rfl, .inr rfl, rfl, Nat.zero_le n, by simp⟩
    · rename_i hne
      rw [not_or] at hne
      split at h
      · cases h
      · cases h
      · rename_i n f hf
        split at h
        · rename_i k' fields hrest
          cases h
          obtain ⟨lines, stop, rest, hjoin, rfl, hstop, hlen, hroom, hlines⟩ :=
            ih (fun l hl => hlf l (mem_cons_of_mem _ hl)) hrest
          refine ⟨first :: lines, stop, rest, ?_, ?_, hstop, ?_, Nat.succ_le_succ hroom, ?_⟩
          · rw [append_assoc, lfLinesBytes_cons_append, ← append_assoc, ← hjoin]
            rfl
          · rw [lfLinesBytes_cons_append]
            simp only [length_append, length_cons]
            omega
          · rw [length_cons, length_cons, hlen]
          · exact forall_mem_cons.2 ⟨⟨hlf first mem_cons_self, hne⟩, hlines⟩
        · rename_i hno
          exact absurd h (hno k headers)

theorem trailerParser_stops : trailerParser.StopsAtEmptyLine where
  complete {buf n k headers} h := by
    obtain ⟨first, pieces, hsplit, hjoin⟩ := List.exists_splitOn lf buf
    have h : parseLines (buf.splitOn lf) n = .ok (.complete (k, headers)) := h
    have hlf : ∀ l ∈ first :: pieces, lf ∉ l := fun l hl => List.notMem_of_mem_splitOn (hsplit ▸ hl)
    rw [hsplit] at h
    rw [hjoin]
    exact parseLines_complete hlf h

theorem trailerParser_holds {n : ℕ} (hn : n ≤ HeaderMap.maxNames) : trailerParser.Holds n where
  slots h := by
    obtain ⟨lines, stop, rest, -, -, -, -, hroom, -⟩ := trailerParser_stops.complete h
    exact hroom
  takes m hm := decide_eq_false (by omega)

/-- A decoder that admits as many trailers as a map has names. -/
theorem chunked_bounded_lines :
    trailerParser.Holds 24576 ∧ ∀ c, Reachable (Buffered Bytes) trailerParser (some 24576) none c →
      ∀ (fuel : ℕ) (io : Buffered Bytes), (Decoder.decode trailerParser fuel (.chunked c) io).1 ≠ .panicked := by
  have hholds : trailerParser.Holds 24576 := trailerParser_holds le_rfl
  refine ⟨hholds, fun c hc fuel io => ?_⟩
  obtain ⟨-, -, -, -, -, hcall⟩ := (chunked_bounded Bytes trailerParser (some 24576) none).1 c hc
  obtain ⟨p, c', io', hdecode, hanswers, -, -⟩ := hcall fuel io
  rw [hdecode]
  exact hanswers hholds

/-- The field is what the header reads. -/
def HeaderReads (h : Bytes × Bytes) (f : HeaderName × HeaderValue) : Prop :=
  HeaderName.fromBytes h.1 = some f.1 ∧ HeaderValue.fromBytes h.2 = some f.2

/-- The map has one field for each header, in their order. -/
def FieldsOf (headers : List (Bytes × Bytes)) (m : HeaderMap) : Prop :=
  ∃ fields, Forall₂ HeaderReads headers fields ∧ m = fields.foldl (fun m f => m.append f.1 f.2) .empty

theorem trailerFields_ok {headers : List (Bytes × Bytes)} : ∀ {m₀ : HeaderMap},
    trailerFields hp headers m₀ = some (.ok m) →
      ∃ fields, Forall₂ HeaderReads headers fields ∧ m = fields.foldl (fun m f => m.append f.1 f.2) m₀ := by
  induction headers with
  | nil => intro m₀ h; cases h; exact ⟨[], .nil, rfl⟩
  | cons header headers ih =>
    intro m₀ h
    obtain ⟨name, value⟩ := header
    unfold trailerFields at h
    split at h
    · cases h
    · rename_i n hn
      split at h
      · cases h
      · rename_i v hv
        split at h
        · cases h
        obtain ⟨fields, hall, hm⟩ := ih h
        exact ⟨(n, v) :: fields, .cons ⟨hn, hv⟩ hall, hm⟩

theorem decodeTrailers_ok {t : Bytes} {n : ℕ} (h : decodeTrailers hp t n = some (.ok m)) :
    ∃ k headers, hp.parseHeaders t n = .ok (.complete (k, headers)) ∧ FieldsOf headers m := by
  unfold decodeTrailers at h
  split at h
  · rename_i k headers hparse
    exact ⟨k, headers, hparse, trailerFields_ok h⟩
  · cases h
  · cases h

/-- **Trailers are parsed completely, unless a line has a bare LF in it.** Over any reads, a trailers frame comes from a
section of lines that end at CRLF, behind a data part. The parser consumes the whole section and finds one field for
each line if and only if no line has an LF in it; the frame has the fields that the parser finds. -/
theorem trailers_complete (β : Type) [LawfulBuf β] (hp : Httparse) (hstops : hp.StopsAtEmptyLine)
    (h1MaxHeaders h1MaxHeaderSize : Option ℕ) (s : Bytes) :
    let d := Decoder.new .chunked h1MaxHeaders h1MaxHeaderSize
    let v := d.meaning hp s
    Decodes β hp d s v ∧ ∀ m, v.trailers = some m →
      ∃ x t rest lines k headers, s = x ++ t ++ rest ∧ InGrammar x v.data ∧ v.used = (x ++ t).length ∧
        t = linesBytes lines ++ crlf ∧ lines ≠ [] ∧ (∀ l ∈ lines, l ≠ [] ∧ cr ∉ l) ∧
        hp.parseHeaders t lines.length = .ok (.complete (k, headers)) ∧ FieldsOf headers m ∧
        (k = t.length ∧ headers.length = lines.length ↔ ∀ l ∈ lines, lf ∉ l) := by
  intro d v
  refine ⟨decodes_meaning hp (Decoder.new_wf .chunked h1MaxHeaders h1MaxHeaderSize) s, fun m hm => ?_⟩
  obtain ⟨x, t, rest, lines, hs, hgrammar, hused, hfrom⟩ := exists_section hp h1MaxHeaders h1MaxHeaderSize hm
  obtain ⟨k, headers, hparse, hfields⟩ := decodeTrailers_ok hfrom.decoded
  exact ⟨x, t, rest, lines, k, headers, hs, hgrammar, hused, hfrom.bytes, hfrom.lines_ne, hfrom.lines_ok, hparse,
    hfields, parsed_iff hstops hfrom.bytes hfrom.lines_ok hparse⟩

/-- Two trailers, each of which ends at CRLF. -/
def twoTrailers : Bytes := ascii "0\r\na: b\r\nc: d\r\n\r\n"

theorem trailers_complete_two :
    trailerParser.StopsAtEmptyLine ∧
    ∃ m, ((Decoder.new .chunked none none).meaning trailerParser twoTrailers).trailers = some m ∧
      ∃ x t rest lines k headers, twoTrailers = x ++ t ++ rest ∧ t = linesBytes lines ++ crlf ∧
        trailerParser.parseHeaders t lines.length = .ok (.complete (k, headers)) ∧ FieldsOf headers m ∧
        (k = t.length ∧ headers.length = lines.length ↔ ∀ l ∈ lines, lf ∉ l) := by
  have hsome : ((Decoder.new .chunked none none).meaning trailerParser twoTrailers).trailers.isSome = true := by
    decide +kernel
  obtain ⟨m, hm⟩ := Option.isSome_iff_exists.1 hsome
  obtain ⟨x, t, rest, lines, k, headers, hs, -, -, ht, -, -, hparse, hfields, hiff⟩ :=
    (trailers_complete Bytes trailerParser trailerParser_stops none none twoTrailers).2 m hm
  exact ⟨trailerParser_stops, m, hm, x, t, rest, lines, k, headers, hs, ht, hparse, hfields, hiff⟩

/-- Two lines that end at CRLF. The first has bare LFs in it. -/
def bareLfLines : List Bytes := [ascii "a: b\n\nc: d", ascii "e: f"]

def firstField : HeaderMap := HeaderMap.empty.append ⟨ascii "a", by decide⟩ ⟨ascii "b", by decide⟩

/-- **A bare LF drops lines.** The decoder counts two lines and returns a trailers frame with the field `a` alone: the
parser has stopped behind six bytes. -/
theorem bare_lf_drops_lines :
    trailerParser.StopsAtEmptyLine ∧
    trailerParser.parseHeaders (linesBytes bareLfLines ++ crlf) bareLfLines.length =
      .ok (.complete (6, [(ascii "a", ascii "b")])) ∧
    (linesBytes bareLfLines ++ crlf).length = 20 ∧
    (Decoder.decode trailerParser 100 (.new .chunked none none) (ascii "0\r\n" ++ linesBytes bareLfLines ++ crlf)).1 =
      .ready (.ok (.trailers firstField)) :=
  ⟨trailerParser_stops, by decide +kernel, by decide +kernel, by decide +kernel⟩

end Netty
