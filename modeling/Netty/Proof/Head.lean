import Netty.Spec.Head
import Netty.Proof.Fragment
import Netty.Proof.Wire

/-!
# Head parsing does not depend on fragmentation

A stream of interim heads, a final head and whatever follows is read by calling
`Buffered::parse` until it answers.

* `IsHead`: what the parser library promises about a head.
* `headOutcome`: what such a stream is read as, without regard to reads.
* `scanEnd_iff`, `fast_scan_full`: what the scan for the end of a head sees, and that the fast one sees it too.
* `parseHeaders_ok`: one attempt at parsing what has arrived.
* `parse_unfragmented`: every way to deliver the stream has that outcome.
-/

namespace Netty

open List

/-! ## Streams of heads -/

/-- The parser library completes the head `h` at its end whatever follows, and not
before, and the head ends in an empty line. -/
structure IsHead (hp : Httparse) (ctx : ParseContext) (h : Bytes) (raw : RawResponse) : Prop where
  complete : ∀ t, hp.parseResponse ctx.h1ParserConfig (h ++ t) (ctx.h1MaxHeaders.getD defaultMaxHeaders) =
    .ok (.complete raw)
  short : ∀ j, 0 < j → j < h.length →
    hp.parseResponse ctx.h1ParserConfig (h.take j) (ctx.h1MaxHeaders.getD defaultMaxHeaders) = .ok .incomplete
  len : raw.len = h.length
  ends : (∃ p, h = p ++ [10, 10]) ∨ ∃ p, h = p ++ [10, 13, 10]

/-- `h` is a head that is read as `x`, its size apart. -/
def ReadsAs (hp : Httparse) (ctx : ParseContext) (cached : Option HeaderMap) (h : Bytes) (x : ResponseHead × Bool) :
    Prop :=
  ∃ raw head, IsHead hp ctx h raw ∧ Client.checkHead hp { ctx with h1MaxHeaderSize := none } raw = .ok head ∧
    Client.readHead ctx h head cached = some (.ok x)

/-- Interim heads with what they are read as, then the head of `msg`. The first head
is read into the cached map. -/
inductive Heads (hp : Httparse) (ctx : ParseContext) :
    Option HeaderMap → List (Bytes × ResponseHead) → Bytes → ParsedMessage → Prop
  | final {c f x decode up} (reads : ReadsAs hp ctx c f x)
      (body : Client.decoder x.1 ctx.reqMethod = .ok (some (decode, up))) :
      Heads hp ctx c [] f ⟨x.1, decode, false, x.2 && !up, up⟩
  | interim {c h x is f msg} (reads : ReadsAs hp ctx c h x) (status : x.1.subject.code < 200 ∧ x.1.subject.code ≠ 101)
      (rest : Heads hp ctx none is f msg) : Heads hp ctx c ((h, x.1) :: is) f msg

/-- The head is not over the configured size. -/
def Fits (ctx : ParseContext) (h : Bytes) : Prop := ctx.h1MaxHeaderSize.all (h.length ≤ ·) = true

instance (ctx : ParseContext) (h : Bytes) : Decidable (Fits ctx h) := by unfold Fits; infer_instance

def noted (ctx : ParseContext) (head : ResponseHead) : List ResponseHead :=
  if ctx.onInformational then [head] else []

/-- The answer to a stream of heads, the calls of the callback, and the unread rest. -/
structure HeadOutcome where
  result : Except Error ParsedMessage
  informed : List ResponseHead
  left : Bytes

def HeadOutcome.after (inf : List ResponseHead) (o : HeadOutcome) : HeadOutcome :=
  { o with informed := inf ++ o.informed }

def bytesOf (is : List (Bytes × ResponseHead)) (f : Bytes) : Bytes := is.flatMap Prod.fst ++ f

def nextOf : List (Bytes × ResponseHead) → Bytes → Bytes
  | [], f => f
  | i :: _, _ => i.1

/-- **What a stream of heads is read as**: the interim heads are given to the callback
in order, then the message is returned. The first head over the size ends it. -/
def headOutcome (ctx : ParseContext) (f : Bytes) (msg : ParsedMessage) (rest : Bytes) :
    List (Bytes × ResponseHead) → HeadOutcome
  | [] => if Fits ctx f then ⟨.ok msg, [], rest⟩ else ⟨.error .newTooLarge, [], f ++ rest⟩
  | i :: is =>
    if Fits ctx i.1 then (headOutcome ctx f msg rest is).after (noted ctx i.2)
    else ⟨.error .newTooLarge, [], bytesOf (i :: is) f ++ rest⟩

section

variable {hp : Httparse} {ctx : ParseContext} {c : Option HeaderMap} {is : List (Bytes × ResponseHead)}
  {f h rest : Bytes} {msg : ParsedMessage} {x : ResponseHead × Bool}

theorem HeadOutcome.after_after (a b : List ResponseHead) (o : HeadOutcome) :
    (o.after b).after a = o.after (a ++ b) := by
  simp [HeadOutcome.after]

theorem headOutcome_of_not_fits (is : List (Bytes × ResponseHead)) (hf : ¬ Fits ctx (nextOf is f)) :
    headOutcome ctx f msg rest is = ⟨.error .newTooLarge, [], bytesOf is f ++ rest⟩ := by
  cases is with
  | nil => exact if_neg hf
  | cons i is => exact if_neg hf

theorem bytesOf_eq (is : List (Bytes × ResponseHead)) (f : Bytes) : ∃ t, bytesOf is f = nextOf is f ++ t := by
  cases is with
  | nil => exact ⟨[], by simp [bytesOf, nextOf]⟩
  | cons i is => exact ⟨bytesOf is f, by simp [bytesOf, nextOf]⟩

theorem ReadsAs.length_pos (hr : ReadsAs hp ctx c h x) : 0 < h.length := by
  obtain ⟨raw, head, hh, -, -⟩ := hr
  rcases hh.ends with ⟨p, rfl⟩ | ⟨p, rfl⟩ <;> simp

theorem Heads.readsAs_next (hh : Heads hp ctx c is f msg) : ∃ x, ReadsAs hp ctx c (nextOf is f) x := by
  cases hh with
  | final reads _ => exact ⟨_, reads⟩
  | interim reads _ _ => exact ⟨_, reads⟩

/-! ## The end of a head is seen -/

/-- The end of a line and an empty line, with or without carriage returns. -/
def Terminated (s : Bytes) : Prop := [10, 10] <:+: s ∨ [10, 13, 10] <:+: s

theorem endsHere_iff (b : UInt8) (rest : Bytes) : endsHere b rest = true ↔
    b = cr ∧ [10, 13, 10] <+: rest ∨ [10, 10] <+: b :: rest ∨ [10, 13, 10] <+: b :: rest := by
  have htake : ∀ e : Bytes, rest.take e.length = e ↔ e <+: rest := fun e => by
    rw [prefix_iff_eq_take, eq_comm]
  have h2 : rest.take 2 = [13, 10] ↔ [13, 10] <+: rest := htake [13, 10]
  have h3 : rest.take 3 = [10, 13, 10] ↔ [10, 13, 10] <+: rest := htake [10, 13, 10]
  have h1 : rest.head? = some 10 ↔ [10] <+: rest := by
    cases rest with
    | nil => simp
    | cons a rest => simp [prefix_cons_iff, eq_comm]
  have hlf : 10 = b ↔ b = lf := eq_comm
  simp only [endsHere, h1, h2, h3, cons_prefix_cons, hlf]
  by_cases hb : b = cr
  · simp [hb, cr, lf]
  · simp [hb, and_or_left]

/-- **The scan from the start sees every end.** -/
theorem scanEnd_iff (s : Bytes) : scanEnd s = true ↔ Terminated s := by
  induction s with
  | nil => simp [scanEnd, Terminated]
  | cons b rest ih =>
    rw [scanEnd, Bool.or_eq_true, endsHere_iff, ih]
    unfold Terminated
    rw [infix_cons_iff, infix_cons_iff]
    constructor
    · rintro ((⟨-, h⟩ | h | h) | h | h)
      · exact .inr (.inr h.isInfix)
      · exact .inl (.inl h)
      · exact .inr (.inl h)
      · exact .inl (.inr h)
      · exact .inr (.inr h)
    · rintro ((h | h) | h | h)
      · exact .inl (.inr (.inl h))
      · exact .inr (.inl h)
      · exact .inl (.inr (.inr h))
      · exact .inr (.inr h)

/-- **The fast scan sees an end that was not there**, as it starts three bytes before. -/
theorem scanEnd_drop {e p : Bytes} (he : e = [10, 10] ∨ e = [10, 13, 10]) (q : Bytes) {n : ℕ}
    (hn : n < (p ++ e).length) : scanEnd ((p ++ e ++ q).drop (n - 3)) = true := by
  have hlen : e.length ≤ 3 := by rcases he with rfl | rfl <;> decide
  rw [length_append] at hn
  rw [append_assoc, drop_append_of_le_length (by omega), scanEnd_iff]
  have hin : e <:+: p.drop (n - 3) ++ (e ++ q) := ⟨p.drop (n - 3), q, append_assoc ..⟩
  rcases he with rfl | rfl
  · exact .inl hin
  · exact .inr hin

theorem scanEnd_of_isHead {raw : RawResponse} (hh : IsHead hp ctx h raw) (t : Bytes) {p : ℕ} (hp' : p < h.length) :
    scanEnd ((h ++ t).drop (p - 3)) = true := by
  rcases hh.ends with ⟨q, rfl⟩ | ⟨q, rfl⟩
  · exact scanEnd_drop (.inl rfl) t hp'
  · exact scanEnd_drop (.inr rfl) t hp'

/-- **The fast scan is as good as a full one**: behind bytes that hold no end it finds one if and only if there is one,
and then the parser is called as without it. -/
theorem fast_scan_full {s : Bytes} {n : ℕ} (hn : n ≤ s.length) (hno : ¬Terminated (s.take n)) :
    (∃ found, isCompleteFast s n = some found ∧ (found = true ↔ Terminated s)) ∧
      ∀ hp ctx c inf, Terminated s → parseHeaders hp (some n) ctx ⟨s, c, inf⟩ = parseHeaders hp none ctx ⟨s, c, inf⟩ := by
  have hfast : isCompleteFast s n = some (scanEnd (s.drop (n - 3))) := if_neg (by omega)
  -- an end that stands in all of it does not stand in the first bytes
  have hlate : ∀ e : Bytes, (e = [10, 10] ∨ e = [10, 13, 10]) → e <:+: s → scanEnd (s.drop (n - 3)) = true := by
    rintro e he ⟨p, q, rfl⟩
    refine scanEnd_drop he q (lt_of_not_ge fun hle => hno ?_)
    have hin : e <:+: (p ++ e ++ q).take n := by
      rw [take_append, take_of_length_le hle]
      exact ⟨p, _, rfl⟩
    rcases he with rfl | rfl
    · exact .inl hin
    · exact .inr hin
  have hiff : scanEnd (s.drop (n - 3)) = true ↔ Terminated s := by
    constructor
    · intro h
      have hsuf := (s.drop_suffix (n - 3)).isInfix
      exact ((scanEnd_iff _).1 h).imp (·.trans hsuf) (·.trans hsuf)
    · rintro (h | h)
      · exact hlate _ (.inl rfl) h
      · exact hlate _ (.inr rfl) h
  refine ⟨⟨_, hfast, hiff⟩, fun hp ctx c inf h => ?_⟩
  unfold parseHeaders
  rw [Option.map_some, hfast, hiff.2 h]
  rfl

/-- `CR LF` has arrived, and the empty line comes after it. -/
theorem fast_scan_full_split : Terminated [65, 13, 10, 13, 10] ∧ isCompleteFast [65, 13, 10, 13, 10] 3 = some true := by
  have hno : ¬Terminated ([65, 13, 10, 13, 10].take 3) := by
    rw [← scanEnd_iff]
    decide
  obtain ⟨⟨found, hf, hiff⟩, -⟩ := fast_scan_full (s := [65, 13, 10, 13, 10]) (n := 3) (by decide) hno
  have h : Terminated [65, 13, 10, 13, 10] := .inr ⟨[65, 13], [], rfl⟩
  exact ⟨h, by rw [hf, hiff.2 h]⟩

/-! ## One attempt at parsing -/

theorem checkHead_eq (hp : Httparse) (ctx : ParseContext) (r : RawResponse) :
    Client.checkHead hp ctx r = if ctx.h1MaxHeaderSize.any (· < r.len) then .error .tooLarge
      else Client.checkHead hp { ctx with h1MaxHeaderSize := none } r := by
  unfold Client.checkHead
  simp

theorem checkHead_len {r : RawResponse} {head : RawHead} (h : Client.checkHead hp ctx r = .ok head) :
    head.len = r.len := by
  unfold Client.checkHead at h
  split at h
  · cases h
  · split at h
    · cases h
    · split at h
      · cases h
      · obtain rfl := Except.ok.inj h
        rfl

theorem fits_iff {raw : RawResponse} (hlen : raw.len = h.length) :
    Fits ctx h ↔ ctx.h1MaxHeaderSize.any (· < raw.len) = false := by
  unfold Fits
  cases ctx.h1MaxHeaderSize with
  | none => simp
  | some m => simp [hlen]

variable {buf more : Bytes}

theorem nextHead_short (hr : ReadsAs hp ctx c h x) {t : Bytes} (hbuf : buf ++ more = h ++ t) (hne : buf ≠ [])
    (hlt : buf.length < h.length) : Client.nextHead hp ctx buf = .ok none := by
  obtain ⟨raw, head, hh, -, -⟩ := hr
  have htake : buf = h.take buf.length := by
    have := congrArg (List.take buf.length) hbuf
    rwa [take_left, take_append_of_le_length (by omega)] at this
  unfold Client.nextHead
  rw [htake, hh.short _ (length_pos_iff.2 hne) hlt]

theorem nextHead_whole (hr : ReadsAs hp ctx c h x) (t : Bytes) :
    (Fits ctx h ∧ ∃ head, Client.nextHead hp ctx (h ++ t) = .ok (some head) ∧ head.len = h.length ∧
      Client.readHead ctx h head c = some (.ok x)) ∨
    (¬ Fits ctx h ∧ Client.nextHead hp ctx (h ++ t) = .error .tooLarge) := by
  obtain ⟨raw, head, hh, hcheck, hread⟩ := hr
  have hnext : Client.nextHead hp ctx (h ++ t) = (Client.checkHead hp ctx raw).map some := by
    unfold Client.nextHead
    rw [hh.complete t]
  rw [hnext, checkHead_eq]
  by_cases hf : Fits ctx h
  · refine .inl ⟨hf, head, ?_, (checkHead_len hcheck).trans hh.len, hread⟩
    rw [(fits_iff hh.len).1 hf, hcheck]
    rfl
  · refine .inr ⟨hf, ?_⟩
    rw [fits_iff hh.len, Bool.not_eq_false] at hf
    rw [hf]
    rfl

/-- What parsing makes of the bytes `buf₀` at the front of a stream of heads, of which
`more` has not arrived. -/
inductive HeadsRead (hp : Httparse) (ctx : ParseContext) (f : Bytes) (msg : ParsedMessage) (rest more buf₀ : Bytes)
    (is : List (Bytes × ResponseHead)) (inf : List ResponseHead) :
    Poll (Except Parse (Option ParsedMessage)) × Parsing → Prop
  /-- The message. -/
  | found {buf c inf'} (out : (headOutcome ctx f msg rest is).after inf = ⟨.ok msg, inf', rest⟩)
      (left : buf ++ more = rest) :
      HeadsRead hp ctx f msg rest more buf₀ is inf (.ready (.ok (some msg)), ⟨buf, c, inf'⟩)
  /-- Only a part of a head is left. -/
  | partway {post buf c inf'} (heads : Heads hp ctx c post f msg) (sub : post <:+ is)
      (out : (headOutcome ctx f msg rest is).after inf = (headOutcome ctx f msg rest post).after inf')
      (left : buf ++ more = bytesOf post f ++ rest) (short : buf.length < (nextOf post f).length)
      (first : buf = buf₀ ∨ Fits ctx (nextOf is f)) :
      HeadsRead hp ctx f msg rest more buf₀ is inf (.ready (.ok none), ⟨buf, c, inf'⟩)
  /-- A head over the configured size is next. -/
  | tooLarge {post buf c inf'}
      (out : (headOutcome ctx f msg rest is).after inf = ⟨.error .newTooLarge, inf', bytesOf post f ++ rest⟩)
      (left : buf ++ more = bytesOf post f ++ rest) (long : ¬ Fits ctx (nextOf post f))
      (whole : (nextOf post f).length ≤ buf.length) (first : buf = buf₀ ∨ Fits ctx (nextOf is f)) :
      HeadsRead hp ctx f msg rest more buf₀ is inf (.ready (.error .tooLarge), ⟨buf, c, inf'⟩)

variable {inf : List ResponseHead}

theorem HeadsRead.cons {buf₀ : Bytes} {i : Bytes × ResponseHead}
    {y : Poll (Except Parse (Option ParsedMessage)) × Parsing} (hi : Fits ctx i.1)
    (h : HeadsRead hp ctx f msg rest more buf is (inf ++ noted ctx i.2) y) :
    HeadsRead hp ctx f msg rest more buf₀ (i :: is) inf y := by
  have hout : (headOutcome ctx f msg rest (i :: is)).after inf =
      (headOutcome ctx f msg rest is).after (inf ++ noted ctx i.2) := by
    rw [headOutcome, if_pos hi, HeadOutcome.after_after]
  cases h with
  | found out left => exact .found (hout.trans out) left
  | partway heads sub out left short _ =>
    exact .partway heads (sub.trans (suffix_cons _ _)) (hout.trans out) left short (.inr hi)
  | tooLarge out left long whole _ => exact .tooLarge (hout.trans out) left long whole (.inr hi)

theorem HeadsRead.unread (hh : Heads hp ctx c is f msg) (hbuf : buf ++ more = bytesOf is f ++ rest)
    (hlt : buf.length < (nextOf is f).length) :
    HeadsRead hp ctx f msg rest more buf is inf (.ready (.ok none), ⟨buf, c, inf⟩) :=
  .partway hh (suffix_refl _) rfl hbuf hlt (.inl rfl)

theorem HeadsRead.unfit (is : List (Bytes × ResponseHead)) (hf : ¬ Fits ctx (nextOf is f))
    (hbuf : buf ++ more = bytesOf is f ++ rest) (hle : (nextOf is f).length ≤ buf.length) :
    HeadsRead hp ctx f msg rest more buf is inf (.ready (.error .tooLarge), ⟨buf, c, inf⟩) := by
  refine .tooLarge ?_ hbuf hf hle (.inl rfl)
  rw [headOutcome_of_not_fits is hf]
  simp [HeadOutcome.after]

theorem arrived {t : Bytes} (hbuf : buf ++ more = h ++ t) (hle : h.length ≤ buf.length) :
    ∃ u, buf = h ++ u ∧ u ++ more = t := by
  obtain ⟨u, hu⟩ : h <+: buf :=
    prefix_of_prefix_length_le ⟨t, hbuf.symm⟩ (prefix_append buf more) hle
  refine ⟨u, hu.symm, ?_⟩
  rw [← hu, append_assoc] at hbuf
  exact append_cancel_left hbuf

theorem parseRound_whole {head : RawHead} {u : Bytes} (hnext : Client.nextHead hp ctx (h ++ u) = .ok (some head))
    (hlen : head.len = h.length) (hread : Client.readHead ctx h head c = some (.ok x)) :
    Client.parseRound hp ctx ⟨h ++ u, c, inf⟩ = Client.finishHead ctx x ⟨u, none, inf⟩ := by
  unfold Client.parseRound
  simp only [hnext, hlen, take_left, drop_left, hread]

theorem decoder_interim {head : ResponseHead} {m : Option Method}
    (h : head.subject.code < 200 ∧ head.subject.code ≠ 101) :
    Client.decoder head m = .ok none := by
  unfold Client.decoder
  simp [h.1, h.2]

/-- **Parsing what has arrived** of a stream of heads. -/
theorem parse_heads (hh : Heads hp ctx c is f msg) : ∀ {buf more : Bytes} {inf : List ResponseHead} {fuel : ℕ},
    buf ++ more = bytesOf is f ++ rest → buf ≠ [] → buf.length < fuel →
      HeadsRead hp ctx f msg rest more buf is inf (loop (Client.parseRound hp ctx) fuel ⟨buf, c, inf⟩) := by
  induction hh with
  | @final c f x decode up reads body =>
    intro buf more inf fuel hbuf hne hfuel
    obtain ⟨k, rfl⟩ : ∃ k, fuel = k + 1 := ⟨fuel - 1, by omega⟩
    have hbuf' : buf ++ more = f ++ rest := hbuf
    unfold loop
    rcases lt_or_ge buf.length f.length with hlt | hle
    · simp only [Client.parseRound, nextHead_short reads hbuf' hne hlt]
      exact .unread (.final reads body) hbuf hlt
    · obtain ⟨u, rfl, hu⟩ := arrived hbuf' hle
      rcases nextHead_whole reads u with ⟨hf, head, hnext, hlen, hread⟩ | ⟨hf, hnext⟩
      · rw [parseRound_whole hnext hlen hread]
        simp only [Client.finishHead, body]
        refine .found ?_ hu
        simp [headOutcome, hf, HeadOutcome.after]
      · simp only [Client.parseRound, hnext]
        exact .unfit [] hf hbuf hle
  | @interim c h x is f msg reads status _ ih =>
    intro buf more inf fuel hbuf hne hfuel
    obtain ⟨k, rfl⟩ : ∃ k, fuel = k + 1 := ⟨fuel - 1, by omega⟩
    have hbuf' : buf ++ more = h ++ (bytesOf is f ++ rest) := by
      rw [hbuf]; simp [bytesOf]
    unfold loop
    rcases lt_or_ge buf.length h.length with hlt | hle
    · simp only [Client.parseRound, nextHead_short reads hbuf' hne hlt]
      exact .unread (.interim reads status ‹_›) hbuf hlt
    · obtain ⟨u, rfl, hu⟩ := arrived hbuf' hle
      rcases nextHead_whole reads u with ⟨hf, head, hnext, hlen, hread⟩ | ⟨hf, hnext⟩
      · have hinf : x.1.subject.isInformational = true := by simpa [StatusCode.isInformational] using status.1
        have hround : Client.parseRound hp ctx ⟨h ++ u, c, inf⟩ =
            if u = [] then .ret (.ready (.ok none), ⟨u, none, inf ++ noted ctx x.1⟩)
            else .again ⟨u, none, inf ++ noted ctx x.1⟩ := by
          rw [parseRound_whole hnext hlen hread]
          simp only [Client.finishHead, decoder_interim status, hinf, Bool.true_and, noted]
          cases ctx.onInformational <;> simp
        rw [hround]
        have hpos : 0 < (nextOf is f).length := by
          obtain ⟨y, hy⟩ := Heads.readsAs_next ‹Heads hp ctx none is f msg›
          exact hy.length_pos
        by_cases hu0 : u = []
        · rw [if_pos hu0]
          refine HeadsRead.cons (i := (h, x.1)) hf (.unread ‹_› hu ?_)
          rw [hu0]
          exact hpos
        · rw [if_neg hu0]
          have hpos' := reads.length_pos
          rw [length_append] at hfuel
          exact HeadsRead.cons (i := (h, x.1)) hf (ih hu hu0 (by omega))
      · simp only [Client.parseRound, hnext]
        exact .unfit ((h, x.1) :: is) hf hbuf hle

/-- The length that a scan may skip: bytes that were no whole head. -/
def PartialOk (len : Option ℕ) (buf h : Bytes) : Prop := ∀ p, len = some p → p ≤ buf.length ∧ p < h.length

/-- **One attempt at parsing**, with or without the fast scan. -/
theorem parseHeaders_ok {prevLen : Option ℕ} (inf : List ResponseHead) (hh : Heads hp ctx c is f msg)
    (hbuf : buf ++ more = bytesOf is f ++ rest) (hprev : PartialOk prevLen buf (nextOf is f)) :
    HeadsRead hp ctx f msg rest more buf is inf (parseHeaders hp prevLen ctx ⟨buf, c, inf⟩) := by
  obtain ⟨x, reads⟩ := hh.readsAs_next
  have hparse : buf ≠ [] → HeadsRead hp ctx f msg rest more buf is inf (Client.parse hp ctx ⟨buf, c, inf⟩) :=
    fun hne => parse_heads hh hbuf hne (lt_add_one _)
  unfold parseHeaders
  by_cases hne : buf = []
  · simp only [hne, if_true]
    rw [hne] at hbuf
    exact .unread hh hbuf reads.length_pos
  · simp only [hne, if_false]
    cases prevLen with
    | none => exact hparse hne
    | some p =>
      obtain ⟨hle, hlt⟩ := hprev p rfl
      have hin : ¬ buf.length < p - 3 := by omega
      simp only [Option.map_some, isCompleteFast, if_neg hin]
      cases hscan : scanEnd (buf.drop (p - 3)) with
      | true => exact hparse hne
      | false =>
        refine .unread hh hbuf ?_
        -- had all of the head arrived, the scan would have seen its end
        by_contra hge
        obtain ⟨t, ht⟩ := bytesOf_eq is f
        rw [ht, append_assoc] at hbuf
        obtain ⟨u, rfl, -⟩ := arrived hbuf (le_of_not_gt hge)
        obtain ⟨raw, head, hhead, -, -⟩ := reads
        rw [scanEnd_of_isHead hhead u hlt] at hscan
        cases hscan

end

/-! ## Reading until a head is there -/

variable {β : Type} [LawfulBuf β]

theorem ReadStrategy.max_record (n : ℕ) (s : ReadStrategy) : (s.record n).max = s.max := by
  cases s with
  | exact k => rfl
  | adaptive d next max =>
    simp only [record]
    split
    · rfl
    · split
      · split <;> rfl
      · rfl

theorem Buffered.pollReadFromIo_max (b : Buffered β) :
    b.pollReadFromIo.2.readBufStrategy.max = b.readBufStrategy.max := by
  rw [b.pollReadFromIo_eq]
  cases b.io.reads.head with
  | ok bytes => exact ReadStrategy.max_record _ _
  | err e => rfl
  | pending => rfl

theorem Buffered.pollReadFromIo_partialLen (b : Buffered β) : b.pollReadFromIo.2.partialLen = b.partialLen := by
  rw [b.pollReadFromIo_eq]
  cases b.io.reads.head <;> rfl

theorem Buffered.Streams.split {b : Buffered β} {n : ℕ} {s : Bytes} (h : b.Streams n s) :
    ∃ more, b.readBuf ++ more = s ∧ ∀ b' : Buffered β, b'.io = b.io → b'.Streams n (b'.readBuf ++ more) := by
  obtain ⟨evs, hreads, hpc, hn, hs⟩ := h
  refine ⟨_, hs, fun b' hio => ⟨evs, ?_, hpc, hn, rfl⟩⟩
  rw [hio]
  exact hreads

theorem HeadReader.partialLen_setPartialLen {r : HeadReader β} {p : ℕ} (h : r.setPartialLen.io.partialLen = some p) :
    p = r.io.readBuf.length := by
  simp only [setPartialLen] at h
  split at h
  · cases h
  · exact (Option.some.inj h).symm

section

variable {hp : Httparse} {ctx : ParseContext} {f rest : Bytes} {msg : ParsedMessage} {v : HeadOutcome}

/-- A reader inside a stream of heads that is read as `v`: `n` answers of the transport
and `m` bytes are still to come. -/
structure Midway (hp : Httparse) (ctx : ParseContext) (f rest : Bytes) (msg : ParsedMessage) (v : HeadOutcome)
    (n m : ℕ) (r : HeadReader β) (is : List (Bytes × ResponseHead)) : Prop where
  heads : Heads hp ctx r.cachedHeaders is f msg
  streams : r.io.Streams n (bytesOf is f ++ rest)
  todo : (bytesOf is f ++ rest).length = r.io.readBuf.length + m
  out : (headOutcome ctx f msg rest is).after r.informed = v
  partialOk : PartialOk r.io.partialLen r.io.readBuf (nextOf is f)
  room : ∀ h ∈ f :: is.map Prod.fst, h.length ≤ r.io.readBufStrategy.max

/-- `v` is the answer. -/
structure HeadDone (v : HeadOutcome) (n : ℕ) (x : Poll (Except Error ParsedMessage) × HeadReader β) : Prop where
  result : x.1 = .ready v.result
  informed : x.2.informed = v.informed
  left : ∃ n' ≤ n, x.2.io.Streams n' v.left
  partialLen : ∀ p, x.2.io.partialLen = some p → p ≤ x.2.io.readBuf.length

/-- One call answers, or is refused by the transport. -/
def CalledOk (hp : Httparse) (ctx : ParseContext) (f rest : Bytes) (msg : ParsedMessage) (v : HeadOutcome) (n m : ℕ)
    (x : Poll (Except Error ParsedMessage) × HeadReader β) : Prop :=
  HeadDone v n x ∨ x.1 = .pending ∧ ∃ n' < n, ∃ m' ≤ m, ∃ is, Midway hp ctx f rest msg v n' m' x.2 is

variable {n : ℕ}

theorem HeadDone.mono {n' : ℕ} {x : Poll (Except Error ParsedMessage) × HeadReader β} (h : HeadDone v n x)
    (hn : n ≤ n') : HeadDone v n' x := by
  obtain ⟨k, hk, hs⟩ := h.left
  exact { h with left := ⟨k, by omega, hs⟩ }

theorem nextOf_mem (is : List (Bytes × ResponseHead)) : nextOf is f ∈ f :: is.map Prod.fst := by
  cases is with
  | nil => exact mem_cons_self
  | cons i is => exact mem_cons_of_mem _ mem_cons_self

variable {h : Bytes} {m : ℕ}

theorem Fits.le (hf : Fits ctx h) (hm : ctx.h1MaxHeaderSize = some m) : h.length ≤ m := by
  simpa [Fits, hm] using hf

theorem not_fits (hf : ¬ Fits ctx h) : ∃ m, ctx.h1MaxHeaderSize = some m ∧ m < h.length := by
  unfold Fits at hf
  cases hm : ctx.h1MaxHeaderSize with
  | none => simp [hm] at hf
  | some m => exact ⟨m, rfl, by simpa [hm] using hf⟩

/-- The skipped length is still inside the buffer: either nothing was taken off it, or
what is left is longer than a head that fits. -/
theorem PartialOk.le_of_first {len : Option ℕ} {buf₀ buf : Bytes} (hp : PartialOk len buf₀ h)
    (hm : ctx.h1MaxHeaderSize = some m) (hle : m ≤ buf.length) (first : buf = buf₀ ∨ Fits ctx h) :
    ∀ p, len = some p → p ≤ buf.length := by
  intro p hlen
  obtain ⟨h1, h2⟩ := hp p hlen
  rcases first with rfl | hf
  · exact h1
  · have := hf.le hm
    omega

variable {is : List (Bytes × ResponseHead)} {r : HeadReader β}

theorem readMore_ok (hmid : Midway hp ctx f rest msg v n m r.setPartialLen is)
    (hlt : r.io.readBuf.length < (nextOf is f).length) :
    (Ctl.whenReady (within r.setPartialLen.io.pollReadFromIo fun io => { r.setPartialLen with io := io })
      fun res r => match res with
        | .error e => .ret (.ready (.error (.newIo e)), r)
        | .ok k => if k = 0 then .ret (.ready (.error .newIncomplete), r) else .again r).Sat
      (fun r' => ∃ m' < m, ∃ n' ≤ n, ∃ is', Midway hp ctx f rest msg v n' m' r' is')
      (CalledOk hp ctx f rest msg v n m) := by
  set r₁ := r.setPartialLen with hr₁
  have hbuf : r₁.io.readBuf = r.io.readBuf := rfl
  have hmax := r₁.io.pollReadFromIo_max
  have hplen := r₁.io.pollReadFromIo_partialLen
  have hlen : (bytesOf is f ++ rest).length = r₁.io.readBuf.length + m := hmid.todo
  rcases hmid.streams.pollReadFromIo with ⟨b', n', hrd, hn, hb, hs⟩ | ⟨b', n', y, hrd, hn, hb, hnil, hs⟩
  · rw [hrd] at hmax hplen ⊢
    refine .inr ⟨rfl, n', hn, m, le_refl m, is, hmid.heads, hs, ?_, hmid.out, ?_, ?_⟩
    · exact hlen.trans (by rw [← hb])
    · intro p hp'
      obtain ⟨h1, h2⟩ := hmid.partialOk p (hplen ▸ hp')
      exact ⟨le_trans h1 (le_of_eq (congrArg List.length hb.symm)), h2⟩
    · exact fun h hh => hmax ▸ hmid.room h hh
  · rw [hrd] at hmax hplen ⊢
    have hy : y ≠ [] := by
      intro hy
      have := congrArg List.length (hnil hy)
      obtain ⟨t, ht⟩ := bytesOf_eq is f
      rw [ht, hbuf] at this
      simp only [length_append] at this
      omega
    have hypos := length_pos_iff.2 hy
    have hstep : (Ctl.again ({ r₁ with io := b' } : HeadReader β) : Ctl (Except Error ParsedMessage) _).Sat
        (fun r' => ∃ m' < m, ∃ n' ≤ n, ∃ is', Midway hp ctx f rest msg v n' m' r' is')
        (CalledOk hp ctx f rest msg v n m) := by
      have hle : b'.readBuf.length ≤ (bytesOf is f ++ rest).length := by
        obtain ⟨more, hmore, -⟩ := hs.split
        rw [← hmore, length_append]
        omega
      rw [hb, length_append] at hle
      refine ⟨m - y.length, by omega, n', hn, is, hmid.heads, hs, ?_, hmid.out, ?_, ?_⟩
      · show (bytesOf is f ++ rest).length = b'.readBuf.length + (m - y.length)
        rw [hb, hlen, length_append]
        omega
      · intro p hp'
        obtain ⟨h1, h2⟩ := hmid.partialOk p (hplen ▸ hp')
        refine ⟨?_, h2⟩
        show p ≤ b'.readBuf.length
        rw [hb, length_append]
        omega
      · exact fun h hh => hmax ▸ hmid.room h hh
    simpa [within, Ctl.whenReady, ne_of_gt hypos] using hstep

/-- **One round** of `Buffered::parse`. -/
theorem headRound_ok (hmid : Midway hp ctx f rest msg v n m r is) :
    (HeadReader.parseRound hp ctx r).Sat
      (fun r' => ∃ m' < m, ∃ n' ≤ n, ∃ is', Midway hp ctx f rest msg v n' m' r' is')
      (CalledOk hp ctx f rest msg v n m) := by
  obtain ⟨more, hmore, hput⟩ := hmid.streams.split
  have hlen : more.length = m := by
    have := congrArg List.length hmore
    have htodo := hmid.todo
    rw [length_append] at this
    omega
  have hread := parseHeaders_ok r.informed hmid.heads hmore hmid.partialOk
  have hstr : ∀ (s : Parsing) {t : Bytes}, s.buf ++ more = t → (r.put s).io.Streams n t := fun s t ht => by
    rw [← ht]
    exact hput (r.put s).io rfl
  unfold HeadReader.parseRound
  rw [HeadReader.parsing]
  generalize hx : parseHeaders hp r.io.partialLen ctx ⟨r.io.readBuf, r.cachedHeaders, r.informed⟩ = x at hread
  cases hread with
  | @found buf c inf' out left =>
    refine .inl ⟨?_, ?_, ⟨n, le_refl n, ?_⟩, nofun⟩
    · rw [← hmid.out, out]
    · rw [← hmid.out, out]
      rfl
    · rw [← hmid.out, out]
      exact hstr ⟨buf, c, inf'⟩ left
  | @tooLarge post buf c inf' out left long whole first =>
    obtain ⟨k, hk, hlt⟩ := not_fits long
    refine .inl ⟨?_, ?_, ⟨n, le_refl n, ?_⟩, ?_⟩
    · rw [← hmid.out, out]
      rfl
    · rw [← hmid.out, out]
      rfl
    · rw [← hmid.out, out]
      exact hstr ⟨buf, c, inf'⟩ left
    · exact hmid.partialOk.le_of_first hk (le_trans (le_of_lt hlt) whole) first
  | @partway post buf c inf' heads sub out left short first =>
    have hroom : ∀ h ∈ f :: post.map Prod.fst, h.length ≤ r.io.readBufStrategy.max := fun h hh => by
      refine hmid.room h ?_
      rcases mem_cons.1 hh with rfl | hh
      · exact mem_cons_self
      · exact mem_cons_of_mem _ ((sub.map Prod.fst).subset hh)
    have hmax := hroom _ (nextOf_mem post)
    have houts : (headOutcome ctx f msg rest post).after inf' = v := out.symm.trans hmid.out
    show (if ctx.h1MaxHeaderSize.any (· ≤ buf.length) then _ else _ : Ctl (Except Error ParsedMessage) _).Sat _ _
    by_cases hsize : ctx.h1MaxHeaderSize.any (· ≤ buf.length) = true
    · -- the part that is there is already too long
      rw [if_pos hsize]
      obtain ⟨k, hk, hle⟩ : ∃ k, ctx.h1MaxHeaderSize = some k ∧ k ≤ buf.length := by
        cases hm : ctx.h1MaxHeaderSize with
        | none => simp [hm] at hsize
        | some k => exact ⟨k, rfl, by simpa [hm] using hsize⟩
      have hnot : ¬ Fits ctx (nextOf post f) := fun hf => by
        have := hf.le hk
        omega
      rw [headOutcome_of_not_fits post hnot] at houts
      subst houts
      refine .inl ⟨rfl, ?_, ⟨n, le_refl n, hstr ⟨buf, c, inf'⟩ left⟩, ?_⟩
      · show inf' = inf' ++ []
        rw [append_nil]
      · exact hmid.partialOk.le_of_first hk hle first
    · rw [if_neg hsize]
      show (if r.io.readBufStrategy.max ≤ buf.length then _ else _ : Ctl (Except Error ParsedMessage) _).Sat _ _
      rw [if_neg (by omega)]
      refine readMore_ok (r := r.put ⟨buf, c, inf'⟩) ⟨heads, hstr ⟨buf, c, inf'⟩ left, ?_, houts, ?_, hroom⟩ short
      · show _ = buf.length + m
        rw [← left, length_append, hlen]
      · intro p hp'
        have hlen' : p = buf.length := HeadReader.partialLen_setPartialLen hp'
        exact ⟨le_of_eq hlen', hlen' ▸ short⟩

/-- **One call** of `Buffered::parse`, with a round for each byte to come. -/
theorem headCall_ok {fuel : ℕ} (hmid : Midway hp ctx f rest msg v n m r is) (hfuel : m < fuel) :
    CalledOk hp ctx f rest msg v n m (HeadReader.parse hp ctx fuel r) := by
  refine loop_progress (I := fun k r => k ≤ m ∧ ∃ n' ≤ n, ∃ is, Midway hp ctx f rest msg v n' k r is) ?_ fuel m r
    ⟨le_refl m, n, le_refl n, is, hmid⟩ hfuel
  rintro k r ⟨hk, n', hn', is, hmid⟩
  have hround := headRound_ok hmid
  cases hr : HeadReader.parseRound hp ctx r with
  | again r' =>
    rw [hr] at hround
    obtain ⟨k', hk', n'', hn'', is', h'⟩ := hround
    exact ⟨k', hk', by omega, n'', le_trans hn'' hn', is', h'⟩
  | ret x =>
    rw [hr] at hround
    rcases hround with hdone | ⟨hpend, n'', hn'', k', hk', h'⟩
    · exact .inl (hdone.mono hn')
    · exact .inr ⟨hpend, n'', by omega, k', by omega, h'⟩

end

def parseUntil (hp : Httparse) (ctx : ParseContext) (fuel : ℕ) (r : HeadReader β) :
    Poll (Except Error ParsedMessage) × HeadReader β :=
  loop (fun r => match HeadReader.parse hp ctx fuel r with
    | (.pending, r) => .again r
    | x => .ret x) fuel r

theorem parseUntil_ok {hp : Httparse} {ctx : ParseContext} {f rest : Bytes} {msg : ParsedMessage} {v : HeadOutcome}
    {n m : ℕ} {r : HeadReader β} {is : List (Bytes × ResponseHead)} {fuel : ℕ}
    (hmid : Midway hp ctx f rest msg v n m r is) (hlen : (bytesOf is f ++ rest).length < fuel) (hn : n < fuel) :
    HeadDone v n (parseUntil hp ctx fuel r) := by
  -- the bytes to come are at most those of the whole stream
  have hm : m < fuel := by have := hmid.todo; omega
  refine loop_progress (I := fun k r => k ≤ n ∧ ∃ m < fuel, ∃ is, Midway hp ctx f rest msg v k m r is) ?_ fuel n r
    ⟨le_refl n, m, hm, is, hmid⟩ hn
  rintro k r ⟨hk, m, hm, is, hmid⟩
  have hcall := headCall_ok hmid hm
  generalize hx : HeadReader.parse hp ctx fuel r = x at hcall
  rcases hcall with hdone | ⟨hpend, k', hk', m', hm', is', h'⟩
  · obtain ⟨p, r'⟩ := x
    obtain rfl : p = .ready v.result := hdone.result
    exact hdone.mono hk
  · obtain ⟨p, r'⟩ := x
    obtain rfl : p = .pending := hpend
    exact ⟨k', hk', by omega, m', by omega, is', h'⟩

/-! ## The skipped length -/

theorem clientParse_ne_pending (hp : Httparse) (ctx : ParseContext) (s : Parsing) :
    (Client.parse hp ctx s).1 ≠ .pending := by
  refine loop_inv (I := fun _ => True) (Q := fun x => x.1 ≠ .pending) (fun s _ => ?_) (fun s _ => by simp) _ s trivial
  unfold Client.parseRound
  split
  · simp [Ctl.Sat]
  · simp [Ctl.Sat]
  · simp only
    split
    · simp [Ctl.Sat]
    · simp [Ctl.Sat]
    · unfold Client.finishHead
      split
      · simp [Ctl.Sat]
      · simp [Ctl.Sat]
      · have hlast : ∀ s : Parsing, (if s.buf = [] then .ret (.ready (.ok none), s) else .again s :
            Ctl (Except Parse (Option ParsedMessage)) Parsing).Sat (fun _ => True) (fun x => x.1 ≠ .pending) := by
          intro s
          split <;> simp [Ctl.Sat]
        exact hlast _

theorem parseHeaders_ne_pending (hp : Httparse) (prevLen : Option ℕ) (ctx : ParseContext) (s : Parsing) :
    (parseHeaders hp prevLen ctx s).1 ≠ .pending := by
  unfold parseHeaders
  split
  · simp
  · split
    · simp
    · simp
    · exact clientParse_ne_pending hp ctx s
    · exact clientParse_ne_pending hp ctx s

/-- **The skipped length is inside the buffer** whenever a call is refused. -/
theorem partialLen_of_pending (hp : Httparse) (ctx : ParseContext) (fuel : ℕ) (r : HeadReader β)
    (h : (HeadReader.parse hp ctx fuel r).1 = .pending) :
    ∀ p, (HeadReader.parse hp ctx fuel r).2.io.partialLen = some p →
      p ≤ (HeadReader.parse hp ctx fuel r).2.io.readBuf.length := by
  refine loop_inv (I := fun _ => True)
    (Q := fun x => x.1 = .pending → ∀ p, x.2.io.partialLen = some p → p ≤ x.2.io.readBuf.length)
    (fun r _ => ?_) nofun fuel r trivial h
  have hne := parseHeaders_ne_pending hp r.io.partialLen ctx r.parsing
  unfold HeadReader.parseRound
  generalize parseHeaders hp r.io.partialLen ctx r.parsing = x at hne
  obtain ⟨p, s⟩ := x
  cases p with
  | pending => exact absurd rfl hne
  | busy => exact fun h => nomatch h
  | panicked => exact fun h => nomatch h
  | ready res =>
    rcases res with e | _ | msg
    · exact fun h => nomatch h
    · show Ctl.Sat _ _ (if _ then _ else _)
      split
      · exact fun h => nomatch h
      · split
        · exact fun h => nomatch h
        · simp only [Buffered.pollReadFromIo_eq]
          cases (r.put s).setPartialLen.io.io.reads.head with
          | ok bytes =>
            show Ctl.Sat _ _ (if _ then _ else _)
            split
            · exact fun h => nomatch h
            · trivial
          | err e => exact fun h => nomatch h
          | pending => exact fun _ p hp' => le_of_eq (HeadReader.partialLen_setPartialLen hp')
    · exact fun h => nomatch h

/-! ## Fragmentation -/

/-- What the callback is given of a list of interim heads. -/
def informedOf (ctx : ParseContext) (is : List (Bytes × ResponseHead)) : List ResponseHead :=
  is.flatMap fun i => noted ctx i.2

theorem headOutcome_cases (ctx : ParseContext) (f : Bytes) (msg : ParsedMessage) (rest : Bytes)
    (is : List (Bytes × ResponseHead)) :
    ((∀ h ∈ f :: is.map Prod.fst, Fits ctx h) ∧ headOutcome ctx f msg rest is = ⟨.ok msg, informedOf ctx is, rest⟩) ∨
    ∃ pre post, is = pre ++ post ∧ (∀ i ∈ pre, Fits ctx i.1) ∧ ¬ Fits ctx (nextOf post f) ∧
      headOutcome ctx f msg rest is = ⟨.error .newTooLarge, informedOf ctx pre, bytesOf post f ++ rest⟩ := by
  induction is with
  | nil =>
    by_cases hf : Fits ctx f
    · exact .inl ⟨by simpa using hf, if_pos hf⟩
    · exact .inr ⟨[], [], rfl, by simp, hf, headOutcome_of_not_fits [] hf⟩
  | cons i is ih =>
    by_cases hi : Fits ctx i.1
    · have hout : headOutcome ctx f msg rest (i :: is) = (headOutcome ctx f msg rest is).after (noted ctx i.2) :=
        if_pos hi
      rw [hout]
      rcases ih with ⟨hall, ho⟩ | ⟨pre, post, rfl, hpre, hnot, ho⟩
      · refine .inl ⟨?_, by rw [ho]; rfl⟩
        simp only [mem_cons, map_cons, forall_eq_or_imp] at hall ⊢
        exact ⟨hall.1, hi, hall.2⟩
      · refine .inr ⟨i :: pre, post, rfl, ?_, hnot, by rw [ho]; rfl⟩
        simp only [mem_cons, forall_eq_or_imp]
        exact ⟨hi, hpre⟩
    · exact .inr ⟨[], i :: is, rfl, by simp, hi, headOutcome_of_not_fits (i :: is) hi⟩

/-- **Head parsing does not depend on fragmentation.** However the bytes of a stream of
heads are delivered, the calls end with the message after the callback was given each
interim head once and in order, or at the first head over the configured size; they
leave the same bytes unread. The length that the fast scan skips is never more than
what is buffered. -/
theorem parse_unfragmented {hp : Httparse} {ctx : ParseContext} {c : Option HeaderMap}
    {is : List (Bytes × ResponseHead)} {f : Bytes} {msg : ParsedMessage} (hh : Heads hp ctx c is f msg) (rest : Bytes) :
    ∃ v : HeadOutcome,
      (((∀ h ∈ f :: is.map Prod.fst, Fits ctx h) ∧ v = ⟨.ok msg, informedOf ctx is, rest⟩) ∨
        ∃ pre post, is = pre ++ post ∧ (∀ i ∈ pre, Fits ctx i.1) ∧ ¬ Fits ctx (nextOf post f) ∧
          v = ⟨.error .newTooLarge, informedOf ctx pre, bytesOf post f ++ rest⟩) ∧
      (∀ (r : HeadReader β) (n : ℕ), r.cachedHeaders = c → r.io.partialLen = none →
        r.io.Streams n (bytesOf is f ++ rest) →
        (∀ h ∈ f :: is.map Prod.fst, h.length ≤ r.io.readBufStrategy.max) →
        ∃ N, ∀ fuel, N ≤ fuel → HeadDone (v.after r.informed) n (parseUntil hp ctx fuel r)) ∧
      ∀ (r : HeadReader β) (fuel : ℕ), (HeadReader.parse hp ctx fuel r).1 = .pending →
        ∀ p, (HeadReader.parse hp ctx fuel r).2.io.partialLen = some p →
          p ≤ (HeadReader.parse hp ctx fuel r).2.io.readBuf.length := by
  refine ⟨_, headOutcome_cases ctx f msg rest is, ?_, fun r fuel => partialLen_of_pending hp ctx fuel r⟩
  rintro r n rfl hnone hs hroom
  obtain ⟨more, hmore, -⟩ := hs.split
  have htodo : (bytesOf is f ++ rest).length = r.io.readBuf.length + more.length := by
    rw [← hmore, length_append]
  have hmid : Midway hp ctx f rest msg ((headOutcome ctx f msg rest is).after r.informed) n more.length r is :=
    ⟨hh, hs, htodo, rfl, fun p hp' => (by rw [hnone] at hp'; cases hp'), hroom⟩
  refine ⟨(bytesOf is f ++ rest).length + n + 1, fun fuel hfuel => parseUntil_ok hmid ?_ ?_⟩
  · omega
  · omega

/-! ### Heads of a table -/

/-- A parser that knows the heads in a list. -/
def tableParser (heads : List (Bytes × RawResponse)) : Httparse where
  parseHeaders := fun _ _ => .ok .incomplete
  parseResponse := fun _ bytes _ =>
    match heads.find? fun h => h.1.isPrefixOf bytes with
    | some h => .ok (.complete h.2)
    | none => .ok .incomplete
  canonicalReason := fun code => (heads.find? fun h => h.2.code = code).map fun h => h.2.reason

/-- **A head of the table is a head**, if no other one begins with it or is its beginning. -/
theorem tableParser_isHead {heads : List (Bytes × RawResponse)} {ctx : ParseContext} {h : Bytes × RawResponse}
    (hm : h ∈ heads) (hapart : ∀ x ∈ heads, x.1 <+: h.1 ∨ h.1 <+: x.1 → x = h) (hlen : h.2.len = h.1.length)
    (hends : (∃ p, h.1 = p ++ [10, 10]) ∨ ∃ p, h.1 = p ++ [10, 13, 10]) :
    IsHead (tableParser heads) ctx h.1 h.2 := by
  refine ⟨fun t => ?_, fun j _ hj => ?_, hlen, hends⟩
  · have hfind : heads.find? (fun x => x.1.isPrefixOf (h.1 ++ t)) = some h := by
      cases hf : heads.find? fun x => x.1.isPrefixOf (h.1 ++ t) with
      | none => simpa using find?_eq_none.1 hf h hm
      | some x =>
        have hx : x.1 <+: h.1 ++ t := by simpa using find?_some hf
        rw [hapart x (List.mem_of_find?_eq_some hf) ( prefix_or_prefix_of_prefix hx (prefix_append _ _))]
    simp only [tableParser, hfind]
  · have hfind : heads.find? (fun x => x.1.isPrefixOf (h.1.take j)) = none := by
      refine find?_eq_none.2 fun x hx hp => ?_
      have hp : x.1 <+: h.1.take j := by simpa using hp
      have hle := hp.length_le
      rw [hapart x hx (.inl (hp.trans ( take_prefix _ _))), length_take] at hle
      omega
    simp only [tableParser, hfind]

def endedHead : Bytes := ascii "HTTP/1.1 200 OK\r\n\r\n"

def endedRaw : RawResponse := ⟨19, 200, ascii "OK", 1, []⟩

/-- An early hint, and a final head. -/
def earlyHead : Bytes := ascii "HTTP/1.1 103 Early Hints\r\n\r\n"

def earlyRaw : RawResponse := ⟨28, 103, ascii "Early Hints", 1, []⟩

def earlyParser : Httparse := tableParser [(earlyHead, earlyRaw), (endedHead, endedRaw)]

theorem earlyHead_reads (ctx : ParseContext) : IsHead earlyParser ctx earlyHead earlyRaw :=
  tableParser_isHead (h := (earlyHead, earlyRaw)) (by simp) (by decide +kernel) (by decide +kernel)
    (.inr ⟨earlyHead.take 25, by decide +kernel⟩)

theorem endedHead_reads (ctx : ParseContext) : IsHead earlyParser ctx endedHead endedRaw :=
  tableParser_isHead (h := (endedHead, endedRaw)) (by simp) (by decide +kernel) (by decide +kernel)
    (.inr ⟨endedHead.take 16, by decide +kernel⟩)

def earlyContext : ParseContext := ⟨some .get, ⟨false, false, false⟩, none, some 64, false, true⟩

def plainHead (status : StatusCode) : ResponseHead := ⟨.http11, status, .empty, .none⟩

def earlyReads : List ReadEv :=
  [.ok (earlyHead.take 1), .pending, .ok (earlyHead.drop 1 ++ endedHead.take 1), .ok (endedHead.drop 1 ++ [33])]

/-- A transport that delivers both heads in odd pieces. -/
def earlyReader : HeadReader Bytes :=
  ⟨Buffered.new { slowTransport with reads := earlyReads ++ₛ Stream'.const (.ok []) } (Stream'.const 0), none, []⟩

theorem parse_unfragmented_hints : ∃ N, ∀ fuel, N ≤ fuel →
    HeadDone ⟨.ok ⟨plainHead .okStatus, .closeDelimited, false, true, false⟩, [plainHead ⟨103, by decide⟩], [33]⟩ 4
      (parseUntil earlyParser earlyContext fuel earlyReader) := by
  have hhint : ReadsAs earlyParser earlyContext none earlyHead (plainHead ⟨103, by decide⟩, true) :=
    ⟨_, _, earlyHead_reads _, rfl, rfl⟩
  have hfinal : ReadsAs earlyParser earlyContext none endedHead (plainHead .okStatus, true) :=
    ⟨_, _, endedHead_reads _, rfl, rfl⟩
  have hheads := Heads.interim hhint (by decide) (.final hfinal rfl)
  obtain ⟨v, hv, hall, -⟩ := parse_unfragmented (β := Bytes) hheads [33]
  rcases hv with ⟨-, rfl⟩ | ⟨pre, post, hsplit, -, hnot, -⟩
  · exact hall earlyReader 4 rfl rfl ⟨earlyReads, rfl,
      by simp [earlyReads, ReadEv.Piece, earlyHead, endedHead, ascii], by decide +kernel, rfl⟩ (by decide +kernel)
  · have hfit : Fits earlyContext (nextOf post endedHead) := by
      cases post with
      | nil => decide +kernel
      | cons i post =>
        have : i ∈ [(earlyHead, plainHead ⟨103, by decide⟩)] := by rw [hsplit]; simp
        rw [mem_singleton.1 this]
        show Fits earlyContext earlyHead
        decide +kernel
    exact absurd hfit hnot

end Netty
