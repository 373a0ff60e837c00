import Netty.Proof.Decode
import Netty.Proof.Headers
import Netty.Spec.Head

/-!
# Reading from any transport

What holds of a call of the decoder, and of a parse, whatever the transport answers.

* `decode_keeps`, `parse_keeps`: reading leaves the rest of the reader alone.
* `decode_live`: a decoder inside a body stays inside it or reaches its end; it hands
  out an empty piece only at the end.
* `parse_message`: what a parsed head says about the connection.
-/

namespace Netty

open List

/-! ## The decoder -/

/-- A reader that does not panic and hands over no more than it was asked for. -/
structure Measured (ρ : Type) [MemRead ρ] : Prop where
  answers : ∀ (r : ρ) n, (MemRead.readMem r n).1 ≠ .panicked
  length_le : ∀ {r r' : ρ} {n : ℕ} {slice : Bytes}, MemRead.readMem r n = (.ready (.ok slice), r') → slice.length ≤ n

theorem Buffered.measured {β : Type} [LawfulBuf β] : Measured (Buffered β) where
  answers b n := by
    show (b.readMem n).1 ≠ .panicked
    unfold Buffered.readMem
    split
    · simp
    · rw [b.pollReadFromIo_eq]
      cases b.io.reads.head <;> simp [whenOk, whenReady]
  length_le {b b' n slice} h := by
    change b.readMem n = _ at h
    have htake : ∀ (l : Bytes) k, (l.take (min n k)).length ≤ n := fun l k => by rw [length_take]; omega
    unfold Buffered.readMem at h
    split at h
    · cases h
      exact htake _ _
    · rw [b.pollReadFromIo_eq] at h
      cases hr : b.io.reads.head with
      | ok bytes =>
        rw [hr] at h
        cases h
        exact htake _ _
      | err e => rw [hr] at h; cases h
      | pending => rw [hr] at h; cases h

structure Decoder.Live (d : Decoder) : Prop where
  wf : d.Wf
  notEof : d.isEof = false

def Decoder.LiveCall (d : Decoder) : Poll (Except IoError Frame) → Prop
  | .ready (.ok (.data b)) => d.isEof = true ∨ b ≠ [] ∧ d.Live
  | .ready (.ok (.trailers _)) => d.isEof = true
  | .ready (.error _) => True
  | .pending | .busy => d.Live
  | .panicked => d.isEof = true

theorem Decoder.Live.call_of_refused {d : Decoder} {p : Poll (Except IoError Frame)} (hd : d.Live)
    (hp : ∀ a, p ≠ .ready a) (hpan : p ≠ .panicked) : d.LiveCall p := by
  cases p with
  | ready a => exact absurd rfl (hp a)
  | pending => exact hd
  | busy => exact hd
  | panicked => exact absurd rfl hpan

section Decoder

variable {ρ : Type} [MemRead ρ] {H : Httparse}

theorem chunkedStep_keeps {P : ρ → Prop} (hread : ∀ r n, P r → P (MemRead.readMem r n).2) (c : Chunked) {r : ρ}
    (hr : P r) : P (c.step r).2.2 := by
  unfold Chunked.step
  split
  · have h := hread r (min c.chunkLen usizeMax) hr
    refine whenOk_within_ind (P := fun y : _ × Chunked × ρ => P y.2.2) (fun b t ht => ?_) (fun e t ht => ?_)
      fun _ _ _ => h
    · rw [ht] at h
      simp only
      split <;> exact h
    · rw [ht] at h; exact h
  · exact hr
  · have h := hread r 1 hr
    refine whenOk_within_ind (P := fun y : _ × Chunked × ρ => P y.2.2) (fun b t ht => ?_) (fun e t ht => ?_)
      fun _ _ _ => h
    · rw [ht] at h
      cases b with
      | nil => exact h
      | cons b _ => rcases hb : c.onByte b with ⟨st | e | _, c'⟩ <;> simp only [hb] <;> exact h
    · rw [ht] at h; exact h

/-- **What a read keeps, a call of the decoder keeps.** -/
theorem decode_keeps {P : ρ → Prop} (hread : ∀ r n, P r → P (MemRead.readMem r n).2) (fuel : ℕ) (d : Decoder) {r : ρ}
    (hr : P r) : P (d.decode H fuel r).2.2 := by
  cases d with
  | length remaining =>
    have h := hread r (min remaining usizeMax) hr
    simp only [Decoder.decode]
    split
    · exact hr
    refine whenOk_within_ind (P := fun y : _ × Decoder × ρ => P y.2.2) (fun b t ht => ?_) (fun e t ht => ?_)
      fun _ _ _ => h
    · rw [ht] at h
      simp only
      split
      · exact h
      · split <;> exact h
    · rw [ht] at h; exact h
  | chunked c =>
    refine loop_inv (I := fun y : Chunked × ρ => P y.2) (Q := fun y : _ × Chunked × ρ => P y.2.2) (fun y hy => ?_)
      (fun _ h => h) fuel (c, r) hr
    have h := chunkedStep_keeps hread y.1 hy
    unfold Decoder.chunkedRound
    refine Ctl.whenOk_sat (fun a z hz => ?_) (fun e z hz => ?_) fun _ _ => h
    · rw [hz] at h
      simp only
      split
      · split
        · split <;> exact h
        · exact h
      · split <;> exact h
    · rw [hz] at h; exact h
  | eof seen =>
    have h := hread r 8192 hr
    simp only [Decoder.decode]
    split
    · exact hr
    refine whenOk_within_ind (P := fun y : _ × Decoder × ρ => P y.2.2) (fun b t ht => ?_) (fun e t ht => ?_)
      fun _ _ _ => h
    · rw [ht] at h; exact h
    · rw [ht] at h; exact h

theorem live_chunked {c : Chunked} (hw : c.Wf) (he : c.state ≠ .ended) : (Decoder.chunked c).Live :=
  ⟨hw, by simpa [Decoder.isEof] using he⟩

theorem chunkedRound_live (hread : ∀ (r : ρ) n, (MemRead.readMem r n).1 ≠ .panicked) {c : Chunked} (r : ρ)
    (hw : c.Wf) (he : c.state ≠ .ended) :
    (Decoder.chunkedRound H (c, r)).Sat (fun y => y.1.Wf ∧ y.1.state ≠ .ended)
      (fun x => (Decoder.chunked x.2.1).LiveCall x.1) := by
  have hlive : (Decoder.chunked c).Live := live_chunked hw he
  unfold Decoder.chunkedRound
  by_cases hb : c.state = .body
  · simp only [Chunked.step, hb, Chunked.readBody]
    rcases hr : MemRead.readMem r (min c.chunkLen usizeMax) with ⟨(e | slice) | _ | _ | _, r'⟩
    · trivial
    · by_cases hs : slice = []
      · simp only [within, whenOk_ok, if_pos hs]; trivial
      · have hst : (if 0 < c.chunkLen - slice.length then ChunkedState.body else .bodyCr) ≠ .ended := by
          split <;> simp
        simp only [within, whenOk_ok, if_neg hs, Ctl.whenOk, Ctl.whenReady, if_neg hst]
        exact .inr ⟨hs, live_chunked (c.eat_ok slice.length) hst⟩
    · exact hlive
    · exact hlive
    · exact absurd (congrArg Prod.fst hr) (hread r _)
  · simp only [Chunked.step_withByte hb he, Chunked.withByte]
    rcases hr : MemRead.readMem r 1 with ⟨(e | _ | ⟨b, _⟩) | _ | _ | _, r'⟩
    · trivial
    · trivial
    · have hok := Chunked.onByte_ok hw hb he b
      simp only [within, whenOk_ok]
      rcases ho : c.onByte b with ⟨st | e | _, c'⟩
      · rw [ho] at hok
        by_cases hst : st = .ended
        · subst hst
          simp only [Ctl.whenOk, Ctl.whenReady, if_true]
          cases ht : c'.trailersBuf with
          | none => exact .inl rfl
          | some t =>
            simp only
            rcases hd : decodeTrailers H t c'.trailersCnt with _ | (e | m)
            · exact rfl
            · trivial
            · exact rfl
        · simp only [Ctl.whenOk, Ctl.whenReady, if_neg hst]
          exact ⟨hok, hst⟩
      · trivial
      · rw [ho] at hok; exact hok.elim
    · exact hlive
    · exact hlive
    · exact absurd (congrArg Prod.fst hr) (hread r _)

/-- **A decoder inside a body** stays inside it or reaches its end, on any reader that
does not panic. -/
theorem decode_live (hread : ∀ (r : ρ) n, (MemRead.readMem r n).1 ≠ .panicked) (fuel : ℕ) {d : Decoder} (r : ρ)
    (hd : d.Live) : (d.decode H fuel r).2.1.LiveCall (d.decode H fuel r).1 := by
  cases d with
  | length remaining =>
    have h0 : remaining ≠ 0 := by simpa [Decoder.isEof] using hd.notEof
    simp only [Decoder.decode, if_neg h0]
    refine whenOk_within_ind (P := fun y : _ × Decoder × ρ => y.2.1.LiveCall y.1) (fun b t ht => ?_)
      (fun e t ht => trivial) fun p hp' hpan => ?_
    · simp only
      split
      · exact .inl rfl
      split
      · trivial
      · rename_i h1 h2
        by_cases hz : remaining - b.length = 0
        · exact .inl (by simp [Decoder.isEof, hz])
        · exact .inr ⟨by rintro rfl; exact h2 rfl, trivial, by simpa [Decoder.isEof] using hz⟩
    · exact hd.call_of_refused hp' fun hp => hread _ _ (hpan hp)
  | chunked c =>
    have hne : c.state ≠ .ended := by simpa [Decoder.isEof] using hd.notEof
    exact loop_inv (I := fun y : Chunked × ρ => y.1.Wf ∧ y.1.state ≠ .ended)
      (Q := fun x : _ × Chunked × ρ => (Decoder.chunked x.2.1).LiveCall x.1)
      (fun y hy => chunkedRound_live hread y.2 hy.1 hy.2) (fun y hy => live_chunked hy.1 hy.2) fuel (c, r)
      ⟨hd.wf, hne⟩
  | eof seen =>
    have h0 : seen = false := by simpa [Decoder.isEof] using hd.notEof
    subst h0
    simp only [Decoder.decode]
    refine whenOk_within_ind (P := fun y : _ × Decoder × ρ => y.2.1.LiveCall y.1) (fun b t ht => ?_)
      (fun e t ht => trivial) fun p hp' hpan => ?_
    · by_cases hb : b = []
      · exact .inl (by simp [Decoder.isEof, hb])
      · exact .inr ⟨hb, trivial, by simpa [Decoder.isEof] using hb⟩
    · exact hd.call_of_refused hp' fun hp => hread _ _ (hpan hp)

/-- A close-delimited body ends only where the reader finds nothing. -/
theorem decode_closeDelimited {fuel : ℕ} {d : Decoder} {r : ρ} (hd : d.Live)
    (h : (d.decode H fuel r).2.1 = .eof true) :
    d.decode H fuel r = (.ready (.ok (.data [])), .eof true, (MemRead.readMem r 8192).2) ∧
      (MemRead.readMem r 8192).1 = .ready (.ok []) := by
  cases d with
  | length remaining =>
    have h0 : remaining ≠ 0 := by simpa [Decoder.isEof] using hd.notEof
    simp only [Decoder.decode, if_neg h0] at h
    rcases hr : MemRead.readMem r (min remaining usizeMax) with ⟨(e | b) | _ | _ | _, r'⟩ <;> rw [hr] at h
    · cases h
    · simp only [within, whenOk_ok] at h
      split at h
      · cases h
      · split at h <;> cases h
    all_goals cases h
  | chunked c => cases h
  | eof seen =>
    have h0 : seen = false := by simpa [Decoder.isEof] using hd.notEof
    subst h0
    simp only [Decoder.decode, Bool.false_eq_true, if_false] at h ⊢
    rcases hr : MemRead.readMem r 8192 with ⟨(e | b) | _ | _ | _, r'⟩ <;> rw [hr] at h
    · cases h
    · have hb : b = [] := by simpa [within] using h
      subst hb
      exact ⟨rfl, rfl⟩
    all_goals cases h

end Decoder

/-! ## Heads -/

/-- What the loop over the lines knows about the connection. -/
structure Fields.Honest (f : Fields) (persistent : Bool) : Prop where
  saw : f.sawConnectionClose = connectionAnyClose f.headers
  keepAlive : f.keepAlive = true ↔
    f.sawConnectionClose = false ∧ (persistent = true ∨ (f.headers.getAll .connection).any connectionKeepAlive = true)

theorem Fields.Honest.add {f : Fields} {p : Bool} (h : f.Honest p) (name : HeaderName) (value : HeaderValue) :
    (f.add name value).Honest p := by
  obtain ⟨hs, hk⟩ := h
  unfold connectionAnyClose at hs
  unfold Fields.add
  by_cases hn : name = .connection
  · have hall : ((f.headers.append name value).getAll .connection) = f.headers.getAll .connection ++ [value] := by
      rw [HeaderMap.getAll_append, if_pos hn.symm]
    simp only [if_pos hn]
    by_cases hc : (f.sawConnectionClose || connectionClose value) = true
    · rw [if_pos hc]
      refine ⟨?_, nofun, fun h => (by cases h.1)⟩
      show true = _
      rw [connectionAnyClose, hall, any_append, ← hs, any_cons, any_nil, Bool.or_false, hc]
    · rw [if_neg hc]
      simp only [Bool.or_eq_true, not_or, Bool.not_eq_true] at hc
      have hsaw : connectionAnyClose (f.headers.append name value) = false := by
        rw [connectionAnyClose, hall, any_append, ← hs, hc.1, any_cons, hc.2]; rfl
      by_cases hka : f.keepAlive = true
      · rw [if_neg (by simp [hka])]
        refine ⟨hc.1.trans hsaw.symm, fun _ => ⟨hc.1, (hk.1 hka).2.imp id fun h => ?_⟩, fun _ => hka⟩
        show any ((f.headers.append name value).getAll .connection) _ = true
        rw [hall, any_append, h, Bool.true_or]
      · rw [if_pos (by simpa using hka)]
        -- no line before this one has asked for it
        have hno : ¬ (p = true ∨ (f.headers.getAll .connection).any connectionKeepAlive = true) := fun h =>
          hka (hk.2 ⟨hc.1, h⟩)
        rw [not_or, Bool.not_eq_true, Bool.not_eq_true] at hno
        refine ⟨hc.1.trans hsaw.symm, ?_⟩
        show connectionKeepAlive value = true ↔ _ ∧
          (_ ∨ any ((f.headers.append name value).getAll .connection) _ = true)
        rw [hall, any_append, hno.2, hno.1]
        simp [hc.1]
  · have hall : ((f.headers.append name value).getAll .connection) = f.headers.getAll .connection := by
      rw [HeaderMap.getAll_append, if_neg (Ne.symm hn)]
    simp only [if_neg hn]
    refine ⟨?_, ?_⟩
    · show f.sawConnectionClose = _
      rw [connectionAnyClose, hall, hs]
    · show f.keepAlive = true ↔ _
      rw [hall]; exact hk

theorem readFields_honest {slice : Bytes} {p : Bool} (idxs : List HeaderIndices) :
    ∀ {f f' : Fields}, f.Honest p → readFields slice idxs f = some (.ok f') → f'.Honest p := by
  induction idxs with
  | nil => intro f f' h hr; cases hr; exact h
  | cons idx idxs ih =>
    intro f f' h hr
    unfold readFields at hr
    split at hr
    · cases hr
    · cases hr
    · exact ih (h.add _ _) hr

/-- What a final head says about the connection. -/
structure ParsedMessage.Honest (msg : ParsedMessage) : Prop where
  expectContinue : msg.expectContinue = false
  keepAlive : msg.keepAlive = true ↔ connectionAnyClose msg.head.headers = false ∧
    (msg.head.version = .http11 ∨ (msg.head.headers.getAll .connection).any connectionKeepAlive = true) ∧
    msg.wantsUpgrade = false

/-- No map with fields of another message is used again. -/
def Unused (cached : Option HeaderMap) : Prop := cached.getD .empty = .empty

theorem readHead_honest {ctx : ParseContext} {slice : Bytes} {raw : RawHead} {cached : Option HeaderMap}
    {x : ResponseHead × Bool} (hc : Unused cached) (h : Client.readHead ctx slice raw cached = some (.ok x)) :
    x.2 = true ↔ connectionAnyClose x.1.headers = false ∧
      (x.1.version = .http11 ∨ (x.1.headers.getAll .connection).any connectionKeepAlive = true) := by
  unfold Client.readHead at h
  simp only at h
  rw [hc] at h
  generalize (if ctx.h1ParserConfig.obsoleteMultilineHeaders = true then obsFoldLines slice raw.headers
    else (slice, raw.headers)) = y at h
  obtain ⟨slice', idxs⟩ := y
  rcases hr : readFields slice' idxs ⟨.empty, raw.version = .http11, false⟩ with _ | e | f
  · rw [hr] at h; cases h
  · rw [hr] at h; cases h
  · rw [hr] at h
    cases h
    have h0 : Fields.Honest ⟨.empty, raw.version = .http11, false⟩ (raw.version = .http11) :=
      ⟨rfl, fun h => ⟨rfl, .inl h⟩, fun h => h.2.resolve_right (by simp [HeaderMap.getAll, HeaderMap.empty])⟩
    have hf := readFields_honest idxs h0 hr
    rw [hf.keepAlive, hf.saw, decide_eq_true_eq]

/-- What a parse leaves: no old map, and an honest message. -/
def ParseOk (x : Poll (Except Parse (Option ParsedMessage)) × Parsing) : Prop :=
  Unused x.2.cachedHeaders ∧ ∀ msg, x.1 = .ready (.ok (some msg)) → msg.Honest

theorem clientParse_ok {H : Httparse} {ctx : ParseContext} {s : Parsing} (hs : Unused s.cachedHeaders) :
    ParseOk (Client.parse H ctx s) := by
  refine loop_inv (I := fun s : Parsing => Unused s.cachedHeaders) (Q := ParseOk) (fun s hs => ?_)
    (fun s hs => ⟨hs, by simp⟩) _ s hs
  unfold Client.parseRound
  split
  · exact ⟨hs, by simp⟩
  · exact ⟨hs, by simp⟩
  · simp only
    split
    · exact ⟨rfl, by simp⟩
    · exact ⟨rfl, by simp⟩
    · rename_i x hx
      have hh := readHead_honest hs hx
      unfold Client.finishHead
      split
      · exact ⟨rfl, by simp⟩
      · refine ⟨rfl, fun msg hm => ?_⟩
        simp only [Poll.ready.injEq, Except.ok.injEq, Option.some.injEq] at hm
        subst hm
        refine ⟨rfl, ?_⟩
        simp only [Bool.and_eq_true, Bool.not_eq_true', hh, and_assoc]
      · simp only
        split <;> split
        · exact ⟨rfl, by simp⟩
        · exact rfl
        · exact ⟨rfl, by simp⟩
        · exact rfl

theorem parseHeaders_unused (H : Httparse) (prevLen : Option ℕ) (ctx : ParseContext) {s : Parsing}
    (hs : Unused s.cachedHeaders) : ParseOk (parseHeaders H prevLen ctx s) := by
  unfold parseHeaders
  split
  · exact ⟨hs, by simp⟩
  split
  · exact ⟨hs, by simp⟩
  · exact ⟨hs, by simp⟩
  · exact clientParse_ok hs
  · exact clientParse_ok hs

section Parse

variable {β : Type} [LawfulBuf β] {H : Httparse} {ctx : ParseContext}

/-- **What a read and a change of the read buffer keep, a parse keeps.** -/
theorem parse_keeps {P : Buffered β → Prop} (hread : ∀ b, P b → P b.pollReadFromIo.2)
    (hbuf : ∀ b x, P b → P { b with readBuf := x }) (hlen : ∀ b l, P b → P { b with partialLen := l }) (fuel : ℕ)
    (r : HeadReader β) (hr : P r.io) : P (HeadReader.parse H ctx fuel r).2.io := by
  refine loop_inv (I := fun r : HeadReader β => P r.io) (Q := fun x => P x.2.io) (fun r hr => ?_)
    (fun _ h => h) fuel r hr
  have h : P (r.put (parseHeaders H r.io.partialLen ctx r.parsing).2).io := hbuf _ _ hr
  unfold HeadReader.parseRound
  refine Ctl.whenReady_sat (fun res t ht => ?_) fun _ _ => h
  have ht' : t = r.put (parseHeaders H r.io.partialLen ctx r.parsing).2 := (congrArg Prod.snd ht).symm
  rw [← ht'] at h
  rcases res with e | _ | msg
  · exact h
  · simp only
    split
    · exact h
    split
    · exact h
    have h₁ := hread _ (hlen t.io (if t.io.readBuf = [] then none else some t.io.readBuf.length) h)
    refine Ctl.whenReady_sat (fun res u hu => ?_) fun _ _ => h₁
    have hu' : u = { t.setPartialLen with io := t.setPartialLen.io.pollReadFromIo.2 } := (congrArg Prod.snd hu).symm
    have h₂ : P u.io := by rw [hu']; exact h₁
    rcases res with e | n
    · exact h₂
    · simp only
      split <;> exact h₂
  · exact hlen _ _ h

/-- **What a parsed head says about the connection.** -/
theorem parse_message (fuel : ℕ) {r : HeadReader β} (hr : Unused r.cachedHeaders) :
    Unused (HeadReader.parse H ctx fuel r).2.cachedHeaders ∧
      ∀ msg, (HeadReader.parse H ctx fuel r).1 = .ready (.ok msg) → msg.Honest := by
  refine loop_inv (I := fun r : HeadReader β => Unused r.cachedHeaders)
    (Q := fun x : Poll (Except Error ParsedMessage) × HeadReader β =>
      Unused x.2.cachedHeaders ∧ ∀ msg, x.1 = .ready (.ok msg) → msg.Honest) (fun r hr => ?_)
    (fun r hr => ⟨hr, by simp⟩) fuel r hr
  have h := parseHeaders_unused H r.io.partialLen ctx (s := r.parsing) hr
  unfold HeadReader.parseRound
  refine Ctl.whenReady_sat (fun res t ht => ?_) fun p hn => ⟨h.1, fun msg hm => absurd hm (hn _)⟩
  have ht' : t = r.put (parseHeaders H r.io.partialLen ctx r.parsing).2 := (congrArg Prod.snd ht).symm
  have hc : Unused t.cachedHeaders := by rw [ht']; exact h.1
  rcases res with e | _ | msg
  · exact ⟨hc, by simp⟩
  · simp only
    split
    · exact ⟨hc, by simp⟩
    split
    · exact ⟨hc, by simp⟩
    refine Ctl.whenReady_sat (fun res u hu => ?_) fun p hn => ⟨hc, fun msg hm => absurd hm (hn _)⟩
    have hu' : u = { t.setPartialLen with io := t.setPartialLen.io.pollReadFromIo.2 } := (congrArg Prod.snd hu).symm
    have hcu : Unused u.cachedHeaders := by rw [hu']; exact hc
    rcases res with e | n
    · exact ⟨hcu, by simp⟩
    · simp only
      split
      · exact ⟨hcu, by simp⟩
      · exact hcu
  · refine ⟨hc, fun m hm => ?_⟩
    simp only [Poll.ready.injEq, Except.ok.injEq] at hm
    exact hm ▸ h.2 msg (congrArg Prod.fst ht)

end Parse

end Netty
