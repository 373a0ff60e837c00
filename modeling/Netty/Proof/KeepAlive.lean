import Netty.Proof.Flush
import Netty.Proof.Head
import Netty.Proof.Serial

/-!
# A connection that is given up stays so

* `Ev.Closing`: the events after which a connection is not used again.
* `Conn.Final`: keep-alive is off behind such an event, and then writing does not come
  back to its start.
* `Conn.AtEnd`: a response that the end of the stream has ended. The connection may
  still turn idle, and is closed by the read that follows at once.
* `keep_alive_final`: no head is written behind either.
-/

namespace Netty

open List

/-! ## Events -/

def Ev.isHead : Ev → Bool
  | .wroteHead _ _ _ _ => true
  | _ => false

/-- A response that does not keep the connection open: it says so, or is older than
HTTP/1.1 and does not ask to. -/
def ParsedMessage.Last (msg : ParsedMessage) : Prop :=
  connectionAnyClose msg.head.headers = true ∨
    msg.head.version ≠ .http11 ∧ (msg.head.headers.getAll .connection).any connectionKeepAlive = false ∨
    msg.wantsUpgrade = true

/-- The exchange is the last one of the connection. -/
def Ev.Closing : Ev → Prop
  | .wroteHead remote head _ _ => connectionAnyClose head.headers = true ∨ Conn.Transient remote head
  | .gotHead msg => msg.Last
  | .closed => True
  | _ => False

def Ev.isEnding : Ev → Bool
  | .decoded _ (.eof true) => true
  | _ => false

def Ev.Ending (ev : Ev) : Prop := ev.isEnding = true

def Ev.Plain : Ev → Prop
  | .wroteHead _ _ _ _ | .gotHead _ | .closed => False
  | _ => True

/-- No head was written behind such an event. The log is latest first. -/
def NoHeadAfter (P : Ev → Prop) (log : List Ev) : Prop :=
  log.Pairwise fun later earlier => later.isHead = true → ¬ P earlier

theorem Ev.Plain.not_closing {ev : Ev} (h : ev.Plain) : ¬ ev.Closing := by
  cases ev <;> first | exact h.elim | exact id

theorem Ev.Plain.not_head {ev : Ev} (h : ev.Plain) : ev.isHead = false := by
  cases ev <;> first | exact h.elim | rfl

namespace NoHeadAfter

variable {P Q : Ev → Prop} {log log' : List Ev}

theorem other {ev : Ev} (h : NoHeadAfter P log) (hev : ev.isHead = false) : NoHeadAfter P (ev :: log) :=
  pairwise_cons.2 ⟨fun _ _ hh => (by rw [hev] at hh; cases hh), h⟩

theorem adds (h : NoHeadAfter P log) (ha : Adds Q log log') (hQ : ∀ ev, Q ev → ev.isHead = false) :
    NoHeadAfter P log' := by
  obtain ⟨l, rfl, hl⟩ := ha
  induction l with
  | nil => exact h
  | cons ev l ih =>
    exact other (ih fun e he => hl e (mem_cons_of_mem _ he)) (hQ ev (hl ev mem_cons_self))

theorem head (h : NoHeadAfter P log) (hP : ∀ ev ∈ log, ¬ P ev) (ev : Ev) : NoHeadAfter P (ev :: log) :=
  pairwise_cons.2 ⟨fun e he _ => hP e he, h⟩

end NoHeadAfter

namespace Conn

variable {β : Type} [LawfulBuf β] {H : Httparse} {c c' : Conn β} {s s' : State}

/-! ## Keep-alive -/

/-- Keep-alive is off behind a closing event, and then writing is not at its start,
unless nothing is read any more. -/
structure Final (s : State) : Prop where
  unused : Unused s.cachedHeaders
  disabled : ∀ ev ∈ s.log, ev.Closing → s.keepAlive = .disabled
  last : s.keepAlive = .disabled → s.writing = .init → s.reading = .closed
  heads : NoHeadAfter Ev.Closing s.log

theorem Final.open_log (h : Final s) (hk : s.keepAlive ≠ .disabled) : ∀ ev ∈ s.log, ¬ ev.Closing :=
  fun ev hev hc => hk (h.disabled ev hev hc)

theorem Final.plain (h : Final s) (hk : s'.keepAlive = s.keepAlive) (hu : Unused s'.cachedHeaders)
    (hlog : Adds Ev.Plain s.log s'.log)
    (hw : s'.writing = .init → s.writing = .init ∧ (s.reading = .closed → s'.reading = .closed)) : Final s' := by
  refine ⟨hu, fun ev hev hc => ?_, fun hd hi => ?_, h.heads.adds hlog fun _ => Ev.Plain.not_head⟩
  · obtain ⟨l, hl, hplain⟩ := hlog
    rw [hl] at hev
    rcases mem_append.1 hev with hev | hev
    · exact absurd hc (hplain ev hev).not_closing
    · rw [hk]; exact h.disabled ev hev hc
  · obtain ⟨hi', hr⟩ := hw hi
    exact hr (h.last (hk ▸ hd) hi')

theorem Final.same (h : Final s) (hs : s.Same s') : Final s' :=
  h.plain hs.keepAlive (hs.cachedHeaders ▸ h.unused) (hs.log ▸ .refl _) fun hi =>
    ⟨hs.writing ▸ hi, fun hr => hs.reading ▸ hr⟩

theorem Final.closed (h : Final s) (hk : s'.keepAlive = .disabled) (hu : s'.cachedHeaders = s.cachedHeaders)
    (hlog : s'.log = .closed :: s.log) (hw : s'.writing = .init → s'.reading = .closed) : Final s' := by
  refine ⟨hu ▸ h.unused, fun _ _ _ => hk, fun _ hi => hw hi, ?_⟩
  rw [hlog]
  exact h.heads.other rfl

theorem Final.wrote (h : Final c.state) (hw : BodyWritten c c') (hc : c.canWriteBody = true) : Final c'.state := by
  obtain ⟨w, l, hs, hl, hne⟩ := hw.state
  have hni : c.state.writing ≠ .init := by
    intro hi
    simp [canWriteBody, hi] at hc
  rw [hs]
  refine h.plain rfl h.unused ⟨l, rfl, fun ev hev => ?_⟩ fun hi => absurd hi (hne hni)
  obtain ⟨bytes, rfl⟩ := hl ev hev
  trivial

theorem Final.tryKeepAlive (h : Final s) : Final s.tryKeepAlive := by
  rcases s.tryKeepAlive_cases with ⟨hk, -⟩ | ⟨hk, -, -, hb⟩ | hk <;> rw [hk]
  · exact h
  · exact ⟨h.unused, fun ev hev hc => absurd hc (h.open_log (by simp [hb]) ev hev), fun hd => (nomatch hd), h.heads⟩
  · exact h.closed rfl rfl rfl fun _ => rfl

theorem Final.maybeNotify (h : Final c.state) : Final c.maybeNotify.state := by
  rcases c.maybeNotify_cases with ⟨⟨s, hs, hn⟩, -⟩ | ⟨-, -, s, hn, hs⟩ <;> rw [hn]
  · exact h.same hs
  · rcases hs with ⟨hs, -⟩ | hs | ⟨hs, -⟩
    · exact h.same hs
    · exact (h.closed rfl rfl rfl fun _ => rfl : Final c.state.close).same hs
    · exact (h.closed rfl rfl rfl fun _ => rfl : Final c.state.closeRead).same hs

theorem parse_honest (fuel : ℕ) (h : Unused c.state.cachedHeaders) : Unused (c.parse H fuel).2.state.cachedHeaders ∧
    ∀ msg, (c.parse H fuel).1 = .ready (.ok msg) → msg.Honest := parse_message fuel h

theorem Final.calm (hm : Calm H c c') (h : Final c.state) : Final c'.state := by
  cases hm with
  | parse fuel _ =>
    exact h.plain rfl (parse_honest fuel h.unused).1 (.refl _) fun hi => ⟨hi, id⟩
  | interim _ _ => exact h
  | unhold hr => exact h.plain rfl h.unused (.refl _) fun hi => ⟨hi, fun hc => by rw [hr] at hc; cases hc⟩
  | decode hr hd _ =>
    rw [(decodeBody_inv hd).2]
    exact h.plain rfl h.unused (.single (.decoded _ _) trivial _) fun hi =>
      ⟨hi, fun hc => by rcases hr with hr | hr <;> rw [hr] at hc <;> cases hc⟩
  | @frame c₁ _ i _ d' _ r unexpected hr hd _ =>
    have hs := (decodeBody_inv hd).2
    have hc : ¬ c.state.reading = .closed := by rcases hr with hr | hr <;> simp [hr]
    cases unexpected with
    | false =>
      show Final { c₁.state with reading := r }
      rw [hs]
      exact h.plain rfl h.unused (.single (.decoded i _) trivial _) fun hi => ⟨hi, fun h => absurd h hc⟩
    | true =>
      show Final { c₁.state.note .unexpectedEnd with reading := r }
      rw [hs]
      exact h.plain rfl h.unused ((Adds.single (.decoded i _) trivial _).trans (.single .unexpectedEnd trivial _))
        fun hi => ⟨hi, fun h => absurd h hc⟩
  | tryKeepAlive => exact h.tryKeepAlive.maybeNotify (c := c.modify State.tryKeepAlive)
  | read => exact h
  | skip _ => exact h
  | closeRead => exact h.closed rfl rfl rfl fun _ => rfl
  | closeWrite hr => exact h.closed rfl rfl rfl fun hi => nomatch hi
  | close => exact h.closed rfl rfl rfl fun _ => rfl
  | writeBody hc _ => exact h.wrote (c.writeBody_written _) hc
  | writeTrailers fields hc => exact h.wrote (c.writeTrailers_written fields) hc
  | writeBodyAndEnd hc _ => exact h.wrote (c.writeBodyAndEnd_written _) hc
  | endBody hc => exact h.wrote c.endBody_written hc
  | flush => exact h
  | flushed done => exact h.plain rfl h.unused (.single (.flushed done) trivial _) fun hi => ⟨hi, id⟩
  | shutdown => exact h
  | quiet hs => exact h.same hs

/-- A response that is the last one turns keep-alive off. -/
theorem last_keepAlive {msg : ParsedMessage} (hm : msg.Honest) (hl : msg.Last) : msg.keepAlive = false := by
  by_contra hk
  obtain ⟨h1, h2, h3⟩ := hm.keepAlive.1 (by simpa using hk)
  rcases hl with h | ⟨hv, hc⟩ | h
  · rw [h] at h1; cases h1
  · rcases h2 with h2 | h2
    · exact hv h2
    · rw [hc] at h2; cases h2
  · rw [h] at h3; cases h3

theorem Final.move (hm : Move H c c') (h : Final c.state) : Final c'.state := by
  cases hm with
  | calm hm => exact h.calm hm
  | @head c₁ fuel msg hr hparse =>
    simp only [canReadHead, Bool.and_eq_true, decide_eq_true_eq] at hr
    have hp := parse_honest (H := H) fuel h.unused
    have hs : _ = c₁.state := congrArg (fun y => y.2.state) hparse
    have hmsg : msg.Honest := hp.2 msg (congrArg Prod.fst hparse)
    have g := gotHead_got c₁.state msg
    have hwr : (gotHead msg c₁.state).writing ≠ .init := by rw [g.writing, ← hs]; exact hr.2
    refine ⟨?_, fun ev hev hc => ?_, fun _ hi => absurd hi hwr, ?_⟩
    · show Unused (gotHead msg c₁.state).cachedHeaders
      rw [g.cachedHeaders, ← hs]
      exact hp.1
    · refine g.keepAlive ?_
      rw [show (c₁.modify (gotHead msg)).state.log = _ from g.log, ← hs] at hev
      rcases mem_cons.1 hev with rfl | hev
      · exact .inr (last_keepAlive hmsg hc)
      · rw [← hs]
        exact .inl (h.disabled ev hev hc)
    · show NoHeadAfter _ (gotHead msg c₁.state).log
      rw [g.log, ← hs]
      exact h.heads.other rfl
  | writeHead head body hc =>
    simp only [canWriteHead, Bool.and_eq_true, decide_eq_true_eq] at hc
    have g := c.writeHead_wrote head body
    have hopen : ∀ ev ∈ c.state.log, ¬ ev.Closing := h.open_log fun hd => hc.1 (h.last hd hc.2.1)
    refine ⟨?_, fun ev hev hcl => ?_, fun _ hi => ?_, ?_⟩
    · rw [g.cachedHeaders]; rfl
    · refine g.keepAlive (.inr ?_)
      rw [g.log] at hev
      rcases mem_cons.1 hev with rfl | hev
      · exact hcl
      · exact absurd hcl (hopen ev hev)
    · rw [g.writing] at hi
      unfold writingDone at hi
      split_ifs at hi
    · rw [g.log]; exact h.heads.head hopen _
  | @note ev hev =>
    refine h.plain rfl h.unused (.single ev ?_ _) fun hi => ⟨hi, id⟩
    cases ev <;> first | exact hev.elim | trivial

end Conn

/-! ## The end of the stream -/

namespace Buffered

variable {β : Type} [LawfulBuf β] {b b' : Buffered β}

/-- Nothing that belongs to reading has changed. -/
structure SameReads (b b' : Buffered β) : Prop where
  readBuf : b'.readBuf = b.readBuf
  readBlocked : b'.readBlocked = b.readBlocked
  reads : b'.io.reads = b.io.reads
  received : b'.io.received = b.io.received
  partialLen : b'.partialLen = b.partialLen

theorem SameReads.refl (b : Buffered β) : SameReads b b := ⟨rfl, rfl, rfl, rfl, rfl⟩

theorem SameReads.trans {b'' : Buffered β} (h : SameReads b b') (h' : SameReads b' b'') : SameReads b b'' :=
  ⟨h'.1.trans h.1, h'.2.trans h.2, h'.3.trans h.3, h'.4.trans h.4, h'.5.trans h.5⟩

theorem pollWrite_reads (io : Transport) (buf : Bytes) :
    (io.pollWrite buf).2.reads = io.reads ∧ (io.pollWrite buf).2.received = io.received := by
  unfold Transport.pollWrite
  cases io.writes.head <;> exact ⟨rfl, rfl⟩

theorem sameReads_flushKeeps (b₀ : Buffered β) : FlushKeeps (SameReads b₀) where
  write b buf h := h.trans ⟨rfl, rfl, (pollWrite_reads b.io buf).1, (pollWrite_reads b.io buf).2, rfl⟩
  flush _ h := h.trans ⟨rfl, rfl, rfl, rfl, rfl⟩
  shutdown _ h := h.trans ⟨rfl, rfl, rfl, rfl, rfl⟩
  headers _ _ h := h.trans ⟨rfl, rfl, rfl, rfl, rfl⟩
  advance _ _ h := h.trans ⟨rfl, rfl, rfl, rfl, rfl⟩

/-- **A flush does not read.** -/
theorem pollFlush_sameReads (b : Buffered β) : SameReads b b.pollFlush.2 :=
  (sameReads_flushKeeps b).pollFlush (.refl b)

theorem pollShutdown_sameReads (b : Buffered β) : SameReads b b.pollShutdown.2 :=
  (sameReads_flushKeeps b).pollShutdown (.refl b)

theorem pollReadFromIo_reads (b : Buffered β) : b.pollReadFromIo.2.io.reads = b.io.reads.tail := by
  rw [b.pollReadFromIo_eq]
  cases b.io.reads.head <;> rfl

theorem readMem_reads (b : Buffered β) (len : ℕ) :
    (b.readMem len).2.io.reads = b.io.reads ∨ (b.readMem len).2.io.reads = b.io.reads.tail := by
  have h := b.pollReadFromIo_reads
  unfold readMem
  split
  · exact .inl rfl
  · refine .inr (whenOk_ind (P := fun x : _ × Buffered β => x.2.io.reads = b.io.reads.tail) (fun _ t ht => ?_)
      (fun _ t ht => ?_) fun _ _ => h)
    · rw [ht] at h; exact h
    · rw [ht] at h; exact h

/-- The transport has reported the end of the stream, which is all it ever will. -/
structure Drained (b : Buffered β) : Prop where
  reads : ∀ n, b.io.reads.get n = .ok []
  readBuf : b.readBuf = []
  readBlocked : b.readBlocked = false

theorem Drained.same (h : b.Drained) (hs : SameReads b b') : b'.Drained :=
  ⟨by rw [hs.reads]; exact h.reads, hs.readBuf.trans h.readBuf, hs.readBlocked.trans h.readBlocked⟩

theorem Drained.read (h : b.Drained) : b.pollReadFromIo.2.Drained := by
  have hh : b.io.reads.head = .ok [] := h.reads 0
  rw [b.pollReadFromIo_eq, hh]
  exact ⟨fun n => h.reads (n + 1), by simp [h.readBuf], rfl⟩

end Buffered

def StaysEnded (reads : Stream' ReadEv) : Prop := ∀ n, reads.get n = .ok [] → ∀ m, n ≤ m → reads.get m = .ok []

theorem StaysEnded.tail {reads : Stream' ReadEv} (h : StaysEnded reads) : StaysEnded reads.tail :=
  fun n hn m hm => h (n + 1) hn (m + 1) (Nat.succ_le_succ hm)

theorem Buffered.readMem_drained {β : Type} [LawfulBuf β] {b : Buffered β} (hs : StaysEnded b.io.reads)
    (h : (b.readMem 8192).1 = .ready (.ok [])) : (b.readMem 8192).2.Drained := by
  unfold readMem at h ⊢
  split
  · rename_i hb
    rw [if_pos hb] at h
    simp only [Poll.ready.injEq, Except.ok.injEq, take_eq_nil_iff] at h
    have := length_pos_of_ne_nil hb
    rcases h with h | h
    · omega
    · exact absurd h hb
  · rename_i hb
    rw [if_neg hb] at h
    simp only [ne_eq, Decidable.not_not] at hb
    rw [b.pollReadFromIo_eq] at h ⊢
    cases hv : b.io.reads.head with
    | ok bytes =>
      rw [hv] at h
      simp only [whenOk_ok, gotRead_readBuf, hb, nil_append, Poll.ready.injEq, Except.ok.injEq,
        take_eq_nil_iff] at h
      have h0 : bytes = [] := by
        rcases h with h | h
        · exact length_eq_zero_iff.1 (by omega)
        · exact h
      subst h0
      refine ⟨fun n => hs 0 hv (n + 1) (Nat.zero_le _), ?_, rfl⟩
      show (b.readBuf ++ []).drop _ = []
      simp [hb]
    | err e => rw [hv] at h; cases h
    | pending => rw [hv] at h; cases h

namespace Conn

variable {β : Type} [LawfulBuf β] {H : Httparse} {c c' : Conn β} {s s' : State}

/-- A response that was ended by the end of the stream: the connection is closed, or
has only its request to finish. -/
structure AtEnd (c : Conn β) : Prop where
  reads : StaysEnded c.io.io.reads
  inTurn : InTurn c.state
  ended : ∀ ev ∈ c.state.log, ev.Ending →
    c.state.reading = .closed ∨ c.state.reading = .keepAlive ∧ c.io.Drained
  heads : NoHeadAfter Ev.Ending c.state.log

theorem AtEnd.not_ended (h : AtEnd c) (hr : c.state.reading ≠ .closed) (hk : c.state.reading ≠ .keepAlive) :
    ∀ ev ∈ c.state.log, ¬ ev.Ending := fun ev hev he => by
  rcases h.ended ev hev he with h | h
  · exact hr h
  · exact hk h.1

theorem AtEnd.step (h : AtEnd c) (hi : InTurn c'.state) (hs : c.io.SameReads c'.io)
    (hlog : Adds (fun ev => ev.isHead = false ∧ ¬ ev.Ending) c.state.log c'.state.log)
    (hr : c'.state.reading = c.state.reading ∨ c'.state.reading = .closed) : AtEnd c' := by
  refine ⟨by rw [hs.reads]; exact h.reads, hi, fun ev hev he => ?_, h.heads.adds hlog fun _ h => h.1⟩
  obtain ⟨l, hl, hno⟩ := hlog
  rw [hl] at hev
  rcases mem_append.1 hev with hev | hev
  · exact absurd he (hno ev hev).2
  · rcases hr with hr | hr
    · rw [hr]
      exact (h.ended ev hev he).imp id fun h => ⟨h.1, h.2.same hs⟩
    · exact .inl hr

theorem not_ending_closed (ev : Ev) (h : ev = .closed) : ev.isHead = false ∧ ¬ ev.Ending := by
  subst h
  exact ⟨rfl, Bool.false_ne_true⟩

theorem AtEnd.wrote (h : AtEnd c) (hi : InTurn c'.state) (hw : BodyWritten c c') : AtEnd c' := by
  obtain ⟨w, hio⟩ := hw.io
  obtain ⟨w', l, hs, -, -⟩ := hw.state
  refine h.step hi (by rw [hio]; exact ⟨rfl, rfl, rfl, rfl, rfl⟩) (hw.events.mono ?_) (.inl (by rw [hs]))
  rintro _ ⟨bytes, rfl⟩
  exact ⟨rfl, Bool.false_ne_true⟩

/-- Closed, or only the request is left to finish. -/
def Ended (c : Conn β) : Prop := c.state.reading = .closed ∨ c.state.reading = .keepAlive ∧ c.io.Drained

theorem Ended.maybeNotify (h : Ended c) : Ended c.maybeNotify := by
  have hr : c.state.reading ≠ .init := by rcases h with h | h <;> simp [h]
  rcases c.maybeNotify_cases with ⟨⟨s, hs, hn⟩, -⟩ | ⟨hi, -⟩
  · rw [hn]
    exact h.imp (fun h => hs.reading.trans h) fun h => ⟨hs.reading.trans h.1, h.2⟩
  · exact absurd hi hr

/-- **The read behind the last response.** If the connection turns idle, the read that
follows at once finds the end of the stream again, and closes it. -/
theorem Ended.idle (hd : c.io.Drained) : Ended (c.modify State.idle).maybeNotify := by
  have hhead : c.io.io.reads.head = .ok [] := hd.reads 0
  rcases (c.modify State.idle).maybeNotify_cases with ⟨-, hw⟩ | ⟨-, -, s, hn, hs⟩
  · exact nomatch hw rfl hd.readBuf hd.readBlocked
  · rw [hn]
    rcases hs with ⟨-, hne⟩ | hs | ⟨hs, -⟩
    · exact absurd hhead hne
    · exact .inl hs.reading
    · exact .inl hs.reading

theorem Ended.tryKeepAlive (h : Ended c) : Ended c.tryKeepAlive := by
  unfold Conn.tryKeepAlive
  rcases c.state.tryKeepAlive_cases with ⟨hk, -⟩ | ⟨hk, hr, -⟩ | hk
  · exact Ended.maybeNotify (c := c.modify State.tryKeepAlive) (by unfold Ended modify; rw [hk]; exact h)
  · have hd : c.io.Drained := by
      rcases h with h | h
      · rw [hr] at h; cases h
      · exact h.2
    have he : c.modify State.tryKeepAlive = c.modify State.idle := by unfold modify; rw [hk]
    rw [he]
    exact .idle hd
  · exact Ended.maybeNotify (c := c.modify State.tryKeepAlive) (.inl (by unfold modify; rw [hk]; rfl))

theorem AtEnd.tryKeepAlive (h : AtEnd c) (hi : InTurn c.tryKeepAlive.state) : AtEnd c.tryKeepAlive := by
  have hreads : StaysEnded c.tryKeepAlive.io.io.reads := by
    unfold Conn.tryKeepAlive
    rcases (c.modify State.tryKeepAlive).maybeNotify_cases with ⟨⟨s, -, hn⟩, -⟩ | ⟨-, -, s, hn, -⟩ <;> rw [hn]
    · exact h.reads
    · rw [Buffered.pollReadFromIo_reads]; exact h.reads.tail
  have hlog := c.tryKeepAlive_events.mono not_ending_closed
  refine ⟨hreads, hi, fun ev hev he => ?_, h.heads.adds hlog fun _ h => h.1⟩
  obtain ⟨l, hl, hno⟩ := hlog
  rw [hl] at hev
  rcases mem_append.1 hev with hev | hev
  · exact absurd he (hno ev hev).2
  · exact Ended.tryKeepAlive (h.ended ev hev he)

theorem ending_eof {i : ℕ} {d : Decoder} (h : (Ev.decoded i d).Ending) : d = .eof true := by
  rcases d with _ | _ | _ | _
  · exact absurd h Bool.false_ne_true
  · exact absurd h Bool.false_ne_true
  · exact absurd h Bool.false_ne_true
  · rfl

theorem decode_reads {b b' : Buffered (EncodedBuf β)} {fuel : ℕ} {d d' : Decoder} {p : Poll (Except IoError Frame)}
    (h : d.decode H fuel b = (p, d', b')) (hb : StaysEnded b.io.reads) : StaysEnded b'.io.reads := by
  have hk := decode_keeps (H := H) (P := fun b : Buffered (EncodedBuf β) => StaysEnded b.io.reads)
    (fun r n hr => ?_) fuel d hb
  · rw [h] at hk; exact hk
  · show StaysEnded (r.readMem n).2.io.reads
    rcases r.readMem_reads n with h | h <;> rw [h]
    · exact hr
    · exact hr.tail

theorem AtEnd.decoded {i : ℕ} {d d' : Decoder} (h : AtEnd c) (hi : InTurn c'.state) (hreads : StaysEnded c'.io.io.reads)
    (hr : c.state.reading = .body d ∨ c.state.reading = .continue_ d)
    (hlog : c'.state.log = .decoded i d' :: c.state.log)
    (he : (Ev.decoded i d').Ending → c'.state.reading = .keepAlive ∧ c'.io.Drained) : AtEnd c' := by
  have hno : ∀ ev ∈ c.state.log, ¬ ev.Ending := by
    rcases hr with hr | hr <;> exact h.not_ended (by simp [hr]) (by simp [hr])
  refine ⟨hreads, hi, fun ev hev hend => ?_, ?_⟩
  · rw [hlog] at hev
    rcases mem_cons.1 hev with rfl | hev
    · exact .inr (he hend)
    · exact absurd hend (hno ev hev)
  · rw [hlog]
    exact h.heads.other rfl

theorem AtEnd.calm (hm : Calm H c c') (h : AtEnd c) : AtEnd c' := by
  have hi : InTurn c'.state := h.inTurn.calm hm
  cases hm with
  | parse fuel hr =>
    simp only [canReadHead, Bool.and_eq_true, decide_eq_true_eq] at hr
    refine ⟨?_, hi, fun ev hev he => absurd he (h.not_ended (by simp [hr.1]) (by simp [hr.1]) ev hev), h.heads⟩
    exact parse_keeps (P := fun b => StaysEnded b.io.reads)
      (fun b hb => by rw [b.pollReadFromIo_reads]; exact hb.tail) (fun _ _ h => h) (fun _ _ h => h) fuel _ h.reads
  | interim _ _ => exact h.step hi ⟨rfl, rfl, rfl, rfl, rfl⟩ (.refl _) (.inl rfl)
  | unhold hr =>
    exact ⟨h.reads, hi, fun ev hev he => absurd he (h.not_ended (by simp [hr]) (by simp [hr]) ev hev), h.heads⟩
  | @decode _ fuel i d d' p hr hd hs =>
    obtain ⟨x, ht, hx⟩ := h.inTurn
    obtain ⟨-, -, hl⟩ := hx.inBody hr
    obtain ⟨hcall, hst⟩ := decodeBody_inv hd
    have hnot : ¬ (Ev.decoded i d').Ending := fun he => by
      -- an ended body is handed out at once
      have hd' : d' = .eof true := ending_eof he
      subst hd'
      have h1 := (decode_closeDelimited hl (by rw [hcall])).1
      rw [hcall] at h1
      injection h1 with h1 _
      exact absurd (hs.2 _ h1) (by simp [afterFrame, Decoder.isEof])
    refine h.decoded hi (decode_reads hcall h.reads) hr (by rw [hst]; rfl) fun he => absurd he hnot
  | @frame c₁ fuel i d d' p r unexpected hr hd hf =>
    obtain ⟨x, ht, hx⟩ := h.inTurn
    obtain ⟨-, -, hl⟩ := hx.inBody hr
    obtain ⟨hcall, hst⟩ := decodeBody_inv hd
    obtain ⟨rfl, -⟩ := leaves_ends (decodeBody_live hd hl) hf
    have hreads := decode_reads hcall h.reads
    have hlog : c₁.state.log = .decoded i d' :: c.state.log := by rw [hst]; rfl
    refine h.decoded hi hreads hr hlog fun he => ?_
    have hd' : d' = .eof true := ending_eof he
    subst hd'
    obtain ⟨h1, h2⟩ := decode_closeDelimited hl (by rw [hcall])
    rw [hcall] at h1
    injection h1 with h1 h3
    injection h3 with _ h3
    subst h1
    obtain ⟨⟨⟩⟩ := hf
    refine ⟨rfl, ?_⟩
    show c₁.io.Drained
    rw [h3]
    exact Buffered.readMem_drained h.reads h2
  | tryKeepAlive => exact h.tryKeepAlive hi
  | read =>
    refine ⟨?_, hi, fun ev hev he => (h.ended ev hev he).imp id fun h => ⟨h.1, h.2.read⟩, h.heads⟩
    show StaysEnded c.io.pollReadFromIo.2.io.reads
    rw [Buffered.pollReadFromIo_reads]
    exact h.reads.tail
  | skip hr => exact ⟨h.reads, hi, fun _ _ _ => .inl hr, h.heads⟩
  | closeRead => exact h.step hi ⟨rfl, rfl, rfl, rfl, rfl⟩ ((closed_adds _).mono not_ending_closed) (.inr rfl)
  | closeWrite hr => exact h.step hi ⟨rfl, rfl, rfl, rfl, rfl⟩ ((closed_adds _).mono not_ending_closed) (.inl rfl)
  | close => exact h.step hi ⟨rfl, rfl, rfl, rfl, rfl⟩ ((closed_adds _).mono not_ending_closed) (.inr rfl)
  | writeBody _ _ => exact h.wrote hi (c.writeBody_written _)
  | writeTrailers fields _ => exact h.wrote hi (c.writeTrailers_written fields)
  | writeBodyAndEnd _ _ => exact h.wrote hi (c.writeBodyAndEnd_written _)
  | endBody _ => exact h.wrote hi c.endBody_written
  | flush => exact h.step hi c.io.pollFlush_sameReads (.refl _) (.inl rfl)
  | flushed done =>
    exact h.step hi ⟨rfl, rfl, rfl, rfl, rfl⟩ (.single (.flushed done) ⟨rfl, Bool.false_ne_true⟩ _) (.inl rfl)
  | shutdown => exact h.step hi c.io.pollShutdown_sameReads (.refl _) (.inl rfl)
  | quiet hs => exact h.step hi ⟨rfl, rfl, rfl, rfl, rfl⟩ (hs.log ▸ .refl _) (.inl hs.reading)

theorem AtEnd.move (hm : Move H c c') (h : AtEnd c) : AtEnd c' := by
  have hi : InTurn c'.state := h.inTurn.move hm
  cases hm with
  | calm hm => exact h.calm hm
  | @head c₁ fuel msg hr hparse =>
    simp only [canReadHead, Bool.and_eq_true, decide_eq_true_eq] at hr
    have hno := h.not_ended (by simp [hr.1]) (by simp [hr.1])
    have hc := h.calm (.parse (H := H) fuel (by simpa [canReadHead] using hr))
    rw [hparse] at hc
    have hs : c.state.log = c₁.state.log := congrArg (fun y => y.2.state.log) hparse
    have g := gotHead_got c₁.state msg
    refine ⟨hc.reads, hi, fun ev hev he => ?_, ?_⟩
    · rw [show (c₁.modify (gotHead msg)).state.log = _ from g.log, ← hs] at hev
      rcases mem_cons.1 hev with rfl | hev
      · exact absurd he Bool.false_ne_true
      · exact absurd he (hno ev hev)
    · show NoHeadAfter _ (gotHead msg c₁.state).log
      rw [g.log]
      exact hc.heads.other rfl
  | writeHead head body hc =>
    simp only [canWriteHead, Bool.and_eq_true, decide_eq_true_eq] at hc
    have g := c.writeHead_wrote head body
    have hno : ∀ ev ∈ c.state.log, ¬ ev.Ending := fun ev hev he => by
      obtain ⟨x, ht, hx⟩ := h.inTurn
      rcases h.ended ev hev he with h | h
      · exact hc.1 h
      · exact hx.writing_ne (by simp [inResponse, h.1]) hc.2.1
    refine ⟨h.reads, hi, fun ev hev he => ?_, ?_⟩
    · rw [g.log] at hev
      rcases mem_cons.1 hev with rfl | hev
      · exact absurd he Bool.false_ne_true
      · exact absurd he (hno ev hev)
    · rw [g.log]; exact h.heads.head hno _
  | @note ev hev =>
    refine h.step hi ⟨rfl, rfl, rfl, rfl, rfl⟩ (.single ev ?_ _) (.inl rfl)
    cases ev <;> first | exact hev.elim | exact ⟨rfl, Bool.false_ne_true⟩

end Conn

/-! ## Runs -/

theorem Conn.configure_io {β : Type} [LawfulBuf β] (opts : Http1Options) (io : Transport) (room : Stream' ℕ) :
    ((Conn.new io room : Conn β).configure opts).io.io = io := by
  unfold Conn.configure
  cases opts.h1Writev <;> cases opts.h1ReadBufExactSize <;> cases opts.h1MaxBufSize <;> rfl

/-- **A connection that is given up stays so.** In every state that a connection comes
to in any run: behind a request or a final response that is the last one, or a close, keep-alive is
off and no head is written; and if the end of the stream, once reported, is reported
from then on, none is written behind a response that it has ended. -/
theorem keep_alive_final {β : Type} [LawfulBuf β] (H : Httparse) (opts : Http1Options) (io : Transport)
    (room : Stream' ℕ) (users : Stream' (List (Ext β))) (steps : List (Step β)) (c : Conn β)
    (hc : Conn.Moves H ((World.new opts io room users).run H steps).task.conn c) :
    (∀ ev ∈ c.state.log, ev.Closing → c.state.keepAlive = .disabled) ∧ NoHeadAfter Ev.Closing c.state.log ∧
      (StaysEnded io.reads → NoHeadAfter Ev.Ending c.state.log) := by
  have h0 : Conn.Final (World.new opts io room users).task.conn.state :=
    ⟨rfl, fun _ h => (nomatch h), fun h => (nomatch h), List.Pairwise.nil⟩
  have h1 : Conn.Final c.state :=
    hc.keeps (P := fun c => Conn.Final c.state) (fun _ _ => Conn.Final.move)
      (World.run_conn_keeps (P := fun c => Conn.Final c.state) (fun _ _ => Conn.Final.move) steps _ h0)
  refine ⟨h1.disabled, h1.heads, fun hio => ?_⟩
  have h2 : Conn.AtEnd (World.new opts io room users).task.conn :=
    ⟨(Conn.configure_io (β := β) opts io room).symm ▸ hio, World.new_inTurn opts io room users,
      fun _ h => (nomatch h), List.Pairwise.nil⟩
  exact (hc.keeps (fun _ _ => Conn.AtEnd.move)
    (World.run_conn_keeps (P := Conn.AtEnd) (fun _ _ => Conn.AtEnd.move) steps _ h2)).heads

/-! ### Runs with given messages -/

/-- A transport that takes all that is written. -/
def promptTransport (reads : Stream' ReadEv) : Transport where
  reads := reads
  writes := Stream'.const (.ok 4096)
  flushes := Stream'.const .ok
  shutdowns := Stream'.const .ok
  isWriteVectored := false
  received := []
  sent := []
  refused := false

def defaultOptions : Http1Options := ⟨false, none, none, none, none, none, ⟨false, false, false⟩⟩

/-- `GET /`, with a callback for interim responses. -/
def getRequest : Request Bytes :=
  ⟨⟨.http11, ⟨.get, ascii "/"⟩, .empty, { Extensions.none with informational := true }⟩,
    ⟨true, none, Stream'.const .done⟩⟩

/-- A request is sent, and its response awaited. -/
def sendSteps : List (Step Bytes) := [.user (.startSend getRequest), .user .finishSend, .poll 9 true, .poll 9 true]

/-- A response that lasts until the end of the stream. -/
def endedReads : Stream' ReadEv := [.pending, .pending, .ok (endedHead ++ ascii "abc")] ++ₛ Stream'.const (.ok [])

theorem staysEnded_append (l : List ReadEv) (h : ∀ ev ∈ l, ev ≠ .ok []) :
    StaysEnded (l ++ₛ Stream'.const (.ok [])) := by
  induction l with
  | nil => intro n _ m _; rfl
  | cons ev l ih =>
    intro n hn m hm
    cases n with
    | zero => exact absurd hn (h ev mem_cons_self)
    | succ n =>
      obtain ⟨m, rfl⟩ : ∃ k, m = k + 1 := ⟨m - 1, by omega⟩
      exact ih (fun e he => h e (mem_cons_of_mem _ he)) n hn m (by omega)

def endedParser : Httparse := tableParser [(endedHead, endedRaw)]

def endedSteps : List (Step Bytes) := .poll 9 true :: sendSteps ++ [.user (.pollBody 0), .poll 9 true]

theorem keep_alive_final_ended :
    let w := (World.new defaultOptions (promptTransport endedReads) (Stream'.const 0) (Stream'.const [])).run
      endedParser endedSteps
    w.log.any Ev.isEnding = true ∧ w.task.conn.state.keepAlive = .disabled ∧
      NoHeadAfter Ev.Closing w.log ∧ NoHeadAfter Ev.Ending w.log := by
  intro w
  obtain ⟨-, h2, h3⟩ := keep_alive_final endedParser defaultOptions (promptTransport endedReads) (Stream'.const 0)
    (Stream'.const []) endedSteps w.task.conn .refl
  exact ⟨by decide +kernel, by decide +kernel, h2, h3 (staysEnded_append _ (by decide))⟩

/-! ### An interim response that says it is the last -/

def hintHead : Bytes := ascii "HTTP/1.1 103 Early Hints\r\nconnection: close\r\n\r\n"

def emptyHead : Bytes := ascii "HTTP/1.1 200 OK\r\ncontent-length: 0\r\n\r\n"

def hintParser : Httparse := tableParser [(hintHead, ⟨47, 103, ascii "Early Hints", 1, [⟨(26, 36), (38, 43)⟩]⟩),
  (emptyHead, ⟨38, 200, ascii "OK", 1, [⟨(17, 31), (33, 34)⟩]⟩)]

def hintReads : Stream' ReadEv := [.pending, .pending, .ok (hintHead ++ emptyHead)] ++ₛ Stream'.const .pending

def hintWorld (steps : List (Step Bytes)) : World Bytes :=
  (World.new defaultOptions (promptTransport hintReads) (Stream'.const 0) (Stream'.const [])).run hintParser
    (.poll 9 true :: steps)

/-- The head that was received before the final one asks to close the connection, which
is used for the next request all the same. -/
theorem keep_alive_interim :
    ((hintWorld sendSteps).task.conn.state.informed.any fun head => connectionAnyClose head.headers) = true ∧
      (hintWorld sendSteps).log.countP Ev.isHead = 1 ∧ (hintWorld (sendSteps ++ sendSteps)).log.countP Ev.isHead = 2 ∧
      (hintWorld (sendSteps ++ sendSteps)).task.conn.state.keepAlive = .busy := by
  decide +kernel

end Netty
