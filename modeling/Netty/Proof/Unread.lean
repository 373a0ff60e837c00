import Netty.Proof.Body
import Netty.Proof.CleanEnd

/-!
# No request head is written over unread bytes

A request can be sent only against a `want`, or once before the first. So while no `want` is signalled early, with a
request already on its way, there is at most one request to take, and none while an exchange goes on. The task looks
at the read buffer before it takes that one.

An early `want` lets a second request into the queue. The task can take that one right behind a flush that makes the
connection idle, without a look at what was received in the meantime.

* `Channel.tokens`: the requests that are on their way or may be sent.
* `Dispatcher.Single`: at most one of them, and none in an exchange.
* `Dispatcher.Cleared`: there is none, or nothing is unread.
* `heads_over_nothing`: **every run** without an early `want`.
* `stale_response_delivered`: a run with one.
-/

namespace Netty

open List Option

/-! ## Requests to take -/

namespace Channel

variable {β : Type} {c : Channel β}

/-- The requests that are on their way, and one more if it may be sent. -/
def tokens (c : Channel β) : ℕ :=
  (if c.signal = .want ∨ c.bufferedOnce = false then 1 else 0) + c.inFlight.toList.length + c.queue.length

theorem startSend_tokens (c : Channel β) (req : Request β) : (c.startSend req).tokens ≤ c.tokens := by
  unfold startSend
  split
  · exact le_rfl
  rename_i hbusy
  have hf : c.inFlight = none := by
    simp only [Bool.or_eq_true, not_or, not_isSome_iff_eq_none] at hbusy
    exact hbusy.2
  split
  · exact le_rfl
  unfold give
  by_cases hs : c.signal = .want
  · simp [tokens, hs, hf]
  · by_cases hb : c.bufferedOnce = false
    · simp [tokens, hs, hb, hf]
    · simp [tokens, hs, hb]

theorem finishSend_tokens (c : Channel β) : c.finishSend.tokens ≤ c.tokens := by
  unfold finishSend
  split
  · exact le_rfl
  · rename_i m hm
    simp only
    split
    · simp [tokens, hm]
    · simp only [tokens, hm, toList_some, toList_none, length_append, length_cons, length_nil]
      omega

theorem close_tokens (c : Channel β) : c.close.tokens ≤ c.tokens := by
  by_cases hb : c.bufferedOnce = false <;> simp [tokens, close, hb]

theorem pollRecv_some {m : ℕ × Request β} {c' : Channel β} (h : c.pollRecv = (.ready (some m), c')) :
    c'.tokens + 1 ≤ c.tokens := by
  unfold pollRecv at h
  split at h
  · rename_i hq
    cases h
    simp only [tokens, hq, length_cons]
    exact (add_assoc _ _ _).le
  · split at h <;> cases h

theorem want_tokens (hq : c.queue = []) (hf : c.inFlight = none) : c.want.tokens ≤ 1 := by
  simp [tokens, want, hq, hf]

theorem recv_tokens (c : Channel β) : c.pollRecv.2.tokens ≤ c.tokens ∧ c.tryRecv.2.tokens ≤ c.tokens := by
  unfold pollRecv tryRecv
  split
  · rename_i hq
    simp [tokens, hq]
  · exact ⟨by split <;> exact le_rfl, le_rfl⟩

theorem send_tokens (c : Channel β) (id : ℕ) (r : Reply β) : (c.send id r).tokens = c.tokens := by
  unfold send
  split <;> rfl

end Channel

theorem Shared.act_tokens {β : Type} (s : Shared β) (a : Ext β) : (s.act a).channel.tokens ≤ s.channel.tokens := by
  cases a with
  | startSend req => exact s.channel.startSend_tokens req
  | finishSend => exact s.channel.finishSend_tokens
  | dropSender =>
    show s.channel.dropSender.tokens ≤ _
    unfold Channel.dropSender
    split <;> exact le_rfl
  | cancel id | pollBody i | dropBody i => exact le_rfl

namespace Dispatcher

variable {β : Type}

theorem stable_tokens (n : ℕ) : Stable (fun c : Channel β => c.tokens ≤ n) where
  act s a h := (s.act_tokens a).trans h
  refuse c id _ _ h := (c.send_tokens id _).le.trans h
  recv c h := c.recv_tokens.1.trans h
  tryRecv c h := c.recv_tokens.2.trans h
  close c h := c.close_tokens.trans h

variable [LawfulBuf β] {H : Httparse} {d d' : Dispatcher β}

def tokens (d : Dispatcher β) : ℕ := d.shared.channel.tokens

theorem yield_tokens (d : Dispatcher β) : d.yield.tokens ≤ d.tokens := (stable_tokens _).yield le_rfl

/-- **A request is taken**: there was one to take. -/
theorem pollMsg_some_tokens {req : Request β} (h : d.pollMsg = (.ready (some req), d')) : d'.tokens + 1 ≤ d.tokens := by
  unfold pollMsg takeRequest at h
  simp only at h
  split at h
  · rename_i m c hx
    have hc : c.tokens + 1 ≤ d.tokens := (Channel.pollRecv_some hx).trans d.yield_tokens
    split at h
    · cases h
    · cases h
      exact le_trans (Nat.succ_le_succ (yield_tokens (d.yield.setChannel c))) hc
  · cases h
  · cases h

/-- **There was none**, and `want` is signalled. -/
theorem pollMsg_pending_tokens (h : d.pollMsg = (.pending, d')) (hn : .wanted true ∉ d'.conn.state.log) :
    d'.tokens ≤ 1 := by
  unfold pollMsg takeRequest at h
  simp only at h
  split at h
  · split at h <;> cases h
  · cases h
  · rename_i c _ _ _
    generalize hx : (d.yield.setChannel c).yield = x at h
    cases h
    have he : (decide (x.shared.channel.queue ≠ []) || x.shared.channel.inFlight.isSome) = false := by
      rw [← Bool.not_eq_true]
      intro he
      refine hn (mem_cons.2 (.inl ?_))
      rw [he]
    simp only [Bool.or_eq_false_iff, decide_eq_false_iff_not, not_not, isSome_eq_false_iff,
      isNone_iff_eq_none] at he
    exact Channel.want_tokens he.1 he.2

end Dispatcher

/-! ## The write buffer of an idle connection -/

namespace Buffered

variable {β : Type} [LawfulBuf β] {b : Buffered β}

/-- No part of a body waits to be written. -/
def Unqueued (b : Buffered β) : Prop := b.writeBuf.queue.remaining = 0

theorem unqueued_iff : b.canHeadersBuf = true ↔ b.Unqueued := by
  simp [canHeadersBuf, Buf.hasRemaining, Unqueued, Buf.remaining]

theorem unqueued_flushKeeps : FlushKeeps (Unqueued (β := β)) where
  write _ _ h := h
  flush _ h := h
  shutdown _ h := h
  headers _ _ h := h
  advance b n h := by
    unfold Unqueued at *
    simp only [Buf.advance]
    split
    · exact h
    split
    · exact h
    · show b.writeBuf.queue.remaining - _ = 0
      rw [h, Nat.zero_sub]

theorem Unqueued.pollReadFromIo (h : b.Unqueued) : b.pollReadFromIo.2.Unqueued := by
  rw [pollReadFromIo_eq]
  cases b.io.reads.head <;> exact h

end Buffered

/-! ## A connection between requests -/

namespace Conn

open Relation

variable {β : Type} [LawfulBuf β] {H : Httparse} {c c' : Conn β}

/-- Nothing of a request is written or waits to be. -/
structure Vacant (c : Conn β) : Prop where
  writing : c.state.writing = .init
  unqueued : c.io.Unqueued

theorem vacant_of_canWriteHead (h : c.canWriteHead = true) : c.Vacant ∧ c.state.reading ≠ .closed := by
  simp only [canWriteHead, Bool.and_eq_true, decide_eq_true_eq] at h
  exact ⟨⟨h.2.1, Buffered.unqueued_iff.1 h.2.2⟩, h.1⟩

theorem Vacant.canWriteHead (h : c.Vacant) (hr : c.state.reading ≠ .closed) : c.canWriteHead = true := by
  simp only [Conn.canWriteHead, Bool.and_eq_true, decide_eq_true_eq]
  exact ⟨hr, h.writing, Buffered.unqueued_iff.2 h.unqueued⟩

/-- **Reading stays closed.** -/
theorem Move.readClosed (hm : Move H c c') (h : c.state.reading = .closed) : c'.state.reading = .closed := by
  cases hm with
  | calm hm =>
    cases hm with
    | parse _ _ => exact h
    | interim _ _ => exact h
    | unhold hr => rw [h] at hr; cases hr
    | decode hr _ _ => rw [h] at hr; simp at hr
    | frame hr _ _ => rw [h] at hr; simp at hr
    | tryKeepAlive => exact closed_tryKeepAlive h
    | read => exact h
    | skip _ => exact h
    | closeRead => rfl
    | closeWrite _ => exact h
    | close => rfl
    | writeBody _ _ => exact (c.writeBody_written _).reading.trans h
    | writeTrailers fields _ => exact (c.writeTrailers_written fields).reading.trans h
    | writeBodyAndEnd _ _ => exact (c.writeBodyAndEnd_written _).reading.trans h
    | endBody _ => exact c.endBody_written.reading.trans h
    | flush => exact h
    | flushed _ => exact h
    | shutdown => exact h
    | quiet hs => exact hs.reading.trans h
  | head hr _ => simp [canReadHead, h] at hr
  | writeHead head body _ => exact (c.writeHead_wrote head body).reading.trans h
  | note _ => exact h

theorem InTurn.reading (h : InTurn c.state) (hw : c.state.writing = .init) :
    c.state.reading = .init ∨ c.state.reading = .closed := by
  obtain ⟨x, -, hx⟩ := h
  cases hr : c.state.reading with
  | init => exact .inl rfl
  | closed => exact .inr rfl
  | body d | continue_ d | keepAlive => exact absurd hw (hx.writing_ne (by rw [hr]; rfl))

theorem InTurn.not_canReadBody (h : InTurn c.state) (hw : c.state.writing = .init) : c.canReadBody = false := by
  rcases h.reading hw with hr | hr <;> simp [canReadBody, hr]

/-- Nothing of a request is in hand, or none will be taken. -/
def Parked (c : Conn β) : Prop := c.Vacant ∨ c.state.reading = .closed

theorem Parked.reach {R : Conn β → Conn β → Prop} (hR : ∀ c c', R c c' → c.Parked → c'.Parked)
    (h : ReflTransGen R c c') (hc : c.Parked) : c'.Parked := by
  induction h with
  | refl => exact hc
  | tail _ hs ih => exact hR _ _ hs ih

theorem Parked.read (h : c.Parked) : Parked { c with io := c.io.pollReadFromIo.2 } :=
  h.imp_left fun h => ⟨h.writing, h.unqueued.pollReadFromIo⟩

theorem Parked.tryKeepAlive (h : c.Parked) : c.tryKeepAlive.Parked := by
  rcases h with h | h
  · have hk : c.state.tryKeepAlive = c.state := by
      unfold State.tryKeepAlive
      split <;> simp_all [h.writing]
    unfold Conn.tryKeepAlive modify
    rw [hk]
    rcases c.maybeNotify_cases with ⟨⟨s, hs, hn⟩, -⟩ | ⟨-, -, s, hn, hs⟩ <;> rw [hn]
    · exact .inl ⟨hs.writing.trans h.writing, h.unqueued⟩
    · rcases hs with ⟨hs, -⟩ | hs | ⟨hs, -⟩
      · exact .inl ⟨hs.writing.trans h.writing, h.unqueued.pollReadFromIo⟩
      · exact .inr hs.reading
      · exact .inr hs.reading
  · exact .inr (closed_tryKeepAlive h)

theorem Parked.pollReadKeepAlive (h : c.Parked) : c.pollReadKeepAlive.2.Parked :=
  Parked.reach (R := fun c c' => c.Parked → c'.Parked) (fun _ _ h => h)
    (pollReadKeepAlive_reaches (fun _ => Parked.read) (fun _ _ => .inr rfl) fun _ _ => .inr rfl) h

theorem Parked.pollFlush (h : c.Parked) : c.pollFlush.2.Parked :=
  Parked.reach (R := fun c c' => c.Parked → c'.Parked) (fun _ _ h => h)
    (pollFlush_reaches (fun _ h => h.imp_left fun h => ⟨h.writing, Buffered.unqueued_flushKeeps.pollFlush h.unqueued⟩)
      (fun _ _ h => h.imp_left fun h => ⟨h.writing, h.unqueued⟩) fun _ => Parked.tryKeepAlive) h

/-- **The look between messages**: nothing was received, or it is an error, or reading is closed. -/
theorem requireEmptyRead_clears (c : Conn β) :
    (∃ e, c.requireEmptyRead.1 = .ready (.error e)) ∨ c.requireEmptyRead.2.state.reading = .closed ∨
      c.requireEmptyRead.2.io.readBuf = [] := by
  unfold requireEmptyRead
  split
  · exact .inl ⟨_, rfl⟩
  rename_i hb
  simp only [ne_eq, Decidable.not_not] at hb
  unfold readMore forceIoRead
  rw [Buffered.pollReadFromIo_eq]
  cases c.io.io.reads.head with
  | ok bytes =>
    simp only [within, whenReady_ready]
    split
    · exact .inr (.inl rfl)
    · exact .inl ⟨_, rfl⟩
  | err e => exact .inl ⟨_, rfl⟩
  | pending => exact .inr (.inr hb)

theorem requireEmptyRead_unexpected
    (h : c.io.readBuf ≠ [] ∨ ∃ b bytes, c.io.io.reads.head = .ok (b :: bytes)) :
    c.requireEmptyRead.1 = .ready (.error .newUnexpectedMessage) := by
  unfold requireEmptyRead
  split
  · rfl
  · obtain ⟨b, bytes, hr⟩ := h.resolve_left ‹_›
    unfold readMore forceIoRead
    rw [Buffered.pollReadFromIo_eq, hr]
    rfl

theorem pollReadKeepAlive_idle (hr : c.state.reading = .init) (hw : c.state.writing = .init) :
    c.pollReadKeepAlive = c.requireEmptyRead := by
  simp [pollReadKeepAlive, isReadClosed, isMidMessage, hr, hw]

end Conn

/-! ## At most one request to take -/

namespace Dispatcher

variable {β : Type} [LawfulBuf β] {H : Httparse} {d d' : Dispatcher β}

/-- No request will be taken any more. -/
def Over (d : Dispatcher β) : Prop := d.isClosing = true ∨ d.conn.state.reading = .closed

/-- No request can be taken, unless another `want` is signalled. -/
def Spent (d : Dispatcher β) : Prop := d.tokens = 0 ∨ d.Over

/-- Between requests. -/
structure Resting (d : Dispatcher β) : Prop where
  bodyRx : d.bodyRx = none
  callback : d.callback = none
  conn : d.conn.Vacant

theorem startRequest_tokens (d : Dispatcher β) (req : Request β) : (d.startRequest req).tokens = d.tokens := by
  rw [startRequest_writeOnly d req]
  rfl

/-- **Only a `want` lets another request in.** -/
theorem Act.tokens (ha : Act H d d') : d'.tokens ≤ d.tokens ∨ Asked d d' := by
  have hs : Stable (fun c : Channel β => c.tokens ≤ d.tokens) := stable_tokens d.tokens
  obtain h | h | ⟨id, c, head, len, wants, hcb, rfl⟩ := hs.kept ha le_rfl
  · exact .inl h
  · exact .inr h
  · exact .inl (hs.respond (d := d.yield.setConn c) hcb (fun c r h => (c.send_tokens id r).le.trans h) head len wants
      d.yield_tokens)

theorem Act.isClosing (ha : Act H d d') :
    d.isClosing = false ∨ d'.isClosing = d.isClosing ∧ d.conn.state.Unwritten d'.conn.state := by
  cases ha with
  | abort hc | noHead _ hc _ _ _ | response hc _ _ _ | headError hc _ _ _ | headNone hc _ _ _ | body hc _ _
  | keepAlive hc _ _ => exact .inl hc
  | aside ha =>
    cases ha with
    | flush => exact .inr ⟨rfl, (Conn.pollFlush_quiets (H := H)).unwritten⟩
    | clearBody _ | tidy _ | shutdown => exact .inr ⟨rfl, State.unwritten_of_eq rfl rfl⟩
    | woke => exact .inr ⟨rfl, d.conn.state.unwritten_note .woke id⟩
    | request hc _ _ _ _ | noRequest hc _ _ _ _ | want hc _ _ _ _ | frame hc _ _ | endBody hc _ _ => exact .inl hc

theorem Over.act (ha : Act H d d') (h : d.Over) : d'.Over := by
  rcases h with h | h
  · rcases ha.isClosing with hc | ⟨hc, -⟩
    · rw [h] at hc
      cases hc
    · exact .inl (hc.trans h)
  · exact .inr (ha.moves.keeps (P := fun c => c.state.reading = .closed) (fun _ _ => Conn.Move.readClosed) h)

theorem Asked.resting (h : Asked d d') : d'.Resting := by
  obtain ⟨early, hd'⟩ := pollMsg_pending h.pollMsg
  have hv := (Conn.vacant_of_canWriteHead h.canWriteHead).1
  rw [hd']
  exact ⟨h.bodyRx, h.callback, hv.writing, hv.unqueued⟩

theorem Spent.act (ha : Act H d d') (h : d.Spent) (hle : d'.tokens ≤ d.tokens) : d'.Spent := by
  rcases h with h | h
  · exact .inl (Nat.le_zero.1 (hle.trans h.le))
  · exact .inr (h.act ha)

theorem Resting.parked (h : d.Resting) (hc : d'.conn.Parked) (hrx : d'.bodyRx = d.bodyRx)
    (hcb : d'.callback = d.callback) : d'.Spent ∨ d'.Resting := by
  rcases hc with hc | hc
  · exact .inr ⟨hrx.trans h.bodyRx, hcb.trans h.callback, hc⟩
  · exact .inl (.inr (.inr hc))

theorem bodyRound_idle (h : d.conn.canReadBody = false) (fuel i : ℕ) :
    d.bodyRound H fuel i = .again ({ d with bodyTx := none }.dropBody i) := by
  unfold bodyRound
  simp only
  rw [if_neg (by simp [h])]

/-- **Between requests** an act leads to the next one, or to the end. -/
theorem Resting.act (ha : Act H d d') (ht : Conn.InTurn d.conn.state) (htok : d.tokens ≤ 1) (h : d.Resting) :
    d'.Spent ∨ d'.Resting := by
  have hw := h.conn.writing
  have hhead : d.conn.canReadHead ≠ true := by simp [Conn.canReadHead, hw]
  have hbody : d.conn.canWriteBody ≠ true := by simp [Conn.canWriteBody, hw]
  cases ha with
  | abort _ => exact .inl (.inr (.inl rfl))
  | noHead _ _ hr _ _ => exact absurd hr hhead
  | response _ hr _ _ => exact absurd hr hhead
  | headError _ hr _ _ => exact absurd hr hhead
  | headNone _ hr _ _ => exact absurd hr hhead
  | @body fuel i _ _ _ =>
    rw [bodyRound_idle (ht.not_canReadBody hw)]
    exact h.parked (.inl h.conn) rfl rfl
  | keepAlive _ _ _ => exact h.parked (Conn.Parked.pollReadKeepAlive (.inl h.conn)) rfl rfl
  | aside ha =>
    cases ha with
    | @request d₁ req _ _ _ _ hx =>
      have hle := pollMsg_some_tokens hx
      refine .inl (.inl ?_)
      rw [startRequest_tokens]
      omega
    | noRequest _ _ _ _ hx => exact .inl (.inr (.inl rfl))
    | want hc hrx hw hcb hx => exact .inr (Asked.resting ⟨hc, hrx, hw, hcb, hx⟩)
    | flush => exact h.parked (Conn.Parked.pollFlush (.inl h.conn)) rfl rfl
    | clearBody _ => exact .inr ⟨rfl, h.callback, h.conn⟩
    | frame _ _ hcw => exact absurd hcw hbody
    | endBody _ _ hcw => exact absurd hcw hbody
    | tidy _ => exact .inr ⟨h.bodyRx, h.callback, hw, h.conn.unqueued⟩
    | woke => exact .inr ⟨h.bodyRx, h.callback, hw, h.conn.unqueued⟩
    | shutdown => exact .inr ⟨h.bodyRx, h.callback, hw, Buffered.unqueued_flushKeeps.pollShutdown h.conn.unqueued⟩

/-- Every head was written with nothing unread. -/
def Clean (log : List Ev) : Prop := ∀ remote head e unread, .wroteHead remote head e unread ∈ log → unread = []

theorem Clean.append {l log : List Ev} (h : Clean log) (hl : NoHead l) : Clean (l ++ log) := by
  intro remote head e unread hm
  rcases mem_append.1 hm with hm | hm
  · exact absurd hm (hl remote head e unread)
  · exact h remote head e unread hm

theorem Clean.unwritten {s s' : State} (h : Clean s.log) (hu : s.Unwritten s') : Clean s'.log := by
  obtain ⟨l, hl, hev, -⟩ := hu
  rw [hl]
  exact h.append fun _ _ _ _ hm => hev _ hm trivial

theorem Clean.bodyWritten {c c' : Conn β} (h : Clean c.state.log) (hb : Conn.BodyWritten c c') :
    Clean c'.state.log := by
  obtain ⟨l, hl, hev⟩ := hb.events
  rw [hl]
  refine h.append fun _ _ _ _ hm => ?_
  obtain ⟨bytes, hm⟩ := hev _ hm
  cases hm

/-- **At most one request can be taken**, and none in an exchange. -/
structure Single (d : Dispatcher β) : Prop where
  inTurn : Conn.InTurn d.conn.state
  tokens : d.tokens ≤ 1
  rests : d.Spent ∨ d.Resting
  clean : Clean d.conn.state.log

/-- **No request can be taken with bytes unread.** -/
def Cleared (d : Dispatcher β) : Prop := d.Spent ∨ d.conn.io.readBuf = []

/-- In an exchange no request can be taken. -/
theorem Single.spent (h : d.Single) (hw : d.conn.state.writing ≠ .init) : d.Spent :=
  h.rests.resolve_right fun hr => hw hr.conn.writing

theorem Clean.act (ha : Act H d d') (h : Clean d.conn.state.log)
    (hc : d.conn.canWriteHead = true → d.Cleared ∨ d.conn.state.Unwritten d'.conn.state) : Clean d'.conn.state.log := by
  rcases ha.isClosing with hcl | ⟨-, hu⟩
  swap
  · exact h.unwritten hu
  rcases ha.writes with ⟨hu, -⟩ | ⟨-, body, -, rfl⟩ | ⟨-, -, rfl⟩ | ⟨hw, d₁, req, hx, rfl⟩
  · exact h.unwritten hu
  · exact h.bodyWritten (d.writeFrame_written body)
  · exact h.bodyWritten d.endBody_written
  rcases hc hw with hc | hu
  swap
  · exact h.unwritten hu
  have hle := pollMsg_some_tokens hx
  have hr : d.conn.io.readBuf = [] := by
    rcases hc with (hc | hc | hc) | hc
    · omega
    · rw [hcl] at hc
      cases hc
    · exact absurd hc (Conn.vacant_of_canWriteHead hw).2
    · exact hc
  obtain ⟨id, hd₁⟩ := pollMsg_some hx
  obtain ⟨body, hb⟩ := startRequest_conn d₁ req
  intro remote head e unread hm
  rw [hb, (d₁.conn.writeHead_wrote req.head body).log, hd₁] at hm
  rcases mem_cons.1 hm with hm | hm
  · injection hm with _ _ _ hm
    exact hm.trans hr
  · rcases mem_cons.1 hm with hm | hm
    · cases hm
    · exact h remote head e unread hm

/-- **One act**, without an early `want`. -/
theorem Single.act (ha : Act H d d') (h : d.Single) (hn : .wanted true ∉ d'.conn.state.log)
    (hc : d.conn.canWriteHead = true → d.Cleared ∨ d.conn.state.Unwritten d'.conn.state) : d'.Single where
  inTurn := ha.moves.keeps (P := fun c => Conn.InTurn c.state) (fun _ _ => Conn.InTurn.move) h.inTurn
  tokens := by
    rcases ha.tokens with hle | hq
    · exact hle.trans h.tokens
    · exact pollMsg_pending_tokens hq.pollMsg hn
  rests := by
    rcases ha.tokens with hle | hq
    · rcases h.rests with hs | hr
      · exact .inl (hs.act ha hle)
      · exact hr.act ha h.inTurn h.tokens
    · exact .inr hq.resting
  clean := h.clean.act ha hc

/-! ## A poll -/

/-- No `want` was early. -/
def Timely (d : Dispatcher β) : Prop := .wanted true ∉ d.conn.state.log

theorem Act.timely (ha : Act H d d') (hn : d'.Timely) : d.Timely := fun hm => hn (ha.moves.log.subset hm)

/-- As long as no `want` was early. -/
def Kept (d : Dispatcher β) : Prop := d.Timely → d.Single

theorem Kept.unwritten (ha : Act H d d') (h : d.Kept) (hu : d.conn.state.Unwritten d'.conn.state) : d'.Kept :=
  fun hn => (h (ha.timely hn)).act ha hn fun _ => .inr hu

theorem canWriteHead_false (hw : d.conn.state.writing ≠ .init) : d.conn.canWriteHead = false := by
  simp [Conn.canWriteHead, hw]

theorem Single.during (h : d.Single) (ha : Act H d d') (hw : d.conn.state.writing ≠ .init)
    (hn : d'.Timely) : d'.Single ∧ d'.Spent := by
  have hno := canWriteHead_false hw
  refine ⟨h.act ha hn fun hc => ?_, (h.spent hw).act ha (ha.tokens.resolve_right fun hq => ?_)⟩
  · rw [hno] at hc
    cases hc
  · have hc := hq.canWriteHead
    rw [hno] at hc
    cases hc

/-- What reading leaves: nothing unread, unless it fails. -/
def ReadClears (x : Poll (Except Error Unit) × Dispatcher β) : Prop :=
  x.2.Timely → x.2.Single ∧ (x.1 = .pending ∨ x.1 = .ready (.ok ()) → x.2.Cleared)

theorem pollReadHead_clears (fuel : ℕ) (h : d.Kept) (hc : d.isClosing = false) (hr : d.conn.canReadHead = true) :
    (d.pollReadHead H fuel).2.Timely → (d.pollReadHead H fuel).2.Single ∧ (d.pollReadHead H fuel).2.Spent := by
  intro hn
  have ha := pollReadHead_act (H := H) fuel hc hr
  simp only [Conn.canReadHead, Bool.and_eq_true, decide_eq_true_eq] at hr
  exact (h (ha.timely hn)).during ha hr.2 hn

theorem bodyRound_clears (fuel i : ℕ) (h : d.Kept) (hc : d.isClosing = false) (hr : d.conn.canReadHead = false)
    (hi : d.bodyTx = some i) : (d.bodyRound H fuel i).Sat Kept ReadClears := by
  have ha : Act H d (d.bodyRound H fuel i).state := .body hc hr hi
  have hk : (d.bodyRound H fuel i).state.Kept := h.unwritten ha (bodyRound_quiets fuel i d).unwritten
  cases hb : d.bodyRound H fuel i with
  | again t =>
    rw [hb] at hk
    exact hk
  | ret x =>
    rw [hb] at hk ha
    intro hn
    refine ⟨hk hn, fun _ => .inl ?_⟩
    have hs := h (ha.timely hn)
    -- a round that ends the read is one that reads a body
    refine (hs.during ha (fun hw => ?_) hn).2
    rw [bodyRound_idle (hs.inTurn.not_canReadBody hw)] at hb
    cases hb

theorem keepAlive_clears (H : Httparse) (h : d.Kept) (hc : d.isClosing = false) (hr : d.conn.canReadHead = false)
    (hi : d.bodyTx = none) : ReadClears (within d.conn.pollReadKeepAlive d.setConn) := by
  have ha := Act.keepAlive (H := H) hc hr hi
  intro hn
  have hs := h (ha.timely hn)
  refine ⟨h.unwritten ha (Conn.pollReadKeepAlive_quiets (H := H)).unwritten hn, fun hok => ?_⟩
  rcases hs.rests with hsp | hrest
  · exact .inl (hsp.act ha le_rfl)
  rcases hs.inTurn.reading hrest.conn.writing with hinit | hclosed
  · rw [Conn.pollReadKeepAlive_idle hinit hrest.conn.writing] at hok ⊢
    rcases d.conn.requireEmptyRead_clears with ⟨e, he⟩ | hcl | hb
    · simp [he] at hok
    · exact .inl (.inr (.inr hcl))
    · exact .inr hb
  · exact .inl (Spent.act ha (.inr (.inr hclosed)) le_rfl)

theorem readRound_clears (fuel : ℕ) (d : Dispatcher β) (h : d.Kept) : (d.readRound H fuel).Sat Kept ReadClears := by
  unfold readRound
  split
  · rename_i hc
    exact fun hn => ⟨h hn, fun _ => .inl (.inr (.inl hc))⟩
  rename_i hc
  rw [Bool.not_eq_true] at hc
  split
  · rename_i hr
    have hp := pollReadHead_clears (H := H) fuel h hc hr
    refine Ctl.whenOk_sat (fun _ t ht hn => ?_) (fun e t ht hn => ?_) fun p _ hn => ?_
    · rw [ht] at hp
      exact (hp hn).1
    · rw [ht] at hp
      exact ⟨(hp hn).1, fun _ => .inl (hp hn).2⟩
    · exact ⟨(hp hn).1, fun _ => .inl (hp hn).2⟩
  rename_i hr
  rw [Bool.not_eq_true] at hr
  split
  · exact bodyRound_clears fuel _ h hc hr ‹_›
  · exact keepAlive_clears H h hc hr ‹_›

theorem pollRead_clears (fuel : ℕ) (h : d.Kept) : ReadClears (d.pollRead H fuel) :=
  loop_inv (readRound_clears fuel) (fun _ h hn => ⟨h hn, fun hx => by simp at hx⟩) fuel d h

/-- As long as no `want` was early, and nothing is unread. -/
def KeptClear (d : Dispatcher β) : Prop := d.Timely → d.Single ∧ d.Cleared

theorem KeptClear.act (ha : Act H d d') (h : d.KeptClear) (hs : d.Timely → d.Spent) (hle : d'.tokens ≤ d.tokens) :
    d'.KeptClear := fun hn =>
  have hn' := ha.timely hn
  ⟨(h hn').1.act ha hn fun _ => .inl (h hn').2, .inl ((hs hn').act ha hle)⟩

theorem writeRound_single (H : Httparse) (d : Dispatcher β) (h : d.KeptClear) :
    d.writeRound.Sat KeptClear fun x => x.2.Kept := by
  have hact : ∀ {t : Dispatcher β}, Act H d t → t.Kept := fun ha hn =>
    (h (ha.timely hn)).1.act ha hn fun _ => .inl (h (ha.timely hn)).2
  unfold writeRound
  split
  · exact fun hn => (h hn).1
  rename_i hc
  rw [Bool.not_eq_true] at hc
  split
  · rename_i hg
    simp only [Bool.and_eq_true, shouldPoll, isNone_iff_eq_none] at hg
    obtain ⟨⟨hrx, hw⟩, hcb⟩ := hg
    rcases pollMsg_cases d with ⟨req, d₁, hx⟩ | ⟨d₁, hx⟩ | ⟨d₁, hx⟩ <;> rw [hx]
    · have ha := Act.aside (H := H) (.request hc hrx hw hcb hx)
      refine fun hn => ⟨hact ha hn, .inl (.inl ?_)⟩
      have hle := pollMsg_some_tokens hx
      have h1 := (h (ha.timely hn)).1.tokens
      rw [startRequest_tokens]
      omega
    · exact hact (.aside (.noRequest hc hrx hw hcb hx))
    · exact hact (.aside (.want hc hrx hw hcb hx))
  rename_i hg
  have hs : d.Timely → d.Spent := fun hn => by
    by_contra hno
    have hrest := (h hn).1.rests.resolve_left hno
    refine hg ?_
    simp only [Bool.and_eq_true, shouldPoll, isNone_iff_eq_none]
    exact ⟨⟨hrest.bodyRx, hrest.conn.canWriteHead fun hr => hno (.inr (.inr hr))⟩, hrest.callback⟩
  have hkept : ∀ x : Poll (Except Error Unit) × Dispatcher β, x.2.KeptClear → x.2.Kept := fun _ hx hn => (hx hn).1
  split
  · have hf : d.pollFlush.2.KeptClear := by
      rw [pollFlush_snd]
      exact h.act (H := H) (.aside .flush) hs le_rfl
    refine Ctl.whenOk_sat (fun _ t ht => ?_) (fun e t ht => ?_) fun _ _ => hkept (_, _) hf
    · rw [ht] at hf
      exact hf
    · rw [ht] at hf
      exact hkept (_, _) hf
  split
  · rename_i body hb
    split
    · have hle : (d.writeFrame body).state.tokens ≤ d.tokens := by rw [writeFrame_writeOnly d body]; exact le_rfl
      exact Ctl.sat_state (h.act (H := H) (.aside (.frame hc hb ‹_›)) hs hle) hkept
    · rename_i hw
      exact h.act (H := H) (.aside (.clearBody (by simpa using hw))) hs le_rfl
  · rename_i hb
    split
    · have hle : d.endBody.state.tokens ≤ d.tokens := by rw [endBody_writeOnly d]; exact le_rfl
      exact Ctl.sat_state (h.act (H := H) (.aside (.endBody hc hb ‹_›)) hs hle) hkept
    · exact fun hn => (h hn).1

/-- **Writing**, with nothing unread. -/
theorem pollWrite_single (H : Httparse) (fuel : ℕ) (h : d.KeptClear) : (d.pollWrite fuel).2.Kept :=
  loop_inv (Q := fun x => x.2.Kept) (writeRound_single H) (fun _ h hn => (h hn).1) fuel d h

theorem pollFlush_kept (H : Httparse) (h : d.Kept) : d.pollFlush.2.Kept := by
  rw [pollFlush_snd]
  exact h.unwritten (H := H) (.aside .flush) (Conn.pollFlush_quiets (H := H)).unwritten

theorem writeAgain_kept (H : Httparse) (fuel : ℕ) (h : d.KeptClear) :
    (d.writeAgain fuel).Sat Kept fun x => x.2.Kept := by
  refine Ctl.unlessErr_sat_state (pollWrite_single H fuel h) (fun ready t ht => ?_) fun _ _ ht => ht
  split
  · exact ht
  split
  · exact Ctl.unlessErr_sat_state (pollFlush_kept H ht) (fun _ _ hs => hs) fun _ _ hs => hs
  · exact ht

theorem afterFlush_kept (H : Httparse) (fuel : ℕ) (ready : Bool) (h : d.Kept) :
    (d.afterFlush fuel ready).Sat Kept fun x => x.2.Kept := by
  have hk : (d.setConn d.conn.wantsReadAgain.2).Kept :=
    h.unwritten (H := H) (.aside (wantsReadAgain_aside d)) (State.unwritten_of_eq rfl rfl)
  unfold afterFlush
  simp only
  split
  · exact hk
  split
  · rename_i hw
    simp only [Bool.and_eq_true, canWriteAgain] at hw
    -- the body of a request is still to be written
    refine writeAgain_kept H fuel fun hn => ⟨hk hn, .inl ((hk hn).spent fun hi => ?_)⟩
    have hcw : d.conn.canWriteBody = true := hw.2.1.2
    simp [Conn.canWriteBody, show d.conn.state.writing = .init from hi] at hcw
  · exact hk

theorem pollRound_kept (fuel : ℕ) (h : d.Kept) : (d.pollRound H fuel).Sat Kept fun x => x.2.Kept := by
  have hr := pollRead_clears (H := H) fuel h
  have next : ∀ {t : Dispatcher β}, t.KeptClear →
      (Ctl.unlessErr (t.pollWrite fuel) fun writeReady d =>
        Ctl.unlessErr d.pollFlush fun flushReady d => d.afterFlush fuel (writeReady || flushReady)).Sat Kept
          fun x => x.2.Kept := fun ht =>
    Ctl.unlessErr_sat_state (pollWrite_single H fuel ht)
      (fun _ _ hs => Ctl.unlessErr_sat_state (pollFlush_kept H hs) (fun _ _ hs => afterFlush_kept H fuel _ hs)
        fun _ _ hs => hs)
      fun _ _ hs => hs
  refine Ctl.unlessErr_sat (fun _ t ht => next fun hn => ?_) (fun t ht => next fun hn => ?_) (fun e t ht hn => ?_)
    fun _ _ hn => (hr hn).1
  · rw [ht] at hr
    exact ⟨(hr hn).1, (hr hn).2 (.inr rfl)⟩
  · rw [ht] at hr
    exact ⟨(hr hn).1, (hr hn).2 (.inl rfl)⟩
  · rw [ht] at hr
    exact (hr hn).1

theorem pollLoop_kept (fuel : ℕ) : ∀ n (d : Dispatcher β), d.Kept → (pollLoop H fuel n d).2.Kept := by
  intro n
  induction n with
  | zero =>
    intro d h
    exact h.unwritten (H := H) (.aside .woke) (d.conn.state.unwritten_note .woke id)
  | succ n ih =>
    intro d h
    have hr := pollRound_kept (H := H) fuel h
    unfold pollLoop
    cases hx : d.pollRound H fuel with
    | again t =>
      rw [hx] at hr
      exact ih t hr
    | ret x =>
      rw [hx] at hr
      exact hr

theorem finish_kept (H : Httparse) (h : d.Kept) (r : Dispatched) : (d.finish r).2.Kept := by
  have ht : ∀ error, (d.setConn { d.conn with state := { d.conn.state with error := error } }).Kept := fun _ =>
    h.unwritten (.aside (H := H) (.tidy id)) (State.unwritten_of_eq rfl rfl)
  unfold finish Conn.takeError
  cases he : d.conn.state.error with
  | none => exact h
  | some e => exact ht none

theorem pollInner_kept (fuel : ℕ) (b : Bool) (h : d.Kept) : (d.pollInner H fuel b).2.Kept := by
  have hl := pollLoop_kept (H := H) fuel 16 d h
  unfold pollInner
  refine whenOk_ind (P := fun x : _ × Dispatcher β => x.2.Kept) (fun _ d₁ h₁ => ?_) (fun e t ht => ?_) fun _ _ => hl
  · rw [h₁] at hl
    split
    · have h₂ : (d₁.setConn d₁.conn.pendingUpgrade.2).Kept :=
        hl.unwritten (.aside (H := H) (.tidy nofun)) (State.unwritten_of_eq rfl rfl)
      simp only
      split
      · exact finish_kept H h₂ _
      split
      · have h₃ : (d₁.setConn d₁.conn.pendingUpgrade.2).pollShutdown.2.Kept := by
          rw [pollShutdown_snd]
          exact h₂.unwritten (H := H) (.aside .shutdown) (State.unwritten_of_eq rfl rfl)
        refine whenOk_ind (P := fun x : _ × Dispatcher β => x.2.Kept) (fun _ t ht => ?_) (fun e t ht => ?_)
          fun _ _ => h₃
        · rw [ht] at h₃
          exact finish_kept H h₃ _
        · rw [ht] at h₃
          exact h₃
      · exact finish_kept H h₂ _
    · exact hl
  · rw [ht] at hl
    exact hl

theorem Kept.user (h : d.Kept) (a : Ext β) : (d.user a).Kept := fun hn =>
  have hs := h hn
  have hle : (d.user a).tokens ≤ d.tokens := d.shared.act_tokens a
  { inTurn := hs.inTurn
    tokens := hle.trans hs.tokens
    rests := hs.rests.imp (Or.imp_left fun h0 => Nat.le_zero.1 (hle.trans h0.le)) fun hr =>
      ⟨hr.bodyRx, hr.callback, hr.conn⟩
    clean := hs.clean }

/-! ## Bytes between messages -/

theorem pollRead_unexpected {fuel : ℕ} (hf : 2 ≤ fuel) (hc : d.isClosing = false) (hr : d.conn.state.reading = .init)
    (hw : d.conn.state.writing = .init)
    (hu : d.conn.io.readBuf ≠ [] ∨ ∃ b bytes, d.conn.io.io.reads.head = .ok (b :: bytes)) :
    (d.pollRead H fuel).1 = .ready (.error .newUnexpectedMessage) := by
  have hhead : d.conn.canReadHead = false := by simp [Conn.canReadHead, hw]
  have last : ∀ (n : ℕ) (t : Dispatcher β), t.conn = d.conn → t.isClosing = false → t.bodyTx = none →
      (loop (readRound H fuel) (n + 1) t).1 = .ready (.error .newUnexpectedMessage) := by
    intro n t htc hcl htx
    unfold loop readRound
    rw [if_neg (by simp [hcl]), htc, if_neg (by simp [hhead]), htx]
    show (Conn.pollReadKeepAlive d.conn).1 = _
    rw [Conn.pollReadKeepAlive_idle hr hw]
    exact Conn.requireEmptyRead_unexpected hu
  obtain ⟨n, rfl⟩ : ∃ n, fuel = n + 2 := ⟨fuel - 2, by omega⟩
  unfold pollRead
  cases htx : d.bodyTx with
  | none => exact last (n + 1) d rfl hc htx
  | some i =>
    -- a body that has been read is let go first
    have hround : d.readRound H (n + 2) = .again ({ d with bodyTx := none }.dropBody i) := by
      unfold readRound
      rw [if_neg (by simp [hc]), if_neg (by simp [hhead]), htx]
      exact bodyRound_idle (by simp [Conn.canReadBody, hr]) _ _
    unfold loop
    rw [hround]
    exact last n _ rfl hc rfl

/-- **Bytes between messages end the connection.** -/
theorem pollInner_unexpected {fuel : ℕ} (hf : 2 ≤ fuel) (b : Bool) (hc : d.isClosing = false)
    (hr : d.conn.state.reading = .init) (hw : d.conn.state.writing = .init)
    (hu : d.conn.io.readBuf ≠ [] ∨ ∃ b bytes, d.conn.io.io.reads.head = .ok (b :: bytes)) :
    (d.pollInner H fuel b).1 = .ready (.error .newUnexpectedMessage) := by
  have h := pollRead_unexpected (H := H) hf hc hr hw hu
  unfold pollInner pollLoop pollRound
  rcases hx : d.pollRead H fuel with ⟨p, t⟩
  rw [hx] at h
  rw [show p = _ from h]
  rfl

end Dispatcher

namespace World

open Dispatcher

variable {β : Type} [LawfulBuf β] {H : Httparse}

theorem configure_unqueued (opts : Http1Options) (io : Transport) (room : Stream' ℕ) :
    ((Conn.new io room : Conn β).configure opts).io.Unqueued := by
  unfold Buffered.Unqueued Conn.configure
  cases opts.h1Writev <;> cases opts.h1ReadBufExactSize <;> cases opts.h1MaxBufSize <;> rfl

theorem new_kept (opts : Http1Options) (io : Transport) (room : Stream' ℕ) (users : Stream' (List (Ext β))) :
    (World.new opts io room users).task.Kept := fun _ =>
  { inTurn := World.new_inTurn opts io room users
    tokens := le_rfl
    rests := .inr ⟨rfl, rfl, rfl, configure_unqueued opts io room⟩
    clean := fun _ _ _ _ hm => (by cases hm) }

theorem run_clean (steps : List (Step β)) {w : World β} (h : w.task.Kept) (hn : .wanted true ∉ (w.run H steps).log) :
    Clean (w.run H steps).log := by
  have hJ : ∀ d : Dispatcher β, d.Kept → d.Timely → Clean d.conn.state.log := fun _ h hn => (h hn).clean
  refine (run_polls (I := Kept) (J := fun d => d.Timely → Clean d.conn.state.log)
    (fun _ fuel b => pollInner_kept fuel b) (fun _ a h => h.user a) hJ (fun d e h => ?_) (fun _ _ h => h)
    (fun d h => ?_) steps w (hJ _ h) fun _ => h).1 hn
  · unfold Timely
    rw [failed_conn]
    exact hJ d h
  · unfold Timely
    rw [drop_conn]
    exact h

end World

/-- **No request head is written over unread bytes**, in any run in which no `want` is signalled while a request is
already on its way; so what is received before a request is never taken for its response. Bytes that are found while
the connection is idle end it. -/
theorem heads_over_nothing {β : Type} [LawfulBuf β] (H : Httparse) (opts : Http1Options) (io : Transport)
    (room : Stream' ℕ) (users : Stream' (List (Ext β))) (steps : List (Step β)) :
    let w := (World.new opts io room users).run H steps
    (.wanted true ∉ w.log → ∀ remote head e unread, .wroteHead remote head e unread ∈ w.log → unread = []) ∧
      (w.phase = .running → w.task.isClosing = false → w.task.conn.isMidMessage = false →
        (w.task.conn.io.readBuf ≠ [] ∨ ∃ b bytes, w.task.conn.io.io.reads.head = .ok (b :: bytes)) →
        ∀ fuel shouldShutdown, 2 ≤ fuel →
          (w.task.pollInner H fuel shouldShutdown).1 = .ready (.error .newUnexpectedMessage) ∧
          (w.step H (.poll fuel shouldShutdown)).phase = .finished) := by
  intro w
  refine ⟨World.run_clean steps (World.new_kept opts io room users), fun hp hc hm hu fuel b hf => ?_⟩
  simp only [Conn.isMidMessage, Bool.not_eq_false', Bool.and_eq_true, decide_eq_true_eq] at hm
  have hx := Dispatcher.pollInner_unexpected (H := H) hf b hc hm.1 hm.2 hu
  refine ⟨hx, ?_⟩
  show (if w.phase = .running then World.afterPoll (w.task.pollCatch H fuel b) else w).phase = _
  rw [if_pos hp]
  unfold Dispatcher.pollCatch
  rcases hy : w.task.pollInner H fuel b with ⟨p, d⟩
  rw [hy] at hx
  rw [show p = _ from hx]
  rcases hz : (d.failBody (.newBody (.text "connection error"))).recvError .newUnexpectedMessage with ⟨e | u, d₁⟩ <;>
    simp only [hz, World.afterPoll]

def Ev.isEarly : Ev → Bool
  | .wanted early => early
  | _ => false

theorem not_wanted_early {log : List Ev} (h : log.any Ev.isEarly = false) : .wanted true ∉ log := fun hm => by
  rw [any_eq_true.2 ⟨_, hm, rfl⟩] at h
  cases h

/-- The response to one request, and later another one that nobody has asked for. -/
def idleReads : Stream' ReadEv :=
  [.pending, .pending, .ok emptyHead, .pending, .pending, .pending, .ok emptyHead] ++ₛ Stream'.const .pending

def idleWorld : World Bytes :=
  (World.new defaultOptions (promptTransport idleReads) (Stream'.const 0) (Stream'.const [])).run hintParser
    (.poll 9 true :: sendSteps)

theorem idleWorld_idle :
    idleWorld.log.any Ev.isEarly = false ∧ idleWorld.log.countP Ev.isHead = 1 ∧ idleWorld.phase = .running ∧
      idleWorld.task.isClosing = false ∧ idleWorld.task.conn.isMidMessage = false := by
  decide +kernel

theorem heads_over_nothing_idle :
    idleWorld.log.countP Ev.isHead = 1 ∧
      (∀ remote head e unread, .wroteHead remote head e unread ∈ idleWorld.log → unread = []) ∧
      (idleWorld.task.pollInner hintParser 9 true).1 = .ready (.error .newUnexpectedMessage) ∧
      (idleWorld.step hintParser (.poll 9 true)).phase = .finished := by
  obtain ⟨hn, hh, hp, hc, hm⟩ := idleWorld_idle
  obtain ⟨h₁, h₂⟩ := heads_over_nothing hintParser defaultOptions (promptTransport idleReads) (Stream'.const 0)
    (Stream'.const []) (.poll 9 true :: sendSteps)
  exact ⟨hh, h₁ (not_wanted_early hn), h₂ hp hc hm (.inr ⟨_, _, by rfl⟩) 9 true (by decide)⟩

/-! ### An early `want` -/

/-- A head with the bytes that were unread, or a response with its request. -/
def Ev.mark : Ev → Option (Bytes ⊕ ℕ)
  | .wroteHead _ _ _ unread => some (.inl unread)
  | .delivered id _ _ => some (.inr id)
  | _ => none

/-- A body that is not there at first, and then fills the queue of buffers. -/
def uploadFrames : List (BodyEv Bytes) :=
  .pending :: .pending :: replicate 15 (.data [65] false) ++ [.data [65] true]

def uploadRequest : Request Bytes :=
  ⟨⟨.http11, ⟨.post, ascii "/"⟩, .empty, .none⟩, ⟨false, some 16, uploadFrames ++ₛ Stream'.const .done⟩⟩

/-- Two responses at once, while the body of the first request is awaited. -/
def staleReads : Stream' ReadEv :=
  [.pending, .pending, .pending, .ok (emptyHead ++ emptyHead)] ++ₛ Stream'.const .pending

/-- The task is polled in the middle of the first send. -/
def staleSteps : List (Step Bytes) :=
  [.poll 9 true, .user (.startSend uploadRequest), .poll 9 true, .user .finishSend, .user (.startSend getRequest),
    .user .finishSend, .poll 20 true, .poll 20 true, .poll 20 true, .poll 20 true]

def staleWorld : World Bytes :=
  (World.new { defaultOptions with h1Writev := some true } (promptTransport staleReads) (Stream'.const 0)
    (Stream'.const [])).run hintParser staleSteps

/-- The second request is written over the response that was received before it, and is given that response. -/
theorem stale_response_delivered :
    staleWorld.log.reverse.filterMap Ev.mark = [.inl [], .inr 0, .inl emptyHead, .inr 1] ∧
      staleWorld.log.any Ev.isEarly = true ∧ staleWorld.phase = .running := by
  decide +kernel

end Netty
