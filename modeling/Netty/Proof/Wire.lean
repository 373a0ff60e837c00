import Netty.Spec.Io

/-!
# The write strategy is invisible on the wire

What the transport has accepted, followed by what waits in the write buffer, is
what was put in, whichever strategy holds the bytes.

* `WriteBuf.content`: the waiting bytes, in the order they will be sent.
* `WriteBuf.Wf`: copied bodies leave no buffers behind, and queued ones have bytes.
* `Buffered.wire`: the bytes sent and the bytes waiting.
* `pollFlush_wire`: a flush moves bytes from one to the other, and a flush that is
  done leaves none waiting.
* `write_strategy_invisible`: over any sequence of writes and flushes.
-/

namespace Netty

open List

variable {β : Type} [LawfulBuf β]

open LawfulBuf

/-! ## Lists of buffers -/

/-- The bytes of a list of buffers. -/
def contentAll (bufs : List β) : Bytes := bufs.flatMap content

@[simp] theorem contentAll_nil : contentAll ([] : List β) = [] := rfl

@[simp] theorem contentAll_cons (b : β) (bs : List β) : contentAll (b :: bs) = content b ++ contentAll bs := rfl

@[simp] theorem contentAll_append (bs cs : List β) : contentAll (bs ++ cs) = contentAll bs ++ contentAll cs :=
  flatMap_append

theorem remainingAll_eq (bufs : List β) : remainingAll bufs = (contentAll bufs).length := by
  induction bufs with
  | nil => rfl
  | cons b bs ih =>
    rw [remainingAll, ih, remaining_eq, contentAll_cons, length_append]

theorem contentAll_advanceBufs (bufs : List β) :
    ∀ n, n ≤ (contentAll bufs).length → contentAll (advanceBufs bufs n) = (contentAll bufs).drop n := by
  induction bufs with
  | nil => intro n _; simp [advanceBufs]
  | cons b bs ih =>
    intro n hn
    rw [contentAll_cons, length_append] at hn
    unfold advanceBufs
    rw [remaining_eq]
    by_cases h0 : n = 0
    · rw [if_pos h0, h0, drop_zero]
    rw [if_neg h0]
    by_cases hlt : n < (content b).length
    · rw [if_pos hlt, contentAll_cons, contentAll_cons, content_advance _ _ (by omega),
        drop_append_of_le_length (by omega)]
    · have hz : (content b).drop n = [] := drop_eq_nil_of_le (by omega)
      rw [if_neg hlt, ih _ (by omega), contentAll_cons, drop_append, hz, nil_append]

/-- Every buffer has bytes, and gives them all to a vectored write that has room. -/
def Queued (bufs : List β) : Prop := ∀ b ∈ bufs, content b ≠ [] ∧ GapFree b

theorem forall_advanceBufs {P : β → Prop} (hP : ∀ b n, P b → n < (content b).length → P (Buf.advance b n))
    (bufs : List β) : ∀ n, (∀ b ∈ bufs, P b) → ∀ b ∈ advanceBufs bufs n, P b := by
  induction bufs with
  | nil => exact fun _ h => h
  | cons b bs ih =>
    intro n h
    obtain ⟨hb, hbs⟩ := forall_mem_cons.1 h
    unfold advanceBufs
    rw [remaining_eq]
    split
    · exact h
    split
    · rename_i hlt
      exact forall_mem_cons.2 ⟨hP b n hb hlt, hbs⟩
    · exact ih _ hbs

theorem content_advance_ne_nil {b : β} {n : ℕ} (h : n < (content b).length) : content (Buf.advance b n) ≠ [] := by
  rw [content_advance _ _ (le_of_lt h), Ne, drop_eq_nil_iff]
  omega

theorem Queued.advanceBufs {bufs : List β} {n : ℕ} (h : Queued bufs) : Queued (advanceBufs bufs n) :=
  forall_advanceBufs (fun _ _ hb hn => ⟨content_advance_ne_nil hn, hb.2.advance (le_of_lt hn)⟩) bufs n h

/-- **Vectored reads of a list** are a front of its bytes. -/
theorem gather_isPrefix (bufs : List β) :
    ∀ k, (∀ b ∈ bufs, GapFree b) → (gather bufs k).length ≤ k ∧ (gather bufs k).flatten <+: contentAll bufs := by
  induction bufs with
  | nil => exact fun k _ => ⟨Nat.zero_le k, nil_prefix⟩
  | cons b bs ih =>
    intro k h
    obtain ⟨hb, hbs⟩ := forall_mem_cons.1 h
    obtain ⟨hv, hgap⟩ := hb.now k
    simp only [gather]
    by_cases hk : (Buf.chunksVectored b k).length = k
    · rw [if_pos hk, contentAll_cons]
      exact ⟨hv.length_le, hv.isPrefix.trans (prefix_append _ _)⟩
    · have hle := hv.length_le
      obtain ⟨hlen, hpre⟩ := ih (k - (Buf.chunksVectored b k).length) hbs
      rw [if_neg hk, length_append, flatten_append, contentAll_cons, hgap (by omega)]
      exact ⟨by omega, (prefix_append_right_inj _).2 hpre⟩

theorem copyOut_eq (n : ℕ) : ∀ b : β, (content b).length ≤ n → copyOut n b = content b := by
  induction n with
  | zero => intro b h; rw [copyOut, length_eq_zero_iff.1 (Nat.le_zero.1 h)]
  | succ n ih =>
    intro b h
    unfold copyOut
    by_cases hc : Buf.chunk b = []
    · rw [if_pos hc]
      by_contra hne
      exact chunk_ne_nil b (fun h0 => hne h0.symm) hc
    · rw [if_neg hc]
      obtain ⟨rest, hr⟩ := chunk_isPrefix b
      have hlen : (content b).length = (Buf.chunk b).length + rest.length := by rw [← hr, length_append]
      have hpos := length_pos_iff.2 hc
      have hadv : content (Buf.advance b (Buf.chunk b).length) = rest := by
        rw [content_advance _ _ (by omega), ← hr, drop_left]
      rw [ih _ (by rw [hadv]; omega), hadv, hr]

/-! ## The write buffer -/

namespace WriteBuf

/-- The waiting bytes. -/
def content (w : WriteBuf β) : Bytes := LawfulBuf.content w.headers ++ contentAll w.queue.bufs

structure Wf (w : WriteBuf β) : Prop where
  flatten : w.strategy = .flatten → w.queue.bufs = []
  queued : Queued w.queue.bufs

variable {w : WriteBuf β}

theorem remaining_eq (w : WriteBuf β) : Buf.remaining w = w.content.length := by
  show Buf.remaining w.headers + w.queue.remaining = _
  rw [content, length_append, LawfulBuf.remaining_eq, w.queue.counted, remainingAll_eq]

theorem content_extendHeaders (h : w.queue.bufs = []) (bytes : Bytes) :
    (w.extendHeaders bytes).content = w.content ++ bytes := by
  simp [content, extendHeaders, h]

/-- **Buffering** puts the bytes behind those waiting. -/
theorem content_buffer (hf : w.strategy = .flatten → w.queue.bufs = []) (b : β) :
    (w.buffer b).content = w.content ++ LawfulBuf.content b := by
  unfold buffer
  split
  · rename_i hs
    simp [content, hf hs, copyOut_eq _ b (le_of_eq (LawfulBuf.remaining_eq b).symm)]
  · simp [content, BufList.push]

theorem gained_buffer (w : WriteBuf β) (b : β) : w.gained (w.buffer b) = LawfulBuf.content b := by
  unfold gained buffer
  split
  · simp [copyOut_eq _ b (le_of_eq (LawfulBuf.remaining_eq b).symm)]
  · simp [BufList.push]

theorem Wf.buffer (hw : w.Wf) {b : β} (hb : LawfulBuf.content b ≠ []) (hg : GapFree b) : (w.buffer b).Wf := by
  unfold WriteBuf.buffer
  split
  · exact ⟨hw.flatten, hw.queued⟩
  · rename_i hs
    refine ⟨fun h => absurd (hs.symm.trans h) (by simp), fun x hx => ?_⟩
    rcases mem_append.1 hx with hx | hx
    · exact hw.queued x hx
    · rw [mem_singleton.1 hx]; exact ⟨hb, hg⟩

theorem Wf.extendHeaders (hw : w.Wf) (bytes : Bytes) : (w.extendHeaders bytes).Wf := ⟨hw.flatten, hw.queued⟩

/-- **Advancing** drops waiting bytes. -/
theorem content_advance {n : ℕ} (h : n ≤ w.content.length) :
    (Buf.advance w n).content = w.content.drop n := by
  have hr : Buf.remaining w.headers = (LawfulBuf.content w.headers).length := LawfulBuf.remaining_eq _
  rw [content, length_append] at h
  simp only [Buf.advance, hr]
  by_cases he : (LawfulBuf.content w.headers).length = n
  · rw [if_pos he]
    simp [content, ← he]
  rw [if_neg he]
  by_cases hlt : n < (LawfulBuf.content w.headers).length
  · rw [if_pos hlt]
    simp only [content]
    rw [drop_append_of_le_length (by omega), ← LawfulBuf.content_advance _ _ (by omega)]
    rfl
  · have hz : (LawfulBuf.content w.headers).drop n = [] := drop_eq_nil_of_le (by omega)
    rw [if_neg hlt]
    simp only [content, BufList.advance, Cursor.content_reset, nil_append]
    rw [contentAll_advanceBufs _ _ (by omega), drop_append, hz, nil_append]

theorem Wf.advance (hw : w.Wf) {n : ℕ} : (Buf.advance w n).Wf := by
  simp only [Buf.advance]
  split
  · exact ⟨hw.flatten, hw.queued⟩
  · split
    · exact ⟨hw.flatten, hw.queued⟩
    · refine ⟨fun hs => ?_, hw.queued.advanceBufs⟩
      simp only [BufList.advance, hw.flatten hs, advanceBufs]

theorem chunk_isPrefix (w : WriteBuf β) : Buf.chunk w <+: w.content := by
  simp only [Buf.chunk, content]
  split
  · exact prefix_append _ _
  · rename_i h
    rw [show LawfulBuf.content w.headers = [] from not_not.1 h, nil_append]
    cases hq : w.queue.bufs with
    | nil => simp
    | cons b bs => simpa using (LawfulBuf.chunk_isPrefix b).trans (prefix_append _ _)

theorem chunksVectored_eq {k : ℕ} (hk : 0 < k) : (Buf.chunksVectored w k).flatten =
    LawfulBuf.content w.headers ++
      (Buf.chunksVectored w.queue (k - (Buf.chunksVectored w.headers k).length)).flatten := by
  have hh : (Buf.chunksVectored w.headers k).flatten = LawfulBuf.content w.headers := by
    simp only [Buf.chunksVectored, firstChunk, if_neg (Nat.pos_iff_ne_zero.1 hk)]
    split
    · simp [LawfulBuf.content]
    · rename_i h
      rw [← length_drop, length_pos_iff, not_not] at h
      exact h.symm
  rw [← hh, ← flatten_append]
  rfl

theorem chunksVectored_isPrefix (hw : w.Wf) {k : ℕ} (hk : 0 < k) :
    (Buf.chunksVectored w k).flatten <+: w.content := by
  rw [chunksVectored_eq hk, content, prefix_append_right_inj]
  simp only [Buf.chunksVectored]
  split
  · simp
  · exact (gather_isPrefix _ _ fun b hb => (hw.queued b hb).2).2

end WriteBuf

/-! ## Flushing -/

namespace Buffered

/-- The bytes the transport has accepted and the bytes waiting for it. -/
def wire (b : Buffered β) : Bytes := b.io.sent ++ b.writeBuf.content

/-- What writing leaves alone: all that belongs to reading, and the settings. -/
structure WritesOnly (b b' : Buffered β) : Prop where
  flushPipeline : b'.flushPipeline = b.flushPipeline
  partialLen : b'.partialLen = b.partialLen
  readBlocked : b'.readBlocked = b.readBlocked
  readBuf : b'.readBuf = b.readBuf
  readBufStrategy : b'.readBufStrategy = b.readBufStrategy
  reads : b'.io.reads = b.io.reads
  received : b'.io.received = b.io.received
  isWriteVectored : b'.io.isWriteVectored = b.io.isWriteVectored
  strategy : b'.writeBuf.strategy = b.writeBuf.strategy
  maxBufSize : b'.writeBuf.maxBufSize = b.writeBuf.maxBufSize

theorem WritesOnly.refl (b : Buffered β) : WritesOnly b b :=
  ⟨rfl, rfl, rfl, rfl, rfl, rfl, rfl, rfl, rfl, rfl⟩

variable {b : Buffered β}

theorem WritesOnly.trans {a c : Buffered β} (h : WritesOnly a b) (h' : WritesOnly b c) : WritesOnly a c :=
  ⟨h'.1.trans h.1, h'.2.trans h.2, h'.3.trans h.3, h'.4.trans h.4, h'.5.trans h.5, h'.6.trans h.6,
    h'.7.trans h.7, h'.8.trans h.8, h'.9.trans h.9, h'.10.trans h.10⟩

/-- A write that keeps the wire: bytes may have moved from the buffer to the transport. -/
structure Writes (b b' : Buffered β) : Prop where
  wire : b'.wire = b.wire
  wf : b'.writeBuf.Wf
  only : WritesOnly b b'

theorem Writes.refl (h : b.writeBuf.Wf) : Writes b b := ⟨rfl, h, WritesOnly.refl b⟩

theorem Writes.trans {a c : Buffered β} (h : Writes a b) (h' : Writes b c) : Writes a c :=
  ⟨h'.1.trans h.1, h'.2, h.3.trans h'.3⟩

/-- The answer of one write of a buffer that holds `content`: nothing was accepted, or the
front of it was and `n` bytes are gone from the buffer. -/
def WriteOk (b : Buffered β) (x : Poll (Except IoError ℕ) × Buffered β) : Prop :=
  Writes b x.2 ∧
    match x.1 with
    | .ready (.ok n) => x.2.writeBuf.content.length + n = b.writeBuf.content.length
    | .ready (.error _) | .pending => True
    | .busy | .panicked => False

theorem pollWrite_writes (hw : b.writeBuf.Wf) {buf : Bytes} (adv : WriteBuf β → ℕ → WriteBuf β)
    (hbuf : buf <+: b.writeBuf.content)
    (hadv : ∀ n, n ≤ buf.length → (adv b.writeBuf n).content = b.writeBuf.content.drop n ∧ (adv b.writeBuf n).Wf ∧
      (adv b.writeBuf n).strategy = b.writeBuf.strategy ∧ (adv b.writeBuf n).maxBufSize = b.writeBuf.maxBufSize) :
    WriteOk b (whenOk (within (b.io.pollWrite buf) fun io => { b with io := io }) fun n b =>
      (.ready (.ok n), { b with writeBuf := adv b.writeBuf n })) := by
  have hkeep : ∀ ws r, Writes b { b with io := { b.io with writes := ws, refused := r } } := fun ws r =>
    ⟨rfl, hw, ⟨rfl, rfl, rfl, rfl, rfl, rfl, rfl, rfl, rfl, rfl⟩⟩
  unfold Transport.pollWrite
  cases b.io.writes.head with
  | err e => exact ⟨hkeep _ _, trivial⟩
  | pending => exact ⟨hkeep _ _, trivial⟩
  | ok n =>
    obtain ⟨rest, hr⟩ := hbuf
    obtain ⟨hc, hwf, hs, hm⟩ := hadv (min n buf.length) (min_le_right _ _)
    have htake : buf.take n = buf.take (min n buf.length) := by rw [take_eq_take_iff]; omega
    have hdrop : b.writeBuf.content.drop (min n buf.length) = buf.drop (min n buf.length) ++ rest := by
      rw [← hr, drop_append_of_le_length (min_le_right _ _)]
    refine ⟨⟨?_, hwf, ⟨rfl, rfl, rfl, rfl, rfl, rfl, rfl, rfl, hs, hm⟩⟩, ?_⟩
    · show (b.io.sent ++ buf.take n) ++ (adv b.writeBuf (min n buf.length)).content = b.io.sent ++ b.writeBuf.content
      rw [hc, hdrop, ← hr, htake, append_assoc, ← append_assoc (buf.take _), take_append_drop]
    · show (adv b.writeBuf (min n buf.length)).content.length + min n buf.length = _
      rw [hc, length_drop, ← hr, length_append]
      omega

theorem pollWriteBuf_ok (hw : b.writeBuf.Wf) : WriteOk b b.pollWriteBuf := by
  have hadv : ∀ n, n ≤ b.writeBuf.content.length →
      (Buf.advance b.writeBuf n).content = b.writeBuf.content.drop n ∧ (Buf.advance b.writeBuf n).Wf ∧
      (Buf.advance b.writeBuf n).strategy = b.writeBuf.strategy ∧
      (Buf.advance b.writeBuf n).maxBufSize = b.writeBuf.maxBufSize := by
    intro n hn
    refine ⟨WriteBuf.content_advance hn, hw.advance, ?_, ?_⟩ <;>
      simp only [Buf.advance] <;> split <;> [rfl; (split <;> rfl); rfl; (split <;> rfl)]
  unfold pollWriteBuf
  by_cases h0 : Buf.remaining b.writeBuf = 0
  · rw [if_pos h0]
    exact ⟨Writes.refl hw, rfl⟩
  rw [if_neg h0]
  by_cases hv : b.io.isWriteVectored = true
  · have hpre := WriteBuf.chunksVectored_isPrefix hw (k := maxBufs) (by decide)
    simp only [hv, if_true]
    exact pollWrite_writes hw Buf.advance hpre fun n hn => hadv n (le_trans hn hpre.length_le)
  · have hpre := b.writeBuf.chunk_isPrefix
    simp only [Bool.eq_false_iff.2 hv, Bool.false_eq_true, if_false]
    exact pollWrite_writes hw Buf.advance hpre fun n hn => hadv n (le_trans hn hpre.length_le)

theorem pollWriteHeaders_ok (hw : b.writeBuf.Wf) (hq : b.writeBuf.queue.bufs = []) : WriteOk b b.pollWriteHeaders := by
  have hc : ∀ h : Cursor, WriteBuf.content { b.writeBuf with headers := h } = LawfulBuf.content h := fun h => by
    simp [WriteBuf.content, hq]
  refine pollWrite_writes hw (fun w n =>
    let h := Buf.advance w.headers n
    { w with headers := if Buf.remaining h = 0 then h.reset else h }) ?_ ?_
  · exact prefix_append _ _
  · intro n hn
    have hadv : LawfulBuf.content (Buf.advance b.writeBuf.headers n) =
        (LawfulBuf.content b.writeBuf.headers).drop n := LawfulBuf.content_advance _ _ hn
    have hw' : b.writeBuf.content = LawfulBuf.content b.writeBuf.headers := hc b.writeBuf.headers
    refine ⟨?_, ⟨hw.flatten, hw.queued⟩, rfl, rfl⟩
    rw [hc, hw', ← hadv]
    split
    · rename_i h0
      rw [LawfulBuf.remaining_eq, length_eq_zero_iff] at h0
      rw [h0]; rfl
    · rfl

/-- The answer of a flush: a flush that is done leaves no byte waiting. -/
def FlushOk (b : Buffered β) (x : Poll (Except IoError Unit) × Buffered β) : Prop :=
  Writes b x.2 ∧
    match x.1 with
    | .ready (.ok ()) => x.2.writeBuf.content = []
    | .ready (.error _) | .pending => True
    | .busy | .panicked => False

theorem ioFlush_ok (hw : b.writeBuf.Wf) (h : b.writeBuf.content = []) :
    FlushOk b (within b.io.pollFlush fun io => { b with io := io }) := by
  refine ⟨⟨rfl, hw, ⟨rfl, rfl, rfl, rfl, rfl, rfl, rfl, rfl, rfl, rfl⟩⟩, ?_⟩
  unfold Transport.pollFlush
  cases b.io.flushes.head with
  | ok => exact h
  | err e => trivial
  | pending => trivial

/-- A round of a flush loop: it goes on with fewer bytes waiting, or leaves. -/
theorem flushRound_ok {b₀ : Buffered β} {m : ℕ} (h : Writes b₀ b) (hm : b.writeBuf.content.length = m + 1)
    {x : Poll (Except IoError ℕ) × Buffered β} (hx : WriteOk b x) (left : Buffered β → ℕ)
    (hleft : ∀ b', Writes b b' → left b' = b'.writeBuf.content.length) :
    (Ctl.whenOk x fun n b => afterWrite (left b) n b).Sat
      (fun b' => ∃ m', m' < m ∧ Writes b₀ b' ∧ b'.writeBuf.content.length = m' + 1) (FlushOk b₀) := by
  obtain ⟨hw, hx⟩ := hx
  obtain ⟨res, b'⟩ := x
  have h' : Writes b₀ b' := h.trans hw
  match res, hx with
  | .pending, _ => exact ⟨h', trivial⟩
  | .ready (.error e), _ => exact ⟨h', trivial⟩
  | .ready (.ok n), hn =>
    simp only at hn
    simp only [Ctl.whenOk, Ctl.whenReady, afterWrite, hleft b' hw]
    by_cases h0 : b'.writeBuf.content.length = 0
    · rw [if_pos h0]
      obtain ⟨h1, h2⟩ := ioFlush_ok h'.wf (length_eq_zero_iff.1 h0)
      exact ⟨h'.trans h1, h2⟩
    · rw [if_neg h0]
      split
      · exact ⟨h', trivial⟩
      · exact ⟨b'.writeBuf.content.length - 1, by omega, h', by omega⟩

/-- **A flush** keeps the wire, ends, and leaves no byte waiting if it is done. -/
theorem pollFlush_wire (hw : b.writeBuf.Wf) (hp : b.flushPipeline = false) : FlushOk b b.pollFlush := by
  unfold pollFlush
  rw [if_neg (by simp [hp]), WriteBuf.remaining_eq]
  by_cases h0 : b.writeBuf.content.length = 0
  · rw [if_pos h0]
    exact ioFlush_ok hw (length_eq_zero_iff.1 h0)
  rw [if_neg h0]
  have hstart : Writes b b ∧ b.writeBuf.content.length = b.writeBuf.content.length - 1 + 1 :=
    ⟨Writes.refl hw, by omega⟩
  cases hs : b.writeBuf.strategy with
  | flatten =>
    refine loop_progress (I := fun m b' => Writes b b' ∧ b'.writeBuf.content.length = m + 1) (Q := FlushOk b) ?_
      _ _ b hstart (by omega)
    rintro m b' ⟨hwr, hm⟩
    have hq : ∀ {c : Buffered β}, Writes b' c → c.writeBuf.queue.bufs = [] := fun h =>
      h.wf.flatten ((h.only.strategy.trans hwr.only.strategy).trans hs)
    refine flushRound_ok hwr hm (pollWriteHeaders_ok hwr.wf (hq (Writes.refl hwr.wf)))
      (fun c => Buf.remaining c.writeBuf.headers) ?_
    intro c hc
    rw [LawfulBuf.remaining_eq, WriteBuf.content, hq hc, contentAll_nil, append_nil]
  | queue =>
    refine loop_progress (I := fun m b' => Writes b b' ∧ b'.writeBuf.content.length = m + 1) (Q := FlushOk b) ?_
      _ _ b hstart (by omega)
    rintro m b' ⟨hwr, hm⟩
    exact flushRound_ok hwr hm (pollWriteBuf_ok hwr.wf) (fun c => Buf.remaining c.writeBuf)
      fun c _ => WriteBuf.remaining_eq _

end Buffered

/-! ## Runs -/

/-- What the connection does to its write buffer. -/
inductive WriteOp (β : Type) where
  /-- Append bytes of a head. -/
  | head (bytes : Bytes)
  | buffer (b : β)
  | flush

def WriteOp.input : WriteOp β → Bytes
  | .head bytes => bytes
  | .buffer b => content b
  | .flush => []

/-- A head may only be written when no body bytes are queued. -/
def WriteOp.apply (b : Buffered β) : WriteOp β → Option (Buffered β)
  | .head bytes => if b.canHeadersBuf then some { b with writeBuf := b.writeBuf.extendHeaders bytes } else none
  | .buffer x => some (b.buffer x)
  | .flush => some b.pollFlush.2

def runWrites (b : Buffered β) : List (WriteOp β) → Option (Buffered β)
  | [] => some b
  | op :: ops => (op.apply b).bind fun b => runWrites b ops

/-- Body pieces with bytes, whose vectored reads skip nothing. -/
def WriteOp.Ok : WriteOp β → Prop
  | .buffer b => content b ≠ [] ∧ GapFree b
  | _ => True

theorem queue_nil_of_canHeadersBuf {b : Buffered β} (hw : b.writeBuf.Wf) (h : b.canHeadersBuf = true) :
    b.writeBuf.queue.bufs = [] := by
  simp only [Buffered.canHeadersBuf, Buf.hasRemaining, Buf.remaining, Bool.not_eq_true',
    decide_eq_false_iff_not, not_lt, Nat.le_zero] at h
  rw [b.writeBuf.queue.counted, remainingAll_eq, length_eq_zero_iff] at h
  cases hq : b.writeBuf.queue.bufs with
  | nil => rfl
  | cons x xs =>
    rw [hq, contentAll_cons, append_eq_nil_iff] at h
    exact absurd h.1 (hw.queued x (by simp [hq])).1

theorem WriteOp.apply_wire {b b' : Buffered β} {op : WriteOp β} (hw : b.writeBuf.Wf)
    (hp : b.flushPipeline = false) (hop : op.Ok) (h : op.apply b = some b') :
    b'.wire = b.wire ++ op.input ∧ b'.writeBuf.Wf ∧ b'.flushPipeline = false := by
  cases op with
  | head bytes =>
    simp only [apply] at h
    split at h
    · rename_i hc
      cases h
      refine ⟨?_, hw.extendHeaders bytes, hp⟩
      simp only [Buffered.wire, WriteBuf.content_extendHeaders (queue_nil_of_canHeadersBuf hw hc), input,
        append_assoc]
    · cases h
  | buffer x =>
    cases h
    refine ⟨?_, hw.buffer hop.1 hop.2, hp⟩
    simp only [Buffered.wire, Buffered.buffer, WriteBuf.content_buffer hw.flatten, input, append_assoc]
  | flush =>
    cases h
    obtain ⟨hwr, -⟩ := Buffered.pollFlush_wire hw hp
    exact ⟨by rw [hwr.wire, input, append_nil], hwr.wf, hwr.only.flushPipeline.trans hp⟩

/-- A run puts its inputs behind the wire, in order. -/
theorem runWrites_wire (ops : List (WriteOp β)) :
    ∀ {b b' : Buffered β}, b.writeBuf.Wf → b.flushPipeline = false → (∀ op ∈ ops, op.Ok) →
      runWrites b ops = some b' →
      b'.wire = b.wire ++ ops.flatMap WriteOp.input ∧ b'.writeBuf.Wf ∧ b'.flushPipeline = false := by
  induction ops with
  | nil =>
    intro b b' hw hp _ h
    cases h
    exact ⟨by simp, hw, hp⟩
  | cons op ops ih =>
    intro b b' hw hp hops h
    obtain ⟨b₁, h₁, h₂⟩ := Option.bind_eq_some_iff.1 h
    obtain ⟨hw₁, hwf₁, hp₁⟩ := op.apply_wire hw hp (hops op (by simp)) h₁
    obtain ⟨hw₂, hwf₂, hp₂⟩ := ih hwf₁ hp₁ (fun o ho => hops o (mem_cons_of_mem _ ho)) h₂
    exact ⟨by rw [hw₂, hw₁, flatMap_cons, append_assoc], hwf₂, hp₂⟩

/-- **The write strategy is invisible on the wire.** After any writes and flushes,
against any transport, what the transport accepted followed by what is waiting is
what was put in, and `remaining` counts what is waiting. A flush that is done has
handed over everything. -/
theorem write_strategy_invisible (strategy : WriteStrategy) (io : Transport) (room : Stream' ℕ)
    (ops : List (WriteOp β)) (hops : ∀ op ∈ ops, op.Ok) (b : Buffered β)
    (h : runWrites ((Buffered.new io room).setWriteStrategy strategy) ops = some b) :
    b.io.sent ++ b.writeBuf.content = io.sent ++ ops.flatMap WriteOp.input ∧
      Buf.remaining b.writeBuf + b.io.sent.length = io.sent.length + (ops.flatMap WriteOp.input).length ∧
      (b.pollFlush.1 = .ready (.ok ()) → b.pollFlush.2.io.sent = io.sent ++ ops.flatMap WriteOp.input) := by
  have hwf : ((Buffered.new io room : Buffered β).setWriteStrategy strategy).writeBuf.Wf :=
    ⟨fun _ => rfl, fun _ hx => absurd hx (by simp [Buffered.setWriteStrategy, WriteBuf.setStrategy,
      Buffered.new, WriteBuf.new, BufList.new])⟩
  obtain ⟨hwire, hw, hp⟩ := runWrites_wire ops hwf rfl hops h
  have hwire' : b.io.sent ++ b.writeBuf.content = io.sent ++ ops.flatMap WriteOp.input := by
    rw [← append_nil io.sent]; exact hwire
  refine ⟨hwire', ?_, fun hdone => ?_⟩
  · have hlen := congrArg List.length hwire'
    simp only [length_append] at hlen
    rw [WriteBuf.remaining_eq]
    omega
  · obtain ⟨hwr, hc⟩ := Buffered.pollFlush_wire hw hp
    rw [hdone] at hc
    have hw2 := hwr.wire
    simp only [Buffered.wire, show b.pollFlush.2.writeBuf.content = [] from hc, append_nil] at hw2
    exact hw2.trans hwire'

/-- A transport that takes three bytes at a time and never flushes. -/
def slowTransport : Transport where
  reads := Stream'.const .pending
  writes := Stream'.const (.ok 3)
  flushes := Stream'.const .pending
  shutdowns := Stream'.const .pending
  isWriteVectored := true
  received := []
  sent := []
  refused := false

/-- A head, a body piece, a flush and another piece, queued. -/
theorem write_strategy_invisible_queue :
    ∃ b : Buffered Bytes, runWrites ((Buffered.new slowTransport (Stream'.const 0)).setWriteStrategy .queue)
        [.head (ascii "ab"), .buffer (ascii "cdef"), .flush, .buffer (ascii "gh")] = some b ∧
      b.io.sent ++ b.writeBuf.content = ascii "abcdefgh" ∧ b.io.sent = ascii "abcdef" := by
  refine ⟨_, rfl, (write_strategy_invisible .queue slowTransport (Stream'.const 0)
    [.head (ascii "ab"), .buffer (ascii "cdef"), .flush, .buffer (ascii "gh")] ?_ _ rfl).1, rfl⟩
  intro op hop
  simp only [mem_cons, not_mem_nil, or_false] at hop
  rcases hop with rfl | rfl | rfl | rfl
  · trivial
  · exact ⟨by decide, gapFree_bytes _⟩
  · trivial
  · exact ⟨by decide, gapFree_bytes _⟩

/-- Two runs of bytes, with the vectored read that a type has by default. -/
structure TwoRuns where
  runs : Chain Bytes Bytes

instance : LawfulBuf TwoRuns where
  remaining b := Buf.remaining b.runs
  chunk b := Buf.chunk b.runs
  advance b n := ⟨Buf.advance b.runs n⟩
  chunksVectored b k := firstChunk (Buf.remaining b.runs) (Buf.chunk b.runs) k
  content b := content b.runs
  remaining_eq b := remaining_eq b.runs
  chunk_isPrefix b := chunk_isPrefix b.runs
  chunk_ne_nil b := chunk_ne_nil b.runs
  content_advance b := content_advance b.runs

def writesOfRuns : List (WriteOp TwoRuns) := [.buffer ⟨[1], [2]⟩, .buffer ⟨[3], [4]⟩, .flush]

/-- **A queued buffer of two runs is not sent as it is**: a vectored write takes the first run of each. -/
theorem queued_runs_skipped :
    let sent := fun strategy => (runWrites ((Buffered.new slowTransport (Stream'.const 0)).setWriteStrategy strategy)
      writesOfRuns).map fun b => b.io.sent
    writesOfRuns.flatMap WriteOp.input = [1, 2, 3, 4] ∧ sent .flatten = some [1, 2, 3, 4] ∧
      sent .queue = some [1, 3, 3, 4] :=
  ⟨rfl, rfl, rfl⟩

end Netty
