import Netty.Proof.Dispatch
import Netty.Proof.Reader

/-!
# Buffered output is not stranded

When the task goes to sleep, what it has written is with the transport, or the
transport has refused it and will wake the task.

* `Buffered.Plain`: nothing is held back and nothing stands behind the one buffer of
  the flattening strategy. It holds throughout (`Plain.move`).
* `FlushKeeps`: what a flush cannot change.
* `pollFlush_empties`: a completed flush leaves nothing.
* `poll_loop_flushes`: the exits of `poll_loop`.
-/

namespace Netty

variable {β : Type} [LawfulBuf β]

namespace Buffered

/-- Output is not held back for a pipeline, and the flattening strategy has no queue. -/
structure Plain (b : Buffered β) : Prop where
  flushPipeline : b.flushPipeline = false
  flatten : b.writeBuf.strategy = .flatten → b.writeBuf.queue.bufs = []

variable {b : Buffered β}

/-! ## Reading -/

theorem pollReadFromIo_writeSide (b : Buffered β) :
    b.pollReadFromIo.2.flushPipeline = b.flushPipeline ∧ b.pollReadFromIo.2.writeBuf = b.writeBuf := by
  rw [b.pollReadFromIo_eq]
  cases b.io.reads.head <;> exact ⟨rfl, rfl⟩

theorem Plain.pollReadFromIo (h : b.Plain) : b.pollReadFromIo.2.Plain := by
  obtain ⟨h1, h2⟩ := b.pollReadFromIo_writeSide
  exact ⟨h1.trans h.flushPipeline, by rw [h2]; exact h.flatten⟩

theorem Plain.readMem (h : b.Plain) (len : ℕ) : (b.readMem len).2.Plain := by
  unfold Buffered.readMem
  split
  · exact ⟨h.flushPipeline, h.flatten⟩
  · have h₁ := h.pollReadFromIo
    refine whenOk_ind (P := fun x : _ × Buffered β => x.2.Plain) (fun n t ht => ?_) (fun e t ht => ?_) fun _ _ => h₁
    · rw [ht] at h₁; exact ⟨h₁.flushPipeline, h₁.flatten⟩
    · rw [ht] at h₁; exact h₁

/-! ## What a flush keeps -/

/-- What is not changed by a write of the transport nor by taking what was written off the buffer. -/
structure FlushKeeps (P : Buffered β → Prop) : Prop where
  write : ∀ b buf, P b → P { b with io := (b.io.pollWrite buf).2 }
  flush : ∀ b, P b → P { b with io := b.io.pollFlush.2 }
  shutdown : ∀ b, P b → P { b with io := b.io.pollShutdown.2 }
  headers : ∀ b h, P b → P { b with writeBuf := { b.writeBuf with headers := h } }
  advance : ∀ b n, P b → P { b with writeBuf := Buf.advance b.writeBuf n }

namespace FlushKeeps

variable {P : Buffered β → Prop}

section

variable (hP : FlushKeeps P) (h : P b)

include hP h

theorem afterWrite (left n : ℕ) : (afterWrite left n b).Sat P fun x => P x.2 := by
  unfold Buffered.afterWrite
  split
  · exact hP.flush b h
  split <;> exact h

theorem flushFlattenedStep : b.flushFlattenedStep.Sat P fun x => P x.2 := by
  have hw := hP.write b (Buf.chunk b.writeBuf.headers) h
  unfold Buffered.flushFlattenedStep pollWriteHeaders
  rcases hx : b.io.pollWrite (Buf.chunk b.writeBuf.headers) with ⟨(e | n) | _ | _ | _, io⟩ <;> rw [hx] at hw
  · exact hw
  · exact hP.afterWrite (hP.headers _ _ hw) _ _
  · exact hw
  · exact hw
  · exact hw

theorem flushQueuedStep : b.flushQueuedStep.Sat P fun x => P x.2 := by
  unfold Buffered.flushQueuedStep pollWriteBuf
  split
  · exact hP.afterWrite h _ _
  simp only
  generalize hx : (if b.io.isWriteVectored = true then b.io.pollWriteVectored (Buf.chunksVectored b.writeBuf maxBufs)
    else b.io.pollWrite (Buf.chunk b.writeBuf)) = x
  have hw : P { b with io := x.2 } := by
    rw [← hx]
    split
    · exact hP.write b _ h
    · exact hP.write b _ h
  obtain ⟨(e | n) | _ | _ | _, io⟩ := x
  · exact hw
  · exact hP.afterWrite (hP.advance _ n hw) _ _
  · exact hw
  · exact hw
  · exact hw

theorem pollFlush : P b.pollFlush.2 := by
  unfold Buffered.pollFlush
  split
  · exact h
  split
  · exact hP.flush b h
  split
  · exact loop_inv (Q := fun x => P x.2) (fun _ => hP.flushFlattenedStep) (fun _ h => h) _ b h
  · exact loop_inv (Q := fun x => P x.2) (fun _ => hP.flushQueuedStep) (fun _ h => h) _ b h

theorem pollShutdown : P b.pollShutdown.2 := by
  have h₁ := hP.pollFlush h
  unfold Buffered.pollShutdown
  refine whenOk_ind (P := fun x : _ × Buffered β => P x.2) (fun n t ht => ?_) (fun e t ht => ?_) fun _ _ => h₁
  · rw [ht] at h₁
    exact hP.shutdown t h₁
  · rw [ht] at h₁
    exact h₁

end

end FlushKeeps

/-! ## Writing -/

theorem Plain.extendHeaders (h : b.Plain) (bytes : Bytes) :
    ({ b with writeBuf := b.writeBuf.extendHeaders bytes } : Buffered β).Plain := ⟨h.flushPipeline, h.flatten⟩

theorem Plain.buffer (h : b.Plain) (buf : β) : (b.buffer buf).Plain := by
  refine ⟨h.flushPipeline, ?_⟩
  unfold Buffered.buffer WriteBuf.buffer
  cases hs : b.writeBuf.strategy with
  | flatten => intro _; exact h.flatten hs
  | queue =>
    intro hs'
    cases hs'

/-- What a flush may do: all is written if it is completed, and also if it waits for more than a write. -/
structure FlushEmpties (x : Poll (Except IoError Unit) × Buffered β) : Prop where
  plain : x.2.Plain
  done : x.1 = .ready (.ok ()) → Buf.remaining x.2.writeBuf = 0
  pending : x.1 = .pending → Buf.remaining x.2.writeBuf = 0 ∨ x.2.io.refused = true

theorem FlushEmpties.of_ne {x : Poll (Except IoError Unit) × Buffered β} (h : x.2.Plain)
    (hx : x.1 ≠ .ready (.ok ())) (hp : x.1 ≠ .pending) : FlushEmpties x :=
  ⟨h, fun h' => absurd h' hx, fun h' => absurd h' hp⟩

theorem FlushEmpties.of_empty {x : Poll (Except IoError Unit) × Buffered β} (h : x.2.Plain)
    (h0 : Buf.remaining x.2.writeBuf = 0) : FlushEmpties x :=
  ⟨h, fun _ => h0, fun _ => .inl h0⟩

theorem pollWrite_refused {io io' : Transport} {buf : Bytes} (h : io.pollWrite buf = (.pending, io')) :
    io'.refused = true := by
  unfold Transport.pollWrite at h
  rcases hw : io.writes.head with n | e | _ <;> rw [hw] at h <;> cases h
  rfl

theorem FlushEmpties.of_refused (h : b.Plain) {io : Transport} (hr : io.refused = true) :
    FlushEmpties (.pending, { b with io := io }) :=
  ⟨⟨h.flushPipeline, h.flatten⟩, nofun, fun _ => .inr hr⟩

theorem afterWrite_empties (left n : ℕ) (h : b.Plain) (hl : left = 0 → Buf.remaining b.writeBuf = 0) :
    (afterWrite left n b).Sat Plain FlushEmpties := by
  unfold afterWrite
  split
  · exact .of_empty ⟨h.flushPipeline, h.flatten⟩ (hl ‹_›)
  split
  · exact .of_ne h (by simp) (by simp)
  · exact h

theorem remaining_of_headers (h : b.Plain) (hs : b.writeBuf.strategy = .flatten)
    (h0 : Buf.remaining b.writeBuf.headers = 0) : Buf.remaining b.writeBuf = 0 := by
  show Buf.remaining b.writeBuf.headers + b.writeBuf.queue.remaining = 0
  rw [b.writeBuf.queue.counted, h.flatten hs, h0]
  rfl

theorem flushFlattenedStep_empties (h : b.Plain) (hs : b.writeBuf.strategy = .flatten) :
    b.flushFlattenedStep.Sat (fun b => b.Plain ∧ b.writeBuf.strategy = .flatten) FlushEmpties := by
  unfold flushFlattenedStep pollWriteHeaders
  rcases hx : b.io.pollWrite (Buf.chunk b.writeBuf.headers) with ⟨(e | n) | _ | _ | _, io⟩
  · exact FlushEmpties.of_ne ⟨h.flushPipeline, h.flatten⟩ (by simp) (by simp)
  · simp only [within, whenOk_ok, Ctl.whenOk, Ctl.whenReady]
    generalize (if Buf.remaining (Buf.advance b.writeBuf.headers n) = 0 then (Buf.advance b.writeBuf.headers n).reset
      else Buf.advance b.writeBuf.headers n) = head
    have hb : ({ b with io := io, writeBuf := { b.writeBuf with headers := head } } : Buffered β).Plain :=
      ⟨h.flushPipeline, h.flatten⟩
    have hsat := afterWrite_empties (Buf.remaining head) n hb (remaining_of_headers hb hs)
    unfold afterWrite at hsat ⊢
    split
    · rename_i h0; rw [if_pos h0] at hsat; exact hsat
    split
    · rename_i h0 h1; rw [if_neg h0, if_pos h1] at hsat; exact hsat
    · exact ⟨hb, hs⟩
  · exact FlushEmpties.of_refused h (pollWrite_refused hx)
  · exact FlushEmpties.of_ne ⟨h.flushPipeline, h.flatten⟩ (by simp) (by simp)
  · exact FlushEmpties.of_ne ⟨h.flushPipeline, h.flatten⟩ (by simp) (by simp)

theorem Plain.advance (h : b.Plain) (n : ℕ) (io : Transport) :
    ({ b with io := io, writeBuf := Buf.advance b.writeBuf n } : Buffered β).Plain := by
  refine ⟨h.flushPipeline, fun hs => ?_⟩
  simp only [Buf.advance] at hs ⊢
  split at hs
  · rename_i h0; rw [if_pos h0]; exact h.flatten hs
  split at hs
  · rename_i h0 h1; rw [if_neg h0, if_pos h1]; exact h.flatten hs
  · rename_i h0 h1
    rw [if_neg h0, if_neg h1]
    show advanceBufs b.writeBuf.queue.bufs _ = []
    rw [h.flatten hs]
    rfl

theorem flushQueuedStep_empties (h : b.Plain) : b.flushQueuedStep.Sat Plain FlushEmpties := by
  unfold flushQueuedStep pollWriteBuf
  split
  · exact afterWrite_empties _ _ h id
  simp only
  generalize hx : (if b.io.isWriteVectored = true then b.io.pollWriteVectored (Buf.chunksVectored b.writeBuf maxBufs)
    else b.io.pollWrite (Buf.chunk b.writeBuf)) = x
  obtain ⟨(e | n) | _ | _ | _, io⟩ := x
  · exact FlushEmpties.of_ne ⟨h.flushPipeline, h.flatten⟩ (by simp) (by simp)
  · exact afterWrite_empties _ _ (h.advance n io) id
  · refine FlushEmpties.of_refused h ?_
    split at hx <;> exact pollWrite_refused hx
  · exact FlushEmpties.of_ne ⟨h.flushPipeline, h.flatten⟩ (by simp) (by simp)
  · exact FlushEmpties.of_ne ⟨h.flushPipeline, h.flatten⟩ (by simp) (by simp)

/-- **A completed flush leaves nothing behind.** -/
theorem pollFlush_empties (h : b.Plain) : FlushEmpties b.pollFlush := by
  unfold pollFlush
  rw [if_neg (by simp [h.flushPipeline])]
  split
  · rename_i h0
    exact .of_empty ⟨h.flushPipeline, h.flatten⟩ h0
  split
  · rename_i hs
    exact loop_inv (fun b hb => flushFlattenedStep_empties hb.1 hb.2) (fun b hb => .of_ne hb.1 (by simp) (by simp)) _ b
      ⟨h, hs⟩
  · exact loop_inv (fun b hb => flushQueuedStep_empties hb) (fun b hb => .of_ne hb (by simp) (by simp)) _ b h

theorem plain_flushKeeps : FlushKeeps (Plain (β := β)) where
  write _ _ h := ⟨h.flushPipeline, h.flatten⟩
  flush _ h := ⟨h.flushPipeline, h.flatten⟩
  shutdown _ h := ⟨h.flushPipeline, h.flatten⟩
  headers _ _ h := ⟨h.flushPipeline, h.flatten⟩
  advance b n h := h.advance n b.io

theorem Plain.pollShutdown (h : b.Plain) : b.pollShutdown.2.Plain := plain_flushKeeps.pollShutdown h

end Buffered

/-! ## The connection -/

namespace Conn

variable {H : Httparse} {c c' : Conn β}

theorem maybeNotify_plain (h : c.io.Plain) : c.maybeNotify.io.Plain := by
  rcases c.maybeNotify_cases with ⟨⟨s, -, hn⟩, -⟩ | ⟨-, -, s, hn, -⟩ <;> rw [hn]
  · exact h
  · exact h.pollReadFromIo

theorem parse_plain (fuel : ℕ) (h : c.io.Plain) : (c.parse H fuel).2.io.Plain :=
  parse_keeps (P := Buffered.Plain) (fun _ h => h.pollReadFromIo) (fun _ _ h => ⟨h.flushPipeline, h.flatten⟩)
    (fun _ _ h => ⟨h.flushPipeline, h.flatten⟩) fuel _ h

theorem decodeBody_plain (fuel i : ℕ) (d : Decoder) (h : c.io.Plain) : (c.decodeBody H fuel i d).2.1.io.Plain :=
  decode_keeps (fun _ n h => h.readMem n) fuel d h

theorem Plain.calm (hm : Calm H c c') (h : c.io.Plain) : c'.io.Plain := by
  cases hm with
  | parse fuel _ => exact parse_plain fuel h
  | interim _ _ => exact h.extendHeaders _
  | unhold _ => exact h
  | @decode _ fuel i d _ _ _ hd _ =>
    have h₁ := decodeBody_plain (H := H) fuel i d h
    rw [hd] at h₁
    exact h₁
  | @frame c₁ fuel i d _ _ _ unexpected _ hd _ =>
    have h₁ := decodeBody_plain (H := H) fuel i d h
    rw [hd] at h₁
    cases unexpected <;> exact h₁
  | tryKeepAlive => exact maybeNotify_plain h
  | read => exact h.pollReadFromIo
  | skip _ => exact ⟨h.flushPipeline, h.flatten⟩
  | closeRead => exact h
  | closeWrite _ => exact h
  | close => exact h
  | writeBody _ _ =>
    unfold writeBody
    split
    · exact h.buffer _
    · exact h
  | writeTrailers _ _ =>
    unfold writeTrailers
    split
    · split
      · exact h.buffer _
      · exact h
    · exact h
  | @writeBodyAndEnd chunk _ _ =>
    unfold writeBodyAndEnd
    split
    · rename_i e _
      have h₁ := h.buffer (e.lastPiece chunk)
      unfold Buffered.buffer at h₁
      rw [← e.encodeAndEnd_snd] at h₁
      exact h₁
    · exact h
  | endBody _ =>
    unfold endBody
    split
    · split
      · exact h
      · exact h.buffer _
      · exact h
    · exact h
  | flush => exact (Buffered.pollFlush_empties h).plain
  | flushed _ => exact h
  | shutdown => exact h.pollShutdown
  | quiet _ => exact h

theorem Plain.move (hm : Move H c c') (h : c.io.Plain) : c'.io.Plain := by
  cases hm with
  | calm hm => exact Plain.calm hm h
  | @head c₁ fuel _ _ hparse =>
    have h₁ := parse_plain (H := H) fuel h
    rw [hparse] at h₁
    exact h₁
  | writeHead head body _ => exact h.extendHeaders _
  | note _ => exact h

theorem maybeNotify_writeBuf (c : Conn β) : c.maybeNotify.io.writeBuf = c.io.writeBuf := by
  rcases c.maybeNotify_cases with ⟨⟨s, -, hn⟩, -⟩ | ⟨-, -, s, hn, -⟩ <;> rw [hn]
  exact c.io.pollReadFromIo_writeSide.2

theorem pollFlush_ready (h : c.io.Plain) (hf : c.pollFlush = (.ready (.ok ()), c')) :
    Buf.remaining c'.io.writeBuf = 0 := by
  have he := Buffered.pollFlush_empties h
  unfold pollFlush within at hf
  rcases hx : c.io.pollFlush with ⟨(e | u) | _ | _ | _, io⟩ <;> rw [hx] at hf <;> try cases hf
  show Buf.remaining (maybeNotify _).io.writeBuf = 0
  rw [maybeNotify_writeBuf]
  rw [hx] at he
  exact he.done rfl

theorem pollFlush_pending (h : c.io.Plain) (hf : c.pollFlush = (.pending, c')) :
    c'.state.log = .flushed false :: c.state.log ∧
      (Buf.remaining c'.io.writeBuf = 0 ∨ c'.io.io.refused = true) := by
  have he := Buffered.pollFlush_empties h
  unfold pollFlush within at hf
  rcases hx : c.io.pollFlush with ⟨(e | u) | _ | _ | _, io⟩ <;> rw [hx] at hf he <;> cases hf
  exact ⟨rfl, he.pending rfl⟩

end Conn

/-! ## The task -/

namespace Dispatcher

variable {H : Httparse} {d d' : Dispatcher β}

/-- Nothing is left to write, or the transport has refused it since `log`. -/
def Settled (log : List Ev) (d : Dispatcher β) : Prop :=
  Buf.remaining d.conn.io.writeBuf = 0 ∨
    d.conn.io.io.refused = true ∧ ∃ l, d.conn.state.log = .flushed false :: l ∧ log <:+ l

theorem Acts.plain (h : Acts H d d') (hd : d.conn.io.Plain) : d'.conn.io.Plain :=
  h.moves.keeps (P := fun c => c.io.Plain) (fun _ _ hm => Conn.Plain.move hm) hd

theorem Acts.log (h : Acts H d d') : d.conn.state.log <:+ d'.conn.state.log := h.moves.log

structure Awake (log : List Ev) (d : Dispatcher β) : Prop where
  plain : d.conn.io.Plain
  log : log <:+ d.conn.state.log

theorem Acts.awake {log : List Ev} (h : Acts H d d') (hd : Awake log d) : Awake log d' :=
  ⟨h.plain hd.plain, hd.log.trans h.log⟩

variable {log : List Ev}

theorem pollFlush_settled (hd : Awake log d) {x : Poll (Except Error Unit)} (hx : d.pollFlush = (x, d'))
    (h : x = .ready (.ok ()) ∨ x = .pending) : Settled log d' := by
  unfold pollFlush within at hx
  rcases hc : d.conn.pollFlush with ⟨(e | u) | _ | _ | _, c⟩ <;> rw [hc] at hx <;> cases hx <;> simp at h
  · exact .inl (Conn.pollFlush_ready hd.plain hc)
  · obtain ⟨hlog, h0⟩ := Conn.pollFlush_pending hd.plain hc
    exact h0.imp_right fun hr => ⟨hr, _, hlog, hd.log⟩

/-- An answer with which the task sleeps is given on settled output only. -/
def SleepsSettled (log : List Ev) (x : Poll (Except Error Unit) × Dispatcher β) : Prop :=
  x.1 ≠ .pending ∧ (x.1 = .ready (.ok ()) → Settled log x.2)

theorem sleeps_of_stop {p : Poll (Except Error Unit)} (h : p = .busy ∨ p = .panicked) : SleepsSettled log (p, d) := by
  rcases h with rfl | rfl <;> exact ⟨by simp, by simp⟩

theorem sleeps_of_error (e : Error) : SleepsSettled log (.ready (.error e), d) := ⟨by simp, by simp⟩

/-- An error, or a stop, of a part is an answer of the whole. -/
theorem unlessErr_settled {x : Poll (Except Error Unit) × Dispatcher β}
    {k : Bool → Dispatcher β → Ctl (Except Error Unit) (Dispatcher β)} (hx : Awake log x.2)
    (hk : ∀ r p t, x = (p, t) → p = .ready (.ok ()) ∨ p = .pending → Awake log t →
      (k r t).Sat (Awake log) (SleepsSettled log)) : (Ctl.unlessErr x k).Sat (Awake log) (SleepsSettled log) := by
  obtain ⟨p, t⟩ := x
  exact Ctl.unlessErr_sat (fun _ _ ht => hk _ _ _ ht (.inl rfl) ((Prod.mk.inj ht).2 ▸ hx))
    (fun _ ht => hk _ _ _ ht (.inr rfl) ((Prod.mk.inj ht).2 ▸ hx)) (fun e _ _ => sleeps_of_error e)
    fun _ hp => sleeps_of_stop hp

theorem writeAgain_settled (H : Httparse) (fuel : ℕ) (hd : Awake log d) :
    (d.writeAgain fuel).Sat (Awake log) (SleepsSettled log) := by
  refine unlessErr_settled ((pollWrite_acts (H := H) fuel d).awake hd) fun r _ t _ _ h₁ => ?_
  split
  · exact h₁
  split
  · exact unlessErr_settled ((pollFlush_acts (H := H) t).awake h₁) fun _ _ _ hu hp _ =>
      ⟨by simp, fun _ => pollFlush_settled h₁ hu hp⟩
  · rename_i hb
    simp only [Conn.hasBufferedWrite, Buffered.hasBufferedWrite, decide_eq_true_eq, not_lt, Nat.le_zero] at hb
    exact ⟨by simp, fun _ => .inl hb⟩

theorem afterFlush_settled (H : Httparse) (fuel : ℕ) (ready : Bool) (hd : Awake log d) (hs : Settled log d) :
    (d.afterFlush fuel ready).Sat (Awake log) (SleepsSettled log) := by
  have h₁ : Awake log (d.setConn d.conn.wantsReadAgain.2) :=
    Acts.awake (H := H) (.single (.aside (wantsReadAgain_aside d))) hd
  unfold afterFlush
  simp only
  split
  · exact ⟨by simp, fun _ => hs⟩
  split
  · exact writeAgain_settled H fuel h₁
  · exact h₁

theorem pollRound_settled (fuel : ℕ) (hd : Awake log d) : (d.pollRound H fuel).Sat (Awake log) (SleepsSettled log) := by
  refine unlessErr_settled ((pollRead_acts (H := H) fuel d).awake hd) fun _ _ _ _ _ h₁ => ?_
  refine unlessErr_settled ((pollWrite_acts (H := H) fuel _).awake h₁) fun _ _ _ _ _ h₂ => ?_
  exact unlessErr_settled ((pollFlush_acts (H := H) _).awake h₂) fun _ _ _ ht hp h₃ =>
    afterFlush_settled H fuel _ h₃ (pollFlush_settled h₂ ht hp)

/-- **The exits of `poll_loop`.** -/
theorem pollLoop_settled (fuel : ℕ) : ∀ n (d : Dispatcher β), Awake log d →
    ((pollLoop H fuel n d).1 = .ready (.ok ()) → Settled log (pollLoop H fuel n d).2) ∧
      ((pollLoop H fuel n d).1 = .pending → ∃ l, (pollLoop H fuel n d).2.conn.state.log = .woke :: l ∧ log <:+ l) := by
  intro n
  induction n with
  | zero => intro d hd; exact ⟨by simp [pollLoop], fun _ => ⟨_, rfl, hd.log⟩⟩
  | succ n ih =>
    intro d hd
    have h := pollRound_settled (H := H) fuel hd
    unfold pollLoop
    cases hx : d.pollRound H fuel with
    | again d₁ => rw [hx] at h; exact ih d₁ h
    | ret x => rw [hx] at h; exact ⟨h.2, fun hp' => absurd hp' h.1⟩

end Dispatcher

/-! ## Runs -/

/-- How the latest of the flushes in a log ended. -/
def lastFlush : List Ev → Option Bool
  | [] => none
  | .flushed done :: _ => some done
  | _ :: log => lastFlush log

theorem Conn.configure_plain (opts : Http1Options) (io : Transport) (room : Stream' ℕ) :
    ((Conn.new io room : Conn β).configure opts).io.Plain := by
  unfold Conn.configure
  simp only
  cases opts.h1Writev <;> cases opts.h1ReadBufExactSize <;> cases opts.h1MaxBufSize <;> exact ⟨rfl, fun _ => rfl⟩

/-- **Buffered output is not stranded.** From every state of every run, when `poll_loop`
is done the write buffer is empty or the last flush of this poll was refused, and when
it gives up its turn after 16 rounds it has woken the task. -/
theorem poll_loop_flushes (H : Httparse) (opts : Http1Options) (io : Transport) (room : Stream' ℕ)
    (users : Stream' (List (Ext β))) (steps : List (Step β)) (fuel : ℕ) :
    let d := ((World.new opts io room users).run H steps).task
    match d.pollLoop H fuel 16 with
    | (.ready (.ok ()), d') => Buf.remaining d'.conn.io.writeBuf = 0 ∨
        ∃ l, d'.conn.state.log = l ++ d.conn.state.log ∧ lastFlush l = some false
    | (.pending, d') => ∃ l, d'.conn.state.log = .woke :: (l ++ d.conn.state.log)
    | _ => True := by
  intro d
  have hd : d.conn.io.Plain :=
    World.run_conn_keeps (P := fun c => c.io.Plain) (fun _ _ hm => Conn.Plain.move hm) steps _
      (Conn.configure_plain opts io room)
  have hw : Dispatcher.Awake d.conn.state.log d := ⟨hd, List.suffix_rfl⟩
  have h := Dispatcher.pollLoop_settled (H := H) fuel 16 d hw
  split
  · rename_i d' hx
    rw [hx] at h
    rcases h.1 rfl with h0 | ⟨-, _, hl, l, rfl⟩
    · exact .inl h0
    · exact .inr ⟨.flushed false :: l, hl, rfl⟩
  · rename_i d' hx
    rw [hx] at h
    obtain ⟨_, hl, l, rfl⟩ := h.2 rfl
    exact ⟨l, hl⟩
  · trivial

end Netty
