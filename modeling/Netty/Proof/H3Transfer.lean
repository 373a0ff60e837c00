import Netty.Proof.H3Reader
import Netty.Proof.H3Writer
import Netty.Spec.H3Transfer

/-!
# A stop of the peer ends only the sending half

* `Via`, `Transfer.Stop`: which operation of the stream reports the stop, and at which step.
* `Transfer.Severed`: once the sending half has ended, it has nothing to say to the reader.
* `Reader.Clean`: the receiving half works, and nothing has gone wrong.
* `stop_ends_sending_only`: over every run, whichever operation reports the stop.
-/

namespace Netty.H3

open List

/-! ## The report -/

inductive Via where
  | stopped | ready | start | finish
  deriving DecidableEq, Repr

/-- At its next step the task calls an operation that reports the stop. -/
inductive Tunnel.Stop (w : Tunnel) : Via → Prop
  | stopped {rounds : ℕ} : w.pump = .top (rounds + 1) → w.send.stops.head = some (.ok ()) → Stop w .stopped
  | delivered : w.pump = .finished → w.send.stops.head = some (.ok ()) → Stop w .stopped
  | ready {rounds code : ℕ} : w.pump = .top (rounds + 1) → w.finish = none → w.send.stops.head = none →
      w.send.readies.head = some (.error (.remoteTerminate code)) → Stop w .ready
  | start {rounds code : ℕ} {bytes : Bytes} : w.pump = .got rounds (.data bytes) →
      w.send.sends.head = .error (.remoteTerminate code) → Stop w .start
  | finish {rounds code ack : ℕ} : w.pump = .top (rounds + 1) → w.finish = some ack → w.send.stops.head = none →
      w.send.finishes.head = some (.error (.remoteTerminate code)) → Stop w .finish

/-- `send_data` of `src/proto/http3/transport.rs` fails only without readiness: `start_send_data` never
reports a stop. -/
def SendGuard.StartsUnstopped (g : SendGuard) : Prop := ∀ n code, g.sends.get n ≠ .error (.remoteTerminate code)

/-- The same, of the transfer. -/
inductive Transfer.Stop (t : Transfer) : Transfer.Op → Via → Prop
  | poll : t.half = .receiving → t.reader.feed = .idle → t.reader.invalid = false → t.reader.sendDone = false →
      t.writer.send.finished = true → t.writer.send.stops.head = some (.ok ()) → Stop t .poll .stopped
  | pump {via : Via} : t.half = .sending → t.writer.Stop via → Stop t .pump via

namespace Tunnel

variable {w : Tunnel} {via : Via}

theorem submit_stopped (h : w.send.stops.head = some (.ok ())) : w.submit.pump = .ended (.ok ()) := by
  simp only [submit, SendGuard.pollStopped, h]
  rfl

theorem await_stopped (rounds : ℕ) (h : w.send.stops.head = some (.ok ())) :
    (w.await rounds).pump = .ended (.ok ()) := by
  simp only [await, SendGuard.pollStopped, h]
  rfl

/-- **The task ends without an error.** -/
theorem Stop.ended (h : w.Stop via) (hsend : w.send.StartsUnstopped) : w.pumpOn.pump = .ended (.ok ()) := by
  cases h with
  | stopped hp hs =>
    rw [pumpOn, hp]
    show (if w.finish.isSome then w.submit else w.await _).pump = _
    split
    · exact submit_stopped hs
    · exact await_stopped _ hs
  | delivered hp hs =>
    rw [pumpOn, hp]
    show w.acknowledgeFinish.pump = _
    unfold acknowledgeFinish
    cases w.finish with
    | none =>
      simp only [SendGuard.pollStopped, hs]
      rfl
    | some ack =>
      simp only [SendGuard.pollStopped, acknowledge, hs]
      rfl
  | @ready rounds code hp hf hs hr =>
    rw [pumpOn, hp]
    show (if w.finish.isSome then w.submit else w.await rounds).pump = _
    rw [hf, Option.isSome_none, if_neg Bool.false_ne_true]
    simp only [await, SendGuard.pollStopped, hs, SendGuard.pollReady, hr]
    rfl
  | start _ hs => exact absurd hs (hsend 0 _)
  | @finish rounds code ack hp hf hs hr =>
    rw [pumpOn, hp]
    show (if w.finish.isSome then w.submit else w.await rounds).pump = _
    rw [hf, Option.isSome_some, if_pos rfl]
    simp only [submit, SendGuard.pollStopped, hs, SendGuard.pollFinish, hr]
    rfl

/-! ## The task does not change what its stream will answer -/

theorem submit_sends : w.submit.send.sends = w.send.sends := by
  unfold submit SendGuard.pollStopped
  rcases w.send.stops.head with _ | _ | _
  · simp only [SendGuard.pollFinish]
    rcases w.send.finishes.head with _ | _ | _ <;> rfl
  · rfl
  · rfl

theorem await_sends (rounds : ℕ) : (w.await rounds).send.sends = w.send.sends := by
  unfold await SendGuard.pollStopped
  rcases w.send.stops.head with _ | _ | _
  · simp only [SendGuard.pollReady]
    rcases w.send.readies.head with _ | _ | _ <;> rfl
  · rfl
  · rfl

theorem pumpOn_unstopped (h : w.send.StartsUnstopped) : w.pumpOn.send.StartsUnstopped := by
  unfold pumpOn
  split
  · exact h
  · exact h
  · exact h
  · exact h
  · unfold SendGuard.StartsUnstopped
    split
    · rw [submit_sends]
      exact h
    · rw [await_sends]
      exact h
  · unfold pollRecv
    repeat' split
    all_goals exact h
  · unfold handle SendGuard.start
    split
    · cases w.send.sends.head <;> exact fun n => h (n + 1)
    · exact h
    · exact h
  · unfold acknowledgeFinish
    rw [leave_send]
    split <;> exact h
  · exact h
  · unfold drain
    repeat' split
    all_goals exact h
  · split <;> exact h

theorem drop_unstopped (h : w.send.StartsUnstopped) : w.drop.send.StartsUnstopped := by
  show w.send.drop.StartsUnstopped
  unfold SendGuard.drop
  split <;> exact h

end Tunnel

/-! ## A receiving half that nothing goes wrong with -/

/-- The peer sends data, and then FIN. -/
def RecvAnswers.Plain (a : RecvAnswers) : Prop :=
  (∀ n e, a.data.get n ≠ some (.error e)) ∧ ∀ n, a.trailers.get n = ⟨some (.ok none), true⟩

namespace Reader

variable {r : Reader}

/-- **The receiving half works, and nothing has gone wrong.** -/
structure Clean (r : Reader) : Prop where
  valid : r.invalid = false
  receiver : r.chan.receiverOpen = true
  wants : r.chan.want = true
  item : ∀ e, r.chan.item ≠ some (.error e)
  pendingError : r.chan.pendingError = none
  roomy : ∀ rounds, r.feed = .roomy rounds → r.chan.item = none
  feed : working r.feed = true ∨ (r.feed = .done ∧ r.recvDone = true)
  log : ∀ e, .failed e ∉ r.log
  plain : r.recv.stream.answers.Plain
  ended : r.dataDone = true → r.recvDone = true

theorem new_clean {answers : RecvAnswers} (h : answers.Plain) : (new answers).Clean where
  valid := rfl
  receiver := rfl
  wants := rfl
  item _ h := by cases h
  pendingError := rfl
  roomy _ h := by cases h
  feed := .inl rfl
  log _ h := by cases h
  plain := h
  ended h := by cases h

section

variable (h : r.Clean)

include h

theorem Clean.goto {f : Feed} (hf : working f = true ∨ (f = .done ∧ r.recvDone = true))
    (hr : ∀ rounds, f ≠ .roomy rounds) : (r.setFeed f).Clean :=
  { h with roomy := fun rounds hx => absurd hx (hr rounds), feed := hf }

theorem Clean.rest : r.rest.Clean := by
  unfold Reader.rest
  split
  · rename_i hd
    simp only [Bool.and_eq_true] at hd
    exact h.goto (.inr ⟨rfl, hd.2⟩) nofun
  · exact h.goto (.inl rfl) nofun

theorem Clean.poll {send : Poll (Except Error Unit)} (hs : ∀ e, send ≠ .ready (.error e)) :
    (r.poll send).Clean := by
  have hdone : ∀ b, ({ r with sendDone := b } : Reader).Clean := fun b => { h with }
  have hvalid : ¬ r.invalid = true := by
    rw [h.valid]
    exact Bool.false_ne_true
  unfold Reader.poll
  rw [if_neg hvalid]
  split
  · exact absurd rfl (hs _)
  · simp only
    split
    · exact (hdone _).rest
    · exact (hdone _).goto (.inl rfl) nofun

theorem Clean.taken (c : Chan) (ho : c.receiverOpen = r.chan.receiverOpen) (hw : c.want = true)
    (hi : c.item = none ∨ c.item = r.chan.item) (he : c.pendingError = none) (data : Bytes) (closed : Bool)
    (reading : Option ℕ) :
    ({ r with chan := c, data := data, readClosed := closed, reading := reading } : Reader).Clean := by
  refine { h with receiver := ho.trans h.receiver, wants := hw, item := ?_, pendingError := he, roomy := ?_ }
  · intro e hx
    rcases hi with hi | hi
    · cases hi.symm.trans hx
    · exact h.item e (hi.symm.trans hx)
  · intro rounds hx
    exact hi.elim id fun hi => hi.trans (h.roomy rounds hx)

theorem Clean.record {ev : ReadEv} (hev : ∀ e, ev ≠ .failed e) : (r.record ev).Clean := by
  refine { h with log := fun e hm => ?_ }
  rcases mem_cons.1 hm with hm | hm
  · exact hev e hm.symm
  · exact h.log e hm

theorem Clean.readOn : r.readOn.Clean := by
  have hsame : ∀ (data : Bytes) (closed : Bool) (reading : Option ℕ),
      ({ r with data := data, readClosed := closed, reading := reading } : Reader).Clean :=
    fun data closed reading => h.taken r.chan rfl h.wants (.inr rfl) h.pendingError data closed reading
  unfold Reader.readOn
  split
  · exact h
  split
  · exact (hsame _ r.readClosed none).record nofun
  split
  · exact (hsame r.data r.readClosed none).record nofun
  -- what `poll_next` finds in the channel
  have hnext := pollNext_next r.chan
  generalize r.chan.pollNext = x at hnext ⊢
  cases hnext with
  | past _ => exact (hsame r.data true none).record nofun
  | item y hy =>
    cases y with
    | error e => exact absurd hy (h.item e)
    | ok data =>
      exact h.taken { r.chan with want := true, item := none } rfl rfl (.inl rfl) h.pendingError data r.readClosed
        r.reading
  | error e _ he => cases h.pendingError.symm.trans he
  | pending _ =>
    exact h.taken { r.chan with want := true } rfl rfl (.inr rfl) h.pendingError r.data r.readClosed none
  | closed _ _ _ =>
    have hc := h.taken { r.chan with want := true, terminated := true } rfl rfl (.inr rfl) h.pendingError
      r.data true none
    exact hc.record nofun

/-! The task. -/

theorem Clean.finish (dataDone : Bool) : ({ r with dataDone := dataDone } : Reader).finish.Clean := by
  have hdone : ({ r with
      recv := { r.recv with finished := true }
      chan := r.chan.dropSender
      dataDone := dataDone
      recvDone := true } : Reader).Clean :=
    { h with
      receiver := h.receiver
      feed := h.feed.imp_right fun hf => ⟨hf.1, rfl⟩
      ended := fun _ => rfl }
  exact hdone.rest

theorem Clean.pollTrailers (dataDone : Bool) :
    ({ r with dataDone := dataDone } : Reader).pollTrailers.Clean := by
  have hfin : r.recv.stream.answers.trailers.head = ⟨some (.ok none), true⟩ := h.plain.2 0
  unfold Reader.pollTrailers RecvStream.pollRecvTrailers
  simp only [hfin]
  have hs : (r.setStream ⟨{ r.recv.stream.answers with trailers := r.recv.stream.answers.trailers.tail },
      .trailers ⟨some (.ok none), true⟩ :: r.recv.stream.read⟩).Clean :=
    { h with plain := ⟨h.plain.1, fun n => h.plain.2 (n + 1)⟩ }
  exact hs.finish dataDone

theorem Clean.pollData (rounds : ℕ) : (r.pollData rounds).Clean := by
  have hb : ({ r with buffered := none } : Reader).Clean := { h with }
  unfold Reader.pollData
  simp only
  split
  · exact hb.pollTrailers r.dataDone
  · have hs : ∀ x, (({ r with buffered := none } : Reader).setStream
        ⟨{ r.recv.stream.answers with data := r.recv.stream.answers.data.tail }, x :: r.recv.stream.read⟩).Clean :=
      fun x => { hb with plain := ⟨fun n => h.plain.1 (n + 1), h.plain.2⟩ }
    unfold RecvStream.pollRecvData
    rcases hx : r.recv.stream.answers.data.head with _ | e | _ | bytes
    · exact (hs (.data none)).rest
    · exact absurd hx (h.plain.1 0 e)
    · exact (hs (.data (some (.ok none)))).pollTrailers true
    · have hc : ({ ({ r with buffered := none } : Reader).setStream
          ⟨{ r.recv.stream.answers with data := r.recv.stream.answers.data.tail },
            .data (some (.ok (some bytes))) :: r.recv.stream.read⟩ with buffered := some bytes } : Reader).Clean :=
        { hs _ with }
      exact hc.goto (.inl rfl) nofun

theorem Clean.sendData {rounds : ℕ} (hf : r.feed = .roomy rounds) : (r.sendData rounds).Clean := by
  have hi := h.roomy rounds hf
  have haccept : ∀ chunk, r.chan.sendData chunk = (.ok (), { r.chan with item := some (.ok chunk) }) := by
    intro chunk
    refine if_neg ?_
    rw [h.receiver, h.wants, hi, h.pendingError]
    exact Bool.false_ne_true
  unfold Reader.sendData
  simp only [haccept]
  exact { h with
    item := nofun
    roomy := nofun
    feed := .inl rfl }

theorem Clean.pumpOn : r.pumpOn.Clean := by
  unfold Reader.pumpOn
  split
  · exact h
  · exact h
  · exact h.rest
  · rw [if_neg (by rw [h.receiver]; exact Bool.false_ne_true)]
    exact h.goto (.inl rfl) nofun
  · rename_i rounds hf
    split
    · unfold Chan.pollReady
      rw [h.receiver, h.wants, h.pendingError]
      cases hi : r.chan.item with
      | none => exact { h with roomy := fun _ _ => hi, feed := .inl rfl }
      | some x => exact h.rest
    · exact h.pollData rounds
  · rename_i rounds hf
    exact h.sendData hf
  · rename_i e hf
    -- not where a clean task can be
    rcases h.feed with hx | hx
    · rw [hf] at hx
      cases hx
    · rw [hf] at hx
      cases hx.1
  · rename_i hf
    rcases h.feed with hx | hx
    · rw [hf] at hx
      cases hx
    · rw [hf] at hx
      cases hx.1

end

def Peaceful : Op → Prop
  | .read _ | .readOn | .pump => True
  | .poll send => ∀ e, send ≠ .ready (.error e)
  | .dropIo | .drop | .invalidate _ | .publish _ => False

theorem Clean.step (h : r.Clean) {op : Op} (hop : Peaceful op) : (r.step op).Clean := by
  cases op with
  | read room =>
    simp only [Reader.step, Reader.read]
    repeat' split
    · exact h
    · exact { h with }
    · exact h
  | readOn => exact h.readOn
  | poll send =>
    simp only [Reader.step]
    split
    · exact h.poll hop
    · exact h
  | pump => exact h.pumpOn
  | dropIo | drop | invalidate | publish => exact hop.elim

end Reader

/-! ## What the task does to the receiving half -/

namespace Reader

variable {r : Reader}

theorem fail_over (e : Error) : working (r.fail e).feed = false := by
  show working (if r.recvDone then .done else .failed e) = false
  split <;> rfl

theorem resume_error (hd : r.sendDone = false) (e : Error) : working (r.resume (.ready (.error e))).feed = false := by
  have hp : ({ r with invalid := false } : Reader).poll (.ready (.error e)) =
      ({ r with invalid := false } : Reader).fail e := by
    unfold poll
    rw [if_neg Bool.false_ne_true]
    simp only [hd]
  show working (({ r with invalid := false } : Reader).poll (.ready (.error e))).feed = false
  rw [hp]
  exact fail_over e

theorem resume_sendDone {send : Poll (Except Error Unit)} (hs : ∀ e, send ≠ .ready (.error e)) :
    (r.resume send).sendDone = (r.sendDone || send.isReady) := by
  show (({ r with invalid := false } : Reader).poll send).sendDone = _
  unfold poll
  rw [if_neg Bool.false_ne_true]
  split
  · exact absurd rfl (hs _)
  · simp only
    split <;> rfl

theorem poll_invalid (send : Poll (Except Error Unit)) : (r.poll send).invalid = r.invalid := by
  unfold poll
  split
  · rfl
  · split
    · rfl
    · simp only
      split <;> rfl

theorem resume_eq (h : r.invalid = false) (send : Poll (Except Error Unit)) : r.resume send = r.poll send := by
  have hr : ({ r with invalid := false } : Reader) = r := by rw [← h]
  unfold resume
  rw [hr, ← poll_invalid send]

theorem pollTrailers_sendDone : r.pollTrailers.sendDone = r.sendDone := by
  unfold pollTrailers
  split <;> rfl

theorem pumpOn_sendDone : r.pumpOn.sendDone = r.sendDone := by
  unfold pumpOn
  split
  · rfl
  · rfl
  · rfl
  · split <;> rfl
  · split
    · split <;> rfl
    · unfold pollData
      simp only
      split
      · rw [pollTrailers_sendDone]
      · split
        · rfl
        · rfl
        · rfl
        · rw [pollTrailers_sendDone]
          rfl
  · unfold sendData
    simp only
    split <;> rfl
  · rfl
  · rfl

theorem pumpOn_over (h : working r.feed = false) : working r.pumpOn.feed = false := by
  unfold pumpOn
  split
  case h_1 hf => rw [hf] at h; cases h
  case h_2 hf => rw [hf]; rfl
  case h_3 hf => rw [hf] at h; cases h
  case h_4 hf => rw [hf] at h; cases h
  case h_5 hf => rw [hf] at h; cases h
  case h_6 hf => rw [hf] at h; cases h
  case h_7 => rfl
  case h_8 => rfl

theorem readOn_feed : r.readOn.feed = r.feed ∧ r.readOn.sendDone = r.sendDone := by
  unfold readOn
  repeat' split
  all_goals exact ⟨rfl, rfl⟩

theorem read_feed (room : ℕ) : (r.step (.read room)).feed = r.feed ∧ (r.step (.read room)).sendDone = r.sendDone := by
  simp only [step, read]
  repeat' split
  all_goals exact ⟨rfl, rfl⟩

theorem dropIo_feed : (r.step .dropIo).feed = r.feed ∧ (r.step .dropIo).sendDone = r.sendDone := by
  simp only [step]
  split <;> exact ⟨rfl, rfl⟩

end Reader

/-! ## The transfer -/

namespace Transfer

variable {t : Transfer} {via : Via}

theorem Stop.ended {op : Op} (h : t.Stop op via) (hsend : t.writer.send.StartsUnstopped) :
    (t.step op).writer.pump = .ended (.ok ()) ∧
    (t.step op).half = .sending ∧ (t.step op).reader = t.reader ∧ (t.step op).answers = t.answers := by
  cases h with
  | poll hh hf hi hd hfin hs =>
    have hstep : t.step .poll = { t with writer := t.writer.poll, half := .sending } := by
      simp only [step, hh, hf, Transfer.poll, hi, hd, Bool.false_eq_true, if_false]
    rw [hstep]
    refine ⟨?_, rfl, rfl, rfl⟩
    show t.writer.poll.pump = _
    simp only [Tunnel.poll, hfin, if_true, SendGuard.pollStopped, hs]
    rfl
  | pump hh hw =>
    have hstep : t.step .pump = { t with writer := t.writer.pumpOn } := by
      show t.pumpOn = _
      unfold pumpOn
      rw [hh]
      cases hw with
      | stopped hp _ => simp only [hp]
      | delivered hp _ => simp only [hp]
      | ready hp _ _ _ => simp only [hp]
      | start hp _ => simp only [hp]
      | finish hp _ _ _ => simp only [hp]
    rw [hstep]
    exact ⟨hw.ended hsend, hh, rfl, rfl⟩

/-! ### The sending half has its say once -/

/-- While the sending half is polled, the receiving half has not started. -/
def Paused (t : Transfer) : Prop := t.half ≠ .receiving → t.reader.sendDone = false ∧ t.reader.feed = .idle

/-- An error of the sending half ends the transfer. -/
def Told (t : Transfer) : Prop :=
  (∀ e, .ready (.error e) ∉ t.answers) ∨ (t.half = .receiving ∧ Reader.working t.reader.feed = false)

/-- **The sending half has ended, and has nothing more to say.** -/
def Severed (t : Transfer) : Prop :=
  (∀ e, .ready (.error e) ∉ t.answers) ∧ ((t.half = .sending ∧ t.writer.pump = .ended (.ok ())) ∨ t.half = .dropping ∨
    (t.half = .receiving ∧ (t.reader.sendDone = true ∨ Reader.working t.reader.feed = false)))

/-- **All that a step does**, as far as the two halves see of each other. -/
inductive Moves (t : Transfer) : Transfer → Prop
  | outside {w : Tunnel} {r : Reader} : w.pump = t.writer.pump → r.feed = t.reader.feed →
      r.sendDone = t.reader.sendDone → Moves t { t with writer := w, reader := r }
  | send {w : Tunnel} : t.half = .receiving → t.reader.feed = .idle → t.reader.sendDone = false →
      Moves t { t with writer := w, half := .sending }
  | write {w : Tunnel} : t.half ≠ .receiving → (∀ r, t.half = .sending → t.writer.pump ≠ .ended r) →
      Moves t { t with writer := w }
  | ended : t.half = .sending → t.writer.pump = .ended (.ok ()) →
      Moves t { t with writer := t.writer.drop, half := .dropping }
  | answer {send : Poll (Except Error Unit)} : t.half ≠ .receiving →
      (∀ e, send = .ready (.error e) → t.half = .sending ∧ t.writer.pump = .ended (.error e)) →
      (t.half = .dropping → send = .ready (.ok ())) → (t.half = .sending → t.writer.pump ≠ .ended (.ok ())) →
      Moves t (t.answer send)
  | receive {w : Tunnel} {r : Reader} : t.half = .receiving → (t.reader.sendDone = true → r.sendDone = true) →
      (Reader.working t.reader.feed = false → Reader.working r.feed = false) →
      Moves t { t with writer := w, reader := r }

theorem pumpOn_moves (t : Transfer) : Moves t t.pumpOn := by
  unfold pumpOn
  split
  · rename_i hh
    have hne : t.half ≠ .receiving := fun h => (by rw [hh] at h; cases h)
    have hnd : ∀ {p : Prop}, t.half = .dropping → p := fun h => (by rw [hh] at h; cases h)
    split
    · rename_i hp
      exact .answer hne (nofun) (fun h => hnd h) fun _ h => (by rw [hp] at h; cases h)
    · rename_i hp
      exact .ended hh hp
    · rename_i e hp
      refine .answer hne (fun e' h => ?_) (fun h => hnd h) fun _ h => (by rw [hp] at h; cases h)
      cases h
      exact ⟨hh, hp⟩
    · rename_i h1 h2 h3
      refine .write hne fun r _ hp => ?_
      cases r with
      | ok u => exact h2 hp
      | error e => exact h3 e hp
  · rename_i hh
    have hne : t.half ≠ .receiving := fun h => (by rw [hh] at h; cases h)
    have hns : ∀ {p : Prop}, t.half = .sending → p := fun h => (by rw [hh] at h; cases h)
    split
    · exact .answer hne (nofun) (fun _ => rfl) fun h => hns h
    · exact .write hne fun r h => hns h
  · rename_i hh
    split
    · exact .receive hh id id
    · exact .receive hh (fun h => by rw [Reader.pumpOn_sendDone]; exact h) Reader.pumpOn_over

theorem poll_moves {t : Transfer} (hh : t.half = .receiving) (hf : t.reader.feed = .idle) : Moves t t.poll := by
  have hover : Reader.working t.reader.feed = false → ∀ {p : Prop}, p := fun h => (by rw [hf] at h; cases h)
  unfold poll
  split
  · rename_i hi
    refine .receive hh (fun hd => ?_) fun h => hover h
    unfold Reader.poll
    rw [if_pos hi]
    exact hd
  · split
    · rename_i hd
      refine .receive hh (fun hd => ?_) fun h => hover h
      rw [Reader.resume_sendDone fun e h => (by cases h), hd]
      rfl
    · rename_i hd
      exact .send hh hf (Bool.eq_false_iff.2 hd)

theorem step_moves (t : Transfer) (op : Op) : Moves t (t.step op) := by
  cases op with
  | call c =>
    refine .outside ?_ rfl rfl
    show (if t.writer.caller = .idle ∧ t.writer.senderGone = false then t.writer.call c else t.writer).pump = _
    split
    · exact (Tunnel.call_apart c).pump
    · rfl
  | go => exact .outside Tunnel.go_apart.pump rfl rfl
  | read room => exact .outside rfl (Reader.read_feed room).1 (Reader.read_feed room).2
  | readOn => exact .outside rfl Reader.readOn_feed.1 Reader.readOn_feed.2
  | dropIo =>
    simp only [step]
    split
    · rename_i hc
      refine .outside ?_ Reader.dropIo_feed.1 Reader.dropIo_feed.2
      show (if t.writer.caller = .idle then { t.writer with senderGone := true } else t.writer).pump = _
      split <;> rfl
    · exact .outside rfl rfl rfl
  | poll =>
    simp only [step]
    split
    · rename_i hh hf
      exact poll_moves hh hf
    · exact .outside rfl rfl rfl
  | pump => exact pumpOn_moves t
  | drop =>
    simp only [step]
    split
    · rename_i hh hf
      refine .receive hh (fun hd => ?_) fun h => (by rw [hf] at h; cases h)
      simp only [Reader.step]
      split <;> exact hd
    · exact .outside rfl rfl rfl
  | invalidate aborted => exact .outside rfl rfl rfl
  | publish e => exact .outside rfl rfl rfl

variable {t' : Transfer}

theorem Moves.paused (hm : Moves t t') (h : t.Paused) : t'.Paused := by
  cases hm with
  | outside _ hf hd =>
    intro hh
    obtain ⟨h1, h2⟩ := h hh
    exact ⟨hd.trans h1, hf.trans h2⟩
  | send _ hf hd => exact fun _ => ⟨hd, hf⟩
  | write _ _ => exact h
  | ended hh _ => exact fun _ => h fun hx => (by rw [hh] at hx; cases hx)
  | answer _ _ _ _ => exact fun hh => absurd rfl hh
  | receive hr _ _ => exact fun hh => absurd hr hh

theorem Moves.over (hm : Moves t t') (h : t.half = .receiving ∧ Reader.working t.reader.feed = false) :
    t'.half = .receiving ∧ Reader.working t'.reader.feed = false := by
  cases hm with
  | outside _ hf _ => exact ⟨h.1, by rw [← h.2]; exact congrArg Reader.working hf⟩
  | send _ hf _ =>
    rw [hf] at h
    cases h.2
  | write hh _ => exact absurd h.1 hh
  | ended hh _ =>
    rw [hh] at h
    cases h.1
  | answer hh _ _ _ => exact absurd h.1 hh
  | receive _ _ hw => exact ⟨h.1, hw h.2⟩

theorem Moves.told (hm : Moves t t') (hp : t.Paused) (h : t.Told) : t'.Told := by
  rcases h with h | h
  · cases hm with
    | @answer send hh herr _ _ =>
      by_cases he : ∃ e, send = .ready (.error e)
      · obtain ⟨e, rfl⟩ := he
        exact .inr ⟨rfl, Reader.resume_error (hp hh).1 e⟩
      · refine .inl fun e hm => ?_
        rcases mem_cons.1 hm with hm | hm
        · exact he ⟨e, hm.symm⟩
        · exact h e hm
    | _ => exact .inl h
  · exact .inr (hm.over h)

theorem Moves.severed (hm : Moves t t') (h : t.Severed) : t'.Severed := by
  obtain ⟨hno, h⟩ := h
  cases hm with
  | outside hw hf hd =>
    refine ⟨hno, h.imp (fun hx => ⟨hx.1, hw.trans hx.2⟩) (Or.imp_right fun hx => ⟨hx.1, ?_⟩)⟩
    exact hx.2.imp (fun h1 => hd.trans h1) fun h1 => (congrArg Reader.working hf).trans h1
  | send hh hf hd =>
    -- the sending half is not polled again
    rcases h with hx | hx | ⟨_, hx | hx⟩
    · rw [hh] at hx
      cases hx.1
    · rw [hh] at hx
      cases hx
    · rw [hd] at hx
      cases hx
    · rw [hf] at hx
      cases hx
  | write hh hw =>
    rcases h with hx | hx | hx
    · exact absurd hx.2 (hw _ hx.1)
    · exact ⟨hno, .inr (.inl hx)⟩
    · exact absurd hx.1 hh
  | ended _ _ => exact ⟨hno, .inr (.inl rfl)⟩
  | @answer send hh _ hok hne =>
    rcases h with hx | hx | hx
    · exact absurd hx.2 (hne hx.1)
    · have hs := hok hx
      subst hs
      refine ⟨fun e hm => ?_, .inr (.inr ⟨rfl, .inl ?_⟩)⟩
      · rcases mem_cons.1 hm with hm | hm
        · cases hm
        · exact hno e hm
      · show (t.reader.resume (.ready (.ok ()))).sendDone = true
        rw [Reader.resume_sendDone fun e h => (by cases h)]
        exact Bool.or_true _
    · exact absurd hx.1 hh
  | receive hh hd hw =>
    rcases h with hx | hx | hx
    · rw [hh] at hx
      cases hx.1
    · rw [hh] at hx
      cases hx
    · exact ⟨hno, .inr (.inr ⟨hh, hx.2.imp hd hw⟩)⟩

theorem run_ind {P : Transfer → Prop} {ops : List Op} (hstep : ∀ t, ∀ op ∈ ops, P t → P (t.step op)) (h : P t) :
    P (t.run ops) := by
  induction ops generalizing t with
  | nil => exact h
  | cons op ops ih =>
    exact ih (fun t op hop => hstep t op (mem_cons_of_mem _ hop)) (hstep t op mem_cons_self h)

theorem run_severed (h : t.Severed) (ops : List Op) : (t.run ops).Severed :=
  run_ind (P := Severed) (fun t op _ h => (step_moves t op).severed h) h

theorem run_told (h : t.Paused ∧ t.Told) (ops : List Op) : (t.run ops).Paused ∧ (t.run ops).Told :=
  run_ind (P := fun t => t.Paused ∧ t.Told)
    (fun t op _ h => ⟨(step_moves t op).paused h.1, (step_moves t op).told h.1 h.2⟩) h

/-- **What the stream will answer to `start_send_data` stays what it was.** -/
theorem step_unstopped (op : Op) (h : t.writer.send.StartsUnstopped) : (t.step op).writer.send.StartsUnstopped := by
  cases op with
  | call c =>
    show (if _ then t.writer.call c else t.writer).send.StartsUnstopped
    split
    · rw [(Tunnel.call_apart c).send]
      exact h
    · exact h
  | go =>
    show t.writer.go.send.StartsUnstopped
    rw [Tunnel.go_apart.send]
    exact h
  | dropIo =>
    simp only [step, Tunnel.step]
    repeat' split
    all_goals exact h
  | poll =>
    simp only [step, poll]
    repeat' split
    all_goals first
      | exact h
      | (unfold Tunnel.poll SendGuard.pollStopped; split <;> first | exact h | (rw [Tunnel.leave_send]; exact h))
  | pump =>
    show t.pumpOn.writer.send.StartsUnstopped
    unfold pumpOn release
    repeat' split
    all_goals first
      | exact h
      | exact Tunnel.pumpOn_unstopped h
      | exact Tunnel.drop_unstopped h
  | drop =>
    simp only [step, Tunnel.step]
    repeat' split
    all_goals first
      | exact h
      | exact Tunnel.drop_unstopped h
  | read | readOn | invalidate | publish => exact h

/-! ### Nothing else goes wrong -/

/-- The tunnel is not given up from outside. -/
def Quiet : Op → Prop
  | .dropIo | .drop | .invalidate _ | .publish _ => False
  | _ => True

/-- What a quiet step does to the reader: a step of its own, without an error if none was answered. -/
theorem step_reads (hp : t.Paused) (hv : t.reader.invalid = false) {op : Op} (hq : Quiet op) :
    (t.step op).reader = t.reader ∨ ∃ rop, (t.step op).reader = t.reader.step rop ∧ rop ≠ .drop ∧
      (Reader.Peaceful rop ∨ ∃ e, .ready (.error e) ∈ (t.step op).answers) := by
  have hpoll : ∀ send, t.reader.feed = .idle → t.reader.resume send = t.reader.step (.poll send) := by
    intro send hf
    rw [Reader.resume_eq hv]
    simp only [Reader.step, hf]
  have hanswer : ∀ send, t.half ≠ .receiving → ∃ rop, (t.answer send).reader = t.reader.step rop ∧ rop ≠ .drop ∧
      (Reader.Peaceful rop ∨ ∃ e, .ready (.error e) ∈ (t.answer send).answers) := by
    intro send hh
    refine ⟨.poll send, hpoll send (hp hh).2, fun h => (by cases h), ?_⟩
    by_cases he : ∃ e, send = .ready (.error e)
    · obtain ⟨e, rfl⟩ := he
      exact .inr ⟨e, mem_cons_self⟩
    · exact .inl fun e hx => he ⟨e, hx⟩
  cases op with
  | call c => exact .inl rfl
  | go => exact .inl rfl
  | read room => exact .inr ⟨.read room, rfl, fun h => (by cases h), .inl trivial⟩
  | readOn => exact .inr ⟨.readOn, rfl, fun h => (by cases h), .inl trivial⟩
  | poll =>
    simp only [step]
    split
    · rename_i hh hf
      unfold poll
      rw [if_neg (by rw [hv]; exact Bool.false_ne_true)]
      split
      · exact .inr ⟨.poll .pending, hpoll .pending hf, fun h => (by cases h), .inl fun e h => (by cases h)⟩
      · exact .inl rfl
    · exact .inl rfl
  | pump =>
    simp only [step]
    unfold pumpOn
    split
    · rename_i hh
      have hne : t.half ≠ .receiving := fun h => (by rw [hh] at h; cases h)
      split
      · exact .inr (hanswer _ hne)
      · exact .inl rfl
      · exact .inr (hanswer _ hne)
      · exact .inl rfl
    · rename_i hh
      have hne : t.half ≠ .receiving := fun h => (by rw [hh] at h; cases h)
      split
      · exact .inr (hanswer _ hne)
      · exact .inl rfl
    · split
      · exact .inl rfl
      · exact .inr ⟨.pump, rfl, fun h => (by cases h), .inl trivial⟩
  | dropIo | drop | invalidate | publish => exact hq.elim

def Well (t : Transfer) : Prop := t.reader.Clean ∧ t.reader.Inv

theorem Well.step (h : t.Well) (hp : t.Paused) {op : Op} (hq : Quiet op) :
    (t.step op).Well ∨ ∃ e, .ready (.error e) ∈ (t.step op).answers := by
  rcases step_reads hp h.1.valid hq with hr | ⟨rop, hr, hdrop, hpeace | herr⟩
  · refine .inl ?_
    unfold Well
    rw [hr]
    exact h
  · refine .inl ?_
    unfold Well
    rw [hr]
    exact ⟨h.1.step hpeace, h.2.step fun hx => absurd hx hdrop⟩
  · exact .inr herr

theorem run_well {ops : List Op} (hq : ∀ o ∈ ops, Quiet o) (h : t.Paused ∧ t.Told ∧ t.Well) :
    (t.run ops).Well ∨ ((t.run ops).half = .receiving ∧ Reader.working (t.run ops).reader.feed = false) := by
  have hall : (t.run ops).Paused ∧ (t.run ops).Told ∧
      ((t.run ops).Well ∨ ((t.run ops).half = .receiving ∧ Reader.working (t.run ops).reader.feed = false)) := by
    refine run_ind (P := fun t => t.Paused ∧ t.Told ∧
      (t.Well ∨ (t.half = .receiving ∧ Reader.working t.reader.feed = false))) (fun t op hop h => ?_)
      ⟨h.1, h.2.1, .inl h.2.2⟩
    have hm := step_moves t op
    have htold := hm.told h.1 h.2.1
    refine ⟨hm.paused h.1, htold, ?_⟩
    rcases h.2.2 with hw | ho
    · rcases hw.step h.1 (hq op hop) with hw' | ⟨e, he⟩
      · exact .inl hw'
      · exact .inr (htold.resolve_left fun hx => hx e he)
    · exact .inr (hm.over ho)
  exact hall.2.2

theorem run_severed_well {ops : List Op} (hq : ∀ o ∈ ops, Quiet o) (hp : t.Paused) (hs : t.Severed) (h : t.Well) :
    (t.run ops).Well := by
  have hall : (t.run ops).Paused ∧ (t.run ops).Severed ∧ (t.run ops).Well := by
    refine run_ind (P := fun t => t.Paused ∧ t.Severed ∧ t.Well) (fun t op hop h => ?_) ⟨hp, hs, h⟩
    have hm := step_moves t op
    have hsev := hm.severed h.2.1
    refine ⟨hm.paused h.1, hsev, (h.2.2.step h.1 (hq op hop)).resolve_right ?_⟩
    rintro ⟨e, he⟩
    exact hsev.1 e he
  exact hall.2.2

/-! ### The receiving half goes on -/

/-- The transfer is at rest, its sending half is done, and FIN has not come. -/
structure Resting (t : Transfer) : Prop where
  half : t.half = .receiving
  feed : t.reader.feed = .idle
  sendDone : t.reader.sendDone = true
  fin : ¬ FinRead t.reader.recv.stream.read

theorem step_pump (hh : t.half = .receiving) (r : Reader) (ho : isOver r.feed = false) :
    ({ t with reader := r } : Transfer).step .pump = { t with reader := r.pumpOn } := by
  show pumpOn _ = _
  unfold pumpOn
  simp only [hh, ho, Bool.false_and, Bool.false_eq_true, if_false]

theorem Resting.opened (hr : t.Resting) (h : t.Well) :
    t.run [.poll, .pump] = { t with reader := t.reader.setFeed (.opened 31) } := by
  have hrecv : t.reader.recvDone = false := Bool.eq_false_iff.2 fun hd => hr.fin (h.2.finished hd).1
  have hvalid : ¬ t.reader.invalid = true := Bool.eq_false_iff.1 h.1.valid
  have hpoll : t.reader.poll .pending = t.reader.setFeed (.top 32) := by
    unfold Reader.poll
    rw [if_neg hvalid]
    simp only [hr.sendDone, Bool.true_or]
    rw [if_neg (Bool.eq_false_iff.1 hrecv), ← hr.sendDone]
  have hfirst : t.step .poll = { t with reader := t.reader.setFeed (.top 32) } := by
    have hstep : t.step .poll = t.poll := by simp only [step, hr.half, hr.feed]
    rw [hstep, poll, if_neg hvalid, if_pos hr.sendDone, Reader.resume_eq h.1.valid, hpoll]
  show (t.step .poll).step .pump = _
  rw [hfirst, step_pump hr.half (t.reader.setFeed (.top 32)) rfl]
  simp only [Reader.pumpOn, Reader.setFeed, h.1.receiver, Bool.not_true, Bool.false_eq_true, if_false]

/-- **With nothing buffered, it takes what the stream has next.** -/
theorem Resting.takes (hr : t.Resting) (h : t.Well) (hb : t.reader.buffered.getD [] = []) :
    (∀ bytes, t.reader.recv.stream.answers.data.head = some (.ok (some bytes)) →
      (t.run [.poll, .pump, .pump]).reader.buffered = some bytes ∧
        Reader.received (t.run [.poll, .pump, .pump]).reader = Reader.received t.reader ++ bytes) ∧
    (t.reader.recv.stream.answers.data.head = some (.ok none) →
      FinRead (t.run [.poll, .pump, .pump]).reader.recv.stream.read) := by
  have hdata : t.reader.dataDone = false :=
    Bool.eq_false_iff.2 fun hd => hr.fin (h.2.finished (h.1.ended hd)).1
  have hread : (t.run [.poll, .pump, .pump]).reader = (t.reader.setFeed (.opened 31)).pollData 31 := by
    show ((t.run [.poll, .pump]).step .pump).reader = _
    rw [hr.opened h, step_pump hr.half (t.reader.setFeed (.opened 31)) rfl]
    simp only [Reader.pumpOn, Reader.setFeed, hb, ne_eq, not_true_eq_false, if_false]
  rw [hread]
  simp only [Reader.pollData, Reader.setFeed, hdata, Bool.false_eq_true, if_false, RecvStream.pollRecvData]
  refine ⟨fun bytes hh => ?_, fun hh => ?_⟩
  · rw [hh]
    refine ⟨rfl, ?_⟩
    show (chunksOf (_ :: t.reader.recv.stream.read)).flatten = _
    rw [chunksOf_data, flatten_append, flatten_singleton]
    rfl
  · have hfin : t.reader.recv.stream.answers.trailers.head = ⟨some (.ok none), true⟩ := h.1.plain.2 0
    rw [hh]
    simp only [Reader.pollTrailers, Reader.setStream, RecvStream.pollRecvTrailers, hfin]
    exact ⟨_, mem_cons_self⟩

/-- **With something buffered, it puts a chunk into the channel** if there is room. -/
theorem Resting.delivers (hr : t.Resting) (h : t.Well) (hb : t.reader.buffered.getD [] ≠ [])
    (hroom : t.reader.chan.item = none) : (t.run [.poll, .pump, .pump, .pump]).reader.chan.item =
      some (.ok ((t.reader.buffered.getD []).take (min (t.reader.buffered.getD []).length chunkSize))) := by
  have hroomy : (t.reader.setFeed (.opened 31)).pumpOn = t.reader.setFeed (.roomy 31) := by
    simp only [Reader.pumpOn, Reader.setFeed, ne_eq, hb, not_false_eq_true, if_true, Chan.pollReady, h.1.receiver,
      h.1.wants, hroom, h.1.pendingError, Bool.not_true, Bool.false_eq_true, if_false, Option.isNone_none,
      Bool.and_self]
  show (((t.run [.poll, .pump]).step .pump).step .pump).reader.chan.item = _
  rw [hr.opened h, step_pump hr.half (t.reader.setFeed (.opened 31)) rfl, hroomy,
    step_pump hr.half (t.reader.setFeed (.roomy 31)) rfl]
  simp only [Reader.pumpOn, Reader.setFeed, Reader.sendData, Chan.sendData, h.1.receiver, h.1.wants, hroom,
    h.1.pendingError, Bool.not_true, Option.isSome_none, Bool.or_self, Bool.false_eq_true, if_false]

end Transfer

/-- **A stop of the peer ends only the sending half**, in every state of a tunnel and at every point at which
an operation reports it: the task of the sending half ends without an error, and none reaches the reader later.
If nothing else goes wrong, the reader gets no error at all, and all data in order; the task goes on until FIN,
and the reader is told of the end only then and when it has read everything. Up to FIN, every poll takes what the
stream has next, or passes on what it has taken if there is room. -/
theorem stop_ends_sending_only (send : SendGuard) (hsend : send.StartsUnstopped) (answers : RecvAnswers)
    (ops ops' : List Transfer.Op) (op : Transfer.Op) (via : Via)
    (hstop : ((Transfer.new send answers).run ops).Stop op via) :
    let t := (Transfer.new send answers).run ops
    let t' := (t.step op).run ops'
    (t.step op).writer.pump = .ended (.ok ()) ∧ (∀ e, .ready (.error e) ∉ t'.answers) ∧
      ((∀ o ∈ ops ++ op :: ops', Transfer.Quiet o) → answers.Plain →
        (∀ e, .failed e ∉ t'.reader.log) ∧ Reader.got t'.reader.log <+: t'.reader.received ∧
        (Reader.working t'.reader.feed = true ∨ FinRead t'.reader.recv.stream.read) ∧
        (∀ pre post, t'.reader.log = post ++ .ended :: pre →
          FinRead t'.reader.recv.stream.read ∧ Reader.got pre = t'.reader.received) ∧
        (t'.half = .receiving → t'.reader.feed = .idle → ¬ FinRead t'.reader.recv.stream.read →
          (t'.reader.buffered.getD [] = [] →
            (∀ bytes, t'.reader.recv.stream.answers.data.head = some (.ok (some bytes)) →
              (t'.run [.poll, .pump, .pump]).reader.buffered = some bytes ∧
                (t'.run [.poll, .pump, .pump]).reader.received = t'.reader.received ++ bytes) ∧
            (t'.reader.recv.stream.answers.data.head = some (.ok none) →
              FinRead (t'.run [.poll, .pump, .pump]).reader.recv.stream.read)) ∧
          (t'.reader.buffered.getD [] ≠ [] → t'.reader.chan.item = none →
            (t'.run [.poll, .pump, .pump, .pump]).reader.chan.item =
              some (.ok ((t'.reader.buffered.getD []).take
                (min (t'.reader.buffered.getD []).length chunkSize)))))) := by
  intro t t'
  obtain ⟨hended, hhalf, hreader, hanswers⟩ := hstop.ended
    (Transfer.run_ind (P := fun t => t.writer.send.StartsUnstopped) (fun _ op _ => Transfer.step_unstopped op) hsend)
  have hnew : (Transfer.new send answers).Paused ∧ (Transfer.new send answers).Told :=
    ⟨fun h => absurd rfl h, .inl nofun⟩
  obtain ⟨hpaused, htold⟩ := Transfer.run_told hnew ops
  -- the task is at its sending half, so the transfer is not over
  have hnot : ¬ (t.half = .receiving ∧ Reader.working t.reader.feed = false) := by
    rintro ⟨hh, hw⟩
    cases hstop with
    | poll _ hf _ _ _ _ =>
      rw [show t.reader.feed = .idle from hf] at hw
      cases hw
    | pump hh' _ => cases hh.symm.trans hh'
  have hsevered : (t.step op).Severed := by
    refine ⟨fun e he => htold.resolve_right hnot e ?_, .inl ⟨hhalf, hended⟩⟩
    rw [← hanswers]
    exact he
  refine ⟨hended, (Transfer.run_severed hsevered ops').1, fun hquiet hplain => ?_⟩
  have hwell : t.Well := by
    have hfresh : (Transfer.new send answers).Well :=
      ⟨Reader.new_clean hplain, Reader.new_inv fun n _ _ => by rw [hplain.2 n]⟩
    exact (Transfer.run_well (fun o ho => hquiet o (mem_append_left _ ho))
      ⟨hnew.1, hnew.2, hfresh⟩).resolve_right hnot
  have hwell₁ : (t.step op).Well := by
    unfold Transfer.Well
    rw [hreader]
    exact hwell
  have hwell' : t'.Well := Transfer.run_severed_well
    (fun o ho => hquiet o (mem_append_right _ (mem_cons_of_mem _ ho)))
    ((Transfer.step_moves t op).paused hpaused) hsevered hwell₁
  obtain ⟨hclean, hinv⟩ := hwell'
  refine ⟨hclean.log, ?_, hclean.feed.imp_right fun hd => (hinv.finished hd.2).1, fun pre post hl => ?_,
    fun hh hf hfin => ?_⟩
  · obtain ⟨rest, ho, -⟩ := hinv.order
    rw [ho, append_assoc, append_assoc]
    exact prefix_append _ _
  · have hlog : Log.Ok (Reader.Justified t'.reader.recvDone t'.reader.received) (post ++ .ended :: pre) :=
      hl ▸ hinv.log
    obtain ⟨hd, hgot⟩ := (hlog.split rfl).resolve_left fun ⟨e, he⟩ =>
      hclean.log e (hl ▸ mem_append_right _ (mem_cons_of_mem _ he))
    exact ⟨(hinv.finished hd).1, hgot⟩
  · have hrest : t'.Resting := by
      refine ⟨hh, hf, ?_, hfin⟩
      rcases (Transfer.run_severed hsevered ops').2 with hx | hx | hx
      · cases hh.symm.trans hx.1
      · cases hh.symm.trans hx
      · refine hx.2.resolve_right fun hw => ?_
        rw [show ((t.step op).run ops').reader.feed = .idle from hf] at hw
        cases hw
    exact ⟨hrest.takes ⟨hclean, hinv⟩, hrest.delivers ⟨hclean, hinv⟩⟩

/-- The peer has stopped the stream before anything was sent. -/
def stoppedGuard : SendGuard :=
  .fresh (Stream'.const (some (.ok ()))) (Stream'.const none) (Stream'.const (.ok ())) (Stream'.const none) 0

/-- A stop that `poll_stopped` reports in the first round: the reader gets the byte, and the end. -/
theorem stop_ends_sending_only_first :
    let t := (Transfer.new stoppedGuard Reader.shortAnswers).run [.poll]
    let t' := (t.step .pump).run ([.pump, .pump, .pump, .pump, .pump, .pump, .pump, .pump, .pump, .pump, .pump, .pump,
      .pump, .read 8, .readOn, .readOn, .read 8, .readOn])
    t.Stop .pump .stopped ∧ t'.reader.log = [.ended, .got [97]] ∧
      (t.step .pump).writer.pump = .ended (.ok ()) := by
  intro t t'
  have hstop : t.Stop .pump .stopped := .pump rfl (.stopped rfl rfl)
  exact ⟨hstop, by decide, (stop_ends_sending_only _ (fun _ _ h => by cases h) _ _ [] _ _ hstop).1⟩

end Netty.H3
