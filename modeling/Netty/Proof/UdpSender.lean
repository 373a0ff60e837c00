import Netty.Proof.Capsule
import Netty.Spec.UdpSender

/-!
# The capsule write side loses nothing and closes cleanly

* `Quiet`, `Move`: all that the operations do to a sender, one step at a time.
* `Legal`, `History`: each event of the record is right, given those before it.
* `Inv`: the record against the buffer, the flags and the stored error.
* `capsule_writes`: what holds of every sequence of operations.
* `tunnel_delivers`: the sender and the receiver at the other end.
-/

namespace Netty.UdpSender

open Capsule Relation List

/-! ## The record -/

/-- All bytes the request stream has accepted. -/
def accepted : List SenderEv → Bytes
  | [] => []
  | .wrote bytes :: before => accepted before ++ bytes
  | _ :: before => accepted before

/-- The capsules of all payloads that were appended. -/
def encoded : List SenderEv → Bytes
  | [] => []
  | .appended payload _ :: before => encoded before ++ encodeDatagram payload
  | _ :: before => encoded before

/-- The payloads that were appended. -/
def payloads : List SenderEv → List Bytes
  | [] => []
  | .appended payload _ :: before => payloads before ++ [payload]
  | _ :: before => payloads before

/-- Nothing was written since the last flush. -/
def allFlushed : List SenderEv → Bool
  | [] | .flushed :: _ => true
  | .wrote _ :: _ => false
  | _ :: before => allFlushed before

/-- The error that was not returned yet. -/
def pendingError : List SenderEv → Option IoError
  | [] | .completed _ :: _ => none
  | .failed e :: _ => some e
  | _ :: before => pendingError before

def noFailure : List SenderEv → Bool
  | [] => true
  | .failed _ :: _ => false
  | _ :: before => noFailure before

def noClosing : List SenderEv → Bool
  | [] => true
  | .closing :: _ => false
  | _ :: before => noClosing before

/-- What a completed flush or close returns. -/
def report (before : List SenderEv) : Except IoError Unit := (pendingError before).elim (.ok ()) .error

/-- All that was appended is out. -/
structure Delivered (before : List SenderEv) : Prop where
  accepted : accepted before = encoded before
  flushed : allFlushed before = true

/-- The event is right after these. -/
def Legal (before : List SenderEv) : SenderEv → Prop
  | .appended payload buffered => noClosing before = true ∧ noFailure before = true ∧
      payload.length ≤ maxUdpPayload ∧ buffered < writeLimit + (encodeDatagram payload).length
  | .failed _ => noFailure before = true
  | .shutdown => noFailure before = true ∧ Delivered before
  | .completed res => res = report before ∧ (noFailure before = true → Delivered before)
  | .wrote _ | .flushed | .closing => True

/-- Each event of the record is legal, and the bytes accepted so far are always the first
ones of the capsules. -/
def History : List SenderEv → Prop
  | [] => True
  | ev :: before => accepted (ev :: before) <+: encoded (ev :: before) ∧ Legal before ev ∧ History before

theorem History.earlier {after before : List SenderEv} (h : History (after ++ before)) : History before := by
  induction after with
  | nil => exact h
  | cons ev after ih => exact ih h.2.2

theorem History.split {log after before : List SenderEv} {ev : SenderEv} (h : History log)
    (heq : log = after ++ ev :: before) : Legal before ev := by
  subst heq
  exact h.earlier.2.1

theorem History.accepted_first {log before : List SenderEv} (h : History log) (hs : before <:+ log) :
    accepted before <+: encoded before := by
  obtain ⟨after, rfl⟩ := hs
  cases before with
  | nil => exact nil_prefix
  | cons ev before => exact h.earlier.1

theorem History.payloads {log : List SenderEv} (h : History log) :
    encoded log = (payloads log).flatMap encodeDatagram ∧ ∀ p ∈ payloads log, p.length ≤ maxUdpPayload := by
  induction log with
  | nil => exact ⟨rfl, nofun⟩
  | cons ev log ih =>
    obtain ⟨heq, hp⟩ := ih h.2.2
    cases ev with
    | appended payload =>
      refine ⟨?_, forall_mem_append.2 ⟨hp, forall_mem_singleton.2 h.2.1.2.2.1⟩⟩
      rw [encoded, heq, UdpSender.payloads, flatMap_append, flatMap_singleton]
    | wrote | flushed | closing | shutdown | failed | completed => exact ⟨heq, hp⟩

theorem pendingError_of_noFailure {log : List SenderEv} (h : noFailure log = true) : pendingError log = none := by
  induction log with
  | nil => rfl
  | cons ev log ih =>
    cases ev with
    | failed => cases h
    | completed => rfl
    | appended | wrote | flushed | closing | shutdown => exact ih h

/-! ## Steps -/

def maxCapsule : ℕ := maxUdpPayload + 6

theorem length_encodeDatagram {payload : Bytes} (h : payload.length ≤ maxUdpPayload) :
    (encodeDatagram payload).length ≤ maxCapsule := by
  have hsize : Varint.size (payload.length + 1) ≤ 4 := by
    unfold maxUdpPayload at h
    unfold Varint.size
    split
    · omega
    split
    · omega
    rw [if_pos (by omega)]
  rw [encodeDatagram, length_append, length_append, Varint.length_encode, Varint.length_encode, length_cons]
  have h0 : Varint.size datagram = 1 := rfl
  unfold maxCapsule
  omega

/-- All is written and flushed, or nothing will be any more. -/
def settled (s : UdpSender) : Prop := s.writeClosed = true ∨ (s.writeBuf = [] ∧ s.unflushed = false)

/-- What writing does, step by step. -/
inductive Quiet (s : UdpSender) : UdpSender → Prop
  | answer {io : Transport} : io.sent = s.control.sent → Quiet s { s with control := io }
  | write {io : Transport} {n : ℕ} : s.writeClosed = false → io.sent = s.control.sent ++ s.writeBuf.take n →
      Quiet s { s with
        control := io
        writeBuf := s.writeBuf.drop n
        unflushed := true
        log := .wrote (s.writeBuf.take n) :: s.log }
  | flush {io : Transport} : s.writeClosed = false → s.writeBuf = [] → io.sent = s.control.sent →
      Quiet s { s with control := io, unflushed := false, log := .flushed :: s.log }
  | fail {io : Transport} {buf : Bytes} {unflushed : Bool} {e : IoError} : s.writeClosed = false →
      io.sent = s.control.sent → buf = [] →
      Quiet s { s with
        control := io
        unflushed := unflushed
        writeError := some e
        writeClosed := true
        writeBuf := buf
        log := .failed e :: s.log }

/-- **All that the operations do.** -/
inductive Move (s : UdpSender) : UdpSender → Prop
  | quiet {s' : UdpSender} : Quiet s s' → Move s s'
  | append {payload : Bytes} : s.closing = false → s.writeClosed = false → s.writeBuf.length < writeLimit →
      payload.length ≤ maxUdpPayload →
      Move s { s with
        writeBuf := s.writeBuf ++ encodeDatagram payload
        log := .appended payload (s.writeBuf ++ encodeDatagram payload).length :: s.log }
  | close : Move s { s with closing := true, log := .closing :: s.log }
  | shutdown {io : Transport} : s.writeClosed = false → s.writeBuf = [] → s.unflushed = false →
      io.sent = s.control.sent → Move s { s with control := io, log := .shutdown :: s.log }
  | closed : s.writeClosed = false → s.writeBuf = [] → s.unflushed = false →
      Move s { s with writeClosed := true, writeError := none }
  | complete : s.settled → Move s (returned s.complete)

/-! ## The invariant -/

/-- **The record against the state.** -/
structure Inv (base : Bytes) (s : UdpSender) : Prop where
  sent : s.control.sent = base ++ accepted s.log
  buffered : noFailure s.log = true → accepted s.log ++ s.writeBuf = encoded s.log
  first : accepted s.log <+: encoded s.log
  flushed : noFailure s.log = true → s.unflushed = false → allFlushed s.log = true
  closing : s.closing = false → noClosing s.log = true
  error : s.writeError = pendingError s.log
  writable : s.writeClosed = false → noFailure s.log = true
  closed : s.writeClosed = true → s.writeBuf = [] ∧ (noFailure s.log = true → s.unflushed = false)
  room : s.writeBuf.length < writeLimit + maxCapsule
  history : History s.log

variable {s s' : UdpSender} {base : Bytes}

theorem Inv.delivered (h : Inv base s) (hs : s.settled) (hf : noFailure s.log = true) : Delivered s.log := by
  have hempty : s.writeBuf = [] ∧ s.unflushed = false := by
    rcases hs with hc | hs
    · exact ⟨(h.closed hc).1, (h.closed hc).2 hf⟩
    · exact hs
  have hb := h.buffered hf
  rw [hempty.1, append_nil] at hb
  exact ⟨hb, h.flushed hf hempty.2⟩

theorem Inv.quiet (h : Inv base s) (hm : Quiet s s') : Inv base s' := by
  cases hm with
  | answer hio =>
    exact { h with sent := hio.trans h.sent }
  | @write io n hclosed hio =>
    have hf := h.writable hclosed
    have hb := h.buffered hf
    have hfirst : accepted s.log ++ s.writeBuf.take n <+: encoded s.log := by
      rw [← hb, prefix_append_right_inj]
      exact take_prefix _ _
    refine ⟨?_, fun _ => ?_, hfirst, fun _ hu => (nomatch hu), h.closing, h.error, h.writable, fun hc => ?_, ?_, hfirst,
      trivial, h.history⟩
    · show io.sent = base ++ (accepted s.log ++ s.writeBuf.take n)
      rw [hio, h.sent, append_assoc]
    · show accepted s.log ++ s.writeBuf.take n ++ s.writeBuf.drop n = encoded s.log
      rw [append_assoc, take_append_drop, hb]
    · exact absurd (hclosed.symm.trans hc) nofun
    · exact lt_of_le_of_lt (by rw [length_drop]; omega) h.room
  | flush hclosed hbuf hio =>
    exact ⟨hio.trans h.sent, h.buffered, h.first, fun _ _ => rfl, h.closing, h.error, h.writable,
      fun hc => absurd (hclosed.symm.trans hc) nofun, h.room, h.first, trivial, h.history⟩
  | fail hclosed hio hbuf =>
    subst hbuf
    exact ⟨hio.trans h.sent, nofun, h.first, nofun, h.closing, rfl, nofun, fun _ => ⟨rfl, nofun⟩,
      lt_of_lt_of_le (Nat.succ_pos _) (Nat.le_add_right _ _), h.first, h.writable hclosed, h.history⟩

theorem Inv.move (h : Inv base s) (hm : Move s s') : Inv base s' := by
  cases hm with
  | quiet hm => exact h.quiet hm
  | @append payload hclosing hclosed hroom hp =>
    have hf := h.writable hclosed
    have hfirst : accepted s.log <+: encoded s.log ++ encodeDatagram payload := h.first.trans (prefix_append _ _)
    refine ⟨h.sent, fun _ => ?_, hfirst, h.flushed, h.closing, h.error, h.writable, fun hc => ?_, ?_, hfirst, ?_,
      h.history⟩
    · show accepted s.log ++ (s.writeBuf ++ _) = encoded s.log ++ _
      rw [← append_assoc, h.buffered hf]
    · exact absurd (hclosed.symm.trans hc) nofun
    · have := length_encodeDatagram hp
      rw [length_append]
      omega
    · refine ⟨h.closing hclosing, hf, hp, ?_⟩
      rw [length_append]
      omega
  | close =>
    exact ⟨h.sent, h.buffered, h.first, h.flushed, nofun, h.error, h.writable, h.closed, h.room, h.first, trivial,
      h.history⟩
  | shutdown hclosed hbuf hu hio =>
    have hf := h.writable hclosed
    exact ⟨hio.trans h.sent, h.buffered, h.first, h.flushed, h.closing, h.error, h.writable, h.closed, h.room, h.first,
      ⟨hf, h.delivered (.inr ⟨hbuf, hu⟩) hf⟩, h.history⟩
  | closed hclosed hbuf hu =>
    have hf := h.writable hclosed
    exact { h with
      error := (pendingError_of_noFailure hf).symm, writable := fun _ => hf, closed := fun _ => ⟨hbuf, fun _ => hu⟩ }
  | complete hs =>
    refine ⟨h.sent, h.buffered, h.first, h.flushed, h.closing, rfl, h.writable, h.closed, h.room, h.first,
      ⟨?_, h.delivered hs⟩,
      h.history⟩
    rw [report, ← h.error]
    cases s.writeError <;> rfl

/-! ## The operations are steps -/

abbrev Quiets : UdpSender → UdpSender → Prop := ReflTransGen Quiet

abbrev Moves : UdpSender → UdpSender → Prop := ReflTransGen Move

theorem Quiets.moves (h : Quiets s s') : Moves s s' := by
  induction h with
  | refl => exact .refl
  | tail _ hm ih => exact ih.tail (.quiet hm)

theorem Inv.moves (h : Inv base s) (hm : Moves s s') : Inv base s' := by
  induction hm with
  | refl => exact h
  | tail _ hm ih => exact ih.move hm

/-- What the write loop leaves behind: an error is still to be stored. -/
def Written (s : UdpSender) : Poll (Except IoError Unit) × UdpSender → Prop
  | (.ready (.error _), s') => ∃ t io unflushed, Quiets s t ∧ t.writeClosed = false ∧ io.sent = t.control.sent ∧
      s' = { t with control := io, unflushed := unflushed }
  | (.ready (.ok ()), s') => Quiets s s' ∧ s'.writeClosed = false ∧ s'.writeBuf = [] ∧ s'.unflushed = false
  | (_, s') => Quiets s s' ∧ s'.writeClosed = false

theorem writeLoop_written (hs : s.writeClosed = false) (n : ℕ) : Written s (loop writeRound n s) := by
  refine loop_inv (I := fun t => Quiets s t ∧ t.writeClosed = false) (fun t ht => ?_) (fun t ht => ht) n s ⟨.refl, hs⟩
  obtain ⟨hm, hc⟩ := ht
  unfold writeRound
  split
  · rename_i hbuf
    split
    · rename_i hu
      exact ⟨hm, hc, hbuf, by simpa using hu⟩
    · unfold Transport.pollFlush
      cases t.control.flushes.head with
      | ok => exact ⟨hm.tail (.flush hc hbuf rfl), hc, hbuf, rfl⟩
      | err e => exact ⟨t, { t.control with flushes := t.control.flushes.tail }, false, hm, hc, rfl, rfl⟩
      | pending => exact ⟨hm.tail (.answer rfl), hc⟩
  · unfold Transport.pollWrite
    cases t.control.writes.head with
    | ok k =>
      have htake : t.writeBuf.take k = t.writeBuf.take (min k t.writeBuf.length) := take_eq_take_min
      show Ctl.Sat _ _ (ite _ _ _)
      split
      · rename_i hn
        have hnone : t.control.sent ++ t.writeBuf.take k = t.control.sent := by
          rw [htake, hn, take_zero, append_nil]
        exact ⟨t, _, t.unflushed, hm, hc, hnone, rfl⟩
      · exact ⟨hm.tail (.write hc (by rw [← htake])), hc⟩
    | err e =>
      exact ⟨t, { t.control with writes := t.control.writes.tail, refused := false }, t.unflushed, hm, hc, rfl, rfl⟩
    | pending => exact ⟨hm.tail (.answer rfl), hc⟩

/-- **The loop ends**: a round for each byte, and one for the flush. -/
theorem writeLoop_answers (s : UdpSender) : (loop writeRound (s.writeBuf.length + 1) s).1 ≠ .busy := by
  refine loop_progress (I := fun m t => t.writeBuf.length = m) (Q := fun x => x.1 ≠ .busy) (fun m t hm => ?_) _ _ s rfl
    (Nat.lt_succ_self _)
  unfold writeRound
  split
  · split
    · exact nofun
    · unfold Transport.pollFlush
      cases t.control.flushes.head <;> exact nofun
  · rename_i hbuf
    unfold Transport.pollWrite
    cases t.control.writes.head with
    | ok k =>
      show Ctl.Sat _ _ (ite _ _ _)
      split
      · exact nofun
      · rename_i hn
        refine ⟨_, ?_, rfl⟩
        have := length_pos_iff.2 hbuf
        rw [← hm]
        show (t.writeBuf.drop _).length < _
        rw [length_drop]
        omega
    | err e => exact nofun
    | pending => exact nofun

theorem pollWriteBuf_answers (s : UdpSender) : s.pollWriteBuf.1 ≠ .busy := by
  unfold pollWriteBuf
  split
  · exact nofun
  · have h := writeLoop_answers s
    generalize loop writeRound (s.writeBuf.length + 1) s = r at h
    obtain ⟨p, s'⟩ := r
    rcases p with (e | a) | _ | _ | _
    · exact nofun
    · exact nofun
    · exact nofun
    · exact absurd rfl h
    · exact nofun

theorem pollWriteBuf_moves (s : UdpSender) :
    Quiets s s.pollWriteBuf.2 ∧ (s.pollWriteBuf.1 = .ready () → s.pollWriteBuf.2.settled) := by
  unfold pollWriteBuf
  cases hc : s.writeClosed with
  | true => exact ⟨.refl, fun _ => .inl hc⟩
  | false =>
    have h := writeLoop_written hc (s.writeBuf.length + 1)
    generalize loop writeRound (s.writeBuf.length + 1) s = r at h
    obtain ⟨p, s'⟩ := r
    rcases p with (e | a) | _ | _ | _
    · obtain ⟨t, io, unflushed, hm, hct, hio, rfl⟩ := h
      exact ⟨hm.tail (.fail hct hio rfl), fun _ => .inl rfl⟩
    · obtain ⟨hm, -, hbuf, hu⟩ := h
      exact ⟨hm, fun _ => .inr ⟨hbuf, hu⟩⟩
    · exact ⟨h.1, nofun⟩
    · exact ⟨h.1, nofun⟩
    · exact ⟨h.1, nofun⟩

theorem Quiets.kept (h : Quiets s s') : payloads s'.log = payloads s.log ∧ s'.closing = s.closing := by
  induction h with
  | refl => exact ⟨rfl, rfl⟩
  | tail _ hm ih => cases hm <;> exact ih

theorem sendCapsule_moves {payload : Bytes} (hclosing : s.closing = false) (hp : payload.length ≤ maxUdpPayload) :
    Moves s (s.sendCapsule payload).2 := by
  unfold sendCapsule
  split
  · exact .refl
  rename_i hclosed
  split
  · exact .refl
  rename_i hroom
  have happ := Move.append hclosing (by simpa using hclosed) (lt_of_not_ge hroom) hp
  have hm := (pollWriteBuf_moves _).1.moves.head happ
  simp only
  split <;> exact hm

theorem trySend_moves (s : UdpSender) (payload : Bytes) (input : SendInput) : Moves s (s.trySend payload input).2 := by
  unfold trySend
  split
  · exact .refl
  rename_i hc
  split
  · exact .refl
  rename_i hp
  have hclosing : s.closing = false := by
    simp only [Bool.or_eq_true, not_or, Bool.not_eq_true] at hc
    exact hc.1
  split
  · exact .refl
  · exact .refl
  · exact .refl
  · exact .refl
  · exact sendCapsule_moves hclosing (le_of_not_gt hp)
  · exact sendCapsule_moves hclosing (le_of_not_gt hp)

/-- Datagrams were not negotiated. -/
def SendInput.capsules (input : SendInput) : Bool := input.native matches none | some (.error .unavailable)

/-- **A payload that is taken was appended.** -/
theorem trySend_appends {payload : Bytes} {input : SendInput} (hc : input.capsules = true)
    (h : (s.trySend payload input).1 = .ok ()) :
    payloads (s.trySend payload input).2.log = payloads s.log ++ [payload] := by
  have hsend : (s.sendCapsule payload).1 = .ok () →
      payloads (s.sendCapsule payload).2.log = payloads s.log ++ [payload] := by
    intro h
    unfold sendCapsule at h ⊢
    split at h
    · cases h
    split at h
    · cases h
    rename_i h₁ h₂
    rw [if_neg h₁, if_neg h₂]
    simp only
    split <;> exact (pollWriteBuf_moves _).1.kept.1
  obtain ⟨reset, native⟩ := input
  unfold trySend at h ⊢
  split at h
  · cases h
  split at h
  · cases h
  rename_i h₁ h₂
  rw [if_neg h₁, if_neg h₂]
  rcases native with _ | (_ | _ | _ | _) | _
  all_goals first | exact hsend h | simp [SendInput.capsules] at hc

theorem capsuleReady_moves (s : UdpSender) : Moves s s.capsuleReady.2 := by
  have hm := (pollWriteBuf_moves s).1.moves
  unfold capsuleReady
  simp only
  split
  · exact hm
  split <;> exact hm

theorem pollSendReady_moves (s : UdpSender) (input : ReadyInput) : Moves s (s.pollSendReady input).2 := by
  unfold pollSendReady
  split
  · exact .refl
  split
  · exact capsuleReady_moves s
  · refine whenReady_reaches .refl fun res t heq => ?_
    injection heq with _ heq
    subst heq
    split
    · split <;> exact .refl
    · exact capsuleReady_moves s
    · exact .refl
    · exact .refl

theorem pollFlush_moves (s : UdpSender) : Moves s (returned s.pollFlush) := by
  obtain ⟨hm, hs⟩ := pollWriteBuf_moves s
  unfold pollFlush
  rcases hx : s.pollWriteBuf with ⟨_ | _ | _ | _, t⟩ <;> rw [hx] at hm hs
  · exact hm.moves.tail (.complete (hs rfl))
  · exact hm.moves
  · exact hm.moves
  · exact hm.moves

theorem pollClose_moves (s : UdpSender) : Moves s (returned { s with log := .closing :: s.log }.pollClose) := by
  obtain ⟨hm, hs⟩ := pollWriteBuf_moves { s with closing := true, log := .closing :: s.log }
  have hclose := hm.moves.head .close
  unfold pollClose
  simp only
  rcases hx : pollWriteBuf { s with closing := true, log := .closing :: s.log } with ⟨_ | _ | _ | _, t⟩ <;>
    rw [hx] at hclose hs
  · have hset := hs rfl
    simp only [whenReady]
    split
    · exact hclose.tail (.complete hset)
    · rename_i hc
      have hc : t.writeClosed = false := by simpa using hc
      obtain ⟨hbuf, hu⟩ : t.writeBuf = [] ∧ t.unflushed = false :=
        hset.resolve_left fun h => absurd (hc.symm.trans h) nofun
      have hshut : Moves s { t with control := t.control.pollShutdown.2, log := .shutdown :: t.log } :=
        hclose.tail (.shutdown hc hbuf hu rfl)
      rcases t.control.pollShutdown.1 with (e | _) | _ | _ | _
      · exact (hshut.tail (.quiet (.fail hc rfl hbuf))).tail (.complete (.inl rfl))
      · exact (hshut.tail (.closed hc hbuf hu)).tail (.complete (.inl rfl))
      · exact hshut
      · exact hshut
      · exact hshut
  · exact hclose
  · exact hclose
  · exact hclose

theorem step_moves (s : UdpSender) (op : SenderOp) : Moves s (s.step op) := by
  cases op with
  | trySend payload input => exact trySend_moves s payload input
  | pollSendReady input => exact pollSendReady_moves s input
  | pollFlush => exact pollFlush_moves s
  | pollClose => exact pollClose_moves s
  | pollWriteBuf => exact (pollWriteBuf_moves s).1.moves

theorem run_moves (s : UdpSender) (ops : List SenderOp) : Moves s (s.run ops) := by
  induction ops generalizing s with
  | nil => exact .refl
  | cons op ops ih => exact (step_moves s op).trans (ih (s.step op))

theorem new_inv (control : Transport) : Inv control.sent (new control) :=
  ⟨(append_nil _).symm, fun _ => rfl, nil_prefix, fun _ _ => rfl, fun _ => rfl, rfl, fun _ => rfl, nofun,
    lt_of_lt_of_le (Nat.succ_pos _) (Nat.le_add_right _ _), trivial⟩

/-- **The capsule write side is lossless and closes cleanly.** For any sequence of
operations and any answers of the request stream: a payload that `try_send` takes is
appended; the bytes the stream has accepted are at all times the first ones of the capsules
appended so far; a flush or close that returns without a write error before it has delivered
them all; the shutdown is called only then; nothing is appended after the first close or
after an error; there is one error at most, the next flush or close that completes returns
it, and none after; the buffer is never longer than its limit and one capsule; and the write
loop always ends. -/
theorem capsule_writes (control : Transport) (ops : List SenderOp) :
    let s := (new control).run ops
    (∀ payload input, SendInput.capsules input = true → (s.trySend payload input).1 = .ok () →
      payloads (s.step (.trySend payload input)).log = payloads s.log ++ [payload]) ∧
      encoded s.log = (payloads s.log).flatMap encodeDatagram ∧
      s.control.sent = control.sent ++ accepted s.log ∧
      (∀ before, before <:+ s.log → accepted before <+: encoded before) ∧
      (∀ after res before, s.log = after ++ .completed res :: before →
        res = report before ∧ (noFailure before = true → Delivered before)) ∧
      (∀ after before, s.log = after ++ .shutdown :: before → noFailure before = true ∧ Delivered before) ∧
      (∀ after payload buffered before, s.log = after ++ .appended payload buffered :: before →
        noClosing before = true ∧ noFailure before = true ∧
          buffered < writeLimit + (encodeDatagram payload).length) ∧
      (∀ after e before, s.log = after ++ .failed e :: before → noFailure before = true) ∧
      s.writeBuf.length < writeLimit + maxCapsule ∧ s.pollWriteBuf.1 ≠ .busy := by
  intro s
  have h : Inv control.sent s := (new_inv control).moves (run_moves (new control) ops)
  refine ⟨fun _ _ => trySend_appends, h.history.payloads.1, h.sent, fun before hs => h.history.accepted_first hs,
    fun after res before heq => h.history.split heq,
    fun after before heq => h.history.split heq, fun after payload buffered before heq => ?_,
    fun after e before heq => h.history.split heq, h.room, pollWriteBuf_answers s⟩
  obtain ⟨h1, h2, -, h3⟩ := h.history.split heq
  exact ⟨h1, h2, h3⟩

/-! ## Both ends -/

theorem payloads_later {before : List SenderEv} (after : List SenderEv) :
    payloads before <+: payloads (after ++ before) := by
  induction after with
  | nil => exact prefix_rfl
  | cons ev after ih =>
    cases ev with
    | appended payload => exact ih.trans (prefix_append _ _)
    | wrote | flushed | closing | shutdown | failed | completed => exact ih

/-- **What the receiver makes of a first part of the capsules**: the first payloads, and at
least those whose capsules it has got. -/
theorem feed_payloads (ps : List Bytes) {qs : List Bytes} (hp : ∀ p ∈ ps ++ qs, p.length ≤ maxUdpPayload)
    {pieces : List Bytes} (h : pieces.flatten <+: (ps ++ qs).flatMap encodeDatagram) :
    ∃ r, Receiver.new.feedAll pieces = some r ∧ r.failed = false ∧ r.payloads <+: ps ++ qs ∧
      (ps.flatMap encodeDatagram <+: pieces.flatten → ps <+: r.payloads) := by
  obtain ⟨hps, hqs⟩ := forall_mem_append.1 hp
  obtain ⟨cs, hw, hpay, hov⟩ := exists_ofPayloads hps
  obtain ⟨cs', hw', hpay', hov'⟩ := exists_ofPayloads hqs
  rw [flatMap_append, ← hw, ← hw', ← wire_append] at h
  obtain ⟨r, hr, ho⟩ := feedAll_new h
  cases ho with
  | refused done c rest hcs _ ho =>
    have hc : c ∈ cs ++ cs' := by simp [hcs]
    rw [(mem_append.1 hc).elim (hov c) (hov' c)] at ho
    cases ho
  | waiting done rest seen hcs _ hfed _ hs hpays hf =>
    refine ⟨r, hr, hf, ?_, fun hall => ?_⟩
    · rw [hpays, ← hpay, ← hpay', ← filterMap_append, hcs, filterMap_append]
      exact prefix_append _ _
    · rw [hpays, ← hpay]
      rcases append_eq_append_iff.1 hcs with ⟨x, rfl, -⟩ | ⟨x, rfl, rfl⟩
      · rw [filterMap_append]
        exact prefix_append _ _
      · cases x with
        | nil => simp
        | cons c x =>
          -- that capsule was complete
          have hlt := (hs c (x ++ cs') rfl).1
          rw [← hw, hfed, wire_append, prefix_append_right_inj, wire_cons] at hall
          have hle := hall.length_le
          rw [length_append] at hle
          omega

/-- **The tunnel delivers.** Whatever the sender was asked, and however a part of what it has
written is cut, the receiver takes the first payloads that were appended, in order; those
that `try_send` has taken are among them. Once a flush or a close has returned, without a
failure, and all has arrived, it has taken them all. -/
theorem tunnel_delivers (control : Transport) (ops : List SenderOp) :
    let s := (new control).run ops
    (∀ payload input, SendInput.capsules input = true → (s.trySend payload input).1 = .ok () →
      payloads (s.step (.trySend payload input)).log = payloads s.log ++ [payload]) ∧
    ∃ sent, s.control.sent = control.sent ++ sent ∧ ∀ pieces, pieces.flatten <+: sent →
      ∃ r, Receiver.new.feedAll pieces = some r ∧ r.failed = false ∧ r.payloads <+: payloads s.log ∧
        ∀ after before res, s.log = after ++ .completed res :: before → noFailure before = true →
          accepted before <+: pieces.flatten → payloads before <+: r.payloads := by
  intro s
  have h : Inv control.sent s := (new_inv control).moves (run_moves (new control) ops)
  refine ⟨fun _ _ => trySend_appends, accepted s.log, h.sent, fun pieces hpieces => ?_⟩
  obtain ⟨heq, hp⟩ := h.history.payloads
  have hfirst := heq ▸ hpieces.trans h.first
  obtain ⟨r, hr, hf, hpay, -⟩ := feed_payloads [] hp hfirst
  refine ⟨r, hr, hf, hpay, fun after before res hl hno harrived => ?_⟩
  obtain ⟨later, hlater⟩ : payloads (.completed res :: before) <+: payloads s.log := hl ▸ payloads_later after
  rw [← hlater] at hp hfirst
  obtain ⟨r', hr', -, -, hall⟩ := feed_payloads _ hp hfirst
  obtain rfl : r = r' := Option.some.inj (hr.symm.trans hr')
  have hbefore : History (.completed res :: before) := (hl ▸ h.history : History (after ++ _)).earlier
  have hsent : (payloads before).flatMap encodeDatagram = accepted before :=
    hbefore.2.2.payloads.1.symm.trans (hbefore.2.1.2 hno).accepted.symm
  exact hall (show (payloads before).flatMap encodeDatagram <+: _ from hsent ▸ harrived)

end Netty.UdpSender
