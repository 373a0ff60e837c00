import Netty.Proof.Wire
import Netty.Spec.Dispatch

/-!
# The moves of a connection

`Conn.Move` lists all that can happen to a connection, each move with the condition
under which the dispatcher makes it. Every function of the connection is a sequence of
moves, so an invariant has to be checked on the moves only.

* `Calm`, `Move`: a move while no message begins, and any move.
* `pollReadHead_moves`, `pollReadBody_quiets`, …: the functions as moves.
* `State.tryKeepAlive_cases`, `maybeNotify_cases`: all that the end of a message can
  lead to.
* `writeHead_wrote`, `gotHead_got`: what a head does to the state.
-/

namespace Netty

open List

/-- The last piece of a body, with its end. -/
def Encoder.lastPiece {β : Type} [LawfulBuf β] (e : Encoder) (msg : β) : EncodedBuf β :=
  match e.kind with
  | .chunked _ => chunk msg (crlf ++ ascii "0" ++ crlf ++ crlf)
  | .length remaining => if remaining < Buf.remaining msg then .limited ⟨msg, remaining⟩ else .exact msg

theorem Encoder.encodeAndEnd_snd {β : Type} [LawfulBuf β] (e : Encoder) (msg : β) (w : WriteBuf (EncodedBuf β)) :
    (e.encodeAndEnd msg w).2 = w.buffer (e.lastPiece msg) := by
  unfold encodeAndEnd lastPiece
  cases e.kind with
  | chunked t => rfl
  | length n =>
    simp only
    split
    · rw [if_neg (by omega)]
    · split <;> rfl

/-- An event that the connection leaves to the dispatcher. -/
def Ev.Outside : Ev → Prop
  | .took _ | .delivered _ _ _ | .wanted _ | .woke => True
  | _ => False

/-- An event between the heads of an exchange. -/
def Ev.Inner : Ev → Prop
  | .wroteBody _ | .decoded _ _ | .unexpectedEnd | .closed | .flushed _ => True
  | _ => False

/-- Only such events were added. -/
def Adds (P : Ev → Prop) (log log' : List Ev) : Prop := ∃ l, log' = l ++ log ∧ ∀ ev ∈ l, P ev

abbrev AddsInner : List Ev → List Ev → Prop := Adds Ev.Inner

namespace Adds

variable {P Q : Ev → Prop} {log log' : List Ev}

theorem refl (log : List Ev) : Adds P log log := ⟨[], rfl, by simp⟩

theorem trans {log'' : List Ev} (h : Adds P log log') (h' : Adds P log' log'') : Adds P log log'' := by
  obtain ⟨l, rfl, hl⟩ := h
  obtain ⟨l', rfl, hl'⟩ := h'
  refine ⟨l' ++ l, (append_assoc _ _ _).symm, fun ev hev => ?_⟩
  rcases mem_append.1 hev with h | h
  · exact hl' ev h
  · exact hl ev h

theorem single (ev : Ev) (h : P ev) (log : List Ev) : Adds P log (ev :: log) :=
  ⟨[ev], rfl, fun _ he => by rw [mem_singleton.1 he]; exact h⟩

theorem mono (hPQ : ∀ ev, P ev → Q ev) (h : Adds P log log') : Adds Q log log' :=
  h.imp fun _ h => ⟨h.1, fun ev hev => hPQ ev (h.2 ev hev)⟩

end Adds

/-- The states differ in nothing that decides what is read or written next. -/
structure State.Same (s s' : State) : Prop where
  keepAlive : s'.keepAlive = s.keepAlive
  reading : s'.reading = s.reading
  writing : s'.writing = s.writing
  version : s'.version = s.version
  cachedHeaders : s'.cachedHeaders = s.cachedHeaders
  log : s'.log = s.log

namespace State

def KeepAliveOnly (s s' : State) : Prop := s' = { s with keepAlive := s'.keepAlive }

theorem KeepAliveOnly.trans {s₁ s₂ s₃ : State} (h : KeepAliveOnly s₁ s₂) (h' : KeepAliveOnly s₂ s₃) :
    KeepAliveOnly s₁ s₃ := by
  unfold KeepAliveOnly at *
  rw [h', h]

theorem disableKeepAlive_only (s : State) : KeepAliveOnly s s.disableKeepAlive := rfl

theorem busy_only (s : State) : KeepAliveOnly s s.busy := by unfold busy; split <;> rfl

/-- Where a request leaves the keep-alive status that asks for it to be the last, or not. -/
theorem busy_orDisabled_only (s : State) (last : Bool) :
    KeepAliveOnly s (if last then s.busy.disableKeepAlive else s.busy) := by
  split
  · exact s.busy_only.trans s.busy.disableKeepAlive_only
  · exact s.busy_only

theorem andKeepAlive_only (s : State) (b : Bool) : KeepAliveOnly s (s.andKeepAlive b) := by
  unfold andKeepAlive; split <;> rfl

theorem busy_disabled {s : State} (h : s.keepAlive = .disabled) : s.busy.keepAlive = .disabled := by
  unfold busy; rw [if_pos h]; exact h

/-- **The end of a message**: the connection is idle again, closed, or not at the end of both. -/
theorem tryKeepAlive_cases (s : State) :
    s.tryKeepAlive = s ∧ (s.reading = .keepAlive → s.writing ≠ .keepAlive) ∨
      s.tryKeepAlive = s.idle ∧ s.reading = .keepAlive ∧ s.writing = .keepAlive ∧ s.keepAlive = .busy ∨
      s.tryKeepAlive = s.close := by
  unfold tryKeepAlive
  split
  · split
    · exact .inr (.inl ⟨rfl, ‹_›, ‹_›, ‹_›⟩)
    · exact .inr (.inr rfl)
  · exact .inr (.inr rfl)
  · exact .inr (.inr rfl)
  · rename_i h _ _
    exact .inl ⟨rfl, h⟩

end State

/-! ## While nothing is written -/

/-- The event of a head or of a piece of a request body. -/
def Ev.Writes : Ev → Prop
  | .wroteHead _ _ _ _ | .wroteBody _ => True
  | _ => False

/-- Where writing goes while nothing is written, with these events: a body that is being
written is left only if the connection is closed. -/
def Writing.Rests (l : List Ev) : Writing → Writing → Prop
  | .body e, w => w = .body e ∨ w = .closed ∧ .closed ∈ l
  | .closed, w => w = .closed
  | _, w => ∀ e, w ≠ .body e

namespace Writing

variable {l l' : List Ev} {w w₁ w₂ : Writing}

theorem Rests.refl (w : Writing) : w.Rests l w := by
  cases w with
  | body e => exact .inl rfl
  | closed => rfl
  | init => intro e; simp
  | keepAlive => intro e; simp

theorem Rests.closed (w : Writing) (h : .closed ∈ l) : w.Rests l .closed := by
  cases w with
  | body e => exact .inr ⟨rfl, h⟩
  | closed => rfl
  | init => intro e; simp
  | keepAlive => intro e; simp

theorem Rests.trans (h : w.Rests l w₁) (h' : w₁.Rests l' w₂) : w.Rests (l' ++ l) w₂ := by
  have hrest : (∀ e, w₁ ≠ .body e) → ∀ e, w₂ ≠ .body e := by
    intro hw
    cases w₁ with
    | body e => exact absurd rfl (hw e)
    | closed => rw [show w₂ = .closed from h']; simp
    | init => exact h'
    | keepAlive => exact h'
  cases w with
  | body e =>
    rcases h with rfl | ⟨rfl, hl⟩
    · exact h'.imp_right fun h => ⟨h.1, mem_append_left _ h.2⟩
    · exact .inr ⟨h', mem_append_right _ hl⟩
  | closed => cases h; exact h'
  | init => exact hrest h
  | keepAlive => exact hrest h

end Writing

/-- Nothing of a request was written. -/
def State.Unwritten (s s' : State) : Prop :=
  ∃ l, s'.log = l ++ s.log ∧ (∀ ev ∈ l, ¬ev.Writes) ∧ s.writing.Rests l s'.writing

namespace State

variable {s s' : State}

theorem Unwritten.trans {s'' : State} (h : s.Unwritten s') (h' : s'.Unwritten s'') : s.Unwritten s'' := by
  obtain ⟨l, hl, hev, hw⟩ := h
  obtain ⟨l', hl', hev', hw'⟩ := h'
  refine ⟨l' ++ l, by rw [hl', hl, append_assoc], fun ev h => ?_, hw.trans hw'⟩
  rcases mem_append.1 h with h | h
  · exact hev' ev h
  · exact hev ev h

theorem unwritten_of_eq (hl : s'.log = s.log) (hw : s'.writing = s.writing) : s.Unwritten s' :=
  ⟨[], hl, by simp, hw ▸ .refl _⟩

theorem Same.unwritten (h : s.Same s') : s.Unwritten s' := unwritten_of_eq h.log h.writing

theorem unwritten_note (s : State) (ev : Ev) (h : ¬ev.Writes) : s.Unwritten (s.note ev) :=
  ⟨[ev], rfl, fun _ h' => by rw [mem_singleton.1 h']; exact h, .refl _⟩

theorem unwritten_closed (hl : s'.log = .closed :: s.log) (hw : s'.writing = .closed ∨ s'.writing = s.writing) :
    s.Unwritten s' := by
  refine ⟨[.closed], hl, fun _ h => by rw [mem_singleton.1 h]; exact id, ?_⟩
  rcases hw with hw | hw <;> rw [hw]
  · exact .closed _ (by simp)
  · exact .refl _

theorem unwritten_tryKeepAlive (s : State) : s.Unwritten s.tryKeepAlive := by
  rcases s.tryKeepAlive_cases with ⟨h, -⟩ | ⟨h, -, hw, -⟩ | h <;> rw [h]
  · exact unwritten_of_eq rfl rfl
  · exact ⟨[], rfl, by simp, by rw [hw]; intro e; simp [idle]⟩
  · exact unwritten_closed rfl (.inl rfl)

end State

namespace Conn

open Relation

variable {β : Type} [LawfulBuf β] {H : Httparse} {c c' : Conn β} {p : Poll (Except IoError Frame)}

/-- A call of the decoder behind which the body goes on. -/
def GoesOn (d : Decoder) (p : Poll (Except IoError Frame)) : Prop :=
  p ≠ .panicked ∧ ∀ res, p = .ready res → (afterFrame d res).1 = none

/-- One behind which it does not, and where reading goes. -/
inductive Leaves (d : Decoder) : Poll (Except IoError Frame) → Reading → Bool → Prop
  | frame {res : Except IoError Frame} {r : Reading} {out : Option (Except IoError Frame)} {unexpected : Bool} :
      afterFrame d res = (some r, out, unexpected) → Leaves d (.ready res) r unexpected
  | panic : Leaves d .panicked .closed false

/-- What can happen to a connection while no message begins. -/
inductive Calm (H : Httparse) : Conn β → Conn β → Prop
  /-- No head was found. -/
  | parse {c : Conn β} (fuel : ℕ) : c.canReadHead = true → Calm H c (c.parse H fuel).2
  /-- The interim response in front of a body that waits for it. -/
  | interim {c : Conn β} {d : Decoder} : c.state.reading = .continue_ d → c.state.writing = .init →
      Calm H c { c with io := { c.io with writeBuf := c.io.writeBuf.extendHeaders continueLine } }
  | unhold {c : Conn β} {d : Decoder} : c.state.reading = .continue_ d →
      Calm H c (c.modify ({ · with reading := .body d }))
  /-- A call of the decoder that leaves the body unfinished. -/
  | decode {c c' : Conn β} {fuel i : ℕ} {d d' : Decoder} {p : Poll (Except IoError Frame)} :
      c.state.reading = .body d ∨ c.state.reading = .continue_ d → c.decodeBody H fuel i d = (p, c', d') →
      GoesOn d' p → Calm H c c'
  /-- A call of the decoder that ends the body. -/
  | frame {c c' : Conn β} {fuel i : ℕ} {d d' : Decoder} {p : Poll (Except IoError Frame)} {r : Reading}
      {unexpected : Bool} : c.state.reading = .body d ∨ c.state.reading = .continue_ d →
      c.decodeBody H fuel i d = (p, c', d') → Leaves d' p r unexpected →
      Calm H c ((if unexpected then c'.note .unexpectedEnd else c').modify ({ · with reading := r }))
  | tryKeepAlive {c : Conn β} : Calm H c c.tryKeepAlive
  | read {c : Conn β} : Calm H c { c with io := c.io.pollReadFromIo.2 }
  | skip {c : Conn β} : c.state.reading = .closed → Calm H c c.consumeLeadingLines
  | closeRead {c : Conn β} : Calm H c c.closeRead
  | closeWrite {c : Conn β} : c.state.reading = .closed → Calm H c c.closeWrite
  | close {c : Conn β} : Calm H c (c.modify State.close)
  | writeBody {c : Conn β} {chunk : β} : c.canWriteBody = true → Buf.remaining chunk ≠ 0 → Calm H c (c.writeBody chunk)
  | writeTrailers {c : Conn β} (fields : HeaderMap) : c.canWriteBody = true → Calm H c (c.writeTrailers fields)
  | writeBodyAndEnd {c : Conn β} {chunk : β} : c.canWriteBody = true → Buf.remaining chunk ≠ 0 →
      Calm H c (c.writeBodyAndEnd chunk)
  | endBody {c : Conn β} : c.canWriteBody = true → Calm H c c.endBody.2
  | flush {c : Conn β} : Calm H c { c with io := c.io.pollFlush.2 }
  | flushed {c : Conn β} (done : Bool) : Calm H c (c.note (.flushed done))
  | shutdown {c : Conn β} : Calm H c { c with io := c.io.pollShutdown.2 }
  | quiet {c : Conn β} {s : State} : c.state.Same s → Calm H c { c with state := s }

/-- All that can happen to a connection. -/
inductive Move (H : Httparse) : Conn β → Conn β → Prop
  | calm {c c' : Conn β} : Calm H c c' → Move H c c'
  | head {c c' : Conn β} {fuel : ℕ} {msg : ParsedMessage} : c.canReadHead = true →
      c.parse H fuel = (.ready (.ok msg), c') → Move H c (c'.modify (gotHead msg))
  | writeHead {c : Conn β} (head : RequestHead) (body : Option BodyLength) : c.canWriteHead = true →
      Move H c (c.writeHead head body)
  | note {c : Conn β} {ev : Ev} : ev.Outside → Move H c (c.note ev)

abbrev Calms (H : Httparse) : Conn β → Conn β → Prop := ReflTransGen (Calm H)

abbrev Moves (H : Httparse) : Conn β → Conn β → Prop := ReflTransGen (Move H)

theorem Calms.moves (h : Calms H c c') : Moves H c c' := ReflTransGen.mono (fun _ _ => Move.calm) c c' h

theorem Moves.keeps {P : Conn β → Prop} (hmove : ∀ c c', Move H c c' → P c → P c') (h : Moves H c c') : P c → P c' := by
  intro hc
  induction h with
  | refl => exact hc
  | tail _ hs ih => exact hmove _ _ hs ih

theorem Calms.keeps {P : Conn β → Prop} (hcalm : ∀ c c', Calm H c c' → P c → P c') (h : Calms H c c') : P c → P c' := by
  intro hc
  induction h with
  | refl => exact hc
  | tail _ hs ih => exact hcalm _ _ hs ih

/-! ## The end of a message -/

theorem maybeNotify_cases (c : Conn β) :
    (∃ s, c.state.Same s ∧ c.maybeNotify = { c with state := s }) ∧
        (c.state.reading = .init → c.io.readBuf = [] → c.io.readBlocked = false → c.canWriteBody = true) ∨
      c.state.reading = .init ∧ c.io.readBuf = [] ∧ ∃ s, c.maybeNotify = ⟨c.io.pollReadFromIo.2, s⟩ ∧
        (c.state.Same s ∧ c.io.io.reads.head ≠ .ok [] ∨ c.state.close.Same s ∨
          c.state.closeRead.Same s ∧ c.state.isIdle = false) := by
  unfold maybeNotify
  split
  · rename_i hr
    exact .inl ⟨⟨c.state, ⟨rfl, rfl, rfl, rfl, rfl, rfl⟩, rfl⟩, fun h => absurd h hr⟩
  rename_i hr
  simp only [ne_eq, Decidable.not_not] at hr
  split
  · rename_i e hw
    exact .inl ⟨⟨c.state, ⟨rfl, rfl, rfl, rfl, rfl, rfl⟩, rfl⟩, fun _ _ _ => by simp [canWriteBody, hw]⟩
  rename_i hw
  split
  · rename_i hb
    exact .inl ⟨⟨c.state, ⟨rfl, rfl, rfl, rfl, rfl, rfl⟩, rfl⟩, fun _ _ h => by simp [h] at hb⟩
  split
  · rename_i hb
    exact .inl ⟨⟨{ c.state with notifyRead := true }, ⟨rfl, rfl, rfl, rfl, rfl, rfl⟩, rfl⟩, fun _ h => absurd h hb⟩
  rename_i hb
  simp only [ne_eq, Decidable.not_not] at hb
  refine .inr ⟨hr, hb, ?_⟩
  rw [Buffered.pollReadFromIo_eq]
  cases hv : c.io.io.reads.head with
  | ok bytes =>
    simp only [length_eq_zero_iff]
    split
    · split
      · exact ⟨_, rfl, .inr (.inl ⟨rfl, rfl, rfl, rfl, rfl, rfl⟩)⟩
      · rename_i hi
        exact ⟨_, rfl, .inr (.inr ⟨⟨rfl, rfl, rfl, rfl, rfl, rfl⟩, by simpa using hi⟩)⟩
    · rename_i hne
      exact ⟨_, rfl, .inl ⟨⟨rfl, rfl, rfl, rfl, rfl, rfl⟩, by simpa using hne⟩⟩
  | err e => exact ⟨_, rfl, .inr (.inl ⟨rfl, rfl, rfl, rfl, rfl, rfl⟩)⟩
  | pending => exact ⟨_, rfl, .inl ⟨⟨rfl, rfl, rfl, rfl, rfl, rfl⟩, by simp⟩⟩

theorem closed_tryKeepAlive (h : c.state.reading = .closed) : c.tryKeepAlive.state.reading = .closed := by
  have hr : c.state.tryKeepAlive.reading = .closed := by
    rcases c.state.tryKeepAlive_cases with ⟨hk, -⟩ | ⟨-, hk, -⟩ | hk
    · rw [hk]
      exact h
    · rw [h] at hk
      cases hk
    · rw [hk]
      rfl
  have hne : (c.modify State.tryKeepAlive).state.reading ≠ .init := by
    show c.state.tryKeepAlive.reading ≠ .init
    rw [hr]
    simp
  unfold tryKeepAlive maybeNotify
  rw [if_pos hne]
  exact hr

/-! ## Moves that write nothing -/

theorem decodeBody_inv {fuel i : ℕ} {d d' : Decoder} (h : c.decodeBody H fuel i d = (p, c', d')) :
    d.decode H fuel c.io = (p, d', c'.io) ∧ c'.state = { c.state with reading := .body d' }.note (.decoded i d') := by
  cases h
  exact ⟨rfl, rfl⟩

/-- What can happen while no message begins and nothing of a request is written. -/
def Quiet (H : Httparse) (c c' : Conn β) : Prop := Calm H c c' ∧ c.state.Unwritten c'.state

abbrev Quiets (H : Httparse) : Conn β → Conn β → Prop := ReflTransGen (Quiet H)

theorem Quiets.calms (h : Quiets H c c') : Calms H c c' := ReflTransGen.mono (fun _ _ => And.left) c c' h

theorem Quiets.moves (h : Quiets H c c') : Moves H c c' := h.calms.moves

theorem Quiets.unwritten (h : Quiets H c c') : c.state.Unwritten c'.state := by
  induction h with
  | refl => exact State.unwritten_of_eq rfl rfl
  | tail _ hs ih => exact ih.trans hs.2

namespace Quiet

theorem parse (fuel : ℕ) (h : c.canReadHead = true) : Quiet H c (c.parse H fuel).2 :=
  ⟨.parse fuel h, State.unwritten_of_eq rfl rfl⟩

theorem interim {d : Decoder} (hr : c.state.reading = .continue_ d) (hw : c.state.writing = .init) :
    Quiet H c { c with io := { c.io with writeBuf := c.io.writeBuf.extendHeaders continueLine } } :=
  ⟨.interim hr hw, State.unwritten_of_eq rfl rfl⟩

theorem unhold {d : Decoder} (hr : c.state.reading = .continue_ d) :
    Quiet H c (c.modify ({ · with reading := .body d })) :=
  ⟨.unhold hr, State.unwritten_of_eq rfl rfl⟩

theorem decode {fuel i : ℕ} {d d' : Decoder}
    (hr : c.state.reading = .body d ∨ c.state.reading = .continue_ d) (hd : c.decodeBody H fuel i d = (p, c', d'))
    (hp : GoesOn d' p) : Quiet H c c' :=
  ⟨.decode hr hd hp, by
    rw [(decodeBody_inv hd).2]
    exact State.unwritten_note { c.state with reading := .body d' } _ id⟩

theorem frame {fuel i : ℕ} {d d' : Decoder} {r : Reading} {unexpected : Bool}
    (hr : c.state.reading = .body d ∨ c.state.reading = .continue_ d)
    (hd : c.decodeBody H fuel i d = (p, c', d')) (ha : Leaves d' p r unexpected) :
    Quiet H c ((if unexpected then c'.note .unexpectedEnd else c').modify ({ · with reading := r })) := by
  have h₁ : c.state.Unwritten c'.state := by
    rw [(decodeBody_inv hd).2]
    exact State.unwritten_note { c.state with reading := .body d' } _ id
  refine ⟨.frame hr hd ha, h₁.trans ?_⟩
  cases unexpected with
  | false => exact State.unwritten_of_eq rfl rfl
  | true => exact State.unwritten_note c'.state .unexpectedEnd id

theorem tryKeepAlive : Quiet H c c.tryKeepAlive := by
  refine ⟨.tryKeepAlive, c.state.unwritten_tryKeepAlive.trans ?_⟩
  show (c.modify State.tryKeepAlive).state.Unwritten (c.modify State.tryKeepAlive).maybeNotify.state
  rcases (c.modify State.tryKeepAlive).maybeNotify_cases with ⟨⟨s, hs, hn⟩, -⟩ | ⟨-, -, s, hn, hs⟩ <;> rw [hn]
  · exact hs.unwritten
  · rcases hs with ⟨hs, -⟩ | hs | ⟨hs, -⟩
    · exact hs.unwritten
    · exact State.unwritten_closed hs.log (.inl hs.writing)
    · exact State.unwritten_closed hs.log (.inr hs.writing)

theorem read : Quiet H c { c with io := c.io.pollReadFromIo.2 } := ⟨.read, State.unwritten_of_eq rfl rfl⟩

theorem skip (hr : c.state.reading = .closed) : Quiet H c c.consumeLeadingLines :=
  ⟨.skip hr, State.unwritten_of_eq rfl rfl⟩

theorem closeRead : Quiet H c c.closeRead := ⟨.closeRead, State.unwritten_closed rfl (.inr rfl)⟩

theorem closeWrite (hr : c.state.reading = .closed) : Quiet H c c.closeWrite :=
  ⟨.closeWrite hr, State.unwritten_closed rfl (.inl rfl)⟩

theorem close : Quiet H c (c.modify State.close) := ⟨.close, State.unwritten_closed rfl (.inl rfl)⟩

theorem flush : Quiet H c { c with io := c.io.pollFlush.2 } := ⟨.flush, State.unwritten_of_eq rfl rfl⟩

theorem flushed (done : Bool) : Quiet H c (c.note (.flushed done)) := ⟨.flushed done, c.state.unwritten_note _ id⟩

end Quiet

/-! ## Reading -/

theorem onReadHeadError_quiets (e : Error) : Quiets H c (c.onReadHeadError e).2 := by
  have h : Quiets H c c.closeRead.consumeLeadingLines :=
    (ReflTransGen.single .closeRead).tail (.skip rfl)
  unfold onReadHeadError
  simp only
  split
  · exact h
  · exact h.tail (.closeWrite rfl)

theorem pollReadHead_quiets (fuel : ℕ) (h : c.canReadHead = true)
    (hno : ∀ x, (c.pollReadHead H fuel).1 ≠ .ready (some (.ok x))) : Quiets H c (c.pollReadHead H fuel).2 := by
  have h1 : Quiets H c (c.parse H fuel).2 := .single (.parse fuel h)
  unfold pollReadHead at hno ⊢
  rcases hx : c.parse H fuel with ⟨(e | msg) | _ | _ | _, c₁⟩ <;> rw [hx] at h1 hno
  · exact h1.trans (onReadHeadError_quiets e)
  · exact absurd rfl (hno _)
  · exact h1
  · exact h1
  · exact h1

theorem pollReadHead_ok {fuel : ℕ} {head : ResponseHead} {len : DecodedLength} {wants : Wants}
    (h : c.pollReadHead H fuel = (.ready (some (.ok (head, len, wants))), c')) :
    ∃ msg c₁, c.parse H fuel = (.ready (.ok msg), c₁) ∧ head = msg.head ∧ len = msg.decode ∧ wants = wantsOf msg ∧
      c' = c₁.acceptHead msg := by
  unfold pollReadHead at h
  rcases hx : c.parse H fuel with ⟨(e | msg) | _ | _ | _, c₁⟩ <;> rw [hx] at h
  · simp only [whenReady_ready, onReadHeadError] at h
    split at h <;> cases h
  · cases h
    exact ⟨msg, c₁, rfl, rfl, rfl, rfl, rfl⟩
  · cases h
  · cases h
  · cases h

theorem acceptHead_quiets (c : Conn β) (msg : ParsedMessage) :
    Quiets H (c.modify (gotHead msg)) (c.acceptHead msg) := by
  unfold acceptHead
  simp only
  split
  · exact .single .tryKeepAlive
  · exact .refl

theorem pollReadHead_moves (fuel : ℕ) (h : c.canReadHead = true) : Moves H c (c.pollReadHead H fuel).2 := by
  by_cases hno : ∀ x, (c.pollReadHead H fuel).1 ≠ .ready (some (.ok x))
  · exact (pollReadHead_quiets fuel h hno).moves
  · simp only [ne_eq, not_forall, Classical.not_not] at hno
    obtain ⟨⟨head, len, wants⟩, hx⟩ := hno
    rcases hc : c.pollReadHead H fuel with ⟨p, c'⟩
    rw [hc] at hx
    obtain ⟨msg, c₁, hparse, -, -, -, rfl⟩ := pollReadHead_ok (hc.trans (Prod.ext hx rfl))
    exact .head (.head h hparse) (acceptHead_quiets c₁ msg).moves

theorem pollReadBodyFrom_quiets (fuel i : ℕ) {d : Decoder}
    (h : c.state.reading = .body d ∨ c.state.reading = .continue_ d) :
    Quiets H c (c.pollReadBodyFrom H fuel i d).2 := by
  unfold pollReadBodyFrom
  rcases hd : c.decodeBody H fuel i d with ⟨p, c', d'⟩
  cases p with
  | ready res =>
    simp only
    rcases ha : afterFrame d' res with ⟨_ | r, out, unexpected⟩
    · exact .single (.decode h hd ⟨by simp, fun _ hr => by injection hr with hr; rw [← hr, ha]⟩)
    · exact (ReflTransGen.single (.frame h hd (.frame ha))).tail .tryKeepAlive
  | pending => exact .single (.decode h hd (by simp [GoesOn]))
  | busy => exact .single (.decode h hd (by simp [GoesOn]))
  | panicked => exact .single (.frame h hd .panic)

theorem pollReadBody_quiets (fuel i : ℕ) : Quiets H c (c.pollReadBody H fuel i).2 := by
  unfold pollReadBody
  split
  · exact pollReadBodyFrom_quiets fuel i (.inl ‹_›)
  · rename_i d hd
    split
    · exact .head (.interim hd ‹_›) (pollReadBodyFrom_quiets fuel i (.inr hd))
    · exact pollReadBodyFrom_quiets fuel i (.inr hd)
  · exact .refl

theorem pollDrainOrCloseRead_quiets (fuel i : ℕ) : Quiets H c (c.pollDrainOrCloseRead H fuel i).2 := by
  have h₁ : Quiets H c c.unhold := by
    unfold unhold
    split
    · exact .single (.unhold ‹_›)
    · exact .refl
  have h₂ := h₁.trans (pollReadBody_quiets fuel i)
  have h₃ : ∀ {t : Conn β}, Quiets H c t → Quiets H c t.closeReadUnlessDone := by
    intro t ht
    unfold closeReadUnlessDone
    split
    · exact ht
    · exact ht
    · exact ht.tail .closeRead
  unfold pollDrainOrCloseRead
  rcases hr : c.unhold.pollReadBody H fuel i with ⟨_ | _ | _ | _, t⟩ <;> rw [hr] at h₂
  · exact h₃ h₂
  · exact h₃ h₂
  · exact h₂
  · exact h₂

section Reaches

variable {R : Conn β → Conn β → Prop}

section

variable (hread : ∀ c, R c { c with io := c.io.pollReadFromIo.2 }) (hclose : ∀ c, R c (c.modify State.close))

include hread hclose

theorem forceIoRead_reaches : ReflTransGen R c c.forceIoRead.2 := by
  have h : ReflTransGen R c { c with io := c.io.pollReadFromIo.2 } := .single (hread c)
  unfold forceIoRead
  refine whenReady_reaches h fun res t ht => ?_
  have ht' : t = { c with io := c.io.pollReadFromIo.2 } := (congrArg Prod.snd ht).symm
  rw [ht']
  cases res with
  | ok n => exact h
  | error e => exact h.tail (hclose _)

theorem readMore_reaches {k : ℕ → Conn β → Poll (Except Error Unit) × Conn β}
    (hk : ∀ n t, ReflTransGen R c t → ReflTransGen R c (k n t).2) : ReflTransGen R c (c.readMore k).2 := by
  have h := forceIoRead_reaches (c := c) hread hclose
  unfold readMore
  refine whenReady_reaches h fun res t ht => ?_
  rw [ht] at h
  cases res with
  | ok n => exact hk n t h
  | error e => exact h

/-- **Looking for the end of the stream** is to read and to close. -/
theorem pollReadKeepAlive_reaches (hcloseRead : ∀ c, R c c.closeRead) :
    ReflTransGen R c c.pollReadKeepAlive.2 := by
  unfold pollReadKeepAlive
  split
  · exact .refl
  split
  · unfold midMessageDetectEof
    split
    · exact .refl
    refine readMore_reaches hread hclose fun n t h => ?_
    split
    · exact h.tail (hcloseRead t)
    · exact h
  · unfold requireEmptyRead
    split
    · exact .refl
    refine readMore_reaches hread hclose fun n t h => ?_
    split
    · exact h.tail (hcloseRead t)
    · exact h

end

theorem pollFlush_reaches (hflush : ∀ c, R c { c with io := c.io.pollFlush.2 })
    (hflushed : ∀ c done, R c (c.note (.flushed done))) (htry : ∀ c, R c c.tryKeepAlive) :
    ReflTransGen R c c.pollFlush.2 := by
  have h : ReflTransGen R c { c with io := c.io.pollFlush.2 } := .single (hflush c)
  unfold pollFlush within
  rcases hb : c.io.pollFlush with ⟨p, io⟩
  rw [hb] at h
  rcases p with (u | e) | _ | _ | _
  · exact h
  · exact (h.tail (hflushed _ true)).tail (htry _)
  · exact h.tail (hflushed _ false)
  · exact h
  · exact h

end Reaches

theorem pollReadKeepAlive_quiets : Quiets H c c.pollReadKeepAlive.2 :=
  pollReadKeepAlive_reaches (fun _ => .read) (fun _ => .close) fun _ => .closeRead

/-! ## Writing -/

theorem pollFlush_quiets : Quiets H c c.pollFlush.2 :=
  pollFlush_reaches (fun _ => .flush) (fun _ => .flushed) fun _ => .tryKeepAlive

theorem closeBoth_quiets : Quiets H c c.closeRead.closeWrite := (ReflTransGen.single .closeRead).tail (.closeWrite rfl)

/-! ## Events -/

theorem enforceVersion_state (s : State) (head : RequestHead) :
    (enforceVersion s head).1 = s ∨ (enforceVersion s head).1 = s.disableKeepAlive := by
  have hfix : (fixKeepAlive s head).1 = s ∨ (fixKeepAlive s head).1 = s.disableKeepAlive := by
    unfold fixKeepAlive
    split
    · exact .inl rfl
    · split
      · exact .inr rfl
      · split <;> exact .inl rfl
      · exact .inl rfl
  unfold enforceVersion
  split
  · exact hfix
  · split <;> exact .inl rfl
  · exact .inl rfl

theorem enforceVersion_only (s : State) (head : RequestHead) : s.KeepAliveOnly (enforceVersion s head).1 := by
  rcases enforceVersion_state s head with h | h <;> rw [h]
  · rfl
  · exact s.disableKeepAlive_only

/-- A request that does not keep a connection to an HTTP/1.0 server open. -/
def Transient (remote : Version) (head : RequestHead) : Prop :=
  remote = .http10 ∧ head.version = .http10 ∧ (head.headers.getAll .connection).any connectionKeepAlive = false

theorem enforceVersion_transient {s : State} {head : RequestHead} (h : Transient s.version head) :
    (enforceVersion s head).1 = s.disableKeepAlive := by
  obtain ⟨hv, hh, hk⟩ := h
  unfold enforceVersion fixKeepAlive
  simp only [hv, hh, hk, Bool.false_eq_true, if_false]

structure WroteHead (c : Conn β) (head : RequestHead) (e : Encoder) (s : State) : Prop where
  log : s.log = .wroteHead c.state.version head e c.io.readBuf :: c.state.log
  reading : s.reading = c.state.reading
  version : s.version = c.state.version
  cachedHeaders : s.cachedHeaders = some .empty
  writing : s.writing = if !e.isEof then .body e else writingDone e
  keepAlive : c.state.keepAlive = .disabled ∨ connectionAnyClose head.headers = true ∨ Transient c.state.version head →
    s.keepAlive = .disabled

/-- **What writing a head does to the state.** -/
theorem writeHead_wrote (c : Conn β) (head : RequestHead) (body : Option BodyLength) :
    WroteHead c head (c.encodeHead head body).1 (c.writeHead head body).state := by
  set s₁ := if connectionAnyClose head.headers then c.state.busy.disableKeepAlive else c.state.busy with hs₁
  have h₁ : c.state.KeepAliveOnly s₁ := c.state.busy_orDisabled_only _
  have h₂ := h₁.trans (enforceVersion_only s₁ head)
  have hv : s₁.version = c.state.version := by rw [h₁]
  refine ⟨?_, ?_, ?_, rfl, rfl, fun h => ?_⟩
  · show Ev.wroteHead c.state.version head _ c.io.readBuf :: (enforceVersion s₁ head).1.log = _
    rw [h₂]; rfl
  · show (enforceVersion s₁ head).1.reading = _
    rw [h₂]
  · show (enforceVersion s₁ head).1.version = _
    rw [h₂]
  · show (enforceVersion s₁ head).1.keepAlive = _
    have hkeep : s₁.keepAlive = .disabled → (enforceVersion s₁ head).1.keepAlive = .disabled := by
      intro hd
      rcases enforceVersion_state s₁ head with h | h <;> rw [h]
      · exact hd
      · rfl
    rcases h with h | h | h
    · refine hkeep ?_
      rw [hs₁]
      split
      · rfl
      · exact State.busy_disabled h
    · refine hkeep ?_
      rw [hs₁, if_pos h]
      rfl
    · rw [enforceVersion_transient (hv ▸ h)]
      rfl

structure GotHead (s : State) (msg : ParsedMessage) (s' : State) : Prop where
  log : s'.log = .gotHead msg :: s.log
  writing : s'.writing = s.writing
  version : s'.version = msg.head.version
  cachedHeaders : s'.cachedHeaders = s.cachedHeaders
  reading : msg.decode = .zero ∧ s'.reading = .keepAlive ∨ msg.decode ≠ .zero ∧
    ∃ d, (s'.reading = .body d ∨ s'.reading = .continue_ d) ∧
      d = Decoder.new msg.decode s.h1MaxHeaders s.h1MaxHeaderSize
  keepAlive : s.keepAlive = .disabled ∨ msg.keepAlive = false → s'.keepAlive = .disabled

/-- **What a response head does to the state.** -/
theorem gotHead_got (s : State) (msg : ParsedMessage) : GotHead s msg (gotHead msg s) := by
  set s₀ := { s with h09Responses := false, onInformational := false } with hs₀
  have h₁ : s₀.KeepAliveOnly (s₀.busy.andKeepAlive msg.keepAlive) := s₀.busy_only.trans (State.andKeepAlive_only _ _)
  refine ⟨?_, ?_, rfl, ?_, ?_, fun h => ?_⟩
  · show Ev.gotHead msg :: (s₀.busy.andKeepAlive msg.keepAlive).log = _
    rw [h₁]
  · show (s₀.busy.andKeepAlive msg.keepAlive).writing = _
    rw [h₁]
  · show (s₀.busy.andKeepAlive msg.keepAlive).cachedHeaders = _
    rw [h₁]
  · show msg.decode = .zero ∧ readingOf _ msg = .keepAlive ∨ msg.decode ≠ .zero ∧
      ∃ d, (readingOf _ msg = .body d ∨ readingOf _ msg = .continue_ d) ∧ _
    unfold readingOf
    rw [h₁]
    by_cases hz : msg.decode = .zero
    · exact .inl ⟨hz, by rw [if_pos hz]⟩
    · refine .inr ⟨hz, _, ?_, rfl⟩
      simp only [if_neg hz]
      split
      · exact .inr rfl
      · exact .inl rfl
  · show (s₀.busy.andKeepAlive msg.keepAlive).keepAlive = _
    unfold State.andKeepAlive
    rcases h with h | h
    · split
      · exact State.busy_disabled h
      · rfl
    · rw [h]
      rfl

theorem gotHead_unwritten (s : State) (msg : ParsedMessage) : s.Unwritten (gotHead msg s) := by
  have h := gotHead_got s msg
  exact ⟨[.gotHead msg], h.log, fun _ h => by rw [mem_singleton.1 h]; exact id, h.writing ▸ .refl _⟩

theorem closed_adds (log : List Ev) : Adds (· = .closed) log (.closed :: log) := ⟨[.closed], rfl, by simp⟩

theorem tryKeepAlive_events (c : Conn β) : Adds (· = .closed) c.state.log c.tryKeepAlive.state.log := by
  have h₁ : Adds (· = .closed) c.state.log c.state.tryKeepAlive.log := by
    rcases c.state.tryKeepAlive_cases with ⟨h, -⟩ | ⟨h, -⟩ | h <;> rw [h]
    · exact .refl _
    · exact .refl _
    · exact closed_adds _
  refine h₁.trans ?_
  show Adds _ (c.modify State.tryKeepAlive).state.log (c.modify State.tryKeepAlive).maybeNotify.state.log
  rcases (c.modify State.tryKeepAlive).maybeNotify_cases with ⟨⟨s, hs, hn⟩, -⟩ | ⟨-, -, s, hn, hs⟩ <;> rw [hn]
  · exact hs.log ▸ .refl _
  · rcases hs with ⟨hs, -⟩ | hs | ⟨hs, -⟩
    · exact hs.log ▸ .refl _
    · exact hs.log ▸ closed_adds _
    · exact hs.log ▸ closed_adds _

theorem canWriteBody_writing (h : c.canWriteBody = true) : ∃ e, c.state.writing = .body e := by
  unfold canWriteBody at h
  split at h
  · exact ⟨_, ‹_›⟩
  · cases h

theorem bufferBody_eq (c : Conn β) (buf : EncodedBuf β) :
    c.bufferBody buf = { c with io := c.io.buffer buf }.note (.wroteBody (LawfulBuf.content buf)) := by
  unfold bufferBody Buffered.buffer
  rw [c.io.writeBuf.gained_buffer buf]

theorem writeBodyAndEnd_eq {e : Encoder} (hw : c.state.writing = .body e) (chunk : β) :
    c.writeBodyAndEnd chunk = (c.bufferBody (e.lastPiece chunk)).setWriting
      (if (e.encodeAndEnd chunk c.io.writeBuf).1 then .keepAlive else .closed) := by
  unfold bufferBody Buffered.buffer
  rw [← e.encodeAndEnd_snd]
  simp only [writeBodyAndEnd, hw]

/-- Pieces of a request body were buffered, and nothing else has changed. -/
structure BodyWritten (c c' : Conn β) : Prop where
  io : ∃ w, c'.io = { c.io with writeBuf := w }
  state : ∃ w l, c'.state = { c.state with writing := w, log := l ++ c.state.log } ∧
    (∀ ev ∈ l, ∃ bytes, ev = .wroteBody bytes) ∧ (c.state.writing ≠ .init → w ≠ .init)

theorem BodyWritten.refl (c : Conn β) : BodyWritten c c := ⟨⟨_, rfl⟩, _, [], rfl, by simp, id⟩

theorem BodyWritten.events (h : BodyWritten c c') : Adds (∃ bytes, · = .wroteBody bytes) c.state.log c'.state.log := by
  obtain ⟨w, l, hs, hl, -⟩ := h.state
  exact ⟨l, by rw [hs], hl⟩

theorem writeBody_written (c : Conn β) (chunk : β) : BodyWritten c (c.writeBody chunk) := by
  unfold writeBody
  split
  · refine ⟨⟨_, rfl⟩, _, [.wroteBody _], rfl, by simp, fun _ => ?_⟩
    unfold writingDone
    split_ifs <;> simp
  · exact .refl c

theorem writeTrailers_written (c : Conn β) (fields : HeaderMap) : BodyWritten c (c.writeTrailers fields) := by
  unfold writeTrailers
  split
  · split
    · exact ⟨⟨_, rfl⟩, _, [.wroteBody _], rfl, by simp, fun _ => by split <;> simp⟩
    · exact .refl c
  · exact .refl c

theorem writeBodyAndEnd_written (c : Conn β) (chunk : β) : BodyWritten c (c.writeBodyAndEnd chunk) := by
  unfold writeBodyAndEnd
  split
  · rename_i e _
    refine ⟨⟨_, rfl⟩, if (e.encodeAndEnd chunk c.io.writeBuf).1 then .keepAlive else .closed, [.wroteBody _], rfl,
      by simp, fun _ => ?_⟩
    cases (e.encodeAndEnd chunk c.io.writeBuf).1 <;> simp
  · exact .refl c

theorem endBody_written (c : Conn β) : BodyWritten c c.endBody.2 := by
  unfold endBody
  split
  · split
    · exact ⟨⟨_, rfl⟩, _, [], rfl, by simp, fun _ => by split <;> simp⟩
    · exact ⟨⟨_, rfl⟩, _, [.wroteBody _], rfl, by simp, fun _ => by split <;> simp⟩
    · exact ⟨⟨_, rfl⟩, _, [], rfl, by simp, fun _ => by simp⟩
  · exact .refl c

/-- **While no message begins**, only events between heads are added. -/
theorem Calm.events (hm : Calm H c c') : AddsInner c.state.log c'.state.log := by
  have hwrote : ∀ ev : Ev, (∃ bytes, ev = .wroteBody bytes) → ev.Inner := by rintro _ ⟨bytes, rfl⟩; trivial
  cases hm with
  | parse _ _ => exact .refl _
  | interim _ _ => exact .refl _
  | unhold _ => exact .refl _
  | decode _ hd _ =>
    rw [(decodeBody_inv hd).2]
    exact .single (.decoded _ _) trivial _
  | @frame c₁ _ _ _ _ _ _ unexpected _ hd _ =>
    have h : AddsInner c.state.log c₁.state.log := by
      rw [(decodeBody_inv hd).2]
      exact .single (.decoded _ _) trivial _
    cases unexpected
    · exact h
    · exact h.trans (.single .unexpectedEnd trivial _)
  | tryKeepAlive => exact c.tryKeepAlive_events.mono (by rintro _ rfl; trivial)
  | read => exact .refl _
  | skip _ => exact .refl _
  | closeRead => exact .single .closed trivial _
  | closeWrite _ => exact .single .closed trivial _
  | close => exact .single .closed trivial _
  | writeBody _ _ => exact (c.writeBody_written _).events.mono hwrote
  | writeTrailers fields _ => exact (c.writeTrailers_written fields).events.mono hwrote
  | writeBodyAndEnd _ _ => exact (c.writeBodyAndEnd_written _).events.mono hwrote
  | endBody _ => exact c.endBody_written.events.mono hwrote
  | flush => exact .refl _
  | flushed _ => exact .single (.flushed _) trivial _
  | shutdown => exact .refl _
  | quiet hs => exact hs.log ▸ .refl _

theorem Calms.events (h : Calms H c c') : AddsInner c.state.log c'.state.log :=
  h.keeps (P := fun t => AddsInner c.state.log t.state.log) (fun _ _ hm h => h.trans hm.events) (.refl _)

theorem Move.log (hm : Move H c c') : c.state.log <:+ c'.state.log := by
  cases hm with
  | calm h => exact (h.events).imp fun _ h => h.1.symm
  | head _ hparse =>
    have h : c.state.log = _ := congrArg (fun x => x.2.state.log) hparse
    exact h ▸ (gotHead_got _ _).log ▸ suffix_cons _ _
  | writeHead head body _ => rw [(c.writeHead_wrote head body).log]; exact suffix_cons _ _
  | note _ => exact suffix_cons _ _

theorem Moves.log (h : Moves H c c') : c.state.log <:+ c'.state.log :=
  h.keeps (P := fun t => c.state.log <:+ t.state.log) (fun _ _ hm hl => hl.trans hm.log) suffix_rfl

end Conn

end Netty
