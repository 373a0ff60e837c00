import Netty.Proof.Chan
import Netty.Proof.Received
import Netty.Proof.Serial

/-!
# A response body does not end too early

The sender of a body is dropped in many places, most of them without a word to the receiver. In each of them the
decoder has reached the end of the body, or an error was sent before, or nobody is there to be misled. So the channel
needs only one rule: a dropped sender has left one of the three.

* `Chan.Sound`: the rule, and what the receiver sees because of it.
* `Conn.BodyCall`: what a call of `poll_read_body` comes to.
* `Dispatcher.Faithful`: what holds while the task runs.
* `never_truncated`: **every run.**
-/

namespace Netty

open List Option

/-- The decoder has reached the end of this body. -/
def EofOf (log : List Ev) (i : ℕ) : Prop := ∃ d, .decoded i d ∈ log ∧ d.isEof = true

theorem EofOf.mono {log log' : List Ev} {i : ℕ} (h : EofOf log i) (hs : log <:+ log') : EofOf log' i :=
  h.imp fun _ h => ⟨hs.subset h.1, h.2⟩

/-! ## The channel -/

namespace Chan

variable {c : Chan} {eof : Prop}

def Erred (c : Chan) : Prop :=
  (∃ e, c.item = some (.error e)) ∨ c.pendingError ≠ none ∨ ∃ e, .error e ∈ c.seen

/-- Nobody takes the end of the channel for the end of the body. -/
def Warned (c : Chan) : Prop := c.receiverOpen = false ∨ c.Erred

/-- **The end of the channel is the end of the body, or there is an error before it.** -/
structure Sound (eof : Prop) (c : Chan) : Prop where
  dropped : c.senderOpen = false → eof ∨ c.Warned
  terminated : c.terminated = true → eof ∨ ∃ e, .error e ∈ c.seen
  clean : ∀ l₁ l₂, c.seen = l₁ ++ .ended :: l₂ → eof ∨ ∃ e, .error e ∈ l₂

theorem Sound.mono {eof' : Prop} (h : Sound eof c) (he : eof → eof') : Sound eof' c where
  dropped := fun hd => (h.dropped hd).imp_left he
  terminated := fun ht => (h.terminated ht).imp_left he
  clean := fun l₁ l₂ hs => (h.clean l₁ l₂ hs).imp_left he

theorem new_sound (len : DecodedLength) (wanter : Bool) : Sound eof (Chan.new len wanter) where
  dropped := nofun
  terminated := nofun
  clean := fun l₁ l₂ h => absurd h (by simp [Chan.new])

theorem Sound.cons {x : BodyItem} (h : Sound eof c) (hx : x = .ended → eof ∨ ∃ e, .error e ∈ c.seen) :
    ∀ l₁ l₂, x :: c.seen = l₁ ++ .ended :: l₂ → eof ∨ ∃ e, .error e ∈ l₂ := by
  intro l₁ l₂ hs
  rcases cons_eq_append_iff.1 hs with ⟨-, hl⟩ | ⟨l, -, hl⟩
  · injection hl with hl hl'
    rw [hl']
    exact hx hl.symm
  · exact h.clean l l₂ hl

theorem Erred.poll (h : c.Erred) : c.poll.Erred := by
  cases hr : c.receiverOpen with
  | false => rw [poll_closed hr]; exact h
  | true =>
    rcases poll_cases hr with ⟨-, hc⟩ | ⟨-, ⟨b, hi, hc⟩ | ⟨e, hi, hc⟩ | ⟨e, hi, hp, hc⟩ | ⟨hi, hp, -, hc⟩ |
      ⟨hi, hp, -, hc⟩⟩ <;> rw [hc]
    · exact h.imp_right (.imp_right (.imp fun _ => mem_cons_of_mem _))
    · refine .inr (h.resolve_left ?_ |>.imp_right (.imp fun _ => mem_cons_of_mem _))
      rw [hi]
      rintro ⟨e, he⟩
      cases he
    · exact .inr (.inr ⟨e, mem_cons_self⟩)
    · exact .inr (.inr ⟨e, mem_cons_self⟩)
    · exact h
    · exact h.imp_right (.imp_right (.imp fun _ => mem_cons_of_mem _))

theorem poll_ends (c : Chan) : c.poll.receiverOpen = c.receiverOpen ∧ c.poll.senderOpen = c.senderOpen := by
  cases hr : c.receiverOpen with
  | false => rw [poll_closed hr]; exact ⟨hr, rfl⟩
  | true =>
    rcases poll_cases hr with ⟨-, hc⟩ | ⟨-, ⟨b, hi, hc⟩ | ⟨e, hi, hc⟩ | ⟨e, hi, hp, hc⟩ | ⟨hi, hp, -, hc⟩ |
      ⟨hi, hp, -, hc⟩⟩ <;> rw [hc] <;> exact ⟨hr, rfl⟩

theorem Warned.poll (h : c.Warned) : c.poll.Warned := h.imp (c.poll_ends.1.trans ·) Erred.poll

theorem Sound.ending (h : Sound eof c) (hr : c.receiverOpen = true) (hs : c.senderOpen = false) (hi : c.item = none)
    (hp : c.pendingError = none) : eof ∨ ∃ e, .error e ∈ c.seen := by
  rcases h.dropped hs with he | hc | ⟨e, he⟩ | he | he
  · exact .inl he
  · rw [hr] at hc; cases hc
  · rw [hi] at he; cases he
  · exact absurd hp he
  · exact .inr he

theorem Sound.poll (h : Sound eof c) : Sound eof c.poll := by
  cases hr : c.receiverOpen with
  | false => rw [poll_closed hr]; exact h
  | true =>
    have hd : c.poll.senderOpen = false → eof ∨ c.poll.Warned := by
      rw [c.poll_ends.2]
      exact fun hs => (h.dropped hs).imp_right Warned.poll
    have hmem : ∀ {x : BodyItem}, (eof ∨ ∃ e, .error e ∈ c.seen) → eof ∨ ∃ e, .error e ∈ x :: c.seen :=
      fun he => he.imp_right (.imp fun _ => mem_cons_of_mem _)
    rcases poll_cases hr with ⟨ht, hc⟩ | ⟨ht, ⟨b, -, hc⟩ | ⟨e, -, hc⟩ | ⟨e, -, -, hc⟩ | ⟨-, -, -, hc⟩ |
      ⟨hi, hp, hs, hc⟩⟩ <;> rw [hc] at hd ⊢
    · exact ⟨hd, fun _ => hmem (h.terminated ht), h.cons fun _ => h.terminated ht⟩
    · exact ⟨hd, fun ht' => hmem (h.terminated ht'), h.cons nofun⟩
    · exact ⟨hd, fun ht' => hmem (h.terminated ht'), h.cons nofun⟩
    · exact ⟨hd, fun ht' => hmem (h.terminated ht'), h.cons nofun⟩
    · exact ⟨hd, h.terminated, h.clean⟩
    · have he := h.ending hr hs hi hp
      exact ⟨hd, fun _ => hmem he, h.cons fun _ => he⟩

theorem Sound.dropReceiver (h : Sound eof c) : Sound eof c.dropReceiver where
  dropped := fun _ => .inr (.inl rfl)
  terminated := h.terminated
  clean := h.clean

theorem Sound.dropSender (h : Sound eof c) (hw : eof ∨ c.Warned) : Sound eof c.dropSender where
  dropped := fun _ => hw
  terminated := h.terminated
  clean := h.clean

theorem sendError_warned (c : Chan) (e : Error) : (c.sendError e).Warned := by
  cases hr : c.receiverOpen with
  | false =>
    refine .inl ?_
    unfold sendError
    rw [hr]
    exact hr
  | true =>
    rcases sendError_cases c e hr with ⟨-, hc⟩ | ⟨-, -, hc⟩ | ⟨-, hp, hc⟩ <;> rw [hc]
    · exact .inr (.inl ⟨e, rfl⟩)
    · exact .inr (.inr (.inl (some_ne_none e)))
    · exact .inr (.inr (.inl hp))

theorem Sound.sendError (h : Sound eof c) (e : Error) : Sound eof (c.sendError e) := by
  have hd : (c.sendError e).senderOpen = false → eof ∨ (c.sendError e).Warned := fun _ => .inr (c.sendError_warned e)
  cases hr : c.receiverOpen with
  | false =>
    have hc : c.sendError e = c := by unfold Chan.sendError; rw [hr]; rfl
    rw [hc]
    exact h
  | true =>
    rcases sendError_cases c e hr with ⟨-, hc⟩ | ⟨-, -, hc⟩ | ⟨-, -, hc⟩ <;> rw [hc] at hd ⊢
    · exact ⟨hd, h.terminated, h.clean⟩
    · exact ⟨hd, h.terminated, h.clean⟩
    · exact h

theorem Sound.sendData (h : Sound eof c) (chunk : Bytes) : Sound eof (c.sendData chunk).2 := by
  rcases sendData_cases c chunk with hc | ⟨hi, -, hr, hc⟩ <;> rw [hc]
  · exact h
  · refine ⟨fun hs => (h.dropped hs).imp_right fun hw => .inr (.inr ?_), h.terminated, h.clean⟩
    rcases hw with hw | ⟨e, he⟩ | hw
    · rw [hr] at hw; cases hw
    · rw [hi] at he; cases he
    · exact hw

theorem Sound.sendTrailers (h : Sound eof c) (fields : HeaderMap) : Sound eof (c.sendTrailers fields).2 := by
  rcases sendTrailers_cases c fields with hc | hc | hc <;> rw [hc] <;> exact ⟨h.dropped, h.terminated, h.clean⟩

def Armed (c : Chan) : Prop :=
  c.receiverOpen = false ∨ c.want = true ∧ c.item = none ∧ c.pendingError = none

theorem armed_of_pollReady (h : c.pollReady = .ready (.ok ())) : c.Armed := by
  unfold pollReady at h
  split at h
  · cases h
  · split at h
    · rename_i hw
      simp only [Bool.and_eq_true, isNone_iff_eq_none] at hw
      exact .inr ⟨hw.1.1, hw.1.2, hw.2⟩
    · cases h

theorem closed_of_pollReady {e : Error} (h : c.pollReady = .ready (.error e)) : c.receiverOpen = false := by
  unfold pollReady at h
  split at h
  · rename_i hr
    simpa using hr
  · split at h <;> cases h

theorem Armed.poll (h : c.Armed) : c.poll.Armed := by
  cases hr : c.receiverOpen with
  | false => rw [poll_closed hr]; exact h
  | true =>
    have ha := h.resolve_left (by rw [hr]; decide)
    rcases poll_cases hr with ⟨-, hc⟩ | ⟨-, ⟨b, hi, -⟩ | ⟨e, hi, -⟩ | ⟨e, -, hp, -⟩ | ⟨hi, hp, -, hc⟩ |
      ⟨hi, hp, -, hc⟩⟩
    · rw [hc]; exact .inr ha
    · rw [ha.2.1] at hi; cases hi
    · rw [ha.2.1] at hi; cases hi
    · rw [ha.2.2] at hp; cases hp
    · rw [hc]; exact .inr ⟨rfl, hi, hp⟩
    · rw [hc]; exact .inr ⟨rfl, hi, hp⟩

/-- A chunk that was asked for is refused only by a receiver that is gone. -/
theorem Armed.refused {chunk b : Bytes} (h : c.Armed) (hs : (c.sendData chunk).1 = .error b) :
    (c.sendData chunk).2.Warned := by
  have hr : c.receiverOpen = false := by
    rcases h with hr | ⟨hw, hi, hp⟩
    · exact hr
    · unfold Chan.sendData at hs
      split at hs
      · rename_i hc
        simpa [hw, hi, hp] using hc
      · cases hs
  rcases sendData_cases c chunk with hc | ⟨-, -, -, hc⟩ <;> rw [hc]
  · exact .inl hr
  · exact .inl hr

end Chan

/-! ## Reading a body -/

namespace Conn

variable {β : Type} [LawfulBuf β] {H : Httparse} {c c' : Conn β} {i : ℕ} {p : Poll (Except IoError Frame)}

def BodyCall (i : ℕ) (c : Conn β) : Poll (Option (Except IoError Frame)) → Prop
  | .ready (some (.ok (.data _))) => c.canReadBody = true ∨ EofOf c.state.log i
  | .ready (some (.ok (.trailers _))) | .ready none | .panicked => EofOf c.state.log i
  | .ready (some (.error _)) => True
  | .pending | .busy => c.canReadBody = true

theorem tryKeepAlive_suffix (c : Conn β) : c.state.log <:+ c.tryKeepAlive.state.log :=
  c.tryKeepAlive_events.imp fun _ h => h.1.symm

theorem decoded_mem {fuel : ℕ} {d d' : Decoder}
    (h : c.decodeBody H fuel i d = (p, c', d')) : .decoded i d' ∈ c'.state.log := by
  rw [(decodeBody_inv h).2]
  exact mem_cons_self

theorem eofOf_decodeBody {fuel : ℕ} {d d' : Decoder}
    (h : c.decodeBody H fuel i d = (p, c', d')) (he : d'.isEof = true) (r : Reading) :
    EofOf (c'.modify ({ · with reading := r })).tryKeepAlive.state.log i :=
  EofOf.mono ⟨d', decoded_mem h, he⟩ (tryKeepAlive_suffix (c'.modify ({ · with reading := r })))

theorem canReadBody_decodeBody {fuel : ℕ} {d d' : Decoder}
    (h : c.decodeBody H fuel i d = (p, c', d')) : c'.canReadBody = true := by
  unfold canReadBody
  rw [(decodeBody_inv h).2]
  rfl

theorem pollReadBodyFrom_call (fuel i : ℕ) {d : Decoder} (hd : d.Live) :
    BodyCall i (c.pollReadBodyFrom H fuel i d).2 (c.pollReadBodyFrom H fuel i d).1 := by
  unfold pollReadBodyFrom
  rcases hx : c.decodeBody H fuel i d with ⟨p, c', d'⟩
  have hl := decodeBody_live hx hd
  have hbody := canReadBody_decodeBody hx
  rcases p with (e | b | fields) | _ | _ | _
  · trivial
  · rcases hl with he | ⟨hb, hl⟩
    · have heof := eofOf_decodeBody hx he .keepAlive
      by_cases hb : b = []
      · have ha : afterFrame d' (.ok (.data b)) = (some .keepAlive, none, false) := by simp [afterFrame, he, hb]
        simp only [ha]
        exact heof
      · have ha : afterFrame d' (.ok (.data b)) = (some .keepAlive, some (.ok (.data b)), false) := by
          simp [afterFrame, he, hb]
        simp only [ha]
        exact .inr heof
    · have ha : afterFrame d' (.ok (.data b)) = (none, some (.ok (.data b)), false) := by
        simp [afterFrame, hl.notEof, hb]
      simp only [ha]
      exact .inl hbody
  · exact eofOf_decodeBody hx hl .keepAlive
  · exact hbody
  · exact hbody
  · have hmem : .decoded i d' ∈ c'.state.log := decoded_mem hx
    exact ⟨d', hmem, hl⟩

/-- **A call inside a body** reports its end, or panics, only at the end of the decoder. -/
theorem pollReadBody_call (fuel i : ℕ) (hc : c.canReadBody = true) (ht : InTurn c.state) :
    BodyCall i (c.pollReadBody H fuel i).2 (c.pollReadBody H fuel i).1 := by
  obtain ⟨x, -, hx⟩ := ht
  unfold pollReadBody
  split
  · exact pollReadBodyFrom_call fuel i (hx.inBody (.inl ‹_›)).2.2
  · exact pollReadBodyFrom_call fuel i (hx.inBody (.inr ‹_›)).2.2
  · rename_i h₁ h₂
    unfold canReadBody at hc
    split at hc
    · exact absurd ‹_› (h₁ _)
    · exact absurd ‹_› (h₂ _)
    · cases hc

/-! ### What is not read -/

theorem canReadBody_congr (h : c'.state.reading = c.state.reading) : c'.canReadBody = c.canReadBody := by
  rw [canReadBody, h, canReadBody]

theorem canReadBody_false (h : c.canReadHead = true) : c.canReadBody = false := by
  simp only [canReadHead, Bool.and_eq_true, decide_eq_true_eq] at h
  rw [canReadBody, h.1]

theorem acceptHead_canReadBody {msg : ParsedMessage} (h : msg.decode ≠ .zero) :
    (c.acceptHead msg).canReadBody = true := by
  have hg := (gotHead_got c.state msg).reading.resolve_left fun hz => h hz.1
  obtain ⟨-, d, hr, -⟩ := hg
  rw [acceptHead, if_neg h, canReadBody, show (c.modify (gotHead msg)).state = gotHead msg c.state from rfl]
  rcases hr with hr | hr <;> rw [hr]

theorem BodyWritten.reading (h : BodyWritten c c') : c'.state.reading = c.state.reading := by
  obtain ⟨w, l, hs, -⟩ := h.state
  rw [hs]

theorem tryKeepAlive_canReadBody (h : c.canReadBody = true) : c.tryKeepAlive.canReadBody = true := by
  have hr : c.state.reading ≠ .init ∧ c.state.tryKeepAlive = c.state := by
    unfold canReadBody at h
    split at h
    · rename_i hr
      rw [State.tryKeepAlive, hr]
      exact ⟨by simp, rfl⟩
    · rename_i hr
      rw [State.tryKeepAlive, hr]
      exact ⟨by simp, rfl⟩
    · cases h
  have hm : c.modify State.tryKeepAlive = c := by rw [modify, hr.2]
  rw [tryKeepAlive, hm, maybeNotify, if_pos hr.1]
  exact h

theorem pollFlush_canReadBody (h : c.canReadBody = true) : c.pollFlush.2.canReadBody = true := by
  unfold pollFlush within
  rcases c.io.pollFlush with ⟨(e | u) | _ | _ | _, io⟩
  · exact h
  · exact tryKeepAlive_canReadBody h
  · exact h
  · exact h
  · exact h

/-! ### The end that nobody expects -/

/-- The connection has met no such end. -/
def Expected (log : List Ev) : Prop := .unexpectedEnd ∉ log

theorem Expected.adds {P : Ev → Prop} {log log' : List Ev} (h : Expected log) (ha : Adds P log log')
    (hp : ¬P .unexpectedEnd) : Expected log' := by
  obtain ⟨l, rfl, hl⟩ := ha
  intro hm
  rcases mem_append.1 hm with hm | hm
  · exact hp (hl _ hm)
  · exact h hm

theorem Expected.cons {log : List Ev} {ev : Ev} (h : Expected log) (hev : ev ≠ .unexpectedEnd) :
    Expected (ev :: log) := by
  intro hm
  rcases mem_cons.1 hm with hm | hm
  · exact hev hm.symm
  · exact h hm

theorem Expected.calm (hm : Calm H c c') (ht : InTurn c.state) (h : Expected c.state.log) :
    Expected c'.state.log := by
  have hwrote : ¬∃ bytes, Ev.unexpectedEnd = .wroteBody bytes := by rintro ⟨_, h⟩; cases h
  cases hm with
  | parse _ _ | interim _ _ | unhold _ | read | skip _ | flush | shutdown => exact h
  | decode _ hd _ =>
    rw [(decodeBody_inv hd).2]
    exact h.cons (by simp)
  | @frame c₁ fuel i d d' p r unexpected hr hd hf =>
    obtain ⟨x, -, hx⟩ := ht
    obtain ⟨rfl, -⟩ := leaves_ends (decodeBody_live hd (hx.inBody hr).2.2) hf
    show Expected c₁.state.log
    rw [(decodeBody_inv hd).2]
    exact h.cons (by simp)
  | tryKeepAlive => exact h.adds c.tryKeepAlive_events (by simp)
  | closeRead | closeWrite _ | close => exact h.cons (by simp)
  | writeBody _ _ => exact h.adds (c.writeBody_written _).events hwrote
  | writeTrailers fields _ => exact h.adds (c.writeTrailers_written fields).events hwrote
  | writeBodyAndEnd _ _ => exact h.adds (c.writeBodyAndEnd_written _).events hwrote
  | endBody _ => exact h.adds c.endBody_written.events hwrote
  | flushed _ => exact h.cons (by simp)
  | quiet hs =>
    show Expected _
    rw [hs.log]
    exact h

theorem Expected.move (hm : Move H c c') (ht : InTurn c.state) (h : Expected c.state.log) :
    Expected c'.state.log := by
  cases hm with
  | calm hm => exact h.calm hm ht
  | @head c₁ fuel msg _ hparse =>
    have hlog : c₁.state.log = c.state.log := (congrArg (fun x => x.2.state.log) hparse).symm
    show Expected (gotHead msg c₁.state).log
    rw [(gotHead_got c₁.state msg).log, hlog]
    exact h.cons (by simp)
  | writeHead head body _ =>
    rw [(c.writeHead_wrote head body).log]
    exact h.cons (by simp)
  | @note ev hev =>
    refine h.cons ?_
    rintro rfl
    exact hev

end Conn

/-! ## The bodies -/

namespace Shared

variable {β : Type} {s : Shared β} {E : ℕ → Prop} {tx : Option ℕ} {i : ℕ}

/-- **All bodies are sound**, and only this one has a sender. -/
structure Tells (E : ℕ → Prop) (tx : Option ℕ) (s : Shared β) : Prop where
  sound : ∀ i, Chan.Sound (E i) (s.bodies i)
  sender : ∀ i, (s.bodies i).senderOpen = true → (s.bodies i).receiverOpen = true → tx = some i

namespace Tells

theorem mono {E' : ℕ → Prop} (h : Tells E tx s) (he : ∀ i, E i → E' i) : Tells E' tx s :=
  ⟨fun i => (h.sound i).mono (he i), h.sender⟩

theorem used {s' : Shared β} (h : Tells E tx s) (hu : Used s s') : Tells E tx s' where
  sound := fun i => (hu.bodies i).keeps (fun _ h => h.poll) (fun _ h => h.dropReceiver) (h.sound i)
  sender := fun i => (hu.bodies i).keeps (Q := fun c => c.senderOpen = true → c.receiverOpen = true → tx = some i)
    (fun c h => by rw [c.poll_ends.2, c.poll_ends.1]; exact h) (fun _ _ _ hr => (by cases hr)) (h.sender i)

theorem yield (h : Tells E tx s) : Tells E tx s.yield := h.used s.yield_used

theorem setBody {tx' : Option ℕ} {c : Chan} (h : Tells E tx s) (hc : Chan.Sound (E i) c)
    (ho : c.senderOpen = true → c.receiverOpen = true → tx' = some i) (ht : ∀ j, j ≠ i → tx = some j → tx' = some j) :
    Tells E tx' (s.setBody i c) := by
  constructor
  · intro j
    by_cases hj : j = i
    · rw [hj, setBody_self]
      exact hc
    · rw [setBody_ne c hj]
      exact h.sound j
  · intro j
    by_cases hj : j = i
    · rw [hj, setBody_self]
      exact ho
    · rw [setBody_ne c hj]
      exact fun hs hr => ht j hj (h.sender j hs hr)

theorem keep {c : Chan} (h : Tells E (some i) s) (hc : Chan.Sound (E i) c) : Tells E (some i) (s.setBody i c) :=
  h.setBody hc (fun _ _ => rfl) fun _ _ => id

/-- **The sender is dropped**: the body has ended, or its receiver is warned. -/
theorem dropSender (h : Tells E (some i) s) (hw : E i ∨ (s.bodies i).Warned) :
    Tells E none (s.setBody i (s.bodies i).dropSender) :=
  h.setBody ((h.sound i).dropSender hw) (nofun) fun _ hj ht => absurd (some.inj ht).symm hj

theorem lost (h : Tells E (some i) s) (hr : (s.bodies i).receiverOpen = false) : Tells E none s where
  sound := h.sound
  sender := by
    intro j hs hj
    rw [← some.inj (h.sender j hs hj), hr] at hj
    cases hj

theorem opened (h : Tells E none s) (i : ℕ) (len : DecodedLength) (wanter : Bool) :
    Tells E (some i) (s.setBody i (Chan.new len wanter)) :=
  h.setBody (Chan.new_sound len wanter) (fun _ _ => rfl) nofun

end Tells

end Shared

namespace Dispatcher

variable {β : Type} [LawfulBuf β] {H : Httparse} {d d' : Dispatcher β} {E : ℕ → Prop} {tx : Option ℕ} {i : ℕ}

theorem dropBody_tells (h : d.shared.Tells E (some i)) (hw : E i ∨ (d.body i).Warned) :
    (d.dropBody i).shared.Tells E none :=
  h.yield.dropSender (hw.imp_right ((d.shared.yield_used.bodies i).keeps (fun _ h => h.poll) fun _ _ => .inl rfl))

theorem sendBodyError_tells (h : d.shared.Tells E (some i)) (e : Error) :
    (d.sendBodyError i e).shared.Tells E (some i) :=
  h.yield.keep ((h.yield.sound i).sendError e)

theorem sendBodyError_warned (d : Dispatcher β) (i : ℕ) (e : Error) : ((d.sendBodyError i e).body i).Warned := by
  show ((d.yield.shared.setBody i _).bodies i).Warned
  rw [Shared.setBody_self]
  exact Chan.sendError_warned _ e

/-- An error is sent before the sender is dropped. -/
theorem failBody_tells (h : d.shared.Tells E d.bodyTx) (e : Error) :
    (d.failBody e).shared.Tells E (d.failBody e).bodyTx := by
  unfold failBody
  split
  · rename_i i hi
    rw [hi] at h
    have hs := sendBodyError_tells (d := { d with bodyTx := none }) h e
    exact dropBody_tells hs (.inr (sendBodyError_warned { d with bodyTx := none } i e))
  · exact h

theorem bodyFor_tells (h : d.shared.Tells E d.bodyTx) (he : ∀ i, d.bodyTx = some i → E i) (len : DecodedLength)
    (wanter : Bool) :
    (d.bodyFor len wanter).2.shared.Tells E (d.bodyFor len wanter).2.bodyTx := by
  unfold bodyFor
  split
  · exact h
  unfold openBody
  simp only
  split
  · rename_i i hi
    rw [hi] at h
    have hd := (dropBody_tells h (.inl (he i hi))).opened (d.dropBody i).shared.nextBody len wanter
    exact ⟨hd.sound, hd.sender⟩
  · rename_i hi
    rw [hi] at h
    have hd := h.opened d.shared.nextBody len wanter
    exact ⟨hd.sound, hd.sender⟩

/-- What the senders of bodies rely on. -/
structure Sending (d : Dispatcher β) : Prop where
  tells : d.shared.Tells (EofOf d.conn.state.log) d.bodyTx
  /-- The body that is kept is being read, or has ended. -/
  reading : ∀ i, d.bodyTx = some i → d.isClosing = true ∨ d.conn.canReadBody = true ∨ EofOf d.conn.state.log i

theorem Sending.dropBody (htx : d.bodyTx = none) (h : d.shared.Tells (EofOf d.conn.state.log) (some i))
    (hw : EofOf d.conn.state.log i ∨ (d.body i).Warned) : (d.dropBody i).Sending where
  tells := by
    show (d.dropBody i).shared.Tells (EofOf d.conn.state.log) d.bodyTx
    rw [htx]
    exact dropBody_tells h hw
  reading := fun j hj => (by rw [show d.bodyTx = some j from hj] at htx; cases htx)

theorem Sending.keep (h : d.shared.Tells (EofOf d.conn.state.log) (some i))
    (hr : d.conn.canReadBody = true ∨ EofOf d.conn.state.log i) : { d with bodyTx := some i }.Sending where
  tells := h
  reading := fun j hj => by
    rw [← some.inj hj]
    exact .inr hr

theorem afterSend_sending {ε : Type} {x : Except ε Unit × Chan} (htx : d.bodyTx = none)
    (h : d.shared.Tells (EofOf d.conn.state.log) (some i)) (hs : Chan.Sound (EofOf d.conn.state.log i) x.2)
    (hok : d.conn.canReadBody = true ∨ EofOf d.conn.state.log i)
    (herr : ∀ e, x.1 = .error e → EofOf d.conn.state.log i ∨ x.2.Warned) : (d.afterSend i x).Sending := by
  have hk : (d.setBody i x.2).shared.Tells (EofOf d.conn.state.log) (some i) := h.keep hs
  have hb : (d.setBody i x.2).body i = x.2 := Shared.setBody_self x.2
  unfold afterSend
  split
  · exact .keep hk hok
  · rename_i e he
    have hw := herr e he
    unfold abandonBody
    split
    · have hmono : ∀ j, EofOf d.conn.state.log j → EofOf (.closed :: d.conn.state.log) j :=
        fun j hj => hj.mono (suffix_cons _ _)
      refine Sending.dropBody htx (hk.mono hmono) ?_
      exact hw.imp (hmono i) fun hw => by rw [← hb] at hw; exact hw
    · refine Sending.dropBody htx hk ?_
      exact hw.imp_right fun hw => by rw [← hb] at hw; exact hw

/-- **The body is read on**: what comes out goes to its receiver, or the receiver is warned. -/
theorem readBody_sending (fuel : ℕ) (htx : d.bodyTx = none) (h : d.shared.Tells (EofOf d.conn.state.log) (some i))
    (ht : Conn.InTurn d.conn.state) (hc : d.conn.canReadBody = true) (ha : (d.body i).Armed) :
    (d.readBody H fuel i).state.Sending := by
  have hcall := Conn.pollReadBody_call (H := H) fuel i hc ht
  have hlog := (Conn.pollReadBody_quiets (H := H) (c := d.conn) fuel i).moves.log
  unfold readBody within
  rcases hx : d.conn.pollReadBody H fuel i with ⟨p, c⟩
  rw [hx] at hcall hlog
  have hm : d.shared.Tells (EofOf c.state.log) (some i) := h.mono fun _ hj => hj.mono hlog
  rcases p with (_ | e | chunk | fields) | _ | _ | _
  · exact Sending.dropBody (d := d.setConn c) htx hm (.inl hcall)
  · have hs := sendBodyError_tells (d := d.setConn c) hm (.newBody (.io e))
    exact Sending.dropBody (d := (d.setConn c).sendBodyError i (.newBody (.io e))) htx hs
      (.inr (sendBodyError_warned (d.setConn c) i _))
  · have hay : ((d.setConn c).yield.body i).Armed :=
      (d.shared.yield_used.bodies i).keeps (fun _ h => h.poll) (fun _ _ => .inl rfl) ha
    exact afterSend_sending (d := (d.setConn c).yield) htx hm.yield ((hm.yield.sound i).sendData chunk) hcall
      fun _ hb => .inr (hay.refused hb)
  · exact afterSend_sending (d := (d.setConn c).yield) htx hm.yield ((hm.yield.sound i).sendTrailers fields)
      (.inr hcall) fun _ _ => .inl hcall
  · exact Sending.keep (d := d.setConn c) hm (.inl hcall)
  · exact Sending.keep (d := d.setConn c) hm (.inl hcall)
  · exact Sending.dropBody (d := d.setConn c) htx hm (.inl hcall)

theorem bodyRound_sending (fuel : ℕ) (hi : d.bodyTx = some i) (hcl : d.isClosing = false) (h : d.Sending)
    (ht : Conn.InTurn d.conn.state) : (d.bodyRound H fuel i).state.Sending := by
  have hs : d.shared.Tells (EofOf d.conn.state.log) (some i) := hi ▸ h.tells
  unfold bodyRound
  simp only
  split
  · rename_i hc
    have hy : d.shared.yield.Tells (EofOf d.conn.state.log) (some i) := hs.yield
    split
    · rename_i hr
      exact readBody_sending (d := { d with bodyTx := none }.yield) fuel rfl hy ht hc (Chan.armed_of_pollReady hr)
    · rename_i e hr
      have hgone : (d.shared.yield.bodies i).receiverOpen = false := Chan.closed_of_pollReady hr
      have hlog := (Conn.pollDrainOrCloseRead_quiets (H := H) (c := d.conn) fuel i).moves.log
      have hconn : { d with bodyTx := none }.yield.conn = d.conn := rfl
      unfold within
      rw [hconn]
      rcases hx : d.conn.pollDrainOrCloseRead H fuel i with ⟨p, c⟩
      rw [hx] at hlog
      have hm : ({ d with bodyTx := none }.yield.setConn c).shared.Tells (EofOf c.state.log) (some i) :=
        hy.mono fun _ hj => hj.mono hlog
      have hw : (({ d with bodyTx := none }.yield.setConn c).body i).Warned := .inl hgone
      have hlost : ({ d with bodyTx := none }.yield.setConn c).Sending :=
        ⟨hm.lost hgone, nofun⟩
      cases p with
      | ready u => exact Sending.dropBody (d := { d with bodyTx := none }.yield.setConn c) rfl hm (.inr hw)
      | pending | busy | panicked => exact hlost
    · exact Sending.keep (d := { d with bodyTx := none }.yield) hy (.inl hc)
  · rename_i hc
    have he := ((h.reading i hi).resolve_left (by rw [hcl]; decide)).resolve_left hc
    exact Sending.dropBody (d := { d with bodyTx := none }) rfl hs (.inl he)

/-- **What holds while the task runs.** -/
structure Faithful (d : Dispatcher β) : Prop where
  inTurn : Conn.InTurn d.conn.state
  sending : d.Sending

theorem Sending.same (h : d.Sending) (hl : d.conn.state.log <:+ d'.conn.state.log)
    (hs : d'.shared.Tells (EofOf d.conn.state.log) d.bodyTx) (htx : d'.bodyTx = d.bodyTx)
    (hr : d.isClosing = true ∨ d.conn.canReadBody = true → d'.isClosing = true ∨ d'.conn.canReadBody = true) :
    d'.Sending where
  tells := by
    rw [htx]
    exact hs.mono fun _ hj => hj.mono hl
  reading := by
    intro i hi
    rcases h.reading i (htx ▸ hi) with hc | hc | hc
    · exact (hr (.inl hc)).imp_right .inl
    · exact (hr (.inr hc)).imp_right .inl
    · exact .inr (.inr (hc.mono hl))

theorem Sending.ended (h : d.Sending) (hcl : d.isClosing = false) (hr : d.conn.canReadHead = true)
    (hi : d.bodyTx = some i) :
    EofOf d.conn.state.log i := by
  rcases h.reading i hi with hc | hc | hc
  · rw [hcl] at hc; cases hc
  · rw [Conn.canReadBody_false hr] at hc; cases hc
  · exact hc

theorem Sending.behind (h : d.Sending) (hcl : d.isClosing = false) (hr : d.conn.canReadHead = true)
    (hl : d.conn.state.log <:+ d'.conn.state.log) (hs : d'.shared.Tells (EofOf d.conn.state.log) d.bodyTx)
    (htx : d'.bodyTx = d.bodyTx) : d'.Sending where
  tells := by
    rw [htx]
    exact hs.mono fun _ hj => hj.mono hl
  reading := fun _ hi => .inr (.inr ((h.ended hcl hr (htx ▸ hi)).mono hl))

/-- **A response head is handed on with its body.** -/
theorem respond_tells {id : ℕ} (hcb : d.callback = some id) (h : d.shared.Tells E d.bodyTx)
    (he : ∀ i, d.bodyTx = some i → E i) (head : ResponseHead) (len : DecodedLength) (wants : Wants) :
    (d.respond head len wants).2.shared.Tells E (d.bodyFor len wants.expect).2.bodyTx := by
  rw [respond_shared hcb]
  exact (bodyFor_tells h he len wants.expect).used
    (reply_used { (d.bodyFor len wants.expect).2 with callback := none } id _)

theorem bodyFor_bodyTx (d : Dispatcher β) (wanter : Bool) : (d.bodyFor .zero wanter).2.bodyTx = d.bodyTx := by
  rw [bodyFor, if_pos rfl]

theorem Sending.response {id fuel : ℕ} {head : ResponseHead} {len : DecodedLength} {wants : Wants} {c : Conn β}
    (h : d.Sending) (hcl : d.isClosing = false) (hr : d.conn.canReadHead = true) (hcb : d.callback = some id)
    (hl : d.conn.state.log <:+ ((d.yield.setConn c).respond head len wants).2.conn.state.log)
    (hx : d.conn.pollReadHead H fuel = (.ready (some (.ok (head, len, wants))), c)) :
    ((d.yield.setConn c).respond head len wants).2.Sending := by
  have ht := respond_tells (d := d.yield.setConn c) hcb h.tells.yield (fun _ hi => h.ended hcl hr hi) head len wants
  obtain ⟨up, hd⟩ := respond_some (d := d.yield.setConn c) hcb head len wants
  have htx : ((d.yield.setConn c).respond head len wants).2.bodyTx =
      ((d.yield.setConn c).bodyFor len wants.expect).2.bodyTx := by rw [hd]
  constructor
  · rw [htx]
    exact ht.mono fun _ hj => hj.mono hl
  · intro i hi
    by_cases hz : len = .zero
    · subst hz
      rw [htx, bodyFor_bodyTx] at hi
      exact .inr (.inr ((h.ended hcl hr hi).mono hl))
    · obtain ⟨msg, c₁, -, -, rfl, -, rfl⟩ := Conn.pollReadHead_ok hx
      refine .inr (.inl ?_)
      rw [hd]
      exact Conn.acceptHead_canReadBody hz

theorem Sending.writeOnly (h : d.Sending) (hw : WriteOnly d d') (hl : d.conn.state.log <:+ d'.conn.state.log)
    (hr : d'.conn.state.reading = d.conn.state.reading) : d'.Sending := by
  have hc := Conn.canReadBody_congr hr
  unfold WriteOnly at hw
  refine h.same hl ?_ ?_ ?_
  · rw [hw]; exact h.tells
  · rw [hw]
  · rw [hc, hw]; exact id

/-- **No act misleads the receiver of a body.** -/
theorem Sending.act (ha : Act H d d') (ht : Conn.InTurn d.conn.state) (h : d.Sending) : d'.Sending := by
  have hl := ha.moves.log
  cases ha with
  | abort _ => exact h.same hl (h.tells.used d.pollReady_apart.used) d.pollReady_apart.bodyTx fun _ => .inl rfl
  | noHead fuel hcl hr _ _ => exact h.behind hcl hr hl h.tells.yield rfl
  | response hcl hr hcb hx => exact h.response hcl hr hcb hl hx
  | @headError _ _ e c _ _ _ _ =>
    have hp := recvError_apart (d.yield.setConn c) e
    exact h.same hl (h.tells.yield.used hp.used) hp.bodyTx fun _ => .inl rfl
  | @headNone _ _ c hcl hr _ _ =>
    by_cases hw : c.isWriteClosed = true
    · rw [if_pos hw] at hl ⊢
      exact h.same hl h.tells.yield rfl fun _ => .inl rfl
    · rw [if_neg hw] at hl ⊢
      exact h.behind hcl hr hl h.tells.yield rfl
  | body hcl _ hi => exact bodyRound_sending _ hi hcl h ht
  | keepAlive _ _ hi =>
    refine ⟨h.tells.mono fun _ hj => hj.mono hl, fun _ hj => ?_⟩
    rw [show d.bodyTx = _ from hj] at hi
    cases hi
  | aside ha =>
    cases ha with
    | @request d₁ req _ _ _ _ hx =>
      have hs := h.tells.used d.pollMsg_apart.used
      have hl₁ := (pollMsg_moves (H := H) d).log
      obtain ⟨id, hd⟩ := pollMsg_some hx
      obtain ⟨body, hc⟩ := startRequest_conn d₁ req
      rw [hx] at hs hl₁
      have h₁ : d₁.Sending := h.same hl₁ hs (by rw [hd]) (by rw [hd]; exact fun h => h)
      have hw := d₁.conn.writeHead_wrote req.head body
      rw [← hc] at hw
      exact h₁.writeOnly (startRequest_writeOnly d₁ req) (hw.log ▸ suffix_cons _ _) hw.reading
    | noRequest _ _ _ _ hx =>
      have hs := h.tells.used d.pollMsg_apart.used
      have hd := pollMsg_none hx
      rw [hx] at hs
      exact h.same hl hs (by rw [hd]; rfl) fun _ => .inl rfl
    | want _ _ _ _ hx =>
      have hs := h.tells.used d.pollMsg_apart.used
      obtain ⟨early, hd⟩ := pollMsg_pending hx
      rw [hx] at hs
      exact h.same hl hs (by rw [hd]) (by rw [hd]; exact id)
    | flush => exact h.same hl h.tells rfl (.imp_right Conn.pollFlush_canReadBody)
    | clearBody _ => exact h.same hl h.tells rfl id
    | @frame body _ _ _ => exact h.writeOnly (writeFrame_writeOnly d body) hl (writeFrame_written d body).reading
    | endBody _ _ _ => exact h.writeOnly (endBody_writeOnly d) hl (endBody_written d).reading
    | tidy _ => exact h.same hl h.tells rfl id
    | woke => exact h.same hl h.tells rfl id
    | shutdown => exact h.same hl h.tells rfl id

theorem Faithful.act (ha : Act H d d') (h : d.Faithful) : d'.Faithful :=
  ⟨ha.moves.keeps (fun _ _ => Conn.InTurn.move) h.inTurn, h.sending.act ha h.inTurn⟩

/-! ## The end of the task -/

theorem failed_tells (h : d.shared.Tells E d.bodyTx) (e : Error) : (d.failed e).shared.Tells E (d.failed e).bodyTx := by
  unfold failed
  rw [(recvError_apart _ e).bodyTx]
  exact (failBody_tells h _).used (recvError_apart _ e).used

theorem failBody_bodyTx (d : Dispatcher β) (e : Error) : (d.failBody e).bodyTx = none := by
  unfold failBody
  split
  · rfl
  · assumption

theorem drop_tells (h : d.shared.Tells E d.bodyTx) : d.drop.shared.Tells E d.drop.bodyTx := by
  have key : ∀ d₁ : Dispatcher β, d₁.shared.Tells E d.bodyTx → d₁.bodyTx = d.bodyTx →
      ((d₁.yield.setChannel d₁.yield.shared.channel.dropReceiver).failBody .newIncomplete).shared.Tells E
        ((d₁.yield.setChannel d₁.yield.shared.channel.dropReceiver).failBody .newIncomplete).bodyTx := by
    intro d₁ h₁ htx
    rw [← htx] at h₁
    exact failBody_tells (d := d₁.yield.setChannel d₁.yield.shared.channel.dropReceiver)
      (h₁.used (d₁.yield_apart.trans (setChannel_apart _ _)).used) _
  unfold drop
  simp only
  split
  · exact key _ (h.used (reply_callback_apart d _ _).used) (reply_callback_apart d _ _).bodyTx
  · exact key d h rfl

theorem drop_bodyTx (d : Dispatcher β) : d.drop.bodyTx = none := failBody_bodyTx _ _

end Dispatcher

namespace World

open Dispatcher

variable {β : Type} [LawfulBuf β] {H : Httparse}

theorem new_faithful (opts : Http1Options) (io : Transport) (room : Stream' ℕ) (users : Stream' (List (Ext β))) :
    (World.new opts io room users).task.Faithful where
  inTurn := new_inTurn opts io room users
  sending := by
    have hsound : ∀ i, Chan.Sound (EofOf [] i) ((World.new opts io room users).task.shared.bodies i) := fun i =>
      ⟨fun _ => .inr (.inl rfl), nofun, fun l₁ l₂ h => absurd h (by simp [World.new, Dispatcher.new,
        Shared.new, Chan.new, Chan.dropSender, Chan.dropReceiver])⟩
    exact ⟨⟨hsound, nofun⟩, nofun⟩

/-- **In every run** the receivers of bodies are told the truth. -/
theorem run_tells (steps : List (Step β)) {w : World β} (h : w.task.Faithful) :
    (w.run H steps).task.shared.Tells (EofOf (w.run H steps).log) (w.run H steps).task.bodyTx := by
  refine (run_keeps (H := H) (I := Faithful) (J := fun d => d.shared.Tells (EofOf d.conn.state.log) d.bodyTx)
    (fun _ _ ha hd => hd.act ha) (fun d a hd => ?_) (fun _ hd => hd.sending.tells) (fun d e hd => ?_)
    (fun d a hd => hd.used (d.user_apart a).used) (fun d hd => ?_) steps w h.sending.tells fun _ => h).1
  · exact ⟨hd.inTurn, hd.sending.tells.used (d.user_apart a).used, hd.sending.reading⟩
  · rw [failed_conn]
    exact failed_tells hd.sending.tells e
  · rw [drop_conn]
    exact drop_tells hd

theorem run_dropped (steps : List (Step β)) {w : World β} (h : w.phase = .dropped → w.task.bodyTx = none) :
    (w.run H steps).phase = .dropped → (w.run H steps).task.bodyTx = none := by
  induction steps generalizing w with
  | nil => exact h
  | cons s steps ih =>
    refine ih (w := w.step H s) ?_
    cases s with
    | poll fuel b =>
      simp only [step]
      split
      · unfold afterPoll
        cases (w.task.pollCatch H fuel b).1 with
        | ready r | pending | busy => intro hp; cases hp
        | panicked => exact fun _ => drop_bodyTx _
      · exact h
    | drop =>
      simp only [step]
      split
      · exact fun _ => drop_bodyTx _
      · exact h
    | user a => exact h

theorem run_expected (steps : List (Step β)) {w : World β} (ht : Conn.InTurn w.task.conn.state)
    (h : Conn.Expected w.log) : Conn.Expected (w.run H steps).log :=
  (run_conn_keeps (H := H) (P := fun c => Conn.InTurn c.state ∧ Conn.Expected c.state.log)
    (fun _ _ hm hc => ⟨hc.1.move hm, hc.2.move hm hc.1⟩) steps w ⟨ht, h⟩).2

end World

/-- **Responses are not silently truncated.** In every run, a body is seen to end without an error only if the decoder
has reached its end. Once the sender is gone, the body has ended or there is an error before the end, and the sender
is gone when the task is. The decoder is not found silent before its end. -/
theorem never_truncated {β : Type} [LawfulBuf β] (H : Httparse) (opts : Http1Options) (io : Transport)
    (room : Stream' ℕ) (users : Stream' (List (Ext β))) (steps : List (Step β)) :
    let w := (World.new opts io room users).run H steps
    (∀ i l₁ l₂, (w.task.body i).seen = l₁ ++ .ended :: l₂ → EofOf w.log i ∨ ∃ e, .error e ∈ l₂) ∧
      (∀ i, (w.task.body i).receiverOpen = true → (w.task.body i).senderOpen = false →
        EofOf w.log i ∨ (w.task.body i).Erred) ∧
      (w.phase = .dropped → ∀ i, (w.task.body i).receiverOpen = true → (w.task.body i).senderOpen = false) ∧
      .unexpectedEnd ∉ w.log := by
  intro w
  have hf := World.new_faithful opts io room users
  have ht := World.run_tells (H := H) steps hf
  refine ⟨fun i => (ht.sound i).clean, fun i hr hs => ?_, fun hp i hr => ?_, ?_⟩
  · rcases (ht.sound i).dropped hs with he | hc | he
    · exact .inl he
    · cases hc.symm.trans hr
    · exact .inr he
  · have htx := World.run_dropped (H := H) steps (w := World.new opts io room users) nofun hp
    rw [← Bool.not_eq_true]
    intro hs
    cases htx.symm.trans (ht.sender i hs hr)
  · exact World.run_expected (H := H) steps hf.inTurn (by intro h; cases h)

end Netty
