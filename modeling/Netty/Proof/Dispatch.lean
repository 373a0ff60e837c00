import Netty.Proof.Conn

/-!
# The acts of the dispatcher

`Dispatcher.Act` lists all that the task does in a poll, each act with the condition
under which it is done. A poll is a sequence of acts (`pollInner_acts`), and an act
moves the connection (`Act.moves`).

* `run_polls`, `run_keeps`: what every poll, or every act, and every step of the users keeps holds in every run.
-/

namespace Netty

theorem Shared.yield_keeps {β : Type} {P : Shared β → Prop} (h : ∀ s a, P s → P (s.act a))
    (ht : ∀ s u, P s → P { s with users := u }) :
    ∀ s, P s → P s.yield := by
  intro s hs
  have key : ∀ (acts : List (Ext β)) s, P s → P (acts.foldl Shared.act s) := by
    intro acts
    induction acts with
    | nil => intro s hs; exact hs
    | cons a acts ih => intro s hs; exact ih _ (h s a hs)
  exact key _ _ (ht s _ hs)

namespace Dispatcher

open Relation

variable {β : Type} [LawfulBuf β] {H : Httparse} {d d' : Dispatcher β} {id : ℕ}

/-! ## What is left alone -/

/-- Nothing has changed but what is shared with the users. -/
def SharedOnly (d d' : Dispatcher β) : Prop := d' = { d with shared := d'.shared }

theorem reply_sharedOnly (d : Dispatcher β) (id : ℕ) (r : Reply β) : SharedOnly d (d.reply id r) := by
  unfold reply
  simp only
  split <;> rfl

theorem dropBody_sharedOnly (d : Dispatcher β) (i : ℕ) : SharedOnly d (d.dropBody i) := rfl

theorem SharedOnly.conn (h : SharedOnly d d') : d'.conn = d.conn := by rw [h]

@[simp] theorem reply_conn (d : Dispatcher β) (id : ℕ) (r : Reply β) : (d.reply id r).conn = d.conn :=
  (reply_sharedOnly d id r).conn

/-! ## Acts -/

/-- What the task does outside of `poll_read`. -/
inductive Aside : Dispatcher β → Dispatcher β → Prop
  | request {d d' : Dispatcher β} {req : Request β} : d.isClosing = false → d.bodyRx = none →
      d.conn.canWriteHead = true → d.callback = none → d.pollMsg = (.ready (some req), d') →
      Aside d (d'.startRequest req)
  | noRequest {d d' : Dispatcher β} : d.isClosing = false → d.bodyRx = none → d.conn.canWriteHead = true →
      d.callback = none → d.pollMsg = (.ready none, d') → Aside d d'.close
  /-- There is no request, and `want` is signalled. -/
  | want {d d' : Dispatcher β} : d.isClosing = false → d.bodyRx = none → d.conn.canWriteHead = true →
      d.callback = none → d.pollMsg = (.pending, d') → Aside d d'
  | flush {d : Dispatcher β} : Aside d (d.setConn d.conn.pollFlush.2)
  | clearBody {d : Dispatcher β} : d.conn.canWriteBody = false → Aside d { d with bodyRx := none }
  | frame {d : Dispatcher β} {body : RequestBody β} : d.isClosing = false → d.bodyRx = some body →
      d.conn.canWriteBody = true → Aside d (d.writeFrame body).state
  | endBody {d : Dispatcher β} : d.isClosing = false → d.bodyRx = none → d.conn.canWriteBody = true →
      Aside d d.endBody.state
  /-- A note is taken off the connection: to read again, of an upgrade, of an error. -/
  | tidy {d : Dispatcher β} {notifyRead upgrade : Bool} {error : Option Error} :
      (upgrade = true → d.conn.state.upgrade = true) →
      Aside d (d.setConn { d.conn with
        state := { d.conn.state with notifyRead := notifyRead, upgrade := upgrade, error := error } })
  | woke {d : Dispatcher β} : Aside d (d.note .woke)
  | shutdown {d : Dispatcher β} : Aside d (d.setConn d.conn.pollShutdown.2)

/-- All that the task does in a poll. -/
inductive Act (H : Httparse) : Dispatcher β → Dispatcher β → Prop
  /-- Nobody waits for the response. -/
  | abort {d : Dispatcher β} : d.isClosing = false → Act H d ({ d.pollReady.2 with isAborted := true }.close)
  | noHead {d : Dispatcher β} {id : ℕ} (fuel : ℕ) : d.isClosing = false → d.conn.canReadHead = true →
      d.callback = some id → (∀ r, (d.conn.pollReadHead H fuel).1 ≠ .ready r) →
      Act H d (d.yield.setConn (d.conn.pollReadHead H fuel).2)
  | response {d : Dispatcher β} {fuel id : ℕ} {head : ResponseHead} {len : DecodedLength} {wants : Wants}
      {c : Conn β} : d.isClosing = false → d.conn.canReadHead = true → d.callback = some id →
      d.conn.pollReadHead H fuel = (.ready (some (.ok (head, len, wants))), c) →
      Act H d ((d.yield.setConn c).respond head len wants).2
  | headError {d : Dispatcher β} {fuel id : ℕ} {e : Error} {c : Conn β} : d.isClosing = false →
      d.conn.canReadHead = true → d.callback = some id →
      d.conn.pollReadHead H fuel = (.ready (some (.error e)), c) →
      Act H d ((d.yield.setConn c).recvError e).2.close
  | headNone {d : Dispatcher β} {fuel id : ℕ} {c : Conn β} : d.isClosing = false → d.conn.canReadHead = true →
      d.callback = some id → d.conn.pollReadHead H fuel = (.ready none, c) →
      Act H d (if c.isWriteClosed then (d.yield.setConn c).close else d.yield.setConn c)
  /-- The response body is read on, or given up. -/
  | body {d : Dispatcher β} {fuel i : ℕ} : d.isClosing = false → d.conn.canReadHead = false → d.bodyTx = some i →
      Act H d (d.bodyRound H fuel i).state
  | keepAlive {d : Dispatcher β} : d.isClosing = false → d.conn.canReadHead = false → d.bodyTx = none →
      Act H d (d.setConn d.conn.pollReadKeepAlive.2)
  | aside {d d' : Dispatcher β} : Aside d d' → Act H d d'

abbrev Acts (H : Httparse) : Dispatcher β → Dispatcher β → Prop := ReflTransGen (Act H)

abbrev Asides : Dispatcher β → Dispatcher β → Prop := ReflTransGen Aside

theorem Asides.acts (h : Asides d d') : Acts H d d' := ReflTransGen.mono (fun _ _ => Act.aside) d d' h

/-! ## A poll is a sequence of acts -/

theorem pollReady_true (h : d.pollReady = (true, d')) : (∃ id, d.callback = some id) ∧ d' = d.yield := by
  unfold pollReady at h
  cases hc : d.callback with
  | none => rw [hc] at h; cases h
  | some id =>
    rw [hc] at h
    injection h with _ h
    exact ⟨⟨id, rfl⟩, h.symm⟩

theorem recvError_some (h : d.callback = some id) (e : Error) :
    d.recvError e = (.ok (), { d with callback := none }.reply id (.error e none)) := by
  unfold recvError
  rw [h]

theorem pollReadHead_act (fuel : ℕ) (hc : d.isClosing = false) (hr : d.conn.canReadHead = true) :
    Act H d (d.pollReadHead H fuel).2 := by
  unfold pollReadHead
  rcases hy : d.pollReady with ⟨ok, d₁⟩
  cases ok with
  | false =>
    have h := Act.abort (H := H) hc
    rw [hy] at h
    exact h
  | true =>
    obtain ⟨⟨id, hid⟩, rfl⟩ := pollReady_true hy
    simp only
    rcases hp' : d.conn.pollReadHead H fuel with ⟨p, c⟩
    have hp₁ : d.yield.conn.pollReadHead H fuel = (p, c) := hp'
    rw [hp₁]
    cases p with
    | ready r =>
      rcases r with _ | e | ⟨head, len, wants⟩
      · exact .headNone hc hr hid hp'
      · have h := Act.headError hc hr hid hp'
        have hcb : (d.yield.setConn c).callback = some id := hid
        simp only [within, whenReady_ready, recvError_some hcb] at h ⊢
        exact h
      · exact .response hc hr hid hp'
    | pending =>
      have h := Act.noHead (H := H) fuel hc hr hid (by simp [hp'])
      rw [hp'] at h; exact h
    | busy =>
      have h := Act.noHead (H := H) fuel hc hr hid (by simp [hp'])
      rw [hp'] at h; exact h
    | panicked =>
      have h := Act.noHead (H := H) fuel hc hr hid (by simp [hp'])
      rw [hp'] at h; exact h

theorem readRound_acts (fuel : ℕ) (d : Dispatcher β) : Acts H d (d.readRound H fuel).state := by
  unfold readRound
  split
  · exact .refl
  rename_i hc
  rw [Bool.not_eq_true] at hc
  split
  · rename_i hr
    have h : Acts H d (d.pollReadHead H fuel).2 := .single (pollReadHead_act fuel hc hr)
    refine Ctl.whenOk_reaches h fun _ t ht => ?_
    rw [ht] at h; exact h
  rename_i hr
  rw [Bool.not_eq_true] at hr
  split
  · exact .single (.body hc hr ‹_›)
  · exact .single (.keepAlive hc hr ‹_›)

theorem pollRead_acts (fuel : ℕ) (d : Dispatcher β) : Acts H d (d.pollRead H fuel).2 :=
  loop_reaches (readRound_acts fuel) fuel d

theorem pollFlush_snd (d : Dispatcher β) : d.pollFlush.2 = d.setConn d.conn.pollFlush.2 := by
  unfold pollFlush within
  rcases d.conn.pollFlush with ⟨(u | e) | _ | _ | _, c⟩ <;> rfl

theorem pollFlush_asides (d : Dispatcher β) : Asides d d.pollFlush.2 := by
  rw [pollFlush_snd]
  exact .single .flush

theorem pollFlush_acts (d : Dispatcher β) : Acts H d d.pollFlush.2 := d.pollFlush_asides.acts

theorem pollMsg_cases (d : Dispatcher β) :
    (∃ req d', d.pollMsg = (.ready (some req), d')) ∨ (∃ d', d.pollMsg = (.ready none, d')) ∨
      ∃ d', d.pollMsg = (.pending, d') := by
  unfold pollMsg takeRequest
  simp only
  split
  · split
    · exact .inr (.inl ⟨_, rfl⟩)
    · exact .inl ⟨_, _, rfl⟩
  · exact .inr (.inl ⟨_, rfl⟩)
  · exact .inr (.inr ⟨_, rfl⟩)

theorem writeRound_asides (d : Dispatcher β) : Asides d d.writeRound.state := by
  unfold writeRound
  split
  · exact .refl
  rename_i hc
  rw [Bool.not_eq_true] at hc
  split
  · rename_i hg
    simp only [Bool.and_eq_true, shouldPoll, Option.isNone_iff_eq_none] at hg
    obtain ⟨⟨hrx, hw⟩, hcb⟩ := hg
    rcases pollMsg_cases d with ⟨req, d', h⟩ | ⟨d', h⟩ | ⟨d', h⟩
    · rw [h]; exact .single (.request hc hrx hw hcb h)
    · rw [h]; exact .single (.noRequest hc hrx hw hcb h)
    · rw [h]; exact .single (.want hc hrx hw hcb h)
  split
  · have h := pollFlush_asides d
    refine Ctl.whenOk_reaches h fun _ t ht => ?_
    rw [ht] at h; exact h
  split
  · split
    · exact .single (.frame hc ‹_› ‹_›)
    · rename_i hw
      exact .single (.clearBody (by simpa using hw))
  · split
    · exact .single (.endBody hc ‹_› ‹_›)
    · exact .refl

theorem pollWrite_asides (fuel : ℕ) (d : Dispatcher β) : Asides d (d.pollWrite fuel).2 :=
  loop_reaches writeRound_asides fuel d

theorem pollWrite_acts (fuel : ℕ) (d : Dispatcher β) : Acts H d (d.pollWrite fuel).2 := (d.pollWrite_asides fuel).acts

theorem wantsReadAgain_aside (d : Dispatcher β) : Aside d (d.setConn d.conn.wantsReadAgain.2) := .tidy id

theorem writeAgain_asides (fuel : ℕ) (d : Dispatcher β) : Asides d (d.writeAgain fuel).state := by
  refine Ctl.unlessErr_reaches (pollWrite_asides fuel d) fun _ d₁ h₁ => ?_
  split
  · exact h₁
  split
  · exact Ctl.unlessErr_reaches (h₁.trans (pollFlush_asides d₁)) fun _ _ h => h
  · exact h₁

theorem afterFlush_asides (fuel : ℕ) (ready : Bool) (d : Dispatcher β) :
    Asides d (d.afterFlush fuel ready).state := by
  have h : Asides d (d.setConn d.conn.wantsReadAgain.2) := .single (wantsReadAgain_aside d)
  unfold afterFlush
  simp only
  split
  · exact h
  split
  · exact h.trans (writeAgain_asides fuel _)
  · exact h

theorem afterRead_asides (fuel : ℕ) (d : Dispatcher β) :
    Asides d (Ctl.unlessErr (d.pollWrite fuel) fun writeReady d =>
      Ctl.unlessErr d.pollFlush fun flushReady d => d.afterFlush fuel (writeReady || flushReady)).state := by
  refine Ctl.unlessErr_reaches (pollWrite_asides fuel d) fun _ d₂ h₂ => ?_
  exact Ctl.unlessErr_reaches (h₂.trans (pollFlush_asides d₂)) fun _ d₃ h₃ => h₃.trans (afterFlush_asides fuel _ d₃)

theorem pollRound_acts (fuel : ℕ) (d : Dispatcher β) : Acts H d (d.pollRound H fuel).state :=
  Ctl.unlessErr_reaches (pollRead_acts fuel d) fun _ d₁ h₁ => h₁.trans (afterRead_asides fuel d₁).acts

theorem pollLoop_acts (fuel : ℕ) : ∀ n (d : Dispatcher β), Acts H d (pollLoop H fuel n d).2 := by
  intro n
  induction n with
  | zero => intro d; exact .single (.aside .woke)
  | succ n ih =>
    intro d
    have h := pollRound_acts (H := H) fuel d
    unfold pollLoop
    cases hx : d.pollRound H fuel with
    | again d₁ => rw [hx] at h; exact h.trans (ih d₁)
    | ret x => rw [hx] at h; exact h

theorem finish_asides (d : Dispatcher β) (r : Dispatched) : Asides d (d.finish r).2 := by
  unfold finish Conn.takeError
  cases d.conn.state.error with
  | none => exact .single (.tidy id)
  | some e => exact .single (.tidy id)

theorem pollShutdown_snd (d : Dispatcher β) : d.pollShutdown.2 = d.setConn d.conn.pollShutdown.2 := by
  unfold pollShutdown within
  rcases d.conn.pollShutdown with ⟨(u | e) | _ | _ | _, c⟩ <;> rfl

theorem pollInner_asides (fuel : ℕ) (b : Bool) (d : Dispatcher β) :
    Asides (pollLoop H fuel 16 d).2 (d.pollInner H fuel b).2 := by
  unfold pollInner
  refine whenOk_reaches .refl fun _ d₁ h₁ => ?_
  rw [h₁]
  split
  · have h₂ : Asides d₁ (d₁.setConn d₁.conn.pendingUpgrade.2) := .single (.tidy nofun)
    simp only
    split
    · exact h₂.trans (finish_asides _ _)
    split
    · have h₃ := h₂.tail Aside.shutdown
      rw [← pollShutdown_snd] at h₃
      refine whenOk_reaches h₃ fun _ d₃ hd₃ => ?_
      rw [hd₃] at h₃
      exact h₃.trans (finish_asides _ _)
    · exact h₂.trans (finish_asides _ _)
  · exact .refl

/-- **A poll is a sequence of acts.** -/
theorem pollInner_acts (fuel : ℕ) (b : Bool) (d : Dispatcher β) : Acts H d (d.pollInner H fuel b).2 :=
  (pollLoop_acts fuel 16 d).trans (pollInner_asides fuel b d).acts

/-! ## Acts move the connection -/

section Moves

open Conn (Calms Quiets Moves)

theorem close_quiets (d : Dispatcher β) : Quiets H d.conn d.close.conn := Conn.closeBoth_quiets

theorem recvError_conn (d : Dispatcher β) (e : Error) : (d.recvError e).2.conn = d.conn := by
  unfold recvError
  split
  · rw [reply_conn]
  split
  · rfl
  simp only
  split
  · rw [reply_conn]; rfl
  · rfl

theorem bodyFor_conn (d : Dispatcher β) (len : DecodedLength) (wanter : Bool) :
    (d.bodyFor len wanter).2.conn = d.conn := by
  unfold bodyFor openBody
  split
  · rfl
  · cases d.bodyTx <;> rfl

theorem recvResponse_moves (d : Dispatcher β) (head : ResponseHead) (body : Option ℕ) :
    Moves H d.conn (d.recvResponse head body).2.conn := by
  unfold recvResponse
  cases d.callback with
  | none => cases body <;> exact .refl
  | some id =>
    show Moves H d.conn (Conn.note (reply { d with callback := none } id _).conn _)
    rw [reply_conn]
    exact .single (.note trivial)

theorem respond_moves (d : Dispatcher β) (head : ResponseHead) (len : DecodedLength) (wants : Wants) :
    Moves H d.conn (d.respond head len wants).2.conn := by
  have h := bodyFor_conn d len wants.expect
  unfold respond
  simp only
  refine ReflTransGen.trans ?_ (recvResponse_moves _ head _)
  rw [← h]
  split
  · exact .single (.calm (.quiet ⟨rfl, rfl, rfl, rfl, rfl, rfl⟩))
  · exact .refl

theorem readBody_quiets (fuel i : ℕ) (d : Dispatcher β) : Quiets H d.conn (d.readBody H fuel i).state.conn := by
  have h := Conn.pollReadBody_quiets (H := H) (c := d.conn) fuel i
  have hs : ∀ {ε : Type} (x : Except ε Unit × Chan) (d₁ : Dispatcher β), Quiets H d.conn d₁.conn →
      Quiets H d.conn (d₁.afterSend i x).conn := by
    intro ε x d₁ h₁
    unfold afterSend abandonBody
    split
    · exact h₁
    · rw [(dropBody_sharedOnly _ i).conn]
      split
      · exact h₁.tail .closeRead
      · exact h₁
  unfold readBody within
  rcases hx : d.conn.pollReadBody H fuel i with ⟨(_ | e | chunk | fields) | _ | _ | _, c⟩ <;> rw [hx] at h
  · exact h
  · exact h
  · exact hs _ _ h
  · exact hs _ _ h
  · exact h
  · exact h
  · exact h

theorem bodyRound_quiets (fuel i : ℕ) (d : Dispatcher β) : Quiets H d.conn (d.bodyRound H fuel i).state.conn := by
  have h₁ := readBody_quiets (H := H) fuel i { d with bodyTx := none }.yield
  have h₂ := Conn.pollDrainOrCloseRead_quiets (H := H) (c := d.conn) fuel i
  unfold bodyRound
  simp only
  split
  · split
    · exact h₁
    · unfold within
      have hy : { d with bodyTx := none }.yield.conn = d.conn := rfl
      rw [hy]
      rcases hx : d.conn.pollDrainOrCloseRead H fuel i with ⟨_ | _ | _ | _, c⟩ <;> rw [hx] at h₂ <;> exact h₂
    · exact .refl
  · exact .refl

theorem takeRequest_moves (d : Dispatcher β) (m : ℕ × Request β) : Moves H d.conn (d.takeRequest m).2.conn := by
  unfold takeRequest
  split
  · exact .refl
  · exact .single (.note trivial)

theorem pollMsg_moves (d : Dispatcher β) : Moves H d.conn d.pollMsg.2.conn := by
  unfold pollMsg
  simp only
  split
  · rename_i m c _
    exact takeRequest_moves (d.yield.setChannel c).yield m
  · exact .refl
  · exact .single (.note trivial)

theorem pollMsg_canWriteHead (d : Dispatcher β) : d.pollMsg.2.conn.canWriteHead = d.conn.canWriteHead := by
  unfold pollMsg takeRequest
  simp only
  split
  · split <;> rfl
  · rfl
  · rfl

theorem startRequest_conn (d : Dispatcher β) (req : Request β) :
    ∃ body, (d.startRequest req).conn = d.conn.writeHead req.head body := by
  unfold startRequest
  split
  · exact ⟨none, rfl⟩
  · exact ⟨some _, rfl⟩

theorem endBody_calms {d : Dispatcher β} (h : d.conn.canWriteBody = true) : Calms H d.conn d.endBody.state.conn := by
  have h₁ : Calms H d.conn d.conn.endBody.2 := .single (.endBody h)
  unfold endBody
  rcases hx : d.conn.endBody with ⟨e | u, c⟩ <;> rw [hx] at h₁ <;> exact h₁

theorem writeFrame_calms {d : Dispatcher β} (body : RequestBody β) (h : d.conn.canWriteBody = true) :
    Calms H d.conn (d.writeFrame body).state.conn := by
  unfold writeFrame
  simp only
  split
  · exact .refl
  · exact .refl
  · split
    · split
      · exact endBody_calms (d := { d with bodyRx := none }) h
      · exact .single (.writeBodyAndEnd h ‹_›)
    · split
      · exact .refl
      · exact .single (.writeBody h ‹_›)
  · exact .single (.writeTrailers _ h)
  · exact .refl
  · exact endBody_calms (d := { d with bodyRx := none }) h

theorem pollReady_conn (d : Dispatcher β) : d.pollReady.2.conn = d.conn := by
  unfold pollReady
  cases d.callback <;> rfl

/-- **What an act does to the connection.** -/
theorem Act.moves (h : Act H d d') : Moves H d.conn d'.conn := by
  cases h with
  | abort _ =>
    rw [← d.pollReady_conn]
    exact (close_quiets { d.pollReady.2 with isAborted := true }).moves
  | noHead fuel _ hr _ _ => exact Conn.pollReadHead_moves fuel hr
  | @response fuel _ head len wants c _ hr _ hx =>
    have h₁ := Conn.pollReadHead_moves (H := H) fuel hr
    rw [hx] at h₁
    exact h₁.trans (respond_moves (d.yield.setConn c) head len wants)
  | @headError fuel _ e c _ hr _ hx =>
    have h₁ := Conn.pollReadHead_moves (H := H) fuel hr
    rw [hx] at h₁
    have h₂ := close_quiets (H := H) ((d.yield.setConn c).recvError e).2
    rw [recvError_conn] at h₂
    exact h₁.trans h₂.moves
  | @headNone fuel _ c _ hr _ hx =>
    have h₁ := Conn.pollReadHead_moves (H := H) fuel hr
    rw [hx] at h₁
    split
    · exact h₁.trans (close_quiets (d.yield.setConn c)).moves
    · exact h₁
  | body _ _ _ => exact (bodyRound_quiets _ _ d).moves
  | keepAlive _ _ _ => exact Conn.pollReadKeepAlive_quiets.moves
  | aside h =>
    cases h with
    | @request d₁ req _ _ hw _ hx =>
      have h₁ := pollMsg_moves (H := H) d
      have h₂ := pollMsg_canWriteHead d
      obtain ⟨body, hb⟩ := startRequest_conn d₁ req
      rw [hx] at h₁ h₂
      rw [hb]
      exact h₁.tail (.writeHead _ _ (h₂.trans hw))
    | noRequest _ _ _ _ hx =>
      have h₁ := pollMsg_moves (H := H) d
      rw [hx] at h₁
      exact h₁.trans (close_quiets _).moves
    | want _ _ _ _ hx =>
      have h₁ := pollMsg_moves (H := H) d
      rw [hx] at h₁
      exact h₁
    | flush => exact Conn.pollFlush_quiets.moves
    | clearBody _ => exact .refl
    | frame _ _ hw => exact (writeFrame_calms _ hw).moves
    | endBody _ _ hw => exact (endBody_calms hw).moves
    | tidy _ => exact .single (.calm (.quiet ⟨rfl, rfl, rfl, rfl, rfl, rfl⟩))
    | woke => exact .single (.note trivial)
    | shutdown => exact .single (.calm .shutdown)

end Moves

/-! ## What each part of a poll leaves alone -/

/-- Nothing has changed but the connection, the response body in hand and what is shared. -/
def BodyOnly (d d' : Dispatcher β) : Prop := d' = { d with conn := d'.conn, bodyTx := d'.bodyTx, shared := d'.shared }

theorem BodyOnly.trans {d₁ d₂ d₃ : Dispatcher β} (h : BodyOnly d₁ d₂) (h' : BodyOnly d₂ d₃) : BodyOnly d₁ d₃ := by
  unfold BodyOnly at *
  rw [h', h]

theorem bodyFor_bodyOnly (d : Dispatcher β) (len : DecodedLength) (wanter : Bool) :
    BodyOnly d (d.bodyFor len wanter).2 := by
  unfold bodyFor openBody
  split
  · rfl
  · cases d.bodyTx <;> rfl

theorem afterSend_bodyOnly {ε : Type} (d : Dispatcher β) (i : ℕ) (x : Except ε Unit × Chan) :
    BodyOnly d (d.afterSend i x) := by
  unfold afterSend abandonBody
  split
  · rfl
  · split <;> rfl

theorem readBody_bodyOnly (fuel i : ℕ) (d : Dispatcher β) : BodyOnly d (d.readBody H fuel i).state := by
  unfold readBody within
  rcases d.conn.pollReadBody H fuel i with ⟨(_ | e | chunk | fields) | _ | _ | _, c⟩
  · rfl
  · rfl
  · exact (show BodyOnly d (d.setConn c).yield from rfl).trans (afterSend_bodyOnly _ _ _)
  · exact (show BodyOnly d (d.setConn c).yield from rfl).trans (afterSend_bodyOnly _ _ _)
  · rfl
  · rfl
  · rfl

theorem bodyRound_bodyOnly (fuel i : ℕ) (d : Dispatcher β) : BodyOnly d (d.bodyRound H fuel i).state := by
  unfold bodyRound
  simp only
  split
  · split
    · have h : BodyOnly d (yield { d with bodyTx := none }) := rfl
      exact h.trans (readBody_bodyOnly fuel i _)
    · unfold within
      rcases Conn.pollDrainOrCloseRead H fuel i _ with ⟨_ | _ | _ | _, c⟩ <;> rfl
    · rfl
  · rfl

/-- Nothing has changed but the connection and the request body in hand. -/
def WriteOnly (d d' : Dispatcher β) : Prop := d' = { d with conn := d'.conn, bodyRx := d'.bodyRx }

theorem endBody_writeOnly (d : Dispatcher β) : WriteOnly d d.endBody.state := by
  unfold endBody
  rcases d.conn.endBody with ⟨e | u, c⟩ <;> rfl

theorem writeFrame_writeOnly (d : Dispatcher β) (body : RequestBody β) : WriteOnly d (d.writeFrame body).state := by
  have h : WriteOnly d ({ d with bodyRx := none }.endBody).state := by
    have := endBody_writeOnly { d with bodyRx := none }
    unfold WriteOnly at *
    rw [this]
  unfold writeFrame
  simp only
  split
  · rfl
  · rfl
  · split
    · split
      · exact h
      · rfl
    · split <;> rfl
  · rfl
  · rfl
  · exact h

theorem endBody_written (d : Dispatcher β) : Conn.BodyWritten d.conn d.endBody.state.conn := by
  have h := d.conn.endBody_written
  unfold endBody
  rcases hx : d.conn.endBody with ⟨e | u, c⟩ <;> rw [hx] at h <;> exact h

theorem writeFrame_written (d : Dispatcher β) (body : RequestBody β) :
    Conn.BodyWritten d.conn (d.writeFrame body).state.conn := by
  unfold writeFrame
  simp only
  split
  · exact .refl _
  · exact .refl _
  · split
    · split
      · exact endBody_written { d with bodyRx := none }
      · exact d.conn.writeBodyAndEnd_written _
    · split
      · exact .refl _
      · exact d.conn.writeBody_written _
  · exact d.conn.writeTrailers_written _
  · exact .refl _
  · exact endBody_written { d with bodyRx := none }

theorem startRequest_writeOnly (d : Dispatcher β) (req : Request β) : WriteOnly d (d.startRequest req) := by
  unfold startRequest
  split <;> rfl

theorem pollMsg_some {req : Request β} (h : d.pollMsg = (.ready (some req), d')) :
    ∃ id, d' = { d with callback := some id, conn := d.conn.note (.took id), shared := d'.shared } := by
  unfold pollMsg takeRequest at h
  simp only at h
  split at h
  · split at h
    · cases h
    · cases h
      exact ⟨_, rfl⟩
  · cases h
  · cases h

theorem pollMsg_none (h : d.pollMsg = (.ready none, d')) :
    d' = { d with rxClosed := d'.rxClosed, shared := d'.shared } := by
  unfold pollMsg takeRequest at h
  simp only at h
  split at h
  · split at h <;> cases h
    rfl
  · cases h
    rfl
  · cases h

theorem pollMsg_pending (h : d.pollMsg = (.pending, d')) :
    ∃ early, d' = { d with conn := d.conn.note (.wanted early), shared := d'.shared } := by
  unfold pollMsg takeRequest at h
  simp only at h
  split at h
  · split at h <;> cases h
  · cases h
  · cases h
    exact ⟨_, rfl⟩

/-- The callback of a request, as the record has it. -/
def delivered (s : Shared β) (id : ℕ) : Ev := .delivered id (s.channel.calls id).closed (s.channel.calls id).head

theorem recvResponse_some (h : d.callback = some id) (head : ResponseHead) (body : Option ℕ) :
    (d.recvResponse head body).2 =
      { d with
        callback := none
        conn := d.conn.note (delivered ({ d with callback := none }.reply id (.response head body)).shared id)
        shared := ({ d with callback := none }.reply id (.response head body)).shared } := by
  have hr := reply_sharedOnly { d with callback := none } id (.response head body)
  unfold recvResponse
  rw [h]
  unfold SharedOnly at hr
  show (reply { d with callback := none } id (.response head body)).note (delivered (reply _ id _).shared id) = _
  rw [hr]
  rfl

theorem respond_some (h : d.callback = some id) (head : ResponseHead) (len : DecodedLength) (wants : Wants) :
    ∃ up, (d.respond head len wants).2 =
      { d with
        callback := none
        conn := { d.conn with state := { d.conn.state with upgrade := up } }.note
          (delivered (d.respond head len wants).2.shared id)
        bodyTx := (d.bodyFor len wants.expect).2.bodyTx
        shared := (d.respond head len wants).2.shared } := by
  have hb := bodyFor_bodyOnly d len wants.expect
  have hc := bodyFor_conn d len wants.expect
  unfold respond
  simp only
  generalize d.bodyFor len wants.expect = y at hb hc ⊢
  obtain ⟨body, d₁⟩ := y
  simp only at hb hc ⊢
  unfold BodyOnly at hb
  have hcb : d₁.callback = some id := by rw [hb]; exact h
  split
  · rw [recvResponse_some (d := d₁.setConn d₁.conn.onUpgrade) hcb]
    refine ⟨true, ?_⟩
    rw [hb, hc]
    rfl
  · rw [recvResponse_some hcb]
    refine ⟨d.conn.state.upgrade, ?_⟩
    rw [hb, hc]

theorem reply_shared (h : d'.shared = d.shared) (id : ℕ) (r : Reply β) :
    (d'.reply id r).shared = (d.reply id r).shared := by
  unfold reply yield setChannel setBody body
  simp only [h]
  rcases r with ⟨head, _ | i⟩ | ⟨e, req⟩
  · rfl
  · cases (d.shared.yield.channel.calls id).closed <;> rfl
  · rfl

/-- **The caller has what it is replied**, or is gone. -/
theorem reply_got (d : Dispatcher β) (id : ℕ) (head : ResponseHead) (body : Option ℕ) :
    let call := (d.reply id (.response head body)).shared.channel.calls id
    call.closed = true ∨ call.head = some head := by
  have hsend : ∀ c : Channel β, ((c.send id (.response head body)).calls id).closed = true ∨
      ((c.send id (.response head body)).calls id).head = some head := by
    intro c
    unfold Channel.send
    split
    · exact .inl ‹_›
    · right
      simp [Channel.setCall, OneShot.head]
  have h := hsend d.yield.shared.channel
  unfold reply
  simp only
  split <;> exact h

theorem respond_shared (h : d.callback = some id) (head : ResponseHead) (len : DecodedLength) (wants : Wants) :
    (d.respond head len wants).2.shared =
      ({ (d.bodyFor len wants.expect).2 with callback := none }.reply id
        (.response head (d.bodyFor len wants.expect).1)).shared := by
  have hb := bodyFor_bodyOnly d len wants.expect
  unfold respond
  simp only
  generalize d.bodyFor len wants.expect = y at hb ⊢
  obtain ⟨body, d₁⟩ := y
  simp only at hb ⊢
  unfold BodyOnly at hb
  have hcb : d₁.callback = some id := by rw [hb]; exact h
  split
  · rw [recvResponse_some (d := d₁.setConn d₁.conn.onUpgrade) hcb]
    show (reply { d₁.setConn d₁.conn.onUpgrade with callback := none } id (.response head body)).shared = _
    refine reply_shared ?_ id _
    rfl
  · rw [recvResponse_some hcb]

theorem respond_got (h : d.callback = some id) (head : ResponseHead) (len : DecodedLength) (wants : Wants) :
    let call := (d.respond head len wants).2.shared.channel.calls id
    call.closed = true ∨ call.head = some head := by
  rw [respond_shared h]
  exact reply_got _ id head _

/-! ## The channel -/

/-- What users, refusals and the taking of requests do not change. -/
structure Stable (P : Channel β → Prop) : Prop where
  act : ∀ (s : Shared β) a, P s.channel → P (s.act a).channel
  refuse : ∀ c id e message, P c → P (c.send id (.error e message))
  recv : ∀ c, P c → P c.pollRecv.2
  tryRecv : ∀ c, P c → P c.tryRecv.2
  close : ∀ c, P c → P c.close

/-- Nobody is there to be taken, and `want` is signalled. -/
structure Asked (d d' : Dispatcher β) : Prop where
  isClosing : d.isClosing = false
  bodyRx : d.bodyRx = none
  canWriteHead : d.conn.canWriteHead = true
  callback : d.callback = none
  pollMsg : d.pollMsg = (.pending, d')

def Responds (d d' : Dispatcher β) : Prop :=
  ∃ id c head len wants, d.callback = some id ∧ d' = ((d.yield.setConn c).respond head len wants).2

namespace Stable

variable {P : Channel β → Prop}

section

variable (hP : Stable P)

include hP

theorem yield (h : P d.shared.channel) : P d.yield.shared.channel :=
  Shared.yield_keeps (P := fun s => P s.channel) hP.act (fun _ _ h => h) d.shared h

theorem reply {id : ℕ} {r : Reply β} (hr : ∀ c, P c → P (c.send id r)) (h : P d.shared.channel) :
    P (d.reply id r).shared.channel := by
  have hy := hr _ (hP.yield h)
  unfold Dispatcher.reply
  simp only
  split <;> exact hy

theorem recvError (e : Error) (h : P d.shared.channel) : P (d.recvError e).2.shared.channel := by
  unfold Dispatcher.recvError
  split
  · exact hP.reply (d := { d with callback := none }) (fun c => hP.refuse c _ _ _) h
  split
  · exact h
  have hc : P (d.yield.setChannel d.yield.shared.channel.close).yield.shared.channel :=
    hP.yield (hP.close _ (hP.yield h))
  have ht := hP.tryRecv _ hc
  simp only
  split
  · rename_i hx
    rw [hx] at ht
    exact hP.reply (d := Dispatcher.setChannel _ _) (fun c => hP.refuse c _ _ _) ht
  · rename_i hx
    rw [hx] at ht
    exact ht

theorem dropBody (i : ℕ) (h : P d.shared.channel) : P (d.dropBody i).shared.channel := hP.yield h

theorem bodyFor (len : DecodedLength) (wanter : Bool) (h : P d.shared.channel) :
    P (d.bodyFor len wanter).2.shared.channel := by
  unfold Dispatcher.bodyFor openBody
  split
  · exact h
  · simp only
    split
    · rename_i i _
      exact hP.dropBody i h
    · exact h

theorem respond {id : ℕ} (hcb : d.callback = some id) (hr : ∀ c r, P c → P (c.send id r))
    (head : ResponseHead) (len : DecodedLength) (wants : Wants) (h : P d.shared.channel) :
    P (d.respond head len wants).2.shared.channel := by
  rw [respond_shared hcb]
  exact hP.reply (d := { (d.bodyFor len wants.expect).2 with callback := none }) (fun c => hr c _)
    (hP.bodyFor len wants.expect h)

theorem failBody (e : Error) (h : P d.shared.channel) : P (d.failBody e).shared.channel := by
  unfold Dispatcher.failBody
  split
  · exact hP.yield (d := sendBodyError _ _ e) (hP.yield h)
  · exact h

theorem afterSend {ε : Type} (i : ℕ) (x : Except ε Unit × Chan) (h : P d.shared.channel) :
    P (d.afterSend i x).shared.channel := by
  unfold Dispatcher.afterSend abandonBody
  split
  · exact h
  · split <;> exact hP.yield h

theorem readBody (fuel i : ℕ) (h : P d.shared.channel) : P (d.readBody H fuel i).state.shared.channel := by
  unfold Dispatcher.readBody within
  rcases d.conn.pollReadBody H fuel i with ⟨(_ | e | chunk | fields) | _ | _ | _, c⟩
  · exact hP.yield h
  · exact hP.yield (d := sendBodyError (d.setConn c) i _) (hP.yield h)
  · exact hP.afterSend i _ (hP.yield h)
  · exact hP.afterSend i _ (hP.yield h)
  · exact h
  · exact h
  · exact hP.yield h

theorem bodyRound (fuel i : ℕ) (h : P d.shared.channel) :
    P (d.bodyRound H fuel i).state.shared.channel := by
  have hy : P { d with bodyTx := none }.yield.shared.channel := hP.yield h
  unfold Dispatcher.bodyRound
  simp only
  split
  · split
    · exact hP.readBody fuel i hy
    · unfold within
      rcases Conn.pollDrainOrCloseRead H fuel i _ with ⟨_ | _ | _ | _, c⟩
      · exact hP.yield (d := Dispatcher.setConn _ c) hy
      · exact hy
      · exact hy
      · exact hy
    · exact hy
  · exact hP.yield h

theorem pollMsg (hw : (∀ c, P c → P c.want) ∨ d.pollMsg.1 ≠ .pending) (h : P d.shared.channel) :
    P d.pollMsg.2.shared.channel := by
  have hr := hP.recv _ (hP.yield h)
  unfold Dispatcher.pollMsg takeRequest at hw ⊢
  simp only at hw ⊢
  split
  · rename_i m c hx
    rw [hx] at hr
    have hy := hP.yield (d := d.yield.setChannel c) hr
    split <;> exact hy
  · rename_i c hx
    rw [hx] at hr
    exact hr
  · rename_i p c hn₁ hn₂ hx
    rw [hx] at hr
    have hy := hP.yield (d := d.yield.setChannel c) hr
    rcases hw with hw | hw
    · exact hw _ hy
    · simp [hx] at hw

/-- **Rule for acts**, but for a `want` and a response. -/
theorem kept (ha : Act H d d') (h : P d.shared.channel) :
    P d'.shared.channel ∨ Asked d d' ∨ Responds d d' := by
  cases ha with
  | abort _ =>
    left
    unfold pollReady
    split
    · exact hP.yield h
    · exact h
  | noHead fuel _ _ _ _ => exact .inl (hP.yield h)
  | @response fuel id head len wants c _ _ hcb _ =>
    exact .inr (.inr ⟨id, c, head, len, wants, hcb, rfl⟩)
  | @headError fuel id e c _ _ _ _ => exact .inl (hP.recvError (d := d.yield.setConn c) e (hP.yield h))
  | headNone _ _ _ _ =>
    left
    split <;> exact hP.yield h
  | body _ _ _ => exact .inl (hP.bodyRound _ _ h)
  | keepAlive _ _ _ => exact .inl h
  | aside ha =>
    cases ha with
    | @request d₁ req _ _ _ _ hx =>
      have hm := hP.pollMsg (d := d) (.inr (by rw [hx]; simp)) h
      rw [hx] at hm
      rw [startRequest_writeOnly d₁ req]
      exact .inl hm
    | noRequest _ _ _ _ hx =>
      have hm := hP.pollMsg (d := d) (.inr (by rw [hx]; simp)) h
      rw [hx] at hm
      exact .inl hm
    | want hc hrx hw hcb hx => exact .inr (.inl ⟨hc, hrx, hw, hcb, hx⟩)
    | flush => exact .inl h
    | clearBody _ => exact .inl h
    | @frame body _ _ _ =>
      rw [writeFrame_writeOnly d body]
      exact .inl h
    | endBody _ _ _ =>
      rw [endBody_writeOnly d]
      exact .inl h
    | tidy _ => exact .inl h
    | woke => exact .inl h
    | shutdown => exact .inl h

end

end Stable

/-! ## Runs -/

theorem Acts.moves (h : Acts H d d') : Conn.Moves H d.conn d'.conn := by
  induction h with
  | refl => exact .refl
  | tail _ hs ih => exact ih.trans hs.moves

theorem Acts.keeps {I : Dispatcher β → Prop} (hact : ∀ d d', Act H d d' → I d → I d') (h : Acts H d d') :
    I d → I d' := by
  intro hI
  induction h with
  | refl => exact hI
  | tail _ hs ih => exact hact _ _ hs ih

theorem failBody_sharedOnly (d : Dispatcher β) (e : Error) :
    SharedOnly { d with bodyTx := none } { d.failBody e with bodyTx := none } := by
  unfold failBody
  cases d.bodyTx <;> rfl

theorem failBody_conn (d : Dispatcher β) (e : Error) : (d.failBody e).conn = d.conn :=
  (failBody_sharedOnly d e).conn

theorem drop_conn (d : Dispatcher β) : d.drop.conn = d.conn := by
  unfold drop
  simp only
  rw [failBody_conn]
  cases d.callback with
  | none => rfl
  | some id => exact reply_conn _ _ _

/-- What is left of the dispatcher after an error. -/
def failed (d : Dispatcher β) (e : Error) : Dispatcher β :=
  ((d.failBody (.newBody (.text "connection error"))).recvError e).2

theorem failed_conn (d : Dispatcher β) (e : Error) : (d.failed e).conn = d.conn := by
  unfold failed
  rw [recvError_conn, failBody_conn]

/-- What can happen to the task: an act of its own or of a user, or its end. -/
inductive Turn (H : Httparse) : Dispatcher β → Dispatcher β → Prop
  | act {d d' : Dispatcher β} : Act H d d' → Turn H d d'
  | user {d : Dispatcher β} (a : Ext β) : Turn H d (d.user a)
  | failed {d : Dispatcher β} (e : Error) : Turn H d (d.failed e)
  | drop {d : Dispatcher β} : Turn H d d.drop

abbrev Turns (H : Httparse) : Dispatcher β → Dispatcher β → Prop := ReflTransGen (Turn H)

theorem Turn.moves (h : Turn H d d') : Conn.Moves H d.conn d'.conn := by
  cases h with
  | act h => exact h.moves
  | user a => exact .refl
  | failed e => rw [failed_conn]
  | drop => rw [drop_conn]

theorem Turns.log (h : Turns H d d') : d.conn.state.log <:+ d'.conn.state.log := by
  induction h with
  | refl => exact List.suffix_rfl
  | tail _ hs ih => exact ih.trans hs.moves.log

/-- **Rule for one poll.** `I` is kept as long as the task runs; `J` is what an error leaves of it. -/
theorem pollCatch_keeps {I J : Dispatcher β → Prop} {fuel : ℕ} {b : Bool} (hI : I (d.pollInner H fuel b).2)
    (hIJ : ∀ d, I d → J d) (hfail : ∀ d e, I d → J (d.failed e)) :
    J (d.pollCatch H fuel b).2 ∧ ((d.pollCatch H fuel b).1 = .pending → I (d.pollCatch H fuel b).2) := by
  unfold pollCatch
  rcases hx : d.pollInner H fuel b with ⟨p, d₁⟩
  rw [hx] at hI
  split
  · rename_i e d₂ heq
    injection heq with _ heq
    subst heq
    have hJ := hfail d₁ e hI
    unfold failed at hJ
    rcases hr : (d₁.failBody (.newBody (.text "connection error"))).recvError e with ⟨e' | u, d₃⟩ <;>
      rw [hr] at hJ <;> exact ⟨hJ, by simp⟩
  · exact ⟨hIJ _ hI, fun _ => hI⟩

end Dispatcher

namespace World

open Dispatcher

variable {β : Type} [LawfulBuf β] {H : Httparse}

/-- **Rule for runs**, of what every poll keeps. -/
theorem run_polls {I J : Dispatcher β → Prop} (hpoll : ∀ d fuel b, I d → I (d.pollInner H fuel b).2)
    (huser : ∀ d a, I d → I (d.user a)) (hIJ : ∀ d, I d → J d) (hfail : ∀ d e, I d → J (d.failed e))
    (huser' : ∀ d a, J d → J (d.user a)) (hdrop : ∀ d, J d → J d.drop) (steps : List (Step β)) :
    ∀ w : World β, J w.task → (w.phase = .running → I w.task) →
      J (w.run H steps).task ∧ ((w.run H steps).phase = .running → I (w.run H steps).task) := by
  induction steps with
  | nil => intro w hJ hI; exact ⟨hJ, hI⟩
  | cons s steps ih =>
    intro w hJ hI
    have key : J (w.step H s).task ∧ ((w.step H s).phase = .running → I (w.step H s).task) := by
      cases s with
      | poll fuel b =>
        simp only [step]
        split
        · rename_i hr
          obtain ⟨h1, h2⟩ := pollCatch_keeps (hpoll _ fuel b (hI hr)) hIJ hfail
          unfold afterPoll
          cases hp' : (w.task.pollCatch H fuel b).1 with
          | ready r => exact ⟨h1, by simp⟩
          | pending => exact ⟨h1, fun _ => h2 hp'⟩
          | busy => exact ⟨h1, by simp⟩
          | panicked => exact ⟨hdrop _ h1, by simp⟩
        · exact ⟨hJ, hI⟩
      | drop =>
        simp only [step]
        split
        · exact ⟨hdrop _ hJ, by simp⟩
        · exact ⟨hJ, hI⟩
      | user a => exact ⟨huser' _ a hJ, fun h => huser _ a (hI h)⟩
    exact ih _ key.1 key.2

/-- **Rule for runs**, of what every act keeps. -/
theorem run_keeps {I J : Dispatcher β → Prop} (hact : ∀ d d', Act H d d' → I d → I d')
    (huser : ∀ d a, I d → I (d.user a)) (hIJ : ∀ d, I d → J d) (hfail : ∀ d e, I d → J (d.failed e))
    (huser' : ∀ d a, J d → J (d.user a)) (hdrop : ∀ d, J d → J d.drop) (steps : List (Step β)) :
    ∀ w : World β, J w.task → (w.phase = .running → I w.task) →
      J (w.run H steps).task ∧ ((w.run H steps).phase = .running → I (w.run H steps).task) :=
  run_polls (fun d fuel b => (pollInner_acts fuel b d).keeps hact) huser hIJ hfail huser' hdrop steps

/-- **Rule for runs of the connection**: what every move keeps holds throughout. -/
theorem run_conn_keeps {P : Conn β → Prop} (hmove : ∀ c c', Conn.Move H c c' → P c → P c') (steps : List (Step β))
    (w : World β) (h : P w.task.conn) : P (w.run H steps).task.conn := by
  refine (run_keeps (I := fun d => P d.conn) (J := fun d => P d.conn) (fun d d' ha => ha.moves.keeps hmove)
    (fun _ _ h => h) (fun _ h => h) (fun d e h => ?_) (fun _ _ h => h) (fun d h => ?_) steps w h fun _ => h).1
  · rw [failed_conn]; exact h
  · rw [drop_conn]; exact h

end World

end Netty
