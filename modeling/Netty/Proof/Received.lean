import Netty.Proof.Dispatch

/-!
# What is received, and what is not

Most acts of the task read nothing of a response: what they do to the channels of the bodies, the users could have
done. They differ only in what they write and in when they close the connection.

* `Chan.Uses`, `Shared.Used`: all that the users can do to the bodies.
* `Conn.Apart`, `Dispatcher.Apart`: nothing of a response was read.
* `Aside.apart`: so it is outside of `poll_read`.
-/

namespace Netty

open Relation

/-! ## The users -/

namespace Chan

/-- What a user can do to a body. -/
inductive Use : Chan → Chan → Prop
  | poll (c : Chan) : Use c c.poll
  | dropReceiver (c : Chan) : Use c c.dropReceiver

abbrev Uses : Chan → Chan → Prop := ReflTransGen Use

theorem Uses.keeps {Q : Chan → Prop} {c c' : Chan} (hpoll : ∀ c, Q c → Q c.poll) (hdrop : ∀ c, Q c → Q c.dropReceiver)
    (h : Uses c c') : Q c → Q c' := by
  intro hc
  induction h with
  | refl => exact hc
  | tail _ hs ih =>
    cases hs with
    | poll => exact hpoll _ ih
    | dropReceiver => exact hdrop _ ih

end Chan

namespace Shared

variable {β : Type} {s s' : Shared β}

/-- **Only users were there**, as far as the bodies tell. -/
structure Used (s s' : Shared β) : Prop where
  bodies : ∀ i, Chan.Uses (s.bodies i) (s'.bodies i)
  nextBody : s'.nextBody = s.nextBody

theorem Used.refl (s : Shared β) : Used s s := ⟨fun _ => .refl, rfl⟩

theorem Used.trans {s'' : Shared β} (h : Used s s') (h' : Used s' s'') : Used s s'' :=
  ⟨fun i => (h.bodies i).trans (h'.bodies i), h'.nextBody.trans h.nextBody⟩

theorem used_of_eq (hb : s'.bodies = s.bodies) (hn : s'.nextBody = s.nextBody) : Used s s' :=
  ⟨fun i => by rw [hb], hn⟩

theorem setBody_self {i : ℕ} (c : Chan) : (s.setBody i c).bodies i = c := if_pos rfl

theorem setBody_ne {i j : ℕ} (c : Chan) (h : j ≠ i) : (s.setBody i c).bodies j = s.bodies j := if_neg h

theorem setBody_used {i : ℕ} {c : Chan} (h : Chan.Use (s.bodies i) c) : Used s (s.setBody i c) := by
  refine ⟨fun j => ?_, rfl⟩
  by_cases hj : j = i
  · rw [hj, setBody_self]
    exact .single h
  · rw [setBody_ne c hj]

theorem act_used (s : Shared β) (a : Ext β) : Used s (s.act a) := by
  cases a with
  | startSend req | finishSend | dropSender | cancel id => exact used_of_eq rfl rfl
  | pollBody i => exact setBody_used (.poll _)
  | dropBody i => exact setBody_used (.dropReceiver _)

theorem yield_used (s : Shared β) : Used s s.yield :=
  yield_keeps (P := Used s) (fun t a h => h.trans (t.act_used a)) (fun _ _ h => h.trans (used_of_eq rfl rfl)) s (.refl s)

end Shared

/-! ## The connection -/

/-- An event that tells nothing of what is received. -/
def Ev.Apart : Ev → Prop
  | .gotHead _ | .decoded _ _ => False
  | _ => True

namespace Conn

variable {β : Type} [LawfulBuf β] {H : Httparse} {c c' : Conn β}

def InBody (c : Conn β) (d : Decoder) : Prop := c.state.reading = .body d ∨ c.state.reading = .continue_ d

/-- **Nothing of a response was read.** -/
structure Apart (c c' : Conn β) : Prop where
  log : Adds Ev.Apart c.state.log c'.state.log
  inBody : ∀ d, c'.InBody d → c.InBody d

namespace Apart

theorem trans {c'' : Conn β} (h : Apart c c') (h' : Apart c' c'') : Apart c c'' :=
  ⟨h.log.trans h'.log, fun d hd => h.inBody d (h'.inBody d hd)⟩

theorem same (hr : c'.state.reading = c.state.reading) (hl : Adds Ev.Apart c.state.log c'.state.log) : Apart c c' :=
  ⟨hl, fun d hd => by unfold InBody at hd; rwa [hr] at hd⟩

theorem refl (c : Conn β) : Apart c c := same rfl (.refl _)

theorem note {ev : Ev} (h : ev.Apart) (c : Conn β) : Apart c (c.note ev) := same rfl (.single ev h _)

end Apart

end Conn

/-! ## The dispatcher -/

namespace Dispatcher

variable {β : Type} [LawfulBuf β] {H : Httparse} {d d' : Dispatcher β}

/-- **Nothing of a response was read**, and the sender that is kept stays. -/
structure Apart (d d' : Dispatcher β) : Prop where
  conn : Conn.Apart d.conn d'.conn
  used : Shared.Used d.shared d'.shared
  bodyTx : d'.bodyTx = d.bodyTx

theorem Apart.trans {d'' : Dispatcher β} (h : Apart d d') (h' : Apart d' d'') : Apart d d'' :=
  ⟨h.conn.trans h'.conn, h.used.trans h'.used, h'.bodyTx.trans h.bodyTx⟩

theorem SharedOnly.apart (h : SharedOnly d d') (hu : Shared.Used d.shared d'.shared) : Apart d d' :=
  ⟨by rw [h.conn]; exact .refl _, hu, by rw [h]⟩

theorem apart_conn {c : Conn β} (h : Conn.Apart d.conn c) : Apart d (d.setConn c) := ⟨h, .refl _, rfl⟩

theorem yield_apart (d : Dispatcher β) : Apart d d.yield := ⟨.refl _, d.shared.yield_used, rfl⟩

theorem user_apart (d : Dispatcher β) (a : Ext β) : Apart d (d.user a) := ⟨.refl _, d.shared.act_used a, rfl⟩

theorem setChannel_apart (d : Dispatcher β) (c : Channel β) : Apart d (d.setChannel c) :=
  ⟨.refl _, Shared.used_of_eq rfl rfl, rfl⟩

theorem reply_used (d : Dispatcher β) (id : ℕ) (r : Reply β) : Shared.Used d.shared (d.reply id r).shared := by
  have hy := d.yield_apart.trans (d.yield.setChannel_apart (d.yield.shared.channel.send id r))
  unfold reply
  simp only
  split
  · exact hy.used.trans (Shared.setBody_used (.dropReceiver _))
  · exact hy.used

theorem reply_apart (d : Dispatcher β) (id : ℕ) (r : Reply β) : Apart d (d.reply id r) :=
  (reply_sharedOnly d id r).apart (reply_used d id r)

theorem reply_callback_apart (d : Dispatcher β) (id : ℕ) (r : Reply β) :
    Apart d ({ d with callback := none }.reply id r) :=
  have hc : Apart d { d with callback := none } := ⟨.refl _, .refl _, rfl⟩
  hc.trans (reply_apart _ id r)

theorem recvError_apart (d : Dispatcher β) (e : Error) : Apart d (d.recvError e).2 := by
  unfold recvError
  cases hcb : d.callback with
  | some id => exact reply_callback_apart d id (.error e none)
  | none =>
    simp only
    split
    · exact ⟨.refl _, .refl _, rfl⟩
    have hc := (d.yield_apart.trans (d.yield.setChannel_apart d.yield.shared.channel.close)).trans (yield_apart _)
    split
    · rename_i m c _
      have hm := (hc.trans (setChannel_apart _ c)).trans
        (reply_apart _ m.1 (.error (Error.newCanceled.with (.kind e.kind)) (some m.2)))
      exact hm
    · rename_i c _
      exact hc.trans (setChannel_apart _ c)

theorem pollReady_apart (d : Dispatcher β) : Apart d d.pollReady.2 := by
  unfold pollReady
  split
  · exact d.yield_apart
  · exact ⟨.refl _, .refl _, rfl⟩

theorem note_apart {ev : Ev} (h : ev.Apart) (d : Dispatcher β) : Apart d (d.note ev) := apart_conn (.note h _)

theorem pollMsg_apart (d : Dispatcher β) : Apart d d.pollMsg.2 := by
  unfold pollMsg takeRequest
  simp only
  split
  · have hy := (d.yield_apart.trans (d.yield.setChannel_apart ‹_›)).trans (yield_apart _)
    split
    · exact hy
    · exact hy.trans ⟨.note (show (Ev.took _).Apart from trivial) _, .refl _, rfl⟩
  · exact (d.yield_apart.trans (d.yield.setChannel_apart ‹_›)).trans ⟨.refl _, .refl _, rfl⟩
  · have hy := (d.yield_apart.trans (d.yield.setChannel_apart ‹_›)).trans (yield_apart _)
    exact hy.trans ((setChannel_apart _ _).trans (note_apart (show (Ev.wanted _).Apart from trivial) _))

end Dispatcher

end Netty
