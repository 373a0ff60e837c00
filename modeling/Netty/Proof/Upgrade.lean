import Netty.Proof.KeepAlive
import Netty.Spec.Upgrade

/-!
# Upgrades

What is left of the buffers when a connection is handed over.

* `pollCatch_upgrade`: the one way in which a poll leads to an upgrade.
* `upgrade_flushed`: all that was buffered has been sent, unless the transport has
  refused the last write (`upgrade_unsent`).
-/

namespace Netty

variable {β : Type} [LawfulBuf β]

namespace Dispatcher

variable {H : Httparse} {d d' : Dispatcher β}

theorem finish_upgrade (h : d.finish .upgrade = (.ready (.ok .upgrade), d')) :
    d'.conn.io = d.conn.io ∧ d'.conn.state.log = d.conn.state.log := by
  unfold finish Conn.takeError at h
  cases he : d.conn.state.error with
  | none => rw [he] at h; cases h; exact ⟨rfl, rfl⟩
  | some e => rw [he] at h; cases h

theorem finish_shutdown {r : Dispatched} (h : d.finish .shutdown = (.ready (.ok r), d')) : r = .shutdown := by
  unfold finish Conn.takeError at h
  cases he : d.conn.state.error with
  | none => rw [he] at h; cases h; rfl
  | some e => rw [he] at h; cases h

/-- **The way to an upgrade**: the loop is done and one is pending. The hand-over itself leaves the
buffers alone. -/
theorem pollCatch_upgrade {fuel : ℕ} {b : Bool} (h : d.pollCatch H fuel b = (.ready (.ok .upgrade), d')) :
    ∃ d₁, d.pollLoop H fuel 16 = (.ready (.ok ()), d₁) ∧ d₁.conn.state.upgrade = true ∧ d'.conn.io = d₁.conn.io ∧
      d'.conn.state.log = d₁.conn.state.log := by
  have hinner : d.pollInner H fuel b = (.ready (.ok .upgrade), d') := by
    unfold pollCatch at h
    split at h
    · split at h <;> cases h
    · exact h
  unfold pollInner at hinner
  rcases hl : d.pollLoop H fuel 16 with ⟨(e | u) | _ | _ | _, d₁⟩ <;> rw [hl] at hinner
  · cases hinner
  · refine ⟨d₁, rfl, ?_⟩
    simp only [whenOk_ok] at hinner
    split at hinner
    · split at hinner
      · rename_i hup
        obtain ⟨hio, hlog⟩ := finish_upgrade hinner
        exact ⟨hup, hio, hlog⟩
      · exfalso
        split at hinner
        · rcases hs : pollShutdown (d₁.setConn d₁.conn.pendingUpgrade.2) with ⟨(e | u) | _ | _ | _, d₂⟩ <;>
            rw [hs] at hinner
          · cases hinner
          · cases finish_shutdown hinner
          · cases hinner
          · cases hinner
          · cases hinner
        · cases finish_shutdown hinner
    · cases hinner
  · cases hinner
  · cases hinner
  · cases hinner

end Dispatcher

/-! ## Unsent bytes -/

/-- **An upgrade discards no unsent byte**, unless the transport has refused the latest
write. In every run, when a poll leads to an upgrade and that write was not refused, the
write buffer is empty: all that was buffered of the request has been accepted. -/
theorem upgrade_flushed (H : Httparse) (opts : Http1Options) (io : Transport) (room : Stream' ℕ)
    (users : Stream' (List (Ext β))) (steps : List (Step β)) (fuel : ℕ) (b : Bool) {d : Dispatcher β}
    (hup : ((World.new opts io room users).run H steps).task.pollCatch H fuel b = (.ready (.ok .upgrade), d))
    (hwrite : d.conn.io.io.refused = false) : Buf.remaining d.conn.io.writeBuf = 0 := by
  obtain ⟨d₁, hloop, -, hio, -⟩ := Dispatcher.pollCatch_upgrade hup
  have hplain : ((World.new opts io room users).run H steps).task.conn.io.Plain :=
    World.run_conn_keeps (P := fun c => c.io.Plain) (fun _ _ hm => Conn.Plain.move hm) steps _
      (Conn.configure_plain opts io room)
  have h := (Dispatcher.pollLoop_settled (H := H) fuel 16 _ ⟨hplain, List.suffix_rfl⟩).1 (congrArg Prod.fst hloop)
  rw [hloop] at h
  rw [hio] at hwrite ⊢
  rcases h with h | ⟨hr, -⟩
  · exact h
  · rw [hwrite] at hr
    cases hr

/-! ### An upgrade before the request is sent -/

def switchHead : Bytes := ascii "HTTP/1.1 101 Switching Protocols\r\n\r\n"

def switchParser : Httparse := tableParser [(switchHead, ⟨36, 101, ascii "Switching Protocols", 1, []⟩)]

/-- `POST /` with five bytes. -/
def helloRequest : Request Bytes :=
  ⟨⟨.http11, ⟨.post, ascii "/"⟩, .empty, .none⟩,
    ⟨false, some 5, [.pending, .data (ascii "hello") true] ++ₛ Stream'.const .done⟩⟩

/-- The request is written, and then the response arrives. -/
def switchWorld (writes : Stream' WriteEv) : World Bytes :=
  (World.new defaultOptions
      { promptTransport ([.pending, .pending, .ok switchHead] ++ₛ Stream'.const .pending) with writes := writes }
      (Stream'.const 0) (Stream'.const [])).run switchParser
    [.poll 9 true, .user (.startSend helloRequest), .user .finishSend, .poll 9 true]

theorem upgrade_flushed_hello :
    let x := (switchWorld (Stream'.const (.ok 4096))).task.pollCatch switchParser 9 true
    x.1 = .ready (.ok .upgrade) ∧ Buf.remaining x.2.conn.io.writeBuf = 0 := by
  intro x
  have hx : x.1 = .ready (.ok .upgrade) := by rfl
  exact ⟨hx, upgrade_flushed switchParser defaultOptions _ (Stream'.const 0) (Stream'.const []) _ 9 true
    (Prod.ext hx rfl) (by decide +kernel)⟩

/-- The transport takes the head only. The response is there before the body is sent, and
the connection is handed over with the body in the write buffer. -/
theorem upgrade_unsent :
    let d := (switchWorld (Stream'.cons (.ok 4096) (Stream'.const .pending))).task
    let x := d.pollCatch switchParser 9 true
    x.1 = .ready (.ok .upgrade) ∧ Buf.remaining x.2.conn.io.writeBuf = 5 ∧
      ((UpgradeableConnection.poll switchParser 9 ⟨some d⟩).2.2.map fun u => u.io.inner.sent) =
        some (ascii "POST / HTTP/1.1\r\ncontent-length: 5\r\n\r\n") := by
  refine ⟨by rfl, by decide +kernel, by decide +kernel⟩

end Netty
