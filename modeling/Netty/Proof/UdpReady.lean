import Netty.Proof.DatagramReady
import Netty.Proof.UdpSender

/-!
# What a CONNECT-UDP tunnel may send

A tunnel sends through the datagram registry where it can, and through the capsule buffer
otherwise. Both have their own limits.

* `mode_cases`: the tunnel sends capsules, is closed, or sends datagrams.
* `WriteFails`: the request stream fails within a call.
* `udp_ready_keeps_promise`: readiness, limit and sending of the tunnel.
-/

namespace Netty

open Datagram Capsule

/-! ## The datagram half -/

namespace Native

variable {n : Native} {e : Entry} {max : ℕ} {payload : Bytes}

theorem maxDatagramSize_open (h : MaySend n.registry n.id e max) :
    n.maxDatagramSize = some (max - prefixSize n.id) :=
  maxSize_eq_some_iff.2 ⟨e, max, h, rfl⟩

theorem pollReady_open (h : MaySend n.registry n.id e max) {r : Except SendErrorKind Unit}
    (hp : n.pollReady = some (.ready r)) : r = .error .tooLarge ∨
      (r = .ok () ∧ prefixSize n.id ≤ max ∧ admission n.registry e (min max sessionBytes) = some (.ok ())) := by
  rw [pollReady, ready_eq h] at hp
  split at hp
  · cases hp
    exact .inl rfl
  · rename_i hmax
    obtain ⟨a, ha, hm⟩ := Option.map_eq_some_iff.1 hp
    cases a with
    | ok u =>
      cases hm
      exact .inr ⟨rfl, by omega, ha⟩
    | error k =>
      rw [admission_error ha] at hm
      cases hm

theorem trySendPrefixed_tooLarge (h : MaySend n.registry n.id e max)
    (hp : max - prefixSize n.id < payload.length + 1) : n.trySendPrefixed payload = some (.error .tooLarge, n) := by
  have hlen : max < (0 :: payload).length + prefixSize n.id := by
    rw [List.length_cons]
    omega
  rw [trySendPrefixed, trySend_tooLarge h (.inl hlen)]
  rfl

end Native

/-! ## The capsule half -/

namespace UdpSender

variable {s s' : UdpSender} {payload : Bytes}

/-- The request stream fails between these states: the error is stored, and is the latest
in the record. -/
def WriteFails (s s' : UdpSender) : Prop :=
  s.writeClosed = false ∧ ∃ e, s'.writeError = some e ∧ s'.log.head? = some (.failed e)

theorem pollWriteBuf_fails (hc : s.pollWriteBuf.2.writeClosed = true) (h : s.writeClosed = false) :
    WriteFails s s.pollWriteBuf.2 := by
  have hw := writeLoop_written h (s.writeBuf.length + 1)
  unfold pollWriteBuf at hc ⊢
  rw [if_neg (by rw [h]; exact Bool.false_ne_true)] at hc ⊢
  generalize loop writeRound (s.writeBuf.length + 1) s = r at hc hw ⊢
  obtain ⟨p, t⟩ := r
  rcases p with (e | a) | _ | _ | _
  · exact ⟨h, e, rfl, rfl⟩
  -- without an error the write side stays open
  · exact absurd hc (by simp only [whenReady]; rw [hw.2.1]; exact Bool.false_ne_true)
  · exact absurd hc (by simp only [whenReady]; rw [hw.2]; exact Bool.false_ne_true)
  · exact absurd hc (by simp only [whenReady]; rw [hw.2]; exact Bool.false_ne_true)
  · exact absurd hc (by simp only [whenReady]; rw [hw.2]; exact Bool.false_ne_true)

theorem sendCapsule_accepts (h : s.writeClosed = false) (hb : s.writeBuf.length < writeLimit) :
    (s.sendCapsule payload).1 = .ok () ∨ WriteFails s (s.sendCapsule payload).2 := by
  unfold sendCapsule
  rw [if_neg (by rw [h]; exact Bool.false_ne_true), if_neg (by omega)]
  simp only
  split
  · rename_i hc
    exact .inr (pollWriteBuf_fails hc h)
  · exact .inl rfl

theorem sendCapsule_closed (h : (s.sendCapsule payload).1 = .error .closed) :
    s.writeClosed = true ∨ WriteFails s (s.sendCapsule payload).2 := by
  unfold sendCapsule at h ⊢
  split at h
  · rename_i hc
    exact .inl hc
  rename_i hc
  rw [if_neg hc]
  split at h
  · cases h
  rename_i hb
  rw [if_neg hb]
  simp only at h ⊢
  split at h
  · rename_i hw
    rw [if_pos hw]
    exact .inr (pollWriteBuf_fails hw (by simpa using hc))
  · cases h

end UdpSender

/-! ## Both halves -/

namespace DualSender

variable {t t' : DualSender} {n n' : Native} {payload : Bytes}

/-- Sends are refused before either half is asked. -/
def shut (t : DualSender) : Bool := t.sender.closing || t.http2Reset

/-- There is no datagram half, or it is not available: the tunnel sends capsules. -/
def Capsules (t : DualSender) : Prop := ∀ n, t.native = some n → n.isClosed = some false ∧
  n.maxDatagramSize = none ∧ n.pollReady = some (.ready (.error .unavailable)) ∧
  ∀ payload, n.trySendPrefixed payload = some (.error .unavailable, n)

@[simp] theorem closing_or_reset (t : DualSender) : (t.sender.closing || t.http2Reset) = t.shut := rfl

theorem not_shut (h : t.shut = false) : ¬(t.sender.closing || t.http2Reset) = true := by
  rw [closing_or_reset, h]
  exact Bool.false_ne_true

theorem trySend_long (h : t.shut = false) (hp : maxUdpPayload < payload.length) :
    t.trySend payload = some (.error .tooLarge, t) := by
  obtain ⟨s, native, reset⟩ := t
  have hs : (s.closing || reset) = false := h
  cases native <;> simp [trySend, UdpSender.trySend, hs, hp]

theorem trySend_answer {r : Except SendErrorKind Unit} (h : t.shut = false) (hp : payload.length ≤ maxUdpPayload)
    (hn : t.native = some n) (ha : n.trySendPrefixed payload = some (r, n')) :
    t.trySend payload = some ((t.sender.trySend payload ⟨t.http2Reset, some r⟩).1,
      { t with sender := (t.sender.trySend payload ⟨t.http2Reset, some r⟩).2, native := some n' }) := by
  simp [trySend, hn, h, not_lt.2 hp, ha]

theorem trySend_capsules (h : t.shut = false) (hp : payload.length ≤ maxUdpPayload) (hc : t.Capsules) :
    t.trySend payload = some ((t.sender.sendCapsule payload).1,
      { t with sender := (t.sender.sendCapsule payload).2 }) := by
  cases hn : t.native with
  | none => simp [trySend, hn, UdpSender.trySend, h, not_lt.2 hp]
  | some n =>
    rw [trySend_answer h hp hn ((hc n hn).2.2.2 payload), ← hn]
    simp [UdpSender.trySend, h, not_lt.2 hp]

theorem maxPayloadSize_capsules (h : t.shut = false) (hc : t.Capsules) :
    t.maxPayloadSize = some (if t.sender.writeClosed then 0 else maxUdpPayload) := by
  cases hn : t.native with
  | none => cases hw : t.sender.writeClosed <;> simp [maxPayloadSize, nativeLimit, h, hn, hw]
  | some n =>
    obtain ⟨hclosed, hmax, -⟩ := hc n hn
    cases hw : t.sender.writeClosed <;> simp [maxPayloadSize, nativeLimit, h, hn, hw, hclosed, hmax]

theorem maxPayloadSize_shut (h : t.shut = true) : t.maxPayloadSize = some 0 := by
  simp [maxPayloadSize, h]

variable {e : Entry} {max : ℕ}

theorem maxPayloadSize_open (h : t.shut = false) (hn : t.native = some n) (hm : MaySend n.registry n.id e max)
    (hc : n.isClosed = some false) : t.maxPayloadSize = some (min (max - prefixSize n.id - 1) maxUdpPayload) := by
  simp [maxPayloadSize, nativeLimit, h, hn, hc, Native.maxDatagramSize_open hm]

/-- **The tunnel sends capsules, has a closed datagram half, or sends datagrams.** -/
theorem mode_cases (t : DualSender) : t.Capsules ∨ (∃ n, t.native = some n ∧ n.isClosed = some true ∧
      n.pollReady = some (.ready (.error .closed))) ∨
    ∃ n e max, t.native = some n ∧ MaySend n.registry n.id e max := by
  cases hn : t.native with
  | none => exact .inl fun n h => by rw [hn] at h; cases h
  | some n =>
    obtain hc | ⟨ho, hu⟩ | ⟨e, max, hm⟩ := session_cases n.registry n.id
    · obtain ⟨hready, -, -⟩ := closed_answers hc
      exact .inr (.inl ⟨n, rfl, by simp [Native.isClosed, hready], by simp [Native.pollReady, hready]⟩)
    · obtain ⟨hready, hmax, hsend⟩ := unavailable_answers ho hu
      refine .inl fun m h => ?_
      rw [hn] at h
      cases h
      exact ⟨by simp [Native.isClosed, hready], hmax, by simp [Native.pollReady, hready],
        fun payload => by rw [Native.trySendPrefixed, hsend]; rfl⟩
    · exact .inr (.inr ⟨n, e, max, rfl, hm⟩)

/-! ## Readiness -/

theorem pollSendReady_shut (h : t.shut = true) : t.pollSendReady = some (.ready (.error .closed), t) := by
  obtain ⟨s, native, reset⟩ := t
  have hs : (s.closing || reset) = true := h
  cases native <;> simp [pollSendReady, UdpSender.pollSendReady, hs]

theorem pollSendReady_capsules (h : t.shut = false) (hc : t.Capsules) :
    t.pollSendReady = some (t.sender.capsuleReady.1, { t with sender := t.sender.capsuleReady.2 }) := by
  cases hn : t.native with
  | none => simp [pollSendReady, hn, UdpSender.pollSendReady, h]
  | some n =>
    obtain ⟨-, -, hready, -⟩ := hc n hn
    simp [pollSendReady, hn, UdpSender.pollSendReady, h, hready, whenReady]

/-- A ready sender of capsules accepts every payload, unless the request stream fails. -/
theorem capsules_promise (h : t.shut = false) (hc : t.Capsules)
    (hr : t.pollSendReady = some (.ready (.ok ()), t')) :
    t'.maxPayloadSize = some maxUdpPayload ∧ ∀ payload : Bytes, payload.length ≤ maxUdpPayload →
      ∃ r t'', t'.trySend payload = some (r, t'') ∧ (r = .ok () ∨ UdpSender.WriteFails t'.sender t''.sender) := by
  rw [pollSendReady_capsules h hc, Option.some.injEq, Prod.mk.injEq] at hr
  obtain ⟨hok, rfl⟩ := hr
  -- the buffer is below its limit, and the write side is open
  have hroom : t.sender.capsuleReady.2 = t.sender.pollWriteBuf.2 ∧ t.sender.pollWriteBuf.2.writeClosed = false ∧
      t.sender.pollWriteBuf.2.writeBuf.length < writeLimit := by
    unfold UdpSender.capsuleReady at hok ⊢
    simp only at hok ⊢
    split at hok
    · cases hok
    rename_i hw
    rw [if_neg hw]
    split at hok
    · rename_i hb
      rw [if_pos hb]
      exact ⟨rfl, by simpa using hw, hb⟩
    · cases hok
  obtain ⟨heq, hw, hb⟩ := hroom
  have hshut : shut { t with sender := t.sender.capsuleReady.2 } = false := by
    show (t.sender.capsuleReady.2.closing || t.http2Reset) = false
    rw [heq, (UdpSender.pollWriteBuf_moves _).1.kept.2]
    exact h
  have hmode : Capsules { t with sender := t.sender.capsuleReady.2 } := hc
  refine ⟨?_, fun payload hp => ⟨_, _, trySend_capsules hshut hp hmode, ?_⟩⟩
  · rw [maxPayloadSize_capsules hshut hmode]
    show some (if t.sender.capsuleReady.2.writeClosed then 0 else maxUdpPayload) = _
    rw [heq, hw]
    rfl
  · show _ ∨ UdpSender.WriteFails t.sender.capsuleReady.2 _
    rw [heq]
    exact UdpSender.sendCapsule_accepts hw hb

theorem pollSendReady_answer {p : Poll (Except SendErrorKind Unit)} (h : t.shut = false) (hn : t.native = some n)
    (hp : n.pollReady = some p) :
    t.pollSendReady = some ((t.sender.pollSendReady ⟨t.http2Reset, some p, n.maxDatagramSize == some 0⟩).1,
      { t with sender := (t.sender.pollSendReady ⟨t.http2Reset, some p, n.maxDatagramSize == some 0⟩).2 }) := by
  simp [pollSendReady, hn, h, hp]

section

variable (h : t.shut = false) (hn : t.native = some n) (hm : MaySend n.registry n.id e max)
  (hr : t.pollSendReady = some (.ready (.ok ()), t'))

include h hn hm hr

/-- A ready sender of datagrams has found the registry ready, with a limit that leaves
room for the Context ID. -/
theorem native_ready : n.pollReady = some (.ready (.ok ())) ∧ n.maxDatagramSize ≠ some 0 ∧ t' = t := by
  cases hp : n.pollReady with
  | none => simp [pollSendReady, hn, h, hp] at hr
  | some p =>
    rw [pollSendReady_answer h hn hp, UdpSender.pollSendReady, if_neg (not_shut h)] at hr
    cases p with
    | ready r =>
      obtain rfl | ⟨rfl, -, -⟩ := Native.pollReady_open hm hp
      · cases hr
      by_cases hz : n.maxDatagramSize = some 0
      · rw [hz] at hr
        cases hr
      · have hb : (n.maxDatagramSize == some 0) = false := beq_false_of_ne hz
        rw [hb] at hr
        cases hr
        exact ⟨rfl, hz, rfl⟩
    | pending => cases hr
    | busy => cases hr
    | panicked => cases hr

/-- A ready sender of datagrams accepts every payload up to its limit. -/
theorem native_promise :
    ∃ k, t'.maxPayloadSize = some k ∧ ∀ payload : Bytes, payload.length ≤ k →
      ∃ t'', t'.trySend payload = some (.ok (), t'') := by
  obtain ⟨hready, hzero, rfl⟩ := native_ready h hn hm hr
  obtain hl | ⟨-, hpre, ha⟩ := Native.pollReady_open hm hready
  · cases hl
  have hclosed : n.isClosed = some false := by
    rw [Native.isClosed, ready_eq hm, if_neg (by omega), ha]
    rfl
  refine ⟨_, maxPayloadSize_open h hn hm hclosed, fun payload hp => ?_⟩
  rw [Native.maxDatagramSize_open hm] at hzero
  have hpos : max - prefixSize n.id ≠ 0 := fun hz => hzero (by rw [hz])
  have hudp : payload.length ≤ maxUdpPayload := by omega
  -- a UDP payload is far below the budget of a session
  have hfit : (0 :: payload).length + prefixSize n.id ≤ sessionBytes := by
    have h8 := prefixSize_le n.id
    unfold maxUdpPayload at hudp
    unfold sessionBytes
    rw [List.length_cons]
    omega
  have hmax : (0 :: payload).length + prefixSize n.id ≤ max := by
    rw [List.length_cons]
    omega
  obtain ⟨packet, s', hsend⟩ := trySend_ok hm hmax hfit (admission_mono ha (Nat.le_min.2 ⟨hmax, hfit⟩))
  have hprefixed : n.trySendPrefixed payload = some (.ok (), { n with registry := s' }) := by
    rw [Native.trySendPrefixed, hsend]
    rfl
  have haccept : (t'.sender.trySend payload ⟨t'.http2Reset, some (.ok ())⟩).1 = .ok () := by
    rw [UdpSender.trySend, if_neg (not_shut h), if_neg (not_lt.2 hudp)]
  exact ⟨_, by rw [trySend_answer h hudp hn hprefixed, haccept]⟩

end

/-! ## The three promises -/

/-- Sends do not fail as closed: the tunnel is not shut, its datagram half is not closed,
and the request stream takes capsules if they are what is sent. -/
structure SendOpen (t : DualSender) : Prop where
  shut : t.shut = false
  native : ∀ n, t.native = some n → n.isClosed ≠ some true
  capsules : t.nativeLimit = none → t.sender.writeClosed = false

/-- While sending is open, a payload over the limit is too large. -/
theorem oversized_refused {k : ℕ} (ho : t.SendOpen) (hk : t.maxPayloadSize = some k) (hp : k < payload.length) :
    t.trySend payload = some (.error .tooLarge, t) := by
  have hs := ho.shut
  by_cases hudp : maxUdpPayload < payload.length
  · exact trySend_long ho.shut hudp
  rw [not_lt] at hudp
  obtain hc | ⟨n, hn, hclosed, -⟩ | ⟨n, e, max, hn, hm⟩ := t.mode_cases
  · -- capsules have no other limit
    have hlimit : t.nativeLimit = none := by
      cases hn : t.native with
      | none => simp [nativeLimit, hn]
      | some n => simp [nativeLimit, hn, (hc n hn).2.1]
    rw [maxPayloadSize_capsules ho.shut hc, ho.capsules hlimit] at hk
    cases hk
    exact absurd hp (not_lt.2 hudp)
  · exact absurd hclosed (ho.native n hn)
  · cases hclosed : n.isClosed with
    | none => simp [maxPayloadSize, hs, hn, hclosed] at hk
    | some closed =>
      cases closed with
      | true => exact absurd hclosed (ho.native n hn)
      | false =>
        rw [maxPayloadSize_open ho.shut hn hm hclosed] at hk
        cases hk
        have hover : max - prefixSize n.id < payload.length + 1 := by omega
        have hlarge := Native.trySendPrefixed_tooLarge hm hover
        rw [trySend_answer ho.shut hudp hn hlarge, UdpSender.trySend, if_neg (not_shut hs),
          if_neg (not_lt.2 hudp), ← hn]

/-- A send fails as closed only where the limit is zero, or where the request stream fails
in the call. -/
theorem closed_limit (hp : payload.length ≤ maxUdpPayload) (hc : t.trySend payload = some (.error .closed, t')) :
    t.maxPayloadSize = some 0 ∨ UdpSender.WriteFails t.sender t'.sender := by
  cases hs : t.shut with
  | true => exact .inl (maxPayloadSize_shut hs)
  | false =>
    obtain hmode | ⟨n, hn, hclosed, -⟩ | ⟨n, e, max, hn, hm⟩ := t.mode_cases
    · rw [trySend_capsules hs hp hmode] at hc
      injection hc with hc
      injection hc with hr ht
      subst ht
      refine (UdpSender.sendCapsule_closed hr).imp_left fun hw => ?_
      rw [maxPayloadSize_capsules hs hmode, hw]
      rfl
    · left
      simp [maxPayloadSize, hs, hn, hclosed]
    · -- the registry answers, and not that it is closed
      cases ha : n.trySendPrefixed payload with
      | none => simp [trySend, hn, hs, not_lt.2 hp, ha] at hc
      | some x =>
        obtain ⟨r, n'⟩ := x
        rw [trySend_answer hs hp hn ha, UdpSender.trySend, if_neg (not_shut hs), if_neg (not_lt.2 hp)] at hc
        obtain ⟨⟨r', s'⟩, hsend, heq⟩ := Option.map_eq_some_iff.1 ha
        cases r' with
        | ok packet => cases heq; cases hc
        | error k =>
          cases heq
          obtain rfl | rfl := trySend_refuses hm hsend <;> cases hc

/-- **Send readiness of a CONNECT-UDP tunnel keeps its promise.** In every state of the
sender and of the registry behind it: after a poll that is ready, every payload up to
`maxPayloadSize` is accepted, unless the request stream fails in the call; while sending
is open, every longer payload is too large; and the limit is zero where every send fails
as closed. The last part gives more: one send that fails as closed is enough, if its
payload is not too long for UDP and the request stream does not fail in the call. -/
theorem udp_ready_keeps_promise (t : DualSender) :
    (∀ t', t.pollSendReady = some (.ready (.ok ()), t') → ∃ k, t'.maxPayloadSize = some k ∧
      ∀ payload : Bytes, payload.length ≤ k → ∃ r t'', t'.trySend payload = some (r, t'') ∧
        (r = .ok () ∨ UdpSender.WriteFails t'.sender t''.sender)) ∧
    (∀ k, t.maxPayloadSize = some k → t.SendOpen → ∀ payload : Bytes, k < payload.length →
      t.trySend payload = some (.error .tooLarge, t)) ∧
    ((∀ payload, ∃ t', t.trySend payload = some (.error .closed, t')) → t.maxPayloadSize = some 0) ∧
    (∀ payload t', payload.length ≤ maxUdpPayload → t.trySend payload = some (.error .closed, t') →
      t.maxPayloadSize = some 0 ∨ UdpSender.WriteFails t.sender t'.sender) := by
  refine ⟨fun t' hr => ?_, fun k hk ho payload hp => oversized_refused ho hk hp, fun h => ?_,
    fun payload t' hp hc => closed_limit hp hc⟩
  · cases hs : t.shut with
    | true =>
      rw [pollSendReady_shut hs] at hr
      cases hr
    | false =>
      obtain hmode | ⟨n, hn, -, hready⟩ | ⟨n, e, max, hn, hm⟩ := t.mode_cases
      · obtain ⟨hk, hsend⟩ := capsules_promise hs hmode hr
        exact ⟨_, hk, hsend⟩
      · rw [pollSendReady_answer hs hn hready, UdpSender.pollSendReady, if_neg (not_shut hs)] at hr
        cases hr
      · obtain ⟨k, hk, hsend⟩ := native_promise hs hn hm hr
        refine ⟨k, hk, fun payload hp => ?_⟩
        obtain ⟨t'', hok⟩ := hsend payload hp
        exact ⟨_, t'', hok, .inl rfl⟩
  · -- a payload that is too long for UDP fails as closed only if the sender is shut
    cases hs : t.shut with
    | true => exact maxPayloadSize_shut hs
    | false =>
      obtain ⟨t', hc⟩ := h (List.replicate (maxUdpPayload + 1) 0)
      rw [trySend_long hs (by rw [List.length_replicate]; exact Nat.lt_succ_self _)] at hc
      cases hc

end DualSender

end Netty
