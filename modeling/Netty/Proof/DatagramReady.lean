import Netty.Proof.Datagram

/-!
# What a session may send

The limit of the transport, the budget of the session and the budget of the connection
are read by three functions of the registry: `maxSize`, `ready` and `trySend`.

* `admission`: the queue checks that `ready` and `trySend` share.
* `ready_eq`, `trySend_eq`: both functions on a session that may send.
* `ready_keeps_promise`: readiness against sending.
-/

namespace Netty.Datagram

open Datagram.State List Option

variable {s : State} {id max size : ℕ} {e : Entry} {payload : Bytes}

/-- The session may send, up to this limit of the transport. -/
structure MaySend (s : State) (id : ℕ) (e : Entry) (max : ℕ) : Prop where
  lookup : s.streams.lookup id = some e
  sendOpen : e.sendOpen = true
  negotiated : s.negotiated = true
  maxSize : s.maxSize = some max

/-! ## The queue checks -/

/-- A packet of this size against the queue of the session and the two budgets. -/
def admission (s : State) (e : Entry) (size : ℕ) : Option (Except SendErrorKind Unit) :=
  if e.outgoing.length = packets then some (.error .full)
  else do
    let room ← checkedSub sessionBytes e.outgoingBytes
    if room < size then some (.error .full)
    else
      let capacity ← checkedSub connectionBytes s.outgoing
      if capacity < size then some (.error .full) else some (.ok ())

theorem admission_ok_iff : admission s e size = some (.ok ()) ↔
    e.outgoing.length ≠ packets ∧ e.outgoingBytes + size ≤ sessionBytes ∧ s.outgoing + size ≤ connectionBytes := by
  unfold admission checkedSub
  by_cases hp : e.outgoing.length = packets
  · simp [hp]
  by_cases hb : e.outgoingBytes ≤ sessionBytes
  · by_cases hc : s.outgoing ≤ connectionBytes
    · simp only [if_neg hp, if_pos hb, if_pos hc, bind_eq_bind, bind_some]
      by_cases h1 : sessionBytes - e.outgoingBytes < size
      · rw [if_pos h1]
        exact ⟨nofun, fun h => absurd h1 (by omega)⟩
      · by_cases h2 : connectionBytes - s.outgoing < size
        · rw [if_neg h1, if_pos h2]
          exact ⟨nofun, fun h => absurd h2 (by omega)⟩
        · rw [if_neg h1, if_neg h2]
          exact ⟨fun _ => ⟨hp, by omega, by omega⟩, fun _ => rfl⟩
    -- the connection is over its budget
    · simp only [if_neg hp, if_pos hb, if_neg hc, bind_eq_bind, bind_some, bind_none]
      exact ⟨fun h => (by split at h <;> cases h), fun h => absurd hc (by omega)⟩
  -- the session is over its budget
  · simp only [if_neg hp, if_neg hb, bind_eq_bind, bind_none]
    exact ⟨nofun, fun h => absurd hb (by omega)⟩

theorem admission_mono {small : ℕ} (h : admission s e size = some (.ok ())) (hs : small ≤ size) :
    admission s e small = some (.ok ()) := by
  rw [admission_ok_iff] at h ⊢
  exact ⟨h.1, by omega, by omega⟩

theorem admission_error {k : SendErrorKind} (h : admission s e size = some (.error k)) : k = .full := by
  unfold admission at h
  split at h
  · cases h; rfl
  cases hr : checkedSub sessionBytes e.outgoingBytes with
  | none => rw [hr] at h; cases h
  | some room =>
    cases hc : checkedSub connectionBytes s.outgoing with
    | none =>
      simp only [hr, hc, bind_eq_bind, bind_some, bind_none] at h
      split at h
      · cases h; rfl
      · cases h
    | some capacity =>
      simp only [hr, hc, bind_eq_bind, bind_some] at h
      split at h
      · cases h; rfl
      · split at h
        · cases h; rfl
        · cases h

/-! ## The three functions on a session that may send -/

theorem maxSize_eq_some_iff {n : ℕ} :
    RequestState.maxSize s id = some n ↔ ∃ e max, MaySend s id e max ∧ n = max - prefixSize id := by
  constructor
  · intro h
    unfold RequestState.maxSize at h
    cases hl : s.streams.lookup id with
    | none => rw [hl] at h; cases h
    | some e =>
      cases hm : s.maxSize with
      | none => simp [hl, hm] at h
      | some max =>
        simp only [hl, hm, bind_eq_bind, bind_some] at h
        split at h
        · cases h
        · rename_i ho
          simp only [Bool.or_eq_true, Bool.not_eq_true', not_or, Bool.not_eq_false] at ho
          cases h
          exact ⟨e, max, ⟨hl, ho.2, ho.1, hm⟩, rfl⟩
  · rintro ⟨e, max, h, rfl⟩
    simp [RequestState.maxSize, h.lookup, h.sendOpen, h.negotiated, h.maxSize]

theorem ready_eq (h : MaySend s id e max) :
    RequestState.ready s id =
      if max < prefixSize id then some (.error .tooLarge) else admission s e (min max sessionBytes) := by
  simp only [RequestState.ready, h.lookup, h.sendOpen, h.negotiated, h.maxSize, if_true, Bool.not_true,
    Bool.false_eq_true, if_false, admission]

theorem trySend_tooLarge (h : MaySend s id e max)
    (hp : max < payload.length + prefixSize id ∨ sessionBytes < payload.length + prefixSize id) :
    s.trySend id payload = some (.error .tooLarge, s) := by
  simp only [trySend, h.lookup, h.sendOpen, h.negotiated, h.maxSize, if_true, Bool.not_true,
    Bool.false_eq_true, if_false, checkedAdd]
  split
  · rfl
  · rename_i size hsize
    split at hsize
    · cases hsize
      rw [if_pos (by simpa using hp)]
    · cases hsize

theorem trySend_eq (h : MaySend s id e max) (hm : payload.length + prefixSize id ≤ max)
    (hs : payload.length + prefixSize id ≤ sessionBytes) :
    (s.trySend id payload).map (fun x => x.1.map fun _ => ()) = admission s e (payload.length + prefixSize id) := by
  have hadd : checkedAdd payload.length (prefixSize id) = some (payload.length + prefixSize id) := by
    refine if_pos (lt_of_le_of_lt hs ?_)
    decide
  simp only [trySend, h.lookup, h.sendOpen, h.negotiated, h.maxSize, if_true, Bool.not_true,
    Bool.false_eq_true, if_false, hadd, admission]
  rw [if_neg (by simp; omega)]
  by_cases hp : e.outgoing.length = packets
  · simp [if_pos hp]; rfl
  rw [if_neg hp, if_neg hp]
  cases hr : checkedSub sessionBytes e.outgoingBytes with
  | none => rfl
  | some room =>
    simp only [bind_eq_bind, bind_some]
    by_cases h1 : room < payload.length + prefixSize id
    · rw [if_pos h1, if_pos h1]; rfl
    rw [if_neg h1, if_neg h1]
    cases hc : checkedSub connectionBytes s.outgoing with
    | none => rfl
    | some capacity =>
      simp only [bind_some]
      by_cases h2 : capacity < payload.length + prefixSize id
      · rw [if_pos h2, if_pos h2]; rfl
      · rw [if_neg h2, if_neg h2]; rfl

theorem trySend_error {k : SendErrorKind} {s' : State} (h : s.trySend id payload = some (.error k, s')) : s' = s := by
  unfold trySend at h
  cases hl : s.streams.lookup id with
  | none => simp only [hl] at h; cases h; rfl
  | some e =>
    simp only [hl] at h
    split at h
    · cases h; rfl
    split at h
    · cases h; rfl
    split at h
    · cases h; rfl
    split at h
    · cases h; rfl
    split at h
    · cases h; rfl
    -- the two budgets, each a subtraction and a comparison
    cases hr : checkedSub sessionBytes e.outgoingBytes with
    | none => rw [hr] at h; cases h
    | some room =>
      simp only [hr, bind_eq_bind, bind_some] at h
      split at h
      · cases h; rfl
      cases hc : checkedSub connectionBytes s.outgoing with
      | none => rw [hc] at h; cases h
      | some capacity =>
        simp only [hc, bind_some] at h
        split at h
        · cases h; rfl
        · cases h

section

variable (h : MaySend s id e max) (hm : payload.length + prefixSize id ≤ max)
  (hs : payload.length + prefixSize id ≤ sessionBytes)

include h hm hs

theorem trySend_ok (ha : admission s e (payload.length + prefixSize id) = some (.ok ())) :
    ∃ packet s', s.trySend id payload = some (.ok packet, s') := by
  have hsend := trySend_eq h hm hs
  rw [ha] at hsend
  obtain ⟨⟨r, s'⟩, hr, hok⟩ := map_eq_some_iff.1 hsend
  cases r with
  | ok packet => exact ⟨packet, s', hr⟩
  | error k => cases hok

theorem trySend_full (ha : admission s e (payload.length + prefixSize id) = some (.error .full)) :
    s.trySend id payload = some (.error .full, s) := by
  have hsend := trySend_eq h hm hs
  rw [ha] at hsend
  obtain ⟨⟨r, s'⟩, hr, hfull⟩ := map_eq_some_iff.1 hsend
  cases r with
  | ok packet => cases hfull
  | error k =>
    cases hfull
    rw [hr, trySend_error hr]

end

theorem trySend_refuses {k : SendErrorKind} {s' : State} (h : MaySend s id e max)
    (hr : s.trySend id payload = some (.error k, s')) : k = .tooLarge ∨ k = .full := by
  by_cases hp : max < payload.length + prefixSize id ∨ sessionBytes < payload.length + prefixSize id
  · rw [trySend_tooLarge h hp] at hr
    cases hr
    exact .inl rfl
  · have hsend := trySend_eq h (le_of_not_gt (not_or.1 hp).1) (le_of_not_gt (not_or.1 hp).2)
    rw [hr] at hsend
    exact .inr (admission_error hsend.symm)

/-- The limit that counts: none before the peer has agreed to datagrams. -/
def usable (s : State) : Option ℕ := if s.negotiated then s.maxSize else none

theorem closed_answers (h : s.sendOpen id = false) : RequestState.ready s id = some (.error .closed) ∧
    RequestState.maxSize s id = none ∧ ∀ payload, s.trySend id payload = some (.error .closed, s) := by
  cases hl : s.streams.lookup id with
  | none => simp [RequestState.ready, RequestState.maxSize, trySend, hl]
  | some e =>
    rw [sendOpen_lookup hl] at h
    simp [RequestState.ready, RequestState.maxSize, trySend, hl, h]

theorem unavailable_answers (h : s.sendOpen id = true) (hu : usable s = none) :
    RequestState.ready s id = some (.error .unavailable) ∧ RequestState.maxSize s id = none ∧
      ∀ payload, s.trySend id payload = some (.error .unavailable, s) := by
  unfold usable at hu
  cases hl : s.streams.lookup id with
  | none => simp [sendOpen, hl] at h
  | some e =>
    rw [sendOpen_lookup hl] at h
    refine ⟨by simp [RequestState.ready, hl, h, hu], ?_, fun payload => by simp [trySend, hl, h, hu]⟩
    cases hn : s.negotiated with
    | false => simp [RequestState.maxSize, hl, hn]
    | true =>
      rw [hn, if_pos rfl] at hu
      simp [RequestState.maxSize, hl, hn, hu]

/-- **A session is closed, without datagrams, or may send.** -/
theorem session_cases (s : State) (id : ℕ) :
    s.sendOpen id = false ∨ (s.sendOpen id = true ∧ usable s = none) ∨ ∃ e max, MaySend s id e max := by
  cases ho : s.sendOpen id with
  | false => exact .inl rfl
  | true =>
    cases hu : usable s with
    | none => exact .inr (.inl ⟨rfl, rfl⟩)
    | some max =>
      unfold usable at hu
      split at hu
      · rename_i hn
        cases hl : s.streams.lookup id with
        | none => simp [sendOpen, hl] at ho
        | some e => exact .inr (.inr ⟨e, max, hl, by rwa [sendOpen_lookup hl] at ho, hn, hu⟩)
      · cases hu

theorem ready_cases {r : Except SendErrorKind Unit} (h : RequestState.ready s id = some r) :
    r = .error .closed ∨ r = .error .unavailable ∨ ∃ e max, MaySend s id e max := by
  obtain hc | ⟨ho, hu⟩ | hm := session_cases s id
  · rw [(closed_answers hc).1] at h
    exact .inl (some.inj h).symm
  · rw [(unavailable_answers ho hu).1] at h
    exact .inr (.inl (some.inj h).symm)
  · exact .inr (.inr hm)

theorem ready_ok (h : RequestState.ready s id = some (.ok ())) : ∃ e max, MaySend s id e max ∧
    prefixSize id ≤ max ∧ admission s e (min max sessionBytes) = some (.ok ()) := by
  obtain hc | hu | ⟨e, max, hm⟩ := ready_cases h
  · cases hc
  · cases hu
  rw [ready_eq hm] at h
  split at h
  · cases h
  · rename_i hp
    exact ⟨e, max, hm, by omega, h⟩

theorem ready_full (h : RequestState.ready s id = some (.error .full)) : ∃ e max, MaySend s id e max ∧
    prefixSize id ≤ max ∧ admission s e (min max sessionBytes) = some (.error .full) := by
  obtain hc | hu | ⟨e, max, hm⟩ := ready_cases h
  · cases hc
  · cases hu
  rw [ready_eq hm] at h
  split at h
  · cases h
  · rename_i hp
    exact ⟨e, max, hm, by omega, h⟩

/-! ## The limits -/

section Limits

variable {s' : State}

structure State.SameLimits (s s' : State) : Prop where
  maxSize : s'.maxSize = s.maxSize
  negotiated : s'.negotiated = s.negotiated

theorem receive_limits {decode : Decode} {packet : Bytes} {upgraded : Bool} {r : Received}
    (h : s.receive decode packet upgraded = some (r, s')) : s.SameLimits s' := by
  unfold State.receive at h
  simp only [bind_eq_bind] at h
  grind [State.SameLimits, State.setEntry, bind_eq_some_iff]

theorem nextFrom_limits {r : Option (ℕ × Bytes)} (ready : List ℕ) (h : s.nextFrom ready = some (r, s')) :
    s.SameLimits s' := by
  induction ready with
  | nil => cases h; exact ⟨rfl, rfl⟩
  | cons id ready ih =>
    unfold State.nextFrom at h
    simp only [bind_eq_bind] at h
    grind [State.SameLimits, State.setEntry, bind_eq_some_iff]

theorem trySend_limits {r : Except SendErrorKind Bytes} {payload : Bytes} (hs : s.Exact)
    (h : s.trySend id payload = some (r, s')) : s.SameLimits s' := by
  obtain ⟨r', s₁, h', he⟩ := State.trySend_effect hs id payload
  rw [h] at h'
  cases h'
  cases r with
  | error k =>
    rw [trySend_error h]
    exact ⟨rfl, rfl⟩
  | ok packet =>
    cases he with
    | same _ hq _ _ => cases hq
    | send _ _ _ _ _ => exact ⟨rfl, rfl⟩

theorem step_limits (hs : s.Exact) (decode : Decode) {op : Op} {out : Out} (h : s.step decode op = some (out, s'))
    (hl : ∀ m, op ≠ .limit m) (hn : ∀ b, op ≠ .negotiated b) : s.SameLimits s' := by
  cases op with
  | register id semantics =>
    cases h
    unfold State.register
    split <;> exact ⟨rfl, rfl⟩
  | negotiated b => exact absurd rfl (hn b)
  | limit m => exact absurd rfl (hl m)
  | receive packet upgraded =>
    obtain ⟨x, hx, heq⟩ := map_eq_some_iff.1 h
    cases heq
    exact receive_limits hx
  | next =>
    obtain ⟨x, hx, heq⟩ := map_eq_some_iff.1 h
    cases heq
    exact nextFrom_limits _ hx
  | trySend id payload =>
    obtain ⟨x, hx, heq⟩ := map_eq_some_iff.1 h
    cases heq
    exact trySend_limits hs hx
  | pollRecv id | closeSend id | closeRecv id | close id =>
    obtain ⟨x, hx, heq⟩ := map_eq_some_iff.1 h
    cases heq
    simp only [State.pollRecv, State.closeSend, State.closeRecv, State.close, bind_eq_bind] at hx
    grind [State.SameLimits, State.setEntry, bind_eq_some_iff]
  | closeAll => cases h; exact ⟨rfl, rfl⟩

end Limits

theorem prefixSize_le (id : ℕ) : prefixSize id ≤ 8 := by
  simp only [prefixSize]
  split_ifs <;> omega

/-! ## The promise -/

/-- The session queues the payload. -/
def Queues (s : State) (id : ℕ) (payload : Bytes) : Prop :=
  ∃ packet s', s.trySend id payload = some (.ok packet, s')

/-- A session that is ready queues what fits its budget, and nothing else. -/
theorem queues_iff (hm : MaySend s id e max) (hpre : prefixSize id ≤ max)
    (ha : admission s e (min max sessionBytes) = some (.ok ())) (hp : payload.length ≤ max - prefixSize id) :
    Queues s id payload ↔ payload.length + prefixSize id ≤ sessionBytes := by
  have hsize : payload.length + prefixSize id ≤ max := by omega
  constructor
  · rintro ⟨packet, s', h⟩
    by_contra hs
    rw [trySend_tooLarge hm (.inr (by omega))] at h
    cases h
  · intro hs
    -- the packet is no larger than the one that `ready` has checked
    exact trySend_ok hm hsize hs (admission_mono ha (Nat.le_min.2 ⟨hsize, hs⟩))

/-- **Readiness keeps its promise**, for payloads that a session can queue at all. In
every state of the registry: when the session is ready, the payloads up to `maxSize` that it
queues are those whose packet fits the budget of a session, so it queues all of them exactly
when the largest one fits; when it is full, some payload up to `maxSize` finds it full; a
payload over `maxSize` is too large. -/
theorem ready_keeps_promise (s : State) (id : ℕ) :
    (RequestState.ready s id = some (.ok ()) → ∃ n, RequestState.maxSize s id = some n ∧
      (∀ payload : Bytes, payload.length ≤ n →
        (Queues s id payload ↔ payload.length + prefixSize id ≤ sessionBytes)) ∧
      ((∀ payload : Bytes, payload.length ≤ n → Queues s id payload) ↔ n + prefixSize id ≤ sessionBytes)) ∧
    (RequestState.ready s id = some (.error .full) → ∃ n, RequestState.maxSize s id = some n ∧
      ∃ payload : Bytes, payload.length ≤ n ∧ s.trySend id payload = some (.error .full, s)) ∧
    (∀ n, RequestState.maxSize s id = some n → ∀ payload : Bytes, n < payload.length →
      s.trySend id payload = some (.error .tooLarge, s)) := by
  refine ⟨fun h => ?_, fun h => ?_, fun n hn payload hp => ?_⟩
  · obtain ⟨e, max, hm, hpre, ha⟩ := ready_ok h
    have hiff := fun (payload : Bytes) (hp : payload.length ≤ max - prefixSize id) => queues_iff hm hpre ha hp
    refine ⟨_, maxSize_eq_some_iff.2 ⟨e, max, hm, rfl⟩, hiff, fun hall => ?_, fun hn payload hp => ?_⟩
    · -- the largest payload decides
      have hlen : (replicate (max - prefixSize id) 0 : Bytes).length = max - prefixSize id :=
        length_replicate
      have hbig := (hiff _ (le_of_eq hlen)).1 (hall _ (le_of_eq hlen))
      rwa [hlen] at hbig
    · exact (hiff payload hp).2 (by omega)
  · obtain ⟨e, max, hm, hpre, ha⟩ := ready_full h
    refine ⟨_, maxSize_eq_some_iff.2 ⟨e, max, hm, rfl⟩, ?_⟩
    -- the payload whose packet has the size that `ready` has checked
    have hfit : prefixSize id ≤ sessionBytes := le_trans (prefixSize_le id) (by decide)
    obtain ⟨payload, hlen⟩ : ∃ payload : Bytes, payload.length + prefixSize id = min max sessionBytes :=
      ⟨replicate (min max sessionBytes - prefixSize id) 0, by rw [length_replicate]; omega⟩
    rw [← hlen] at ha
    exact ⟨payload, by omega, trySend_full hm (by omega) (by omega) ha⟩
  · obtain ⟨e, max, hm, rfl⟩ := maxSize_eq_some_iff.1 hn
    exact trySend_tooLarge hm (.inl (by omega))

/-- A registry with one session, on a transport whose limit is a byte over the budget of a
session. -/
def wideRegistry : State :=
  { (State.new (some (sessionBytes + 1))).register 0 true with negotiated := true }

/-- The session is ready, but the largest payload that it reports is too large. -/
theorem ready_above_session :
    RequestState.ready wideRegistry 0 = some (.ok ()) ∧
    RequestState.maxSize wideRegistry 0 = some sessionBytes ∧
    wideRegistry.trySend 0 (replicate sessionBytes 0) = some (.error .tooLarge, wideRegistry) := by
  have hm : MaySend wideRegistry 0 (Entry.new true) (sessionBytes + 1) := ⟨rfl, rfl, rfl, rfl⟩
  refine ⟨by decide +kernel, by decide +kernel, trySend_tooLarge hm (.inr ?_)⟩
  rw [length_replicate]
  decide

end Netty.Datagram
