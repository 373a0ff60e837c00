import Netty.Proof.DriverWake

/-!
# Blocked senders do not sleep through capacity

* `Full`: an attempt of a sender finds no room.
* `Full.effect`: no operation makes room, except those that notify.
* `Hub.Frees`: a step that ends a `Full` owes a notification.
* `Hub.Alert`: a parked sender is woken, or it is among the waiters and still blocked or
  about to be notified.
* `senders_never_sleep`: that over every interleaving.
-/

namespace Netty.Datagram

open Option Function

variable {s s' : State} {id : ℕ} {e : Entry} {a : Attempt}

/-! ## What is full -/

/-- The attempt finds no room, and leaves the registry as it is. -/
def Full (s : State) (id : ℕ) (a : Attempt) : Prop := Hub.attempt s id a = some (.error .full, s)

/-- The bytes that an attempt asks for, under this limit of the transport. -/
def demand (id max : ℕ) : Attempt → Option ℕ
  | .send payload =>
    if max < payload.length + prefixSize id ∨ sessionBytes < payload.length + prefixSize id then none
    else some (payload.length + prefixSize id)
  | .ready => if max < prefixSize id then none else some (min max sessionBytes)

theorem admission_full_iff (hs : s.Exact) (he : e.Exact) {size : ℕ} :
    admission s e size = some (.error .full) ↔ ¬ (e.outgoing.length ≠ packets ∧
      e.outgoingBytes + size ≤ sessionBytes ∧ s.outgoing + size ≤ connectionBytes) := by
  rw [← admission_ok_iff]
  constructor
  · intro h h'
    rw [h] at h'
    cases h'
  · intro h
    unfold admission at h ⊢
    simp only [checkedSub_of_le he.outgoingRoom, checkedSub_of_le hs.outgoingRoom, bind_eq_bind,
      bind_some] at h ⊢
    repeat' split
    · rfl
    · rfl
    · rfl
    · rename_i h1 h2 h3
      rw [if_neg h1, if_neg h2, if_neg h3] at h
      exact absurd rfl h

theorem attempt_closed (h : s.sendOpen id = false) (a : Attempt) :
    Hub.attempt s id a = some (.error .closed, s) := by
  obtain ⟨hr, -, ht⟩ := closed_answers h
  cases a with
  | send payload => rw [Hub.attempt, ht]; rfl
  | ready => rw [Hub.attempt, hr]; rfl

theorem attempt_unavailable (h : s.sendOpen id = true) (hu : usable s = none) (a : Attempt) :
    Hub.attempt s id a = some (.error .unavailable, s) := by
  obtain ⟨hr, -, ht⟩ := unavailable_answers h hu
  cases a with
  | send payload => rw [Hub.attempt, ht]; rfl
  | ready => rw [Hub.attempt, hr]; rfl

theorem attempt_eq {max : ℕ} (h : MaySend s id e max) (a : Attempt) :
    (Hub.attempt s id a).map Prod.fst = (demand id max a).elim (some (.error .tooLarge)) (admission s e) := by
  cases a with
  | send payload =>
    by_cases hp : max < payload.length + prefixSize id ∨ sessionBytes < payload.length + prefixSize id
    · have hd : demand id max (.send payload) = none := if_pos hp
      rw [hd, Hub.attempt, trySend_tooLarge h hp]
      rfl
    · have hd : demand id max (.send payload) = some (payload.length + prefixSize id) := if_neg hp
      rw [not_or, not_lt, not_lt] at hp
      rw [hd, elim_some, ← trySend_eq h hp.1 hp.2, Hub.attempt, map_map]
      rfl
  | ready =>
    by_cases hp : max < prefixSize id
    · have hd : demand id max .ready = none := if_pos hp
      rw [hd, Hub.attempt, ready_eq h, if_pos hp]
      rfl
    · have hd : demand id max .ready = some (min max sessionBytes) := if_neg hp
      rw [hd, elim_some, Hub.attempt, ready_eq h, if_neg hp, map_map]
      exact map_id_apply

theorem full_iff (hs : s.Exact) : Full s id a ↔ ∃ e max size, MaySend s id e max ∧ demand id max a = some size ∧
    ¬ (e.outgoing.length ≠ packets ∧ e.outgoingBytes + size ≤ sessionBytes ∧
      s.outgoing + size ≤ connectionBytes) := by
  constructor
  · intro h
    unfold Full at h
    obtain hc | ⟨ho, hu⟩ | ⟨e, max, hm⟩ := session_cases s id
    · rw [attempt_closed hc] at h
      cases h
    · rw [attempt_unavailable ho hu] at h
      cases h
    have heq := attempt_eq hm a
    rw [h] at heq
    cases hd : demand id max a with
    | none =>
      rw [hd] at heq
      cases heq
    | some size =>
      rw [hd] at heq
      exact ⟨e, max, size, hm, hd, (admission_full_iff hs (hs.entries id e hm.lookup)).1 heq.symm⟩
  · rintro ⟨e, max, size, hm, hd, hfull⟩
    rw [← admission_full_iff hs (hs.entries id e hm.lookup)] at hfull
    have heq := attempt_eq hm a
    rw [hd] at heq
    obtain ⟨r, s', hr, hcases⟩ := Hub.attempt_cases hs id a
    rw [hr] at heq
    have hrf : some r = some (.error .full) := heq.trans hfull
    cases hrf
    unfold Full
    rw [hr]
    rcases hcases with ⟨-, rfl⟩ | ⟨-, hok, -⟩
    · rfl
    · cases hok

/-! ## What makes room -/

/-- The operation makes room, or ends the session. All of these notify the senders. -/
def Op.frees : Op → Out → Bool
  | .next, .taken (some _) => true
  | .closeSend _, _ | .close _, _ | .closeAll, _ => true
  | _, _ => false

/-- What is queued stays, for the session and in all. -/
structure Holds (s s' : State) (id : ℕ) : Prop where
  entry : ∀ e, s.streams.lookup id = some e → ∃ e', s'.streams.lookup id = some e' ∧ e'.sendOpen = e.sendOpen ∧
    e.outgoing.length ≤ e'.outgoing.length ∧ e.outgoingBytes ≤ e'.outgoingBytes
  total : s.outgoing ≤ s'.outgoing

theorem Holds.setEntry {j : ℕ} {e : Entry} (e' : Entry) (hl : s.streams.lookup j = some e)
    (hs : s'.streams = (s.setEntry j e').streams) (ho : e'.sendOpen = e.sendOpen)
    (hlen : e.outgoing.length ≤ e'.outgoing.length) (hbytes : e.outgoingBytes ≤ e'.outgoingBytes)
    (ht : s.outgoing ≤ s'.outgoing) (id : ℕ) : Holds s s' id := by
  refine ⟨fun f hf => ?_, ht⟩
  rw [hs, s.lookup_setEntry]
  split
  · rename_i hj
    subst hj
    rw [hl] at hf
    cases hf
    exact ⟨e', rfl, ho, hlen, hbytes⟩
  · exact ⟨f, hf, rfl, le_refl _, le_refl _⟩

theorem Effect.holds {op : Op} {out : Out} (he : Effect s op out s') (hfree : op.frees out = false)
    (hfresh : ∀ j semantics, op = .register j semantics → s.streams.lookup j = none) (id : ℕ) : Holds s s' id := by
  cases he with
  | same h _ _ _ =>
    refine ⟨fun e hl => ?_, le_of_eq h.outgoing.symm⟩
    rw [h.streams]
    exact ⟨e, hl, rfl, le_refl _, le_refl _⟩
  | @register j semantics _ =>
    have hn := hfresh j semantics rfl
    refine ⟨fun e hl => ?_, le_refl _⟩
    have hj : id ≠ j := by
      rintro rfl
      rw [hn] at hl
      cases hl
    rw [s.lookup_setEntry, if_neg hj]
    exact ⟨e, hl, rfl, le_refl _, le_refl _⟩
  | @receive packet payload _ _ e hl _ _ _ =>
    refine .setEntry { e with
      incoming := e.incoming ++ [payload]
      incomingBytes := e.incomingBytes + payload.length } hl ?_ ?_ ?_ ?_ ?_ id <;> rfl
  | take _ _ _ => cases hfree
  | @send j e payload packet hl _ _ _ _ =>
    refine .setEntry { e with
      outgoing := e.outgoing ++ [packet]
      outgoingBytes := e.outgoingBytes + packet.length } hl ?_ rfl ?_ (Nat.le_add_right _ _) ?_ id
    · rfl
    · show e.outgoing.length ≤ (e.outgoing ++ [packet]).length
      rw [List.length_append]
      exact Nat.le_add_right _ _
    · exact Nat.le_add_right _ _
  | @pollRecv _ e packet incoming hl _ =>
    refine .setEntry { e with incoming := incoming, incomingBytes := e.incomingBytes - packet.length } hl
      ?_ ?_ ?_ ?_ ?_ id <;> rfl
  | closeSend _ => cases hfree
  | @closeRecv _ e hl =>
    refine .setEntry { e with recvOpen := false, incomingBytes := 0, incoming := [] } hl ?_ ?_ ?_ ?_ ?_ id <;> rfl
  | close _ => cases hfree
  | closeAll => cases hfree

/-- **What is full stays full.** -/
theorem Full.holds (h : Full s id a) (hs : s.Exact) (hs' : s'.Exact) (hl : s.SameLimits s') (hh : Holds s s' id) :
    Full s' id a := by
  obtain ⟨e, max, size, hm, hd, hfull⟩ := (full_iff hs).1 h
  obtain ⟨e', hl', ho, hlen, hbytes⟩ := hh.entry e hm.lookup
  refine (full_iff hs').2 ⟨e', max, size, ⟨hl', by rw [ho, hm.sendOpen], by rw [hl.negotiated, hm.negotiated],
    by rw [hl.maxSize, hm.maxSize]⟩, hd, fun hfits => hfull ?_⟩
  -- a queue that is as long as another with room has room
  have hp := (hs'.entries id e' hl').outgoingPackets
  have ht := hh.total
  exact ⟨by omega, by omega, by omega⟩

/-! ## The steps of a sender -/

namespace Hub

variable {h h' : Hub} {k : ℕ} {x y : Sender}

/-- **All that its own step does to a sender**, in the middle of a poll. -/
inductive Admits (h : Hub) (x : Sender) : Sender → Prop
  | skip : Admits h x x
  | make {a : Attempt} : x.pc = .full a →
      Admits h x { x with waiting := some (x.waiting.getD (.init h.calls)), pc := .made a }
  | again {a : Attempt} : x.pc = .made a → Admits h x ({ x with waiting := none, woken := true }.park a)
  | wait {a : Attempt} : x.pc = .made a → Admits h x { x with waiting := some .waiting, pc := .rechecking a }
  | park {a : Attempt} : x.pc = .rechecking a → Full h.driver.registry x.id a → Admits h x (x.park a)
  | answer {a : Attempt} : x.pc = .rechecking a → Admits h x (x.park a).answer

/-- What the first step of a poll does to it. -/
inductive Polls (x : Sender) (a : Attempt) : Sender → Prop
  | skip : Polls x a x
  | full : Polls x a { x with woken := false, parked := none, pc := .full a }
  | answer : Polls x a { x with woken := false, parked := none, pc := .full a }.answer

theorem full_of_attempt {r : Except SendErrorKind Unit} {s' : State}
    (ha : attempt h.driver.registry (h.senders k).id a = some (r, s')) (hs : h.driver.registry.Exact)
    (hr : r = .error .full) : Full h.driver.registry (h.senders k).id a := by
  subst hr
  obtain ⟨r, s₁, ha', hcases⟩ := attempt_cases hs (h.senders k).id a
  rw [ha] at ha'
  cases ha'
  rcases hcases with ⟨-, rfl⟩ | ⟨-, hok, -⟩
  · exact ha
  · cases hok

theorem admitOn_admits (hs : h.driver.registry.Exact) (k : ℕ) : ∃ h' y, h.admitOn k = some h' ∧ Serves h h' ∧
    h'.senders = update h.senders k y ∧ Admits h (h.senders k) y ∧
      (y.pc ≠ .idle ∨ y.parked ≠ none → h'.driver = h.driver) := by
  have hset : ∀ y, Serves h (h.setSender k y) := fun y => .same rfl rfl rfl rfl
  have hsame : h.senders = update h.senders k (h.senders k) := (update_eq_self k _).symm
  unfold admitOn
  cases hpc : (h.senders k).pc with
  | idle =>
    simp only [hpc]
    exact ⟨h, h.senders k, rfl, .same rfl rfl rfl rfl, hsame, .skip, fun _ => rfl⟩
  | full a =>
    simp only [hpc]
    exact ⟨_, _, rfl, hset _, rfl, .make hpc, fun _ => rfl⟩
  | made a =>
    simp only [hpc]
    split
    · exact ⟨h, h.senders k, rfl, .same rfl rfl rfl rfl, hsame, .skip, fun _ => rfl⟩
    · exact ⟨_, _, rfl, hset _, rfl, .again hpc, fun _ => rfl⟩
    · split
      · exact ⟨_, _, rfl, hset _, rfl, .again hpc, fun _ => rfl⟩
      · exact ⟨_, _, rfl, hset _, rfl, .wait hpc, fun _ => rfl⟩
    · rename_i hw
      refine ⟨_, _, rfl, hset _, rfl, ?_, fun _ => rfl⟩
      have hx : { h.senders k with pc := .rechecking a } =
          { h.senders k with waiting := some .waiting, pc := AdmitPc.rechecking a } := by rw [← hw]
      rw [hx]
      exact .wait hpc
  | rechecking a =>
    simp only [hpc]
    obtain ⟨h', r, s', htry, hserves, ha, -, hsenders, hdriver⟩ := tryAdmit_spec hs k a ((h.senders k).park a)
    refine ⟨h', _, htry, hserves, hsenders, ?_, ?_⟩
    · split
      · rename_i hr
        exact .park hpc (full_of_attempt ha hs hr)
      · exact .answer hpc
    · split
      · rename_i hr
        exact fun _ => hdriver hr
      · exact fun hy => (hy.elim (absurd rfl) (absurd rfl))

theorem poll_polls (hs : h.driver.registry.Exact) (k : ℕ) (a : Attempt) : ∃ h' y, h.poll k a = some h' ∧ Serves h h' ∧
    h'.senders = update h.senders k y ∧ Polls (h.senders k) a y ∧
      (y.pc ≠ .idle ∨ y.parked ≠ none → h'.driver = h.driver) := by
  have hsame : h.senders = update h.senders k (h.senders k) := (update_eq_self k _).symm
  unfold poll
  split
  · obtain ⟨h', r, s', htry, hserves, -, -, hsenders, hdriver⟩ := tryAdmit_spec hs k a
      { h.senders k with woken := false, parked := none, pc := .full a }
    refine ⟨h', _, htry, hserves, hsenders, ?_, ?_⟩
    · split
      · exact .full
      · exact .answer
    · split
      · rename_i hr
        exact fun _ => hdriver hr
      · exact fun hy => (hy.elim (absurd rfl) (absurd rfl))
  all_goals exact ⟨h, h.senders k, rfl, .same rfl rfl rfl rfl, hsame, .skip, fun _ => rfl⟩

/-! ## What owes a notification -/

/-- **A step that ends a `Full` owes a notification**, and none that was owed is forgotten. -/
structure Frees (h h' : Hub) : Prop where
  full : ∀ id a, Full h.driver.registry id a →
    Full h'.driver.registry id a ∨ h'.owedNotifies = h.owedNotifies + 1
  owed : h.owedNotifies ≤ h'.owedNotifies

theorem Frees.same (hd : h'.driver = h.driver) (ho : h'.owedNotifies = h.owedNotifies) : Frees h h' :=
  ⟨fun id a hf => .inl (by rw [hd]; exact hf), le_of_eq ho.symm⟩

variable {op : Op}

theorem Frees.effect {out : Out} (hs : h.driver.registry.Exact) (hs' : h'.driver.registry.Exact)
    (he : Effect h.driver.registry op out h'.driver.registry) (hl : h.driver.registry.SameLimits h'.driver.registry)
    (hfree : op.frees out = false)
    (hfresh : ∀ j semantics, op = .register j semantics → h.driver.registry.streams.lookup j = none)
    (ho : h'.owedNotifies = h.owedNotifies) : Frees h h' :=
  ⟨fun id _ hf => .inl (hf.holds hs hs' hl (he.holds hfree hfresh id)), le_of_eq ho.symm⟩

theorem Effect.sent_limits {packet : Bytes} (he : Effect s op (.sent id (.ok packet)) s') : s.SameLimits s' := by
  cases he with
  | same _ hq _ _ => cases hq
  | send _ _ _ _ _ => exact ⟨rfl, rfl⟩

theorem Effect.taken_limits {x : ℕ × Bytes} (he : Effect s op (.taken (some x)) s') : s.SameLimits s' := by
  cases he with
  | same _ hq _ _ => cases hq
  | take _ _ _ => exact ⟨rfl, rfl⟩

theorem Serves.frees (hserves : Serves h h') (hs : h.driver.registry.Exact) : Frees h h' := by
  cases hserves with
  | same hd _ _ ho => exact .same hd ho
  | @queued j payload packet r he hd _ _ ho =>
    have hr : r = h'.driver.registry := by rw [hd]
    subst hr
    exact .effect hs (hs.effect he nofun) he (Effect.sent_limits he) rfl
      (nofun) ho

variable {decode : Decode} {call : Call}

theorem call_frees {ops : List Op} (hs : h.driver.registry.Exact) (hf : Fresh h.driver.registry (call.op :: ops))
    (hn : h.driver.registry.negotiated = true → ∀ b, call ≠ .negotiated b) (hc : h.call decode call = some h') :
    Frees h h' := by
  obtain ⟨out, r, hstep, he⟩ := State.step_effect decode hs call.op
  rw [Hub.call, hstep] at hc
  cases hc
  cases hnot : call.notifies with
  | true => exact ⟨fun _ _ _ => .inr rfl, Nat.le_add_right _ _⟩
  | false =>
    have hfree : call.op.frees out = false := by
      cases call with
      | closeSend | close | closeAll => cases hnot
      | _ => rfl
    by_cases hneg : ∃ b, call = .negotiated b
    · -- the peer's setting comes before anything can be full
      obtain ⟨b, rfl⟩ := hneg
      refine ⟨fun id a hfull => ?_, le_refl _⟩
      obtain ⟨_, _, _, hm, -, -⟩ := (full_iff hs).1 hfull
      exact absurd rfl (hn hm.negotiated b)
    · refine .effect hs (hs.effect he hf.register) he (step_limits hs decode hstep (fun m hop => ?_) fun b hop => ?_)
        hfree hf.register rfl
      · cases call with
        | _ => cases hop
      · cases call with
        | negotiated b' => exact hneg ⟨b', rfl⟩
        | _ => cases hop

variable {answers : Answers}

theorem driven_frees {d' : Driver} (hs : h.driver.registry.Exact) (hr : Round h.driver answers d') :
    Frees h (h.driven answers d') := by
  refine ⟨fun id a hf => ?_, Nat.le_add_right _ _⟩
  have hnotify : h.driver.notifies answers d'.pending = true →
      (h.driven answers d').owedNotifies = h.owedNotifies + 1 := by
    intro hn
    show h.owedNotifies + (h.driver.notifies answers d'.pending).toNat = _
    rw [hn]
    rfl
  cases hr with
  | start hd =>
    by_cases hm : h.driver.registry.maxSize = answers.maxSize
    · -- the limit is what it was
      have hsame : { h.driver.registry with maxSize := answers.maxSize } = h.driver.registry := by rw [← hm]
      refine .inl ?_
      show Full { h.driver.registry with maxSize := answers.maxSize } id a
      rw [hsame]
      exact hf
    · refine .inr (hnotify ?_)
      rw [Driver.notifies, hd]
      exact decide_eq_true hm
  | receive _ _ he hl =>
    have hexact := hs.effect he nofun
    exact .inl (hf.holds hs hexact hl (he.holds rfl (nofun) id))
  | take hd hp _ =>
    refine .inr (hnotify ?_)
    rw [Driver.notifies, hd, hp]
    rfl
  | _ => exact .inl hf

/-! ## Parked senders -/

/-- **A parked sender is woken, or it is among the waiters and blocked or about to be notified.** -/
structure Alert (h : Hub) (x : Sender) : Prop where
  parked : ∀ a, x.parked = some a → x.woken = true ∨
    (x.waiting = some .waiting ∧ (Full h.driver.registry x.id a ∨ 0 < h.owedNotifies))
  rechecking : ∀ a, x.pc = .rechecking a → x.woken = true ∨ x.waiting = some .waiting
  busy : x.pc ≠ .idle → x.parked = none

theorem Alert.frees (hx : Alert h x) (hf : Frees h h') : Alert h' x := by
  refine ⟨fun a ha => (hx.parked a ha).imp_right fun hw => ⟨hw.1, ?_⟩, hx.rechecking, hx.busy⟩
  have ho := hf.owed
  rcases hw.2 with hfull | hfull
  · rcases hf.full x.id a hfull with h1 | h1
    · exact .inl h1
    · exact .inr (by omega)
  · exact .inr (by omega)

theorem Alert.of_none (hp : x.parked = none) (hr : ∀ a, x.pc ≠ .rechecking a) : Alert h x :=
  ⟨fun a ha => (by rw [hp] at ha; cases ha), fun a ha => absurd ha (hr a), fun _ => hp⟩

theorem Alert.polls {a : Attempt} (hx : Alert h x) (hp : Polls x a y) : Alert h y := by
  cases hp with
  | skip => exact hx
  | full => exact .of_none rfl nofun
  | answer => exact .of_none rfl nofun

theorem Alert.admits (hx : Alert h x) (ha : Admits h x y) : Alert h y := by
  cases ha with
  | skip => exact hx
  | make hpc => exact .of_none (hx.busy (by rw [hpc]; exact nofun)) nofun
  | again _ => exact ⟨fun _ _ => .inl rfl, fun _ _ => .inl rfl, fun hpc => absurd rfl hpc⟩
  | wait hpc =>
    have hn := hx.busy (by rw [hpc]; exact nofun)
    exact ⟨fun a ha => (by rw [show x.parked = some a from ha] at hn; cases hn), fun _ _ => .inr rfl, fun _ => hn⟩
  | @park a hpc hfull =>
    refine ⟨fun b hb => ?_, nofun, fun hpc => absurd rfl hpc⟩
    have hab : a = b := some.inj hb
    subst hab
    exact (hx.rechecking a hpc).imp_right fun hw => ⟨hw, .inl hfull⟩
  | answer _ => exact .of_none rfl nofun

/-- `notify_waiters` wakes the waiters, so nobody waits for what was owed. -/
theorem Alert.notified (hx : Alert h x) : Alert h' x.notify := by
  unfold Sender.notify
  split
  · exact ⟨fun _ _ => .inl rfl, fun _ _ => .inl rfl, hx.busy⟩
  · rename_i hw
    refine ⟨fun a ha => .inl ?_, hx.rechecking, hx.busy⟩
    exact (hx.parked a ha).resolve_right fun h => hw h.1

/-! ## Every interleaving -/

def settings (actions : List Action) : List Bool :=
  actions.filterMap fun
    | .call (.negotiated enabled) => some enabled
    | _ => none

/-- **What every step keeps**, with these actions still to come. -/
structure Inv (h : Hub) (actions : List Action) : Prop where
  tended : h.Tended
  fresh : Fresh h.driver.registry (ops actions)
  once : (settings actions).length ≤ 1
  settled : h.driver.registry.negotiated = true → settings actions = []
  alert : ∀ k, Alert h (h.senders k)

theorem new_inv (maxSize : Option ℕ) (ids : ℕ → ℕ) {actions : List Action} (hreg : (registered (ops actions)).Nodup)
    (hset : (settings actions).length ≤ 1) : (new maxSize ids).Inv actions where
  tended := new_tended maxSize ids
  fresh := ⟨hreg, fun _ _ => rfl⟩
  once := hset
  settled h := by cases h
  alert _ := .of_none rfl nofun

theorem settings_cons {action : Action} (ha : ∀ b, action ≠ .call (.negotiated b)) (actions : List Action) :
    settings (action :: actions) = settings actions := by
  cases action with
  | call call =>
    cases call with
    | negotiated b => exact absurd rfl (ha b)
    | _ => rfl
  | _ => rfl

theorem alert_update {senders : ℕ → Sender} (hall : ∀ j, Alert h (senders j)) (hf : Frees h h') (hy : Alert h y)
    (hs : h'.senders = update senders k y) (j : ℕ) : Alert h' (h'.senders j) := by
  rw [hs]
  by_cases hj : j = k
  · subst hj
    rw [update_self]
    exact hy.frees hf
  · rw [update_of_ne hj]
    exact (hall j).frees hf

theorem Serves.negotiated (hs : Serves h h') : h'.driver.registry.negotiated = h.driver.registry.negotiated := by
  cases hs with
  | same hd _ _ _ => rw [hd]
  | queued he hd _ _ _ =>
    rw [hd]
    exact (Effect.sent_limits he).negotiated

theorem Round.negotiated {d d' : Driver} (hr : Round d answers d') :
    d'.registry.negotiated = d.registry.negotiated := by
  cases hr with
  | receive _ _ _ hl => exact hl.negotiated
  | take _ _ he => exact (Effect.taken_limits he).negotiated
  | _ => rfl

variable {action : Action} {actions : List Action}

theorem Inv.next (hi : h.Inv (action :: actions)) (ha : ∀ b, action ≠ .call (.negotiated b)) (t : h'.Tended)
    (hf : Fresh h'.driver.registry (ops actions))
    (hn : h'.driver.registry.negotiated = h.driver.registry.negotiated) (halert : ∀ k, Alert h' (h'.senders k)) :
    h'.Inv actions := by
  refine ⟨t, hf, ?_, fun hneg => ?_, halert⟩
  · rw [← settings_cons ha]
    exact hi.once
  · rw [← settings_cons ha]
    rw [hn] at hneg
    exact hi.settled hneg

theorem call_inv (decode : Decode) (hi : h.Inv (.call call :: actions)) :
    ∃ h', h.call decode call = some h' ∧ h'.Inv actions ∧ Frees h h' := by
  obtain ⟨h', hc, t, hf⟩ := call_tended decode hi.tended hi.fresh
  have hfrees : Frees h h' := by
    refine call_frees hi.tended.exact hi.fresh (fun hneg b hcall => ?_) hc
    subst hcall
    cases hi.settled hneg
  obtain ⟨out, r, hstep, he⟩ := State.step_effect decode hi.tended.exact call.op
  have hsenders : h'.senders = h.senders ∧ h'.driver.registry = r := by
    rw [Hub.call, hstep] at hc
    cases hc
    exact ⟨rfl, rfl⟩
  have halert : ∀ k, Alert h' (h'.senders k) := by
    rw [hsenders.1]
    exact fun k => (hi.alert k).frees hfrees
  refine ⟨h', hc, ?_, hfrees⟩
  by_cases hneg : ∃ b, call = .negotiated b
  · -- there is no other setting to come
    obtain ⟨b, rfl⟩ := hneg
    have honce : (b :: settings actions).length ≤ 1 := hi.once
    have hnil : settings actions = [] := List.length_eq_zero_iff.1 (Nat.le_zero.1 (Nat.le_of_succ_le_succ honce))
    exact ⟨t, hf, by rw [hnil]; exact Nat.zero_le 1, fun _ => hnil, halert⟩
  · refine hi.next (fun b hb => hneg ⟨b, Action.call.inj hb⟩) t hf ?_ halert
    rw [hsenders.2]
    refine (step_limits hi.tended.exact decode hstep (fun m hop => ?_) fun b hop => ?_).negotiated
    · cases call with
      | _ => cases hop
    · cases call with
      | negotiated b' => exact hneg ⟨b', rfl⟩
      | _ => cases hop

theorem drive_inv (decode : Decode) (hi : h.Inv (.drive answers :: actions)) :
    ∃ h', h.drive decode answers = some h' ∧ h'.Inv actions ∧ Frees h h' := by
  obtain ⟨h', hd, t, hf⟩ := drive_tended decode answers hi.tended hi.fresh
  have hno : ∀ b, Action.drive answers ≠ .call (.negotiated b) := nofun
  cases hp : h.task.phase with
  | polling =>
    obtain ⟨events, d', hdrive, hr⟩ := Driver.drive_round decode hi.tended.exact answers
    rw [drive_polling hp hdrive] at hd
    cases hd
    have hfrees := driven_frees hi.tended.exact hr
    exact ⟨_, drive_polling hp hdrive, hi.next hno t hf (Round.negotiated hr) fun k => (hi.alert k).frees hfrees,
      hfrees⟩
  | entered | unpolled | resting | ended =>
    have hsame : h'.driver = h.driver ∧ h'.owedNotifies = h.owedNotifies ∧ h'.senders = h.senders := by
      rw [drive, hp] at hd
      cases hd
      exact ⟨rfl, rfl, rfl⟩
    have hfrees : Frees h h' := .same hsame.1 hsame.2.1
    refine ⟨h', hd, hi.next hno t hf (by rw [hsame.1]) ?_, hfrees⟩
    rw [hsame.2.2]
    exact fun k => (hi.alert k).frees hfrees

/-- **Every step keeps it**, and only `notify` pays a notification. -/
theorem step_inv (decode : Decode) (hi : h.Inv (action :: actions)) :
    ∃ h', h.step decode action = some h' ∧ h'.Inv actions ∧ (action ≠ .notify → Frees h h') := by
  obtain ⟨h', hstep, t, hf⟩ := step_tended decode action actions hi.tended hi.fresh
  cases action with
  | call call =>
    obtain ⟨h', hc, hi', hfrees⟩ := call_inv decode hi
    exact ⟨h', hc, hi', fun _ => hfrees⟩
  | drive answers =>
    obtain ⟨h', hd, hi', hfrees⟩ := drive_inv decode hi
    exact ⟨h', hd, hi', fun _ => hfrees⟩
  | enter =>
    cases hstep
    have hfrees : Frees h h.enter := .same (enter_driver h) (by unfold enter; split <;> rfl)
    have hsenders : h.enter.senders = h.senders := by unfold enter; split <;> rfl
    refine ⟨_, rfl, hi.next (nofun) t hf (by rw [enter_driver]) ?_, fun _ => hfrees⟩
    rw [hsenders]
    exact fun k => (hi.alert k).frees hfrees
  | wake =>
    cases hstep
    have hfrees : Frees h h.wake := .same (wake_driver h) (by unfold wake; split <;> rfl)
    have hsenders : h.wake.senders = h.senders := by unfold wake; split <;> rfl
    refine ⟨_, rfl, hi.next (nofun) t hf (by rw [wake_driver]) ?_, fun _ => hfrees⟩
    rw [hsenders]
    exact fun k => (hi.alert k).frees hfrees
  | notify =>
    cases hstep
    refine ⟨_, rfl, hi.next (nofun) t hf (by rw [(notify_serves h).1]) ?_, fun h => absurd rfl h⟩
    unfold notify
    split
    · exact hi.alert
    · exact fun k => (hi.alert k).notified
  | poll k a =>
    obtain ⟨h₁, y, hp, hserves, hsenders, hpolls, -⟩ := poll_polls hi.tended.exact k a
    change h.poll k a = some h' at hstep
    rw [hp] at hstep
    cases hstep
    have hfrees := hserves.frees hi.tended.exact
    exact ⟨_, hp, hi.next (nofun) t hf hserves.negotiated
      (alert_update hi.alert hfrees ((hi.alert k).polls hpolls) hsenders), fun _ => hfrees⟩
  | admitOn k =>
    obtain ⟨h₁, y, hp, hserves, hsenders, hadmits, -⟩ := admitOn_admits hi.tended.exact k
    change h.admitOn k = some h' at hstep
    rw [hp] at hstep
    cases hstep
    have hfrees := hserves.frees hi.tended.exact
    exact ⟨_, hp, hi.next (nofun) t hf hserves.negotiated
      (alert_update hi.alert hfrees ((hi.alert k).admits hadmits) hsenders), fun _ => hfrees⟩

theorem senders_call (t : h.Tended) (hs : h.call decode call = some h') : h'.senders = h.senders := by
  obtain ⟨out, r, hr, -⟩ := State.step_effect decode t.exact call.op
  rw [Hub.call, hr] at hs
  cases hs
  rfl

theorem sender_woken_step (t : h.Tended) (ha : ∀ a, action ≠ .poll k a) (hs : h.step decode action = some h')
    (hw : (h.senders k).woken = true) : (h'.senders k).woken = true := by
  cases action with
  | call call =>
    rw [senders_call t hs]
    exact hw
  | enter =>
    cases hs
    unfold enter
    split <;> exact hw
  | drive answers =>
    change h.drive decode answers = some h' at hs
    cases hp : h.task.phase with
    | polling =>
      obtain ⟨events, d', hd, -⟩ := Driver.drive_round decode t.exact answers
      rw [drive_polling hp hd] at hs
      cases hs
      exact hw
    | entered | unpolled | resting | ended =>
      rw [drive, hp] at hs
      cases hs
      exact hw
  | wake =>
    cases hs
    unfold wake
    split <;> exact hw
  | notify =>
    cases hs
    unfold notify
    split
    · exact hw
    · show (h.senders k).notify.woken = true
      unfold Sender.notify
      split
      · rfl
      · exact hw
  | poll j a =>
    obtain ⟨h₁, y, hp, -, hsenders, -, -⟩ := poll_polls t.exact j a
    change h.poll j a = some h' at hs
    rw [hp] at hs
    cases hs
    rw [hsenders, update_of_ne fun hj => ha a (by rw [hj])]
    exact hw
  | admitOn j =>
    obtain ⟨h₁, y, hp, -, hsenders, hadmits, -⟩ := admitOn_admits t.exact j
    change h.admitOn j = some h' at hs
    rw [hp] at hs
    cases hs
    rw [hsenders]
    by_cases hj : k = j
    · subst hj
      rw [update_self]
      cases hadmits with
      | again _ => rfl
      | _ => exact hw
    · rw [update_of_ne hj]
      exact hw

end Hub

/-- **Blocked senders do not sleep through capacity**, for any number of senders and in any interleaving.
A sender whose last poll has returned `Pending` is woken, or it is among the waiters and its attempt is
still `Full` or a notification is owed. A step that makes an attempt no longer `Full` owes one. A
notification wakes all waiters, and they stay woken until they are polled. A poll that goes on or
returns `Pending` leaves the registry as it is. -/
theorem senders_never_sleep (decode : Decode) (maxSize : Option ℕ) (ids : ℕ → ℕ) (actions : List Hub.Action)
    (action : Hub.Action) (hreg : (registered (Hub.ops (actions ++ [action]))).Nodup)
    (hset : (Hub.settings (actions ++ [action])).length ≤ 1) :
    ∃ h h', (Hub.new maxSize ids).run decode actions = some h ∧ h.step decode action = some h' ∧
      (∀ k a, (h.senders k).parked = some a → (h.senders k).woken = true ∨
        ((h.senders k).waiting = some .waiting ∧
          (Full h.driver.registry (h.senders k).id a ∨ 0 < h.owedNotifies))) ∧
      (∀ id a, Full h.driver.registry id a → ¬ Full h'.driver.registry id a →
        h'.owedNotifies = h.owedNotifies + 1) ∧
      (action = .notify → 0 < h.owedNotifies → ∀ k, (h.senders k).waiting = some .waiting →
        (h'.senders k).woken = true) ∧
      (∀ k, (∀ a, action ≠ .poll k a) → (h.senders k).woken = true → (h'.senders k).woken = true) ∧
      ∀ k, action = .admitOn k ∨ (∃ a, action = .poll k a) →
        (h'.senders k).pc ≠ .idle ∨ (h'.senders k).parked ≠ none → h'.driver = h.driver := by
  obtain ⟨h, hrun, hi⟩ := Hub.run_ind (P := fun h as => h.Inv (as ++ [action]))
    (fun h a as hi => by
      obtain ⟨h', hs, hi', -⟩ := Hub.step_inv decode hi
      exact ⟨h', hs, hi'⟩) actions (Hub.new_inv maxSize ids hreg hset)
  obtain ⟨h', hstep, -, hfrees⟩ := Hub.step_inv decode hi
  refine ⟨h, h', hrun, hstep, fun k => (hi.alert k).parked, fun id a hf hnf => ?_, ?_, fun k ha hw => ?_,
    fun k ha hy => ?_⟩
  · by_cases hn : action = .notify
    · -- a notification leaves the registry as it is
      subst hn
      cases hstep
      rw [(Hub.notify_serves h).1] at hnf
      exact absurd hf hnf
    · exact ((hfrees hn).full id a hf).resolve_left hnf
  · rintro rfl hpos k hw
    cases hstep
    unfold Hub.notify
    rw [if_neg (by omega)]
    show (h.senders k).notify.woken = true
    unfold Sender.notify
    rw [if_pos hw]
  · exact Hub.sender_woken_step hi.tended ha hstep hw
  · rcases ha with rfl | ⟨a, rfl⟩
    · obtain ⟨h₁, y, hp, -, hsenders, -, hdriver⟩ := Hub.admitOn_admits hi.tended.exact k
      change h.admitOn k = some h' at hstep
      rw [hp] at hstep
      cases hstep
      rw [hsenders, update_self] at hy
      exact hdriver hy
    · obtain ⟨h₁, y, hp, -, hsenders, -, hdriver⟩ := Hub.poll_polls hi.tended.exact k a
      change h.poll k a = some h' at hstep
      rw [hp] at hstep
      cases hstep
      rw [hsenders, update_self] at hy
      exact hdriver hy

theorem full_ready_iff : Full s id .ready ↔ RequestState.ready s id = some (.error .full) := by
  unfold Full Hub.attempt
  rw [map_eq_some_iff]
  constructor
  · rintro ⟨r, hr, heq⟩
    rw [hr, (Prod.mk.inj heq).1]
  · exact fun hr => ⟨_, hr, rfl⟩

/-- A sender waits for more room than one queued packet leaves. -/
def parkedActions : List Hub.Action :=
  [.call (.register 0 true), .call (.negotiated true), .call (.trySend 0 [1]), .poll 0 .ready, .admitOn 0, .admitOn 0,
    .admitOn 0]

/-- Its session is closed while it waits. -/
theorem senders_never_sleep_parked :
    ∃ h h', (Hub.new (some sessionBytes) fun k => k).run (fun _ => none) parkedActions = some h ∧
      (h.senders 0).parked = some .ready ∧ h.step (fun _ => none) (.call (.closeSend 0)) = some h' ∧
      h'.owedNotifies = h.owedNotifies + 1 := by
  obtain ⟨h, h', hrun, hstep, -, hfree, -⟩ := senders_never_sleep (fun _ => none) (some sessionBytes) (fun k => k)
    parkedActions (.call (.closeSend 0)) (by decide) (by decide)
  have hparked : ((Hub.new (some sessionBytes) fun k => k).run (fun _ => none) parkedActions).map
      (fun h => ((h.senders 0).parked, RequestState.ready h.driver.registry 0)) =
        some (some .ready, some (.error .full)) := by decide
  have hclosed : ((Hub.new (some sessionBytes) fun k => k).run (fun _ => none) parkedActions).bind
      (fun h => (h.step (fun _ => none) (.call (.closeSend 0))).map fun h => RequestState.ready h.driver.registry 0) =
        some (some (.error .closed)) := by decide
  rw [hrun] at hparked hclosed
  simp only [map_some, some.injEq, Prod.mk.injEq] at hparked
  rw [bind_some, hstep] at hclosed
  refine ⟨h, h', hrun, hparked.1, hstep, hfree 0 .ready (full_ready_iff.2 hparked.2) ?_⟩
  have hready : RequestState.ready h'.driver.registry 0 = some (.error .closed) := some.inj hclosed
  rw [full_ready_iff, hready]
  exact nofun

end Netty.Datagram
