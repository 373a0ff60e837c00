import Netty.Proof.DatagramReady
import Netty.Proof.Driver
import Netty.Spec.DatagramHub

/-!
# The datagram driver does not stall

* `Round`: all that one step of `Driver::poll` can do.
* `Hub.Serves`: what the step of a sender does to the driver.
* `Hub.Tended`: while the driver rests with work left, its task is woken or about to be.
* `driver_never_stalls`: that over every interleaving.
-/

namespace Netty.Datagram

open Option

/-! ## One step of the poll -/

/-- **All that a step of the driver can do**, if the accounts of the registry are exact. -/
inductive Round (d : Driver) (answers : Answers) : Driver → Prop
  | start : d.pc = .idle →
      Round d answers { d with registry := { d.registry with maxSize := answers.maxSize }, pc := .receiving 0 }
  | quiet {index : ℕ} : d.pc = .receiving index → answers.recv = .pending →
      Round d answers { d with pc := .taking 0 }
  | receive {index : ℕ} {packet : Bytes} {upgraded : Bool} {out : Out} {r : State} : d.pc = .receiving index →
      answers.recv = .packet packet upgraded → Effect d.registry (.receive packet upgraded) out r →
      d.registry.SameLimits r →
      Round d answers { d with registry := r, pc := Driver.nextReceive index }
  | finish : d.pc ≠ .idle → Round d answers { d with pc := .finished }
  | keep {index id : ℕ} {packet : Bytes} : d.pc = .taking index → d.pending = some (id, packet) →
      Round d answers { d with pc := .checking index id packet }
  | take {index id : ℕ} {packet : Bytes} {r : State} : d.pc = .taking index → d.pending = none →
      Effect d.registry .next (.taken (some (id, packet))) r →
      Round d answers { d with registry := r, pending := some (id, packet), pc := .checking index id packet }
  | empty {index : ℕ} : d.pc = .taking index → d.pending = none → d.registry.ready = [] →
      Round d answers { d with pc := .idle }
  | pass {index id : ℕ} {packet : Bytes} : d.pc = .checking index id packet → d.registry.sendOpen id = true →
      Round d answers { d with pc := .offering index id packet }
  | drop {index id : ℕ} {packet : Bytes} : d.pc = .checking index id packet → d.registry.sendOpen id = false →
      Round d answers { d with pending := none, pc := Driver.nextTake index }
  | busy {index id : ℕ} {packet : Bytes} : d.pc = .offering index id packet → answers.send = .pending →
      Round d answers { d with pc := .idle }
  | settle {index id : ℕ} {packet : Bytes} : d.pc = .offering index id packet →
      answers.send = .accepted ∨ answers.send = .rejected →
      Round d answers { d with pending := none, pc := Driver.nextTake index }

section Driver

variable {d d' : Driver} {answers : Answers} {s s' : State}

theorem State.receive_malformed {decode : Decode} {packet : Bytes} {upgraded : Bool}
    (h : s.receive decode packet upgraded = some (.malformed, s')) : s' = s := by
  unfold State.receive at h
  cases hd : decode packet with
  | none =>
    rw [hd] at h
    injection h with h
    injection h with _ h
    exact h.symm
  | some x =>
    rw [hd] at h
    simp only [bind_eq_bind, bind_eq_some_iff] at h
    obtain ⟨capacity, _, h⟩ := h
    repeat' split at h
    all_goals simp only [some.injEq, Prod.mk.injEq, reduceCtorEq, false_and, bind_eq_some_iff] at h
    obtain ⟨room, _, h⟩ := h
    split at h <;> simp only [some.injEq, Prod.mk.injEq, reduceCtorEq, false_and] at h

theorem State.nextFrom_none (ready : List ℕ) (h : s.nextFrom ready = some (none, s')) :
    s' = { s with ready := [] } := by
  induction ready with
  | nil =>
    injection h with h
    injection h with _ h
    exact h.symm
  | cons id ready ih =>
    unfold State.nextFrom at h
    split at h
    · exact ih h
    split at h
    · exact ih h
    simp only [bind_eq_bind, bind_eq_some_iff, some.injEq, Prod.mk.injEq, reduceCtorEq, false_and,
      and_false, exists_false] at h

theorem State.next_none (h : s.next = some (none, s')) (he : Effect s .next (.taken none) s') :
    s.ready = [] ∧ s' = s := by
  have hs := State.nextFrom_none _ h
  have hr : s.ready = [] := by
    cases he with
    | same hsame _ _ _ =>
      rw [← hsame.ready, hs]
  refine ⟨hr, ?_⟩
  rw [hs, ← hr]

theorem Driver.drive_round (decode : Decode) (h : d.registry.Exact) (answers : Answers) :
    ∃ events d', d.drive decode answers = some (events, d') ∧ Round d answers d' := by
  rw [Driver.drive]
  cases hpc : d.pc with
  | finished =>
    have hd : d = { d with pc := .finished } := by rw [← hpc]
    refine ⟨[], d, rfl, ?_⟩
    rw [hd]
    exact .finish fun h => (by cases h)
  | idle => exact ⟨_, _, rfl, .start hpc⟩
  | receiving index =>
    have hne : d.pc ≠ .idle := fun h => (by rw [hpc] at h; cases h)
    cases ha : answers.recv with
    | pending => exact ⟨_, _, rfl, .quiet hpc ha⟩
    | ended | lost => exact ⟨_, _, rfl, .finish hne⟩
    | packet packet upgraded =>
      obtain ⟨r, s', hs, he⟩ := State.receive_effect decode h packet upgraded
      simp only [hs, bind_eq_bind, bind_some]
      refine ⟨_, _, rfl, ?_⟩
      split
      · rename_i hr
        subst hr
        rw [State.receive_malformed hs]
        exact .finish hne
      · exact .receive hpc ha he (receive_limits hs)
  | taking index =>
    cases hp : d.pending with
    | some x =>
      obtain ⟨id, packet⟩ := x
      simp only [bind_eq_bind, bind_some, hp]
      exact ⟨[], { d with pc := .checking index id packet }, by rw [hp], .keep hpc hp⟩
    | none =>
      obtain ⟨x, r, hs, he⟩ := State.next_effect h
      cases x with
      | none =>
        obtain ⟨hr, rfl⟩ := State.next_none hs he
        simp only [hs, map_some, bind_eq_bind, bind_some]
        refine ⟨[], { d with pc := .idle }, ?_, .empty hpc hp hr⟩
        rw [← hp]
      | some y =>
        simp only [hs, map_some, bind_eq_bind, bind_some]
        exact ⟨_, _, rfl, .take hpc hp he⟩
  | checking index id packet =>
    cases ho : d.registry.sendOpen id with
    | true => exact ⟨_, _, if_pos ho, .pass hpc ho⟩
    | false => exact ⟨_, _, if_neg (Bool.eq_false_iff.1 ho), .drop hpc ho⟩
  | offering index id packet =>
    cases ha : answers.send with
    | pending => exact ⟨_, _, rfl, .busy hpc ha⟩
    | lost => exact ⟨_, _, rfl, .finish fun h => (by rw [hpc] at h; cases h)⟩
    | accepted => exact ⟨_, _, rfl, .settle hpc (.inl ha)⟩
    | rejected => exact ⟨_, _, rfl, .settle hpc (.inr ha)⟩

theorem ready_total (h : s.Exact) (id : ℕ) : ∃ r, RequestState.ready s id = some r := by
  unfold RequestState.ready
  cases hl : s.streams.lookup id with
  | none => exact ⟨_, rfl⟩
  | some e =>
    have he := h.entries id e hl
    simp only [checkedSub_of_le he.outgoingRoom, checkedSub_of_le h.outgoingRoom, bind_eq_bind, bind_some]
    repeat' split
    all_goals exact ⟨_, rfl⟩

theorem Effect.ready_nil {op : Op} {out : Out} (he : Effect s op out s') (hr : s.ready = [])
    (hs : ∀ id packet, out ≠ .sent id (.ok packet)) : s'.ready = [] := by
  cases he with
  | same h _ _ _ => rw [h.ready, hr]
  | register _ => exact hr
  | receive _ _ _ _ => exact hr
  | take h _ _ =>
    rw [hr] at h
    cases h
  | send _ _ _ _ _ => exact absurd rfl (hs _ _)
  | pollRecv _ _ => exact hr
  | closeSend _ => exact congrArg (List.filter _) hr
  | closeRecv _ => exact hr
  | close _ => exact congrArg (List.filter _) hr
  | closeAll => rfl

theorem Round.exact (hr : Round d answers d') (h : d.registry.Exact) : d'.registry.Exact := by
  cases hr with
  | start _ => exact h.effect (State.limit_effect _ _) nofun
  | receive _ _ he _ => exact h.effect he nofun
  | take _ _ he => exact h.effect he nofun
  | _ => exact h

theorem Fresh.step {op : Op} {ops : List Op} {out : Out} (h : Fresh s ops) (he : Effect s op out s')
    (hop : op.registers = none) : Fresh s' ops := by
  have hsame : registered (op :: ops) = registered ops := List.filterMap_cons_none hop
  have hf : Fresh s (op :: ops) := by
    refine ⟨?_, ?_⟩ <;> rw [hsame]
    · exact h.nodup
    · exact h.unknown
  exact hf.effect he

theorem Round.fresh {ops : List Op} (hr : Round d answers d') (h : Fresh d.registry ops) : Fresh d'.registry ops := by
  cases hr with
  | start _ => exact h.step (State.limit_effect _ _) rfl
  | receive _ _ he _ => exact h.step he rfl
  | take _ _ he => exact h.step he rfl
  | _ => exact h

end Driver

/-! ## Steps of the hub -/

def Pc.sends : Pc → Bool
  | .taking _ | .checking _ _ _ | .offering _ _ _ => true
  | _ => false

namespace Hub

variable {h h' : Hub} {d' : Driver} {answers : Answers} {decode : Decode}

def driven (h : Hub) (answers : Answers) (d' : Driver) : Hub :=
  let task := { h.task with
    phase := phaseOf d'.pc
    recvPending := h.task.recvPending || h.driver.recvPending answers
    sendPending := h.task.sendPending || h.driver.sendPending answers }
  { h with driver := d', task := task.wakeSelf (h.driver.wakesSelf answers d'.pc) }.owe false
    (h.driver.notifies answers d'.pending)

theorem drive_polling {events : List Event} (hp : h.task.phase = .polling)
    (hd : h.driver.drive decode answers = some (events, d')) : h.drive decode answers = some (h.driven answers d') := by
  rw [drive, hp]
  simp only [hd, bind_eq_bind, bind_some]
  rfl

/-- What the driver sees of the step of a sender: a packet that was queued, or nothing. -/
inductive Serves (h h' : Hub) : Prop
  | same : h'.driver = h.driver → h'.task = h.task → h'.owedWakes = h.owedWakes → h'.owedNotifies = h.owedNotifies →
      Serves h h'
  | queued {id : ℕ} {payload packet : Bytes} {r : State} :
      Effect h.driver.registry (.trySend id payload) (.sent id (.ok packet)) r →
      h'.driver = { h.driver with registry := r } → h'.task = h.task → h'.owedWakes = h.owedWakes + 1 →
      h'.owedNotifies = h.owedNotifies → Serves h h'

theorem attempt_cases {s : State} (hs : s.Exact) (id : ℕ) (a : Attempt) :
    ∃ r s', attempt s id a = some (r, s') ∧ ((a.wakes r = false ∧ s' = s) ∨
      (a.wakes r = true ∧ r = .ok () ∧
        ∃ payload packet, Effect s (.trySend id payload) (.sent id (.ok packet)) s')) := by
  cases a with
  | send payload =>
    obtain ⟨r, s', hr, he⟩ := State.trySend_effect hs id payload
    refine ⟨r.map fun _ => (), s', by rw [attempt, hr]; rfl, ?_⟩
    cases r with
    | error k => exact .inl ⟨rfl, trySend_error hr⟩
    | ok packet => exact .inr ⟨rfl, rfl, payload, packet, he⟩
  | ready =>
    obtain ⟨r, hr⟩ := ready_total hs id
    exact ⟨r, s, by rw [attempt, hr]; rfl, .inl ⟨rfl, rfl⟩⟩

theorem tryAdmit_spec (hs : h.driver.registry.Exact) (k : ℕ) (a : Attempt) (full : Sender) :
    ∃ h' r s', h.tryAdmit k a full = some h' ∧ Serves h h' ∧
      attempt h.driver.registry (h.senders k).id a = some (r, s') ∧ h'.calls = h.calls ∧
      h'.senders = Function.update h.senders k (if r = .error .full then full else full.answer) ∧
      (r = .error .full → h'.driver = h.driver) := by
  obtain ⟨r, s', ha, hcases⟩ := attempt_cases hs (h.senders k).id a
  have htry : h.tryAdmit k a full = some (({ h with driver := { h.driver with registry := s' } }.owe (a.wakes r)
      false).setSender k (if r = Except.error SendErrorKind.full then full else full.answer)) := by
    rw [tryAdmit, ha]
    rfl
  refine ⟨_, r, s', htry, ?_, ha, rfl, rfl, ?_⟩
  · rcases hcases with ⟨hw, rfl⟩ | ⟨hw, -, payload, packet, he⟩
    · exact .same rfl rfl (congrArg (fun b : Bool => h.owedWakes + b.toNat) hw) rfl
    · exact .queued he rfl rfl (congrArg (fun b : Bool => h.owedWakes + b.toNat) hw) rfl
  · rintro rfl
    rcases hcases with ⟨-, rfl⟩ | ⟨-, hr, -⟩
    · rfl
    · cases hr

theorem sender_serves (decode : Decode) (hs : h.driver.registry.Exact) {action : Action}
    (ha : (∃ k a, action = .poll k a) ∨ ∃ k, action = .admitOn k) :
    ∃ h', h.step decode action = some h' ∧ Serves h h' := by
  rcases ha with ⟨k, a, rfl⟩ | ⟨k, rfl⟩
  · show ∃ h', h.poll k a = some h' ∧ Serves h h'
    unfold poll
    split
    · obtain ⟨h', _, _, hr, hserves, _⟩ := tryAdmit_spec hs k a _
      exact ⟨h', hr, hserves⟩
    all_goals exact ⟨h, rfl, .same rfl rfl rfl rfl⟩
  · show ∃ h', h.admitOn k = some h' ∧ Serves h h'
    unfold admitOn
    cases hpc : (h.senders k).pc with
    | idle | full a =>
      simp only [hpc]
      exact ⟨_, rfl, .same rfl rfl rfl rfl⟩
    | made a =>
      simp only [hpc]
      repeat' split
      all_goals exact ⟨_, rfl, .same rfl rfl rfl rfl⟩
    | rechecking a =>
      simp only [hpc]
      obtain ⟨h', _, _, hr, hserves, _⟩ := tryAdmit_spec hs k a ((h.senders k).park a)
      exact ⟨h', hr, hserves⟩

/-! ## The task -/

structure Drained (h : Hub) : Prop where
  pending : h.driver.pending = none
  outgoing : ∀ id, h.driver.registry.outgoingOf id = []

/-- **While the driver rests with work left, its task is woken or about to be.** -/
structure Tended (h : Hub) : Prop where
  exact : h.driver.registry.Exact
  atRest : h.task.phase ≠ .polling → h.task.phase ≠ .ended → h.driver.pc = .idle
  waker : h.task.phase = .polling ∨ h.task.phase = .resting → h.task.registered = true ∨ h.task.woken = true
  self : h.task.selfWoke = true → h.task.woken = true
  received : h.task.phase = .resting ∨ (h.task.phase = .polling ∧ h.driver.pc.sends = true) →
    h.task.recvPending = true ∨ h.task.selfWoke = true
  work : h.task.phase = .resting → (h.driver.pending = none ∧ h.driver.registry.ready = []) ∨
    h.task.sendPending = true ∨ h.task.woken = true ∨ 0 < h.owedWakes

theorem new_tended (maxSize : Option ℕ) (ids : ℕ → ℕ) : (new maxSize ids).Tended where
  exact := State.new_exact maxSize
  atRest _ _ := rfl
  waker h := by rcases h with h | h <;> cases h
  self h := by cases h
  received h := by
    rcases h with h | ⟨h, _⟩
    · cases h
    · cases h
  work h := by cases h

theorem Tended.registry {op : Op} {out : Out} {r : State} (t : h.Tended) (he : Effect h.driver.registry op out r)
    (hr : r.Exact) (hd : h'.driver = { h.driver with registry := r }) (ht : h'.task = h.task)
    (ho : h.owedWakes ≤ h'.owedWakes) (hw : ∀ id packet, out = .sent id (.ok packet) → 0 < h'.owedWakes) :
    h'.Tended := by
  refine ⟨by rw [hd]; exact hr, by rw [ht, hd]; exact t.atRest, by rw [ht]; exact t.waker, by rw [ht]; exact t.self,
    by rw [ht, hd]; exact t.received, fun hp => ?_⟩
  rw [ht] at hp
  rw [ht, hd]
  rcases t.work hp with ⟨hp, hempty⟩ | hs | hs | hs
  · -- a packet may have come
    by_cases hsent : ∃ id packet, out = .sent id (.ok packet)
    · obtain ⟨id, packet, hout⟩ := hsent
      exact .inr (.inr (.inr (hw id packet hout)))
    · exact .inl ⟨hp, he.ready_nil hempty fun id packet hout => hsent ⟨id, packet, hout⟩⟩
  · exact .inr (.inl hs)
  · exact .inr (.inr (.inl hs))
  · exact .inr (.inr (.inr (lt_of_lt_of_le hs ho)))

theorem Tended.same (t : h.Tended) (hd : h'.driver = h.driver) (ht : h'.task = h.task)
    (hw : h'.owedWakes = h.owedWakes) : h'.Tended :=
  ⟨by rw [hd]; exact t.exact, by rw [ht, hd]; exact t.atRest, by rw [ht]; exact t.waker,
    by rw [ht]; exact t.self, by rw [ht, hd]; exact t.received, by rw [ht, hd, hw]; exact t.work⟩

theorem Tended.serves (t : h.Tended) (hs : Serves h h') : h'.Tended := by
  cases hs with
  | same hd ht hw _ => exact t.same hd ht hw
  | queued he hd ht hw _ =>
    exact t.registry he (t.exact.effect he nofun) hd ht (by omega) fun _ _ _ => (by omega)

theorem Tended.enter (t : h.Tended) : h.enter.Tended := by
  unfold Hub.enter
  have hidle : h.task.phase = .unpolled ∨ h.task.phase = .resting → h.driver.pc = .idle := by
    intro hp
    refine t.atRest ?_ ?_ <;> rcases hp with hp | hp <;> rw [hp] <;> decide
  split
  case h_1 hp | h_2 hp =>
    exact ⟨t.exact, fun _ _ => hidle (by rw [hp]; decide), nofun,
      nofun, fun hp => (by rcases hp with hp | ⟨hp, _⟩ <;> cases hp), nofun⟩
  all_goals exact t

theorem Tended.wake_woken (t : h.Tended) (hp : h.task.phase = .polling ∨ h.task.phase = .resting) :
    h.task.wake.woken = true := by
  unfold Task.wake
  split
  · rfl
  · rename_i hr
    exact (t.waker hp).resolve_left hr

theorem Tended.wake (t : h.Tended) : h.wake.Tended := by
  unfold Hub.wake
  split
  · exact t
  have hphase : h.task.wake.phase = h.task.phase := by unfold Task.wake; split <;> rfl
  have hself : h.task.wake.selfWoke = h.task.selfWoke := by unfold Task.wake; split <;> rfl
  have hrecv : h.task.wake.recvPending = h.task.recvPending := by unfold Task.wake; split <;> rfl
  have hwoken : h.task.woken = true → h.task.wake.woken = true := by
    intro hw
    unfold Task.wake
    split
    · rfl
    · exact hw
  refine ⟨t.exact, by simp only [hphase]; exact t.atRest, ?_, ?_, ?_, ?_⟩
  · simp only [hphase]
    exact fun hp => .inr (t.wake_woken hp)
  · simp only [hself]
    exact fun hs => hwoken (t.self hs)
  · simp only [hphase, hself, hrecv]
    exact t.received
  · simp only [hphase]
    exact fun hp => .inr (.inr (.inl (t.wake_woken (.inr hp))))

/-! ## The poll of the driver -/

theorem driven_selfWoke (hw : h.driver.wakesSelf answers d'.pc = true) :
    (h.driven answers d').task.selfWoke = true := by
  show (h.task.selfWoke || h.driver.wakesSelf answers d'.pc) = true
  rw [hw, Bool.or_true]

theorem driven_recvPending (hw : h.driver.recvPending answers = true) :
    (h.driven answers d').task.recvPending = true := by
  show (h.task.recvPending || h.driver.recvPending answers) = true
  rw [hw, Bool.or_true]

theorem driven_sendPending (hw : h.driver.sendPending answers = true) :
    (h.driven answers d').task.sendPending = true := by
  show (h.task.sendPending || h.driver.sendPending answers) = true
  rw [hw, Bool.or_true]

/-- The receive loop was left with the receiver pending, or after its last round. -/
theorem driven_received (t : h.Tended) (hp : h.task.phase = .polling) (hr : Round h.driver answers d')
    (hpc : d'.pc = .idle ∨ d'.pc.sends = true) :
    (h.driven answers d').task.recvPending = true ∨ (h.driven answers d').task.selfWoke = true := by
  -- in the send loop it was left before
  have hkeep : h.driver.pc.sends = true →
      (h.driven answers d').task.recvPending = true ∨ (h.driven answers d').task.selfWoke = true := by
    intro hs
    refine (t.received (.inr ⟨hp, hs⟩)).imp (fun h1 => ?_) (fun h1 => ?_)
    · show (h.task.recvPending || _) = true
      rw [h1, Bool.true_or]
    · show (h.task.selfWoke || _) = true
      rw [h1, Bool.true_or]
  cases hr with
  | start _ => rcases hpc with hpc | hpc <;> cases hpc
  | quiet hd ha =>
    refine .inl (driven_recvPending ?_)
    rw [Driver.recvPending, hd]
    exact decide_eq_true ha
  | @receive index packet upgraded out r hd ha _ _ =>
    -- the last round, as the next step is not one of the receive loop
    refine .inr (driven_selfWoke ?_)
    rw [Driver.wakesSelf, hd, ha]
    show (decide (index + 1 = rounds) && decide (Driver.nextReceive index ≠ .finished)) = true
    unfold Driver.nextReceive at hpc ⊢
    split at hpc
    · rename_i hlast
      rw [if_pos hlast, decide_eq_true hlast]
      rfl
    · rcases hpc with hpc | hpc <;> cases hpc
  | finish _ => rcases hpc with hpc | hpc <;> cases hpc
  | keep hd _ => exact hkeep (by rw [hd]; rfl)
  | take hd _ _ => exact hkeep (by rw [hd]; rfl)
  | empty hd _ _ => exact hkeep (by rw [hd]; rfl)
  | pass hd _ => exact hkeep (by rw [hd]; rfl)
  | drop hd _ => exact hkeep (by rw [hd]; rfl)
  | busy hd _ => exact hkeep (by rw [hd]; rfl)
  | settle hd _ => exact hkeep (by rw [hd]; rfl)

theorem nextTake_idle {index : ℕ} (h : Driver.nextTake index = .idle) : index + 1 = rounds := by
  unfold Driver.nextTake at h
  split at h
  · assumption
  · cases h

/-- The send loop was left with nothing to send, with the sender pending, or after its last round. -/
theorem driven_settled (hr : Round h.driver answers d') (hpc : d'.pc = .idle) :
    (d'.pending = none ∧ d'.registry.ready = []) ∨ (h.driven answers d').task.sendPending = true ∨
      (h.driven answers d').task.selfWoke = true := by
  cases hr with
  | start _ => cases hpc
  | quiet _ _ => cases hpc
  | receive _ _ _ _ =>
    simp only [Driver.nextReceive] at hpc
    split at hpc <;> cases hpc
  | finish _ => cases hpc
  | keep _ _ => cases hpc
  | take _ _ _ => cases hpc
  | empty _ hn he => exact .inl ⟨hn, he⟩
  | pass _ _ => cases hpc
  | drop hd ho =>
    refine .inr (.inr (driven_selfWoke ?_))
    rw [Driver.wakesSelf, hd]
    show (decide _ && !h.driver.registry.sendOpen _) = true
    rw [decide_eq_true (nextTake_idle hpc), ho]
    rfl
  | busy hd ha =>
    refine .inr (.inl (driven_sendPending ?_))
    rw [Driver.sendPending, hd]
    exact decide_eq_true ha
  | settle hd ha =>
    refine .inr (.inr (driven_selfWoke ?_))
    rw [Driver.wakesSelf, hd]
    show (decide _ && (decide _ || decide _)) = true
    rw [decide_eq_true (nextTake_idle hpc)]
    rcases ha with ha | ha <;> rw [ha] <;> rfl

theorem phaseOf_resting {pc : Pc} (h : phaseOf pc = .resting) : pc = .idle := by
  cases pc with
  | idle => rfl
  | _ => cases h

theorem Tended.driven (t : h.Tended) (hp : h.task.phase = .polling) (hr : Round h.driver answers d') :
    (h.driven answers d').Tended := by
  have hwoken : h.task.woken = true → (h.driven answers d').task.woken = true := by
    intro hw
    show (h.task.woken || _) = true
    rw [hw, Bool.true_or]
  have hself : (h.driven answers d').task.selfWoke = true → (h.driven answers d').task.woken = true := by
    show (h.task.selfWoke || _) = true → (h.task.woken || _) = true
    intro hs
    rcases Bool.or_eq_true_iff.1 hs with hs | hs
    · rw [t.self hs, Bool.true_or]
    · rw [hs, Bool.or_true]
  refine ⟨hr.exact t.exact, fun h1 h2 => ?_, fun _ => (t.waker (.inl hp)).imp id hwoken, hself, fun hpc => ?_,
    fun hpc => ?_⟩
  · cases hd : d'.pc with
    | idle => exact hd
    | finished => exact absurd (congrArg phaseOf hd) h2
    | _ => exact absurd (congrArg phaseOf hd) h1
  · exact driven_received t hp hr (hpc.imp phaseOf_resting And.right)
  · rcases driven_settled hr (phaseOf_resting hpc) with he | hs | hs
    · exact .inl he
    · exact .inr (.inl hs)
    · exact .inr (.inr (.inl (hself hs)))

/-! ## Every interleaving -/

def ops (actions : List Action) : List Op :=
  actions.filterMap fun
    | .call call => some call.op
    | _ => none

/-- **Rule for runs**: what each step keeps, given the actions that are still to come. -/
theorem run_ind {P : Hub → List Action → Prop}
    (hstep : ∀ h action actions, P h (action :: actions) → ∃ h', h.step decode action = some h' ∧ P h' actions)
    (actions : List Action) (hp : P h actions) : ∃ h', h.run decode actions = some h' ∧ P h' [] := by
  induction actions generalizing h with
  | nil => exact ⟨h, rfl, hp⟩
  | cons action actions ih =>
    obtain ⟨h₁, hs, hp₁⟩ := hstep h action actions hp
    obtain ⟨h', hr, hp'⟩ := ih hp₁
    refine ⟨h', ?_, hp'⟩
    rw [run, hs]
    exact hr

theorem Serves.fresh {ops : List Op} (hs : Serves h h') (hf : Fresh h.driver.registry ops) :
    Fresh h'.driver.registry ops := by
  cases hs with
  | same hd _ _ _ =>
    rw [hd]
    exact hf
  | queued he hd _ _ _ =>
    rw [hd]
    exact hf.step he rfl

@[simp] theorem enter_driver (h : Hub) : h.enter.driver = h.driver := by
  unfold enter
  split <;> rfl

@[simp] theorem wake_driver (h : Hub) : h.wake.driver = h.driver := by
  unfold wake
  split <;> rfl

theorem notify_serves (h : Hub) : h.notify.driver = h.driver ∧ h.notify.task = h.task ∧
    h.notify.owedWakes = h.owedWakes := by
  unfold notify
  split <;> exact ⟨rfl, rfl, rfl⟩

theorem Call.wakes_sent {s r : State} {call : Call} {id : ℕ} {packet : Bytes}
    (he : Effect s call.op (.sent id (.ok packet)) r) : call.wakes (.sent id (.ok packet)) = true := by
  have hno : ∀ op : Op, (∀ i payload, op ≠ .trySend i payload) → ¬ Effect s op (.sent id (.ok packet)) r := by
    intro op hop he
    cases he with
    | same _ hq _ _ => cases hq
    | send _ _ _ _ _ => exact hop _ _ rfl
  cases call with
  | trySend | closeSend | close | closeAll => rfl
  | register | negotiated | pollRecv | closeRecv => exact absurd he (hno _ nofun)

theorem call_tended (decode : Decode) {call : Call} {actions : List Action} (t : h.Tended)
    (hf : Fresh h.driver.registry (call.op :: ops actions)) :
    ∃ h', h.call decode call = some h' ∧ h'.Tended ∧ Fresh h'.driver.registry (ops actions) := by
  obtain ⟨out, r, hs, he⟩ := State.step_effect decode t.exact call.op
  have hcall : h.call decode call =
      some ({ h with driver := { h.driver with registry := r } }.owe (call.wakes out) call.notifies) := by
    rw [Hub.call, hs]
    rfl
  refine ⟨_, hcall, t.registry he (t.exact.effect he hf.register) rfl rfl (Nat.le_add_right _ _) ?_, Fresh.effect hf he⟩
  rintro id packet rfl
  show 0 < h.owedWakes + (call.wakes _).toNat
  rw [Call.wakes_sent he]
  exact Nat.succ_pos _

theorem drive_tended (decode : Decode) (answers : Answers) (t : h.Tended) {ops : List Op}
    (hf : Fresh h.driver.registry ops) :
    ∃ h', h.drive decode answers = some h' ∧ h'.Tended ∧ Fresh h'.driver.registry ops := by
  cases hp : h.task.phase with
  | polling =>
    obtain ⟨events, d', hd, hr⟩ := Driver.drive_round decode t.exact answers
    exact ⟨_, drive_polling hp hd, t.driven hp hr, hr.fresh hf⟩
  | entered =>
    have hd : h.drive decode answers =
        some { h with task := { h.task with phase := .polling, registered := true } } := by
      rw [drive, hp]
    refine ⟨_, hd, ?_, hf⟩
    -- the poll starts, and the waker is there
    have hidle : h.driver.pc = .idle := t.atRest (by rw [hp]; decide) (by rw [hp]; decide)
    refine ⟨t.exact, fun h1 _ => absurd rfl h1, fun _ => .inl rfl, t.self, fun hr => ?_, nofun⟩
    rcases hr with hr | ⟨_, hr⟩
    · cases hr
    · change h.driver.pc.sends = true at hr
      rw [hidle] at hr
      cases hr
  | unpolled | resting | ended => exact ⟨h, by rw [drive, hp], t, hf⟩

theorem step_tended (decode : Decode) (action : Action) (actions : List Action) (t : h.Tended)
    (hf : Fresh h.driver.registry (ops (action :: actions))) :
    ∃ h', h.step decode action = some h' ∧ h'.Tended ∧ Fresh h'.driver.registry (ops actions) := by
  cases action with
  | call call => exact call_tended decode t hf
  | enter => exact ⟨_, rfl, t.enter, by rw [enter_driver]; exact hf⟩
  | drive answers => exact drive_tended decode answers t hf
  | wake => exact ⟨_, rfl, t.wake, by rw [wake_driver]; exact hf⟩
  | notify =>
    obtain ⟨hd, ht, hw⟩ := notify_serves h
    exact ⟨_, rfl, t.same hd ht hw, by rw [hd]; exact hf⟩
  | poll k a =>
    obtain ⟨h', hs, hserves⟩ := sender_serves decode t.exact (.inl ⟨k, a, rfl⟩)
    exact ⟨h', hs, t.serves hserves, hserves.fresh hf⟩
  | admitOn k =>
    obtain ⟨h', hs, hserves⟩ := sender_serves decode t.exact (.inr ⟨k, rfl⟩)
    exact ⟨h', hs, t.serves hserves, hserves.fresh hf⟩

theorem outgoingOf_of_ready_nil {s : State} (hs : s.Exact) (hr : s.ready = []) (id : ℕ) : s.outgoingOf id = [] := by
  have hw : s.waiting id = false := by
    rw [← Bool.not_eq_true, ← hs.mem_ready, hr]
    exact List.not_mem_nil
  cases hl : s.streams.lookup id with
  | none => rw [State.outgoingOf, hl]; rfl
  | some e =>
    rw [State.waiting_of_lookup hl, decide_eq_false_iff_not, not_not] at hw
    rw [State.outgoingOf_lookup hl, hw]

theorem Serves.task (hs : Serves h h') : h'.task = h.task := by
  cases hs with
  | same _ ht _ _ => exact ht
  | queued _ _ ht _ _ => exact ht

theorem woken_step {action : Action} (t : h.Tended) (ha : action ≠ .enter)
    (hs : h.step decode action = some h') (hw : h.task.woken = true) : h'.task.woken = true := by
  have hsender : (∃ k a, action = .poll k a) ∨ (∃ k, action = .admitOn k) → h'.task.woken = true := by
    intro ha
    obtain ⟨h₁, hs₁, hserves⟩ := sender_serves decode t.exact ha
    rw [hs] at hs₁
    cases hs₁
    rw [hserves.task]
    exact hw
  cases action with
  | call call =>
    obtain ⟨out, r, hr, -⟩ := State.step_effect decode t.exact call.op
    rw [step, Hub.call, hr] at hs
    cases hs
    exact hw
  | enter => exact absurd rfl ha
  | drive answers =>
    change h.drive decode answers = some h' at hs
    cases hp : h.task.phase with
    | polling =>
      obtain ⟨events, d', hd, -⟩ := Driver.drive_round decode t.exact answers
      rw [drive_polling hp hd] at hs
      cases hs
      show (h.task.woken || _) = true
      rw [hw, Bool.true_or]
    | entered | unpolled | resting | ended =>
      rw [drive, hp] at hs
      cases hs
      exact hw
  | wake =>
    cases hs
    unfold Hub.wake Task.wake
    split
    · exact hw
    · split
      · rfl
      · exact hw
  | notify =>
    cases hs
    rw [(notify_serves h).2.1]
    exact hw
  | poll k a => exact hsender (.inl ⟨k, a, rfl⟩)
  | admitOn k => exact hsender (.inr ⟨k, rfl⟩)

end Hub

/-- **The driver does not stall with work left**, in any interleaving of its polls with calls and
senders. When a poll returns `Pending`, the receiver was pending or the driver has woken itself; and
nothing is queued or held, or the sender was pending, or the driver has woken itself. Until it is
polled again, a packet that is queued later has a wake-up on its way, which does wake the task, and
the task stays woken. -/
theorem driver_never_stalls (decode : Decode) (maxSize : Option ℕ) (ids : ℕ → ℕ) (actions : List Hub.Action)
    (hreg : (registered (Hub.ops actions)).Nodup) :
    ∃ h, (Hub.new maxSize ids).run decode actions = some h ∧
      (∀ answers, ∃ h', h.step decode (.drive answers) = some h' ∧
        (h.task.phase = .polling → h'.task.phase = .resting →
          (h'.task.recvPending = true ∨ h'.task.selfWoke = true) ∧
            (h'.Drained ∨ h'.task.sendPending = true ∨ h'.task.selfWoke = true))) ∧
      (h.task.phase = .resting →
        h.Drained ∨ h.task.sendPending = true ∨ h.task.woken = true ∨ 0 < h.owedWakes) ∧
      (∀ id payload packet r, h.driver.registry.trySend id payload = some (.ok packet, r) →
        ∃ h', h.step decode (.call (.trySend id payload)) = some h' ∧ 0 < h'.owedWakes) ∧
      (h.task.phase = .polling ∨ h.task.phase = .resting → 0 < h.owedWakes →
        ∃ h', h.step decode .wake = some h' ∧ h'.task.woken = true) ∧
      ∀ action h', action ≠ .enter → h.step decode action = some h' → h.task.woken = true → h'.task.woken = true := by
  obtain ⟨h, hrun, t, -⟩ := Hub.run_ind
    (P := fun h actions => h.Tended ∧ Fresh h.driver.registry (Hub.ops actions))
    (fun h action actions hp => Hub.step_tended decode action actions hp.1 hp.2) actions
    ⟨Hub.new_tended maxSize ids, hreg, fun _ _ => rfl⟩
  have hdrained : ∀ {d : Driver}, d.registry.Exact → d.pending = none ∧ d.registry.ready = [] →
      ∀ {h' : Hub}, h'.driver = d → h'.Drained := by
    rintro d hd ⟨hp, hr⟩ h' rfl
    exact ⟨hp, Hub.outgoingOf_of_ready_nil hd hr⟩
  refine ⟨h, hrun, fun answers => ?_, fun hp => ?_, fun id payload packet r hr => ?_, fun hp hw => ?_,
    fun action h' ha hs => Hub.woken_step t ha hs⟩
  · by_cases hp : h.task.phase = .polling
    · obtain ⟨events, d', hd, hr⟩ := Driver.drive_round decode t.exact answers
      refine ⟨_, Hub.drive_polling hp hd, fun _ hrest => ?_⟩
      have hidle := Hub.phaseOf_resting hrest
      exact ⟨Hub.driven_received t hp hr (.inl hidle),
        (Hub.driven_settled hr hidle).imp_left fun he => hdrained (hr.exact t.exact) he rfl⟩
    · have hf : Fresh h.driver.registry [] := ⟨List.nodup_nil, nofun⟩
      obtain ⟨h', hs, -⟩ := Hub.drive_tended decode answers t hf
      exact ⟨h', hs, fun h1 => absurd h1 hp⟩
  · exact (t.work hp).imp_left fun he => hdrained t.exact he rfl
  · have hcall : h.step decode (.call (.trySend id payload)) =
        some ({ h with driver := { h.driver with registry := r } }.owe true false) := by
      rw [Hub.step, Hub.call, Call.op, State.step, hr]
      rfl
    exact ⟨_, hcall, Nat.succ_pos h.owedWakes⟩
  · refine ⟨_, rfl, ?_⟩
    unfold Hub.wake
    rw [if_neg (by omega)]
    exact t.wake_woken hp

/-- A packet is queued just after the driver has found nothing to send. -/
def lateActions : List Hub.Action :=
  let idle : Hub.Action := .drive ⟨some 1200, .pending, .pending⟩
  [.call (.register 0 true), .call (.negotiated true), .enter, idle, idle, idle, idle, .call (.trySend 0 [1])]

theorem driver_never_stalls_late :
    ∃ h h', (Hub.new (some 1200) id).run (fun _ => none) lateActions = some h ∧ h.task.woken = false ∧
      h.step (fun _ => none) .wake = some h' ∧ h'.task.woken = true := by
  have hlate : ((Hub.new (some 1200) id).run (fun _ => none) lateActions).map
      (fun h => (h.task.phase, h.task.woken, h.owedWakes)) = some (.resting, false, 1) := by decide
  obtain ⟨h, hrun, -, -, -, hwake, -⟩ := driver_never_stalls (fun _ => none) (some 1200) id lateActions (by decide)
  rw [hrun] at hlate
  simp only [map_some, some.injEq, Prod.mk.injEq] at hlate
  obtain ⟨h', hs, hw⟩ := hwake (.inr hlate.1) (by omega)
  exact ⟨h, h', hrun, hlate.2.1, hs, hw⟩

end Netty.Datagram
