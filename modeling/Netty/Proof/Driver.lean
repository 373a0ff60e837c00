import Netty.Proof.Datagram

/-!
# What the datagram driver offers to QUIC

* `Moves`: all that a step of the driver, or a call from outside, can do.
* `Driver.Inv`: the packets of a session are, in the order of their admission, those the
  sender has answered for, the one that is held, and those queued.
* `closed_not_offered`: no poll that starts behind a close offers a packet of the session,
  and every offer is of the next packet in order.
-/

namespace Netty.Datagram

open List Option

/-! ## Histories -/

/-- The packet of this session that a call has queued. -/
def Event.admits (id : ℕ) : Event → Option Bytes
  | .called _ out => out.admits id
  | _ => none

/-- The packet of this session that the sender has accepted or rejected. -/
def Event.settles (id : ℕ) : Event → Option Bytes
  | .offered j packet .accepted | .offered j packet .rejected => if j = id then some packet else none
  | _ => none

def Event.registers : Event → Option ℕ
  | .called call _ => call.op.registers
  | _ => none

def admittedIn (id : ℕ) (events : List Event) : List Bytes := events.filterMap (Event.admits id)

def settledIn (id : ℕ) (events : List Event) : List Bytes := events.filterMap (Event.settles id)

def registeredIn (events : List Event) : List ℕ := events.filterMap Event.registers

/-- The send direction of the session was closed: by its own handles, or with the registry. -/
def ClosedIn (events : List Event) (id : ℕ) : Prop :=
  ∃ before call out after, events = before ++ .called call out :: after ∧ call.op.closes id = true ∧
    (call = .closeAll ∨ id ∈ registeredIn before)

/-- The session was closed, and a poll has started since. -/
def Stale (events : List Event) (id : ℕ) : Prop :=
  ∃ before after, events = before ++ .started :: after ∧ ClosedIn before id

/-- Each event of the history is right, given those before it. -/
def EachAfter (P : List Event → Event → Prop) (events : List Event) : Prop :=
  ∀ before event after, events = before ++ event :: after → P before event

/-- An offer is of a session that was not closed before this poll, and of its first
packet the sender has not answered for. -/
def InOrder (before : List Event) : Event → Prop
  | .offered id packet _ => ¬ Stale before id ∧ (admittedIn id before)[(settledIn id before).length]? = some packet
  | _ => True

section Histories

variable {events before : List Event} {event : Event} {P : List Event → Event → Prop} {id : ℕ}

@[simp] theorem Event.admits_called (call : Call) (out : Out) : (Event.called call out).admits id = out.admits id := rfl

@[simp] theorem Event.settles_called (call : Call) (out : Out) : (Event.called call out).settles id = none := rfl

@[simp] theorem Event.admits_started : Event.started.admits id = none := rfl

@[simp] theorem Event.settles_started : Event.started.settles id = none := rfl

@[simp] theorem Event.admits_offered (j : ℕ) (packet : Bytes) (answer : SendAnswer) :
    (Event.offered j packet answer).admits id = none := rfl

theorem split_concat {l₁ l₂ l : List Event} {e x : Event} (h : l ++ [e] = l₁ ++ x :: l₂) :
    (l₁ = l ∧ x = e) ∨ ∃ l₃, l = l₁ ++ x :: l₃ ∧ l₂ = l₃ ++ [e] := by
  rcases eq_nil_or_concat l₂ with rfl | ⟨l₃, y, rfl⟩
  · obtain ⟨h1, h2⟩ := append_inj' h rfl
    injection h2 with h2
    exact .inl ⟨h1.symm, h2.symm⟩
  · rw [concat_eq_append, ← cons_append, ← append_assoc] at h
    obtain ⟨h1, h2⟩ := append_inj' h rfl
    injection h2 with h2
    exact .inr ⟨l₃, h1, by rw [concat_eq_append, h2]⟩

theorem EachAfter.concat (h : EachAfter P events) (he : P events event) : EachAfter P (events ++ [event]) := by
  intro before e after heq
  rcases split_concat heq with ⟨rfl, rfl⟩ | ⟨l, hl, -⟩
  · exact he
  · exact h before e l hl

theorem ClosedIn.append (h : ClosedIn events id) (more : List Event) : ClosedIn (events ++ more) id := by
  obtain ⟨before, call, out, after, rfl, h1, h2⟩ := h
  exact ⟨before, call, out, after ++ more, by simp, h1, h2⟩

theorem Stale.closedIn (h : Stale events id) : ClosedIn events id := by
  obtain ⟨before, after, rfl, h⟩ := h
  exact h.append _

theorem closedIn_concat (h : ClosedIn (events ++ [event]) id) :
    ClosedIn events id ∨ ∃ call out, event = .called call out ∧ call.op.closes id = true ∧
      (call = .closeAll ∨ id ∈ registeredIn events) := by
  obtain ⟨before, call, out, after, heq, h1, h2⟩ := h
  rcases split_concat heq with ⟨rfl, rfl⟩ | ⟨l, hl, -⟩
  · exact .inr ⟨call, out, rfl, h1, h2⟩
  · exact .inl ⟨before, call, out, l, hl, h1, h2⟩

theorem stale_concat (h : Stale (events ++ [event]) id) (hs : event ≠ .started) : Stale events id := by
  obtain ⟨before, after, heq, hc⟩ := h
  rcases split_concat heq with ⟨-, hx⟩ | ⟨l, hl, -⟩
  · exact absurd hx.symm hs
  · exact ⟨before, l, hl, hc⟩

theorem filterMap_concat {α β : Type} (f : α → Option β) (l : List α) (a : α) :
    (l ++ [a]).filterMap f = l.filterMap f ++ (f a).toList := by
  rw [filterMap_append]
  cases h : f a with
  | none => rw [filterMap_cons_none h]; rfl
  | some b => rw [filterMap_cons_some h]; rfl

end Histories

/-! ## What a step does -/

def Pc.packet : Pc → Option (ℕ × Bytes)
  | .checking _ id packet | .offering _ id packet => some (id, packet)
  | _ => none

def Pc.offers : Pc → Option ℕ
  | .offering _ id _ => some id
  | _ => none

def Driver.held (d : Driver) (id : ℕ) : List Bytes :=
  match d.pending with
  | some (j, packet) => if j = id then [packet] else []
  | none => []

/-- **All that a step can do**, if the accounts of the registry are exact. -/
inductive Moves (d : Driver) : Action → List Event → Driver → Prop
  | call {call : Call} {out : Out} {r : State} : Effect d.registry call.op out r →
      Moves d (.call call) [.called call out] { d with registry := r }
  | start {answers : Answers} {out : Out} {r : State} {pc : Pc} :
      Effect d.registry (.limit answers.maxSize) out r → pc.packet = none →
      Moves d (.drive answers) [.started] { d with registry := r, pc := pc }
  | receive {answers : Answers} {packet : Bytes} {upgraded : Bool} {out : Out} {r : State} {pc : Pc} :
      Effect d.registry (.receive packet upgraded) out r → pc.packet = none →
      Moves d (.drive answers) [] { d with registry := r, pc := pc }
  | move {answers : Answers} {pc : Pc} : pc.offers = none → (∀ x, pc.packet = some x → d.pending = some x) →
      Moves d (.drive answers) [] { d with pc := pc }
  | take {answers : Answers} {x : Option (ℕ × Bytes)} {r : State} {pc : Pc} : d.pending = none →
      Effect d.registry .next (.taken x) r → pc.offers = none → (∀ y, pc.packet = some y → x = some y) →
      Moves d (.drive answers) [] { d with registry := r, pending := x, pc := pc }
  | pass {answers : Answers} {index id : ℕ} {packet : Bytes} : d.pc = .checking index id packet →
      d.registry.sendOpen id = true → Moves d (.drive answers) [] { d with pc := .offering index id packet }
  | drop {answers : Answers} {index id : ℕ} {packet : Bytes} {pc : Pc} : d.pc = .checking index id packet →
      d.registry.sendOpen id = false → pc.packet = none →
      Moves d (.drive answers) [] { d with pending := none, pc := pc }
  | keep {answers : Answers} {index id : ℕ} {packet : Bytes} {answer : SendAnswer} {pc : Pc} :
      d.pc = .offering index id packet → (Event.offered id packet answer).settles id = none → pc.packet = none →
      Moves d (.drive answers) [.offered id packet answer] { d with pc := pc }
  | settle {answers : Answers} {index id : ℕ} {packet : Bytes} {answer : SendAnswer} {pc : Pc} :
      d.pc = .offering index id packet → (Event.offered id packet answer).settles id = some packet →
      pc.packet = none → Moves d (.drive answers) [.offered id packet answer] { d with pending := none, pc := pc }

section Steps

variable {d d' : Driver} {action : Action} {actions : List Action} {events past : List Event} {id : ℕ}

theorem Driver.nextReceive_packet (index : ℕ) : (Driver.nextReceive index).packet = none := by
  unfold Driver.nextReceive
  split <;> rfl

theorem Driver.nextTake_packet (index : ℕ) : (Driver.nextTake index).packet = none := by
  unfold Driver.nextTake
  split <;> rfl

theorem Pc.offers_of_packet {pc : Pc} (h : pc.packet = none) : pc.offers = none := by
  cases pc with
  | offering => cases h
  | idle | receiving | taking | checking | finished => rfl

theorem Driver.step_moves (decode : Decode) (h : d.registry.Exact) (action : Action) :
    ∃ events d', d.step decode action = some (events, d') ∧ Moves d action events d' := by
  cases action with
  | call call =>
    obtain ⟨out, r, hs, he⟩ := State.step_effect decode h call.op
    exact ⟨_, _, by rw [Driver.step, hs]; rfl, .call he⟩
  | drive answers =>
    rw [show d.step decode (.drive answers) = d.drive decode answers from rfl, Driver.drive]
    cases hpc : d.pc with
    | finished =>
      have hd : d = { d with pc := .finished } := by rw [← hpc]
      refine ⟨[], d, rfl, ?_⟩
      rw [hd]
      exact .move rfl nofun
    | idle =>
      exact ⟨_, _, rfl, .start (State.limit_effect _ _) rfl⟩
    | receiving index =>
      cases ha : answers.recv with
      | pending | ended | lost => exact ⟨_, _, rfl, .move rfl nofun⟩
      | packet packet upgraded =>
        obtain ⟨r, s', hs, he⟩ := State.receive_effect decode h packet upgraded
        simp only [hs, bind_eq_bind, bind_some]
        refine ⟨_, _, rfl, .receive he ?_⟩
        split
        · rfl
        · exact nextReceive_packet index
    | taking index =>
      cases hp : d.pending with
      | some x =>
        obtain ⟨id, packet⟩ := x
        simp only [bind_eq_bind, bind_some, hp]
        refine ⟨[], { d with pc := .checking index id packet }, by rw [hp], .move rfl fun y hy => ?_⟩
        rw [hp, ← hy]
        rfl
      | none =>
        obtain ⟨x, r, hs, he⟩ := State.next_effect h
        simp only [hs, map_some, bind_eq_bind, bind_some]
        cases x with
        | none => exact ⟨_, _, rfl, .take hp he rfl nofun⟩
        | some y => exact ⟨_, _, rfl, .take hp he rfl fun _ hy => hy⟩
    | checking index id packet =>
      cases ho : d.registry.sendOpen id with
      | true => exact ⟨_, _, if_pos ho, .pass hpc ho⟩
      | false => exact ⟨_, _, if_neg (Bool.eq_false_iff.1 ho), .drop hpc ho (nextTake_packet index)⟩
    | offering index id packet =>
      cases ha : answers.send with
      | pending | lost => exact ⟨_, _, rfl, .keep hpc rfl rfl⟩
      | accepted | rejected => exact ⟨_, _, rfl, .settle hpc (if_pos rfl) (nextTake_packet index)⟩

/-! ## Sessions in order -/

def calls (actions : List Action) : List Op :=
  actions.filterMap fun
    | .call call => some call.op
    | .drive _ => none

def State.ShutEmpty (s : State) : Prop := ∀ id, s.sendOpen id = false → s.outgoingOf id = []

/-- The registry against the history, with these operations still to come. -/
structure Ledger (r : State) (past : List Event) (ops : List Op) : Prop where
  exact : r.Exact
  fresh : Fresh r ops
  nodup : (registeredIn past ++ registered ops).Nodup
  unseen : ∀ id ∈ registered ops, admittedIn id past = []
  shut : r.ShutEmpty
  closed : ∀ id, ClosedIn past id → r.sendOpen id = false ∧ (r.closed = true ∨ id ∈ registeredIn past)

/-- **The packets of each session are in order**: those the sender has answered for, the
one that is held, those queued, and after a close those that are gone. -/
structure Driver.Inv (d : Driver) (past : List Event) (actions : List Action) : Prop where
  ledger : Ledger d.registry past (calls actions)
  queued : ∀ id, Queued d.registry id (admittedIn id past) (settledIn id past ++ d.held id)
  holds : ∀ x, d.pc.packet = some x → d.pending = some x
  offers : ∀ id, d.pc.offers = some id → ¬ Stale past id
  inOrder : EachAfter InOrder past

variable {s s' : State} {out : Out} {op : Op}

theorem Effect.shutEmpty (he : Effect s op out s')
    (hfresh : ∀ id, op.registers = some id → s.streams.lookup id = none) (h : s.ShutEmpty) : s'.ShutEmpty := by
  intro id
  have hid := h id
  have hs := he.seen (hfresh id)
  generalize s.outgoingOf id = q at hs hid
  generalize s.sendOpen id = o at hs hid
  generalize s'.outgoingOf id = q' at hs
  generalize s'.sendOpen id = o' at hs
  intro ho
  cases hs with
  | same => exact hid ho
  | register => cases ho
  | enqueue => cases ho
  | take => exact absurd (hid ho) (cons_ne_nil _ _)
  | shut => rfl

theorem Op.not_closes_of_registers (h : op.registers = some id) (j : ℕ) : op.closes j = false := by
  cases op with
  | register => rfl
  | negotiated | limit | receive | next | trySend | pollRecv | closeSend | closeRecv | close | closeAll => cases h

theorem Effect.closes (he : Effect s op out s') (hc : op.closes id = true) : s'.sendOpen id = false := by
  have hr : op.registers ≠ some id := fun h => by
    rw [Op.not_closes_of_registers h] at hc
    cases hc
  have hs := he.seen fun h => absurd h hr
  generalize s.outgoingOf id = q at hs
  generalize s.sendOpen id = o at hs
  generalize s'.outgoingOf id = q' at hs
  generalize s'.sendOpen id = o' at hs
  cases hs with
  | same _ _ h => exact h hc
  | register h => exact absurd h hr
  | enqueue _ _ h => rw [h] at hc; cases hc
  | take _ _ h => rw [h] at hc; cases hc
  | shut => rfl

theorem Effect.staysShut (he : Effect s op out s') (ho : s.sendOpen id = false)
    (hr : op.registers = some id → s.closed = true) : s'.sendOpen id = false := by
  by_cases hreg : op.registers = some id
  · cases he with
    | same hs => rw [State.sendOpen, hs.streams]; exact ho
    | register hc => rw [hr hreg] at hc; cases hc
    | receive | take | send | pollRecv | closeSend | closeRecv | close | closeAll => cases hreg
  · have hs := he.seen fun h => absurd h hreg
    rw [ho] at hs
    generalize s.outgoingOf id = q at hs
    generalize s'.outgoingOf id = q' at hs
    generalize s'.sendOpen id = o' at hs
    cases hs with
    | same => rfl
    | register h => exact absurd h hreg
    | take => rfl
    | shut => rfl

theorem Effect.staysClosed (he : Effect s op out s') (h : s.closed = true) : s'.closed = true := by
  cases he with
  | same hs => exact hs.closed.trans h
  | register | receive | take | send | pollRecv | closeSend | closeRecv | close => exact h
  | closeAll => rfl

theorem Effect.closeAll_closed (he : Effect s .closeAll out s') : s'.closed = true := by
  cases he with
  | same _ _ _ h => exact absurd rfl h
  | closeAll => rfl

namespace Ledger

variable {r r' : State} {op : Op} {ops : List Op} {out : Out} {A T : List Bytes}

theorem registered_cons (h : op.registers = none) (ops : List Op) : registered (op :: ops) = registered ops :=
  filterMap_cons_none h

theorem skip (h : Ledger r past ops) (hop : op.registers = none) : Ledger r past (op :: ops) := by
  obtain ⟨h1, ⟨h2, h3⟩, h4, h5, h6, h7⟩ := h
  rw [← registered_cons hop] at h2 h3 h4 h5
  exact ⟨h1, ⟨h2, h3⟩, h4, h5, h6, h7⟩

theorem new_id (h : Ledger r past (op :: ops)) (hop : op.registers = some id) : r.streams.lookup id = none :=
  h.fresh.unknown id (by rw [registered, filterMap_cons_some hop]; exact mem_cons_self)

theorem staysShut (h : Ledger r past (op :: ops)) (he : Effect r op out r') (id : ℕ) (hc : ClosedIn past id) :
    r'.sendOpen id = false ∧ (r'.closed = true ∨ id ∈ registeredIn past) := by
  obtain ⟨h1, h2⟩ := h.closed id hc
  refine ⟨he.staysShut h1 fun hop => h2.resolve_right fun hid => ?_, h2.imp_left he.staysClosed⟩
  have hn := h.nodup
  rw [registered, filterMap_cons_some hop, nodup_append] at hn
  exact hn.2.2 id hid id mem_cons_self rfl

theorem queued (h : Ledger r past (op :: ops)) (he : Effect r op out r') (hq : Queued r id (admittedIn id past) T) :
    Queued r' id (admittedIn id past ++ (out.admits id).toList) (T ++ (out.takes id).toList) := by
  refine he.queued h.new_id (fun hop => ?_) hq
  have hA := h.unseen id (by rw [registered, filterMap_cons_some hop]; exact mem_cons_self)
  obtain ⟨rest, hq, -⟩ := hq
  rw [hA] at hq ⊢
  simp only [nil_eq, append_eq_nil_iff] at hq
  exact hq.1.1.symm

theorem drive (h : Ledger r past ops) (he : Effect r op out r') (hop : op.registers = none) : Ledger r' past ops := by
  have h' := h.skip hop
  refine ⟨h.exact.effect he h'.fresh.register, h'.fresh.effect he, h.nodup, h.unseen, he.shutEmpty ?_ h.shut,
    h'.staysShut he⟩
  exact fun id => h'.new_id

theorem call {call : Call} (h : Ledger r past (call.op :: ops)) (he : Effect r call.op out r') :
    Ledger r' (past ++ [.called call out]) ops := by
  have hreg : registeredIn (past ++ [.called call out]) = registeredIn past ++ call.op.registers.toList :=
    filterMap_concat _ _ _
  have hops : registered (call.op :: ops) = call.op.registers.toList ++ registered ops := by
    unfold registered
    cases hop : call.op.registers with
    | none => rw [filterMap_cons_none hop]; rfl
    | some j => rw [filterMap_cons_some hop]; rfl
  have hn := h.nodup
  rw [hops, ← append_assoc, ← hreg] at hn
  refine ⟨h.exact.effect he h.fresh.register, h.fresh.effect he, hn, fun id hid => ?_,
    he.shutEmpty (fun id => h.new_id) h.shut, fun id hc => ?_⟩
  · have hmem : id ∈ registered (call.op :: ops) := by
      rw [hops]
      exact mem_append_right _ hid
    have hne : call.op.registers ≠ some id := fun hop => by
      rw [hreg, hop, append_assoc, nodup_append] at hn
      exact (nodup_cons.1 hn.2.1).1 hid
    rw [admittedIn, filterMap_concat, show filterMap (Event.admits id) past = _ from h.unseen id hmem]
    show (out.admits id).toList = []
    rw [(he.unseen (h.fresh.unknown id hmem) hne).1]
    rfl
  · rcases closedIn_concat hc with hc | ⟨c, o, heq, hc, hwhy⟩
    · obtain ⟨h1, h2⟩ := h.staysShut he id hc
      exact ⟨h1, h2.imp_right fun hid => by rw [hreg]; exact mem_append_left _ hid⟩
    · injection heq with hcall hout
      subst hcall
      refine ⟨he.closes hc, ?_⟩
      rcases hwhy with rfl | hid
      · exact .inl he.closeAll_closed
      · exact .inr (by rw [hreg]; exact mem_append_left _ hid)

theorem event {e : Event} (h : Ledger r past ops) (hr : e.registers = none) (ha : ∀ id, e.admits id = none)
    (hc : ∀ c o, e ≠ .called c o) : Ledger r (past ++ [e]) ops := by
  have hreg : registeredIn (past ++ [e]) = registeredIn past := by
    rw [registeredIn, filterMap_concat, hr]
    exact append_nil _
  refine ⟨h.exact, h.fresh, by rw [hreg]; exact h.nodup, fun id hid => ?_, h.shut, fun id hcl => ?_⟩
  · rw [admittedIn, filterMap_concat, ha]
    exact (append_nil _).trans (h.unseen id hid)
  · rw [hreg]
    rcases closedIn_concat hcl with hcl | ⟨c, o, heq, -⟩
    · exact h.closed id hcl
    · exact absurd heq (hc c o)

end Ledger

theorem Out.takes_taken (x : Option (ℕ × Bytes)) (r : State) (pc : Pc) (id : ℕ) :
    Driver.held ⟨r, x, pc⟩ id = (Out.takes id (.taken x)).toList := by
  cases x with
  | none => rfl
  | some y =>
    obtain ⟨j, packet⟩ := y
    show (if j = id then [packet] else []) = (if j = id then some packet else none).toList
    split <;> rfl

@[simp] theorem Driver.held_same (d : Driver) (r : State) (pc : Pc) :
    Driver.held ⟨r, d.pending, pc⟩ id = d.held id := rfl

@[simp] theorem Driver.held_none (r : State) (pc : Pc) : Driver.held ⟨r, none, pc⟩ id = [] := rfl

variable {packet : Bytes}

theorem Driver.held_pending (h : d.pending = some (id, packet)) (j : ℕ) :
    d.held j = if id = j then [packet] else [] := by
  rw [Driver.held, h]

theorem Event.settles_offered {answer : SendAnswer} (h : (Event.offered id packet answer).settles id = some packet)
    (j : ℕ) : ((Event.offered id packet answer).settles j).toList = if id = j then [packet] else [] := by
  cases answer with
  | accepted | rejected =>
    show (if id = j then some packet else none).toList = _
    split <;> rfl
  | pending | lost => cases h

theorem Event.not_settles_offered {answer : SendAnswer} (h : (Event.offered id packet answer).settles id = none)
    (j : ℕ) : (Event.offered id packet answer).settles j = none := by
  cases answer with
  | accepted | rejected => exact absurd h (by simp [Event.settles])
  | pending | lost => rfl

theorem Driver.Inv.offer_inOrder (h : d.Inv past actions) (answer : SendAnswer)
    (hpc : d.pc.packet = some (id, packet)) (ho : d.pc.offers = some id) :
    InOrder past (.offered id packet answer) := by
  refine ⟨h.offers id ho, ?_⟩
  obtain ⟨rest, hq, -⟩ := h.queued id
  rw [hq, Driver.held_pending (h.holds _ hpc), if_pos rfl, append_assoc, append_assoc]
  rw [List.getElem?_append_right (le_refl _), Nat.sub_self]
  rfl

theorem Effect.takes_none (he : Effect s op out s') (hop : op ≠ .next) : out.takes id = none := by
  cases he with
  | same _ hq => exact Out.quiet_takes hq
  | take => exact absurd rfl hop
  | register | receive | send | pollRecv | closeSend | closeRecv | close | closeAll => rfl

theorem Effect.admits_none (he : Effect s op out s') (hop : ∀ j payload, op ≠ .trySend j payload) :
    out.admits id = none := by
  cases he with
  | same _ hq => exact Out.quiet_admits hq
  | send => exact absurd rfl (hop _ _)
  | register | receive | take | pollRecv | closeSend | closeRecv | close | closeAll => rfl

theorem admittedIn_concat (id : ℕ) (events : List Event) (e : Event) :
    admittedIn id (events ++ [e]) = admittedIn id events ++ (e.admits id).toList := filterMap_concat _ _ _

theorem settledIn_concat (id : ℕ) (events : List Event) (e : Event) :
    settledIn id (events ++ [e]) = settledIn id events ++ (e.settles id).toList := filterMap_concat _ _ _

/-- **One step keeps the packets of every session in order.** -/
theorem Driver.Inv.step (h : d.Inv past (action :: actions)) (hm : Moves d action events d') :
    d'.Inv (past ++ events) actions := by
  cases hm with
  | @call call out r he =>
    have hl : Ledger d.registry past (call.op :: calls actions) := h.ledger
    refine ⟨hl.call he, fun id => ?_, h.holds, fun id hid hst => ?_, h.inOrder.concat trivial⟩
    · have hq := hl.queued he (h.queued id)
      rw [he.takes_none (by cases call <;> nofun)] at hq
      rw [admittedIn_concat, settledIn_concat]
      simpa using hq
    · exact h.offers id hid (stale_concat hst nofun)
  | start he hpc =>
    have hl : Ledger d.registry past (calls actions) := h.ledger
    refine ⟨(hl.drive he rfl).event rfl (fun _ => rfl) nofun, fun id => ?_, fun x hx => ?_, fun id hid => ?_,
      h.inOrder.concat trivial⟩
    · have hq := (hl.skip rfl).queued he (h.queued id)
      rw [he.takes_none nofun, he.admits_none nofun] at hq
      rw [admittedIn_concat, settledIn_concat]
      simpa using hq
    · exact absurd (hpc.symm.trans hx) nofun
    · exact absurd ((Pc.offers_of_packet hpc).symm.trans hid) nofun
  | receive he hpc =>
    have hl : Ledger d.registry past (calls actions) := h.ledger
    rw [append_nil]
    refine ⟨hl.drive he rfl, fun id => ?_, fun x hx => ?_, fun id hid => ?_, h.inOrder⟩
    · have hq := (hl.skip rfl).queued he (h.queued id)
      rw [he.takes_none nofun, he.admits_none nofun] at hq
      simpa using hq
    · exact absurd (hpc.symm.trans hx) nofun
    · exact absurd ((Pc.offers_of_packet hpc).symm.trans hid) nofun
  | move ho hx =>
    rw [append_nil]
    exact { h with holds := hx, offers := fun id hid => absurd (ho.symm.trans hid) nofun }
  | @take _ x r pc hp he ho hx =>
    have hl : Ledger d.registry past (calls actions) := h.ledger
    rw [append_nil]
    refine ⟨hl.drive he rfl, fun id => ?_, hx, fun id hid => absurd (ho.symm.trans hid) nofun, h.inOrder⟩
    have hq := (hl.skip rfl).queued he (h.queued id)
    have hheld : d.held id = [] := by rw [Driver.held, hp]
    rw [he.admits_none nofun, hheld, ← Out.takes_taken x r pc id] at hq
    simpa using hq
  | @pass _ index id packet hpc ho =>
    rw [append_nil]
    refine { h with holds := fun x hx => h.holds x (by rw [hpc]; exact hx), offers := fun j hj hst => ?_ }
    -- the lock was taken in this poll, and the session was open
    injection hj with hj
    have hc := (h.ledger.closed j hst.closedIn).1
    rw [← hj, ho] at hc
    cases hc
  | @drop _ index id packet pc hpc ho hp =>
    rw [append_nil]
    refine ⟨h.ledger, fun j => ?_, fun x hx => absurd (hp.symm.trans hx) nofun,
      fun j hj => absurd ((Pc.offers_of_packet hp).symm.trans hj) nofun, h.inOrder⟩
    obtain ⟨rest, hq, hrest⟩ := h.queued j
    rw [Driver.held_pending (h.holds _ (by rw [hpc]; rfl))] at hq
    by_cases hj : id = j
    · subst hj
      have hempty := h.ledger.shut id ho
      rw [if_pos rfl, hempty] at hq
      refine ⟨packet :: rest, ?_, fun hopen => absurd (ho.symm.trans hopen) nofun⟩
      show _ = settledIn id past ++ [] ++ d.registry.outgoingOf id ++ packet :: rest
      rw [hq, hempty]
      simp
    · rw [if_neg hj] at hq
      exact ⟨rest, hq, hrest⟩
  | @keep _ index id packet answer pc hpc hs hp =>
    have hin := h.offer_inOrder answer (by rw [hpc]; rfl) (by rw [hpc]; rfl)
    refine ⟨h.ledger.event rfl (fun _ => rfl) nofun, fun j => ?_, fun x hx => absurd (hp.symm.trans hx) nofun,
      fun j hj => absurd ((Pc.offers_of_packet hp).symm.trans hj) nofun, h.inOrder.concat hin⟩
    rw [admittedIn_concat, settledIn_concat, Event.not_settles_offered hs]
    simpa using h.queued j
  | @settle _ index id packet answer pc hpc hs hp =>
    have hin := h.offer_inOrder answer (by rw [hpc]; rfl) (by rw [hpc]; rfl)
    refine ⟨h.ledger.event rfl (fun _ => rfl) nofun, fun j => ?_, fun x hx => absurd (hp.symm.trans hx) nofun,
      fun j hj => absurd ((Pc.offers_of_packet hp).symm.trans hj) nofun, h.inOrder.concat hin⟩
    have hq := h.queued j
    rw [Driver.held_pending (h.holds _ (by rw [hpc]; rfl))] at hq
    rw [admittedIn_concat, settledIn_concat, Event.settles_offered hs]
    simpa using hq

theorem Driver.Inv.run (decode : Decode) (h : d.Inv past actions) :
    ∃ events d', d.run decode actions = some (events, d') ∧ d'.Inv (past ++ events) [] := by
  induction actions generalizing d past with
  | nil => exact ⟨[], d, rfl, by rwa [append_nil]⟩
  | cons action actions ih =>
    obtain ⟨events, d₁, hs, hm⟩ := Driver.step_moves decode h.ledger.exact action
    obtain ⟨more, d', hr, h'⟩ := ih (h.step hm)
    refine ⟨events ++ more, d', ?_, by rwa [← append_assoc]⟩
    rw [Driver.run, hs]
    simp only [bind_eq_bind, bind_some, hr]

end Steps

/-- **No datagram follows a closed send direction.** In any interleaving of calls and
driver steps, an offer to the QUIC sender is never of a session that was closed before
this poll started, and it is of the first packet of its session the sender has not yet
accepted or rejected. As long as the session is open, none of its packets is lost: each
is settled, held or queued. -/
theorem closed_not_offered (decode : Decode) (maxSize : Option ℕ) (actions : List Action)
    (h : (registered (calls actions)).Nodup) :
    ∃ events d, (Driver.new maxSize).run decode actions = some (events, d) ∧
      (∀ before id packet answer after, events = before ++ .offered id packet answer :: after →
        ¬ Stale before id ∧ (admittedIn id before)[(settledIn id before).length]? = some packet) ∧
      ∀ id, d.registry.sendOpen id = true →
        admittedIn id events = settledIn id events ++ d.held id ++ d.registry.outgoingOf id := by
  have hinv : (Driver.new maxSize).Inv [] actions := by
    refine ⟨⟨State.new_exact maxSize, ⟨h, fun _ _ => rfl⟩, h, fun _ _ => rfl, fun _ _ => rfl, ?_⟩,
      fun _ => ⟨[], rfl, fun _ => rfl⟩, nofun, nofun, ?_⟩
    · rintro id ⟨before, call, out, after, heq, -⟩
      exact absurd heq (by simp)
    · intro before e after heq
      exact absurd heq (by simp)
  obtain ⟨events, d, hr, h'⟩ := hinv.run decode
  refine ⟨events, d, hr, fun before id packet answer after heq => h'.inOrder before _ after heq, fun id ho => ?_⟩
  obtain ⟨rest, hq, hrest⟩ := h'.queued id
  rw [hrest ho, append_nil] at hq
  exact hq

/-- The first packet of a session is held as the sender is not ready; then the session is
closed, and another one has its turn in the next poll. -/
def heldActions : List Action :=
  let busy : Action := .drive ⟨some 1200, .pending, .pending⟩
  let free : Action := .drive ⟨some 1200, .pending, .accepted⟩
  [.call (.register 0 true), .call (.register 4 true), .call (.negotiated true), .call (.trySend 0 [1]),
    .call (.trySend 4 [2]), busy, busy, busy, busy, busy, .call (.closeSend 0), free, free, free, free, free, free]

theorem closed_not_offered_held :
    ∃ events d, (Driver.new (some 1200)).run (fun _ => none) heldActions = some (events, d) ∧
      (∀ before id packet answer after, events = before ++ .offered id packet answer :: after →
        ¬ Stale before id ∧ (admittedIn id before)[(settledIn id before).length]? = some packet) ∧
      ∀ id, d.registry.sendOpen id = true →
        admittedIn id events = settledIn id events ++ d.held id ++ d.registry.outgoingOf id :=
  closed_not_offered _ _ heldActions (by decide)

end Netty.Datagram
