import Netty.Map.Total
import Netty.Proof.RecvBody
import Netty.Spec.Admission

/-!
# Admission slots are conserved

Every exchange is given weights: the permits it holds, its reservations and its place among the
active exchanges, each with what its owner is about to give back. The counters of the
connection are the totals of these weights.

* `State.Ok`: when an exchange holds its permit after its response head, and when it is active.
* `State.release_balance`, `State.release_ok`: what giving back does to the weights.
* `System.Inv`: the counters are the totals.
* `System.Inv.update`: one exchange changes, and the counters with it.
* `System.slots_conserved`: **no permit is lost or returned twice, in any run.**
-/

namespace Netty.H3

open List Option

/-! ## The share of an exchange -/

/-- The permits of a share. -/
def permitOf (a : Option Active) : ℕ := if a.any (·.permit) then 1 else 0

def activeOf (a : Option Active) : ℕ := if a.isSome then 1 else 0

/-- What an owner can be about to do. The driver is woken after a count was lowered. -/
def Tail (l : List Micro) : Prop :=
  l ∈ [[], [.addPermit], [.addPermit, .subActive, .check], [.subActive, .check],
    [.addPermit, .subReserved, .check], [.subReserved, .check], [.check], [.wake]]

instance (l : List Micro) : Decidable (Tail l) := inferInstanceAs (Decidable (l ∈ _))

theorem Tail.nil : Tail [] := by decide

/-- **The next step of an owner**, and what it is about to do then. -/
theorem Tail.cons {m : Micro} {l : List Micro} (h : Tail (m :: l)) :
    (m = .addPermit ∨ (m = .subActive ∨ m = .subReserved) ∧ l = [.check] ∨ (m = .check ∨ m = .wake) ∧ l = []) ∧
      Tail l := by
  simp only [Tail, mem_cons, List.cons.injEq, not_mem_nil, or_false, reduceCtorEq, false_or] at h
  rcases h with ⟨rfl, rfl⟩ | ⟨rfl, rfl⟩ | ⟨rfl, rfl⟩ | ⟨rfl, rfl⟩ | ⟨rfl, rfl⟩ | ⟨rfl, rfl⟩ | ⟨rfl, rfl⟩ <;> decide

namespace State

variable {s : State}

/-- **When an exchange holds its permit, and when it is active**: the first while its upload is pending
or its refused sending half is kept, the second until both halves are gone. -/
structure Ok (s : State) : Prop where
  admitted : ∀ a, s.active = some a → a.admitted = true
  permit : s.active.any (·.permit) = true ↔ s.pipePending = true ∨ s.refused = true ∧ s.recv.isSome = true
  active : s.active.isSome = true ↔ s.recv.isSome = true ∨ s.pipePending = true
  exclusive : s.pipePending = true → s.refused = false

/-- What is asked of a state before it is released. -/
structure Pre (s : State) : Prop where
  admitted : ∀ a, s.active = some a → a.admitted = true
  permit : s.pipePending = true ∨ s.refused = true ∧ s.recv.isSome = true → s.active.any (·.permit) = true
  active : s.recv.isSome = true ∨ s.pipePending = true → s.active.isSome = true
  exclusive : s.pipePending = true → s.refused = false

theorem Ok.dropRecv (h : Ok s) : Pre s.dropRecv where
  admitted := h.admitted
  permit := fun hp => by
    rcases hp with hp | ⟨-, hp⟩
    · exact h.permit.2 (.inl hp)
    · cases hp
  active := fun ha => by
    rcases ha with ha | ha
    · cases ha
    · exact h.active.2 (.inr ha)
  exclusive := h.exclusive

theorem Ok.pipeDone (h : Ok s) : Pre { s with pipePending := false } where
  admitted := h.admitted
  permit := fun hp => by
    rcases hp with hp | hp
    · cases hp
    · exact h.permit.2 (.inr hp)
  active := fun ha => by
    rcases ha with ha | ha
    · exact h.active.2 (.inl ha)
    · cases ha
  exclusive := nofun

theorem Ok.setError (h : Ok s) (e : Option Error) : Ok { s with error := e } :=
  { h with }

theorem Ok.setRecv (h : Ok s) (hr : s.recv.isSome = true) (g : RecvGuard) :
    Ok { s with recv := some g } := by
  refine ⟨h.admitted, ?_, ?_, h.exclusive⟩
  · have := h.permit; rw [hr] at this; exact this
  · have := h.active; rw [hr] at this; exact this

theorem release_ok (h : Pre s) : Ok s.release.2 := by
  unfold release
  split
  · rename_i hp
    exact ⟨h.admitted, ⟨fun _ => .inl hp, fun _ => h.permit (.inl hp)⟩,
      ⟨fun _ => .inr hp, fun _ => h.active (.inr hp)⟩, h.exclusive⟩
  · rename_i hp
    split
    · rename_i hr
      have hr' : s.recv.isSome = false := by rw [isNone_iff_eq_none.1 hr]; rfl
      refine ⟨fun a ha => ?_, ?_, ?_, fun _ => rfl⟩
      · cases ha
      · simp [hp]
      · simp [hp, hr']
    · rename_i hr
      have hr' : s.recv.isSome = true := by
        rw [isSome_iff_ne_none]
        exact fun h => hr (by rw [h]; rfl)
      split
      · rename_i hf
        have hf' : s.refused = false := by simpa using hf
        obtain ⟨a, ha⟩ := isSome_iff_exists.1 (h.active (.inl hr'))
        rw [ha]
        refine ⟨fun a' ha' => ?_, ?_, ?_, fun hp' => absurd hp' hp⟩
        · obtain rfl : a.releasePermit.2 = a' := some.inj ha'
          have := h.admitted a ha
          unfold Active.releasePermit
          split <;> exact this
        · unfold Active.releasePermit
          by_cases hpe : a.permit = true
          · simp [hpe, hp, hf']
          · simp [hpe, hp, hf']
        · simp [hr']
      · rename_i hf
        have hf' : s.refused = true := by simpa using hf
        exact ⟨h.admitted, ⟨fun _ => .inr ⟨hf', hr'⟩, fun _ => h.permit (.inr ⟨hf', hr'⟩)⟩,
          ⟨fun _ => .inl hr', fun _ => h.active (.inl hr')⟩, h.exclusive⟩

@[simp] theorem release_pipePending (s : State) : s.release.2.pipePending = s.pipePending := by
  unfold release; repeat' split
  all_goals rfl

/-- **What is given back was held.** -/
theorem release_balance (h : Pre s) :
    s.release.1.count .addPermit + permitOf s.release.2.active = permitOf s.active ∧
    s.release.1.count .subActive + activeOf s.release.2.active = activeOf s.active ∧
    s.release.1.count .subReserved = 0 ∧ Tail s.release.1 := by
  unfold release
  split
  · exact ⟨by simp, by simp, rfl, .nil⟩
  · split
    · cases ha : s.active with
      | none => exact ⟨rfl, rfl, rfl, .nil⟩
      | some a =>
        have hadm := h.admitted a ha
        unfold Active.drop Active.releasePermit permitOf
        by_cases hp : a.permit = true
        · simp only [map_some, getD_some, hadm, hp, if_true, any_some, any_none]
          exact ⟨rfl, rfl, rfl, by decide⟩
        · simp only [map_some, getD_some, hadm, hp, if_true, any_some, any_none,
            Bool.false_eq_true, if_false]
          exact ⟨rfl, rfl, rfl, by decide⟩
    · split
      · cases ha : s.active with
        | none => simp only [ha]; exact ⟨rfl, rfl, rfl, .nil⟩
        | some a =>
          unfold Active.releasePermit permitOf
          by_cases hp : a.permit = true
          · simp only [hp, if_true, any_some]
            exact ⟨rfl, rfl, rfl, by decide⟩
          · simp only [hp, Bool.false_eq_true, if_false, any_some]
            exact ⟨rfl, rfl, rfl, .nil⟩
      · exact ⟨by simp, by simp, rfl, .nil⟩

end State

namespace RecvBody

variable {b : RecvBody}

/-- **Steps that leave a body in order**: what they give back was held. Afterwards the upload is
pending or not. -/
structure Keeps (b : RecvBody) (pending : Bool) (x : List Micro × RecvBody) : Prop where
  ok : x.2.state.Ok
  pipe : x.2.state.pipePending = pending
  permits : x.1.count .addPermit + permitOf x.2.state.active = permitOf b.state.active
  actives : x.1.count .subActive + activeOf x.2.state.active = activeOf b.state.active
  reservations : x.1.count .subReserved = 0
  tail : Tail x.1

theorem Keeps.quiet {b' : RecvBody} (h : b'.state.Ok) (ha : b'.state.active = b.state.active)
    (hp : b'.state.pipePending = b.state.pipePending) : Keeps b b.state.pipePending ([], b') where
  ok := h
  pipe := hp
  permits := by rw [ha]; simp
  actives := by rw [ha]; simp
  reservations := rfl
  tail := .nil

theorem Keeps.release {s : State} (h : s.Pre) (ha : s.active = b.state.active) {b' : RecvBody}
    (hb : ∃ e, b'.state = { s.release.2 with error := e }) : Keeps b s.pipePending (s.release.1, b') := by
  obtain ⟨hp, hc, hr, ht⟩ := State.release_balance h
  obtain ⟨e, he⟩ := hb
  refine ⟨?_, ?_, ?_, ?_, hr, ht⟩
  · rw [he]; exact (State.release_ok h).setError e
  · rw [he]; exact State.release_pipePending s
  · rw [he, ← ha]; exact hp
  · rw [he, ← ha]; exact hc

theorem keeps_drop (h : b.state.Ok) : Keeps b b.state.pipePending b.drop := by
  unfold drop
  split
  · exact Keeps.release h.dropRecv rfl ⟨_, rfl⟩
  · exact Keeps.quiet h rfl rfl

theorem keeps_pipeDone (h : b.state.Ok) : Keeps b false b.pipeDone := Keeps.release h.pipeDone rfl ⟨_, rfl⟩

theorem keeps_cancel (h : b.state.Ok) (published : Option Error) (e : Error) :
    Keeps b b.state.pipePending (b.cancel published e) := by
  unfold cancel
  split
  · exact Keeps.release h.dropRecv rfl ⟨_, rfl⟩
  · exact Keeps.quiet h rfl rfl

theorem keeps_settle {x : Outcome} {pending : Bool} (h : Keeps b pending x.2) : Keeps b pending (settle x).2 := by
  obtain ⟨r | _ | _ | _, ms, b'⟩ := x <;> exact { h with }

section

variable (h : b.state.Ok) (hr : b.state.recv.isSome = true) (g : RecvGuard) (published : Option Error)

include h hr g published

theorem keeps_fail (e : Error) : Keeps b b.state.pipePending ((b.setRecv g).fail published e).2 :=
  Keeps.release (h.setRecv hr g).dropRecv rfl ⟨_, rfl⟩

theorem keeps_pollTrailers : Keeps b b.state.pipePending (b.pollTrailers published g).2 := by
  unfold pollTrailers
  rcases g.stream.pollRecvTrailers with ⟨_ | e | trailers, stream⟩
  · exact Keeps.quiet (h.setRecv hr _) rfl rfl
  · exact keeps_fail h hr _ published _
  · exact Keeps.release (h.setRecv hr _).dropRecv rfl ⟨_, rfl⟩

theorem keeps_pollData : Keeps b b.state.pipePending (b.pollData published g).2 := by
  unfold pollData
  rcases g.stream.pollRecvData with ⟨_ | e | _ | data, stream⟩
  · exact Keeps.quiet (h.setRecv hr _) rfl rfl
  · exact keeps_fail h hr _ published _
  · simp only
    split
    · exact keeps_fail h hr _ published _
    · have hb : Keeps { b.setRecv { g with stream := stream } with dataDone := true } b.state.pipePending _ :=
        keeps_pollTrailers (h.setRecv hr _) rfl { g with stream := stream } published
      exact { hb with }
  · simp only
    split
    · exact Keeps.quiet (h.setRecv hr _) rfl rfl
    · exact keeps_fail h hr _ published _

end

theorem keeps_pollFrame (h : b.state.Ok) (published : Option Error) :
    Keeps b b.state.pipePending (b.pollFrame published).2 := by
  unfold pollFrame
  split
  · exact Keeps.quiet h rfl rfl
  · refine keeps_settle ?_
    unfold pollState
    cases hr : b.state.recv with
    | none => exact Keeps.quiet (h.setError _) rfl rfl
    | some g =>
      simp only
      split
      · exact keeps_pollTrailers h (by rw [hr]; rfl) g published
      · exact keeps_pollData h (by rw [hr]; rfl) g published

theorem keeps_new (g : RecvGuard) (remaining : Option ℕ) {pipePending refused : Bool}
    (hex : pipePending = true → refused = false) :
    Keeps ⟨⟨some g, some ⟨true, true⟩, pipePending, refused, none, none⟩, false, remaining, false, false⟩ pipePending
      (new g remaining ⟨true, true⟩ pipePending refused) := by
  have hpre : State.Pre ⟨some g, some ⟨true, true⟩, pipePending, refused, none, none⟩ :=
    ⟨fun a ha => by rw [← some.inj ha], fun _ => rfl, fun _ => rfl, hex⟩
  exact Keeps.release hpre rfl ⟨_, rfl⟩

end RecvBody

/-! ## Weights -/

namespace Phase

def permits : Phase → ℕ
  | .waiting true | .acquired | .counted | .running | .tunnel => 1
  | .responded b _ _ => permitOf b.state.active
  | _ => 0

def reservations : Phase → ℕ
  | .reserved | .waiting _ | .acquired | .counted => 1
  | _ => 0

def actives : Phase → ℕ
  | .counted | .running | .tunnel => 1
  | .responded b _ _ => activeOf b.state.active
  | _ => 0

theorem reservations_le (p : Phase) : p.reservations ≤ 1 := by
  unfold reservations
  split <;> decide

theorem actives_le (p : Phase) : p.actives ≤ 1 := by
  unfold actives activeOf
  repeat' split
  all_goals decide

/-- No permit was given yet. -/
def early : Phase → Bool
  | .checked | .reserved | .waiting false => true
  | _ => false

end Phase

namespace Exchange

/-- The permits an exchange holds, or is about to return. -/
def permits (e : Exchange) : ℕ := e.todo.count .addPermit + e.phase.permits

/-- Its reservation, if it has one that was not given up yet. -/
def reservations (e : Exchange) : ℕ := e.todo.count .subReserved + e.phase.reservations

/-- Its place among the active exchanges, if it was not given up yet. -/
def actives (e : Exchange) : ℕ := e.todo.count .subActive + e.phase.actives

/-- **An exchange in order.** -/
structure Ok (e : Exchange) : Prop where
  tail : Tail e.todo
  account : e.taken = e.returned + e.permits
  once : e.taken ≤ 1
  reservations : e.reservations ≤ 1
  actives : e.actives ≤ 1
  early : e.phase.early = true → e.taken = 0
  body : ∀ b held piping, e.phase = .responded b held piping → b.state.Ok ∧ b.state.pipePending = piping

theorem Ok.move {e e' : Exchange} (h : e.Ok) (ht : e'.taken = e.taken) (hr : e'.returned = e.returned)
    (hp : e'.permits = e.permits) (hres : e'.reservations ≤ 1) (hact : e'.actives ≤ 1) (htail : Tail e'.todo)
    (hearly : e'.phase.early = true → e.phase.early = true)
    (hbody : ∀ b held piping, e'.phase = .responded b held piping → b.state.Ok ∧ b.state.pipePending = piping) :
    e'.Ok where
  tail := htail
  account := by rw [ht, hr, hp]; exact h.account
  once := by rw [ht]; exact h.once
  reservations := hres
  actives := hact
  early := fun he => by rw [ht]; exact h.early (hearly he)
  body := hbody

theorem Ok.take {e e' : Exchange} (h : e.Ok) (he : e.phase.early = true) (ht : e'.taken = e.taken + 1)
    (hr : e'.returned = e.returned) (hp : e'.permits = e.permits + 1) (hres : e'.reservations ≤ 1)
    (hact : e'.actives ≤ 1) (htail : Tail e'.todo) (hearly : e'.phase.early = false)
    (hbody : ∀ b held piping, e'.phase ≠ .responded b held piping) : e'.Ok where
  tail := htail
  account := by rw [ht, hr, hp, h.account]; omega
  once := by rw [ht, h.early he]
  reservations := hres
  actives := hact
  early := fun hc => by rw [hearly] at hc; cases hc
  body := fun b held piping hc => absurd hc (hbody b held piping)

end Exchange

namespace System

variable {limit limit' i : ℕ} {s t : System} {e e' : Exchange}

/-- **The counters are the totals of the weights**, and who waits for a permit waits in the queue. -/
structure Inv (limit : ℕ) (s : System) : Prop where
  permits : s.shared.permits + s.exchanges.total Exchange.permits = limit
  reserved : s.shared.reserved = s.exchanges.total Exchange.reservations
  active : s.shared.active = s.exchanges.total Exchange.actives
  nodup : s.shared.queue.Nodup
  queue : ∀ j ∈ s.shared.queue, ∃ e, s.exchanges.lookup j = some e ∧ e.phase = .waiting false
  ok : ∀ j e, s.exchanges.lookup j = some e → e.Ok

theorem own_ind {P : System → Prop} {f : Exchange → System} (h : P s)
    (hf : ∀ e, s.exchanges.lookup i = some e → e.todo = [] → P (f e)) : P (s.own i f) := by
  unfold own
  split
  · rename_i e he
    split
    · rename_i ht
      exact hf e he ht
    · exact h
  · exact h

theorem Inv.congr (h : Inv limit s) (hp : t.shared.permits = s.shared.permits)
    (hr : t.shared.reserved = s.shared.reserved) (ha : t.shared.active = s.shared.active)
    (hq : t.shared.queue = s.shared.queue) (he : t.exchanges = s.exchanges) : Inv limit t where
  permits := by rw [hp, he]; exact h.permits
  reserved := by rw [hr, he]; exact h.reserved
  active := by rw [ha, he]; exact h.active
  nodup := by rw [hq]; exact h.nodup
  queue := by rw [hq, he]; exact h.queue
  ok := by rw [he]; exact h.ok

section

variable (h : Inv limit s) (hi : s.exchanges.lookup i = some e)

include h hi

/-- **One exchange changes, and the counters with it.** -/
theorem Inv.update (ht : t.exchanges = s.exchanges.insert i e')
    (hok : e'.Ok) (hp : t.shared.permits + e'.permits + limit = s.shared.permits + e.permits + limit')
    (hr : t.shared.reserved + e.reservations = s.shared.reserved + e'.reservations)
    (ha : t.shared.active + e.actives = s.shared.active + e'.actives) (hn : t.shared.queue.Nodup)
    (hq : ∀ j ∈ t.shared.queue, (j = i ∧ e'.phase = .waiting false) ∨ (j ≠ i ∧ j ∈ s.shared.queue)) :
    Inv limit' t := by
  have hlook : ∀ j, j ≠ i → t.exchanges.lookup j = s.exchanges.lookup j := fun j hj => by
    rw [ht, AList.lookup_insert_ne hj]
  have hself : t.exchanges.lookup i = some e' := by rw [ht, AList.lookup_insert]
  refine ⟨?_, ?_, ?_, hn, fun j hj => ?_, fun j x hx => ?_⟩
  · have := AList.total_update (w := Exchange.permits) hi e'
    rw [← ht] at this
    have := h.permits
    omega
  · have := AList.total_update (w := Exchange.reservations) hi e'
    rw [← ht] at this
    have := h.reserved
    omega
  · have := AList.total_update (w := Exchange.actives) hi e'
    rw [← ht] at this
    have := h.active
    omega
  · obtain ⟨rfl, hph⟩ | ⟨hne, hm⟩ := hq j hj
    · exact ⟨e', hself, hph⟩
    · rw [hlook j hne]
      exact h.queue j hm
  · by_cases hj : j = i
    · subst hj
      rw [hself] at hx
      cases hx
      exact hok
    · rw [hlook j hj] at hx
      exact h.ok j x hx

theorem Inv.notMem (hp : e.phase ≠ .waiting false) : i ∉ s.shared.queue := by
  intro hm
  obtain ⟨x, hx, hph⟩ := h.queue i hm
  rw [hi] at hx
  cases hx
  exact hp hph

/-- **One exchange changes, and the queue does not.** -/
theorem Inv.change (ht : t.exchanges = s.exchanges.insert i e')
    (hw : e.phase = .waiting false → e'.phase = .waiting false) (hq : t.shared.queue = s.shared.queue) (hok : e'.Ok)
    (hp : t.shared.permits + e'.permits + limit = s.shared.permits + e.permits + limit')
    (hr : t.shared.reserved + e.reservations = s.shared.reserved + e'.reservations)
    (ha : t.shared.active + e.actives = s.shared.active + e'.actives) : Inv limit' t := by
  refine h.update hi ht hok hp hr ha (hq ▸ h.nodup) fun j hj => ?_
  rw [hq] at hj
  by_cases hji : j = i
  · subst hji
    obtain ⟨x, hx, hxp⟩ := h.queue j hj
    rw [hi] at hx
    cases hx
    exact .inl ⟨rfl, hw hxp⟩
  · exact .inr ⟨hji, hj⟩

/-! ## Steps -/

theorem Inv.dropReserved (ht : e.todo = []) {assigned : Bool}
    (hp : e.phase = .reserved ∧ assigned = false ∨ e.phase = .waiting assigned) :
    Inv limit (s.dropReserved i e assigned) := by
  have hw : e.permits = (if assigned then 1 else 0) ∧ e.reservations = 1 ∧ e.actives = 0 := by
    rcases hp with ⟨hp, rfl⟩ | hp
    · simp [Exchange.permits, Exchange.reservations, Exchange.actives, ht, hp, Phase.permits, Phase.reservations,
        Phase.actives]
    · cases assigned <;> simp [Exchange.permits, Exchange.reservations, Exchange.actives, ht, hp, Phase.permits,
        Phase.reservations, Phase.actives]
  have hw' : ∀ e' : Exchange, e'.phase = .gone →
      e'.todo = (if assigned then [Micro.addPermit] else []) ++ Active.drop ⟨false, false⟩ →
      e'.permits = (if assigned then 1 else 0) ∧ e'.reservations = 1 ∧ e'.actives = 0 ∧ Tail e'.todo := by
    intro e' hph htodo
    unfold Exchange.permits Exchange.reservations Exchange.actives
    rw [hph, htodo]
    cases assigned
    · exact ⟨rfl, rfl, rfl, by decide⟩
    · exact ⟨rfl, rfl, rfl, by decide⟩
  obtain ⟨h1, h2, h3, h4⟩ := hw' { e with
    phase := .gone, todo := (if assigned then [Micro.addPermit] else []) ++ Active.drop ⟨false, false⟩ } rfl rfl
  refine h.update hi rfl ((h.ok i e hi).move rfl rfl (h1.trans hw.1.symm) h2.le (h3.trans_le (Nat.zero_le 1)) h4
    nofun
    fun b held piping hc => by cases hc) ?_ ?_ ?_ (h.nodup.erase i) fun j hj => .inr ?_
  · rw [h1, hw.1]; rfl
  · rw [h2, hw.2.1]; rfl
  · rw [h3, hw.2.2]; rfl
  · exact (Nodup.mem_erase_iff h.nodup).1 hj

theorem Inv.takePermit (ht : e.todo = [])
    (hp : e.phase = .reserved ∨ e.phase = .waiting false) (hpos : 0 < s.shared.permits) :
    Inv limit (s.takePermit i e) := by
  have hw : e.permits = 0 ∧ e.reservations = 1 ∧ e.actives = 0 ∧ e.phase.early = true := by
    rcases hp with hp | hp <;> simp [Exchange.permits, Exchange.reservations, Exchange.actives, ht, hp, Phase.permits,
      Phase.reservations, Phase.actives, Phase.early]
  have hw' : ({ e with phase := .acquired, taken := e.taken + 1 } : Exchange).permits = 1 ∧
      ({ e with phase := .acquired, taken := e.taken + 1 } : Exchange).reservations = 1 ∧
      ({ e with phase := .acquired, taken := e.taken + 1 } : Exchange).actives = 0 := by
    simp [Exchange.permits, Exchange.reservations, Exchange.actives, ht, Phase.permits, Phase.reservations,
      Phase.actives]
  refine h.update hi rfl ((h.ok i e hi).take hw.2.2.2 rfl rfl (by rw [hw'.1, hw.1]) hw'.2.1.le
    (hw'.2.2.trans_le (Nat.zero_le 1)) (h.ok i e hi).tail rfl
    fun b held piping hc => by cases hc) ?_ ?_ ?_ (h.nodup.erase i) fun j hj => .inr ?_
  · rw [hw'.1, hw.1]
    show s.shared.permits - 1 + 1 + limit = _
    omega
  · rw [hw'.2.1, hw.2.1]; rfl
  · rw [hw'.2.2, hw.2.2.1]; rfl
  · exact (Nodup.mem_erase_iff h.nodup).1 hj

end

theorem weights_of_idle (ht : e.todo = []) : e.permits = e.phase.permits ∧ e.reservations = e.phase.reservations ∧
    e.actives = e.phase.actives := by
  simp [Exchange.permits, Exchange.reservations, Exchange.actives, ht]

section

variable (h : Inv limit s)

include h

/-- **An exchange moves on**, and its permit with it. -/
theorem Inv.move (hi : s.exchanges.lookup i = some e) (ht : e.todo = []) {p₀ p : Phase}
    (hp₀ : e.phase = p₀) (hne : p₀ ≠ .waiting false) (hx : t.exchanges = s.exchanges.insert i { e with phase := p })
    (hq : t.shared.queue = s.shared.queue) (hp : t.shared.permits = s.shared.permits) (hpp : p.permits = p₀.permits)
    (hr : t.shared.reserved + p₀.reservations = s.shared.reserved + p.reservations)
    (ha : t.shared.active + p₀.actives = s.shared.active + p.actives) (hearly : p.early = true → p₀.early = true)
    (hbody : ∀ b held piping, p ≠ .responded b held piping) : Inv limit t := by
  subst hp₀
  obtain ⟨h1, h2, h3⟩ := weights_of_idle ht
  obtain ⟨h1', h2', h3'⟩ := weights_of_idle (e := { e with phase := p }) ht
  refine h.change hi hx (fun hc => absurd hc hne) hq ((h.ok i e hi).move rfl rfl (by rw [h1', h1]; exact hpp)
    (h2'.trans_le p.reservations_le) (h3'.trans_le p.actives_le) (ht ▸ .nil) hearly
    fun b held piping hc => absurd hc (hbody b held piping)) ?_ ?_ ?_
  · rw [hp, h1', h1, hpp]
  · rw [h2', h2]; exact hr
  · rw [h3', h3]; exact ha

theorem Inv.acquire (i : ℕ) : Inv limit (s.acquire i) := by
  refine own_ind h fun e hi ht => ?_
  have hok := h.ok i e hi
  obtain ⟨h1, h2, h3⟩ := weights_of_idle ht
  split
  · rename_i hp
    split
    · exact h.dropReserved hi ht (.inl ⟨hp, rfl⟩)
    · split
      · rename_i hpos
        exact h.takePermit hi ht (.inl hp) hpos
      · -- it has to wait
        obtain ⟨h1', h2', h3'⟩ := weights_of_idle (e := { e with phase := .waiting false }) ht
        refine h.update hi rfl (hok.move rfl rfl ?_ (h2'.trans_le (Phase.reservations_le _))
          (h3'.trans_le (Phase.actives_le _)) (ht ▸ .nil) (fun _ => by rw [hp]; rfl)
          fun b held piping hc => by cases hc) ?_ ?_ ?_ ?_ fun j hj => ?_
        · rw [h1', h1, hp]; rfl
        · rw [h1', h1, hp]; rfl
        · rw [h2', h2, hp]; rfl
        · rw [h3', h3, hp]; rfl
        · have hni := h.notMem hi (by rw [hp]; simp)
          exact nodup_append.2 ⟨h.nodup, by simp, fun a ha b hb => by
            rw [mem_singleton.1 hb]; rintro rfl; exact hni ha⟩
        · rcases mem_append.1 hj with hmem | hmem
          · refine .inr ⟨?_, hmem⟩
            rintro rfl
            exact h.notMem hi (by rw [hp]; simp) hmem
          · exact .inl ⟨mem_singleton.1 hmem, rfl⟩
  · rename_i assigned hp
    split
    · exact h.dropReserved hi ht (.inr hp)
    · split
      · rename_i ha
        subst ha
        exact h.move hi ht hp (by simp) rfl rfl rfl rfl rfl rfl nofun
          fun b held piping hc => by cases hc
      · split
        · rename_i ha hpos
          exact h.takePermit hi ht (.inr (by rw [hp]; simpa using ha)) hpos
        · exact h
  · exact h

theorem Inv.check (i : ℕ) : Inv limit (s.check i) := by
  unfold System.check
  split
  · rename_i hc
    have hnone : s.exchanges.lookup i = none := by
      simp only [Bool.and_eq_true, isNone_iff_eq_none] at hc
      exact hc.2
    have hlook : ∀ j, j ≠ i → (s.exchanges.insert i ⟨.checked, [], 0, 0⟩).lookup j = s.exchanges.lookup j :=
      fun j hj => AList.lookup_insert_ne hj
    have htotal : ∀ w : Exchange → ℕ, w ⟨.checked, [], 0, 0⟩ = 0 →
        (s.exchanges.insert i ⟨.checked, [], 0, 0⟩).total w = s.exchanges.total w := fun w hw => by
      rw [AList.total_insert_new hnone, hw, zero_add]
    refine ⟨?_, ?_, ?_, h.nodup, fun j hj => ?_, fun j e he => ?_⟩
    · exact (congrArg (s.shared.permits + ·) (htotal _ rfl)).trans h.permits
    · exact h.reserved.trans (htotal _ rfl).symm
    · exact h.active.trans (htotal _ rfl).symm
    · obtain ⟨e, he, hp⟩ := h.queue j hj
      have hji : j ≠ i := by
        rintro rfl
        rw [hnone] at he
        cases he
      exact ⟨e, (hlook j hji).trans he, hp⟩
    · by_cases hji : j = i
      · subst hji
        rw [System.put, AList.lookup_insert] at he
        cases he
        exact ⟨.nil, rfl, Nat.zero_le 1, Nat.zero_le 1, Nat.zero_le 1, fun _ => rfl,
          fun b held piping hc => by cases hc⟩
      · exact h.ok j e ((hlook j hji).symm.trans he)
  · exact h

theorem Inv.reserve (i : ℕ) : Inv limit (s.reserve i) := by
  refine own_ind h fun e hi ht => ?_
  split
  · rename_i hp
    exact h.move hi ht hp (by simp) rfl rfl rfl rfl rfl rfl (fun _ => rfl)
      fun b held piping hc => by cases hc
  · exact h

theorem Inv.count (i : ℕ) : Inv limit (s.count i) := by
  refine own_ind h fun e hi ht => ?_
  split
  · rename_i hp
    exact h.move hi ht hp (by simp) rfl rfl rfl rfl rfl rfl nofun
      fun b held piping hc => by cases hc
  · exact h

theorem Inv.le_reserved (hi : s.exchanges.lookup i = some e) : e.reservations ≤ s.shared.reserved :=
  h.reserved ▸ AList.le_total hi

theorem Inv.le_active (hi : s.exchanges.lookup i = some e) : e.actives ≤ s.shared.active :=
  h.active ▸ AList.le_total hi

theorem Inv.unreserve (i : ℕ) : Inv limit (s.unreserve i) := by
  refine own_ind h fun e hi ht => ?_
  split
  · rename_i hp
    have hle := h.le_reserved hi
    rw [(weights_of_idle ht).2.1, hp] at hle
    refine h.move hi ht hp (by simp) rfl rfl rfl rfl ?_ rfl nofun
      fun b held piping hc => by cases hc
    show s.shared.reserved - 1 + 1 = s.shared.reserved + 0
    have : 1 ≤ s.shared.reserved := hle
    omega
  · exact h

theorem Inv.upgrade (i : ℕ) : Inv limit (s.upgrade i) := by
  refine own_ind h fun e hi ht => ?_
  split
  · rename_i hp
    exact h.move hi ht hp (by simp) rfl rfl rfl rfl rfl rfl nofun
      fun b held piping hc => by cases hc
  · exact h

theorem Inv.dropAdmitted (hi : s.exchanges.lookup i = some e) (ht : e.todo = [])
    (hp : e.phase = .running ∨ e.phase = .tunnel) :
    Inv limit (s.put i { e with phase := .gone, todo := Active.drop ⟨true, true⟩ }) := by
  obtain ⟨h1, h2, h3⟩ := weights_of_idle ht
  have hw : e.phase.permits = 1 ∧ e.phase.reservations = 0 ∧ e.phase.actives = 1 ∧ e.phase ≠ .waiting false := by
    rcases hp with hp | hp <;> rw [hp] <;> exact ⟨rfl, rfl, rfl, by simp⟩
  have htail : Tail (Active.drop ⟨true, true⟩) := by decide
  refine h.change hi rfl (fun hc => absurd hc hw.2.2.2) rfl ((h.ok i e hi).move rfl rfl ?_ (Nat.zero_le 1) le_rfl htail
    nofun fun b held piping hc => by cases hc) ?_ ?_ ?_
  · rw [h1, hw.1]; rfl
  · rw [h1, hw.1]; rfl
  · rw [h2, hw.2.1]; rfl
  · rw [h3, hw.2.2.1]; rfl

theorem Inv.cancel (i : ℕ) : Inv limit (s.cancel i) := by
  refine own_ind h fun e hi ht => ?_
  split
  · rename_i hp
    exact h.dropReserved hi ht (.inl ⟨hp, rfl⟩)
  · rename_i assigned hp
    exact h.dropReserved hi ht (.inr hp)
  · rename_i hp
    exact h.dropAdmitted hi ht (.inl hp)
  · rename_i hp
    exact h.dropAdmitted hi ht (.inr hp)
  · exact h

/-- **Something is done to a body**, or a body is made, and what is given back was held. -/
theorem Inv.keeps (hi : s.exchanges.lookup i = some e) (ht : e.todo = []) {b : RecvBody}
    (hp : e.phase.permits = permitOf b.state.active) (ha : e.phase.actives = activeOf b.state.active)
    (hr : e.phase.reservations = 0) (hne : e.phase ≠ .waiting false) {x : List Micro × RecvBody} {held pending : Bool}
    (hk : RecvBody.Keeps b pending x) :
    Inv limit (s.put i { e with phase := .responded x.2 held pending, todo := x.1 }) := by
  obtain ⟨h1, h2, h3⟩ := weights_of_idle ht
  have hperm : Exchange.permits { e with phase := .responded x.2 held pending, todo := x.1 } = e.permits := by
    rw [h1, hp]; exact hk.permits
  refine h.change hi rfl (fun hc => absurd hc hne) rfl ((h.ok i e hi).move rfl rfl hperm ?_ ?_ hk.tail nofun
    fun b' held' piping' hc => ?_) ?_ ?_ ?_
  · exact hk.reservations.trans_le (Nat.zero_le 1)
  · exact hk.actives.trans_le (ha ▸ e.phase.actives_le)
  · cases hc
    exact ⟨hk.ok, hk.pipe⟩
  · rw [hperm]; rfl
  · rw [h2, hr]
    exact congrArg (s.shared.reserved + ·) hk.reservations.symm
  · rw [h3, ha]
    exact congrArg (s.shared.active + ·) hk.actives.symm

theorem Inv.respond (i : ℕ) (answers : RecvAnswers) (declared : Option ℕ) (sending : Sending) :
    Inv limit (s.respond i answers declared sending) := by
  refine own_ind h fun e hi ht => ?_
  split
  · rename_i hp
    exact h.keeps hi ht (by rw [hp]; rfl) (by rw [hp]; rfl) (by rw [hp]; rfl) (by rw [hp]; simp)
      (RecvBody.keeps_new (.fresh answers) declared (by cases sending <;> simp))
  · exact h

end

section Body

variable {b : RecvBody} {held piping : Bool} {todo : List Micro}

theorem Inv.onBody (h : Inv limit s) (hi : s.exchanges.lookup i = some e) (ht : e.todo = [])
    (hp : e.phase = .responded b held piping) {x : List Micro × RecvBody} {held' pending : Bool}
    (hk : RecvBody.Keeps b pending x) :
    Inv limit (s.put i { e with phase := .responded x.2 held' pending, todo := x.1 }) :=
  h.keeps hi ht (by rw [hp]; rfl) (by rw [hp]; rfl) (by rw [hp]; rfl) (by rw [hp]; simp) hk

theorem Inv.read (h : Inv limit s) (i : ℕ) (published : Option Error) : Inv limit (s.read i published) := by
  refine own_ind h fun e hi ht => ?_
  split
  · rename_i b piping hp
    obtain ⟨hok, hpipe⟩ := (h.ok i e hi).body b true piping hp
    exact h.onBody hi ht hp (hpipe ▸ RecvBody.keeps_pollFrame hok published)
  · exact h

theorem Inv.dropBody (h : Inv limit s) (i : ℕ) : Inv limit (s.dropBody i) := by
  refine own_ind h fun e hi ht => ?_
  split
  · rename_i b piping hp
    obtain ⟨hok, hpipe⟩ := (h.ok i e hi).body b true piping hp
    exact h.onBody hi ht hp (hpipe ▸ RecvBody.keeps_drop hok)
  · exact h

theorem Inv.cancelBody (h : Inv limit s) (i : ℕ) (published : Option Error) (err : Error) :
    Inv limit (s.cancelBody i published err) := by
  refine own_ind h fun e hi ht => ?_
  split
  · rename_i b held piping hp
    obtain ⟨hok, hpipe⟩ := (h.ok i e hi).body b held piping hp
    exact h.onBody hi ht hp (hpipe ▸ RecvBody.keeps_cancel hok published err)
  · exact h

theorem Inv.pipeDone (h : Inv limit s) (i : ℕ) : Inv limit (s.pipeDone i) := by
  refine own_ind h fun e hi ht => ?_
  split
  · rename_i b held hp
    exact h.onBody hi ht hp (RecvBody.keeps_pipeDone ((h.ok i e hi).body b held true hp).1)
  · exact h

end Body

/-- **A permit that nobody holds** becomes available, or is assigned. -/
theorem Inv.addPermit (h : Inv limit s) : Inv (limit + 1) s.addPermit := by
  unfold System.addPermit
  cases hq : s.shared.queue with
  | nil =>
    refine { h with permits := ?_ }
    have := h.permits
    show s.shared.permits + 1 + s.exchanges.total Exchange.permits = limit + 1
    omega
  | cons w queue =>
    obtain ⟨e, hw, hp⟩ := h.queue w (by rw [hq]; simp)
    have hnd := h.nodup
    rw [hq, nodup_cons] at hnd
    simp only [hw]
    have hok := h.ok w e hw
    have hpe : e.permits = e.todo.count .addPermit := by rw [Exchange.permits, hp]; rfl
    have hres : e.reservations = e.todo.count .subReserved + 1 := by rw [Exchange.reservations, hp]; rfl
    have hact : e.actives = e.todo.count .subActive := by rw [Exchange.actives, hp]; rfl
    refine h.update hw rfl (hok.take (by rw [hp]; rfl) rfl rfl (by rw [hpe]; rfl) (hres.symm.trans_le hok.reservations)
      (hact.symm.trans_le hok.actives) hok.tail rfl
      fun b held piping hc => by cases hc) ?_ ?_ ?_ hnd.2 fun j hj => .inr ⟨?_, ?_⟩
    · rw [hpe]
      show s.shared.permits + (e.todo.count .addPermit + 1) + limit = _
      omega
    · rw [hres]; rfl
    · rw [hact]; rfl
    · rintro rfl; exact hnd.1 hj
    · rw [hq]; exact mem_cons_of_mem _ hj

theorem Inv.returnPermit (h : Inv limit s) (hi : s.exchanges.lookup i = some e)
    (ht : e.todo = .addPermit :: todo) :
    ∃ n, limit = n + 1 ∧ Inv n (s.put i { e with todo := todo, returned := e.returned + 1 }) := by
  have hok := h.ok i e hi
  have hpe : e.permits = todo.count .addPermit + e.phase.permits + 1 := by
    rw [Exchange.permits, ht, count_cons_self]; omega
  have hle : e.permits ≤ limit := by
    have := AList.le_total (w := Exchange.permits) hi
    have := h.permits
    omega
  have hres : e.reservations = todo.count .subReserved + e.phase.reservations := by
    rw [Exchange.reservations, ht, count_cons_of_ne (by decide)]
  have hact : e.actives = todo.count .subActive + e.phase.actives := by
    rw [Exchange.actives, ht, count_cons_of_ne (by decide)]
  refine ⟨limit - 1, by omega, h.change hi rfl id rfl ⟨?_, ?_, hok.once, hres.symm.trans_le hok.reservations,
    hact.symm.trans_le hok.actives, hok.early, hok.body⟩ ?_ ?_ ?_⟩
  · have := hok.tail
    rw [ht] at this
    exact this.cons.2
  · rw [hok.account, hpe]
    show _ = e.returned + 1 + (todo.count .addPermit + e.phase.permits)
    omega
  · rw [hpe]
    show s.shared.permits + (todo.count .addPermit + e.phase.permits) + limit = _
    omega
  · rw [hres]; rfl
  · rw [hact]; rfl

/-- What an atomic step changes: the counter that it lowers, and what its owner does next. -/
structure Executed (sh : Shared) (m : Micro) (todo : List Micro) : Prop where
  permits : (sh.exec m).2.permits = sh.permits
  queue : (sh.exec m).2.queue = sh.queue
  reserved : (sh.exec m).2.reserved = sh.reserved - [m].count .subReserved
  active : (sh.exec m).2.active = sh.active - [m].count .subActive
  count : ∀ a, a ≠ .wake → ((sh.exec m).1 ++ todo).count a = todo.count a
  tail : Tail ((sh.exec m).1 ++ todo)

theorem executed {m : Micro} (h : Tail (m :: todo)) (hm : m ≠ .addPermit) (sh : Shared) :
    Executed sh m todo := by
  obtain ⟨hcases, htail⟩ := h.cons
  obtain rfl | ⟨rfl | rfl, rfl⟩ | ⟨rfl | rfl, rfl⟩ := hcases
  · exact absurd rfl hm
  · exact ⟨rfl, rfl, rfl, rfl, fun _ _ => rfl, htail⟩
  · exact ⟨rfl, rfl, rfl, rfl, fun _ _ => rfl, htail⟩
  · -- `draining` is read, and it may be that the driver has to be woken
    refine ⟨rfl, rfl, rfl, rfl, fun a ha => ?_, ?_⟩ <;> simp only [Shared.exec] <;> split
    · exact count_cons_of_ne ha.symm
    · rfl
    · decide
    · decide
  · exact ⟨rfl, rfl, rfl, rfl, fun _ _ => rfl, htail⟩

/-- **The next atomic step** of an owner that returns no permit. -/
theorem Inv.execShared (h : Inv limit s) (hi : s.exchanges.lookup i = some e) {m : Micro}
    (ht : e.todo = m :: todo) (hm : m ≠ .addPermit) :
    Inv limit ({ s with shared := (s.shared.exec m).2 }.put i { e with todo := (s.shared.exec m).1 ++ todo }) := by
  have hok := h.ok i e hi
  have hx := executed (ht ▸ hok.tail) hm s.shared
  set e' : Exchange := { e with todo := (s.shared.exec m).1 ++ todo } with he'
  have hperm : e'.permits = e.permits := by
    rw [Exchange.permits, Exchange.permits, ht, count_cons_of_ne hm]
    exact congrArg (· + e.phase.permits) (hx.count .addPermit (by decide))
  have hres : e.reservations = [m].count .subReserved + e'.reservations := by
    rw [Exchange.reservations, Exchange.reservations, ht, ← singleton_append, count_append,
      hx.count .subReserved (by decide), add_assoc]
  have hact : e.actives = [m].count .subActive + e'.actives := by
    rw [Exchange.actives, Exchange.actives, ht, ← singleton_append, count_append,
      hx.count .subActive (by decide), add_assoc]
  have hler := h.le_reserved hi
  have hlea := h.le_active hi
  refine h.change hi rfl id hx.queue (hok.move rfl rfl hperm (by have := hok.reservations; omega)
    (by have := hok.actives; omega) hx.tail id hok.body) ?_ ?_ ?_
  · rw [hperm]
    exact congrArg (· + e.permits + limit) hx.permits
  · refine (congrArg (· + e.reservations) hx.reserved).trans ?_
    show s.shared.reserved - _ + e.reservations = _
    omega
  · refine (congrArg (· + e.actives) hx.active).trans ?_
    show s.shared.active - _ + e.actives = _
    omega

theorem Inv.exec (h : Inv limit s) (i : ℕ) : Inv limit (s.exec i) := by
  unfold System.exec
  split
  · rename_i e hi
    split
    · exact h
    · rename_i todo ht
      obtain ⟨n, rfl, hn⟩ := h.returnPermit hi ht
      exact hn.addPermit
    · rename_i m todo hm ht
      exact h.execShared hi ht hm
  · exact h

theorem Inv.execDropping (h : Inv limit s) (hd : ∀ m ∈ s.dropping, m = .swap ∨ m = .wake) :
    Inv limit s.execDropping := by
  unfold System.execDropping
  split
  · exact h
  · rename_i m rest hm
    obtain rfl | rfl := hd m (by rw [hm]; simp)
    · refine h.congr ?_ ?_ ?_ ?_ rfl <;> simp only [Shared.exec] <;> split <;> rfl
    · exact h.congr rfl rfl rfl rfl rfl

theorem Inv.drive (h : Inv limit s) : Inv limit s.drive := by
  unfold System.drive
  split
  · split
    · exact h.congr rfl rfl rfl rfl rfl
    · exact h
  all_goals exact h.congr rfl rfl rfl rfl rfl

theorem Inv.shutdown (h : Inv limit s) : Inv limit s.shutdown :=
  { h with nodup := nodup_nil, queue := nofun }

/-! ## What is left alone -/

/-- **Nobody but one exchange does anything.** -/
structure Frame (s t : System) : Prop where
  closed : t.shared.closed = s.shared.closed
  senders : t.shared.senders = s.shared.senders
  draining : t.shared.draining = s.shared.draining
  registered : t.shared.registered = s.shared.registered
  notified : t.shared.notified = s.shared.notified
  wakes : t.shared.wakes = s.shared.wakes
  dropping : t.dropping = s.dropping
  driver : t.driver = s.driver

theorem Frame.refl (s : System) : Frame s s := ⟨rfl, rfl, rfl, rfl, rfl, rfl, rfl, rfl⟩

/-- The steps that begin something with an exchange. -/
def Op.begins : Op → Bool
  | .exec _ | .clone | .dropSender | .execDropping | .drive | .notify | .shutdown => false
  | _ => true

theorem own_frame {f : Exchange → System} (h : ∀ e, Frame s (f e)) : Frame s (s.own i f) :=
  own_ind (Frame.refl s) fun e _ _ => h e

theorem step_frame {op : Op} (h : op.begins = true) (s : System) : Frame s (s.step op) := by
  cases op with
  | exec i => cases h
  | clone => cases h
  | dropSender => cases h
  | execDropping => cases h
  | drive => cases h
  | notify => cases h
  | shutdown => cases h
  | check i =>
    simp only [step, check]
    split
    · exact ⟨rfl, rfl, rfl, rfl, rfl, rfl, rfl, rfl⟩
    · exact .refl s
  | _ =>
    refine own_frame fun e => ?_
    repeat' split
    all_goals exact ⟨rfl, rfl, rfl, rfl, rfl, rfl, rfl, rfl⟩

theorem addPermit_frame (s : System) : Frame s s.addPermit := by
  unfold addPermit
  split
  · exact ⟨rfl, rfl, rfl, rfl, rfl, rfl, rfl, rfl⟩
  · simp only
    split <;> exact ⟨rfl, rfl, rfl, rfl, rfl, rfl, rfl, rfl⟩

theorem exec_dropping (s : System) (i : ℕ) : (s.exec i).dropping = s.dropping := by
  unfold exec
  split
  · split
    · rfl
    · exact (addPermit_frame _).dropping
    · rfl
  · rfl

/-- The last request handle starts draining, and wakes the driver. -/
def Dropping (s : System) : Prop := s.dropping ∈ [[], [.swap], [.wake]]

theorem execDropping_dropping (h : Dropping s) : Dropping s.execDropping := by
  unfold Dropping at h
  simp only [mem_cons, not_mem_nil, or_false] at h
  unfold execDropping
  rcases h with h | h | h
  · simp only [h, Dropping]; decide
  · simp only [h, Dropping, Shared.exec]
    split
    · show [] ∈ _; decide
    · show [Micro.wake] ∈ _; decide
  · simp only [h, Dropping, Shared.exec]; decide

theorem step_dropping (h : Dropping s) (op : Op) : Dropping (s.step op) := by
  by_cases hb : op.begins = true
  · rw [Dropping, (step_frame hb s).dropping]
    exact h
  · cases op with
    | exec i =>
      rw [Dropping, step, exec_dropping]
      exact h
    | clone => simp only [step, clone]; split <;> exact h
    | dropSender =>
      simp only [step, dropSender]
      repeat' split
      · show [Micro.swap] ∈ _; decide
      · exact h
      · exact h
    | execDropping => exact execDropping_dropping h
    | drive =>
      simp only [step, drive]
      repeat' split
      all_goals exact h
    | notify => exact h
    | shutdown => exact h
    | _ => exact absurd rfl hb

/-! ## Runs -/

theorem Inv.step (h : Inv limit s) (hd : Dropping s) (op : Op) : Inv limit (s.step op) := by
  cases op with
  | check i => exact h.check i
  | reserve i => exact h.reserve i
  | acquire i => exact h.acquire i
  | count i => exact h.count i
  | unreserve i => exact h.unreserve i
  | cancel i => exact h.cancel i
  | respond i answers declared sending => exact h.respond i answers declared sending
  | upgrade i => exact h.upgrade i
  | read i published => exact h.read i published
  | dropBody i => exact h.dropBody i
  | cancelBody i published err => exact h.cancelBody i published err
  | pipeDone i => exact h.pipeDone i
  | exec i => exact h.exec i
  | clone =>
    simp only [System.step, System.clone]
    split
    · exact h.congr rfl rfl rfl rfl rfl
    · exact h
  | dropSender =>
    simp only [System.step, System.dropSender]
    split
    · exact h.congr rfl rfl rfl rfl rfl
    · exact h
  | execDropping =>
    refine h.execDropping fun m hm => ?_
    simp only [Dropping, mem_cons, not_mem_nil, or_false] at hd
    rcases hd with hd | hd | hd <;> rw [hd] at hm <;> simp at hm <;> simp [hm]
  | drive => exact h.drive
  | notify => exact h.congr rfl rfl rfl rfl rfl
  | shutdown => exact h.shutdown

theorem new_inv (limit : ℕ) : Inv (min limit maxPermits) (new limit) where
  permits := rfl
  reserved := rfl
  active := rfl
  nodup := nodup_nil
  queue := nofun
  ok := fun j e he => by
    rw [new, AList.lookup_empty] at he
    cases he

theorem run_inv (limit : ℕ) (ops : List Op) :
    Inv (min limit maxPermits) ((new limit).run ops) ∧ Dropping ((new limit).run ops) :=
  foldlRecOn (motive := fun s => Inv (min limit maxPermits) s ∧ Dropping s) ops step
    ⟨new_inv limit, by show [] ∈ _; decide⟩ fun _ h op _ => ⟨h.1.step h.2 op, step_dropping h.2 op⟩

/-- **Admission slots are conserved**, in every run of a connection:

* the available permits and those held, or assigned to a waiting request, make up the limit;
* `reserved` and `active` count the exchanges with a reservation, and those admitted and not done;
* an exchange is given at most one permit, and returns what it was given once;
* after its response head it holds the permit exactly while its upload is pending, or while it keeps
  its refused sending half and the response is unread;
* and it is active exactly while it has its receiving half or its upload is pending. -/
theorem slots_conserved (limit : ℕ) (ops : List Op) :
    let s := (new limit).run ops
    s.shared.permits + s.exchanges.total Exchange.permits = min limit maxPermits ∧
    s.shared.reserved = s.exchanges.total Exchange.reservations ∧
    s.shared.active = s.exchanges.total Exchange.actives ∧
    ∀ i e, s.exchanges.lookup i = some e →
      e.permits ≤ 1 ∧ e.reservations ≤ 1 ∧ e.actives ≤ 1 ∧ e.taken ≤ 1 ∧ e.taken = e.returned + e.permits ∧
      ∀ b held piping, e.phase = .responded b held piping →
        (permitOf b.state.active = 1 ↔ piping = true ∨ b.state.refused = true ∧ b.state.recv.isSome = true) ∧
        (activeOf b.state.active = 0 ↔ b.state.recv.isSome = false ∧ piping = false) := by
  obtain ⟨h, -⟩ := run_inv limit ops
  refine ⟨h.permits, h.reserved, h.active, fun i e he => ?_⟩
  have hok := h.ok i e he
  have haccount := hok.account
  have honce := hok.once
  refine ⟨by omega, hok.reservations, hok.actives, honce, haccount, fun b held piping hp => ?_⟩
  obtain ⟨hb, rfl⟩ := hok.body b held piping hp
  constructor
  · rw [← hb.permit, permitOf]
    split <;> simp [*]
  · have := hb.active
    rw [activeOf]
    cases hr : b.state.recv.isSome <;> cases hpp : b.state.pipePending <;> simp_all

end System

end Netty.H3
