import Netty.Proof.Admission

/-!
# Draining abandons nobody, and is not missed

Connections that nobody shuts down. Draining starts when the last request handle is gone, so
nothing can be reserved after it; and whoever makes a draining connection idle is about to wake
the driver.

* `Moved`: what the owner of an exchange can do to the counters in one step.
* `DrainInv`: the invariant, with what the driver has seen.
* `Owes`: somebody is about to wake the driver.
* `owes_step`: **a wake-up that is owed stays owed until it comes.**
* `drain_not_missed`: the driver closes only a connection without requests, and it does close it.
-/

namespace Netty.H3.System

open List

variable {limit i k : ℕ} {s t : System} {e e' x : Exchange} {op : Op}

def Drained (s : System) : Prop := s.shared.draining = true ∧ s.shared.reserved = 0 ∧ s.shared.active = 0

/-! ## What an owner can do -/

def checks (e : Exchange) : ℕ :=
  match e.phase with
  | .checked => 1
  | _ => 0

theorem checks_checked (h : e.phase = .checked) : checks e = 1 := by rw [checks, h]

theorem checks_eq_zero (h : e.phase ≠ .checked) : checks e = 0 := by
  unfold checks
  split
  · exact absurd ‹_› h
  · rfl

/-- **What the owner of an exchange can do to the counters in one step.** -/
structure Moved (s t : System) (i : ℕ) (e e' : Exchange) : Prop where
  exchanges : t.exchanges = s.exchanges.insert i e'
  phase : e'.phase ≠ .checked
  busy : t.busy + checks e = s.busy
  reserved_le : e.phase ≠ .checked → t.shared.reserved ≤ s.shared.reserved
  reserved_ge : e'.phase ≠ .running → s.shared.reserved ≤ t.shared.reserved
  active_le : e.phase ≠ .acquired → t.shared.active ≤ s.shared.active
  active_ge : s.shared.active ≤ t.shared.active

theorem Moved.goOn {p : Phase} (hp : e.phase = p) (hc : p ≠ .checked) (ht : t.exchanges = s.exchanges.insert i e')
    (hc' : e'.phase ≠ .checked) (hb : t.busy = s.busy) (hr : t.shared.reserved = s.shared.reserved)
    (ha : t.shared.active = s.shared.active) : t = s ∨ ∃ e', Moved s t i e e' :=
  .inr ⟨e', ht, hc', by rw [checks_eq_zero (hp ▸ hc), hb]; rfl, fun _ => hr.le, fun _ => hr.ge, fun _ => ha.le, ha.ge⟩

/-- Nothing, or one such step. -/
def Owned (s t : System) : Prop :=
  t = s ∨ ∃ i e e', s.exchanges.lookup i = some e ∧ e.todo = [] ∧ Moved s t i e e'

theorem own_owned {f : Exchange → System}
    (h : ∀ e, s.exchanges.lookup i = some e → f e = s ∨ ∃ e', Moved s (f e) i e e') : Owned s (s.own i f) :=
  own_ind (P := Owned s) (.inl rfl) fun e hi ht =>
    (h e hi).imp id fun ⟨e', hm⟩ => ⟨i, e, e', hi, ht, hm⟩

theorem acquire_owned (s : System) (i : ℕ) : Owned s (s.acquire i) := by
  refine own_owned fun e _ => ?_
  split
  · rename_i hp
    split
    · exact Moved.goOn hp (by simp) rfl (by simp) rfl rfl rfl
    · split <;> exact Moved.goOn hp (by simp) rfl (by simp) rfl rfl rfl
  · rename_i assigned hp
    repeat' split
    · exact Moved.goOn hp (by simp) rfl (by simp) rfl rfl rfl
    · exact Moved.goOn hp (by simp) rfl (by simp) rfl rfl rfl
    · exact Moved.goOn hp (by simp) rfl (by simp) rfl rfl rfl
    · exact .inl rfl
  · exact .inl rfl

theorem step_owned (hb : op.begins = true) (hc : ∀ i, op ≠ .check i)
    (hbusy : s.busy = s.exchanges.total checks) : Owned s (s.step op) := by
  cases op with
  | check i => exact absurd rfl (hc i)
  | exec i => cases hb
  | clone => cases hb
  | dropSender => cases hb
  | execDropping => cases hb
  | drive => cases hb
  | notify => cases hb
  | shutdown => cases hb
  | acquire i => exact acquire_owned s i
  | reserve i =>
    refine own_owned fun e he => ?_
    split
    · rename_i hp
      have hle : 1 ≤ s.busy := checks_checked hp ▸ hbusy ▸ AList.le_total he
      refine .inr ⟨{ e with phase := .reserved }, rfl, by simp, ?_, fun hn => absurd hp hn,
        fun _ => Nat.le_succ _, fun _ => le_rfl, le_rfl⟩
      rw [checks_checked hp]
      exact Nat.sub_add_cancel hle
    · exact .inl rfl
  | count i =>
    refine own_owned fun e _ => ?_
    split
    · rename_i hp
      exact .inr ⟨{ e with phase := .counted }, rfl, by simp, congrArg (s.busy + ·) (checks_eq_zero (by simp [hp])),
        fun _ => le_rfl, fun _ => le_rfl, fun hn => absurd hp hn, Nat.le_succ _⟩
    · exact .inl rfl
  | unreserve i =>
    refine own_owned fun e _ => ?_
    split
    · rename_i hp
      exact .inr ⟨{ e with phase := .running }, rfl, by simp, congrArg (s.busy + ·) (checks_eq_zero (by simp [hp])),
        fun _ => Nat.sub_le _ _, fun hn => absurd rfl hn, fun _ => le_rfl, le_rfl⟩
    · exact .inl rfl
  | _ =>
    refine own_owned fun e _ => ?_
    split
    all_goals first
      | exact .inl rfl
      | exact Moved.goOn ‹_› (by simp) rfl (by simp) rfl rfl rfl

theorem Owned.lookup (h : Owned s t) (hk : s.exchanges.lookup k = some x) (hx : x.todo ≠ []) :
    t.exchanges.lookup k = some x := by
  obtain rfl | ⟨i, e, e', hi, ht, hm⟩ := h
  · exact hk
  · rw [hm.exchanges, AList.lookup_insert_ne, hk]
    rintro rfl
    rw [hk] at hi
    cases hi
    exact hx ht

theorem check_lookup (hk : s.exchanges.lookup k = some x) (i : ℕ) : (s.check i).exchanges.lookup k = some x := by
  unfold check
  split
  · rename_i hc
    simp only [Bool.and_eq_true, Option.isNone_iff_eq_none] at hc
    refine (AList.lookup_insert_ne ?_).trans hk
    rintro rfl
    rw [hk] at hc
    cases hc.2
  · exact hk

theorem addPermit_lookup (hk : s.exchanges.lookup k = some x) :
    ∃ x', s.addPermit.exchanges.lookup k = some x' ∧ x'.todo = x.todo := by
  unfold addPermit
  split
  · exact ⟨x, hk, rfl⟩
  · rename_i w queue hq
    simp only
    cases hw : s.exchanges.lookup w with
    | none => exact ⟨x, hk, rfl⟩
    | some e =>
      by_cases hkw : k = w
      · subst hkw
        rw [hk] at hw
        cases hw
        exact ⟨_, AList.lookup_insert _, rfl⟩
      · exact ⟨x, (AList.lookup_insert_ne hkw).trans hk, rfl⟩

/-! ## The invariant -/

/-- What the driver has seen is still so. -/
def Saw (s : System) : Prop :=
  match s.driver with
  | .sawDraining => s.shared.draining = true
  | .sawUnreserved => s.shared.draining = true ∧ s.shared.reserved = 0
  | .closed => s.Drained
  | _ => True

/-- **A connection that nobody shut down.** -/
structure DrainInv (s : System) : Prop where
  closed : s.shared.closed = false
  busy : s.busy = s.exchanges.total checks
  le : s.busy ≤ s.shared.senders
  /-- Draining starts when the last request handle is gone. -/
  last : s.shared.draining = true ∨ s.dropping ≠ [] → s.shared.senders = 0
  saw : s.Saw
  waker : s.driver = .polling ∨ s.driver = .closed ∨ s.shared.registered = true ∨ s.shared.notified = true

theorem DrainInv.not_checked (h : DrainInv s) (hd : s.shared.draining = true) (hi : s.exchanges.lookup i = some e) :
    e.phase ≠ .checked := by
  intro hp
  have h1 : 1 ≤ s.busy := checks_checked hp ▸ h.busy ▸ AList.le_total hi
  have := h.le
  have := h.last (.inl hd)
  omega

theorem Saw.of_le (h : Saw s) (hdr : t.driver = s.driver) (hd : s.shared.draining = true → t.shared.draining = true)
    (hr : s.shared.draining = true → s.shared.reserved = 0 → t.shared.reserved = 0)
    (ha : s.Drained → t.shared.active = 0) : Saw t := by
  unfold Saw at h ⊢
  rw [hdr]
  cases hs : s.driver <;> simp only [hs] at h ⊢
  · exact hd h
  · exact ⟨hd h.1, hr h.1 h.2⟩
  · exact ⟨hd h.1, hr h.1 h.2.1, ha h⟩

/-! ## What is owed -/

/-- Its owner is about to wake the driver, or to find that it has to be woken. -/
def Owing (e : Exchange) : Prop := .check ∈ e.todo ∨ .wake ∈ e.todo

theorem Owing.ne_nil (h : Owing e) : e.todo ≠ [] := by
  intro hn
  rw [Owing, hn] at h
  rcases h with h | h <;> cases h

/-- **Somebody is about to wake the driver.** -/
def Owes (s : System) : Prop := (∃ i e, s.exchanges.lookup i = some e ∧ Owing e) ∨ .wake ∈ s.dropping

def cost (e : Exchange) : ℕ := e.todo.length + e.todo.count .check

theorem Owes.of_lookup (h : Owes s) (hd : t.dropping = s.dropping)
    (hl : ∀ k x, s.exchanges.lookup k = some x → x.todo ≠ [] →
      ∃ x', t.exchanges.lookup k = some x' ∧ x'.todo = x.todo) : Owes t := by
  rcases h with ⟨k, x, hk, hx⟩ | h
  · obtain ⟨x', hx', ht⟩ := hl k x hk hx.ne_nil
    exact .inl ⟨k, x', hx', by rw [Owing, ht]; exact hx⟩
  · exact .inr (hd ▸ h)

structure Woken (s t : System) : Prop where
  wakes : s.shared.wakes < t.shared.wakes
  driver : t.driver = s.driver
  notified : s.shared.registered = true ∨ s.shared.notified = true → t.shared.notified = true

theorem woken_of (hs : t.shared = s.shared.wake) (hd : t.driver = s.driver) : Woken s t where
  wakes := by rw [hs]; exact lt_add_one _
  driver := hd
  notified := fun h => by
    rw [hs]
    show (s.shared.notified || s.shared.registered) = true
    rcases h with h | h <;> rw [h] <;> simp

theorem exec_cons {m : Micro} {todo : List Micro} (he : s.exchanges.lookup i = some e) (ht : e.todo = m :: todo) :
    m = .addPermit ∧ s.exec i = (s.put i { e with todo := todo, returned := e.returned + 1 }).addPermit ∨
      m ≠ .addPermit ∧
        s.exec i = { s with shared := (s.shared.exec m).2 }.put i { e with todo := (s.shared.exec m).1 ++ todo } := by
  unfold exec
  rw [he]
  simp only [ht]
  split
  · rename_i h
    cases h
  · rename_i h
    cases h
    exact .inl ⟨rfl, rfl⟩
  · rename_i hm h
    cases h
    exact .inr ⟨hm, rfl⟩

theorem exec_cases (s : System) (i : ℕ) :
    s.exec i = s ∨ ∃ e m todo, s.exchanges.lookup i = some e ∧ e.todo = m :: todo := by
  unfold exec
  cases hi : s.exchanges.lookup i with
  | none => exact .inl rfl
  | some e =>
    cases ht : e.todo with
    | nil => simp [ht]
    | cons m todo => exact .inr ⟨e, m, todo, rfl, ht⟩

theorem put_lookup_self (s : System) (i : ℕ) (e : Exchange) : (s.put i e).exchanges.lookup i = some e :=
  AList.lookup_insert _

theorem put_lookup_ne (h : k ≠ i) (s : System) (e : Exchange) :
    (s.put i e).exchanges.lookup k = s.exchanges.lookup k := AList.lookup_insert_ne h

/-- **The owner that owes the wake-up goes on**: it comes to wake the driver. -/
theorem exec_self (hi : Inv limit s) (hd : s.shared.draining = true) (he : s.exchanges.lookup i = some e)
    (ho : Owing e) : Woken s (s.exec i) ∨
      ∃ e', (s.exec i).exchanges.lookup i = some e' ∧ Owing e' ∧ cost e' < cost e := by
  obtain ⟨m, todo, ht⟩ := exists_cons_of_ne_nil ho.ne_nil
  obtain ⟨hcases, -⟩ := (ht ▸ (hi.ok i e he).tail : Tail (m :: todo)).cons
  rcases exec_cons he ht with ⟨rfl, hs⟩ | ⟨hm, hs⟩
  · obtain ⟨x', hx', hxt⟩ := addPermit_lookup (put_lookup_self s i { e with todo := todo, returned := e.returned + 1 })
    refine .inr ⟨x', hs ▸ hx', ?_, ?_⟩
    · rw [Owing, hxt]
      simpa [Owing, ht] using ho
    · simp [cost, hxt, ht]
  · have hself := put_lookup_self { s with shared := (s.shared.exec m).2 } i
      { e with todo := (s.shared.exec m).1 ++ todo }
    obtain rfl | ⟨rfl | rfl, rfl⟩ | ⟨rfl | rfl, rfl⟩ := hcases
    · exact absurd rfl hm
    · exact .inr ⟨_, hs ▸ hself, by simp [Owing, Shared.exec], by simp [cost, ht, Shared.exec]⟩
    · exact .inr ⟨_, hs ▸ hself, by simp [Owing, Shared.exec], by simp [cost, ht, Shared.exec]⟩
    · exact .inr ⟨_, hs ▸ hself, by simp [Owing, Shared.exec, hd], by simp [cost, ht, Shared.exec, hd]⟩
    · exact .inl (hs ▸ woken_of rfl rfl)

theorem Owes.exec (h : Owes s) (hi : Inv limit s) (hd : s.shared.draining = true) (i : ℕ) :
    Owes (s.exec i) ∨ Woken s (s.exec i) := by
  obtain hs | ⟨e, m, todo, he, ht⟩ := exec_cases s i
  · rw [hs]; exact .inl h
  · rcases h with ⟨k, x, hk, hx⟩ | h
    · by_cases hki : k = i
      · subst hki
        exact (exec_self hi hd hk hx).symm.imp_left fun ⟨e', he', ho, _⟩ => .inl ⟨k, e', he', ho⟩
      · left
        rcases exec_cons he ht with ⟨rfl, hs⟩ | ⟨hm, hs⟩
        · obtain ⟨x', hx', hxt⟩ := addPermit_lookup ((put_lookup_ne hki s _).trans hk)
          exact .inl ⟨k, x', hs ▸ hx', by rw [Owing, hxt]; exact hx⟩
        · exact .inl ⟨k, x, hs ▸ (put_lookup_ne hki _ _).trans hk, hx⟩
    · exact .inl (.inr (exec_dropping s i ▸ h))

/-! ## Steps -/

theorem DrainInv.owned (h : DrainInv s) (hi : Inv limit s) (hf : Frame s t) (ho : Owned s t) : DrainInv t := by
  obtain rfl | ⟨i, e, e', he, -, hm⟩ := ho
  · exact h
  · refine ⟨hf.closed ▸ h.closed, ?_, ?_, ?_, ?_, ?_⟩
    · have := AList.total_update (w := checks) he e'
      have := checks_eq_zero hm.phase
      have := hm.busy
      have := h.busy
      rw [hm.exchanges]
      omega
    · have := hm.busy
      have := h.le
      rw [hf.senders]
      omega
    · rw [hf.draining, hf.dropping, hf.senders]
      exact h.last
    · refine h.saw.of_le hf.driver (fun hd => hf.draining ▸ hd) (fun hd hr => ?_) fun hd => ?_
      · have := hm.reserved_le (h.not_checked hd he)
        omega
      · have hne : e.phase ≠ .acquired := by
          intro hp
          have hle := hi.le_reserved he
          rw [Exchange.reservations, hp, hd.2.1] at hle
          exact absurd hle (by simp [Phase.reservations])
        have := hm.active_le hne
        have := hd.2.2
        omega
    · rw [hf.driver, hf.registered, hf.notified]
      exact h.waker

theorem DrainInv.check (h : DrainInv s) (i : ℕ) : DrainInv (s.check i) := by
  unfold System.check
  split
  · rename_i hc
    simp only [Bool.and_eq_true, Option.isNone_iff_eq_none, free, decide_eq_true_eq] at hc
    refine { h with busy := ?_, le := hc.1.1 }
    have := AList.total_insert_new (w := checks) hc.2 ⟨.checked, [], 0, 0⟩
    refine Eq.trans ?_ this.symm
    show s.busy + 1 = 1 + _
    rw [h.busy, add_comm]
  · exact h

theorem addPermit_busy (h : Inv limit s) : s.addPermit.busy = s.busy ∧
    s.addPermit.exchanges.total checks = s.exchanges.total checks ∧
    s.addPermit.shared.reserved = s.shared.reserved ∧ s.addPermit.shared.active = s.shared.active := by
  unfold addPermit
  cases hq : s.shared.queue with
  | nil => exact ⟨rfl, rfl, rfl, rfl⟩
  | cons w queue =>
    obtain ⟨e, hw, hp⟩ := h.queue w (by rw [hq]; simp)
    simp only [hw]
    refine ⟨rfl, ?_, rfl, rfl⟩
    have := AList.total_update (w := checks) hw { e with phase := .waiting true, taken := e.taken + 1 }
    have hz : checks e = 0 := checks_eq_zero (by simp [hp])
    rw [hz] at this
    exact this

/-- The counters after the next atomic step of an owner: one that is lowered may owe a wake-up. -/
structure Stepped (s t : System) : Prop where
  closed : t.shared.closed = s.shared.closed
  senders : t.shared.senders = s.shared.senders
  draining : t.shared.draining = s.shared.draining
  busy : t.busy = s.busy
  checks : t.exchanges.total checks = s.exchanges.total checks
  driver : t.driver = s.driver
  dropping : t.dropping = s.dropping
  reserved : t.shared.reserved ≤ s.shared.reserved
  active : t.shared.active ≤ s.shared.active
  waker : s.shared.registered = true ∨ s.shared.notified = true →
    t.shared.registered = true ∨ t.shared.notified = true
  notified : s.shared.notified = true → t.shared.notified = true
  owes : (t.shared.reserved = s.shared.reserved ∧ t.shared.active = s.shared.active) ∨ t.Owes

theorem put_checks (he : s.exchanges.lookup i = some e) (hp : e'.phase = e.phase) :
    (s.put i e').exchanges.total checks = s.exchanges.total checks := by
  have := AList.total_update (w := checks) he e'
  have hc : checks e' = checks e := by unfold checks; rw [hp]
  rw [hc] at this
  exact Nat.add_right_cancel this

theorem exec_stepped (hi : Inv limit s) (i : ℕ) : Stepped s (s.exec i) := by
  obtain hs | ⟨e, m, todo, he, ht⟩ := exec_cases s i
  · rw [hs]
    exact ⟨rfl, rfl, rfl, rfl, rfl, rfl, rfl, le_rfl, le_rfl, id, id, .inl ⟨rfl, rfl⟩⟩
  · rcases exec_cons he ht with ⟨rfl, hs⟩ | ⟨hm, hs⟩
    · obtain ⟨n, -, hn⟩ := hi.returnPermit he ht
      obtain ⟨hb, hc, hr, ha⟩ := addPermit_busy hn
      have hf := addPermit_frame (s.put i { e with todo := todo, returned := e.returned + 1 })
      rw [hs]
      exact ⟨hf.closed, hf.senders, hf.draining, hb, hc.trans (put_checks he rfl), hf.driver, hf.dropping, hr.le, ha.le,
        fun h => by rw [hf.registered, hf.notified]; exact h, fun h => by rw [hf.notified]; exact h, .inl ⟨hr, ha⟩⟩
    · rw [hs]
      have hc : ∀ sh todo', ({ s with shared := sh }.put i { e with todo := todo' }).exchanges.total checks =
          s.exchanges.total checks := fun sh todo' => put_checks (s := { s with shared := sh }) he rfl
      obtain ⟨hcases, -⟩ := (ht ▸ (hi.ok i e he).tail : Tail (m :: todo)).cons
      obtain rfl | ⟨rfl | rfl, rfl⟩ | ⟨rfl | rfl, rfl⟩ := hcases
      · exact absurd rfl hm
      · exact ⟨rfl, rfl, rfl, rfl, hc _ _, rfl, rfl, le_rfl, Nat.sub_le _ _, id, id,
          .inr (.inl ⟨i, _, put_lookup_self _ _ _, .inl (by simp [Shared.exec])⟩)⟩
      · exact ⟨rfl, rfl, rfl, rfl, hc _ _, rfl, rfl, Nat.sub_le _ _, le_rfl, id, id,
          .inr (.inl ⟨i, _, put_lookup_self _ _ _, .inl (by simp [Shared.exec])⟩)⟩
      · exact ⟨rfl, rfl, rfl, rfl, hc _ _, rfl, rfl, le_rfl, le_rfl, id, id, .inl ⟨rfl, rfl⟩⟩
      · have hw : Woken s ({ s with shared := (s.shared.exec .wake).2 }.put i { e with todo := [] }) := woken_of rfl rfl
        exact ⟨rfl, rfl, rfl, rfl, hc _ _, rfl, rfl, le_rfl, le_rfl, fun h => .inr (hw.notified h),
          fun h => hw.notified (.inr h), .inl ⟨rfl, rfl⟩⟩

/-- **Who was woken does not miss it.** -/
theorem DrainInv.woken (h : DrainInv s) (hw : Woken s t) : t.shared.notified = true ∨ t.driver ≠ .parked := by
  rw [hw.driver]
  rcases h.waker with hd | hd | hd
  · exact .inr (by simp [hd])
  · exact .inr (by simp [hd])
  · exact .inl (hw.notified hd)

theorem DrainInv.exec (h : DrainInv s) (hi : Inv limit s) (i : ℕ) : DrainInv (s.exec i) := by
  have hx := exec_stepped hi i
  refine ⟨hx.closed ▸ h.closed, ?_, ?_, ?_, ?_, ?_⟩
  · rw [hx.busy, hx.checks]; exact h.busy
  · rw [hx.busy, hx.senders]; exact h.le
  · rw [hx.draining, hx.dropping, hx.senders]; exact h.last
  · have := hx.reserved
    have := hx.active
    exact h.saw.of_le hx.driver (fun hd => hx.draining ▸ hd) (fun _ hr => by omega)
      fun hd => by have := hd.2.2; omega
  · rw [hx.driver]
    exact h.waker.imp_right fun hw => hw.imp_right hx.waker

theorem dropping_cases (h : Dropping s) {m : Micro} {rest : List Micro} (hm : s.dropping = m :: rest) :
    rest = [] ∧ (m = .swap ∨ m = .wake) := by
  simp only [Dropping, hm, mem_cons, not_mem_nil, or_false] at h
  simpa [and_comm, or_and_right] using h

theorem DrainInv.execDropping (h : DrainInv s) (hd : Dropping s) : DrainInv s.execDropping := by
  unfold System.execDropping
  split
  · exact h
  · rename_i m rest hm
    have hsenders := h.last (.inr (by rw [hm]; simp))
    obtain ⟨rfl, rfl | rfl⟩ := dropping_cases hd hm
    · cases hdr : s.shared.draining with
      | true =>
        simp only [Shared.exec, hdr, if_true]
        exact { h with last := fun _ => hsenders }
      | false =>
        simp only [Shared.exec, hdr, Bool.false_eq_true, if_false]
        refine { h with last := fun _ => hsenders, saw := ?_ }
        exact h.saw.of_le rfl (fun _ => rfl) (fun hc => by rw [hdr] at hc; cases hc)
          fun hc => by rw [Drained, hdr] at hc; cases hc.1
    · have hw : Woken s { s with shared := (s.shared.exec .wake).2, dropping := (s.shared.exec .wake).1 ++ [] } :=
        woken_of rfl rfl
      exact { h with
        last := fun _ => hsenders, waker := h.waker.imp_right fun hk => hk.imp_right fun hk => .inr (hw.notified hk) }

theorem DrainInv.driver (h : DrainInv s) {d : Driver} (hs : s.driver ≠ .polling ∧ s.driver ≠ .closed)
    (hsaw : Saw { s with driver := d }) : DrainInv { s with driver := d } :=
  { h with saw := hsaw, waker := .inr (.inr ((h.waker.resolve_left hs.1).resolve_left hs.2)) }

theorem DrainInv.drive (h : DrainInv s) : DrainInv s.drive := by
  unfold System.drive
  split
  · split
    · exact { h with saw := trivial, waker := .inl rfl }
    · exact h
  · exact { h with saw := trivial, waker := .inr (.inr (.inl rfl)) }
  · rename_i hr
    refine h.driver (by simp [hr]) ?_
    split
    · assumption
    · trivial
  · rename_i hr
    have hsaw := h.saw
    rw [Saw, hr] at hsaw
    refine h.driver (by simp [hr]) ?_
    split
    · rename_i hc
      rw [h.closed] at hc
      exact ⟨hsaw, by simpa using hc⟩
    · trivial
  · rename_i hr
    have hsaw := h.saw
    rw [Saw, hr] at hsaw
    refine h.driver (by simp [hr]) ?_
    split
    · exact ⟨hsaw.1, hsaw.2, ‹_›⟩
    · trivial
  · exact h

theorem DrainInv.not_free (h : DrainInv s) (hd : s.shared.draining = true) : s.free = false := by
  have := h.last (.inl hd)
  simp [free, this]

theorem DrainInv.step (h : DrainInv s) (hi : Inv limit s) (hd : Dropping s) (hop : op ≠ .shutdown) :
    DrainInv (s.step op) := by
  by_cases hb : op.begins = true
  · by_cases hc : ∃ i, op = .check i
    · obtain ⟨i, rfl⟩ := hc
      exact h.check i
    · exact h.owned hi (step_frame hb s) (step_owned hb (fun i hi => hc ⟨i, hi⟩) h.busy)
  · cases op with
    | exec i => exact h.exec hi i
    | clone =>
      simp only [step, clone]
      split
      · rename_i hf
        have hlt : s.busy < s.shared.senders := by simpa [free] using hf
        refine { h with le := Nat.le_succ_of_le h.le, last := fun hl => ?_ }
        have := h.last hl
        omega
      · exact h
    | dropSender =>
      simp only [step, dropSender]
      split
      · rename_i hf
        have hlt : s.busy < s.shared.senders := by simpa [free] using hf
        refine { h with le := Nat.le_sub_one_of_lt hlt, last := fun hl => ?_ }
        by_cases hone : s.shared.senders = 1
        · exact Nat.sub_eq_zero_of_le hone.le
        · rw [if_neg hone] at hl
          have := h.last hl
          omega
      · exact h
    | execDropping => exact h.execDropping hd
    | drive => exact h.drive
    | notify => exact { h with waker := .inr (.inr (.inr rfl)) }
    | shutdown => exact absurd rfl hop
    | _ => exact absurd rfl hb

/-! ## Wake-ups -/

theorem begins_lookup (hb : op.begins = true) (h : DrainInv s) (hk : s.exchanges.lookup k = some x) (hx : x.todo ≠ []) :
    (s.step op).exchanges.lookup k = some x := by
  by_cases hc : ∃ i, op = .check i
  · obtain ⟨i, rfl⟩ := hc
    exact check_lookup hk i
  · exact (step_owned hb (fun i hi => hc ⟨i, hi⟩) h.busy).lookup hk hx

/-- **A wake-up that is owed stays owed until it comes.** -/
theorem owes_step (h : DrainInv s) (hi : Inv limit s) (hdr : Dropping s) (hd : s.shared.draining = true) (ho : Owes s)
    (hop : op ≠ .shutdown) : Owes (s.step op) ∨ Woken s (s.step op) := by
  by_cases hb : op.begins = true
  · exact .inl (ho.of_lookup (step_frame hb s).dropping fun k x hk hx => ⟨x, begins_lookup hb h hk hx, rfl⟩)
  · cases op with
    | exec i => exact ho.exec hi hd i
    | clone =>
      simp only [step, clone, h.not_free hd, Bool.false_eq_true, if_false]
      exact .inl ho
    | dropSender =>
      simp only [step, dropSender, h.not_free hd, Bool.false_eq_true, if_false]
      exact .inl ho
    | execDropping =>
      simp only [step, execDropping]
      split
      · exact .inl ho
      · rename_i m rest hm
        obtain ⟨rfl, rfl | rfl⟩ := dropping_cases hdr hm
        · exact .inl (.inl (ho.resolve_right (by simp [hm])))
        · exact .inr (woken_of rfl rfl)
    | drive =>
      refine .inl ?_
      simp only [step, drive]
      repeat' split
      all_goals exact ho
    | notify => exact .inl ho
    | shutdown => exact absurd rfl hop
    | _ => exact absurd rfl hb

theorem Owned.drained (ho : Owned s t) (ht : Inv limit t) (hf : Frame s t) (hd : t.Drained) : s.Drained := by
  obtain rfl | ⟨i, e, e', he, -, hm⟩ := ho
  · exact hd
  · have hself : t.exchanges.lookup i = some e' := by rw [hm.exchanges, AList.lookup_insert]
    have hne : e'.phase ≠ .running := by
      intro hp
      have hle := ht.le_active hself
      rw [Exchange.actives, hp, hd.2.2] at hle
      exact absurd hle (by simp [Phase.actives])
    have := hm.reserved_ge hne
    have := hm.active_ge
    have := hd.2.1
    have := hd.2.2
    exact ⟨hf.draining ▸ hd.1, by omega, by omega⟩

/-- **Whoever makes a draining connection idle, or an idle one drain, owes a wake-up.** -/
theorem step_drained (h : DrainInv s) (hi : Inv limit s) (hdr : Dropping s) (hop : op ≠ .shutdown)
    (hd : (s.step op).Drained) : s.Drained ∨ (s.step op).Owes := by
  by_cases hb : op.begins = true
  · left
    by_cases hc : ∃ i, op = .check i
    · obtain ⟨i, rfl⟩ := hc
      simp only [step, check] at hd
      split at hd <;> exact hd
    · exact (step_owned hb (fun i hi => hc ⟨i, hi⟩) h.busy).drained (hi.step hdr op) (step_frame hb s) hd
  · cases op with
    | exec i =>
      have hx := exec_stepped hi i
      rcases hx.owes with hk | ho
      · exact .inl ⟨hx.draining ▸ hd.1, hk.1 ▸ hd.2.1, hk.2 ▸ hd.2.2⟩
      · exact .inr ho
    | clone =>
      simp only [step, clone] at hd
      split at hd <;> exact .inl hd
    | dropSender =>
      simp only [step, dropSender] at hd
      split at hd <;> exact .inl hd
    | execDropping =>
      simp only [step, execDropping] at hd ⊢
      split at hd
      · exact .inl hd
      · rename_i m rest hm
        obtain ⟨rfl, rfl | rfl⟩ := dropping_cases hdr hm
        · cases hs : s.shared.draining with
          | true =>
            simp only [Shared.exec, hs, if_true] at hd
            exact .inl hd
          | false =>
            simp only [Shared.exec, hs, Bool.false_eq_true, if_false]
            exact .inr (.inr (by simp))
        · exact .inl hd
    | drive =>
      simp only [step, drive] at hd
      repeat' split at hd
      all_goals exact .inl hd
    | notify => exact .inl hd
    | shutdown => exact absurd rfl hop
    | _ => exact absurd rfl hb

/-- The driver is going to look at the counters. -/
def Scheduled (s : System) : Prop := s.shared.notified = true ∨ s.driver ≠ .parked

/-- **A driver that is going to look** does not park before it has closed a drained connection. -/
theorem scheduled_step (h : Scheduled s) (hi : Inv limit s) (hd : s.Drained) (hdr : Dropping s) (op : Op) :
    Scheduled (s.step op) := by
  by_cases hb : op.begins = true
  · have hf := step_frame hb s
    rw [Scheduled, hf.notified, hf.driver]
    exact h
  · cases op with
    | exec i =>
      have hx := exec_stepped hi i
      exact h.imp hx.notified fun hp => hx.driver ▸ hp
    | clone => simp only [step, clone]; split <;> exact h
    | dropSender => simp only [step, dropSender]; split <;> exact h
    | execDropping =>
      simp only [step, execDropping]
      split
      · exact h
      · rename_i m rest hm
        obtain ⟨rfl, rfl | rfl⟩ := dropping_cases hdr hm
        · simp only [Shared.exec, hd.1, if_true]
          exact h
        · exact h.imp_left fun hn => (woken_of (s := s) (t := { s with shared := s.shared.wake }) rfl rfl).notified
            (.inr hn)
    | drive =>
      simp only [step, drive]
      split
      · rename_i hp
        rw [if_pos (h.resolve_right (by simp [hp]))]
        exact .inr (by simp)
      · exact .inr (by simp)
      · exact .inr (by simp [hd.1])
      · exact .inr (by simp [hd.2.1])
      · exact .inr (by simp [hd.2.2])
      · exact h
    | notify => exact .inl rfl
    | shutdown => exact h.imp_left fun hn => by simp [step, shutdown, Shared.wake, hn]
    | _ => exact absurd rfl hb

/-! ## Runs -/

def Unforced (ops : List Op) : Prop := ∀ op ∈ ops, op ≠ .shutdown

/-- All that holds of a run that nobody shuts down. -/
structure Drains (limit : ℕ) (s : System) : Prop where
  inv : Inv limit s
  dropping : Dropping s
  drain : DrainInv s
  notMissed : s.Drained → s.Owes ∨ s.Scheduled

theorem Drains.step (h : Drains limit s) (hop : op ≠ .shutdown) : Drains limit (s.step op) := by
  refine ⟨h.inv.step h.dropping op, step_dropping h.dropping op, h.drain.step h.inv h.dropping hop, fun hd => ?_⟩
  rcases step_drained h.drain h.inv h.dropping hop hd with hs | ho
  · rcases h.notMissed hs with ho | hsch
    · exact (owes_step h.drain h.inv h.dropping hs.1 ho hop).imp_right h.drain.woken
    · exact .inr (scheduled_step hsch h.inv hs h.dropping op)
  · exact .inl ho

theorem Drains.run (h : Drains limit s) {ops : List Op} (hops : Unforced ops) : Drains limit (s.run ops) :=
  foldlRecOn (motive := Drains limit) ops System.step h fun _ h op hop => h.step (hops op hop)

theorem drains_new (limit : ℕ) : Drains (min limit maxPermits) (new limit) where
  inv := new_inv limit
  dropping := by show [] ∈ _; decide
  drain := ⟨rfl, rfl, Nat.zero_le _, fun h => by simp [new] at h, trivial, .inl rfl⟩
  notMissed := fun h => by cases h.1

theorem sharedExec_wakes (sh : Shared) (m : Micro) : sh.wakes ≤ (sh.exec m).2.wakes := by
  cases m with
  | swap =>
    simp only [Shared.exec]
    split <;> exact le_rfl
  | wake => exact Nat.le_succ _
  | _ => exact le_rfl

theorem step_wakes (s : System) (op : Op) : s.shared.wakes ≤ (s.step op).shared.wakes := by
  by_cases hb : op.begins = true
  · exact (step_frame hb s).wakes.ge
  · cases op with
    | exec i =>
      simp only [step]
      obtain hs | ⟨e, m, todo, he, ht⟩ := exec_cases s i
      · rw [hs]
      · rcases exec_cons he ht with ⟨rfl, hs⟩ | ⟨hm, hs⟩
        · rw [hs, (addPermit_frame _).wakes]; exact le_rfl
        · rw [hs]; exact sharedExec_wakes s.shared m
    | clone => simp only [step, clone]; split <;> exact le_rfl
    | dropSender => simp only [step, dropSender]; split <;> exact le_rfl
    | execDropping =>
      simp only [step, execDropping]
      split
      · exact le_rfl
      · exact sharedExec_wakes s.shared _
    | drive =>
      simp only [step, drive]
      repeat' split
      all_goals exact le_rfl
    | notify => exact le_rfl
    | shutdown => exact Nat.le_succ _
    | _ => exact absurd rfl hb

section

variable (h : Drains limit s) (hd : s.shared.draining = true)

include h hd

theorem step_draining (op : Op) : (s.step op).shared.draining = true := by
  by_cases hb : op.begins = true
  · rw [(step_frame hb s).draining]; exact hd
  · cases op with
    | exec i => exact (exec_stepped h.inv i).draining.trans hd
    | clone => simp only [step, clone]; split <;> exact hd
    | dropSender => simp only [step, dropSender]; split <;> exact hd
    | execDropping =>
      simp only [step, execDropping]
      split
      · exact hd
      · rename_i m rest hm
        obtain ⟨rfl, rfl | rfl⟩ := dropping_cases h.dropping hm
        · simp only [Shared.exec, hd, if_true]
        · exact hd
    | drive =>
      simp only [step, drive]
      repeat' split
      all_goals exact hd
    | notify => exact hd
    | shutdown => rfl
    | _ => exact absurd rfl hb

/-- **In any continuation**: the driver was woken, or somebody is still about to wake it. -/
theorem Drains.woken_or_owed {n : ℕ} (hn : n ≤ s.shared.wakes)
    (ho : s.Owes) {ops : List Op} (hops : Unforced ops) : n < (s.run ops).shared.wakes ∨ (s.run ops).Owes := by
  refine (foldlRecOn (motive := fun t => Drains limit t ∧ t.shared.draining = true ∧ n ≤ t.shared.wakes ∧
    (n < t.shared.wakes ∨ t.Owes)) ops System.step ⟨h, hd, hn, .inr ho⟩ fun t ⟨ht, hdt, hnt, hot⟩ op hop => ?_).2.2.2
  refine ⟨ht.step (hops op hop), step_draining ht hdt op, hnt.trans (step_wakes t op), ?_⟩
  rcases hot with hlt | hot
  · exact .inl (hlt.trans_le (step_wakes t op))
  · exact (owes_step ht.drain ht.inv ht.dropping hdt hot (hops op hop)).symm.imp_left fun hw => hnt.trans_lt hw.wakes

/-- **Who owes a wake-up comes to it**, by its own steps. -/
theorem Drains.owing_wakes (he : s.exchanges.lookup i = some e)
    (ho : Owing e) : ∃ n, s.shared.wakes < (s.run (replicate n (.exec i))).shared.wakes := by
  induction hc : cost e using Nat.strong_induction_on generalizing s e with
  | _ c ih =>
    subst hc
    rcases exec_self h.inv hd he ho with hw | ⟨e', he', ho', hlt⟩
    · exact ⟨1, hw.wakes⟩
    · have hstep : Drains limit (s.step (.exec i)) := h.step (by simp)
      obtain ⟨n, hn⟩ := ih (cost e') hlt hstep (step_draining h hd _) he' ho' rfl
      exact ⟨n + 1, (step_wakes s (.exec i)).trans_lt hn⟩

theorem Drains.owed_wakes (ho : s.Owes) :
    ∃ op n, (op = .execDropping ∨ ∃ i, op = .exec i) ∧ s.shared.wakes < (s.run (replicate n op)).shared.wakes := by
  rcases ho with ⟨i, e, he, ho⟩ | ho
  · obtain ⟨n, hn⟩ := h.owing_wakes hd he ho
    exact ⟨.exec i, n, .inr ⟨i, rfl⟩, hn⟩
  · refine ⟨.execDropping, 1, .inl rfl, ?_⟩
    obtain ⟨m, rest, hm⟩ := exists_cons_of_ne_nil (ne_nil_of_mem ho)
    obtain ⟨rfl, rfl | rfl⟩ := dropping_cases h.dropping hm
    · simp [hm] at ho
    · show _ < s.execDropping.shared.wakes
      simp only [execDropping, hm]
      exact lt_add_one _

end

/-! ## The driver -/

/-- The steps that the driver is away from closing a drained connection. -/
def stepsLeft : Driver → ℕ
  | .parked => 5
  | .polling => 4
  | .registered => 3
  | .sawDraining => 2
  | .sawUnreserved => 1
  | .closed => 0

theorem drive_stepsLeft (hd : s.Drained) (hs : s.Scheduled) :
    stepsLeft s.drive.driver = stepsLeft s.driver - 1 ∧ s.drive.Drained ∧ s.drive.Scheduled := by
  obtain ⟨h1, h2, h3⟩ := hd
  unfold drive
  cases hp : s.driver with
  | parked =>
    have hn : s.shared.notified = true := hs.resolve_right (by simp [hp])
    simp only [hn, if_true]
    exact ⟨rfl, ⟨h1, h2, h3⟩, .inr (by simp)⟩
  | polling => exact ⟨rfl, ⟨h1, h2, h3⟩, .inr (by simp)⟩
  | registered =>
    simp only [h1, if_true]
    exact ⟨rfl, ⟨h1, h2, h3⟩, .inr (by simp)⟩
  | sawDraining =>
    simp only [h2, decide_true, Bool.or_true, if_true]
    exact ⟨rfl, ⟨h1, h2, h3⟩, .inr (by simp)⟩
  | sawUnreserved =>
    simp only [h3, if_true]
    exact ⟨rfl, ⟨h1, h2, h3⟩, .inr (by simp)⟩
  | closed => exact ⟨by simp [hp, stepsLeft], ⟨h1, h2, h3⟩, hs⟩

/-- **The driver closes a drained connection** when it looks. -/
theorem drive_closes (hd : s.Drained) (hs : s.Scheduled) (n : ℕ) (hn : stepsLeft s.driver ≤ n) :
    (s.run (replicate n .drive)).driver = .closed := by
  induction n generalizing s with
  | zero =>
    show s.driver = .closed
    cases hp : s.driver <;> simp [hp, stepsLeft] at hn ⊢
  | succ n ih =>
    obtain ⟨hl, hd', hs'⟩ := drive_stepsLeft hd hs
    exact ih hd' hs' (by show stepsLeft s.drive.driver ≤ n; omega)

theorem stepsLeft_le (d : Driver) : stepsLeft d ≤ 5 := by cases d <;> decide

/-- **Draining abandons nobody, and is not missed**, in every run that nobody shuts down:

* when the driver has found the connection draining and idle, no request is being made, is reserved,
  or is admitted and not done;
* when a step makes the connection draining and idle, then in every continuation the driver's waker
  has been woken or somebody is about to wake it, and who is about to does so by its own steps;
* a driver of a draining and idle connection that is not about to be woken is going to look at the
  counters, and then it closes the connection. -/
theorem drain_not_missed (limit : ℕ) (ops : List Op) (h : Unforced ops) :
    let s := (new limit).run ops
    (s.driver = .closed → ∀ i e, s.exchanges.lookup i = some e →
      e.phase ≠ .checked ∧ e.reservations = 0 ∧ e.actives = 0) ∧
    (∀ op more, op ≠ .shutdown → Unforced more → ¬s.Drained → (s.step op).Drained →
      s.shared.wakes < ((s.step op).run more).shared.wakes ∨ ((s.step op).run more).Owes) ∧
    (s.shared.draining = true → s.Owes → ∃ op n, (op = .execDropping ∨ ∃ i, op = .exec i) ∧
      s.shared.wakes < (s.run (replicate n op)).shared.wakes) ∧
    (s.Drained → s.Owes ∨ s.Scheduled) ∧
    (s.Drained → s.Scheduled → (s.run (replicate 5 .drive)).driver = .closed) := by
  intro s
  have hs : Drains (min limit maxPermits) s := (drains_new limit).run h
  refine ⟨fun hc i e he => ?_, fun op more hop hmore hn hd => ?_, hs.owed_wakes, hs.notMissed,
    fun hd hsch => drive_closes hd hsch 5 (stepsLeft_le _)⟩
  · have hsaw := hs.drain.saw
    rw [Saw, hc] at hsaw
    obtain ⟨hd, hr, ha⟩ := hsaw
    have hle := hs.inv.le_reserved he
    have hla := hs.inv.le_active he
    exact ⟨hs.drain.not_checked hd he, by omega, by omega⟩
  · have ho := (step_drained hs.drain hs.inv hs.dropping hop hd).resolve_left hn
    exact (hs.step hop).woken_or_owed hd.1 (step_wakes s op) ho hmore

/-- A request is made, and then the last handle is dropped. -/
def drainExample : List Op := [.drive, .drive, .check 0, .reserve 0, .dropSender, .execDropping, .execDropping, .cancel 0,
  .exec 0]

theorem drain_not_missed_example :
    let s := (new 1).run drainExample
    (s.Drained ∧ s.Owes) ∧ (s.Drained → s.Owes ∨ s.Scheduled) := by
  have h : Unforced drainExample := by
    intro op hop
    simp only [drainExample, mem_cons, not_mem_nil, or_false] at hop
    rcases hop with rfl | rfl | rfl | rfl | rfl | rfl | rfl | rfl | rfl <;> simp
  refine ⟨⟨⟨rfl, rfl, rfl⟩, .inl ⟨0, _, rfl, .inl (by decide)⟩⟩, (drain_not_missed 1 drainExample h).2.2.2.1⟩

end Netty.H3.System
