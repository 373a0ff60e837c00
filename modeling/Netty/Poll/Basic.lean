import Mathlib.Data.Nat.Basic
import Mathlib.Logic.Relation

/-!
# Poll functions and their loops

A poll function makes one attempt at its task. It either answers, or reports
that it has to be called again once something outside it has changed.

* `Poll`: the outcome of one call. Two outcomes are not answers of the program:
  `busy` (the call was still looping when its allowance of rounds was used up)
  and `panicked`.
* `whenReady`, `whenOk`: go on with the answer of a call, and hand every other
  outcome to the caller.
* `loop`: a loop that is left by returning, run for at most `n` rounds.
* `loop_inv`: an invariant of the loop body holds of whatever the loop returns.
* `loop_progress`: a loop whose rounds use up a measure leaves, given more rounds
  than the measure.
* `loop_reaches`: a loop whose rounds are sequences of steps is one.
* `repoll`, `repoll_inv`: a task that is polled until it answers.
* `repoll_descends`: a task each of whose polls uses up a measure.
-/

namespace Netty

/-- The outcome of one call of a poll function. -/
inductive Poll (α : Type) where
  | ready (a : α)
  | pending
  /-- Still looping after the allowed number of rounds. -/
  | busy
  | panicked
  deriving DecidableEq, Repr

variable {α β ε σ τ : Type}

def Poll.isReady : Poll α → Bool
  | .ready _ => true
  | _ => false

/-- Go on with the answer of `x`; hand any other outcome to the caller. -/
def whenReady (x : Poll α × σ) (k : α → σ → Poll β × σ) : Poll β × σ :=
  match x with
  | (.ready a, s) => k a s
  | (.pending, s) => (.pending, s)
  | (.busy, s) => (.busy, s)
  | (.panicked, s) => (.panicked, s)

/-- Go on with the value `x` answers; hand errors to the caller too. -/
def whenOk (x : Poll (Except ε α) × σ) (k : α → σ → Poll (Except ε β) × σ) : Poll (Except ε β) × σ :=
  whenReady x fun r s =>
    match r with
    | .ok a => k a s
    | .error e => (.ready (.error e), s)

/-- A call on a component of the state. -/
def within (x : Poll α × τ) (put : τ → σ) : Poll α × σ := (x.1, put x.2)

@[simp] theorem within_fst (x : Poll α × τ) (put : τ → σ) : (within x put).1 = x.1 := rfl

@[simp] theorem within_snd (x : Poll α × τ) (put : τ → σ) : (within x put).2 = put x.2 := rfl

@[simp] theorem whenReady_ready (a : α) (s : σ) (k : α → σ → Poll β × σ) :
    whenReady (.ready a, s) k = k a s := rfl

@[simp] theorem whenReady_pending (s : σ) (k : α → σ → Poll β × σ) :
    whenReady (.pending, s) k = (.pending, s) := rfl

@[simp] theorem whenOk_ok (a : α) (s : σ) (k : α → σ → Poll (Except ε β) × σ) :
    whenOk (.ready (.ok a), s) k = k a s := rfl

/-- **Rule for `whenReady`.** What holds after the continuation and after every
outcome that is no answer holds after the whole. -/
theorem whenReady_ind {P : Poll β × σ → Prop} {x : Poll α × σ} {k : α → σ → Poll β × σ}
    (hk : ∀ a s, x = (.ready a, s) → P (k a s))
    (hn : ∀ p : Poll β, (∀ b, p ≠ .ready b) → P (p, x.2)) : P (whenReady x k) := by
  obtain ⟨p, s⟩ := x
  cases p with
  | ready a => exact hk a s rfl
  | pending => exact hn .pending (by simp)
  | busy => exact hn .busy (by simp)
  | panicked => exact hn .panicked (by simp)

theorem whenOk_ind {P : Poll (Except ε β) × σ → Prop} {x : Poll (Except ε α) × σ}
    {k : α → σ → Poll (Except ε β) × σ} (hk : ∀ a s, x = (.ready (.ok a), s) → P (k a s))
    (he : ∀ e s, x = (.ready (.error e), s) → P (.ready (.error e), s))
    (hn : ∀ p : Poll (Except ε β), (∀ b, p ≠ .ready b) → P (p, x.2)) : P (whenOk x k) := by
  refine whenReady_ind (fun r s hx => ?_) hn
  cases r with
  | ok a => exact hk a s hx
  | error e => exact he e s hx

theorem whenOk_within_ind {P : Poll (Except ε β) × σ → Prop} {x : Poll (Except ε α) × τ} {put : τ → σ}
    {k : α → σ → Poll (Except ε β) × σ} (hk : ∀ a t, x = (.ready (.ok a), t) → P (k a (put t)))
    (he : ∀ e t, x = (.ready (.error e), t) → P (.ready (.error e), put t))
    (hn : ∀ p : Poll (Except ε β), (∀ b, p ≠ .ready b) → (p = .panicked → x.1 = .panicked) → P (p, put x.2)) :
    P (whenOk (within x put) k) := by
  obtain ⟨p, t⟩ := x
  rcases p with (e | a) | _ | _ | _
  · exact he e t rfl
  · exact hk a t rfl
  · exact hn .pending (by simp) (by simp)
  · exact hn .busy (by simp) (by simp)
  · exact hn .panicked (by simp) (by simp)

/-! ## Loops -/

/-- What one round of a loop does: go round again, or leave the function. -/
inductive Ctl (β σ : Type) where
  | again (s : σ)
  | ret (x : Poll β × σ)

/-- Inside a loop body: go on with the answer of `x`, leave with any other outcome. -/
def Ctl.whenReady (x : Poll α × σ) (k : α → σ → Ctl β σ) : Ctl β σ :=
  match x with
  | (.ready a, s) => k a s
  | (.pending, s) => .ret (.pending, s)
  | (.busy, s) => .ret (.busy, s)
  | (.panicked, s) => .ret (.panicked, s)

/-- Inside a loop body: go on with the value of `x`, leave with an error too. -/
def Ctl.whenOk (x : Poll (Except ε α) × σ) (k : α → σ → Ctl (Except ε β) σ) : Ctl (Except ε β) σ :=
  Ctl.whenReady x fun r s =>
    match r with
    | .ok a => k a s
    | .error e => .ret (.ready (.error e), s)

/-- Inside a loop body: go on whether `x` answers or is refused, leave with an error. -/
def Ctl.unlessErr (x : Poll (Except ε α) × σ) (k : Bool → σ → Ctl (Except ε β) σ) : Ctl (Except ε β) σ :=
  match x with
  | (.ready (.ok _), s) => k true s
  | (.ready (.error e), s) => .ret (.ready (.error e), s)
  | (.pending, s) => k false s
  | (.busy, s) => .ret (.busy, s)
  | (.panicked, s) => .ret (.panicked, s)

/-- A loop that is left by returning, for at most `n` rounds. -/
def loop (body : σ → Ctl β σ) : ℕ → σ → Poll β × σ
  | 0, s => (.busy, s)
  | n + 1, s =>
    match body s with
    | .again s' => loop body n s'
    | .ret x => x

/-- A property of what one round does: `I` if it goes on, `Q` if it leaves. -/
def Ctl.Sat (I : σ → Prop) (Q : Poll β × σ → Prop) : Ctl β σ → Prop
  | .again s => I s
  | .ret x => Q x

variable {I : σ → Prop} {Q : Poll β × σ → Prop} {x : Poll (Except ε α) × σ}

theorem Ctl.whenReady_sat {x : Poll α × σ} {k : α → σ → Ctl β σ} (hk : ∀ a s, x = (.ready a, s) → (k a s).Sat I Q)
    (hn : ∀ p : Poll β, (∀ b, p ≠ .ready b) → Q (p, x.2)) : (Ctl.whenReady x k).Sat I Q := by
  obtain ⟨p, s⟩ := x
  cases p with
  | ready a => exact hk a s rfl
  | pending => exact hn .pending (by simp)
  | busy => exact hn .busy (by simp)
  | panicked => exact hn .panicked (by simp)

theorem Ctl.whenOk_sat {Q : Poll (Except ε β) × σ → Prop}
    {k : α → σ → Ctl (Except ε β) σ} (hk : ∀ a s, x = (.ready (.ok a), s) → (k a s).Sat I Q)
    (he : ∀ e s, x = (.ready (.error e), s) → Q (.ready (.error e), s))
    (hn : ∀ p : Poll (Except ε β), (∀ b, p ≠ .ready b) → Q (p, x.2)) :
    (Ctl.whenOk x k).Sat I Q := by
  refine Ctl.whenReady_sat (fun r s hx => ?_) hn
  cases r with
  | ok a => exact hk a s hx
  | error e => exact he e s hx

theorem Ctl.unlessErr_sat {Q : Poll (Except ε β) × σ → Prop}
    {k : Bool → σ → Ctl (Except ε β) σ} (hk : ∀ a s, x = (.ready (.ok a), s) → (k true s).Sat I Q)
    (hp : ∀ s, x = (.pending, s) → (k false s).Sat I Q)
    (he : ∀ e s, x = (.ready (.error e), s) → Q (.ready (.error e), s))
    (hn : ∀ p : Poll (Except ε β), p = .busy ∨ p = .panicked → Q (p, x.2)) : (Ctl.unlessErr x k).Sat I Q := by
  obtain ⟨p, s⟩ := x
  rcases p with (e | a) | _ | _ | _
  · exact he e s rfl
  · exact hk a s rfl
  · exact hp s rfl
  · exact hn .busy (.inl rfl)
  · exact hn .panicked (.inr rfl)

/-- The same for a property of the state that `x` leaves, whatever its outcome. -/
theorem Ctl.unlessErr_sat_state {P I : σ → Prop} {Q : Poll (Except ε β) × σ → Prop}
    {k : Bool → σ → Ctl (Except ε β) σ} (hx : P x.2) (hk : ∀ b s, P s → (k b s).Sat I Q)
    (hQ : ∀ p s, P s → Q (p, s)) : (Ctl.unlessErr x k).Sat I Q := by
  obtain ⟨p, s⟩ := x
  rcases p with (e | a) | _ | _ | _
  · exact hQ _ s hx
  · exact hk true s hx
  · exact hk false s hx
  · exact hQ _ s hx
  · exact hQ _ s hx

/-- **Invariant rule.** If a round from an invariant state keeps the invariant
when it goes on and establishes `Q` when it leaves, then `Q` holds of what the
loop returns, also of a loop that is still going. -/
theorem loop_inv {body : σ → Ctl β σ} {I : σ → Prop} {Q : Poll β × σ → Prop}
    (hbody : ∀ s, I s → (body s).Sat I Q) (hbusy : ∀ s, I s → Q (.busy, s)) :
    ∀ n s, I s → Q (loop body n s) := by
  intro n
  induction n with
  | zero => intro s hs; exact hbusy s hs
  | succ n ih =>
    intro s hs
    have h := hbody s hs
    unfold loop
    cases hb : body s with
    | again s' => rw [hb] at h; exact ih s' h
    | ret x => rw [hb] at h; exact h

/-- **Progress rule.** If every round from a state of measure `m` either goes on
to a state of smaller measure, or leaves with `Q`, then the loop leaves with `Q`,
given more rounds than the measure. -/
theorem loop_progress {body : σ → Ctl β σ} {I : ℕ → σ → Prop} {Q : Poll β × σ → Prop}
    (hbody : ∀ m s, I m s → (body s).Sat (fun s' => ∃ m', m' < m ∧ I m' s') Q) :
    ∀ n m s, I m s → m < n → Q (loop body n s) := by
  intro n
  induction n with
  | zero => intro m s _ h; omega
  | succ n ih =>
    intro m s hs hn
    have h := hbody m s hs
    unfold loop
    cases hb : body s with
    | again s' =>
      rw [hb] at h
      obtain ⟨m', hm, hI⟩ := h
      exact ih m' s' hI (by omega)
    | ret x => rw [hb] at h; exact h

/-! ## Calls as sequences of steps -/

/-- The state a round leaves behind. -/
def Ctl.state : Ctl β σ → σ
  | .again s => s
  | .ret x => x.2

/-- A property of the state that a round leaves, whether it goes on or not. -/
theorem Ctl.sat_state {r : Ctl β σ} (h : I r.state) (hQ : ∀ x, I x.2 → Q x) : r.Sat I Q := by
  cases r with
  | again s => exact h
  | ret x => exact hQ x h

section Reaches

open Relation

variable {R : σ → σ → Prop} {s : σ}

theorem whenReady_reaches {x : Poll α × σ} {k : α → σ → Poll β × σ} (hx : ReflTransGen R s x.2)
    (hk : ∀ a t, x = (.ready a, t) → ReflTransGen R s (k a t).2) : ReflTransGen R s (whenReady x k).2 :=
  whenReady_ind (P := fun y => ReflTransGen R s y.2) hk fun _ _ => hx

theorem whenOk_reaches {x : Poll (Except ε α) × σ} {k : α → σ → Poll (Except ε β) × σ}
    (hx : ReflTransGen R s x.2) (hk : ∀ a t, x = (.ready (.ok a), t) → ReflTransGen R s (k a t).2) :
    ReflTransGen R s (whenOk x k).2 := by
  refine whenOk_ind (P := fun y => ReflTransGen R s y.2) hk (fun e t h => ?_) fun _ _ => hx
  rw [h] at hx; exact hx

theorem Ctl.whenReady_reaches {x : Poll α × σ} {k : α → σ → Ctl β σ} (hx : ReflTransGen R s x.2)
    (hk : ∀ a t, x = (.ready a, t) → ReflTransGen R s (k a t).state) :
    ReflTransGen R s (Ctl.whenReady x k).state := by
  obtain ⟨p, t⟩ := x
  cases p with
  | ready a => exact hk a t rfl
  | pending => exact hx
  | busy => exact hx
  | panicked => exact hx

theorem Ctl.whenOk_reaches {x : Poll (Except ε α) × σ} {k : α → σ → Ctl (Except ε β) σ}
    (hx : ReflTransGen R s x.2) (hk : ∀ a t, x = (.ready (.ok a), t) → ReflTransGen R s (k a t).state) :
    ReflTransGen R s (Ctl.whenOk x k).state := by
  refine Ctl.whenReady_reaches hx fun r t h => ?_
  cases r with
  | ok a => exact hk a t h
  | error e => rw [h] at hx; exact hx

theorem Ctl.unlessErr_reaches {x : Poll (Except ε α) × σ} {k : Bool → σ → Ctl (Except ε β) σ}
    (hx : ReflTransGen R s x.2) (hk : ∀ b t, ReflTransGen R s t → ReflTransGen R s (k b t).state) :
    ReflTransGen R s (Ctl.unlessErr x k).state := by
  obtain ⟨p, t⟩ := x
  rcases p with (e | a) | _ | _ | _
  · exact hx
  · exact hk true t hx
  · exact hk false t hx
  · exact hx
  · exact hx

/-- **A loop is a sequence of steps if each of its rounds is.** -/
theorem loop_reaches {body : σ → Ctl β σ} (hbody : ∀ s, ReflTransGen R s (body s).state) :
    ∀ n s, ReflTransGen R s (loop body n s).2 := by
  intro n
  induction n with
  | zero => intro s; exact .refl
  | succ n ih =>
    intro s
    have h := hbody s
    unfold loop
    cases hb : body s with
    | again s' => rw [hb] at h; exact h.trans (ih s')
    | ret x => rw [hb] at h; exact h

end Reaches

/-! ## Tasks -/

/-- A task that is polled until it answers, with an allowance of rounds for each poll. -/
def repoll (f : ℕ → σ → Poll α × σ) : List ℕ → σ → Poll α × σ
  | [], s => (.pending, s)
  | n :: ns, s =>
    match f n s with
    | (.pending, s') | (.busy, s') => repoll f ns s'
    | (.ready a, s') => (.ready a, s')
    | (.panicked, s') => (.panicked, s')

/-- **Rule for tasks.** What each poll establishes from the invariant holds of the task. -/
theorem repoll_inv {f : ℕ → σ → Poll α × σ} {Q : Poll α × σ → Prop} (hf : ∀ n s, Q (.pending, s) → Q (f n s))
    (hbusy : ∀ s, Q (.busy, s) → Q (.pending, s)) : ∀ ns s, Q (.pending, s) → Q (repoll f ns s) := by
  intro ns
  induction ns with
  | nil => intro s hs; exact hs
  | cons n ns ih =>
    intro s hs
    have h := hf n s hs
    unfold repoll
    rcases hx : f n s with ⟨a | _ | _ | _, s'⟩ <;> rw [hx] at h
    · exact h
    · exact ih s' h
    · exact ih s' (hbusy s' h)
    · exact h

/-- A call gets to `Q`, or uses up some of a measure. -/
def Descends (I : ℕ → σ → Prop) (Q : Poll α × σ → Prop) (m : ℕ) (x : Poll α × σ) : Prop :=
  Q x ∨ (x.1 = .pending ∨ x.1 = .busy) ∧ ∃ k, k < m ∧ I k x.2

/-- **Rounds that use up a measure.** A loop with at least one round to go uses it up too. -/
theorem loop_descends {body : σ → Ctl β σ} {I : ℕ → σ → Prop} {Q : Poll β × σ → Prop}
    (hbody : ∀ m s, I m s → (body s).Sat (fun s' => ∃ k, k < m ∧ I k s') (Descends I Q m)) :
    ∀ n m s, 0 < n → I m s → Descends I Q m (loop body n s) := by
  intro n
  induction n with
  | zero => intro m s h0; omega
  | succ n ih =>
    intro m s _ hs
    have h := hbody m s hs
    unfold loop
    cases hb : body s with
    | ret x => rw [hb] at h; exact h
    | again s' =>
      rw [hb] at h
      obtain ⟨k, hk, hI⟩ := h
      cases n with
      | zero => exact .inr ⟨.inr rfl, k, hk, hI⟩
      | succ n =>
        refine (ih k s' (Nat.succ_pos n) hI).imp_right fun h => ⟨h.1, ?_⟩
        obtain ⟨k', hk', hI'⟩ := h.2
        exact ⟨k', lt_trans hk' hk, hI'⟩

/-- **Polls that use up a measure.** More polls than the measure get to `Q`, if `Q` is kept and their
allowances suffice. -/
theorem repoll_descends {f : ℕ → σ → Poll α × σ} {P : ℕ → Prop} {I : ℕ → σ → Prop} {Q : Poll α × σ → Prop}
    (hf : ∀ n m s, P n → I m s → Descends I Q m (f n s)) (hQ : ∀ n s, Q (.pending, s) → Q (f n s))
    (hbusy : ∀ s, Q (.busy, s) → Q (.pending, s)) :
    ∀ ns m s, (∀ n ∈ ns, P n) → I m s → m < ns.length → Q (repoll f ns s) := by
  intro ns
  induction ns with
  | nil => intro m s _ _ hm; exact absurd hm (Nat.not_lt_zero m)
  | cons n ns ih =>
    intro m s hpos hs hm
    have hrest : ∀ k s', k < m → I k s' → Q (repoll f ns s') := fun k s' hk hI =>
      ih k s' (fun n hn => hpos n (List.mem_cons_of_mem _ hn)) hI (by rw [List.length_cons] at hm; omega)
    have h := hf n m s (hpos n (by simp)) hs
    unfold repoll
    rcases hx : f n s with ⟨a | _ | _ | _, s'⟩ <;> rw [hx] at h
    · exact h.elim id fun h => absurd h.1 (by simp)
    · exact h.elim (repoll_inv hQ hbusy ns s') fun ⟨_, k, hk, hI⟩ => hrest k s' hk hI
    · exact h.elim (fun h => repoll_inv hQ hbusy ns s' (hbusy s' h)) fun ⟨_, k, hk, hI⟩ => hrest k s' hk hI
    · exact h.elim id fun h => absurd h.1 (by simp)

end Netty
