import Mathlib.Data.List.Basic

/-!
# Logs

What happened in a run, latest first. A log is in order when each event was justified by what had
happened before it, so a run keeps it in order when each step records what is justified.

* `Log.gather`: what the events bring, in the order they happened.
* `Log.Ok`: every event was justified.
* `Log.Ok.split`, `Log.Ok.later`: what that says of one event, and of those after some point.
-/

namespace Log

open List

variable {ε α : Type} {J : ε → List ε → Prop} {f : ε → List α} {l l' : List ε} {e : ε}

/-- What the events bring, in the order they happened. -/
def gather (f : ε → List α) : List ε → List α
  | [] => []
  | e :: l => gather f l ++ f e

@[simp] theorem gather_cons : gather f (e :: l) = gather f l ++ f e := rfl

theorem gather_append : gather f (l' ++ l) = gather f l ++ gather f l' := by
  induction l' with
  | nil => exact (append_nil _).symm
  | cons x l' ih => rw [cons_append, gather_cons, gather_cons, ih, append_assoc]

theorem gather_reverse : gather f l.reverse = l.flatMap f := by
  induction l with
  | nil => rfl
  | cons x l ih => rw [reverse_cons, gather_append, ih, flatMap_cons]; rfl

/-- **Every event was justified by those before it.** -/
def Ok (J : ε → List ε → Prop) : List ε → Prop
  | [] => True
  | e :: l => J e l ∧ Ok J l

theorem Ok.split (h : Ok J (l' ++ e :: l)) : J e l := by
  induction l' with
  | nil => exact h.1
  | cons x l' ih => exact ih h.2

theorem Ok.imp {J' : ε → List ε → Prop} (h : Ok J l) (hj : ∀ e m, J e m → J' e m) : Ok J' l := by
  induction l with
  | nil => trivial
  | cons e l ih => exact ⟨hj e l h.1, ih h.2⟩

theorem Ok.earlier (h : Ok J (l' ++ l)) : Ok J l := by
  induction l' with
  | nil => exact h
  | cons x l' ih => exact ih h.2

/-- Events are added that are justified whenever they come. -/
theorem Ok.append (h : Ok J l) (hj : ∀ e ∈ l', ∀ m, J e (m ++ l)) : Ok J (l' ++ l) := by
  induction l' with
  | nil => exact h
  | cons x l' ih => exact ⟨hj x mem_cons_self l', ih fun e he => hj e (mem_cons_of_mem x he)⟩

/-- What every justification after some point says. -/
theorem Ok.later {P : ε → Prop} (h : Ok J (l' ++ l)) (hp : ∀ e m, J e (m ++ l) → P e) : ∀ e ∈ l', P e := by
  induction l' with
  | nil => intro e he; cases he
  | cons x l' ih =>
    intro e he
    rcases mem_cons.1 he with rfl | he
    · exact hp _ l' h.1
    · exact ih h.2 e he

/-- Nothing more is brought. -/
theorem gather_append_of_later (h : ∀ e ∈ l', f e = []) : gather f (l' ++ l) = gather f l := by
  induction l' with
  | nil => rfl
  | cons x l' ih =>
    rw [cons_append, gather_cons, h x mem_cons_self, append_nil]
    exact ih fun e he => h e (mem_cons_of_mem x he)

end Log
