import Mathlib.Data.List.Basic

/-!
# Scanners

A scanner goes through a word letter by letter. It hands out something on the way, and stops in a state in which it is
done, at a letter that it rejects, or at the end of the word.

* `Scanner.scan`: a word read to where the scanner stops.
* `Scanner.Reaches`: the states on the way, with the letters read and what was handed out.
* `Reaches.inv`: **the invariant rule**, about what was read and the state it led to.
* `Reaches.scan`: reading the rest from there.
* `scan_cases`: where a scanner can stop.
* `Recognizes`: the scanner is done exactly behind the words of a language, and goes on only as long as one of them is
  possible.
* `Recognizes.scan_iff`, `Recognizes.scan`: **what a scanner makes of each word**, in terms of the language.
-/

/-- What a letter does to the state, and when the scanner is done. -/
structure Scanner (α σ ε ω : Type) where
  step : σ → α → Except ε (σ × List ω)
  done : σ → Bool

inductive ScanEnd (σ ε : Type) where
  | reached (s : σ)
  | failed (e : ε)
  /-- The word ended. -/
  | short (s : σ)

/-- What was handed out, how many letters were read, and why no more. -/
structure Scanned (σ ε ω : Type) where
  out : List ω
  used : ℕ
  ended : ScanEnd σ ε

variable {α σ ε ω : Type}

/-- With output and letters from before. -/
def Scanned.after (o : List ω) (n : ℕ) (r : Scanned σ ε ω) : Scanned σ ε ω := ⟨o ++ r.out, n + r.used, r.ended⟩

theorem Scanned.after_after (r : Scanned σ ε ω) (o o' : List ω) (n n' : ℕ) :
    (r.after o n).after o' n' = r.after (o' ++ o) (n' + n) := by
  simp [Scanned.after, Nat.add_assoc]

namespace Scanner

open List

variable (m : Scanner α σ ε ω)

def scan : σ → List α → Scanned σ ε ω
  | s, [] => ⟨[], 0, if m.done s then .reached s else .short s⟩
  | s, a :: x =>
    if m.done s then ⟨[], 0, .reached s⟩
    else
      match m.step s a with
      | .ok (s', o) => (scan s' x).after o 1
      | .error e => ⟨[], 1, .failed e⟩

/-- From `s` the letters `x` lead to `s'`, and hand out `o`. -/
inductive Reaches : σ → List α → List ω → σ → Prop
  | refl (s : σ) : Reaches s [] [] s
  | step {s s₁ s' : σ} {a : α} {o₁ o : List ω} {x : List α} : m.done s = false → m.step s a = .ok (s₁, o₁) →
      Reaches s₁ x o s' → Reaches s (a :: x) (o₁ ++ o) s'

variable {m} {s s' s'' : σ} {a : α} {o o' : List ω} {x y : List α}

theorem scan_of_done (h : m.done s = true) (x : List α) : m.scan s x = ⟨[], 0, .reached s⟩ := by
  cases x with
  | nil => rw [scan, if_pos h]
  | cons a x => rw [scan, if_pos h]

theorem scan_of_ok (h : m.done s = false) (hs : m.step s a = .ok (s', o)) :
    m.scan s (a :: x) = (m.scan s' x).after o 1 := by
  rw [scan, if_neg (by simp [h]), hs]

theorem scan_of_error {e : ε} (h : m.done s = false) (hs : m.step s a = .error e) :
    m.scan s (a :: x) = ⟨[], 1, .failed e⟩ := by
  rw [scan, if_neg (by simp [h]), hs]

theorem Reaches.one (h : m.done s = false) (hs : m.step s a = .ok (s', o)) : m.Reaches s [a] o s' := by
  have := Reaches.step h hs (.refl s')
  rwa [append_nil] at this

theorem Reaches.trans (h : m.Reaches s x o s') (h' : m.Reaches s' y o' s'') : m.Reaches s (x ++ y) (o ++ o') s'' := by
  induction h with
  | refl s => exact h'
  | step hd hs _ ih =>
    rw [cons_append, append_assoc]
    exact .step hd hs (ih h')

/-- **Invariant rule.** What holds of nothing read, and is kept by each letter, holds of what was read. -/
theorem Reaches.inv {I : List α → List ω → σ → Prop}
    (hstep : ∀ x o s a s' o', I x o s → m.done s = false → m.step s a = .ok (s', o') → I (x ++ [a]) (o ++ o') s')
    (h : m.Reaches s y o' s') : ∀ x o, I x o s → I (x ++ y) (o ++ o') s' := by
  induction h with
  | refl s =>
    intro x o hI
    rwa [append_nil, append_nil]
  | @step s s₁ s' a o₁ o' y hd hs _ ih =>
    intro x o hI
    have := ih (x ++ [a]) (o ++ o₁) (hstep x o s a s₁ o₁ hI hd hs)
    rwa [append_assoc, append_assoc, singleton_append] at this

theorem Reaches.scan (h : m.Reaches s x o s') (y : List α) : m.scan s (x ++ y) = (m.scan s' y).after o x.length := by
  induction h with
  | refl s => simp [Scanned.after]
  | step hd hs _ ih =>
    rw [cons_append, scan_of_ok hd hs, ih, Scanned.after_after, length_cons, Nat.add_comm 1]

theorem Reaches.scan_done (h : m.Reaches s x o s') (hd : m.done s' = true) (y : List α) :
    m.scan s (x ++ y) = ⟨o, x.length, .reached s'⟩ := by
  rw [h.scan, scan_of_done hd]
  simp [Scanned.after]

theorem Reaches.scan_error {e : ε} (h : m.Reaches s x o s') (hd : m.done s' = false) (he : m.step s' a = .error e)
    (y : List α) : m.scan s (x ++ a :: y) = ⟨o, x.length + 1, .failed e⟩ := by
  rw [h.scan, scan_of_error hd he]
  simp [Scanned.after]

theorem Reaches.unique (h : m.Reaches s x o s') (h' : m.Reaches s x o' s'') : s' = s'' := by
  induction h generalizing o' with
  | refl s => cases h'; rfl
  | step _ hs _ ih =>
    cases h' with
    | step _ hs' h' =>
      rw [hs] at hs'
      cases hs'
      exact ih h'

/-- **Where a scanner stops**: behind the letters `x` of a word `x ++ y`. -/
def Stops (m : Scanner α σ ε ω) (s : σ) (x y : List α) (r : Scanned σ ε ω) : Prop :=
  ∃ s', m.Reaches s x r.out s' ∧
    (m.done s' = true ∧ r.used = x.length ∧ r.ended = .reached s' ∨
    m.done s' = false ∧ y = [] ∧ r.used = x.length ∧ r.ended = .short s' ∨
    m.done s' = false ∧ ∃ a y' e, y = a :: y' ∧ m.step s' a = .error e ∧ r.used = x.length + 1 ∧ r.ended = .failed e)

theorem Stops.cons {r : Scanned σ ε ω} (hd : m.done s = false) (hs : m.step s a = .ok (s', o)) (h : m.Stops s' x y r) :
    m.Stops s (a :: x) y (r.after o 1) := by
  obtain ⟨s'', hr, hstop⟩ := h
  have hlen : ∀ n, r.used = n → (r.after o 1).used = n + 1 := fun n hn => by
    rw [← hn]
    exact Nat.add_comm 1 r.used
  refine ⟨s'', hr.step hd hs, ?_⟩
  rcases hstop with ⟨hd', hu, he⟩ | ⟨hd', hy, hu, he⟩ | ⟨hd', b, y', e, hy, hstep, hu, he⟩
  · exact .inl ⟨hd', hlen _ hu, he⟩
  · exact .inr (.inl ⟨hd', hy, hlen _ hu, he⟩)
  · exact .inr (.inr ⟨hd', b, y', e, hy, hstep, hlen _ hu, he⟩)

theorem stops_of_done (h : m.done s = true) (x : List α) : m.Stops s [] x (m.scan s x) := by
  rw [scan_of_done h]
  exact ⟨s, .refl s, .inl ⟨h, rfl, rfl⟩⟩

theorem scan_cases (z : List α) : ∀ s, ∃ x y, z = x ++ y ∧ m.Stops s x y (m.scan s z) := by
  induction z with
  | nil =>
    intro s
    refine ⟨[], [], rfl, ?_⟩
    cases hd : m.done s with
    | true => exact stops_of_done hd []
    | false =>
      refine ⟨s, .refl s, .inr (.inl ⟨hd, rfl, rfl, ?_⟩)⟩
      rw [scan, if_neg (by simp [hd])]
  | cons a z ih =>
    intro s
    cases hd : m.done s with
    | true => exact ⟨[], a :: z, rfl, stops_of_done hd _⟩
    | false =>
      cases hs : m.step s a with
      | error e =>
        refine ⟨[], a :: z, rfl, ?_⟩
        rw [scan_of_error hd hs]
        exact ⟨s, .refl s, .inr (.inr ⟨hd, a, z, e, rfl, hs, rfl, rfl⟩)⟩
      | ok v =>
        obtain ⟨x, y, rfl, h⟩ := ih v.1
        refine ⟨a :: x, y, rfl, ?_⟩
        rw [scan_of_ok hd hs]
        exact h.cons hd hs

/-! ## Languages -/

/-- Some word of the language goes on from here. -/
def Viable (L : List α → List ω → Prop) (x : List α) : Prop := ∃ y o, L (x ++ y) o

theorem Viable.of_append {L : List α → List ω → Prop} (h : Viable L (x ++ y)) : Viable L x := by
  obtain ⟨z, o, hz⟩ := h
  exact ⟨y ++ z, o, by rwa [← append_assoc]⟩

/-- **The scanner recognises the language** of these words with their output. -/
structure Recognizes (m : Scanner α σ ε ω) (s : σ) (L : List α → List ω → Prop) : Prop where
  complete : ∀ {x o}, L x o → ∃ s', m.Reaches s x o s' ∧ m.done s' = true
  sound : ∀ {x o s'}, m.Reaches s x o s' → m.done s' = true → L x o
  viable : ∀ {x o s'}, m.Reaches s x o s' → Viable L x

variable {L : List α → List ω → Prop}

/-- A word is in the language if and only if the scanner is done right behind it. -/
theorem Recognizes.scan_iff (h : Recognizes m s L) :
    L x o ↔ (m.scan s x).out = o ∧ (m.scan s x).used = x.length ∧ ∃ s', (m.scan s x).ended = .reached s' := by
  constructor
  · intro hL
    obtain ⟨s', hr, hd⟩ := h.complete hL
    have hscan := hr.scan_done hd []
    rw [append_nil] at hscan
    rw [hscan]
    exact ⟨rfl, rfl, s', rfl⟩
  · rintro ⟨rfl, hu, s', he⟩
    obtain ⟨y, z, hx, s'', hr, ⟨hd, hu', -⟩ | ⟨-, -, -, he'⟩ | ⟨-, _, _, _, -, -, -, he'⟩⟩ := m.scan_cases x s
    · -- it used the whole word
      have hlen := congrArg List.length hx
      rw [length_append, ← hu, hu'] at hlen
      obtain rfl : z = [] := length_eq_zero_iff.1 (by omega)
      rw [append_nil] at hx
      rw [← hx] at hr
      exact h.sound hr hd
    · rw [he] at he'
      cases he'
    · rw [he] at he'
      cases he'

/-- No word of the language goes on behind a letter that is rejected. -/
theorem Recognizes.not_viable {e : ε} (h : Recognizes m s L) (hr : m.Reaches s x o s') (hd : m.done s' = false)
    (he : m.step s' a = .error e) : ¬ Viable L (x ++ [a]) := by
  rintro ⟨y, o', hL⟩
  obtain ⟨s'', hr', hd'⟩ := h.complete hL
  have h₁ := hr'.scan_done hd' []
  have h₂ := hr.scan_error hd he y
  rw [append_nil, append_assoc, singleton_append, h₂] at h₁
  cases congrArg Scanned.ended h₁

/-- **What the scanner makes of a word**: it is done behind the word of the language that stands in front, or the word
ends while it could still become one, or it fails at the first letter behind which it cannot become one. -/
theorem Recognizes.scan (h : Recognizes m s L) (z : List α) :
    (∃ x y s', z = x ++ y ∧ L x (m.scan s z).out ∧ (m.scan s z).used = x.length ∧ (m.scan s z).ended = .reached s') ∨
    (∃ s', Viable L z ∧ m.Reaches s z (m.scan s z).out s' ∧ m.done s' = false ∧ (m.scan s z).used = z.length ∧
      (m.scan s z).ended = .short s') ∨
    (∃ x a y s' e, z = x ++ a :: y ∧ Viable L x ∧ ¬ Viable L (x ++ [a]) ∧ m.Reaches s x (m.scan s z).out s' ∧
      m.step s' a = .error e ∧ (m.scan s z).used = x.length + 1 ∧ (m.scan s z).ended = .failed e) := by
  obtain ⟨x, y, hz, s', hr, ⟨hd, hu, he⟩ | ⟨hd, hy, hu, he⟩ | ⟨hd, a, y', e, hy, hs, hu, he⟩⟩ := m.scan_cases z s
  · exact .inl ⟨x, y, s', hz, h.sound hr hd, hu, he⟩
  · rw [hy, append_nil] at hz
    rw [← hz] at hr hu
    exact .inr (.inl ⟨s', h.viable hr, hr, hd, hu, he⟩)
  · rw [hy] at hz
    exact .inr (.inr ⟨x, a, y', s', e, hz, h.viable hr, h.not_viable hr hd hs, hr, hs, hu, he⟩)

end Scanner
