import Netty.Proof.Framing
import Netty.Spec.Pipe

/-!
# HTTP/1 and HTTP/3 agree on Content-Length

Each protocol has its own reader of the `Content-Length` lines. One adds up digits that it checks
itself, the other looks at the bytes first and then parses the text. They accept the same lines.

* `parseU64_of_digits`: `u64::from_str` on digits.
* `contentLength_toOption`: HTTP/3 reads a head as HTTP/1 does.
* `content_length_agrees`: **both accept the lines that denote one number**, and no others.
-/

namespace Netty

open List

namespace H3

/-! ## Numbers -/

theorem parseDigits_toOption (s : Bytes) : ∀ acc, (parseDigits acc s).toOption =
    s.foldlM (fun result b => if 48 ≤ b && b ≤ 57 then
      (checkedMul result 10).bind fun r => checkedAdd r (b - 48).toNat else none) acc := by
  induction s with
  | nil => intro acc; rfl
  | cons b s ih =>
    intro acc
    rw [parseDigits, foldlM_cons]
    by_cases hb : (48 ≤ b && b ≤ 57) = true
    · rw [if_pos hb, if_pos hb]
      cases checkedMul acc 10 with
      | none => rfl
      | some m =>
        simp only [Option.bind_some]
        cases checkedAdd m (b - 48).toNat with
        | none => rfl
        | some r => exact ih r
    · rw [if_neg hb, if_neg hb]
      rfl

theorem parseU64_of_digits {s : Bytes} (hne : s ≠ []) (hall : s.all isDigit = true) :
    (parseU64 s).toOption = fromDigits s := by
  unfold fromDigits
  rw [if_neg hne, ← parseDigits_toOption]
  obtain ⟨b, rest, rfl⟩ := exists_cons_of_ne_nil hne
  have hb : isDigit b = true := all_eq_true.1 hall b (by simp)
  have hsign : ¬ (b = 43 || b = 45) = true := by
    intro h
    simp only [Bool.or_eq_true, decide_eq_true_eq] at h
    rcases h with rfl | rfl <;> revert hb <;> decide
  rw [parseU64, if_neg hsign]

/-! ## Lines -/

theorem toOption_foldlM {α γ ε : Type} {f : α → γ → Except ε α} {g : α → γ → Option α}
    (h : ∀ a x, (f a x).toOption = g a x) : ∀ (xs : List γ) (a : α), (xs.foldlM f a).toOption = xs.foldlM g a := by
  intro xs
  induction xs with
  | nil => intro a; rfl
  | cons x xs ih =>
    intro a
    rw [foldlM_cons, foldlM_cons, ← h a x]
    cases f a x with
    | error e => rfl
    | ok b => exact ih b

/-- One item is read as HTTP/1 reads it. -/
theorem contentLengthItem_toOption (length : Option ℕ) (item : Bytes) :
    (contentLengthItem length item).toOption = Netty.contentLengthItem length item := by
  have htrim : trimMatches (fun b => b = 32 || b = 9) item = trim item := rfl
  unfold contentLengthItem Netty.contentLengthItem
  simp only [htrim]
  split
  · rename_i h
    have hnone : fromDigits (trim item) = none := by
      cases hd : fromDigits (trim item) with
      | none => rfl
      | some n =>
        obtain ⟨hne, hall, -⟩ := fromDigits_eq_some.1 hd
        unfold isDigit at hall
        simp [hne, hall] at h
    rw [hnone]
    rfl
  · rename_i h
    simp only [Bool.or_eq_true, decide_eq_true_eq, Bool.not_eq_true', not_or, Bool.not_eq_false] at h
    have hparse := parseU64_of_digits h.1 h.2
    cases hu : parseU64 (trim item) with
    | error e =>
      rw [hu] at hparse
      rw [← hparse]
      rfl
    | ok n =>
      rw [hu] at hparse
      rw [← hparse]
      cases length with
      | none => rfl
      | some k =>
        by_cases hk : k = n
        · subst hk; simp [Except.toOption]
        · simp [hk, Except.toOption]

/-- **The length of a head is read as HTTP/1 reads it**, but for what is said when it is malformed. -/
theorem contentLength_toOption (headers : HeaderMap) :
    (contentLength headers).toOption = (headers.getAll .contentLength).foldlM Netty.contentLengthLine none := by
  refine toOption_foldlM (fun a v => ?_) _ _
  unfold contentLengthLine Netty.contentLengthLine
  cases v.toStr with
  | none => rfl
  | some line => exact toOption_foldlM contentLengthItem_toOption _ _

end H3

variable {vs : List HeaderValue}

theorem contentLengthParseAllValues_lt {n : ℕ} (h : contentLengthParseAllValues vs = some n) : n < u64Size := by
  obtain ⟨hne, -⟩ := contentLengthParseAllValues_eq_some h
  obtain ⟨-, hall⟩ := foldlM_agree contentLengthLine_spec (contentLengthParseAllValues_folds h)
  obtain ⟨v, hv⟩ := exists_mem_of_ne_nil vs hne
  obtain ⟨k, hk, -, hlt⟩ := hall v hv
  exact Option.some.inj hk ▸ hlt

/-- **The lines that are accepted**: each denotes the same number. -/
theorem contentLengthParseAllValues_iff {n : ℕ} :
    contentLengthParseAllValues vs = some n ↔ vs ≠ [] ∧ (∀ v ∈ vs, DenotesLength n v) ∧ n < u64Size := by
  constructor
  · intro h
    obtain ⟨hne, hall⟩ := contentLengthParseAllValues_eq_some h
    exact ⟨hne, hall, contentLengthParseAllValues_lt h⟩
  · rintro ⟨hne, hall, hn⟩
    exact contentLengthParseAllValues_of_denotes hn hne hall

theorem foldlM_contentLengthLine_ne_none (hne : vs ≠ []) : vs.foldlM contentLengthLine none ≠ some none := by
  intro h
  obtain ⟨-, hall⟩ := foldlM_agree contentLengthLine_spec h
  obtain ⟨v, hv⟩ := exists_mem_of_ne_nil vs hne
  obtain ⟨n, hn, -⟩ := hall v hv
  cases hn

/-- **HTTP/1 and HTTP/3 agree on Content-Length**, for every header map:

* they return the same number;
* if there is a `Content-Length` line, the one returns nothing when the other fails;
* they return `n` exactly when every item of every line is a string of digits that denotes `n`, and `n` is a `u64`. -/
theorem content_length_agrees (headers : HeaderMap) :
    (∀ n, contentLengthParseAll headers = some n ↔ H3.contentLength headers = .ok (some n)) ∧
    (headers.getAll .contentLength ≠ [] →
      (contentLengthParseAll headers = none ↔ ∃ e, H3.contentLength headers = .error e)) ∧
    (∀ n, contentLengthParseAll headers = some n ↔ headers.getAll .contentLength ≠ [] ∧
      (∀ v ∈ headers.getAll .contentLength, DenotesLength n v) ∧ n < u64Size) := by
  have hread := H3.contentLength_toOption headers
  have hjoin : contentLengthParseAll headers = (H3.contentLength headers).toOption.join := by rw [hread]; rfl
  refine ⟨fun n => ?_, fun hne => ?_, fun n => contentLengthParseAllValues_iff⟩
  · rw [hjoin]
    cases H3.contentLength headers with
    | error e => simp [Except.toOption]
    | ok r => simp [Except.toOption]
  · have hsome := foldlM_contentLengthLine_ne_none hne
    rw [← hread] at hsome
    rw [hjoin]
    cases hx : H3.contentLength headers with
    | error e => simp [Except.toOption]
    | ok r =>
      rw [hx] at hsome
      cases r with
      | none => exact absurd rfl hsome
      | some n => simp [Except.toOption]

end Netty
