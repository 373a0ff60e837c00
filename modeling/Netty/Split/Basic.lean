import Mathlib.Data.List.Basic

/-!
# Pieces between separators

What `List.splitOn` cuts a list into: the pieces have no separator in them, and put together again
with separators before all but the first they are the list.
-/

namespace List

variable {α : Type} [DecidableEq α] {x : α} {s l : List α}

theorem notMem_of_mem_splitOn (h : l ∈ s.splitOn x) : x ∉ l := by
  induction s generalizing l with
  | nil =>
    rw [splitOn_nil, mem_singleton] at h
    simp [h]
  | cons y s ih =>
    rw [splitOn_cons_eq_if_modifyHead] at h
    split at h
    · rcases mem_cons.1 h with rfl | h
      · simp
      · exact ih h
    · rename_i hy
      obtain ⟨first, rest, hs⟩ := exists_cons_of_ne_nil (splitOn_ne_nil x s)
      rw [hs, modifyHead_cons] at h
      rw [hs] at ih
      rcases mem_cons.1 h with rfl | h
      · rw [mem_cons, not_or]
        exact ⟨fun hx => hy (beq_iff_eq.2 hx.symm), ih mem_cons_self⟩
      · exact ih (mem_cons_of_mem _ h)

omit [DecidableEq α] in
/-- The list, put together again. -/
theorem intercalate_cons_eq_flatMap (x : α) (first : List α) (rest : List (List α)) :
    [x].intercalate (first :: rest) = first ++ rest.flatMap (x :: ·) := by
  induction rest generalizing first with
  | nil => simp [intercalate]
  | cons l rest ih =>
    have := ih l
    simp only [intercalate, intersperse_cons_cons, flatten_cons, flatMap_cons] at this ⊢
    rw [this]
    simp

/-- **A list and its pieces.** -/
theorem exists_splitOn (x : α) (s : List α) :
    ∃ first rest, s.splitOn x = first :: rest ∧ s = first ++ rest.flatMap (x :: ·) := by
  obtain ⟨first, rest, hs⟩ := exists_cons_of_ne_nil (splitOn_ne_nil x s)
  refine ⟨first, rest, hs, ?_⟩
  rw [← intercalate_cons_eq_flatMap, ← hs, intercalate_splitOn]

theorem exists_append_of_mem_splitOn (h : l ∈ s.splitOn x) :
    ∃ p q, s = p ++ l ++ q ∧ ∀ y ∈ q.head?, y = x := by
  obtain ⟨first, rest, hs, hjoin⟩ := exists_splitOn x s
  have hhead : ∀ ls : List (List α), ∀ y ∈ (ls.flatMap (x :: ·)).head?, y = x := by
    intro ls y hy
    cases ls with
    | nil => cases hy
    | cons a ls => exact (Option.some.inj hy).symm
  rw [hs] at h
  rcases mem_cons.1 h with rfl | h
  · exact ⟨[], rest.flatMap (x :: ·), hjoin, hhead rest⟩
  · obtain ⟨r, r', rfl⟩ := append_of_mem h
    refine ⟨first ++ r.flatMap (x :: ·) ++ [x], r'.flatMap (x :: ·), ?_, hhead r'⟩
    rw [hjoin]
    simp

end List
