import Mathlib.Data.List.AList

/-!
# Totals over a finite map

A weight of the values of a finite map, added up. Replacing or removing one value
changes the total by the weight of that value only.
-/

namespace AList

open List

variable {κ α : Type} {w : α → ℕ} {m : AList fun _ : κ => α} {k : κ} {v : α}

/-- The weights of all values, added up. -/
def total (w : α → ℕ) (m : AList fun _ : κ => α) : ℕ := m.entries.foldr (fun e n => w e.2 + n) 0

variable [DecidableEq κ]

theorem total_insert (k : κ) (v : α) (m : AList fun _ : κ => α) :
    (m.insert k v).total w = w v + (m.erase k).total w := rfl

theorem total_erase (h : m.lookup k = some v) : w v + (m.erase k).total w = m.total w := by
  suffices hl : ∀ l : List (Sigma fun _ : κ => α), l.dlookup k = some v →
      w v + (l.kerase k).foldr (fun e n => w e.2 + n) 0 = l.foldr (fun e n => w e.2 + n) 0 from hl m.entries h
  intro l
  induction l with
  | nil => intro h; cases h
  | cons e l ih =>
    intro h
    obtain ⟨k', v'⟩ := e
    by_cases hk : k = k'
    · subst hk
      rw [dlookup_cons_eq] at h
      injection h with h
      have hke : kerase k ((⟨k, v'⟩ : Sigma fun _ : κ => α) :: l) = l := kerase_cons_eq rfl
      rw [hke, ← h]
      rfl
    · rw [dlookup_cons_ne _ _ hk] at h
      rw [kerase_cons_ne hk, foldr_cons, foldr_cons, ← ih h]
      exact Nat.add_left_comm _ _ _

theorem total_update (h : m.lookup k = some v) (v' : α) : (m.insert k v').total w + w v = m.total w + w v' := by
  rw [total_insert, ← total_erase h]
  omega

theorem total_insert_new (h : m.lookup k = none) (v : α) : (m.insert k v).total w = w v + m.total w := by
  rw [insert_of_notMem (lookup_eq_none.1 h)]
  rfl

theorem le_total (h : m.lookup k = some v) : w v ≤ m.total w := by
  rw [← total_erase h]
  exact Nat.le_add_right _ _

end AList
