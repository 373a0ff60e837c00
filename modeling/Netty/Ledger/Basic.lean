import Mathlib.Data.List.Perm.Basic
import Mathlib.Data.List.Sublists

/-!
# Ledgers of a waiting room

Things come in an order, some are let into a room, and each of those leaves it, in one of several ways. One way is
through the front. A ledger says what came in, what left, what went through the front, and what is still there.

* `Ledger`: nothing is lost or counted twice, and the front keeps the order.
* `Ledger.pop`, `Ledger.drop`, `Ledger.clear`: something leaves.
* `Ledger.enter`, `Ledger.skip`, `Ledger.arrive`: something comes.
-/

/-- **The books are right.** `front` and `gone` have left, `entered` had come in, `waiting` is in the room, and
`coming` has not come in yet. -/
structure Ledger {α : Type} (R : α → α → Prop) (front gone entered waiting coming : List α) : Prop where
  order : (front ++ waiting).Sublist entered
  once : entered.Perm (gone ++ waiting)
  arrival : (entered ++ coming).Pairwise R

namespace Ledger

open List

variable {α : Type} {R : α → α → Prop} {front gone entered waiting coming a b : List α} {x : α}

theorem nil : Ledger R [] [] [] [] [] := ⟨.refl _, .refl _, .nil⟩

/-- The first one leaves through the front. -/
theorem pop (h : Ledger R front gone entered (x :: waiting) coming) :
    Ledger R (front ++ [x]) (gone ++ [x]) entered waiting coming where
  order := by simpa using h.order
  once := by simpa using h.once
  arrival := h.arrival

/-- Someone leaves in another way. -/
theorem drop (h : Ledger R front gone entered (a ++ x :: b) coming) :
    Ledger R front (gone ++ [x]) entered (a ++ b) coming where
  order := ((Sublist.refl front).append ((Sublist.refl a).append (sublist_cons_self x b))).trans h.order
  once := by
    refine h.once.trans ?_
    rw [append_assoc]
    exact perm_middle.append_left gone
  arrival := h.arrival

/-- Everyone leaves. -/
theorem clear (h : Ledger R front gone entered waiting coming) :
    Ledger R front (gone ++ waiting) entered [] coming where
  order := by
    rw [append_nil]
    exact (sublist_append_left front waiting).trans h.order
  once := by simpa using h.once
  arrival := h.arrival

/-- The next one comes in. -/
theorem enter (h : Ledger R front gone entered waiting (x :: coming)) :
    Ledger R front gone (entered ++ [x]) (waiting ++ [x]) coming where
  order := by
    rw [← append_assoc]
    exact h.order.append (Sublist.refl [x])
  once := by
    rw [← append_assoc]
    exact h.once.append_right [x]
  arrival := by simpa using h.arrival

/-- The next one stays outside. -/
theorem skip (h : Ledger R front gone entered waiting (x :: coming)) :
    Ledger R front gone entered waiting coming where
  order := h.order
  once := h.once
  arrival := h.arrival.sublist ((Sublist.refl entered).append (sublist_cons_self x coming))

/-- Someone new comes, after all others. -/
theorem arrive (h : Ledger R front gone entered waiting coming) (hx : ∀ y ∈ entered ++ coming, R y x) :
    Ledger R front gone entered waiting (coming ++ [x]) where
  order := h.order
  once := h.once
  arrival := by
    rw [← append_assoc]
    exact pairwise_append.2 ⟨h.arrival, pairwise_singleton R x, fun y hy z hz => by
      rw [mem_singleton.1 hz]
      exact hx y hy⟩

/-- What went through the front came in that order. -/
theorem front_ordered (h : Ledger R front gone entered waiting coming) : front.Pairwise R :=
  (pairwise_append.1 h.arrival).1.sublist ((sublist_append_left front waiting).trans h.order)

end Ledger
