import Mathlib.Data.List.Perm.Basic
import Netty.Spec.Handoff

/-!
# Every accepted request is completed once

A request that is not completed has one owner: the send in flight, the queue, the
client's hand or its callback. Whoever lets go of it completes it.

* `View`: the owners and what they hold.
* `Accounts`: the promises of what is held are open, all others are resolved once.
* `Inv`: both, and the request comes back exactly if it was not taken to be written.
* `requests_completed`: this holds after any steps.
-/

namespace Netty

open List

namespace Handoff

variable {T U : Type} {x x' : Handoff T U} {held : List ℕ}

/-! ## Accounts -/

/-- The requests that `poll_msg` has answered with, up to the one that is about to be written. -/
def taken (x : Handoff T U) : List ℕ := x.lost ++ x.handed

def back (x : Handoff T U) (id : ℕ) : Option T := if id ∈ x.taken then none else x.requests id

/-- Nothing was sent to the promise. -/
structure Fresh (p : Promise (Except (TrySendError T) U)) : Prop where
  tx : p.tx = true
  value : p.value = none
  sends : p.sends = 0

/-- The promise is resolved, and a caller that waits has the answer. -/
structure Settled (p : Promise (Except (TrySendError T) U)) (back : Option T) : Prop where
  tx : p.tx = false
  sends : p.sends = 1
  answered : p.rx = true → p.value ≠ none
  carries : ∀ v, p.value = some v → carried v = back

/-- The promises of `held` are open, all others are resolved. -/
structure Accounts (x : Handoff T U) (held : List ℕ) : Prop where
  nodup : held.Nodup
  bound : ∀ id ∈ held, id < x.next
  fresh : ∀ id ∈ held, Fresh (x.promises id)
  settled : ∀ id < x.next, id ∉ held → Settled (x.promises id) (x.back id)

namespace Accounts

theorem congr (h : Accounts x held) (hp : x'.promises = x.promises) (hn : x'.next = x.next)
    (hr : x'.requests = x.requests) (ht : x'.taken = x.taken) : Accounts x' held := by
  have hb : x'.back = x.back := by
    funext id
    unfold back
    rw [hr, ht]
  refine ⟨h.nodup, ?_, ?_, ?_⟩
  · rw [hn]; exact h.bound
  · rw [hp]; exact h.fresh
  · rw [hn, hp, hb]; exact h.settled

theorem perm {held' : List ℕ} (h : Accounts x held) (hp : held.Perm held') : Accounts x held' :=
  ⟨hp.nodup_iff.1 h.nodup, fun id hid => h.bound id (hp.mem_iff.2 hid), fun id hid => h.fresh id (hp.mem_iff.2 hid),
    fun id hid hno => h.settled id hid fun hm => hno (hp.mem_iff.1 hm)⟩

theorem settle {id : ℕ} {out : Except (TrySendError T) U} (h : Accounts x (id :: held))
    (hout : (x.promises id).rx = true → carried out = x.back id) :
    Accounts (x.setPromise id ((x.promises id).send out)) held := by
  obtain ⟨hno, hnodup⟩ := nodup_cons.1 h.nodup
  have hf := h.fresh id mem_cons_self
  refine ⟨hnodup, fun j hj => h.bound j (mem_cons_of_mem _ hj), fun j hj => ?_, fun j hj hnot => ?_⟩
  · have hne : j ≠ id := fun he => hno (he ▸ hj)
    simp only [setPromise, if_neg hne]
    exact h.fresh j (mem_cons_of_mem _ hj)
  · by_cases he : j = id
    · subst he
      simp only [setPromise, if_true]
      refine ⟨rfl, by simp [Promise.send, hf.sends], fun hr => ?_, fun v hv => ?_⟩
      · have hr' : (x.promises j).rx = true := hr
        simp [Promise.send, hr']
      · cases hr : (x.promises j).rx with
        | true =>
          simp only [Promise.send, hr, if_true, Option.some.injEq] at hv
          rw [← hv]
          exact hout hr
        | false => simp [Promise.send, hr, hf.value] at hv
    · simp only [setPromise, if_neg he]
      exact h.settled j hj (by simp [he, hnot])

theorem cancel (h : Accounts x held) (id : ℕ) : Accounts (x.cancel id) held := by
  refine ⟨h.nodup, h.bound, fun j hj => ?_, fun j hj hno => ?_⟩
  · have hf := h.fresh j hj
    by_cases he : j = id
    · subst he
      simp only [Handoff.cancel, setPromise, if_true]
      exact ⟨hf.tx, hf.value, hf.sends⟩
    · simp only [Handoff.cancel, setPromise, if_neg he]
      exact hf
  · have hs := h.settled j hj hno
    by_cases he : j = id
    · subst he
      simp only [Handoff.cancel, setPromise, if_true]
      exact { hs with answered := nofun }
    · simp only [Handoff.cancel, setPromise, if_neg he]
      exact hs

/-- A request is taken: it goes to `write_head`, or is lost on the way. -/
theorem take {id : ℕ} (h : Accounts x held) (hid : id ∈ held) (ht : ∀ j, j ∈ x'.taken ↔ j = id ∨ j ∈ x.taken)
    (hp : x'.promises = x.promises) (hn : x'.next = x.next) (hr : x'.requests = x.requests) : Accounts x' held := by
  refine ⟨h.nodup, fun j hj => hn ▸ h.bound j hj, fun j hj => hp ▸ h.fresh j hj, fun j hj hno => ?_⟩
  have hne : j ≠ id := fun he => hno (he ▸ hid)
  have hb : x'.back j = x.back j := by simp [back, ht, hne, hr]
  rw [hb, hp]
  exact h.settled j (hn ▸ hj) hno

end Accounts

/-! ## Owners -/

def sealed (m : ℕ × T) : Envelope T := ⟨some (m.2, ⟨some m.1⟩)⟩

/-- The owners of requests: the send in flight, the queue, the client's hand, and its callback. -/
structure View (T : Type) where
  inFlight : Option (ℕ × T)
  queue : List (ℕ × T)
  hand : Option (ℕ × T)
  callback : Option ℕ

namespace View

def unsent (v : View T) : List (ℕ × T) := v.inFlight.toList ++ (v.queue ++ v.hand.toList)

def ids (v : View T) : List ℕ := v.unsent.map Prod.fst ++ v.callback.toList

end View

/-- What the client holds: at most one request, and no other while it has a callback. -/
inductive Holds (taken : List ℕ) : Hand T → Option Callback → Option (ℕ × T) → Option ℕ → Prop
  | nothing : Holds taken .nothing none none none
  | callback {id : ℕ} (h : id ∈ taken) : Holds taken .nothing (some ⟨some id⟩) none (some id)
  | received (m : ℕ × T) : Holds taken (.received m.2 ⟨some m.1⟩) none (some m) none
  | starting (id : ℕ) : Holds taken (.starting id) (some ⟨some id⟩) none (some id)
  | closing (e : Error) : Holds taken (.closing e) none none none
  | returning (e : Error) (m : ℕ × T) : Holds taken (.returning e m.2 ⟨some m.1⟩) none (some m) none

namespace Holds

variable {taken : List ℕ} {cb : Option Callback} {n : Option (ℕ × T)} {c : Option ℕ}

theorem of_nothing (h : Holds taken .nothing none n c) : n = none ∧ c = none := by
  cases h
  exact ⟨rfl, rfl⟩

variable {b : Callback}

theorem of_callback (h : Holds taken .nothing (some b) n c) :
    ∃ id, b = ⟨some id⟩ ∧ id ∈ taken ∧ n = none ∧ c = some id := by
  cases h with
  | @callback id hid => exact ⟨id, rfl, hid, rfl, rfl⟩

theorem of_received {req : T} (h : Holds taken (.received req b) cb n c) :
    ∃ m : ℕ × T, req = m.2 ∧ b = ⟨some m.1⟩ ∧ cb = none ∧ n = some m ∧ c = none := by
  cases h with
  | received m => exact ⟨m, rfl, rfl, rfl, rfl, rfl⟩

theorem of_starting {id : ℕ} (h : Holds taken (.starting id) cb n c) :
    cb = some ⟨some id⟩ ∧ n = none ∧ c = some id := by
  cases h
  exact ⟨rfl, rfl, rfl⟩

theorem of_closing {e : Error} (h : Holds taken (.closing e) cb n c) : cb = none ∧ n = none ∧ c = none := by
  cases h
  exact ⟨rfl, rfl, rfl⟩

theorem of_returning {e : Error} {req : T} (h : Holds taken (.returning e req b) cb n c) :
    ∃ m : ℕ × T, req = m.2 ∧ b = ⟨some m.1⟩ ∧ cb = none ∧ n = some m ∧ c = none := by
  cases h with
  | returning e m => exact ⟨m, rfl, rfl, rfl, rfl, rfl⟩

theorem sender {hand : Hand T} (h : Holds taken hand (some b) n c) : b.tx ≠ none := by
  cases h <;> simp

end Holds

/-- **The invariant.** One request may be let go of and not completed yet. -/
structure Inv (x : Handoff T U) (v : View T) (loose : Option ℕ) : Prop where
  ok : x.panicked = false
  inFlight : x.inFlight = v.inFlight.map sealed
  queue : x.queue = v.queue.map sealed
  holds : Holds x.taken x.hand x.callback v.hand v.callback
  accounts : Accounts x (loose.toList ++ v.ids)
  unsent : ∀ m ∈ v.unsent, x.requests m.1 = some m.2 ∧ m.1 ∉ x.taken
  known : ∀ id < x.next, x.requests id ≠ none
  taken : ∀ id ∈ x.taken, id < x.next
  accepted : ∀ id ∈ x.accepted, id < x.next ∧ ∀ m, v.inFlight = some m → m.1 ≠ id
  idle : x.owner ≠ .running → x.hand = .nothing ∧ x.callback = none
  closed : x.owner = .draining ∨ x.owner = .gone → x.closed = true
  gone : x.owner = .gone → v.queue = []

/-! ## Steps -/

section Steps

variable {v : View T}

/-- Who lets go of a request completes it. -/
theorem Inv.send {id : ℕ} {out : Except (TrySendError T) U} (h : Inv x v (some id))
    (hout : (x.promises id).rx = true → carried out = x.back id) :
    Inv (x.setPromise id ((x.promises id).send out)) v none :=
  { h with accounts := h.accounts.settle hout }

theorem Inv.cancel {loose : Option ℕ} (h : Inv x v loose) (id : ℕ) : Inv (x.cancel id) v loose :=
  { h with accounts := h.accounts.cancel id }

theorem Inv.inFlight_none {loose : Option ℕ} (h : Inv x v loose) (hx : x.inFlight = none) : v.inFlight = none := by
  have hi := h.inFlight
  cases hv : v.inFlight with
  | none => rfl
  | some m => rw [hx, hv] at hi; cases hi

theorem Inv.owner_running (h : Inv x v none) (hhand : x.hand ≠ .nothing) : x.owner = .running := by
  by_contra hno
  exact hhand (h.idle hno).1

variable {m : ℕ × T}

theorem View.mem_ids (hm : m ∈ v.unsent) : m.1 ∈ v.ids := mem_append_left _ (mem_map_of_mem hm)

theorem Inv.give (h : Inv x v none) (req : T) : ∃ v', Inv (x.give req) v' none := by
  unfold Handoff.give
  split
  · exact ⟨v, h⟩
  rename_i hfree
  split
  · have hnone : v.inFlight = none := by
      simp only [Bool.or_eq_true, not_or, Bool.not_eq_true, Option.isSome_eq_false_iff,
        Option.isNone_iff_eq_none] at hfree
      exact h.inFlight_none hfree.2
    have hunsent : View.unsent { v with inFlight := some (x.next, req) } = (x.next, req) :: v.unsent := by
      simp [View.unsent, hnone]
    have hids : View.ids { v with inFlight := some (x.next, req) } = x.next :: v.ids := by
      simp only [View.ids, hunsent, map_cons, cons_append]
    have hlt : ∀ id ∈ v.ids, id < x.next := h.accounts.bound
    refine ⟨{ v with inFlight := some (x.next, req) }, ?_⟩
    refine { h with inFlight := rfl, accounts := ?_, unsent := ?_, known := ?_, taken := ?_, accepted := ?_ }
    · rw [Option.toList_none, nil_append, hids]
      refine ⟨nodup_cons.2 ⟨fun hm => lt_irrefl _ (hlt _ hm), h.accounts.nodup⟩, ?_, ?_, fun id hid hno => ?_⟩
      · intro id hid
        rcases mem_cons.1 hid with rfl | hid
        · exact lt_add_one _
        · exact Nat.lt_succ_of_lt (hlt id hid)
      · intro id hid
        rcases mem_cons.1 hid with rfl | hid
        · simp only [setPromise, if_true]
          exact ⟨rfl, rfl, rfl⟩
        · simp only [setPromise, if_neg (ne_of_lt (hlt id hid))]
          exact h.accounts.fresh id hid
      · rw [mem_cons, not_or] at hno
        have hid' : id < x.next := lt_of_le_of_ne (Nat.lt_succ_iff.1 hid) hno.1
        have hs := h.accounts.settled id hid' hno.2
        simp only [setPromise, back, if_neg hno.1]
        exact hs
    · intro m hm
      rw [hunsent] at hm
      rcases mem_cons.1 hm with rfl | hm
      · exact ⟨if_pos rfl, fun hh => lt_irrefl _ (h.taken _ hh)⟩
      · have hne : m.1 ≠ x.next := ne_of_lt (hlt _ (View.mem_ids hm))
        exact ⟨(if_neg hne).trans (h.unsent m hm).1, (h.unsent m hm).2⟩
    · intro id hid
      show (if id = x.next then some req else x.requests id) ≠ none
      split
      · simp
      · rename_i hne
        exact h.known id (lt_of_le_of_ne (Nat.lt_succ_iff.1 hid) hne)
    · exact fun id hid => Nat.lt_succ_of_lt (h.taken id hid)
    · intro id hid
      have hid' := (h.accepted id hid).1
      refine ⟨Nat.lt_succ_of_lt hid', fun m hm => ?_⟩
      rw [← Option.some.inj hm]
      exact ne_of_gt hid'
  · exact ⟨v, h⟩

theorem Accounts.recount {held' : List ℕ} (h : Accounts x held) (hp : x'.promises = x.promises) (hn : x'.next = x.next)
    (hr : x'.requests = x.requests) (ht : x'.taken = x.taken) (hc : ∀ a, held.count a = held'.count a) :
    Accounts x' held' :=
  (h.perm (perm_iff_count.2 hc)).congr hp hn hr ht

theorem Inv.enqueue (h : Inv x v none) : ∃ v', Inv x.enqueue v' none := by
  have hi := h.inFlight
  unfold Handoff.enqueue
  cases hv : v.inFlight with
  | none =>
    rw [hi, hv]
    exact ⟨v, h⟩
  | some m =>
    rw [hi, hv]
    simp only [Option.map_some, sealed]
    split
    · -- refused: nobody waits any more
      have hloose : Inv { x with inFlight := none } { v with inFlight := none } (some m.1) := by
        refine { h with inFlight := rfl, accounts := ?_, unsent := fun n hn => h.unsent n ?_, accepted := ?_ }
        · refine h.accounts.recount rfl rfl rfl rfl fun a => ?_
          simp [View.ids, View.unsent, hv]
        · simp only [View.unsent, hv] at hn ⊢
          exact mem_cons_of_mem _ hn
        · exact fun id hid => ⟨(h.accepted id hid).1, by simp⟩
      refine ⟨{ v with inFlight := none }, (hloose.cancel m.1).send fun hr => ?_⟩
      simp [Handoff.cancel, setPromise, Promise.dropReceiver] at hr
    · rename_i hopen
      refine ⟨{ v with inFlight := none, queue := v.queue ++ [m] }, ?_⟩
      refine { h with
        inFlight := rfl, queue := ?_, accounts := ?_, unsent := fun n hn => h.unsent n ?_, accepted := ?_, gone := ?_ }
      · show x.queue ++ [sealed m] = _
        rw [h.queue, map_append]
        rfl
      · refine h.accounts.recount rfl rfl rfl rfl fun a => ?_
        simp [View.ids, View.unsent, hv, count_cons]
        omega
      · simp only [View.unsent, hv, Option.toList_none, Option.toList_some, nil_append, mem_append,
          mem_singleton] at hn ⊢
        tauto
      · intro id hid
        refine ⟨?_, by simp⟩
        rcases mem_append.1 hid with hid | hid
        · simp only [Option.toList_some, mem_singleton] at hid
          rw [hid]
          exact h.accounts.bound m.1 (View.mem_ids (v := v) (by simp [View.unsent, hv]))
        · exact (h.accepted id hid).1
      · exact fun hg => absurd (h.closed (.inr hg)) hopen

theorem Inv.dropSender (h : Inv x v none) : Inv x.dropSender v none := by
  unfold Handoff.dropSender
  split
  · exact h
  · exact { h with accounts := h.accounts.congr rfl rfl rfl rfl }

theorem Inv.pop {q : List (ℕ × T)} {hand : Hand T} (h : Inv x v none) (hq : v.queue = m :: q) (hv : v.hand = none)
    (hc : v.callback = none) (ho : x.owner = .running) (hand' : Holds x.taken hand x.callback (some m) none) :
    Inv { x with queue := q.map sealed, hand := hand } { v with queue := q, hand := some m } none := by
  refine { h with
    queue := rfl, holds := ?_, accounts := ?_, unsent := fun n hn => h.unsent n ?_, idle := ?_, gone := ?_ }
  · rw [hc]
    exact hand'
  · refine h.accounts.recount rfl rfl rfl rfl fun a => ?_
    simp [View.ids, View.unsent, hq, hv, count_cons]
    omega
  · simp only [View.unsent, hq, hv, Option.toList_none, Option.toList_some, mem_append, mem_cons,
      not_mem_nil, or_false] at hn ⊢
    tauto
  · exact fun hno => absurd ho hno
  · exact fun hg => absurd (hg.symm.trans ho) (by simp)

theorem Inv.pollRecv (h : Inv x v none) (refused : Bool) : ∃ v', Inv (x.pollRecv refused) v' none := by
  have hh := h.holds
  unfold Handoff.pollRecv
  split
  · rename_i ho hhand hcb
    rw [hhand, hcb] at hh
    split
    · exact ⟨v, { h with accounts := h.accounts.congr rfl rfl rfl rfl }⟩
    split
    · rename_i env q hq
      obtain ⟨m, q', hmq, rfl, rfl⟩ := map_eq_cons_iff.1 (h.queue.symm.trans hq)
      obtain ⟨hv, hc⟩ := hh.of_nothing
      exact ⟨_, h.pop hmq hv hc ho (hcb ▸ .received m)⟩
    · split
      · exact ⟨v, { h with accounts := h.accounts.congr rfl rfl rfl rfl }⟩
      · exact ⟨v, { h with accounts := h.accounts.congr rfl rfl rfl rfl }⟩
  · exact ⟨v, h⟩

theorem Inv.release (h : Inv x v none) (hv : v.hand = some m) (hc : x.callback = none) (hcv : v.callback = none) :
    Inv { x with hand := .nothing } { v with hand := none } (some m.1) := by
  refine { h with holds := ?_, accounts := ?_, unsent := fun n hn => h.unsent n ?_, idle := fun _ => ⟨rfl, hc⟩ }
  · show Holds _ _ x.callback _ v.callback
    rw [hc, hcv]
    exact .nothing
  · refine h.accounts.recount rfl rfl rfl rfl fun a => ?_
    simp [View.ids, View.unsent, hv, count_cons]
    omega
  · simp only [View.unsent, hv, Option.toList_none, Option.toList_some, mem_append, not_mem_nil,
      or_false] at hn ⊢
    tauto

theorem Inv.back_unsent (h : Inv x v none) (hm : m ∈ v.unsent) : x.back m.1 = some m.2 := by
  obtain ⟨hr, hh⟩ := h.unsent m hm
  unfold back
  rw [if_neg hh, hr]

theorem Inv.pollCanceled (h : Inv x v none) (refused : Bool) : ∃ v', Inv (x.pollCanceled refused) v' none := by
  have hh := h.holds
  unfold Handoff.pollCanceled
  split
  · rename_i req cb hhand
    rw [hhand] at hh
    obtain ⟨m, rfl, rfl, hcb, hv, hc⟩ := hh.of_received
    simp only
    split
    · refine ⟨{ v with hand := none, callback := some m.1 }, ?_⟩
      refine { h with
        holds := .starting m.1, accounts := ?_, unsent := fun n hn => h.unsent n ?_, idle := ?_ }
      · refine h.accounts.recount rfl rfl rfl rfl fun a => ?_
        simp [View.ids, View.unsent, hv, hc, count_cons]
      · simp only [View.unsent, hv, Option.toList_none, Option.toList_some, mem_append, not_mem_nil,
          or_false] at hn ⊢
        tauto
      · exact fun hno => absurd (h.owner_running (by simp [hhand])) hno
    · rename_i hgone
      -- nobody gets what the callback sends
      simp only [Bool.or_eq_true, not_or] at hgone
      exact ⟨_, (h.release hv hcb hc).send fun hr => absurd hr hgone.1⟩
  · exact ⟨v, h⟩

theorem Inv.take {id : ℕ} (h : Inv x v none) (hhand : x.hand = .starting id)
    (ht : ∀ j, j ∈ x'.taken ↔ j = id ∨ j ∈ x.taken) (hp : x'.promises = x.promises) (hn : x'.next = x.next)
    (hr : x'.requests = x.requests) :
    Accounts x' v.ids ∧ (∀ m ∈ v.unsent, x'.requests m.1 = some m.2 ∧ m.1 ∉ x'.taken) ∧
      ∀ j ∈ x'.taken, j < x'.next := by
  have hh := h.holds
  rw [hhand] at hh
  obtain ⟨-, -, hc⟩ := hh.of_starting
  have hid : id ∈ v.ids := by simp [View.ids, hc]
  refine ⟨h.accounts.take hid ht hp hn hr, fun m hm => ?_, fun j hj => ?_⟩
  · -- the one that is taken is not among the others
    refine ⟨hr ▸ (h.unsent m hm).1, ?_⟩
    rw [ht, not_or]
    refine ⟨fun he => ?_, (h.unsent m hm).2⟩
    have hnodup := h.accounts.nodup
    rw [Option.toList_none, nil_append, View.ids, hc] at hnodup
    exact (nodup_append.1 hnodup).2.2 m.1 (mem_map_of_mem hm) id (by simp) he
  · rw [hn]
    rcases (ht j).1 hj with rfl | hj
    · exact h.accounts.bound j hid
    · exact h.taken j hj

theorem Inv.writeHead (h : Inv x v none) : Inv x.writeHead v none := by
  have hh := h.holds
  unfold Handoff.writeHead
  split
  · rename_i id hhand
    rw [hhand] at hh
    obtain ⟨hcb, hv, hc⟩ := hh.of_starting
    have ht : ∀ j, j ∈ Handoff.taken { x with handed := id :: x.handed, hand := .nothing } ↔ j = id ∨ j ∈ x.taken := by
      intro j
      simp only [Handoff.taken, mem_append, mem_cons]
      tauto
    obtain ⟨hacc, hunsent, htaken⟩ := h.take hhand ht rfl rfl rfl
    refine { h with holds := ?_, accounts := hacc, unsent := hunsent, taken := htaken, idle := ?_ }
    · show Holds _ _ x.callback v.hand v.callback
      rw [hcb, hv, hc]
      exact .callback ((ht id).2 (.inl rfl))
    · exact fun hno => absurd (h.owner_running (by simp [hhand])) hno
  · exact h

theorem Inv.pollReady (h : Inv x v none) : Inv x.pollReady v none := by
  have hh := h.holds
  unfold Handoff.pollReady
  split
  · rename_i hcb
    rw [hcb] at hh
    exact absurd rfl hh.sender
  · exact h

theorem Inv.takeCallback {cb : Callback} (h : Inv x v none) (hhand : x.hand = .nothing) (hcb : x.callback = some cb) :
    ∃ id, cb = ⟨some id⟩ ∧ x.back id = none ∧
      Inv { x with callback := none } { v with callback := none } (some id) := by
  have hh := h.holds
  rw [hhand, hcb] at hh
  obtain ⟨id, rfl, hid, hv, hc⟩ := hh.of_callback
  refine ⟨id, rfl, by simp [back, hid], ?_⟩
  refine { h with holds := ?_, accounts := ?_, unsent := h.unsent, idle := fun _ => ⟨hhand, rfl⟩ }
  · show Holds x.taken x.hand none v.hand none
    rw [hhand, hv]
    exact .nothing
  · refine h.accounts.recount rfl rfl rfl rfl fun a => ?_
    simp [View.ids, View.unsent, hc, count_cons]
    omega

section

variable (h : Inv x v none)

include h

theorem Inv.recvOk (res : U) : ∃ v', Inv (x.recvOk res) v' none := by
  unfold Handoff.recvOk
  split
  · rename_i cb _ hhand hcb
    obtain ⟨id, rfl, hb, h'⟩ := h.takeCallback hhand hcb
    exact ⟨_, h'.send fun _ => hb.symm⟩
  · exact ⟨v, h⟩

theorem Inv.recvErr (e : Error) : ∃ v', Inv (x.recvErr e) v' none := by
  have hh := h.holds
  unfold Handoff.recvErr
  split
  · rename_i cb _ hhand hcb
    obtain ⟨id, rfl, hb, h'⟩ := h.takeCallback hhand hcb
    exact ⟨_, h'.send fun _ => hb.symm⟩
  · rename_i ho hhand hcb
    split
    · exact ⟨v, h⟩
    · rw [hhand, hcb] at hh
      obtain ⟨hv, hc⟩ := hh.of_nothing
      refine ⟨v, { h with
        holds := ?_, accounts := h.accounts.congr rfl rfl rfl rfl, idle := ?_, closed := fun _ => rfl }⟩
      · show Holds _ _ x.callback v.hand v.callback
        rw [hcb, hv, hc]
        exact .closing e
      · exact fun hno => absurd ho hno
  · exact ⟨v, h⟩

theorem Inv.tryRecv (refused : Bool) : ∃ v', Inv (x.tryRecv refused) v' none := by
  have hh := h.holds
  have hrest : ∀ e, x.hand = .closing e → Inv { x with hand := .nothing } v none := by
    intro e hhand
    rw [hhand] at hh
    obtain ⟨hcb, hv, hc⟩ := hh.of_closing
    refine { h with holds := ?_, accounts := h.accounts.congr rfl rfl rfl rfl, idle := fun _ => ⟨rfl, hcb⟩ }
    show Holds _ _ x.callback v.hand v.callback
    rw [hcb, hv, hc]
    exact .nothing
  unfold Handoff.tryRecv
  split
  · rename_i e env q hhand hq
    split
    · exact ⟨v, hrest e hhand⟩
    · obtain ⟨m, q', hmq, rfl, rfl⟩ := map_eq_cons_iff.1 (h.queue.symm.trans hq)
      rw [hhand] at hh
      obtain ⟨hcb, hv, hc⟩ := hh.of_closing
      exact ⟨_, h.pop hmq hv hc (h.owner_running (by simp [hhand])) (hcb ▸ .returning e m)⟩
  · rename_i e hhand _
    exact ⟨v, hrest e hhand⟩
  · exact ⟨v, h⟩

theorem Inv.giveBack : ∃ v', Inv x.giveBack v' none := by
  have hh := h.holds
  unfold Handoff.giveBack
  split
  · rename_i e req cb hhand
    rw [hhand] at hh
    obtain ⟨m, rfl, rfl, hcb, hv, hc⟩ := hh.of_returning
    have hb : x.back m.1 = some m.2 := h.back_unsent (by simp [View.unsent, hv])
    exact ⟨_, (h.release hv hcb hc).send fun _ => hb.symm⟩
  · exact ⟨v, h⟩

theorem Inv.dropClient (hhand : x.hand = .nothing) (panicking : Bool) :
    ∃ v', Inv (x.dropClient panicking) v' none := by
  unfold Handoff.dropClient
  dsimp only
  split
  · rename_i cb hcb
    obtain ⟨id, rfl, hb, h'⟩ := h.takeCallback hhand hcb
    have h'' : Inv { x with callback := none, owner := .dropping } { v with callback := none } (some id) :=
      { h' with
        accounts := h'.accounts.congr rfl rfl rfl rfl, idle := fun _ => ⟨hhand, rfl⟩, closed := by simp
        gone := by simp }
    exact ⟨_, h''.send fun _ => hb.symm⟩
  · rename_i hcb
    exact ⟨v, { h with
      accounts := h.accounts.congr rfl rfl rfl rfl, idle := fun _ => ⟨hhand, hcb⟩, closed := by simp, gone := by simp }⟩

theorem Inv.drop (panicking : Bool) : ∃ v', Inv (x.drop panicking) v' none := by
  have hh := h.holds
  unfold Handoff.drop
  split
  · rename_i ho hhand
    exact h.dropClient hhand panicking
  · rename_i id ho hhand
    rw [hhand] at hh
    obtain ⟨hcb, hv, hc⟩ := hh.of_starting
    have ht : ∀ j, j ∈ Handoff.taken { x with hand := .nothing, lost := id :: x.lost } ↔ j = id ∨ j ∈ x.taken := by
      simp [Handoff.taken]
    obtain ⟨hacc, hunsent, htaken⟩ := h.take hhand ht rfl rfl rfl
    have h' : Inv { x with hand := .nothing, lost := id :: x.lost } v none := by
      refine { h with holds := ?_, accounts := hacc, unsent := hunsent, taken := htaken, idle := ?_ }
      · show Holds _ _ x.callback v.hand v.callback
        rw [hcb, hv, hc]
        exact .callback ((ht id).2 (.inl rfl))
      · exact fun hno => absurd ho hno
    exact h'.dropClient rfl panicking
  · exact ⟨v, h⟩

theorem Inv.dropReceiver : Inv x.dropReceiver v none := by
  unfold Handoff.dropReceiver
  split
  · rename_i ho
    exact { h with
      accounts := h.accounts.congr rfl rfl rfl rfl, idle := fun _ => h.idle (by simp [ho]), closed := fun _ => rfl
      gone := by simp }
  · exact h

theorem Inv.drain : ∃ v', Inv x.drain v' none := by
  unfold Handoff.drain
  split
  · rename_i env q ho hq
    obtain ⟨m, q', hmq, rfl, rfl⟩ := map_eq_cons_iff.1 (h.queue.symm.trans hq)
    have hb : x.back m.1 = some m.2 := h.back_unsent (by simp [View.unsent, hmq])
    have h' : Inv { x with queue := q'.map sealed } { v with queue := q' } (some m.1) := by
      refine { h with queue := rfl, accounts := ?_, unsent := fun n hn => h.unsent n ?_, gone := ?_ }
      · refine h.accounts.recount rfl rfl rfl rfl fun a => ?_
        simp [View.ids, View.unsent, hmq, count_cons]
        omega
      · simp only [View.unsent, hmq, mem_append, mem_cons] at hn ⊢
        tauto
      · exact fun hg => absurd (hg.symm.trans ho) (by simp)
    exact ⟨_, h'.send fun _ => hb.symm⟩
  · rename_i ho hq
    have hvq : v.queue = [] := by
      have := h.queue
      rw [hq] at this
      exact map_eq_nil_iff.1 this.symm
    exact ⟨v, { h with
      accounts := h.accounts.congr rfl rfl rfl rfl, idle := fun _ => h.idle (by simp [ho])
      closed := fun _ => h.closed (.inl ho), gone := fun _ => hvq }⟩
  · exact ⟨v, h⟩

theorem Inv.step (a : Action T U) : ∃ v', Inv (x.step a) v' none := by
  cases a with
  | give req => exact h.give req
  | enqueue => exact h.enqueue
  | dropSender => exact ⟨v, h.dropSender⟩
  | cancel id => exact ⟨v, h.cancel id⟩
  | pollRecv refused => exact h.pollRecv refused
  | pollCanceled refused => exact h.pollCanceled refused
  | writeHead => exact ⟨v, h.writeHead⟩
  | pollReady => exact ⟨v, h.pollReady⟩
  | recvOk res => exact h.recvOk res
  | recvErr e => exact h.recvErr e
  | tryRecv refused => exact h.tryRecv refused
  | giveBack => exact h.giveBack
  | drop panicking => exact h.drop panicking
  | dropReceiver => exact ⟨v, h.dropReceiver⟩
  | drain => exact h.drain

end

end Steps

/-! ## Runs -/

theorem new_inv : Inv (new : Handoff T U) ⟨none, [], none, none⟩ none where
  ok := rfl
  inFlight := rfl
  queue := rfl
  holds := .nothing
  accounts := ⟨nodup_nil, by simp [View.ids, View.unsent], by simp [View.ids, View.unsent],
    nofun⟩
  unsent := by simp [View.unsent]
  known := nofun
  taken := by simp [taken, new]
  accepted := by simp [new]
  idle := fun _ => ⟨rfl, rfl⟩
  closed := by simp [new]
  gone := fun _ => rfl

theorem run_inv (acts : List (Action T U)) : ∀ {x : Handoff T U} {v : View T}, Inv x v none →
    ∃ v', Inv (x.run acts) v' none := by
  induction acts with
  | nil => intro x v h; exact ⟨v, h⟩
  | cons a acts ih =>
    intro x v h
    obtain ⟨v', h'⟩ := h.step a
    exact ih h'

theorem Settled.poll {p : Promise (Except (TrySendError T) U)} {b : Option T} (h : Settled p b) (hr : p.rx = true) :
    ∃ out, p.poll = .ready out ∧ carried out = b := by
  obtain ⟨out, hout⟩ := Option.ne_none_iff_exists'.1 (h.answered hr)
  exact ⟨out, by simp [Promise.poll, hout], h.carries out hout⟩

theorem dropEnvelope_keeps (x : Handoff T U) (env : Envelope T) :
    (x.dropEnvelope env).owner = x.owner ∧ (x.dropEnvelope env).queue = x.queue ∧
      (x.dropEnvelope env).accepted = x.accepted := by
  unfold dropEnvelope send
  split
  · split <;> exact ⟨rfl, rfl, rfl⟩
  · exact ⟨rfl, rfl, rfl⟩

theorem dropCallback_keeps (x : Handoff T U) (panicking : Bool) (cb : Callback) :
    (x.dropCallback panicking cb).owner = x.owner ∧ (x.dropCallback panicking cb).accepted = x.accepted := by
  unfold dropCallback
  split <;> exact ⟨rfl, rfl⟩

theorem drain_gone (n : ℕ) : ∀ x : Handoff T U, x.owner = .draining → x.queue.length = n →
    (x.run (replicate (n + 1) .drain)).owner = .gone ∧
      (x.run (replicate (n + 1) .drain)).accepted = x.accepted := by
  induction n with
  | zero =>
    intro x ho hn
    have hrun : x.run (replicate (0 + 1) .drain) = { x with owner := .gone } := by
      show x.drain = _
      unfold drain
      simp only [ho, length_eq_zero_iff.1 hn]
    rw [hrun]
    exact ⟨rfl, rfl⟩
  | succ n ih =>
    intro x ho hn
    cases hq : x.queue with
    | nil => rw [hq] at hn; cases hn
    | cons env q =>
      obtain ⟨h1, h2, h3⟩ := dropEnvelope_keeps { x with queue := q } env
      have hrun : x.run (replicate (n + 1 + 1) .drain) =
          (({ x with queue := q } : Handoff T U).dropEnvelope env).run (replicate (n + 1) .drain) := by
        show x.drain.run _ = _
        unfold drain
        simp only [ho, hq]
      rw [hrun]
      rw [hq] at hn
      obtain ⟨h4, h5⟩ := ih _ (h1.trans ho) ((congrArg List.length h2).trans (Nat.succ.inj hn))
      exact ⟨h4, h5.trans h3⟩

/-- The steps that drop the client with `n` envelopes in its queue. -/
def dropSteps (panicking : Bool) (n : ℕ) : List (Action T U) :=
  .drop panicking :: .dropReceiver :: replicate (n + 1) .drain

theorem dropClient_keeps (x : Handoff T U) (panicking : Bool) :
    (x.dropClient panicking).owner = .dropping ∧ (x.dropClient panicking).accepted = x.accepted := by
  unfold dropClient
  dsimp only
  split
  · exact dropCallback_keeps _ _ _
  · exact ⟨rfl, rfl⟩

/-- Other code than the client's runs, and may panic. -/
def Droppable (x : Handoff T U) : Prop := x.owner = .running ∧ (x.hand = .nothing ∨ ∃ id, x.hand = .starting id)

theorem drop_gone (hd : x.Droppable) (panicking : Bool) :
    ∃ n, (x.run (dropSteps panicking n)).owner = .gone ∧ (x.run (dropSteps panicking n)).accepted = x.accepted := by
  obtain ⟨ho, hh⟩ := hd
  have h1 : (x.drop panicking).owner = .dropping ∧ (x.drop panicking).accepted = x.accepted := by
    rcases hh with hh | ⟨id, hh⟩
    · simp only [drop, ho, hh]
      exact dropClient_keeps _ _
    · simp only [drop, ho, hh]
      exact dropClient_keeps _ _
  have h2 : (x.drop panicking).dropReceiver.owner = .draining ∧
      (x.drop panicking).dropReceiver.accepted = x.accepted := by
    unfold dropReceiver
    rw [if_pos h1.1]
    exact ⟨rfl, h1.2⟩
  obtain ⟨h3, h4⟩ := drain_gone _ _ h2.1 rfl
  exact ⟨(x.drop panicking).dropReceiver.queue.length, h3, h4.trans h2.2⟩

/-! ## Lost requests -/

theorem send_lost (x : Handoff T U) (cb : Callback) (out : Except (TrySendError T) U) :
    (x.send cb out).lost = x.lost := by
  unfold send
  split <;> rfl

theorem dropCallback_lost (x : Handoff T U) (panicking : Bool) (cb : Callback) :
    (x.dropCallback panicking cb).lost = x.lost := by
  unfold dropCallback
  split <;> rfl

theorem dropEnvelope_lost (x : Handoff T U) (env : Envelope T) : (x.dropEnvelope env).lost = x.lost := by
  unfold dropEnvelope
  split
  · exact send_lost _ _ _
  · rfl

theorem dropClient_lost (x : Handoff T U) (panicking : Bool) : (x.dropClient panicking).lost = x.lost := by
  unfold dropClient
  dsimp only
  split
  · exact dropCallback_lost _ _ _
  · rfl

variable {id : ℕ}

/-- Only a client that is dropped on the way to `write_head` loses a request. -/
theorem step_lost {a : Action T U} (h : id ∈ (x.step a).lost) :
    id ∈ x.lost ∨ ∃ panicking, a = .drop panicking ∧ x.hand = .starting id := by
  cases a with
  | drop panicking =>
    simp only [step, drop] at h
    split at h
    · rw [dropClient_lost] at h
      exact .inl h
    · rename_i j _ hhand
      rw [dropClient_lost] at h
      rcases mem_cons.1 h with rfl | h
      · exact .inr ⟨panicking, rfl, hhand⟩
      · exact .inl h
    · exact .inl h
  | give req =>
    left
    simp only [step, give] at h
    split at h
    · exact h
    · split at h <;> exact h
  | enqueue =>
    left
    simp only [step, enqueue] at h
    split at h
    · exact h
    · split at h
      · split at h <;> exact h
      · split at h
        · split at h
          · rw [dropCallback_lost] at h
            exact h
          · exact h
        · exact h
  | dropSender =>
    left
    simp only [step, dropSender] at h
    split at h <;> exact h
  | cancel id => exact .inl h
  | pollRecv refused =>
    left
    simp only [step, pollRecv] at h
    split at h
    · split at h
      · exact h
      · split at h
        · split at h <;> exact h
        · split at h <;> exact h
    · exact h
  | pollCanceled refused =>
    left
    simp only [step, pollCanceled] at h
    split at h
    · split at h
      · split at h
        · exact h
        · rwa [dropCallback_lost] at h
      · exact h
    · exact h
  | writeHead =>
    left
    simp only [step, writeHead] at h
    split at h <;> exact h
  | pollReady =>
    left
    simp only [step, pollReady] at h
    split at h <;> exact h
  | recvOk res =>
    left
    simp only [step, recvOk] at h
    split at h
    · rwa [send_lost] at h
    · exact h
  | recvErr e =>
    left
    simp only [step, recvErr] at h
    split at h
    · rwa [send_lost] at h
    · split at h <;> exact h
    · exact h
  | tryRecv refused =>
    left
    simp only [step, tryRecv] at h
    split at h
    · split at h
      · exact h
      · split at h <;> exact h
    · exact h
    · exact h
  | giveBack =>
    left
    simp only [step, giveBack] at h
    split at h
    · rwa [send_lost] at h
    · exact h
  | dropReceiver =>
    left
    simp only [step, dropReceiver] at h
    split at h <;> exact h
  | drain =>
    left
    simp only [step, drain] at h
    split at h
    · rwa [dropEnvelope_lost] at h
    · exact h
    · exact h

/-- The step that has lost a request. -/
theorem run_lost (acts : List (Action T U)) : ∀ {x : Handoff T U} {id : ℕ}, id ∈ (x.run acts).lost → id ∉ x.lost →
    ∃ pre panicking post, acts = pre ++ .drop panicking :: post ∧ (x.run pre).hand = .starting id := by
  induction acts with
  | nil => intro x id h hno; exact absurd h hno
  | cons a acts ih =>
    intro x id h hno
    by_cases hl : id ∈ (x.step a).lost
    · rcases step_lost hl with hl | ⟨panicking, rfl, hhand⟩
      · exact absurd hl hno
      · exact ⟨[], panicking, acts, rfl, hhand⟩
    · obtain ⟨pre, panicking, post, rfl, hhand⟩ := ih h hl
      exact ⟨a :: pre, panicking, post, rfl, hhand⟩

/-- What becomes of an accepted request. -/
structure Completed (x : Handoff T U) (id : ℕ) : Prop where
  once : (x.promises id).sends ≤ 1
  dropped : x.owner = .gone → (x.promises id).sends = 1
  /-- A caller that waits does not find its promise abandoned. -/
  answered : (x.promises id).rx = true → (x.promises id).poll ≠ .panicked
  /-- The request is with the answer if and only if it was not given to `write_head`, and not lost on
  the way. -/
  carries : (x.promises id).rx = true → (x.promises id).sends = 1 → ∃ out req,
    (x.promises id).poll = .ready out ∧ x.requests id = some req ∧
      (carried out = some req ↔ id ∉ x.handed ∧ id ∉ x.lost) ∧ (carried out = none ↔ id ∈ x.handed ∨ id ∈ x.lost)

/-- When the client is gone, so are all owners of accepted requests. -/
theorem Inv.sends_gone {v : View T} (h : Inv x v none) (hg : x.owner = .gone) (hid : id ∈ x.accepted) :
    (x.promises id).sends = 1 := by
  obtain ⟨hlt, hno⟩ := h.accepted id hid
  have hidle := h.idle (by simp [hg])
  have hh := h.holds
  rw [hidle.1, hidle.2] at hh
  obtain ⟨hv, hc⟩ := hh.of_nothing
  refine (h.accounts.settled id hlt fun hmem => ?_).sends
  simp only [View.ids, View.unsent, h.gone hg, hv, hc, Option.toList_none, nil_append, append_nil,
    mem_map, Option.mem_toList] at hmem
  obtain ⟨m, hm, rfl⟩ := hmem
  exact hno m hm rfl

theorem Inv.completed {v : View T} (h : Inv x v none) (hid : id ∈ x.accepted) : Completed x id := by
  have hlt := (h.accepted id hid).1
  by_cases hm : id ∈ v.ids
  · have hf := h.accounts.fresh id hm
    refine ⟨?_, fun hg => h.sends_gone hg hid, fun _ => by simp [Promise.poll, hf.value, hf.tx], fun _ hs => ?_⟩
    · rw [hf.sends]
      exact Nat.zero_le _
    · rw [hf.sends] at hs
      cases hs
  · have hs := h.accounts.settled id hlt hm
    obtain ⟨req, hreq⟩ := Option.ne_none_iff_exists'.1 (h.known id hlt)
    refine ⟨le_of_eq hs.sends, fun _ => hs.sends, fun hr => ?_, fun hr _ => ?_⟩
    · obtain ⟨out, hout, -⟩ := hs.poll hr
      rw [hout]
      simp
    · obtain ⟨out, hout, hcar⟩ := hs.poll hr
      refine ⟨out, req, hout, hreq, ?_⟩
      rw [hcar, back]
      by_cases hlost : id ∈ x.lost <;> by_cases hhanded : id ∈ x.handed <;>
        simp [Handoff.taken, hlost, hhanded, hreq]

/-- **Every accepted request is completed once.** Whatever the sender, the callers and the
client do, in any order: no `expect` fails; every request that the channel has accepted
was answered at most once, with the request if and only if it was neither given to
`write_head` nor lost on the way; and the client can be dropped whenever other code runs,
after which each was answered exactly once. Only a drop between `poll_msg` and
`write_head` loses a request. -/
theorem requests_completed (acts : List (Action T U)) :
    let x := (new : Handoff T U).run acts
    x.panicked = false ∧ (∀ id ∈ x.accepted, Completed x id) ∧
      (∀ id ∈ x.lost, ∃ pre panicking post, acts = pre ++ .drop panicking :: post ∧
        ((new : Handoff T U).run pre).hand = .starting id) ∧
      (x.Droppable → ∀ panicking, ∃ n,
        let y := x.run (dropSteps panicking n)
        y.owner = .gone ∧ y.accepted = x.accepted ∧ ∀ id ∈ x.accepted, Completed y id) := by
  intro x
  obtain ⟨v, h⟩ := run_inv acts (new_inv (T := T) (U := U))
  refine ⟨h.ok, fun id hid => h.completed hid, fun id hid => run_lost acts hid (by simp [new]), fun hd panicking => ?_⟩
  obtain ⟨n, hg, ha⟩ := drop_gone hd panicking
  obtain ⟨v', h'⟩ := run_inv (dropSteps panicking n) h
  exact ⟨n, hg, ha, fun id hid => h'.completed (ha ▸ hid)⟩

/-- A body that panics when it is asked for its size: its request is not written, and does
not come back either. -/
theorem request_lost :
    let x := (new : Handoff ℕ ℕ).run ([.give 7, .enqueue, .pollRecv false, .pollCanceled false] ++ dropSteps true 0)
    x.accepted = [0] ∧ x.handed = [] ∧ (x.promises 0).rx = true ∧
      (x.promises 0).value = some (.error ⟨dispatchGone true, none⟩) := by
  refine ⟨rfl, rfl, rfl, rfl⟩

end Handoff

end Netty
