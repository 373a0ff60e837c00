import Netty.Ledger.Basic
import Netty.Log.Basic
import Netty.Spec.ConnectGate

/-!
# The gate of extended CONNECT is safe and loses nothing

A request is only sent as admitted, and it is only admitted with the last publication at hand. Those that are parked
are on a ledger: what was parked has left, is in the queue, or is in the hands of the dispatcher. A request that was
taken from the queue is not parked again, as the SETTINGS are known by then.

The dispatcher registers before its second look, so it is woken by what this look misses. A look that finds the
SETTINGS known registers nothing.

* `Ledger`: the books of the gate.
* `Inv`: what holds in all runs.
* `gate_safe`: **every run of the dispatcher, the connection task and the callers.**
* `gate_unwoken`: a publication that wakes nobody, and a parked request that leaves in a fifth way.
-/

namespace Netty.H2

open List

/-! ## Logs -/

def lastPublished : List GateEv → Option Bool
  | [] => none
  | .published enabled :: _ => some enabled
  | _ :: l => lastPublished l

def parkedBy : GateEv → List Request
  | .parked r => [r]
  | _ => []

def leftBy : GateEv → List Request
  | .left r _ true => [r]
  | _ => []

def sentBy : GateEv → List Request
  | .left r .sent true => [r]
  | _ => []

/-- All that was parked, in order. -/
def parkedIn (l : List GateEv) : List Request := Log.gather parkedBy l

/-- What was parked and has left. -/
def leftIn (l : List GateEv) : List Request := Log.gather leftBy l

/-- What was parked and was sent, in order. -/
def sentIn (l : List GateEv) : List Request := Log.gather sentBy l

def Justified : GateEv → List GateEv → Prop
  | .admitted _, l => lastPublished l = some true
  | .left r .sent _, l => r.protocol = none ∨ .admitted r ∈ l
  | .left _ .refused _, l => .published false ∈ l
  | .left r .dropped _, l => .canceled r.id ∈ l
  | .left r .invalid _, _ => r.invalidConnect = true
  | .left _ .released _, _ | .published _, _ | .canceled _, _ | .parked _, _ => True

theorem published_of_last {l : List GateEv} {b : Bool} (h : lastPublished l = some b) : .published b ∈ l := by
  induction l with
  | nil => cases h
  | cons e l ih =>
    cases e with
    | published enabled => cases h; exact mem_cons_self
    | canceled _ | admitted _ | parked _ | left _ _ _ => exact mem_cons_of_mem _ (ih h)

/-! ## Requests -/

def Held.gated (h : Held) : List Request := if h.parked then [h.req] else []

def Held.fresh (h : Held) : List Request := if h.parked then [] else [h.req]

def Stage.held : Stage → Option Held
  | .taken h | .admitLook h | .admitRegister h | .admitRecheck h | .park h | .send h => some h
  | _ => none

/-- What `retain_mut` has not polled, while it runs. -/
def Stage.rest : Stage → Option (List Request)
  | .retain rest => some rest
  | _ => none

namespace System

variable {s : System} {st : Stage} {held : Option Held} {rest : Option (List Request)} {h : Held} {r : Request}

/-- What was parked and has not left. -/
def inGate (s : System) (held : Option Held) (rest : Option (List Request)) : List Request :=
  held.elim [] Held.gated ++ (s.queue ++ rest.getD [])

/-- What may be parked. -/
def coming (s : System) (held : Option Held) : List Request := held.elim [] Held.fresh ++ s.rx

/-! ## Invariants -/

/-- The dispatcher is woken by the first publication. -/
def Registered (s : System) : Prop := s.peer.waker = true ∨ s.peer.extendedConnect ≠ none

/-- What the dispatcher knows where it stands. -/
def Stands (s : System) : Stage → Prop
  | .settleRecheck => s.Registered
  | .settled (some false) => .published false ∈ s.log
  | .popFront => s.peer.extendedConnect ≠ none
  | .taken h | .admitLook h => h.parked = true → s.peer.extendedConnect ≠ none
  -- what was taken from the queue does not get here
  | .admitRegister h | .park h => h.parked = false
  | .admitRecheck h => h.parked = false ∧ s.Registered
  | .send h => h.req.protocol = none ∨ .admitted h.req ∈ s.log
  | .gone => s.queue = []
  | _ => True

structure Books (s : System) (held : Option Held) (rest : Option (List Request)) : Prop where
  ledger : Ledger (·.id < ·.id) (sentIn s.log) (leftIn s.log) (parkedIn s.log) (s.inGate held rest) (s.coming held)
  numbered : ∀ r ∈ parkedIn s.log ++ s.coming held, r.id < s.arrived
  flag : rest = none → s.peer.parked = !s.queue.isEmpty

structure Told (s : System) : Prop where
  known : s.peer.extendedConnect = lastPublished s.log
  waking : s.waking = true → s.peer.extendedConnect ≠ none
  woken : s.seen = some none →
    s.woken = true ∨ s.peer.waker = true ∧ (s.waking = true ∨ s.peer.extendedConnect = none)

structure Honest (s : System) : Prop where
  canceled : ∀ id ∈ s.canceled, .canceled id ∈ s.log
  log : Log.Ok Justified s.log

/-- **What holds with the dispatcher at a stage.** -/
structure Inv (s : System) (st : Stage) : Prop where
  books : s.Books st.held st.rest
  told : s.Told
  honest : s.Honest
  stands : s.Stands st

/-! ## The books -/

variable {e : GateEv}

theorem Books.record (hb : s.Books held rest) (hs : sentBy e = []) (hl : leftBy e = []) (hp : parkedBy e = []) :
    (s.record e).Books held rest := by
  have hs : sentIn (s.record e).log = sentIn s.log := (congrArg (sentIn s.log ++ ·) hs).trans (append_nil _)
  have hl : leftIn (s.record e).log = leftIn s.log := (congrArg (leftIn s.log ++ ·) hl).trans (append_nil _)
  have hp : parkedIn (s.record e).log = parkedIn s.log :=
    (congrArg (parkedIn s.log ++ ·) hp).trans (append_nil _)
  constructor
  · rw [hs, hl, hp]
    exact hb.ledger
  · rw [hp]
    exact hb.numbered
  · exact hb.flag

theorem parkedIn_leave (h : Held) (way : Way) : parkedIn (s.leave h way).log = parkedIn s.log := append_nil _

variable {way : Way}

theorem sentIn_leave (hw : way ≠ .sent) : sentIn (s.leave h way).log = sentIn s.log := by
  cases way with
  | sent => exact absurd rfl hw
  | refused | released | dropped | invalid => exact append_nil _

theorem Books.leave (hb : s.Books (some h) none) (way : Way) : (s.leave h way).Books none none := by
  obtain ⟨r, parked⟩ := h
  cases parked with
  | true =>
    refine ⟨?_, by rw [parkedIn_leave]; exact hb.numbered, hb.flag⟩
    rw [parkedIn_leave]
    by_cases hw : way = .sent
    · subst hw
      exact hb.ledger.pop
    · rw [sentIn_leave hw]
      exact hb.ledger.drop (a := [])
  | false =>
    have hsub := (Sublist.refl (parkedIn s.log)).append (sublist_cons_self r (s.coming none))
    have hout : s.Books none none := ⟨hb.ledger.skip, fun x hx => hb.numbered x (hsub.subset hx), hb.flag⟩
    exact hout.record (by cases way <;> rfl) rfl rfl

theorem Books.park (hb : s.Books (some ⟨r, false⟩) none) :
    (({ s with queue := s.queue ++ [r] }.setParked true).record (.parked r)).Books none none := by
  have hcons : parkedIn s.log ++ s.coming (some ⟨r, false⟩) = (parkedIn s.log ++ [r]) ++ s.coming none := by
    rw [append_assoc]
    rfl
  have hl : leftIn (.parked r :: s.log) = leftIn s.log := append_nil _
  have hs : sentIn (.parked r :: s.log) = sentIn s.log := append_nil _
  have hflag : true = !(s.queue ++ [r]).isEmpty := by simp
  refine ⟨?_, fun x hx => hb.numbered x (by rw [hcons]; exact hx), fun _ => hflag⟩
  have hg : (s.inGate none none ++ [r]) = s.queue ++ [r] ++ [] := by rw [inGate]; simp
  change Ledger _ (sentIn (.parked r :: s.log)) (leftIn (.parked r :: s.log)) (parkedIn s.log ++ [r])
    (s.queue ++ [r] ++ []) (s.coming none)
  rw [hl, hs, ← hg]
  exact hb.ledger.enter

theorem Books.recv {rx : List Request} (hb : s.Books none none) (hr : s.rx = r :: rx) :
    { s with rx := rx }.Books (some ⟨r, false⟩) none := by
  have hc : { s with rx := rx }.coming (some ⟨r, false⟩) = s.coming none := hr.symm
  refine ⟨?_, ?_, hb.flag⟩
  · rw [hc]
    exact hb.ledger
  · rw [hc]
    exact hb.numbered

theorem Books.pop {queue : List Request} (hb : s.Books none none) (hq : s.queue = r :: queue) :
    ({ s with queue := queue }.setParked (!queue.isEmpty)).Books (some ⟨r, true⟩) none := by
  have hg : { s with queue := queue }.inGate (some ⟨r, true⟩) none = s.inGate none none := by
    rw [inGate, inGate, hq]
    rfl
  exact ⟨hg.symm ▸ hb.ledger, hb.numbered, fun _ => rfl⟩

def leaving (way : Way) (rs : List Request) : List GateEv := (rs.map fun r => GateEv.left r way true).reverse

variable {rs : List Request}

theorem mem_leaving : e ∈ leaving way rs ↔ ∃ r ∈ rs, GateEv.left r way true = e := by
  rw [leaving, mem_reverse, mem_map]

theorem leaveAll_eq (way : Way) (rs : List Request) :
    s.leaveAll way rs = { s with log := leaving way rs ++ s.log } := by
  induction rs generalizing s with
  | nil => rfl
  | cons r rs ih =>
    rw [leaveAll, foldl_cons, ← leaveAll, ih, leaving, leaving, map_cons, reverse_cons, append_assoc]
    rfl

theorem Books.leaveAll (hb : s.Books none none) (hw : way ≠ .sent) :
    ({ s.leaveAll way s.queue with queue := [] }.setParked false).Books none none := by
  rw [leaveAll_eq]
  have hl : leftIn (leaving way s.queue ++ s.log) = leftIn s.log ++ s.inGate none none := by
    rw [leftIn, leaving, Log.gather_append, Log.gather_reverse, flatMap_map]
    exact congrArg _ ((flatMap_singleton' s.queue).trans (append_nil _).symm)
  have hs : sentIn (leaving way s.queue ++ s.log) = sentIn s.log := by
    refine Log.gather_append_of_later fun e he => ?_
    obtain ⟨r, -, rfl⟩ := mem_leaving.1 he
    cases way with
    | sent => exact absurd rfl hw
    | refused | released | dropped | invalid => rfl
  have hp : parkedIn (leaving way s.queue ++ s.log) = parkedIn s.log := by
    refine Log.gather_append_of_later fun e he => ?_
    obtain ⟨r, -, rfl⟩ := mem_leaving.1 he
    rfl
  refine ⟨?_, ?_, fun _ => rfl⟩
  · change Ledger _ (sentIn (leaving way s.queue ++ s.log)) (leftIn (leaving way s.queue ++ s.log))
      (parkedIn (leaving way s.queue ++ s.log)) [] (s.coming none)
    rw [hs, hl, hp]
    exact hb.ledger.clear
  · change ∀ r ∈ parkedIn (leaving way s.queue ++ s.log) ++ s.coming none, r.id < s.arrived
    rw [hp]
    exact hb.numbered

theorem Books.retain (hb : s.Books none none) : { s with queue := [] }.Books none (some s.queue) := by
  refine ⟨?_, hb.numbered, nofun⟩
  have hg : s.inGate none none = s.queue := append_nil _
  exact hg ▸ hb.ledger

theorem Books.keep (hb : s.Books none (some (r :: rs))) : { s with queue := s.queue ++ [r] }.Books none (some rs) := by
  refine ⟨?_, hb.numbered, nofun⟩
  have hg : { s with queue := s.queue ++ [r] }.inGate none (some rs) = s.inGate none (some (r :: rs)) :=
    append_assoc s.queue [r] rs
  exact hg.symm ▸ hb.ledger

theorem Books.drop (hb : s.Books none (some (r :: rs))) : (s.leave ⟨r, true⟩ .dropped).Books none (some rs) := by
  refine ⟨?_, by rw [parkedIn_leave]; exact hb.numbered, nofun⟩
  rw [parkedIn_leave, sentIn_leave (by decide)]
  exact hb.ledger.drop

/-- `set_parked` tells the truth, also behind `retain_mut`. -/
theorem Books.setParked (hb : s.Books none rest) (hr : rest.getD [] = []) :
    (s.setParked (!s.queue.isEmpty)).Books none none := by
  refine ⟨?_, hb.numbered, fun _ => rfl⟩
  have hg : s.inGate none none = s.inGate none rest := by rw [inGate, inGate, hr]; rfl
  exact hg.symm ▸ hb.ledger

theorem Books.arrive (hb : s.Books held rest) (r : Request) : (s.arrive r).Books held rest := by
  have hc : (s.arrive r).coming held = s.coming held ++ [{ r with id := s.arrived }] :=
    (append_assoc _ s.rx _).symm
  refine ⟨?_, ?_, hb.flag⟩
  · rw [hc]
    exact hb.ledger.arrive hb.numbered
  · rw [hc]
    change ∀ x ∈ parkedIn s.log ++ (s.coming held ++ [{ r with id := s.arrived }]), x.id < s.arrived + 1
    intro x hx
    rw [← append_assoc] at hx
    rcases mem_append.1 hx with hx | hx
    · exact Nat.lt_succ_of_lt (hb.numbered x hx)
    · rw [mem_singleton.1 hx]
      exact lt_add_one s.arrived

/-! ## What is told -/

/-- A look is behind a registration, or finds something. -/
theorem Told.looked (ht : s.Told) (hr : s.Registered) : s.looked.Told where
  known := ht.known
  waking := ht.waking
  woken := by
    intro hn
    have hn : s.peer.extendedConnect = none := Option.some.inj hn
    exact .inr ⟨hr.resolve_right (absurd hn), .inr hn⟩

theorem Told.register (ht : s.Told) : s.register.Told where
  known := ht.known
  waking := ht.waking
  woken := fun hn => (ht.woken hn).imp_right fun h => ⟨rfl, h.2⟩

theorem Told.log {l : List GateEv} (ht : s.Told) (hl : lastPublished l = lastPublished s.log) :
    { s with log := l }.Told where
  known := ht.known.trans hl.symm
  waking := ht.waking
  woken := ht.woken

theorem Told.publish (ht : s.Told) (enabled : Bool) : (s.publish enabled).Told where
  known := rfl
  waking := fun _ => Option.some_ne_none enabled
  woken := fun hn => (ht.woken hn).imp_right fun h => ⟨h.1, .inl rfl⟩

theorem Told.wake (ht : s.Told) : s.wake.Told where
  known := ht.known
  waking := nofun
  woken := fun hn => .inl (Bool.or_eq_true_iff.2 ((ht.woken hn).imp_right fun h => h.1))

theorem Told.setParked (ht : s.Told) (queue : List Request) (parked : Bool) :
    ({ s with queue := queue }.setParked parked).Told :=
  ⟨ht.known, ht.waking, ht.woken⟩

theorem Told.leave (ht : s.Told) (h : Held) (way : Way) : (s.leave h way).Told := ht.log rfl

theorem Told.leaveAll (ht : s.Told) (way : Way) (rs : List Request) : (s.leaveAll way rs).Told := by
  induction rs generalizing s with
  | nil => exact ht
  | cons r rs ih => exact ih (ht.leave ⟨r, true⟩ way)

/-- What a look found was published. -/
theorem Told.settled (ht : s.Told) : s.Stands (.settled s.peer.extendedConnect) := by
  cases hk : s.peer.extendedConnect with
  | none => trivial
  | some enabled =>
    cases enabled with
    | true => trivial
    | false => exact published_of_last (ht.known.symm.trans hk)

/-! ## What is justified -/

theorem Honest.record (hh : s.Honest) (hj : Justified e s.log) : (s.record e).Honest where
  canceled := fun id hid => mem_cons_of_mem e (hh.canceled id hid)
  log := ⟨hj, hh.log⟩

theorem Honest.setParked (hh : s.Honest) (queue : List Request) (parked : Bool) :
    ({ s with queue := queue }.setParked parked).Honest := ⟨hh.canceled, hh.log⟩

theorem Honest.leaveAll (hh : s.Honest) (hj : ∀ r ∈ rs, ∀ m, Justified (.left r way true) (m ++ s.log)) :
    (s.leaveAll way rs).Honest := by
  rw [leaveAll_eq]
  refine ⟨fun id hid => mem_append_right _ (hh.canceled id hid), hh.log.append fun e he => ?_⟩
  obtain ⟨r, hr, rfl⟩ := mem_leaving.1 he
  exact hj r hr

theorem Honest.canceled_of (hh : s.Honest) (hc : s.isCanceled r = true) : .canceled r.id ∈ s.log :=
  hh.canceled r.id (contains_iff_mem.1 hc)

theorem Honest.cancel (hh : s.Honest) (id : ℕ) :
    ({ s with canceled := id :: s.canceled }.record (.canceled id)).Honest where
  canceled := by
    intro i hi
    rcases mem_cons.1 hi with rfl | hi
    · exact mem_cons_self
    · exact mem_cons_of_mem _ (hh.canceled i hi)
  log := ⟨trivial, hh.log⟩

/-! ## One step of the dispatcher -/

theorem Stands.mono {s' : System} (hs : s.Stands st) (hq : s'.queue = s.queue) (hl : s.log ⊆ s'.log)
    (hk : s.peer.extendedConnect ≠ none → s'.peer.extendedConnect ≠ none) (hr : s.Registered → s'.Registered) :
    s'.Stands st := by
  cases st with
  | settleRecheck => exact hr hs
  | settled seen =>
    cases seen with
    | none => trivial
    | some enabled =>
      cases enabled with
      | true => trivial
      | false => exact hl hs
  | popFront => exact hk hs
  | taken h | admitLook h => exact fun hp => hk (hs hp)
  | admitRegister h | park h => exact hs
  | admitRecheck h => exact ⟨hs.1, hr hs.2⟩
  | send h => exact hs.imp_right fun ha => hl ha
  | gone => exact hq.trans hs
  | idle | settle | settleRegister | retain _ | ready | releasing | pop | recv | waiting | finished => trivial

namespace Inv

variable {st₀ : Stage}

theorem goto (hi : s.Inv st₀) (hh : st.held = st₀.held) (hr : st.rest = st₀.rest) (hs : s.Stands st) :
    (s.goto st).Inv (s.goto st).stage := by
  have hb : s.Books st.held st.rest := by rw [hh, hr]; exact hi.books
  exact ⟨⟨hb.ledger, hb.numbered, hb.flag⟩, ⟨hi.told.known, hi.told.waking, hi.told.woken⟩,
    ⟨hi.honest.canceled, hi.honest.log⟩, hs.mono rfl (List.Subset.refl _) id id⟩

theorem looked (hi : s.Inv st) (hr : s.Registered) : s.looked.Inv st where
  books := ⟨hi.books.ledger, hi.books.numbered, hi.books.flag⟩
  told := hi.told.looked hr
  honest := ⟨hi.honest.canceled, hi.honest.log⟩
  stands := hi.stands.mono rfl (List.Subset.refl _) id id

theorem register (hi : s.Inv st) : s.register.Inv st where
  books := ⟨hi.books.ledger, hi.books.numbered, hi.books.flag⟩
  told := hi.told.register
  honest := ⟨hi.honest.canceled, hi.honest.log⟩
  stands := hi.stands.mono rfl (List.Subset.refl _) id fun _ => .inl rfl

theorem opening (hi : s.Inv st) (b : Bool) : { s with opening := b }.Inv st where
  books := ⟨hi.books.ledger, hi.books.numbered, hi.books.flag⟩
  told := ⟨hi.told.known, hi.told.waking, hi.told.woken⟩
  honest := ⟨hi.honest.canceled, hi.honest.log⟩
  stands := hi.stands.mono rfl (List.Subset.refl _) id id

theorem leave (hi : s.Inv st₀) (way : Way) (hh : st₀.held = some h) (hr : st₀.rest = none)
    (hj : Justified (.left h.req way h.parked) s.log) : (s.leave h way).Inv .settle where
  books := Books.leave (by rw [← hh, ← hr]; exact hi.books) way
  told := hi.told.leave h way
  honest := hi.honest.record hj
  stands := trivial

theorem leaveAll (hi : s.Inv st₀) (way : Way) (hh : st₀.held = none) (hr : st₀.rest = none) (hw : way ≠ .sent)
    (hj : ∀ r ∈ s.queue, ∀ m, Justified (.left r way true) (m ++ s.log)) :
    ({ s.leaveAll way s.queue with queue := [] }.setParked false).Inv .ready where
  books := Books.leaveAll (by rw [← hh, ← hr]; exact hi.books) hw
  told := (hi.told.leaveAll way s.queue).setParked [] false
  honest := (hi.honest.leaveAll hj).setParked [] false
  stands := trivial

theorem pollSettle (hi : s.Inv .settle) : s.pollSettle.Inv s.pollSettle.stage := by
  unfold System.pollSettle
  split
  · exact hi.goto rfl rfl trivial
  · split
    · exact hi.goto rfl rfl trivial
    · rename_i _ hk
      have hl := hi.looked (.inr hk)
      exact hl.goto rfl rfl hl.told.settled

theorem settle {seen : Option Bool} (hi : s.Inv (.settled seen)) : (s.settle seen).Inv (s.settle seen).stage := by
  cases seen with
  | none =>
    have hr : { s with queue := [] }.Inv (.retain s.queue) :=
      ⟨hi.books.retain, ⟨hi.told.known, hi.told.waking, hi.told.woken⟩, ⟨hi.honest.canceled, hi.honest.log⟩, trivial⟩
    exact hr.goto rfl rfl trivial
  | some enabled =>
    cases enabled with
    | true =>
      have hr : (s.setParked (!s.queue.isEmpty)).Inv .ready :=
        ⟨hi.books.setParked rfl, hi.told.setParked _ _, hi.honest.setParked _ _, trivial⟩
      exact hr.goto rfl rfl trivial
    | false =>
      have hr := hi.leaveAll .refused rfl rfl (by decide) fun _ _ m => mem_append_right m hi.stands
      exact hr.goto rfl rfl trivial

theorem retain {rs : List Request} (hi : s.Inv (.retain rs)) : (s.retain rs).Inv (s.retain rs).stage := by
  cases rs with
  | nil =>
    have hr : (s.setParked (!s.queue.isEmpty)).Inv .ready :=
      ⟨hi.books.setParked rfl, hi.told.setParked _ _, hi.honest.setParked _ _, trivial⟩
    exact hr.goto rfl rfl trivial
  | cons r rs =>
    rw [System.retain]
    split
    · rename_i hc
      have hr : (s.leave ⟨r, true⟩ .dropped).Inv (.retain rs) :=
        ⟨hi.books.drop, hi.told.leave _ _, hi.honest.record (hi.honest.canceled_of hc), trivial⟩
      exact hr.goto rfl rfl trivial
    · have hr : { s with queue := s.queue ++ [r] }.Inv (.retain rs) :=
        ⟨hi.books.keep, ⟨hi.told.known, hi.told.waking, hi.told.woken⟩, ⟨hi.honest.canceled, hi.honest.log⟩, trivial⟩
      exact hr.goto rfl rfl trivial

theorem pollReady (hi : s.Inv .ready) (ready : Except Unit Bool) :
    (s.pollReady ready).Inv (s.pollReady ready).stage := by
  cases ready with
  | error u => exact (hi.opening false).goto rfl rfl trivial
  | ok room =>
    cases room with
    | false => exact hi.goto rfl rfl trivial
    | true =>
      rw [System.pollReady]
      split
      · exact (hi.opening false).goto rfl rfl trivial
      · exact hi.goto rfl rfl trivial

theorem release (hi : s.Inv st) (hh : st.held = none) (hr : st.rest = none) : s.release.Inv .ready :=
  hi.leaveAll .released hh hr (by decide) fun _ _ _ => trivial

theorem popFront (hi : s.Inv .popFront) : s.popFront.Inv s.popFront.stage := by
  unfold System.popFront
  split
  · have hr : (s.setParked (!s.queue.isEmpty)).Inv .recv :=
      ⟨hi.books.setParked rfl, hi.told.setParked _ _, hi.honest.setParked _ _, trivial⟩
    exact hr.goto rfl rfl trivial
  · rename_i r queue hq
    have hr : ({ s with queue := queue }.setParked (!queue.isEmpty)).Inv (.taken ⟨r, true⟩) :=
      ⟨hi.books.pop hq, hi.told.setParked _ _, hi.honest.setParked _ _, fun _ => hi.stands⟩
    exact hr.goto rfl rfl hr.stands

theorem pollRecv (hi : s.Inv .recv) (budget : Bool) : (s.pollRecv budget).Inv (s.pollRecv budget).stage := by
  unfold System.pollRecv
  split
  · rename_i r rx hx
    have hr : { s with rx := rx }.Inv (.taken ⟨r, false⟩) :=
      ⟨hi.books.recv hx, ⟨hi.told.known, hi.told.waking, hi.told.woken⟩, ⟨hi.honest.canceled, hi.honest.log⟩,
        nofun⟩
    exact hr.goto rfl rfl hr.stands
  · split
    · exact hi.goto rfl rfl trivial
    · exact hi.goto rfl rfl trivial
  · exact hi.goto rfl rfl trivial

theorem pollEof (hi : s.Inv .waiting) (eof : Option Bool) : (s.pollEof eof).Inv (s.pollEof eof).stage := by
  cases eof with
  | none => exact hi.goto rfl rfl trivial
  | some timedOut => cases timedOut <;> exact hi.goto rfl rfl trivial

theorem take (hi : s.Inv (.taken h)) : (s.take h).Inv (s.take h).stage := by
  unfold System.take
  split
  · rename_i hc
    exact (hi.leave .dropped rfl rfl (hi.honest.canceled_of hc)).goto rfl rfl trivial
  · split
    · rename_i hp
      exact hi.goto rfl rfl (.inl (Option.isNone_iff_eq_none.1 hp))
    · exact hi.goto rfl rfl hi.stands

theorem admitKnown {enabled : Bool} (hi : s.Inv st) (hh : st.held = some h) (hr : st.rest = none)
    (hk : s.peer.extendedConnect = some enabled) : (s.admitKnown h enabled).Inv (s.admitKnown h enabled).stage := by
  have hl := hi.looked (.inr (by rw [hk]; exact Option.some_ne_none enabled))
  have hp : lastPublished s.log = some enabled := hi.told.known.symm.trans hk
  cases enabled with
  | true =>
    have hs : (s.looked.record (.admitted h.req)).Inv (.send h) := by
      refine ⟨?_, hl.told.log rfl, hl.honest.record hp, .inr mem_cons_self⟩
      have hb : s.looked.Books (some h) none := by rw [← hh, ← hr]; exact hl.books
      exact hb.record rfl rfl rfl
    exact hs.goto rfl rfl hs.stands
  | false => exact (hl.leave .refused hh hr (published_of_last hp)).goto rfl rfl trivial

theorem park (hi : s.Inv (.park h)) : (s.park h).Inv (s.park h).stage := by
  obtain ⟨r, parked⟩ := h
  obtain rfl : parked = false := hi.stands
  have hs : (({ s with queue := s.queue ++ [r] }.setParked true).record (.parked r)).Inv .settle :=
    ⟨hi.books.park, (hi.told.setParked _ _).log rfl, (hi.honest.setParked _ _).record trivial, trivial⟩
  exact hs.goto rfl rfl trivial

theorem sendRequest (hi : s.Inv (.send h)) (a : Answers) : (s.sendRequest h a).Inv (s.sendRequest h a).stage := by
  unfold System.sendRequest
  split
  · rename_i hv
    exact (hi.leave .invalid rfl rfl hv).goto rfl rfl trivial
  · have hl : (s.leave h .sent).Inv .settle := hi.leave .sent rfl rfl hi.stands
    split
    · exact (hl.opening true).goto rfl rfl trivial
    · exact hl.goto rfl rfl trivial

theorem go (hi : s.Inv s.stage) (a : Answers) : (s.go a).Inv (s.go a).stage := by
  unfold System.go
  split <;> rename_i he
  all_goals first | exact hi | rw [he] at hi
  · exact hi.pollSettle
  · exact hi.register.goto rfl rfl (.inl rfl)
  · have hl := hi.looked hi.stands
    exact hl.goto rfl rfl hl.told.settled
  · exact hi.settle
  · exact hi.retain
  · exact hi.pollReady a.ready
  · exact (hi.release rfl rfl).goto rfl rfl trivial
  · split
    · rename_i hk
      exact hi.goto rfl rfl (by rw [Stands, hk]; exact Option.some_ne_none true)
    · exact hi.goto rfl rfl trivial
  · exact hi.popFront
  · exact hi.pollRecv a.budget
  · exact hi.pollEof a.eof
  · exact hi.take
  · split
    · rename_i hk
      exact hi.admitKnown rfl rfl hk
    · rename_i hk
      exact hi.goto rfl rfl (Bool.eq_false_iff.2 fun hp => hi.stands hp hk)
  · exact hi.register.goto rfl rfl ⟨hi.stands, .inl rfl⟩
  · split
    · rename_i hk
      exact hi.admitKnown rfl rfl hk
    · exact (hi.looked hi.stands.2).goto rfl rfl hi.stands.1
  · exact hi.park
  · exact hi.sendRequest a

/-! ## One step of anyone -/

section

variable (hi : s.Inv st)

include hi

theorem arrive (r : Request) : (s.arrive r).Inv st where
  books := hi.books.arrive r
  told := ⟨hi.told.known, hi.told.waking, hi.told.woken⟩
  honest := ⟨hi.honest.canceled, hi.honest.log⟩
  stands := hi.stands.mono rfl (List.Subset.refl _) id id

theorem close : { s with closed := true }.Inv st where
  books := ⟨hi.books.ledger, hi.books.numbered, hi.books.flag⟩
  told := ⟨hi.told.known, hi.told.waking, hi.told.woken⟩
  honest := ⟨hi.honest.canceled, hi.honest.log⟩
  stands := hi.stands.mono rfl (List.Subset.refl _) id id

theorem cancel (id : ℕ) : ({ s with canceled := id :: s.canceled }.record (.canceled id)).Inv st where
  books := Books.record ⟨hi.books.ledger, hi.books.numbered, hi.books.flag⟩ rfl rfl rfl
  told := ⟨hi.told.known, hi.told.waking, hi.told.woken⟩
  honest := hi.honest.cancel id
  stands := hi.stands.mono rfl (subset_cons_self _ _) (fun h => h) fun h => h

theorem publish (enabled : Bool) : (s.publish enabled).Inv st where
  books := Books.record ⟨hi.books.ledger, hi.books.numbered, hi.books.flag⟩ rfl rfl rfl
  told := hi.told.publish enabled
  honest := Honest.record ⟨hi.honest.canceled, hi.honest.log⟩ trivial
  stands := hi.stands.mono rfl (subset_cons_self _ _) (fun _ => Option.some_ne_none enabled)
    fun _ => .inr (Option.some_ne_none enabled)

theorem wake (hw : s.waking = true) : s.wake.Inv st where
  books := ⟨hi.books.ledger, hi.books.numbered, hi.books.flag⟩
  told := hi.told.wake
  honest := ⟨hi.honest.canceled, hi.honest.log⟩
  stands := hi.stands.mono rfl (List.Subset.refl _) id fun _ => .inr (hi.told.waking hw)

theorem drop (hh : st.held = none) (hr : st.rest = none) :
    (s.release.goto .gone).Inv (s.release.goto .gone).stage :=
  (hi.release hh hr).goto rfl rfl rfl

end

theorem step (hi : s.Inv s.stage) (op : Op) : (s.step op).Inv (s.step op).stage := by
  cases op with
  | arrive r =>
    rw [System.step]
    split
    · exact hi
    · exact hi.arrive r
  | close => exact hi.close
  | cancel id => exact hi.cancel id
  | publish enabled =>
    rw [System.step]
    split
    · exact hi
    · exact hi.publish enabled
  | wake =>
    rw [System.step]
    split
    · rename_i hw
      exact hi.wake hw
    · exact hi
  | poll =>
    rw [System.step]
    split
    · rename_i he
      rw [he] at hi
      exact hi.goto rfl rfl trivial
    · exact hi
  | go a => exact hi.go a
  | drop =>
    rw [System.step]
    split
    · rename_i he
      rw [he] at hi
      exact hi.drop rfl rfl
    · rename_i he
      rw [he] at hi
      exact hi.drop rfl rfl
    · exact hi

theorem new : new.Inv new.stage where
  books := ⟨.nil, nofun, fun _ => rfl⟩
  told := ⟨rfl, nofun, nofun⟩
  honest := ⟨nofun, trivial⟩
  stands := trivial

theorem run (hi : s.Inv s.stage) (ops : List Op) : (s.run ops).Inv (s.run ops).stage := by
  induction ops generalizing s with
  | nil => exact hi
  | cons op ops ih => exact ih (hi.step op)

end Inv

/-! ## All runs -/

/-- What was parked and has not left. -/
def waiting (s : System) : List Request := s.inGate s.stage.held s.stage.rest

/-- What the gate promises. -/
structure Safe (s : System) : Prop where
  /-- What is sent with `:protocol` was admitted, when the last publication had enabled it. -/
  admitted : ∀ l₁ l₂ r parked, s.log = l₁ ++ .left r .sent parked :: l₂ → r.protocol ≠ none →
    ∃ l₃ l₄, l₂ = l₃ ++ .admitted r :: l₄ ∧ lastPublished l₄ = some true
  /-- What was parked is sent in the order of arrival. -/
  order : (sentIn s.log).Pairwise (·.id < ·.id)
  /-- What was parked has left or waits. It was parked once. -/
  once : (parkedIn s.log).Perm (leftIn s.log ++ s.waiting) ∧ ((parkedIn s.log).map Request.id).Nodup
  /-- With the dispatcher gone, everything has left. -/
  gone : s.stage = .gone → s.waiting = []
  /-- A request is only dropped for its caller, refused for the SETTINGS, or not sent at all for its body. -/
  ways : Log.Ok Justified s.log
  /-- The flag is right, except while `retain_mut` runs. -/
  flag : s.stage.rest = none → s.peer.parked = !s.queue.isEmpty
  /-- What a look missed that found nothing has woken the dispatcher. -/
  woken : s.seen = some none → s.peer.extendedConnect ≠ none → s.waking = false → s.woken = true

theorem Inv.sent_admitted {l₁ l₂ : List GateEv} {parked : Bool} (hi : s.Inv st)
    (hl : s.log = l₁ ++ .left r .sent parked :: l₂) (hp : r.protocol ≠ none) :
    ∃ l₃ l₄, l₂ = l₃ ++ .admitted r :: l₄ ∧ lastPublished l₄ = some true := by
  have hok : Log.Ok Justified (l₁ ++ .left r .sent parked :: l₂) := hl ▸ hi.honest.log
  have hmem : .admitted r ∈ l₂ := hok.split.resolve_left hp
  obtain ⟨l₃, l₄, rfl⟩ := append_of_mem hmem
  refine ⟨l₃, l₄, rfl, ?_⟩
  rw [← cons_append, ← append_assoc] at hok
  exact hok.split

end System

/-- **The gate is safe, and loses nothing.** -/
theorem gate_safe (ops : List System.Op) : (System.new.run ops).Safe := by
  have hi := System.Inv.new.run ops
  generalize System.new.run ops = s at hi
  have harrival := (pairwise_append.1 hi.books.ledger.arrival).1
  constructor
  case admitted => exact fun _ _ _ _ hl hp => hi.sent_admitted hl hp
  case order => exact hi.books.ledger.front_ordered
  case once => exact ⟨hi.books.ledger.once, (pairwise_map.2 harrival).imp ne_of_lt⟩
  case gone =>
    intro hg
    have hq : s.Stands s.stage := hi.stands
    rw [hg] at hq
    rw [System.waiting, hg, System.inGate, show s.queue = [] from hq]
    rfl
  case ways => exact hi.honest.log
  case flag => exact hi.books.flag
  case woken =>
    intro hn hk hw
    rcases hi.told.woken hn with h | ⟨-, h⟩
    · exact h
    · exact absurd (h.resolve_left (by rw [hw]; decide)) hk

/-! ## What the gate does not promise -/

/-- An extended CONNECT with a body of this length. -/
def websocket (sizeHint : Option ℕ) : Request where
  id := 0
  method := .connect
  protocol := some (ascii "websocket")
  headers := HeaderMap.empty
  sizeHint := sizeHint
  preserve := none

def room (ready : Bool) : System.Op := .go ⟨.ok ready, true, true, none⟩

/-- A request arrives and is parked, and SETTINGS enable it when the connection has no room. -/
def parkedThenEnabled (r : Request) : List System.Op :=
  [.arrive r, .poll] ++ replicate 15 (room true) ++ [room false, .publish true, .wake, .poll, room true, room true]

/-- **A publication that wakes nobody, and a parked request that is neither sent nor returned.** -/
theorem gate_unwoken :
    (∃ ops s, s = System.new.run ops ∧ s.stage = .idle ∧ s.queue.length = 1 ∧ s.seen = some (some true) ∧
      s.peer.extendedConnect = some false ∧ s.waking = false ∧ s.woken = false) ∧
    ∃ ops s r, s = System.new.run ops ∧ parkedIn s.log = [r] ∧ s.log.head? = some (.left r .invalid true) := by
  constructor
  · refine ⟨parkedThenEnabled (websocket none) ++ [room false, .publish false, .wake], _, rfl, ?_⟩
    exact ⟨rfl, rfl, rfl, rfl, rfl, rfl⟩
  · exact ⟨parkedThenEnabled (websocket (some 5)) ++ replicate 6 (room true), _, websocket (some 5), rfl, rfl, rfl⟩

end Netty.H2
