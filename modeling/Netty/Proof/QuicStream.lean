import Netty.Log.Basic
import Netty.Spec.QuicStream

/-!
# The stream adapter keeps the order of bytes

* `owed`, `held`: what the record says is still to be sent, and that a buffer is pending.
* `Legal`: what may happen after what.
* `Inv`: the adapter against its record.
* `stream_in_order`: bytes, finish and buffers over every sequence of operations.
-/

namespace Netty.Quic

open List

variable {T S R ε : Type}

/-! ## The record -/

/-- The bytes that were accepted, and neither taken by the backend nor dropped. -/
def owed : List (Ev ε) → Bytes
  | [] => []
  | .accepted data :: log => owed log ++ data
  | .sent bytes _ :: log => (owed log).drop bytes.length
  | .reset _ _ :: _ => []
  | .drained :: log => owed log
  | .unframed _ _ :: log => owed log
  | .finish _ :: log => owed log
  | .woke :: log => owed log

def held : List (Ev ε) → Bool
  | [] => false
  | .accepted _ :: _ => true
  | .drained :: _ => false
  | .reset _ _ :: _ => false
  | .sent _ _ :: log => held log
  | .unframed _ _ :: log => held log
  | .finish _ :: log => held log
  | .woke :: log => held log

/-- The bytes that come to the adapter. -/
def came : Ev ε → Bytes
  | .accepted data => data
  | .unframed bytes _ => bytes
  | _ => []

def consumed : Ev ε → Bytes
  | .sent bytes _ => bytes
  | .unframed bytes _ => bytes
  | _ => []

def dropped : Ev ε → Bytes
  | .reset _ bytes => bytes
  | _ => []

/-- The bytes that leave the adapter. -/
def left (ev : Ev ε) : Bytes := consumed ev ++ dropped ev

def isSent : Ev ε → Bool
  | .sent _ _ => true
  | _ => false

/-- The backend has made no progress with the pending buffer, or has misreported it. -/
def misreports : Ev ε → Bool
  | .sent bytes (.ok written) => written = 0 || bytes.length ≠ written
  | _ => false

/-- What may happen after what has happened. -/
def Legal : Ev ε → List (Ev ε) → Prop
  | .accepted _, log => held log = false
  | .sent bytes _, log => bytes <+: owed log
  | .drained, log => owed log = []
  | .unframed _ _, log => held log = false
  | .finish _, log => held log = false
  | .reset _ bytes, log => bytes = owed log
  | .woke, _ => True

theorem owed_of_not_held {log : List (Ev ε)} (h : Log.Ok Legal log) (hh : held log = false) : owed log = [] := by
  induction log with
  | nil => rfl
  | cons ev log ih =>
    obtain ⟨hl, h⟩ := h
    cases ev with
    | accepted data => cases hh
    | sent bytes answer =>
      show (owed log).drop _ = []
      rw [ih h hh, drop_nil]
    | drained => exact hl
    | unframed bytes answer => exact ih h hh
    | finish answer => exact ih h hh
    | reset code bytes => rfl
    | woke => exact ih h hh

/-- **Bytes leave in the order in which they came**: to the backend, or by a reset. -/
theorem gather_left {log : List (Ev ε)} (h : Log.Ok Legal log) :
    Log.gather left log ++ owed log = Log.gather came log := by
  induction log with
  | nil => rfl
  | cons ev log ih =>
    obtain ⟨hl, h⟩ := h
    have ih := ih h
    -- an event that moves no bytes
    have hsame : Log.gather left log ++ [] ++ owed log = Log.gather came log ++ [] := by
      rw [append_nil, append_nil, ih]
    cases ev with
    | accepted data =>
      rw [owed_of_not_held h hl, append_nil] at ih
      show Log.gather left log ++ [] ++ (owed log ++ data) = Log.gather came log ++ data
      rw [owed_of_not_held h hl, ih, append_nil, nil_append]
    | sent bytes answer =>
      obtain ⟨rest, hrest⟩ := hl
      show Log.gather left log ++ (bytes ++ []) ++ (owed log).drop bytes.length = Log.gather came log ++ []
      rw [← ih, ← hrest, drop_left, append_nil, append_nil, append_assoc]
    | drained => exact hsame
    | unframed bytes answer =>
      rw [owed_of_not_held h hl, append_nil] at ih
      show Log.gather left log ++ (bytes ++ []) ++ owed log = Log.gather came log ++ bytes
      rw [owed_of_not_held h hl, ih, append_nil, append_nil]
    | finish answer => exact hsame
    | reset code bytes =>
      have hd : bytes = owed log := hl
      show Log.gather left log ++ bytes ++ [] = Log.gather came log ++ []
      rw [hd, ih]
    | woke => exact hsame

/-! ## The adapter -/

namespace Stream

variable {A : Backend T ε} {s : Stream T ε}

/-- **The adapter against its record.** -/
structure Inv (s : Stream T ε) : Prop where
  legal : Log.Ok Legal s.log
  isHeld : s.pending.isSome = held s.log
  isOwed : s.pending.getD [] = owed s.log

theorem Inv.not_held (h : s.Inv) (hp : s.pending = none) : held s.log = false := by
  rw [← h.isHeld, hp]
  rfl

theorem Inv.sent (h : s.Inv) {buf : Bytes} (hp : s.pending = some buf) (k : ℕ) (answer : Answer ε ℕ) (inner : T) :
    ({ s with inner := inner, pending := some (buf.drop k) }.note (.sent (buf.take k) answer)).Inv := by
  have howed : buf = owed s.log := by rw [← h.isOwed, hp]; rfl
  have hheld : held s.log = true := by rw [← h.isHeld, hp]; rfl
  refine ⟨⟨?_, h.legal⟩, hheld.symm, ?_⟩
  · show buf.take k <+: _
    rw [← howed]
    exact take_prefix k buf
  · show buf.drop k = (owed s.log).drop (buf.take k).length
    rw [← howed, length_take]
    by_cases hk : k ≤ buf.length
    · rw [min_eq_left hk]
    · rw [min_eq_right (by omega), drop_of_length_le (by omega), drop_length]

/-- The loop keeps the record, and is ready only once nothing is pending. -/
theorem sendLoop_inv (n : ℕ) : ∀ (s : Stream T ε) (buf : Bytes), s.Inv → s.pending = some buf →
    (sendLoop A n s buf).2.Inv ∧ ((sendLoop A n s buf).1 = .ready (.ok ()) → (sendLoop A n s buf).2.pending = none) := by
  have hdrained : ∀ s : Stream T ε, s.Inv → s.pending = some [] → ({ s with pending := none }.note .drained).Inv := by
    intro s h hp
    have howed : owed s.log = [] := by rw [← h.isOwed, hp]; rfl
    exact ⟨⟨howed, h.legal⟩, rfl, howed.symm⟩
  induction n with
  | zero =>
    intro s buf h hp
    cases buf with
    | nil => exact ⟨hdrained s h hp, fun _ => rfl⟩
    | cons b buf => exact ⟨⟨⟨trivial, h.legal⟩, h.isHeld, h.isOwed⟩, nofun⟩
  | succ n ih =>
    intro s buf h hp
    cases buf with
    | nil => exact ⟨hdrained s h hp, fun _ => rfl⟩
    | cons b buf =>
      unfold sendLoop
      have hs := h.sent hp (A.pollSend s.inner (b :: buf)).1 (A.pollSend s.inner (b :: buf)).2.1
        (A.pollSend s.inner (b :: buf)).2.2
      cases hans : (A.pollSend s.inner (b :: buf)).2.1 with
      | pending =>
        rw [hans] at hs
        simp only [hans]
        exact ⟨hs, nofun⟩
      | err e =>
        rw [hans] at hs
        simp only [hans]
        exact ⟨hs, nofun⟩
      | ok written =>
        rw [hans] at hs
        simp only [hans]
        split
        · exact ⟨hs, nofun⟩
        · exact ih _ _ hs rfl

theorem pollReady_inv (h : s.Inv) : (s.pollReady A).2.Inv ∧
    ((s.pollReady A).1 = .ready (.ok ()) → (s.pollReady A).2.pending = none) := by
  unfold pollReady
  split
  · rename_i buf hp
    exact sendLoop_inv budget s buf h hp
  · rename_i hp
    exact ⟨h, fun _ => hp⟩

variable {ev : Ev ε}

theorem Inv.called (h : s.Inv) (hp : s.pending = none) (hl : held s.log = false → Legal ev s.log)
    (hheld : held (ev :: s.log) = held s.log) (howed : owed (ev :: s.log) = owed s.log) (inner : T) :
    ({ s with inner := inner }.note ev).Inv :=
  ⟨⟨hl (h.not_held hp), h.legal⟩, h.isHeld.trans hheld.symm, h.isOwed.trans howed.symm⟩

theorem pollFinish_inv (h : s.Inv) : (s.pollFinish A).2.Inv := by
  obtain ⟨hinv, hnone⟩ := pollReady_inv (A := A) h
  unfold pollFinish
  refine whenOk_ind (P := fun x : Poll (Except (StreamError ε) Unit) × Stream T ε => x.2.Inv)
    (fun u t hx => ?_) (fun e t hx => ?_) (fun p _ => hinv)
  · rw [hx] at hinv hnone
    exact hinv.called (hnone rfl) id rfl rfl _
  · rw [hx] at hinv
    exact hinv

theorem pollSend_inv (h : s.Inv) (buf : Bytes) : (s.pollSend A buf).2.Inv := by
  obtain ⟨hinv, hnone⟩ := pollReady_inv (A := A) h
  unfold pollSend
  refine whenOk_ind (P := fun x : Poll (Except (StreamError ε) ℕ) × Stream T ε => x.2.Inv)
    (fun u t hx => ?_) (fun e t hx => ?_) (fun p _ => hinv)
  · rw [hx] at hinv hnone
    exact hinv.called (hnone rfl) id rfl rfl _
  · rw [hx] at hinv
    exact hinv

theorem step_sendData (s : Stream T ε) (data : Bytes) : s.step A (.sendData data) =
    if s.pending.isSome then s else { s with pending := some data }.note (.accepted data) := by
  cases hp : s.pending <;> simp [step, sendData, hp]

theorem sendData_inv (h : s.Inv) (data : Bytes) : (s.step A (.sendData data)).Inv := by
  rw [step_sendData]
  split
  · exact h
  · rename_i hp
    have hp : s.pending = none := by simpa using hp
    have hheld := h.not_held hp
    refine ⟨⟨hheld, h.legal⟩, rfl, ?_⟩
    show data = owed s.log ++ data
    rw [owed_of_not_held h.legal hheld, nil_append]

theorem reset_inv (h : s.Inv) (code : ℕ) : (s.reset A code).Inv := ⟨⟨h.isOwed, h.legal⟩, rfl, rfl⟩

theorem step_inv (h : s.Inv) (op : Op) : (s.step A op).Inv := by
  cases op with
  | sendData data => exact sendData_inv h data
  | pollReady => exact (pollReady_inv h).1
  | pollSend buf => exact pollSend_inv h buf
  | pollFinish => exact pollFinish_inv h
  | reset code => exact reset_inv h code

theorem run_inv (ops : List Op) : ∀ s : Stream T ε, s.Inv → (s.run A ops).Inv := by
  induction ops with
  | nil => exact fun s h => h
  | cons op ops ih => exact fun s h => ih _ (step_inv h op)

theorem new_inv (inner : T) : (new inner : Stream T ε).Inv := ⟨trivial, rfl, rfl⟩

theorem split_inv (h : s.Inv) (f : T → S × R) : (s.split f).1.Inv := ⟨h.legal, h.isHeld, h.isOwed⟩

/-! ## The calls of one poll -/

/-- What a poll has added to the record: at most `n` sends of the pending buffer, and a
wrong report of progress only as the last event of a poll that fails for it. -/
structure Calls (n : ℕ) (result : Poll (Except (StreamError ε) Unit)) (s s' : Stream T ε) (new : List (Ev ε)) :
    Prop where
  log : s'.log = new ++ s.log
  sends : new.countP isSent ≤ n
  misreport : ∀ ev ∈ new, misreports ev = true →
    new.head? = some ev ∧ result = .ready (.error (.contract inconsistent))

variable {result : Poll (Except (StreamError ε) Unit)} {s' s : Stream T ε} {n : ℕ}

theorem Calls.one (hlog : s'.log = ev :: s.log) (hs : isSent ev = true → 1 ≤ n)
    (hm : misreports ev = true → result = .ready (.error (.contract inconsistent))) : Calls n result s s' [ev] := by
  refine ⟨hlog, ?_, fun e he hme => ?_⟩
  · rw [countP_singleton]
    split
    · exact hs (by assumption)
    · exact Nat.zero_le _
  · rw [mem_singleton] at he
    subst he
    exact ⟨rfl, hm hme⟩

variable {new : List (Ev ε)}

theorem Calls.snoc {s₁ : Stream T ε} (h : Calls n result s₁ s' new) (hlog : s₁.log = ev :: s.log)
    (hm : misreports ev = false) : Calls (n + 1) result s s' (new ++ [ev]) := by
  refine ⟨by rw [h.log, hlog, append_assoc]; rfl, ?_, fun e he hme => ?_⟩
  · rw [countP_append, countP_singleton]
    have := h.sends
    split <;> omega
  · rcases mem_append.1 he with he | he
    · obtain ⟨hhead, hres⟩ := h.misreport e he hme
      refine ⟨?_, hres⟩
      rw [head?_append, hhead]
      rfl
    · rw [mem_singleton] at he
      subst he
      rw [hm] at hme
      cases hme

theorem not_misreports {buf : Bytes} {k written : ℕ} (hpos : written ≠ 0)
    (hw : buf.length - (buf.drop k).length = written) :
    misreports (ε := ε) (.sent (buf.take k) (.ok written)) = false := by
  have hlen : (buf.take k).length = written := by
    rw [length_drop] at hw
    rw [length_take]
    omega
  show (decide (written = 0) || decide ((buf.take k).length ≠ written)) = false
  rw [decide_eq_false hpos, decide_eq_false (not_not.2 hlen)]
  rfl

theorem sendLoop_calls (n : ℕ) : ∀ (s : Stream T ε) (buf : Bytes),
    ∃ new, Calls n (sendLoop A n s buf).1 s (sendLoop A n s buf).2 new := by
  have hnil : ∀ (n : ℕ) (s : Stream T ε),
      Calls n (.ready (.ok ())) s ({ s with pending := none }.note .drained) [.drained] :=
    fun n s => .one rfl (nofun) (nofun)
  induction n with
  | zero =>
    intro s buf
    cases buf with
    | nil => exact ⟨_, hnil 0 s⟩
    | cons b buf => exact ⟨[.woke], .one rfl (nofun) (nofun)⟩
  | succ n ih =>
    intro s buf
    cases buf with
    | nil => exact ⟨_, hnil (n + 1) s⟩
    | cons b buf =>
      unfold sendLoop
      cases hans : (A.pollSend s.inner (b :: buf)).2.1 with
      | pending =>
        simp only [hans]
        exact ⟨_, .one rfl (fun _ => Nat.succ_le_succ (Nat.zero_le n)) (nofun)⟩
      | err e =>
        simp only [hans]
        exact ⟨_, .one rfl (fun _ => Nat.succ_le_succ (Nat.zero_le n)) (nofun)⟩
      | ok written =>
        simp only [hans]
        split
        · exact ⟨_, .one rfl (fun _ => Nat.succ_le_succ (Nat.zero_le n)) (fun _ => rfl)⟩
        · -- the report is right, and the loop goes on
          rename_i hgood
          rw [not_or, not_not] at hgood
          obtain ⟨new, hnew⟩ := ih _ _
          exact ⟨_, hnew.snoc rfl (not_misreports hgood.1 hgood.2)⟩

theorem Calls.none : Calls n result s s [] :=
  ⟨rfl, Nat.zero_le n, nofun⟩

theorem pollReady_calls (s : Stream T ε) :
    ∃ new, Calls budget (s.pollReady A).1 s (s.pollReady A).2 new := by
  unfold pollReady
  split
  · rename_i buf _
    exact sendLoop_calls budget s buf
  · exact ⟨[], .none⟩

theorem Calls.other {r r' : Poll (Except (StreamError ε) Unit)} (h : Calls n r s s' new)
    (hr : r ≠ .ready (.error (.contract inconsistent))) : Calls n r' s s' new :=
  ⟨h.log, h.sends, fun ev he hm => absurd (h.misreport ev he hm).2 hr⟩

theorem Calls.then {r : Poll (Except (StreamError ε) Unit)} {t : Stream T ε} (h : Calls n (.ready (.ok ())) s t new)
    (hlog : s'.log = ev :: t.log) (hs : isSent ev = false) (hm : misreports ev = false) :
    Calls n r s s' (ev :: new) := by
  refine ⟨by rw [hlog, h.log]; rfl, ?_, fun e he hme => ?_⟩
  · rw [countP_cons_of_neg (by rw [hs]; exact Bool.false_ne_true)]
    exact h.sends
  · rcases mem_cons.1 he with rfl | he
    · rw [hm] at hme
      cases hme
    · exact absurd (h.misreport e he hme).2 (nofun)

/-- The pending buffer first, and then one call of another kind. -/
theorem whenOk_calls {β : Type} {k : Unit → Stream T ε → Poll (Except (StreamError ε) β) × Stream T ε}
    (f : Poll (Except (StreamError ε) β) → Poll (Except (StreamError ε) Unit))
    (hf : ∀ e, f (.ready (.error e)) = .ready (.error e))
    (hk : ∀ t, ∃ ev, (k () t).2.log = ev :: t.log ∧ isSent ev = false ∧ misreports ev = false) (s : Stream T ε) :
    ∃ new, Calls budget (f (whenOk (s.pollReady A) k).1) s (whenOk (s.pollReady A) k).2 new := by
  obtain ⟨new, hnew⟩ := pollReady_calls (A := A) s
  generalize s.pollReady A = x at hnew ⊢
  obtain ⟨p, t⟩ := x
  cases p with
  | ready r =>
    cases r with
    | ok u =>
      obtain ⟨ev, hlog, hs, hm⟩ := hk t
      exact ⟨_, hnew.then hlog hs hm⟩
    | error e =>
      refine ⟨new, ?_⟩
      show Calls budget (f (.ready (.error e))) s t new
      rw [hf]
      exact hnew
  | pending => exact ⟨new, hnew.other nofun⟩
  | busy => exact ⟨new, hnew.other nofun⟩
  | panicked => exact ⟨new, hnew.other nofun⟩

theorem result_pollSend (s : Stream T ε) (buf : Bytes) :
    s.result A (.pollSend buf) = (whenOk ((s.pollSend A buf).1, s) fun _ s => (.ready (.ok ()), s)).1 := by
  show (whenOk (s.pollSend A buf) _).1 = _
  rcases s.pollSend A buf with ⟨p, t⟩
  cases p with
  | ready r => cases r <;> rfl
  | pending => rfl
  | busy => rfl
  | panicked => rfl

theorem step_calls (s : Stream T ε) (op : Op) : ∃ new, Calls budget (s.result A op) s (s.step A op) new := by
  cases op with
  | sendData data =>
    rw [step_sendData]
    split
    · exact ⟨_, .none⟩
    · exact ⟨_, .one rfl (nofun) (nofun)⟩
  | pollReady => exact pollReady_calls s
  | pollSend buf =>
    rw [result_pollSend]
    exact whenOk_calls (fun p => (whenOk (p, s) fun _ s => (.ready (.ok ()), s)).1) (fun _ => rfl)
      (fun t => ⟨_, rfl, rfl, rfl⟩) s
  | pollFinish => exact whenOk_calls id (fun _ => rfl) (fun t => ⟨_, rfl, rfl, rfl⟩) s
  | reset code => exact ⟨_, .one rfl (nofun) (nofun)⟩

/-! ## Every sequence of operations -/

/-- **Bytes in order, and the finish last.** -/
structure Delivers (s : Stream T ε) : Prop where
  /-- What the backend has taken, what resets have dropped and what is still pending is what was accepted. -/
  order : Log.gather left s.log ++ s.pending.getD [] = Log.gather came s.log
  /-- Without a reset the backend takes all of it. -/
  taken : (∀ code bytes, .reset code bytes ∉ s.log) →
    Log.gather consumed s.log ++ s.pending.getD [] = Log.gather came s.log
  /-- No accepted byte was left when the backend was told to finish. -/
  finish : ∀ later answer earlier, s.log = later ++ .finish answer :: earlier →
    Log.gather left earlier = Log.gather came earlier
  /-- A buffer was accepted only when none was pending. -/
  single : ∀ later data earlier, s.log = later ++ .accepted data :: earlier → held earlier = false
  /-- A second one is refused. -/
  refused : s.pending ≠ none → ∀ data, s.sendData data = (.error (.contract notReady), s)

theorem gather_left_eq {log : List (Ev ε)} (h : ∀ code bytes, .reset code bytes ∉ log) :
    Log.gather left log = Log.gather consumed log := by
  induction log with
  | nil => rfl
  | cons ev log ih =>
    have ih := ih fun code bytes hm => h code bytes (mem_cons_of_mem ev hm)
    have hev : left ev = consumed ev := by
      cases ev with
      | reset code bytes => exact absurd mem_cons_self (h code bytes)
      | sent bytes answer => exact append_nil bytes
      | unframed bytes answer => exact append_nil bytes
      | _ => rfl
    rw [Log.gather_cons, Log.gather_cons, ih, hev]

theorem Inv.delivers (h : s.Inv) : s.Delivers := by
  have horder : Log.gather left s.log ++ s.pending.getD [] = Log.gather came s.log := by
    rw [h.isOwed]
    exact gather_left h.legal
  refine ⟨horder, fun hr => ?_, fun later answer earlier hlog => ?_, fun later data earlier hlog => ?_,
    fun hp data => ?_⟩
  · rw [← gather_left_eq hr]
    exact horder
  · -- nothing is pending then, so nothing is owed
    have hok := h.legal
    rw [hlog] at hok
    have hbefore : Log.Ok Legal earlier := hok.earlier.2
    have := gather_left hbefore
    rwa [owed_of_not_held hbefore hok.split, append_nil] at this
  · have hok := h.legal
    rw [hlog] at hok
    exact hok.split
  · exact if_pos (Option.isSome_iff_ne_none.2 hp)

end Stream

/-- **The adapter keeps the order of bytes**, for every backend, every sequence of operations before a
split and every sequence on the sending half after it: `Delivers` holds all along, and each operation
makes at most 32 sends of the pending buffer and fails on a report that is wrong or says nothing was taken. -/
theorem stream_in_order (A : Backend T ε) (B : Backend S ε) (f : T → S × R) (t : T) (ops ops' : List Op) :
    let s := (Stream.new t).run A ops
    let s' := (s.split f).1.run B ops'
    s.Delivers ∧ s'.Delivers ∧ (∀ op, ∃ new, Stream.Calls 32 (s.result A op) s (s.step A op) new) ∧
      ∀ op, ∃ new, Stream.Calls 32 (s'.result B op) s' (s'.step B op) new := by
  intro s s'
  have hs : s.Inv := Stream.run_inv ops _ (Stream.new_inv t)
  have hs' : s'.Inv := Stream.run_inv ops' _ (Stream.split_inv hs f)
  exact ⟨hs.delivers, hs'.delivers, Stream.step_calls s, Stream.step_calls s'⟩

/-- A reset takes the pending bytes with it, and the adapter accepts another buffer: the backend never
sees the first one. -/
theorem reset_drops_pending :
    let A : Backend Unit Unit := ⟨fun t buf => (buf.length, .ok buf.length, t), fun t => (.ok (), t), fun t _ => t⟩
    let s := (Stream.new ()).run A [.sendData [1], .reset 0, .sendData [2], .pollReady]
    s.pending = none ∧ Log.gather came s.log = [1, 2] ∧ Log.gather consumed s.log = [2] := by
  decide

end Netty.Quic
