import Netty.Log.Basic
import Netty.Proof.PipeH2
import Netty.Spec.H2Writer

/-!
# Writes and the end of an HTTP/2 tunnel are in order

While the task lives, what was accepted and not given is in its hands or in the channel. The channel
is only at its end when it is closed and empty, so END_STREAM comes after everything that was accepted.

The end of the task is all that `poll_shutdown` looks at. It is the end of the stream, unless the
task was dropped, or its error was reported before.

* `accepted`, `given`: what a log says.
* `Inv`: what holds in all runs.
* `Tied`: what the log says the stream was given is what the stream has taken.
* `Orderly`, `Honest`: what holds in runs where the task is not dropped too early.
* `writes_in_order`: **every run of the application and the task.**
* `shuts_down_without_end`: a task that is dropped, and an error that was reported before.
-/

namespace Netty.H2.Tunnel

open List

variable {t : Tunnel} {l : List TunnelEv}

/-! ## Logs -/

def acceptedBy : TunnelEv → Bytes
  | .answered (.write buf) (.ready (.ok n)) => buf.take n
  | _ => []

def givenBy : TunnelEv → Bytes
  | .given (.data bytes _) => bytes
  | _ => []

/-- All bytes that were accepted, in order. -/
def accepted (l : List TunnelEv) : Bytes := Log.gather acceptedBy l

/-- All bytes that were given, in order. -/
def given (l : List TunnelEv) : Bytes := Log.gather givenBy l

def Ended (l : List TunnelEv) : Prop := ∃ bytes, .given (.data bytes true) ∈ l

/-- The stream is reset, by the task or by the peer. -/
def isReset : TunnelEv → Bool
  | .given (.reset _) => true
  | .polled answer => answer ≠ .pending
  | _ => false

def Reset (l : List TunnelEv) : Prop := ∃ e ∈ l, isReset e = true

/-- A call reports the error of the task. -/
def isReport : TunnelEv → Bool
  | .answered _ (.ready (.error (.other _))) => true
  | _ => false

def Reported (l : List TunnelEv) : Prop := ∃ e ∈ l, isReport e = true

/-- Since the stream was given something, `poll_reset` has found no reset. -/
def Asked (l : List TunnelEv) : Prop := ∃ post pre, l = post ++ .polled .pending :: pre ∧ ∀ g, .given g ∉ post

def Justified : TunnelEv → List TunnelEv → Prop
  | .answered (.write buf) (.ready (.ok n)), l => buf.take n = [] ∨ ¬ Ended l
  | .answered _ _, _ | .polled _, _ => True
  | .given (.data bytes eos), l => ¬ Reset l ∧ ¬ Ended l ∧ Asked l ∧ (eos = true → given l ++ bytes = accepted l)
  | .given (.trailers _), l => ¬ Reset l ∧ ¬ Ended l
  | .given (.reset _), l => ¬ Reset l

/-- What a shutdown that is done needs, and a reset. -/
def Told : TunnelEv → List TunnelEv → Prop
  | .answered .shutdown (.ready (.ok _)), l => Ended l
  | .given (.reset _), l => ¬ Ended l
  | _, _ => True

variable {e : TunnelEv}

theorem Ended.cons (h : Ended l) : Ended (e :: l) := h.imp fun _ hb => mem_cons_of_mem e hb

theorem Reported.cons (h : Reported l) : Reported (e :: l) := h.imp fun _ h => ⟨mem_cons_of_mem e h.1, h.2⟩

theorem Asked.cons (h : Asked l) (he : ∀ g, e ≠ .given g) : Asked (e :: l) := by
  obtain ⟨post, pre, rfl, hpost⟩ := h
  refine ⟨e :: post, pre, rfl, fun g hg => ?_⟩
  rcases mem_cons.1 hg with hg | hg
  · exact he g hg.symm
  · exact hpost g hg

variable {r : Poll (Except TunnelError ℕ)}

@[simp] theorem ended_answered {call : Call} : Ended (.answered call r :: l) ↔ Ended l := by simp [Ended]

@[simp] theorem reset_answered {call : Call} : Reset (.answered call r :: l) ↔ Reset l := by simp [Reset, isReset]

@[simp] theorem ended_polled {answer : ResetEv} : Ended (.polled answer :: l) ↔ Ended l := by simp [Ended]

@[simp] theorem reset_polled {answer : ResetEv} : Reset (.polled answer :: l) ↔ answer ≠ .pending ∨ Reset l := by
  simp [Reset, isReset]

@[simp] theorem reported_polled {answer : ResetEv} : Reported (.polled answer :: l) ↔ Reported l := by
  simp [Reported, isReport]

@[simp] theorem reported_given {g : Given} : Reported (.given g :: l) ↔ Reported l := by simp [Reported, isReport]

@[simp] theorem ended_given_data {bytes : Bytes} {eos : Bool} :
    Ended (.given (.data bytes eos) :: l) ↔ eos = true ∨ Ended l := by
  cases eos <;> simp [Ended]

@[simp] theorem reset_given_data {bytes : Bytes} {eos : Bool} :
    Reset (.given (.data bytes eos) :: l) ↔ Reset l := by simp [Reset, isReset]

@[simp] theorem ended_given_reset {reason : ℕ} : Ended (.given (.reset reason) :: l) ↔ Ended l := by simp [Ended]

/-- **Rule for steps.** -/
theorem step_ind {P : Tunnel → Prop} {op : Op} (h : P t) (hcall : ∀ c, op = .call c → P (t.call c)) (hgo : P t.go)
    (hio : P { t with ioGone := true, opened := false }) (hreset : ∀ reset, P { t with reset := reset })
    (hpoll : op = .poll → t.pump = .idle → P t.poll) (hpump : P t.pumpOn) (hdrop : op = .drop → P (t.setPump .closing)) :
    P (t.step op) := by
  cases op <;> simp only [Tunnel.step]
  case call c => split_ifs; exacts [hcall c rfl, h]
  case go => exact hgo
  case dropIo => split_ifs; exacts [hio, h]
  case dropSlot => split; exacts [hreset _, h]
  case reset => split; exacts [hreset _, h]
  case poll => split; exacts [hpoll rfl ‹_›, h]
  case pump => exact hpump
  case drop => split; exacts [hdrop rfl, hdrop rfl, h]

/-! ## The order -/

def live : Pump → Bool
  | .idle | .top | .capacity | .recv => true
  | _ => false

structure Inv (t : Tunnel) : Prop where
  /-- **What was accepted and not given** is in the hands of the task or in the channel. -/
  bytes : ∃ rest, accepted t.log = given t.log ++ rest ∧
    (live t.pump = true → rest = t.buffered.getD [] ++ t.queue.flatten)
  hands : t.pump = .recv → t.buffered = none
  ended : t.ended = true ↔ Ended t.log
  closed : t.ended = true → t.opened = false
  past : t.ended = true → t.pump ≠ .capacity ∧ t.pump ≠ .recv
  /-- The stream is given something only when there is no reset. -/
  asked : t.pump = .capacity ∨ t.pump = .recv → Asked t.log
  reset : Reset t.log → live t.pump = false
  log : Log.Ok Justified t.log

theorem new_inv (tx : SendStream) (resettable : Bool) : Inv (new tx resettable) where
  bytes := ⟨[], rfl, fun _ => rfl⟩
  hands := nofun
  ended := by simp [new, Ended]
  closed := nofun
  past := nofun
  asked := nofun
  reset := by simp [new, Reset]
  log := trivial

theorem Inv.not_reset (h : Inv t) (hl : live t.pump = true) : ¬ Reset t.log := fun hr => by
  have := h.reset hr
  rw [hl] at this
  cases this

theorem Inv.setTx (h : Inv t) (tx : SendStream) : Inv (t.setTx tx) :=
  { h with }

/-- An event that brings no bytes. -/
theorem order_cons {rest : Bytes} (hb : accepted l = given l ++ rest) (ha : acceptedBy e = []) (hg : givenBy e = []) :
    accepted (e :: l) = given (e :: l) ++ rest := by
  rw [accepted, given, Log.gather_cons, Log.gather_cons, ha, hg, append_nil, append_nil]
  exact hb

variable {p : Pump}

section

variable (h : Inv t)

include h

theorem Inv.setPump (hl : live p = true → live t.pump = true)
    (hr : p = .recv → t.buffered = none ∧ t.ended = false) (hc : p = .capacity → t.ended = false)
    (ha : p = .capacity ∨ p = .recv → Asked t.log) : Inv (t.setPump p) := by
  obtain ⟨rest, hb, hq⟩ := h.bytes
  refine ⟨⟨rest, hb, fun hp => hq (hl hp)⟩, fun hp => (hr hp).1, h.ended, h.closed, fun he => ?_, ha, fun hx => ?_,
    h.log⟩
  · refine ⟨fun hp => ?_, fun hp => ?_⟩
    · cases (hc hp).symm.trans he
    · cases (hr hp).2.symm.trans he
  · cases hp : live p with
    | true => exact absurd (hl hp) (by simp [h.reset hx])
    | false => exact hp

theorem Inv.goTo (hl : live t.pump = true ∨ live p = false) (hr : p ≠ .recv) (hc : p ≠ .capacity) :
    Inv (t.setPump p) :=
  h.setPump (fun hp => hl.resolve_right (by simp [hp])) (fun hp => absurd hp hr) (fun hp => absurd hp hc)
    fun hp => absurd hp (by simp [hr, hc])

/-! ### The application -/

theorem Inv.answer (call : Call) (ha : acceptedBy (.answered call r) = []) : Inv (t.answer call r) := by
  obtain ⟨rest, hb, hq⟩ := h.bytes
  refine ⟨⟨rest, order_cons hb ha rfl, hq⟩, h.hands, h.ended.trans ended_answered.symm, h.closed, h.past,
    fun hp => (h.asked hp).cons (by simp), fun hr => h.reset (reset_answered.1 hr), ?_, h.log⟩
  rcases call with buf | _ | _
  · rcases r with (e | n) | _ | _ | _
    · trivial
    · exact .inl ha
    all_goals trivial
  · trivial
  · trivial

theorem Inv.call (call : Call) : Inv (t.call call) := by
  have hc : ∀ c, Inv { t with caller := c } := fun c =>
    { h with }
  cases call with
  | write buf =>
    simp only [Tunnel.call]
    split
    · rename_i hb
      exact h.answer _ (by simp [hb, acceptedBy])
    · split
      · exact hc _
      · exact hc _
      · exact h.answer _ rfl
  | flush =>
    simp only [Tunnel.call]
    split
    · exact h.answer _ rfl
    · exact hc _
    · exact h.answer _ rfl
  | shutdown => exact { h with closed := fun _ => rfl }

/-- **A chunk is accepted**, and goes into the channel. -/
theorem Inv.startSend (buf : Bytes) : Inv (t.startSend buf) := by
  simp only [Tunnel.startSend]
  split
  · exact { h with }
  · rename_i ho
    have hopen : t.opened = true := by simpa using ho
    have hn : ¬ Ended t.log := fun he => by
      have := h.closed (h.ended.2 he)
      rw [hopen] at this
      cases this
    obtain ⟨rest, hb, hq⟩ := h.bytes
    refine ⟨⟨rest ++ buf, ?_, fun hl => ?_⟩, h.hands, h.ended.trans ended_answered.symm, h.closed, h.past,
      fun hp => (h.asked hp).cons (by simp), fun hr => h.reset (reset_answered.1 hr), .inr hn, h.log⟩
    · show accepted t.log ++ buf.take buf.length = (Tunnel.given t.log ++ []) ++ (rest ++ buf)
      rw [hb, take_length, append_nil, append_assoc]
    · show rest ++ buf = t.buffered.getD [] ++ (t.queue ++ [buf]).flatten
      rw [hq hl, flatten_append, append_assoc]
      simp

theorem Inv.checkError (call : Call) : Inv (t.checkError call) := by
  have he : ∀ e, Inv { t with error := e } := fun e =>
    { h with }
  simp only [Tunnel.checkError]
  split
  · exact (he _).answer _ (by cases call <;> rfl)
  · exact h.answer _ (by cases call <;> rfl)
  · exact h.answer _ (by cases call <;> rfl)

theorem Inv.go : Inv t.go := by
  simp only [Tunnel.go]
  split
  · exact h
  · exact h.startSend _
  · exact h.checkError _

/-! ### The task -/

theorem Inv.poll (hp : t.pump = .idle) : Inv t.poll := by
  have hlive : live t.pump = true := by rw [hp]; rfl
  simp only [Tunnel.poll]
  split
  · split
    · obtain ⟨rest, hb, -⟩ := h.bytes
      exact ⟨⟨rest, order_cons hb rfl rfl, nofun⟩, nofun, h.ended.trans ended_given_reset.symm, h.closed,
        fun _ => ⟨nofun, nofun⟩, nofun, fun _ => rfl, h.not_reset hlive, h.log⟩
    · have h' : Inv { t with resetRx := false } :=
        { h with }
      exact h'.goTo (.inl hlive) (by simp) (by simp)
    · exact h.goTo (.inl hlive) (by simp) (by simp)
  · exact h.goTo (.inl hlive) (by simp) (by simp)

theorem Inv.polled : Inv (t.record (.polled .pending)) := by
  obtain ⟨rest, hb, hq⟩ := h.bytes
  exact ⟨⟨rest, order_cons hb rfl rfl, hq⟩, h.hands, h.ended.trans ended_polled.symm, h.closed, h.past,
    fun _ => ⟨[], t.log, rfl, by simp⟩, fun hr => h.reset ((reset_polled.1 hr).resolve_left (by simp)), trivial, h.log⟩

theorem Inv.fails (answer : ResetEv) (e : Error) :
    Inv ((t.record (.polled answer)).setPump (.failed e)) := by
  obtain ⟨rest, hb, -⟩ := h.bytes
  exact ⟨⟨rest, order_cons hb rfl rfl, nofun⟩, nofun, h.ended.trans ended_polled.symm, h.closed,
    fun _ => ⟨nofun, nofun⟩, nofun, fun _ => rfl, trivial, h.log⟩

theorem Inv.top (hp : t.pump = .top) : Inv t.top := by
  have hlive : live t.pump = true := by rw [hp]; rfl
  have htx := h.setTx t.tx.pollReset.2
  simp only [Tunnel.top]
  split
  · exact htx.fails _ _
  · exact htx.fails _ _
  · rename_i hanswer
    rw [hanswer]
    have hpolled := htx.polled
    have hasked : Asked (.polled .pending :: t.log) := ⟨[], t.log, rfl, by simp⟩
    split
    · split <;> exact hpolled.goTo (.inl hlive) (by simp) (by simp)
    · rename_i he
      have hend : t.ended = false := eq_false_of_ne_true he
      split
      · exact hpolled.setPump (fun _ => hlive) (nofun) (fun _ => hend) fun _ => hasked
      · rename_i hb
        exact hpolled.setPump (fun _ => hlive) (fun _ => ⟨Option.not_isSome_iff_eq_none.1 hb, hend⟩)
          (nofun) fun _ => hasked

theorem Inv.sendBuffered (hp : t.pump = .capacity) : Inv t.sendBuffered := by
  have hlive : live t.pump = true := by rw [hp]; rfl
  have hend : ¬ t.ended = true := fun he => (h.past he).1 hp
  obtain ⟨rest, hb, hq⟩ := h.bytes
  simp only [Tunnel.sendBuffered]
  split
  · refine ⟨⟨t.queue.flatten, ?_, fun _ => (nil_append _).symm⟩, nofun, ?_, h.closed,
      fun he => absurd he hend, nofun,
      fun hr => absurd (reset_given_data.1 hr) (h.not_reset hlive),
      ⟨h.not_reset hlive, fun he => hend (h.ended.2 he), h.asked (.inl hp), nofun⟩, h.log⟩
    · show accepted t.log ++ [] = (Tunnel.given t.log ++ t.buffered.getD []) ++ t.queue.flatten
      rw [hb, hq hlive, append_nil, append_assoc]
    · exact h.ended.trans (ended_given_data.trans (or_iff_right Bool.false_ne_true)).symm
  · exact ⟨⟨rest, hb, nofun⟩, nofun, h.ended, h.closed,
      fun he => absurd he hend, nofun, fun _ => rfl, h.log⟩

theorem Inv.awaitCapacity (hp : t.pump = .capacity) : Inv t.awaitCapacity := by
  have hlive : live t.pump = true := by rw [hp]; rfl
  simp only [Tunnel.awaitCapacity]
  split
  · exact h.setTx _
  · exact (h.setTx _).sendBuffered hp
  · exact (h.setTx _).goTo (.inr rfl) (by simp) (by simp)
  · exact (h.setTx _).goTo (.inl hlive) (by simp) (by simp)

/-- **END_STREAM is given when everything was.** -/
theorem Inv.sendEnd (hp : t.pump = .recv) (hq : t.queue = []) (ho : t.opened = false) : Inv t.sendEnd := by
  have hlive : live t.pump = true := by rw [hp]; rfl
  have hend : ¬ t.ended = true := fun he => (h.past he).2 hp
  have hall : Tunnel.given t.log = accepted t.log := by
    obtain ⟨rest, hb, hr⟩ := h.bytes
    rw [hb, hr hlive, h.hands hp, hq]
    exact (append_nil _).symm
  simp only [Tunnel.sendEnd]
  split
  · refine ⟨⟨[], ?_, fun _ => ?_⟩, nofun, ?_, fun _ => ho, fun _ => ⟨nofun, nofun⟩, nofun,
      fun hr => absurd (reset_given_data.1 hr) (h.not_reset hlive),
      ⟨h.not_reset hlive, fun he => hend (h.ended.2 he), h.asked (.inr hp), fun _ => (append_nil _).trans hall⟩,
      h.log⟩
    · show accepted t.log ++ [] = (Tunnel.given t.log ++ []) ++ []
      simp only [append_nil, hall]
    · show [] = t.buffered.getD [] ++ t.queue.flatten
      rw [h.hands hp, hq]
      rfl
    · exact ⟨fun _ => ended_given_data.2 (.inl rfl), fun _ => rfl⟩
  · exact (h.setTx _).goTo (.inr rfl) (by simp) (by simp)

theorem Inv.pollNext (hp : t.pump = .recv) : Inv t.pollNext := by
  have hlive : live t.pump = true := by rw [hp]; rfl
  simp only [Tunnel.pollNext]
  split
  · rename_i chunk queue hq
    obtain ⟨rest, hb, hr⟩ := h.bytes
    refine ⟨⟨rest, hb, fun _ => ?_⟩, nofun, h.ended, h.closed, fun he => absurd hp (h.past he).2, nofun,
      fun hx => absurd hx (h.not_reset hlive), h.log⟩
    show rest = chunk ++ queue.flatten
    rw [hr hlive, h.hands hp, hq]
    rfl
  · rename_i hq
    split
    · exact h.goTo (.inl hlive) (by simp) (by simp)
    · rename_i ho
      exact h.sendEnd hp hq (by simpa using ho)

theorem Inv.pumpOn : Inv t.pumpOn := by
  simp only [Tunnel.pumpOn]
  split
  · exact h
  · exact h
  · exact h
  · rename_i hp
    exact h.top hp
  · rename_i hp
    exact h.awaitCapacity hp
  · rename_i hp
    exact h.pollNext hp
  · have h' : ∀ x, Inv { t with error := x, errorTx := false } := fun x =>
      { h with }
    exact (h' _).goTo (.inr rfl) (by simp) (by simp)
  · obtain ⟨rest, hb, -⟩ := h.bytes
    exact ⟨⟨rest, hb, nofun⟩, nofun, h.ended, fun _ => rfl, fun _ => ⟨nofun, nofun⟩, nofun,
      fun _ => rfl, h.log⟩
  · have h' : ∀ x, Inv { t with error := x, errorTx := false, resetRx := false } := fun x =>
      { h with }
    exact (h' _).goTo (.inr rfl) (by simp) (by simp)

theorem Inv.step (op : Op) : Inv (t.step op) :=
  step_ind h (fun c _ => h.call c) h.go { h with closed := fun _ => rfl } (fun _ => { h with }) (fun _ => h.poll) h.pumpOn
    fun _ => h.goTo (.inr rfl) (by simp) (by simp)

end

theorem run_inv (tx : SendStream) (resettable : Bool) (ops : List Op) : Inv ((new tx resettable).run ops) :=
  foldlRecOn (motive := Inv) ops step (new_inv tx resettable) fun _ h op _ => h.step op

/-! ## What the stream has taken -/

/-- What the log says the stream was given. -/
def gave : TunnelEv → Option Given
  | .given g => some g
  | _ => none

/-- **The stream has taken what the log says**, on top of what it had. -/
def Tied (start : List Given) (t : Tunnel) : Prop := t.tx.given = t.log.filterMap gave ++ start

section Tied

variable {start : List Given}

section

variable (h : Tied start t)

include h

theorem Tied.setTx {tx : SendStream} (htx : tx.given = t.tx.given) : Tied start (t.setTx tx) :=
  htx.trans h

theorem Tied.give {g : Given} {res : Except Error Unit} {tx : SendStream} (hg : t.tx.give g = (res, tx)) :
    res = .ok () ∧ tx.given = g :: t.log.filterMap gave ++ start ∨ (∃ e, res = .error e) ∧ tx.given = t.tx.given := by
  rcases t.tx.give_cases g with ⟨tx', hx, htx⟩ | ⟨e, tx', hx, htx⟩ <;> cases hg.symm.trans hx
  · exact .inl ⟨rfl, htx.trans (congrArg (g :: ·) h)⟩
  · exact .inr ⟨⟨e, rfl⟩, htx⟩

theorem Tied.call (call : Call) : Tied start (t.call call) := by
  cases call with
  | write buf =>
    simp only [Tunnel.call]
    split_ifs
    · exact h
    · split <;> exact h
  | flush =>
    simp only [Tunnel.call]
    split <;> exact h
  | shutdown => exact h

theorem Tied.go : Tied start t.go := by
  unfold Tunnel.go Tunnel.startSend Tunnel.checkError
  split
  · exact h
  · split <;> exact h
  · split <;> exact h

theorem Tied.poll : Tied start t.poll := by
  unfold Tunnel.poll
  split
  · split
    · exact congrArg (Given.reset _ :: ·) h
    · exact h
    · exact h
  · exact h

theorem Tied.sendBuffered : Tied start t.sendBuffered := by
  unfold Tunnel.sendBuffered
  simp only
  split <;> rename_i hg <;>
    rcases Tied.give (t := { t with buffered := none }) h hg with ⟨hres, htx⟩ | ⟨⟨e, hres⟩, htx⟩ <;> cases hres
  · exact htx
  · exact htx.trans h

theorem Tied.awaitCapacity : Tied start t.awaitCapacity := by
  have hround := t.tx.capacityRound_given
  unfold Tunnel.awaitCapacity
  split <;> rename_i hr <;> rw [hr] at hround
  · exact h.setTx hround
  · exact (h.setTx hround).sendBuffered
  · exact h.setTx hround
  · exact h.setTx hround

theorem Tied.sendEnd : Tied start t.sendEnd := by
  unfold Tunnel.sendEnd
  split <;> rename_i hg <;> rcases h.give hg with ⟨hres, htx⟩ | ⟨⟨e, hres⟩, htx⟩ <;> cases hres
  · exact htx
  · exact htx.trans h

theorem Tied.pollNext : Tied start t.pollNext := by
  unfold Tunnel.pollNext
  split
  · exact h
  · split_ifs
    · exact h
    · exact h.sendEnd

theorem Tied.pumpOn : Tied start t.pumpOn := by
  unfold Tunnel.pumpOn
  split
  case h_4 =>
    unfold Tunnel.top
    simp only
    split <;> exact h
  case h_5 => exact h.awaitCapacity
  case h_6 => exact h.pollNext
  all_goals exact h

theorem Tied.step (op : Op) : Tied start (t.step op) :=
  step_ind h (fun c _ => h.call c) h.go h (fun _ => h) (fun _ _ => h.poll) h.pumpOn fun _ => h

end

end Tied

/-! ## What a shutdown is told -/

def done : Pump → Bool
  | .finished | .closing | .releasing | .gone => true
  | _ => false

/-- The invariant of the error that the task leaves. -/
structure Honest (t : Tunnel) : Prop where
  sender : t.errorTx = true → t.error = .waiting
  done : done t.pump = true → t.errorTx = false
  ended : t.ended = true → t.errorTx = false
  /-- **When there is nothing to be had from the task**, the stream is at its end, or the error was reported. -/
  gone : t.error = .gone → Ended t.log ∨ Reported t.log
  /-- A shutdown does not come after a report. -/
  fresh : t.caller = .check .shutdown → ¬ Reported t.log
  log : Log.Ok Told t.log

theorem new_honest (tx : SendStream) (resettable : Bool) : Honest (new tx resettable) :=
  ⟨fun _ => rfl, nofun, nofun, nofun, nofun, trivial⟩

section

variable (h : Honest t)

include h

theorem Honest.setPump (hd : Tunnel.done p = true → t.errorTx = false) : Honest (t.setPump p) :=
  { h with done := hd }

theorem Honest.setTx (tx : SendStream) : Honest (t.setTx tx) :=
  { h with }

theorem Honest.record (he : Told e t.log) (hr : Reported (e :: t.log) → Reported t.log) :
    Honest (t.record e) :=
  ⟨h.sender, h.done, h.ended, fun hg => (h.gone hg).imp Ended.cons Reported.cons, fun hc hx => h.fresh hc (hr hx), he,
    h.log⟩

theorem Honest.answer {call : Call} (he : Told (.answered call r) t.log) : Honest (t.answer call r) :=
  ⟨h.sender, h.done, h.ended, fun hg => (h.gone hg).imp Ended.cons Reported.cons, nofun, he, h.log⟩

theorem Honest.call {call : Call} (hop : call = .shutdown → ¬ Reported t.log) : Honest (t.call call) := by
  have hc : ∀ c, c ≠ .check .shutdown → Honest { t with caller := c } := fun c hc =>
    { h with fresh := fun hx => absurd hx hc }
  cases call with
  | write buf =>
    simp only [Tunnel.call]
    split
    · exact h.answer trivial
    · split
      · exact hc _ (by simp)
      · exact hc _ (by simp)
      · exact h.answer trivial
  | flush =>
    simp only [Tunnel.call]
    split
    · exact h.answer trivial
    · exact hc _ (by simp)
    · exact h.answer trivial
  | shutdown => exact { h with fresh := fun _ => hop rfl }

theorem Honest.startSend (buf : Bytes) : Honest (t.startSend buf) := by
  simp only [Tunnel.startSend]
  split
  · exact { h with fresh := nofun }
  · exact Honest.answer (t := { t with queue := t.queue ++ [buf], parked := 1 < t.queue.length + 1 }) { h with } trivial

/-- The error that is taken is reported, and a call that finds none is told so for a reason. -/
theorem Honest.checkError {call : Call} (hc : t.caller = .check call) : Honest (t.checkError call) := by
  simp only [Tunnel.checkError]
  split
  · rename_i e he
    refine ⟨fun hs => ?_, h.done, h.ended, fun _ => .inr ⟨_, mem_cons_self, rfl⟩, nofun, ?_, h.log⟩
    · cases he.symm.trans (h.sender hs)
    · cases call <;> trivial
  · rename_i he
    refine h.answer ?_
    cases call with
    | shutdown => exact (h.gone he).resolve_right (h.fresh hc)
    | _ => trivial
  · exact h.answer (by cases call <;> trivial)

theorem Honest.go : Honest t.go := by
  simp only [Tunnel.go]
  split
  · exact h
  · exact h.startSend _
  · exact h.checkError ‹_›

end

def Oneshot.isSent {α : Type} : Oneshot α → Bool
  | .sent _ => true
  | _ => false

section

variable (h : Honest t)

include h

theorem Honest.poll (hi : Inv t) (hop : t.ended = true → t.resetRx = true → Oneshot.isSent t.reset = false) :
    Honest t.poll := by
  simp only [Tunnel.poll]
  split
  · rename_i hrx
    split
    · rename_i reason hreset
      have hn : ¬ Ended t.log := fun he => by
        have hsent := hop (hi.ended.2 he) hrx
        rw [hreset] at hsent
        cases hsent
      have hfailed : Honest (({ t with reset := .gone }.setTx (t.tx.sendReset reason)).setPump
          (.failed (.newBodyWrite (.h2 (some reason))))) := { h with done := nofun }
      exact hfailed.record (e := .given (.reset reason)) hn reported_given.1
    · exact { h with done := nofun }
    · exact h.setPump nofun
  · exact h.setPump nofun

/-- The loop is only left when END_STREAM went out. -/
theorem Honest.top : Honest t.top := by
  have hpolled := (h.setTx t.tx.pollReset.2).record (e := .polled t.tx.pollReset.1) trivial reported_polled.1
  simp only [Tunnel.top]
  split
  · exact hpolled.setPump nofun
  · exact hpolled.setPump nofun
  · split
    · rename_i he
      exact hpolled.setPump fun _ => h.ended he
    · split <;> exact hpolled.setPump nofun

theorem Honest.sendBuffered : Honest t.sendBuffered := by
  simp only [Tunnel.sendBuffered]
  split
  · rename_i tx _
    have htop : Honest (({ t with buffered := none }.setTx tx).setPump .top) :=
      { h with done := nofun }
    exact htop.record (e := .given (.data _ false)) trivial reported_given.1
  · exact { h with done := nofun }

theorem Honest.awaitCapacity : Honest t.awaitCapacity := by
  simp only [Tunnel.awaitCapacity]
  split
  · exact h.setTx _
  · exact (h.setTx _).sendBuffered
  · exact (h.setTx _).setPump nofun
  · exact (h.setTx _).setPump nofun

theorem Honest.sendEnd : Honest t.sendEnd := by
  simp only [Tunnel.sendEnd]
  split
  · exact ⟨nofun, fun _ => rfl, fun _ => rfl, fun _ => .inl (ended_given_data.2 (.inl rfl)),
      fun hc hx => h.fresh hc (reported_given.1 hx), trivial, h.log⟩
  · exact (h.setTx _).setPump nofun

theorem Honest.pollNext : Honest t.pollNext := by
  simp only [Tunnel.pollNext]
  split
  · exact { h with done := nofun }
  · split
    · exact h.setPump nofun
    · exact h.sendEnd

theorem Honest.pumpOn : Honest t.pumpOn := by
  simp only [Tunnel.pumpOn]
  split
  · exact h
  · exact h
  · exact h
  · exact h.top
  · exact h.awaitCapacity
  · exact h.pollNext
  · refine ⟨nofun, fun _ => rfl, fun _ => rfl, fun hg => ?_, h.fresh, h.log⟩
    -- The error itself is left, if its receiver has not been told of the end before.
    revert hg
    show (if t.errorTx then Oneshot.sent _ else t.error) = .gone → _
    split
    · intro hg; cases hg
    · exact h.gone
  · rename_i hp
    exact { h with done := fun _ => h.done (by rw [hp]; rfl) }
  · rename_i hp
    have hs : t.errorTx = false := h.done (by rw [hp]; rfl)
    refine ⟨nofun, fun _ => rfl, fun _ => rfl, fun hg => ?_, h.fresh, h.log⟩
    revert hg
    show (if t.errorTx then Oneshot.gone else t.error) = .gone → _
    rw [hs]
    exact h.gone

end

/-- The task is dropped only when it is done, a shutdown does not come after a report, and the task finds no
request for a reset when it has given END_STREAM. -/
def harmless (t : Tunnel) : Op → Bool
  | .drop => done t.pump
  | .call .shutdown => !t.log.any isReport
  | .poll => !(t.ended && t.resetRx && Oneshot.isSent t.reset)
  | _ => true

/-- In a run, too. -/
def orderly : Tunnel → List Op → Bool
  | _, [] => true
  | t, op :: ops => harmless t op && orderly (t.step op) ops

theorem Honest.step (h : Honest t) (hi : Inv t) {op : Op} (hop : harmless t op = true) : Honest (t.step op) := by
  refine step_ind h (fun c hc => h.call fun hs hx => ?_) h.go { h with } (fun _ => { h with }) (fun hc _ => ?_) h.pumpOn
    fun hc => h.setPump fun _ => h.done (by rw [hc] at hop; exact hop)
  · rw [hc, hs, harmless, any_eq_true.2 hx] at hop
    cases hop
  · refine h.poll hi fun he hrx => ?_
    simpa [hc, harmless, he, hrx] using hop

theorem Honest.run (h : Honest t) (hi : Inv t) {ops : List Op} (hops : orderly t ops = true) : Honest (t.run ops) := by
  induction ops generalizing t with
  | nil => exact h
  | cons op ops ih =>
    obtain ⟨hop, hops⟩ := Bool.and_eq_true_iff.1 hops
    exact ih (h.step hi hop) (hi.step op) hops

/-- **What the stream is given is in order, and a shutdown is honest**, for every stream and every run of
the application and the task:

* the stream has taken what the log says, and that is the beginning of what was accepted;
* END_STREAM comes after everything that is ever accepted;
* after END_STREAM nothing is given but a reset;
* after a reset, by the task or by the peer, nothing is given, and before each call the task has asked for one;
* if the task is not dropped before it is done, finds no request for a reset after END_STREAM and no call has
  reported its error before a shutdown, then nothing at all is given after END_STREAM, and `poll_shutdown` is done
  only after END_STREAM. -/
theorem writes_in_order (tx : SendStream) (resettable : Bool) (ops : List Op) :
    let t := (new tx resettable).run ops
    t.tx.given = t.log.filterMap gave ++ tx.given ∧ given t.log <+: accepted t.log ∧
    (∀ pre post bytes, t.log = post ++ .given (.data bytes true) :: pre → given pre ++ bytes = accepted t.log) ∧
    (∀ pre post bytes g, t.log = post ++ .given (.data bytes true) :: pre → .given g ∈ post →
      ∃ reason, g = .reset reason) ∧
    (∀ pre post e g, isReset e = true → t.log = post ++ e :: pre → .given g ∉ post) ∧
    (∀ pre post bytes eos, t.log = post ++ .given (.data bytes eos) :: pre → Asked pre) ∧
    (orderly (new tx resettable) ops = true →
      (∀ pre post bytes g, t.log = post ++ .given (.data bytes true) :: pre → .given g ∉ post) ∧
      ∀ pre post n, t.log = post ++ .answered .shutdown (.ready (.ok n)) :: pre → Ended pre) := by
  intro t
  have ht : Inv t := run_inv tx resettable ops
  have htied : Tied tx.given t :=
    foldlRecOn (motive := Tied tx.given) ops step rfl fun _ h op _ => h.step op
  have hafter : ∀ pre post bytes g, t.log = post ++ .given (.data bytes true) :: pre → .given g ∈ post →
      ∃ reason, g = .reset reason := by
    intro pre post bytes g hl hg
    have hlog : Log.Ok Justified (post ++ .given (.data bytes true) :: pre) := hl ▸ ht.log
    refine hlog.later (P := fun e => ∀ g, e = .given g → ∃ reason, g = .reset reason) (fun e m he g hx => ?_) _ hg g rfl
    subst hx
    cases g with
    | data b eos => exact absurd ⟨bytes, by simp⟩ he.2.1
    | trailers fields => exact absurd ⟨bytes, by simp⟩ he.2
    | reset reason => exact ⟨reason, rfl⟩
  refine ⟨htied, ?_, fun pre post bytes hl => ?_, hafter, fun pre post e g hr hl hg => ?_,
    fun pre post bytes eos hl => ?_, fun ho => ?_⟩
  · obtain ⟨rest, hb, -⟩ := ht.bytes
    exact ⟨rest, hb.symm⟩
  · have hlog : Log.Ok Justified (post ++ .given (.data bytes true) :: pre) := hl ▸ ht.log
    have hnone := hlog.later (P := fun e => acceptedBy e = []) fun e m he => ?_
    · rw [accepted, hl, Log.gather_append_of_later hnone]
      exact (hlog.split.2.2.2 rfl).trans (append_nil _).symm
    · unfold acceptedBy
      split
      · exact he.resolve_right fun hn => hn ⟨bytes, by simp⟩
      · rfl
  · have hlog : Log.Ok Justified (post ++ e :: pre) := hl ▸ ht.log
    have hreset : ∀ m, Reset (m ++ e :: pre) := fun m => ⟨e, by simp, hr⟩
    refine hlog.later (P := fun e => ∀ g, e ≠ .given g) (fun e' m he g hx => ?_) _ hg g rfl
    subst hx
    cases g with
    | data b eos => exact he.1 (hreset m)
    | trailers fields => exact he.1 (hreset m)
    | reset r => exact he (hreset m)
  · have hlog : Log.Ok Justified (post ++ .given (.data bytes eos) :: pre) := hl ▸ ht.log
    exact hlog.split.2.2.1
  · have htold := ((new_honest tx resettable).run (new_inv tx resettable) ho).log
    refine ⟨fun pre post bytes g hl hg => ?_, fun pre post n hl => ?_⟩
    · obtain ⟨reason, rfl⟩ := hafter pre post bytes g hl hg
      have hlog : Log.Ok Told (post ++ .given (.data bytes true) :: pre) := hl ▸ htold
      refine hlog.later (P := (· ≠ .given (.reset reason))) (fun e m he hx => ?_) _ hg rfl
      subst hx
      exact he ⟨bytes, by simp⟩
    · have hlog : Log.Ok Told (post ++ .answered .shutdown (.ready (.ok n)) :: pre) := hl ▸ htold
      exact hlog.split

/-- A stream that takes everything, if the peer does not reset it. -/
def willing (reset : ResetEv) : SendStream :=
  .fresh (Stream'.const reset) (Stream'.const 1) (Stream'.const .pending) (Stream'.const (.ok ()))

/-- A byte is written and given, and the stream is shut down. The task ends when the application has dropped its
half, and is dropped. -/
def closingRun : List Op :=
  [.call (.write [97]), .go, .poll, .pump, .pump, .pump, .pump, .pump, .pump, .call .shutdown, .go, .poll, .pump, .pump,
    .call .shutdown, .go, .pump, .dropIo, .dropSlot, .poll, .pump, .drop, .pump, .pump]

theorem writes_in_order_closing : orderly (new (willing .pending) true) closingRun = true ∧
    ((new (willing .pending) true).run closingRun).tx.given = [.data [] true, .data [97] false] ∧
    (∀ pre post n, ((new (willing .pending) true).run closingRun).log =
      post ++ .answered .shutdown (.ready (.ok n)) :: pre → Ended pre) ∧
    .answered .shutdown (.ready (.ok 0)) ∈ ((new (willing .pending) true).run closingRun).log := by
  have ho : orderly (new (willing .pending) true) closingRun = true := by decide
  obtain ⟨-, -, -, -, -, -, horderly⟩ := writes_in_order (willing .pending) true closingRun
  exact ⟨ho, by decide, (horderly ho).2, by decide⟩

/-- **A shutdown that is done without END_STREAM.** First a byte was accepted, and the task is dropped before
it was given to the stream. Then the peer resets the stream, the task ends with that error and is dropped, and a
write has reported the error. -/
theorem shuts_down_without_end :
    ((new (willing .pending) false).run
      [.call (.write [97]), .go, .drop, .pump, .pump, .call .shutdown, .go]).log =
        [.answered .shutdown (.ready (.ok 0)), .answered (.write [97]) (.ready (.ok 1))] ∧
    ((new (willing (.reset 8)) false).run
      [.poll, .pump, .pump, .drop, .pump, .pump, .call (.write [97]), .go, .call .shutdown, .go]).log =
        [.answered .shutdown (.ready (.ok 0)),
          .answered (.write [97]) (.ready (.error (.other (.newBodyWrite (.h2 (some 8)))))), .polled (.reset 8)] := by
  decide

end Netty.H2.Tunnel
