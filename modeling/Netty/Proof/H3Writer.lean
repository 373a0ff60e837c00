import Netty.Log.Basic
import Netty.Spec.H3Writer

/-!
# Writes, flushes and the finish of an HTTP/3 tunnel are in order

The commands on their way (the finish that was taken over, the one in the hands of the task, the
one in the channel) are a queue. At most its last one is a flush or a finish, and while it is
there nothing else is accepted.

* `accepted`, `given`, `readyAgain`: what a log says.
* `Justified`: what has to have happened before an event.
* `Inv`: the invariant, with the queue.
* `writes_linearised`: **every run of the application and the task.**
-/

namespace Netty.H3.Tunnel

open List Option Function

variable {t t' : Tunnel} {l l' : List TunnelEv}

/-! ## Logs -/

def acceptedBy : TunnelEv → Bytes
  | .answered (.write buf) (.ready (.ok n)) => buf.take n
  | _ => []

def givenBy : TunnelEv → Bytes
  | .given bytes | .refused bytes => bytes
  | _ => []

/-- What the stream has taken. -/
def took : TunnelEv → Option Given
  | .given bytes => some (.data bytes)
  | .fin => some .fin
  | _ => none

/-- All bytes that were accepted, in order. -/
def accepted : List TunnelEv → Bytes
  | [] => []
  | e :: l => accepted l ++ acceptedBy e

/-- All bytes that were given, in order. -/
def given : List TunnelEv → Bytes
  | [] => []
  | e :: l => given l ++ givenBy e

/-- The stream has reported that it is ready since it was last given data. -/
def readyAgain : List TunnelEv → Bool
  | [] => true
  | .ready :: _ => true
  | .given _ :: _ | .refused _ :: _ => false
  | _ :: l => readyAgain l

/-- Everything accepted was given, and the stream was ready after it. -/
def Flushed (l : List TunnelEv) : Prop := given l = accepted l ∧ readyAgain l = true

def Justified : TunnelEv → List TunnelEv → Prop
  | .answered (.write buf) (.ready (.ok n)), l => buf.take n = [] ∨ .finishIssued ∉ l
  | .answered .flush (.ready (.ok _)), l => Flushed l
  | .answered .shutdown (.ready (.ok _)), l => .fin ∈ l
  | .fin, l => given l = accepted l ∧ .finishIssued ∈ l
  | _, _ => True

/-- Nothing is accepted after the finish command. -/
theorem accepted_append (h : Log.Ok Justified (l' ++ l)) (hi : .finishIssued ∈ l) :
    accepted (l' ++ l) = accepted l := by
  induction l' with
  | nil => rfl
  | cons x l' ih =>
    have hx : acceptedBy x = [] := by
      unfold acceptedBy
      split
      · exact h.1.resolve_right fun hn => hn (mem_append_right l' hi)
      · rfl
    rw [cons_append, accepted, hx, append_nil]
    exact ih h.2

/-! ## The queue -/

def command (finish : Bool) (ack : ℕ) : Write := if finish then .finish ack else .flush ack

def holding : Pump → Option Write
  | .got _ w => some w
  | _ => none

def queue (t : Tunnel) : List Write := (t.finish.map .finish).toList ++ (holding t.pump).toList ++ t.slot.toList

def bytesOf : List Write → Bytes
  | [] => []
  | .data bytes :: l => bytes ++ bytesOf l
  | _ :: l => bytesOf l

def late : Pump → Bool
  | .emptying | .releasing | .gone => true
  | _ => false

def emptied : Pump → Bool
  | .releasing | .gone => true
  | _ => false

/-- The task has nothing in its hands, and the channel is open. -/
def Free (p : Pump) : Prop := holding p = none ∧ late p = false

def PumpOk : Pump → List TunnelEv → Prop
  | .recv _, l | .got _ _, l => readyAgain l = true
  | .finished, l => .fin ∈ l
  | _, _ => True

variable {p : Pump}

theorem PumpOk.mono (h : PumpOk p l) (hr : readyAgain l = true → readyAgain l' = true) (hf : .fin ∈ l → .fin ∈ l') :
    PumpOk p l' := by
  cases p with
  | recv n => exact hr h
  | got n w => exact hr h
  | finished => exact hf h
  | _ => trivial

/-- **What goes with the acknowledgment that is waited for.** -/
def Waits (t : Tunnel) : Prop :=
  match t.pending with
  | none => ∃ ds : List Bytes, t.queue = ds.map .data
  | some (finish, ack) =>
    match t.acks ack with
    | .waiting => ∃ ds : List Bytes, t.queue = ds.map .data ++ [command finish ack]
    | .sent r => r = .ok () ∧ t.queue = [] ∧ Flushed t.log ∧ (finish = true → .fin ∈ t.log)
    | .dropped => t.queue = [] ∧ t.closed = true

/-- After the finish command nothing is sent. -/
def Issued (t : Tunnel) : Prop :=
  (∀ c, t.caller ≠ .send c) ∧ (∀ c, t.caller = .reserve c → t.closed = true) ∧
    ((∃ ack, t.pending = some (true, ack)) ∨ t.pending = none ∧ (t.shutdown = true ∨ t.closed = true))

/-- After FIN, and when it is about to be submitted, there is nothing on its way. -/
def Submitted (t : Tunnel) : Prop :=
  t.slot = none ∧ holding t.pump = none ∧ Flushed t.log ∧ .finishIssued ∈ t.log

/-- **The invariant.** -/
structure Inv (t : Tunnel) : Prop where
  bytes : accepted t.log = given t.log ++ t.lost ++ bytesOf t.queue
  kept : emptied t.pump = false → t.lost = []
  closed : t.closed = late t.pump
  permit : t.reserved = true ↔ ∃ c, t.caller = .send c
  room : t.reserved = true → t.slot = none
  calling : t.pending.isSome = true → ∀ c, t.caller ≠ .reserve c ∧ t.caller ≠ .send c
  acking : ∀ c, t.caller = .ack c →
    (c = .flush ∧ ∃ ack, t.pending = some (false, ack)) ∨ (c = .shutdown ∧ ∃ ack, t.pending = some (true, ack))
  waits : t.Waits
  asked : ∀ ack, t.pending = some (true, ack) → .finishIssued ∈ t.log
  issued : .finishIssued ∈ t.log → t.Issued
  submitted : t.finish.isSome = true ∨ .fin ∈ t.log → t.Submitted
  shut : t.shutdown = true → .fin ∈ t.log
  pump : PumpOk t.pump t.log
  log : Log.Ok Justified t.log

theorem new_inv (send : SendGuard) : Inv (new send) where
  bytes := rfl
  kept := fun _ => rfl
  closed := rfl
  permit := ⟨nofun, nofun⟩
  room := nofun
  calling := nofun
  acking := nofun
  waits := ⟨[], rfl⟩
  asked := nofun
  issued := nofun
  submitted := nofun
  shut := nofun
  pump := trivial
  log := trivial

section Waits

variable {finish : Bool} {ack : ℕ}

theorem Waits.none (hp : t.pending = none) (ds : List Bytes) (hq : t.queue = ds.map .data) : Waits t := by
  rw [Waits, hp]; exact ⟨ds, hq⟩

section

variable (hp : t.pending = some (finish, ack))

include hp

theorem Waits.waiting (ha : t.acks ack = .waiting) {ds : List Bytes}
    (hq : t.queue = ds.map .data ++ [command finish ack]) : Waits t := by
  simp only [Waits, hp, ha]; exact ⟨ds, hq⟩

theorem Waits.sent (ha : t.acks ack = .sent (.ok ())) (hq : t.queue = [])
    (hf : Flushed t.log) (hfin : finish = true → .fin ∈ t.log) : Waits t := by
  simp only [Waits, hp, ha]; exact ⟨trivial, hq, hf, hfin⟩

theorem Waits.dropped (ha : t.acks ack = .dropped) (hq : t.queue = [])
    (hc : t.closed = true) : Waits t := by
  simp only [Waits, hp, ha]; exact ⟨hq, hc⟩

end

end Waits

theorem Waits.congr (h : Waits t) (hp : t'.pending = t.pending) (ha : t'.acks = t.acks) (hq : t'.queue = t.queue)
    (hc : t.closed = true → t'.closed = true) (hf : Flushed t.log → Flushed t'.log)
    (hfin : .fin ∈ t.log → .fin ∈ t'.log) : Waits t' := by
  unfold Waits at h ⊢
  rw [hp, ha, hq]
  split at h
  · exact h
  · split at h
    · exact h
    · exact ⟨h.1, h.2.1, hf h.2.2.1, fun hx => hfin (h.2.2.2 hx)⟩
    · exact ⟨h.1, hc h.2⟩

theorem Inv.record (h : Inv t) {e : TunnelEv} (hj : Justified e t.log) (ha : acceptedBy e = []) (hg : givenBy e = [])
    (hr : readyAgain t.log = true → readyAgain (e :: t.log) = true) (hi : e = .finishIssued → t.Issued)
    (hf : e = .fin → t.Submitted) : Inv (t.record e) := by
  have hacc : accepted (t.record e).log = accepted t.log := by
    show accepted t.log ++ _ = _
    rw [ha, append_nil]
  have hgiv : given (t.record e).log = given t.log := by
    show given t.log ++ _ = _
    rw [hg, append_nil]
  have hfl : Flushed t.log → Flushed (t.record e).log := fun hf => ⟨by rw [hacc, hgiv]; exact hf.1, hr hf.2⟩
  have hmem : ∀ x, x ∈ t.log → x ∈ (t.record e).log := fun x => mem_cons_of_mem _
  refine ⟨?_, h.kept, h.closed, h.permit, h.room, h.calling, h.acking, ?_,
    fun ack hp => hmem _ (h.asked ack hp), fun hx => ?_, fun hx => ?_, fun hx => hmem _ (h.shut hx),
    h.pump.mono hr (hmem _), ⟨hj, h.log⟩⟩
  · rw [hacc, hgiv]; exact h.bytes
  · exact h.waits.congr rfl rfl rfl id hfl (hmem _)
  · rcases mem_cons.1 hx with hx | hx
    · exact hi hx.symm
    · exact h.issued hx
  · have hs : t.Submitted := by
      rcases hx with hx | hx
      · exact h.submitted (.inl hx)
      · rcases mem_cons.1 hx with hx | hx
        · exact hf hx.symm
        · exact h.submitted (.inr hx)
    exact ⟨hs.1, hs.2.1, hfl hs.2.2.1, hmem _ hs.2.2.2⟩

/-! ## The application -/

def idle (t : Tunnel) : Tunnel := { t with caller := .idle }

theorem Inv.idle (h : Inv t) (hs : t.reserved = false) : Inv t.idle :=
  { h with
    permit := by simp [Tunnel.idle, hs]
    calling := fun _ _ => by simp [Tunnel.idle]
    acking := nofun
    waits := h.waits.congr rfl rfl rfl id id id
    issued := fun hi => ⟨by simp [Tunnel.idle], by simp [Tunnel.idle], (h.issued hi).2.2⟩ }

theorem Inv.answer (h : Inv t.idle) {call : Call} {r : Poll (Except TunnelError ℕ)}
    (hj : Justified (.answered call r) t.log) (ha : acceptedBy (.answered call r) = []) : Inv (t.answer call r) :=
  h.record hj ha rfl id nofun nofun

theorem Inv.settled (h : Inv t) (hs : t.reserved = false) (hq : t.queue = []) {shutdown : Bool}
    (hsh : shutdown = true → .fin ∈ t.log) (hi : .finishIssued ∈ t.log → shutdown = true ∨ t.closed = true) :
    Inv { t.idle with pending := none, shutdown := shutdown } :=
  { h.idle hs with
    calling := nofun
    waits := ⟨[], hq⟩
    asked := nofun
    issued := fun hm => ⟨by simp [Tunnel.idle], by simp [Tunnel.idle], .inr ⟨rfl, hi hm⟩⟩
    shut := hsh
    acking := fun _ hc => by cases hc }

/-- **What `poll_ack` does**, by what it answers. -/
inductive Acked (t : Tunnel) : Poll (Except TunnelError Unit) × Tunnel → Prop where
  | pending : Acked t (.pending, t)
  | error (e : TunnelError) (t' : Tunnel) : Inv t'.idle → t'.reserved = false → Acked t (.ready (.error e), t')
  | ok (t' : Tunnel) : Inv t'.idle → t'.reserved = false → t'.pending = none → t'.log = t.log →
      (∀ finish ack, t.pending = some (finish, ack) → Flushed t.log ∧ (finish = true → .fin ∈ t.log)) →
      Acked t (.ready (.ok ()), t')

theorem Inv.pollAck (h : Inv t) (hs : t.reserved = false) : Acked t t.pollAck := by
  have hw := h.waits
  unfold Tunnel.pollAck
  unfold Waits at hw
  cases hp : t.pending with
  | none =>
    refine .ok t (h.idle hs) hs hp rfl fun finish ack hc => ?_
    rw [hp] at hc
    cases hc
  | some x =>
    obtain ⟨finish, ack⟩ := x
    simp only [hp] at hw ⊢
    cases ha : t.acks ack with
    | waiting => exact .pending
    | dropped =>
      simp only [ha] at hw
      exact .error _ _ (h.settled hs hw.1 h.shut fun _ => .inr hw.2) hs
    | sent r =>
      simp only [ha] at hw
      obtain ⟨rfl, hq, hf, hfin⟩ := hw
      refine .ok _ (h.settled hs hq (fun hx => ?_) fun hi => ?_) hs rfl rfl fun f a hc => ?_
      · rcases Bool.or_eq_true _ _ ▸ hx with hx | hx
        · exact h.shut hx
        · exact hfin hx
      · rcases (h.issued hi).2.2 with ⟨a, hpa⟩ | ⟨hpn, -⟩
        · rw [hp] at hpa
          cases hpa
          exact .inl (by simp)
        · rw [hp] at hpn
          cases hpn
      · rw [hp] at hc
        cases hc
        exact ⟨hf, hfin⟩

theorem Inv.refuse (h : Inv t.idle) (call : Call) {r : Poll (Except TunnelError ℕ)}
    (hr : ∀ n, r ≠ .ready (.ok n)) : Inv (t.answer call r) := by
  refine Inv.answer h ?_ ?_
  · unfold Justified
    split
    · rename_i heq; cases heq; exact absurd rfl (hr _)
    · rename_i heq; cases heq; exact absurd rfl (hr _)
    · rename_i heq; cases heq; exact absurd rfl (hr _)
    · rename_i heq; cases heq
    · trivial
  · unfold acceptedBy
    split
    · rename_i heq; cases heq; exact absurd rfl (hr _)
    · rfl

theorem Inv.whenAcked (h : Inv t) (hs : t.reserved = false) {call : Call} {k : Tunnel → Tunnel}
    (hk : ∀ t', Inv t'.idle → t'.reserved = false → t'.pending = none → t'.log = t.log →
      (∀ finish ack, t.pending = some (finish, ack) → Flushed t.log ∧ (finish = true → .fin ∈ t.log)) → Inv (k t')) :
    Inv (t.whenAcked call k) := by
  unfold Tunnel.whenAcked
  have hx := h.pollAck hs
  generalize t.pollAck = x at hx ⊢
  cases hx with
  | pending => exact Inv.refuse (h.idle hs) call (by simp)
  | error e t' hi hs' => exact Inv.refuse hi call (by simp)
  | ok t' hi hs' hp hl hj => exact hk t' hi hs' hp hl hj

theorem Inv.reserve (h : Inv t.idle) (hs : t.reserved = false) (hp : t.pending = none) (hsh : t.shutdown = false)
    (call : Call) : Inv { t with caller := .reserve call } := by
  refine { h with
    permit := by simp [hs]
    calling := fun hx => by rw [hp] at hx; cases hx
    acking := nofun
    waits := h.waits.congr rfl rfl rfl id id id
    issued := fun hi => ?_ }
  obtain ⟨-, -, hx⟩ := h.issued hi
  refine ⟨by simp, fun _ _ => ?_, hx⟩
  rcases hx with ⟨ack, hx⟩ | ⟨-, hx | hx⟩
  · cases hp ▸ hx
  · cases hsh ▸ hx
  · exact hx

theorem Inv.pollWrite (h : Inv t) (hs : t.reserved = false) (buf : Bytes) : Inv (t.pollWrite buf) := by
  refine h.whenAcked hs fun t' hi hs' hp _ _ => ?_
  split
  · exact Inv.refuse hi _ (by simp)
  · rename_i hsh
    split
    · exact Inv.answer hi (.inl (take_zero (l := buf))) (take_zero (l := buf))
    · exact Inv.reserve hi hs' hp (by simpa using hsh) _

theorem Inv.barrier (h : Inv t.idle) (hs : t.reserved = false) (hp : t.pending = none) {call : Call}
    (hc : call = .flush ∨ call = .shutdown) : Inv (t.barrier call) := by
  unfold Tunnel.barrier
  split
  · rename_i hsh
    have hfin := h.shut hsh
    refine Inv.answer h ?_ ?_
    · rcases hc with rfl | rfl
      · exact (h.submitted (.inr hfin)).2.2.1
      · exact hfin
    · rcases hc with rfl | rfl <;> rfl
  · rename_i hsh
    exact Inv.reserve h hs hp (by simpa using hsh) _

variable {finish : Bool}

theorem Inv.pollBarrier (h : Inv t) (hs : t.reserved = false) {call : Call}
    (hc : call = .flush ∧ finish = false ∨ call = .shutdown ∧ finish = true) : Inv (t.pollBarrier call finish) := by
  have hc' : call = .flush ∨ call = .shutdown := hc.imp And.left And.left
  unfold Tunnel.pollBarrier
  split
  · rename_i pendingFinish ack hpend
    refine h.whenAcked hs fun t' hi hs' hp hl hj => ?_
    obtain ⟨hflushed, hfin⟩ := hj _ _ hpend
    split
    · rename_i hx
      refine Inv.answer hi ?_ ?_
      · rcases hc with ⟨rfl, rfl⟩ | ⟨rfl, rfl⟩
        · show Flushed t'.log
          rw [hl]; exact hflushed
        · show .fin ∈ t'.log
          rw [hl]; exact hfin (by simpa using hx)
      · rcases hc' with rfl | rfl <;> rfl
    · exact Inv.barrier hi hs' hp hc'
  · exact Inv.barrier (h.idle hs) hs ‹_› hc'

theorem Inv.not_reserved (h : Inv t) (hc : ∀ c, t.caller ≠ .send c) : t.reserved = false := by
  rw [Bool.eq_false_iff]
  intro hr
  obtain ⟨c, hsend⟩ := h.permit.1 hr
  exact hc c hsend

theorem Inv.call (h : Inv t) (hc : t.caller = .idle) (c : Call) : Inv (t.call c) := by
  have hs := h.not_reserved fun c' hc' => by rw [hc] at hc'; cases hc'
  cases c with
  | write buf => exact h.pollWrite hs buf
  | flush => exact h.pollBarrier hs (.inl ⟨rfl, rfl⟩)
  | shutdown => exact h.pollBarrier hs (.inr ⟨rfl, rfl⟩)

theorem Inv.pollReserve (h : Inv t) {call : Call} (hc : t.caller = .reserve call) : Inv (t.pollReserve call) := by
  have hs := h.not_reserved fun c' hc' => by rw [hc] at hc'; cases hc'
  unfold Tunnel.pollReserve
  split
  · exact Inv.refuse (h.idle hs) _ (by simp)
  · rename_i hcl
    split
    · rename_i hroom
      have hslot : t.slot = none := by simpa [hs] using hroom
      have hpend : t.pending = none := by
        by_contra hne
        exact (h.calling (isSome_iff_ne_none.2 hne) call).1 hc
      refine ⟨h.bytes, h.kept, h.closed, by simp, fun _ => hslot, fun hx => ?_, nofun, ?_,
        h.asked, fun hi => ?_, h.submitted, h.shut, h.pump, h.log⟩
      · rw [hpend] at hx
        cases hx
      · exact h.waits.congr rfl rfl rfl id id id
      · exact absurd ((h.issued hi).2.1 call hc) hcl
    · exact Inv.refuse (h.idle hs) _ (by simp)

theorem queue_slot (hs : t.slot = none) (w : Write) (hf : t'.finish = t.finish) (hp : t'.pump = t.pump)
    (hw : t'.slot = some w) : t'.queue = t.queue ++ [w] := by
  simp [queue, hs, hf, hp, hw]

theorem bytesOf_append (l l' : List Write) : bytesOf (l ++ l') = bytesOf l ++ bytesOf l' := by
  induction l with
  | nil => rfl
  | cons w l ih => cases w <;> simp [bytesOf, ih]

/-- What holds when a command is about to be sent. -/
structure Sending (t : Tunnel) : Prop where
  slot : t.slot = none
  pending : t.pending = none
  issued : .finishIssued ∉ t.log
  finish : t.finish = none
  fin : .fin ∉ t.log
  queue : ∃ ds : List Bytes, t.queue = ds.map .data

theorem Inv.sending (h : Inv t) {call : Call} (hc : t.caller = .send call) : Sending t := by
  have hpend : t.pending = none := by
    by_contra hne
    exact (h.calling (isSome_iff_ne_none.2 hne) call).2 hc
  have hni : .finishIssued ∉ t.log := fun hi => (h.issued hi).1 call hc
  have hns : ¬(t.finish.isSome = true ∨ .fin ∈ t.log) := fun hx => hni (h.submitted hx).2.2.2
  refine ⟨h.room (h.permit.2 ⟨call, hc⟩), hpend, hni, ?_, fun hx => hns (.inr hx), ?_⟩
  · by_contra hne
    exact hns (.inl (isSome_iff_ne_none.2 hne))
  · have := h.waits
    rwa [Waits, hpend] at this

theorem Inv.sendData (h : Inv t) (hs : Sending t) (buf : Bytes) : Inv (t.sendItem (.write buf)) := by
  obtain ⟨ds, hq⟩ := hs.queue
  have hq' : (t.sendItem (.write buf)).queue = t.queue ++ [.data (buf.take (min buf.length chunkSize))] :=
    queue_slot hs.slot _ rfl rfl rfl
  refine ⟨?_, h.kept, h.closed, by simp [Tunnel.sendItem, Tunnel.answer, Tunnel.record], nofun,
    fun hx => ?_,
    nofun, ?_, fun ack hx => ?_, fun hi => ?_, fun hx => ?_, fun hx => ?_, ?_,
    ⟨.inr hs.issued, h.log⟩⟩
  · rw [hq', bytesOf_append]
    show accepted t.log ++ buf.take _ = (given t.log ++ []) ++ t.lost ++ _
    rw [h.bytes]
    simp [bytesOf]
  · cases hs.pending ▸ hx
  · exact Waits.none hs.pending (ds ++ [buf.take (min buf.length chunkSize)]) (by rw [hq', hq]; simp)
  · cases hs.pending ▸ hx
  · exact absurd ((mem_cons.1 hi).resolve_left (by simp)) hs.issued
  · rcases hx with hx | hx
    · cases hs.finish ▸ hx
    · exact absurd ((mem_cons.1 hx).resolve_left (by simp)) hs.fin
  · exact absurd (h.shut hx) hs.fin
  · exact h.pump.mono id (mem_cons_of_mem _)

/-- A flush or a finish is sent, and the latter is noted. -/
theorem Inv.sendBarrier (h : Inv t) (hs : Sending t) {call : Call}
    (hc : call = .flush ∧ finish = false ∨ call = .shutdown ∧ finish = true) :
    Inv { t.sendBarrier call (command finish) finish with
      log := (if finish then [TunnelEv.finishIssued] else []) ++ t.log } := by
  obtain ⟨ds, hq⟩ := hs.queue
  set t' := { t.sendBarrier call (command finish) finish with
    log := (if finish then [TunnelEv.finishIssued] else []) ++ t.log } with ht'
  have hq' : t'.queue = t.queue ++ [command finish t.issued] := queue_slot hs.slot _ rfl rfl rfl
  have hb : bytesOf [command finish t.issued] = [] := by cases finish <;> rfl
  have hcall : t'.caller = .ack call := rfl
  have hnf : .fin ∉ t'.log := by
    rw [ht']
    cases finish <;> simp [hs.fin]
  have hlog : accepted t'.log = accepted t.log ∧ given t'.log = given t.log ∧ readyAgain t'.log = readyAgain t.log ∧
      (Log.Ok Justified t.log → Log.Ok Justified t'.log) := by
    rw [ht']
    cases finish <;> simp [accepted, given, readyAgain, Log.Ok, Justified, acceptedBy, givenBy]
  refine ⟨?_, h.kept, h.closed, by simp [hcall]; rfl, nofun, fun _ _ => by simp [hcall],
    fun c hx => ?_, ?_, fun ack hx => ?_, fun hi => ?_, fun hx => ?_, fun hx => absurd (h.shut hx) hs.fin,
    h.pump.mono (fun hr => hlog.2.2.1 ▸ hr) fun hx => absurd hx hs.fin, hlog.2.2.2 h.log⟩
  · rw [hq', bytesOf_append, hb, append_nil, hlog.1, hlog.2.1]
    exact h.bytes
  · obtain rfl : call = c := by simpa [hcall] using hx
    exact hc.imp (fun hc => ⟨hc.1, t.issued, by rw [← hc.2]; rfl⟩) fun hc => ⟨hc.1, t.issued, by rw [← hc.2]; rfl⟩
  · exact Waits.waiting rfl (update_self ..) (by rw [hq', hq])
  · obtain rfl : finish = true := (Prod.mk.inj (some.inj hx)).1
    exact mem_cons_self ..
  · refine ⟨by simp [hcall], by simp [hcall], .inl ⟨t.issued, ?_⟩⟩
    cases finish with
    | false => exact absurd hi hs.issued
    | true => rfl
  · rcases hx with hx | hx
    · cases hs.finish ▸ hx
    · exact absurd hx hnf

theorem Inv.sendItem (h : Inv t) {call : Call} (hc : t.caller = .send call) : Inv (t.sendItem call) := by
  have hs := h.sending hc
  cases call with
  | write buf => exact h.sendData hs buf
  | flush => exact h.sendBarrier hs (.inl ⟨rfl, rfl⟩)
  | shutdown =>
    have hb : Inv { t.sendBarrier .shutdown (command true) true with log := .finishIssued :: t.log } :=
      h.sendBarrier hs (.inr ⟨rfl, rfl⟩)
    exact hb

theorem Inv.go (h : Inv t) : Inv t.go := by
  unfold Tunnel.go
  split
  · exact h
  · exact h.pollReserve ‹_›
  · exact h.sendItem ‹_›
  · rename_i call hc
    have hs := h.not_reserved fun c' hc' => by rw [hc] at hc'; cases hc'
    refine h.whenAcked hs fun t' hi hs' hp hl hj => Inv.answer hi ?_ ?_
    · rcases h.acking call hc with ⟨rfl, ack, hpa⟩ | ⟨rfl, ack, hpa⟩
      · show Flushed t'.log
        rw [hl]; exact (hj _ _ hpa).1
      · show .fin ∈ t'.log
        rw [hl]; exact (hj _ _ hpa).2 rfl
    · rcases h.acking call hc with ⟨rfl, -⟩ | ⟨rfl, -⟩ <;> rfl

/-! ## The task -/

theorem emptied_of_late (h : late p = false) : emptied p = false := by cases p <;> first | rfl | cases h

theorem Inv.not_lost (h : Inv t) (hl : late t.pump = false) : t.lost = [] := h.kept (emptied_of_late hl)

/-- **The task goes on** with nothing in its hands, and without a word. -/
theorem Inv.onto (h : Inv t) (hh : holding t.pump = none) (send : SendGuard) (hp : holding p = none)
    (hl : late p = late t.pump) (hk : emptied p = false → emptied t.pump = false) (hok : PumpOk p t.log) :
    Inv ((t.setSend send).setPump p) := by
  have hq : ((t.setSend send).setPump p).queue = t.queue := by simp [queue, setSend, setPump, hh, hp]
  refine ⟨?_, fun he => h.kept (hk he), h.closed.trans hl.symm, h.permit, h.room, h.calling, h.acking,
    h.waits.congr rfl rfl hq id id id, h.asked, h.issued, fun hx => ?_, h.shut, hok, h.log⟩
  · rw [hq]; exact h.bytes
  · obtain ⟨h1, -, h3, h4⟩ := h.submitted hx
    exact ⟨h1, hp, h3, h4⟩

section

variable (h : Inv t) (hf : Free t.pump)

include h hf

theorem Inv.goto (send : SendGuard) (hp : Free p) (hok : PumpOk p t.log) :
    Inv ((t.setSend send).setPump p) :=
  h.onto hf.1 send hp.1 (hp.2.trans hf.2.symm) (fun _ => emptied_of_late hf.2) hok

theorem Inv.leave (send : SendGuard) (x : Option (Except StreamError Unit)) :
    Inv ((t.setSend send).leave x) := by
  unfold Tunnel.leave
  split <;> exact h.goto hf send ⟨rfl, rfl⟩ trivial

theorem Inv.poll : Inv t.poll := by
  unfold Tunnel.poll
  split
  · exact h.leave hf _ _
  · exact h.goto hf t.send ⟨rfl, rfl⟩ trivial

theorem Inv.await (rounds : ℕ) : Inv (t.await rounds) := by
  unfold Tunnel.await
  split
  · exact h.leave hf _ _
  · split
    · exact h.goto hf _ ⟨rfl, rfl⟩ trivial
    · exact h.goto hf _ ⟨rfl, rfl⟩ trivial
    · have hr : Inv (t.record .ready) := h.record trivial rfl rfl (fun _ => rfl) nofun
        nofun
      exact hr.goto hf _ ⟨rfl, rfl⟩ rfl

theorem Inv.submit (hs : t.finish.isSome = true) : Inv t.submit := by
  unfold Tunnel.submit
  split
  · exact h.leave hf _ _
  · split
    · exact h.goto hf _ ⟨rfl, rfl⟩ trivial
    · exact h.goto hf _ ⟨rfl, rfl⟩ trivial
    · have hs := h.submitted (.inl hs)
      have hr : Inv (t.record .fin) := h.record ⟨hs.2.2.1.1, hs.2.2.2⟩ rfl rfl id nofun fun _ => hs
      exact hr.goto hf _ ⟨rfl, rfl⟩ (mem_cons_self ..)

end

variable {w : Write}

theorem Inv.take (h : Inv t) {rounds : ℕ} (hp : t.pump = .recv rounds) (hs : t.slot = some w) :
    Inv { t with slot := none, pump := .got rounds w } := by
  have hq : queue { t with slot := none, pump := .got rounds w } = t.queue := by simp [queue, holding, hp, hs]
  have hr : readyAgain t.log = true := by
    have := h.pump
    rwa [hp] at this
  refine ⟨?_, fun _ => h.not_lost (by rw [hp]; rfl), by rw [h.closed, hp]; rfl, h.permit, fun _ => rfl, h.calling,
    h.acking,
    h.waits.congr rfl rfl hq id id id, h.asked, h.issued, fun hx => ?_, h.shut, hr, h.log⟩
  · rw [hq]; exact h.bytes
  · cases (h.submitted hx).1 ▸ hs

theorem Inv.pollRecv (h : Inv t) {rounds : ℕ} (hp : t.pump = .recv rounds) : Inv (t.pollRecv rounds) := by
  unfold Tunnel.pollRecv
  split
  · exact h.take hp ‹_›
  · split <;> exact h.goto (hp ▸ ⟨rfl, rfl⟩) t.send ⟨rfl, rfl⟩ trivial

theorem map_data_head {ds : List Bytes} {l rest : List Write} (h : ds.map Write.data ++ l = w :: rest)
    (hw : ∀ b, w ≠ .data b) : ds = [] := by
  cases ds with
  | nil => rfl
  | cons d ds => exact absurd (List.cons.inj h).1.symm (hw d)

/-- **A command that is acknowledged** and comes next is the only one on its way, and it is the one
that is waited for. -/
theorem Waits.head (h : Waits t) {rest : List Write} (hq : t.queue = w :: rest) (hw : ∀ b, w ≠ .data b) :
    rest = [] ∧ ∃ finish ack, w = command finish ack ∧ t.pending = some (finish, ack) ∧ t.acks ack = .waiting := by
  unfold Waits at h
  split at h
  · obtain ⟨ds, hd⟩ := h
    rw [hq, ← append_nil (ds.map _)] at hd
    rw [map_data_head hd.symm hw] at hd
    cases hd
  · rename_i finish ack hp
    split at h
    · rename_i ha
      obtain ⟨ds, hd⟩ := h
      rw [hq] at hd
      rw [map_data_head hd.symm hw] at hd
      obtain ⟨rfl, rfl⟩ := List.cons.inj hd
      exact ⟨rfl, finish, ack, rfl, hp, ha⟩
    · cases hq.symm.trans h.2.1
    · cases hq.symm.trans h.1

theorem Waits.tail (h : Waits t) {b : Bytes} (hq : t.queue = .data b :: t'.queue) (hp : t'.pending = t.pending)
    (ha : t'.acks = t.acks) : Waits t' := by
  unfold Waits at h
  split at h
  · rename_i hn
    obtain ⟨_ | ⟨d, ds⟩, hd⟩ := h
    · cases hq.symm.trans hd
    · exact Waits.none (hp.trans hn) ds (List.cons.inj (hq.symm.trans hd)).2
  · rename_i finish ack hn
    split at h
    · rename_i hack
      obtain ⟨_ | ⟨d, ds⟩, hd⟩ := h
      · have := (List.cons.inj (hq.symm.trans hd)).1
        cases finish <;> cases this
      · exact Waits.waiting (hp.trans hn) (by rw [ha]; exact hack) (List.cons.inj (hq.symm.trans hd)).2
    · cases hq.symm.trans h.2.1
    · cases hq.symm.trans h.1

variable {ack : ℕ}

/-- **The acknowledgment comes**, or never will, and nothing is on its way any more. -/
theorem Inv.resolve (h : Inv t) (hp : t.pending = some (finish, ack)) (hb : bytesOf t.queue = []) {x : Ack}
    (hx : (x = .sent (.ok ()) ∧ Flushed t.log ∧ (finish = true → .fin ∈ t.log)) ∨ (x = .dropped ∧ t.closed = true))
    (hh : holding p = none) (hl : late p = late t.pump) (hk : emptied p = false → emptied t.pump = false)
    (hok : PumpOk p t.log) :
    Inv { t with acks := update t.acks ack x, slot := none, finish := none, pump := p } := by
  have hq : queue { t with acks := update t.acks ack x, slot := none, finish := none, pump := p } = [] := by
    simp [queue, hh]
  refine ⟨?_, fun he => h.kept (hk he), h.closed.trans hl.symm, h.permit, fun _ => rfl, h.calling, h.acking, ?_,
    h.asked,
    h.issued, fun hf => ?_, h.shut, hok, h.log⟩
  · have := h.bytes
    rw [hb] at this
    rw [hq]
    exact this
  · rcases hx with ⟨rfl, hf, hfin⟩ | ⟨rfl, hc⟩
    · exact Waits.sent hp (update_self ..) hq hf hfin
    · exact Waits.dropped hp (update_self ..) hq hc
  · have hs := h.submitted (hf.imp nofun id)
    exact ⟨rfl, hh, hs.2.2⟩

section Got

variable {rounds : ℕ} {w : Write}

theorem Inv.got_queue (h : Inv t) (hp : t.pump = .got rounds w) :
    t.finish = none ∧ .fin ∉ t.log ∧ t.queue = w :: t.slot.toList := by
  have hns : ¬(t.finish.isSome = true ∨ .fin ∈ t.log) := fun hx => by
    have := (h.submitted hx).2.1
    rw [hp] at this
    cases this
  have hf : t.finish = none := by
    by_contra hne
    exact hns (.inl (isSome_iff_ne_none.2 hne))
  exact ⟨hf, fun hx => hns (.inr hx), by simp [queue, hf, hp, holding]⟩

theorem Inv.give (h : Inv t) {b : Bytes} (hp : t.pump = .got rounds (.data b)) (send : SendGuard) {p : Pump}
    (hh : holding p = none) (hl : late p = false) (hok : ∀ l, PumpOk p l) {e : TunnelEv}
    (he : e = .given b ∨ e = .refused b) : Inv (((t.setSend send).setPump p).record e) := by
  obtain ⟨hf, hfin, hq⟩ := h.got_queue hp
  have hl' : late t.pump = false := by rw [hp]; rfl
  have hq' : (((t.setSend send).setPump p).record e).queue = t.slot.toList := by
    simp [queue, setSend, setPump, Tunnel.record, hf, hh]
  have hmem : ∀ x, x ∈ t.log → x ∈ e :: t.log := fun x => mem_cons_of_mem _
  have hj : Justified e t.log := by rcases he with rfl | rfl <;> trivial
  refine ⟨?_, fun _ => h.not_lost hl', h.closed.trans (hl'.trans hl.symm), h.permit, h.room, h.calling, h.acking,
    h.waits.tail (hq.trans (by rw [hq'])) rfl rfl, fun ack hx => hmem _ (h.asked ack hx), fun hi => ?_, fun hx => ?_,
    fun hx => absurd (h.shut hx) hfin, hok _, ⟨hj, h.log⟩⟩
  · have ha : acceptedBy e = [] := by rcases he with rfl | rfl <;> rfl
    have hg : givenBy e = b := by rcases he with rfl | rfl <;> rfl
    rw [hq']
    show accepted t.log ++ acceptedBy e = given t.log ++ givenBy e ++ t.lost ++ _
    rw [ha, hg, h.bytes, hq, h.not_lost hl']
    simp [bytesOf]
  · exact h.issued ((mem_cons.1 hi).resolve_left (by rcases he with rfl | rfl <;> simp))
  · rcases hx with hx | hx
    · cases hf ▸ hx
    · exact absurd ((mem_cons.1 hx).resolve_left (by rcases he with rfl | rfl <;> simp)) hfin

/-- A flush or a finish is in the hands of the task: everything accepted was given. -/
theorem Inv.got_command (h : Inv t) (hp : t.pump = .got rounds w) (hw : ∀ b, w ≠ .data b) :
    t.slot = none ∧ Flushed t.log ∧
      ∃ finish ack, w = command finish ack ∧ t.pending = some (finish, ack) ∧ t.acks ack = .waiting := by
  obtain ⟨hf, hfin, hq⟩ := h.got_queue hp
  obtain ⟨hs, finish, ack, rfl, hpend, hack⟩ := h.waits.head hq hw
  have hslot : t.slot = none := by
    cases ht : t.slot with
    | none => rfl
    | some x => rw [ht] at hs; cases hs
  have hr : readyAgain t.log = true := by
    have := h.pump
    rwa [hp] at this
  refine ⟨hslot, ⟨?_, hr⟩, finish, ack, rfl, hpend, hack⟩
  rw [h.bytes, hq, hs, h.not_lost (by rw [hp]; rfl)]
  cases finish <;> simp [bytesOf, command]

theorem Inv.handle (h : Inv t) (hp : t.pump = .got rounds w) : Inv (t.handle rounds w) := by
  have hl : late t.pump = false := by rw [hp]; rfl
  cases w with
  | data b =>
    unfold handle
    simp only
    split
    · exact h.give (p := .top rounds) hp _ rfl rfl (fun _ => trivial) (.inl rfl)
    · exact h.give (p := .ended _) hp _ rfl rfl (fun _ => trivial) (.inr rfl)
  | flush ack =>
    obtain ⟨hslot, hflushed, finish, ack', hw, hpend, -⟩ := h.got_command hp (by simp)
    obtain ⟨hf, -, hq⟩ := h.got_queue hp
    obtain ⟨rfl, rfl⟩ : finish = false ∧ ack' = ack := by cases finish <;> simp_all [command]
    have hr := h.resolve (p := .top rounds) hpend (by rw [hq, hslot]; rfl)
      (.inl ⟨rfl, hflushed, nofun⟩) rfl hl.symm (fun _ => emptied_of_late hl) trivial
    have ht : t.handle rounds (.flush ack') =
        { t with
          acks := update t.acks ack' (.sent (.ok ()))
          slot := none, finish := none, pump := .top rounds } := by
      simp [handle, acknowledge, setPump, hslot, hf]
    rw [ht]
    exact hr
  | finish ack =>
    obtain ⟨hslot, hflushed, finish, ack', hw, hpend, -⟩ := h.got_command hp (by simp)
    obtain ⟨hf, hfin, hq⟩ := h.got_queue hp
    obtain ⟨rfl, rfl⟩ : finish = true ∧ ack' = ack := by cases finish <;> simp_all [command]
    have hq' : queue { t with finish := some ack', pump := .top rounds } = t.queue := by rw [hq]; simp [queue, holding]
    refine ⟨?_, fun _ => h.not_lost hl, h.closed.trans hl, h.permit, h.room, h.calling, h.acking,
      h.waits.congr rfl rfl hq' id id id, h.asked, h.issued, fun _ => ?_, h.shut, trivial, h.log⟩
    · exact h.bytes.trans (by rw [← hq']; rfl)
    · exact ⟨hslot, rfl, hflushed, h.asked _ hpend⟩

end Got

section

variable (h : Inv t)

include h

theorem Inv.acknowledgeFinish (hp : t.pump = .finished) : Inv t.acknowledgeFinish := by
  have hfree : Free t.pump := hp ▸ ⟨rfl, rfl⟩
  have hfin : .fin ∈ t.log := by
    have := h.pump
    rwa [hp] at this
  unfold Tunnel.acknowledgeFinish
  cases hf : t.finish with
  | none => exact h.leave hfree _ _
  | some ack =>
    obtain ⟨hslot, -, hflushed, -⟩ := h.submitted (.inr hfin)
    have hq : t.queue = [.finish ack] := by simp [queue, hf, hfree.1, hslot]
    obtain ⟨-, finish, ack', hw, hpend, -⟩ := h.waits.head hq (by simp)
    obtain ⟨rfl, rfl⟩ : finish = true ∧ ack' = ack := by cases finish <;> simp_all [command]
    have hr := h.resolve (p := t.pump) hpend (by rw [hq]; rfl) (.inl ⟨rfl, hflushed, fun _ => hfin⟩) hfree.1 rfl id
      h.pump
    have ht : { t.acknowledge ack' with finish := none } =
        { t with
          acks := update t.acks ack' (.sent (.ok ()))
          slot := none, finish := none, pump := t.pump } := by
      simp [acknowledge, hslot]
    simp only [ht]
    exact hr.leave hfree _ _

/-! ### The task is dropped -/

theorem Inv.drop (hf : Free t.pump) : Inv t.drop := h.goto hf _ ⟨rfl, rfl⟩ trivial

theorem Inv.close (hp : t.pump = .closing) : Inv { t with closed := true, pump := .emptying } := by
  have hq : queue { t with closed := true, pump := .emptying } = t.queue := by simp [queue, holding, hp]
  refine ⟨?_, fun _ => h.not_lost (by rw [hp]; rfl), rfl, h.permit, h.room, h.calling, h.acking,
    h.waits.congr rfl rfl hq (fun _ => rfl) id id, h.asked, fun hi => ?_, fun hx => ?_, h.shut, trivial, h.log⟩
  · rw [hq]; exact h.bytes
  · obtain ⟨h1, -, h3⟩ := h.issued hi
    exact ⟨h1, fun _ _ => rfl, h3.imp_right fun h3 => ⟨h3.1, .inr rfl⟩⟩
  · obtain ⟨h1, -, h3⟩ := h.submitted hx
    exact ⟨h1, rfl, h3⟩

/-- The channel is emptied of data. -/
theorem Inv.lose (hp : t.pump = .emptying) {b : Bytes} (hs : t.slot = some (.data b)) :
    Inv { t with slot := none, lost := b, pump := .releasing } := by
  have hns : ¬(t.finish.isSome = true ∨ .fin ∈ t.log) := fun hx => by cases (h.submitted hx).1 ▸ hs
  have hf : t.finish = none := by
    by_contra hne
    exact hns (.inl (isSome_iff_ne_none.2 hne))
  have hq : t.queue = [.data b] := by simp [queue, hf, hp, holding, hs]
  have hq' : queue { t with slot := none, lost := b, pump := .releasing } = [] := by simp [queue, hf, holding]
  refine ⟨?_, nofun, by rw [h.closed, hp]; rfl, h.permit, fun _ => rfl, h.calling, h.acking,
    h.waits.tail (hq.trans (by rw [hq'])) rfl rfl, h.asked, h.issued, fun hx => absurd hx hns, h.shut, trivial, h.log⟩
  rw [hq']
  have := h.bytes
  rw [h.kept (by rw [hp]; rfl), hq] at this
  simpa [bytesOf] using this

theorem Inv.dropCommand (hc : t.closed = true) (hq : t.queue = [w])
    (hw : w = .flush ack ∨ w = .finish ack) (hh : holding p = none) (hl : late p = late t.pump)
    (hk : emptied p = true) (hok : PumpOk p t.log) :
    Inv { t with acks := update t.acks ack .dropped, slot := none, finish := none, pump := p } := by
  have hnd : ∀ b, w ≠ .data b := by rcases hw with rfl | rfl <;> simp
  have hb : bytesOf t.queue = [] := by rw [hq]; rcases hw with rfl | rfl <;> rfl
  obtain ⟨-, finish, ack', hw', hpend, -⟩ := h.waits.head hq hnd
  obtain rfl : ack' = ack := by
    rw [hw'] at hw
    cases finish <;> simpa [command] using hw
  exact h.resolve hpend hb (.inr ⟨rfl, hc⟩) hh hl (fun he => by rw [hk] at he; cases he) hok

theorem Inv.drainCommand (hp : t.pump = .emptying) (hs : t.slot = some w)
    (hw : w = .flush ack ∨ w = .finish ack) : Inv (({ t with slot := none }.dropAck ack).setPump .releasing) := by
  have hf : t.finish = none := by
    by_contra hne
    cases (h.submitted (.inl (isSome_iff_ne_none.2 hne))).1 ▸ hs
  have hq : t.queue = [w] := by simp [queue, hf, hp, holding, hs]
  have hd := h.dropCommand (p := .releasing) (by rw [h.closed, hp]; rfl) hq hw rfl (by rw [hp]; rfl) rfl trivial
  have ht : ({ t with slot := none }.dropAck ack).setPump .releasing =
      { t with acks := update t.acks ack .dropped, slot := none, finish := none, pump := .releasing } := by
    simp [dropAck, setPump, hf]
  rw [ht]
  exact hd

theorem Inv.drain (hp : t.pump = .emptying) : Inv (t.drain.setPump .releasing) := by
  unfold Tunnel.drain
  split
  · exact h.lose hp ‹_›
  · exact h.drainCommand hp ‹_› (.inl rfl)
  · exact h.drainCommand hp ‹_› (.inr rfl)
  · exact h.onto (by rw [hp]; rfl) t.send rfl (by rw [hp]; rfl) nofun trivial

theorem Inv.releaseFinish (hp : t.pump = .releasing) (hf : t.finish = some ack) :
    Inv (({ t with finish := none }.dropAck ack).setPump .gone) := by
  have hslot := (h.submitted (.inl (by rw [hf]; rfl))).1
  have hq : t.queue = [.finish ack] := by simp [queue, hf, hp, holding, hslot]
  have hd := h.dropCommand (p := .gone) (by rw [h.closed, hp]; rfl) hq (.inr rfl) rfl (by rw [hp]; rfl) rfl trivial
  have ht : ({ t with finish := none }.dropAck ack).setPump .gone =
      { t with acks := update t.acks ack .dropped, slot := none, finish := none, pump := .gone } := by
    simp [dropAck, setPump, hslot]
  rw [ht]
  exact hd

theorem Inv.pumpOn : Inv t.pumpOn := by
  unfold Tunnel.pumpOn
  split
  · exact h
  · exact h
  · exact h
  · rename_i hp
    exact h.goto (hp ▸ ⟨rfl, rfl⟩) t.send ⟨rfl, rfl⟩ trivial
  · rename_i rounds hp
    split
    · exact h.submit (hp ▸ ⟨rfl, rfl⟩) ‹_›
    · exact h.await (hp ▸ ⟨rfl, rfl⟩) rounds
  · exact h.pollRecv ‹_›
  · exact h.handle ‹_›
  · exact h.acknowledgeFinish ‹_›
  · exact h.close ‹_›
  · exact h.drain ‹_›
  · rename_i hp
    split
    · exact h.releaseFinish hp ‹_›
    · exact h.onto (by rw [hp]; rfl) t.send rfl (by rw [hp]; rfl) nofun trivial

/-! ## Runs -/

theorem Inv.step (op : Op) : Inv (t.step op) := by
  cases op with
  | call c =>
    simp only [Tunnel.step]
    split
    · rename_i hc
      exact h.call hc.1 c
    · exact h
  | go => exact h.go
  | dropIo =>
    simp only [Tunnel.step]
    split
    · exact { h with waits := h.waits.congr rfl rfl rfl id id id }
    · exact h
  | poll =>
    simp only [Tunnel.step]
    split
    · rename_i hp
      exact h.poll (hp ▸ ⟨rfl, rfl⟩)
    · exact h
  | pump => exact h.pumpOn
  | drop =>
    simp only [Tunnel.step]
    split
    · rename_i hp
      exact h.drop (hp ▸ ⟨rfl, rfl⟩)
    · rename_i hp
      exact h.drop (hp ▸ ⟨rfl, rfl⟩)
    · exact h

end

theorem run_inv (send : SendGuard) (ops : List Op) : Inv ((new send).run ops) :=
  foldlRecOn (motive := Inv) ops step (new_inv send) fun _ h op _ => h.step op

/-! ## The stream -/

/-- The task and its half of the stream are as they were. -/
structure Apart (t t' : Tunnel) : Prop where
  pump : t'.pump = t.pump
  send : t'.send = t.send
  took : t'.log.filterMap took = t.log.filterMap took

theorem Apart.trans {t'' : Tunnel} (h : t.Apart t') (h' : t'.Apart t'') : t.Apart t'' :=
  ⟨h'.pump.trans h.pump, h'.send.trans h.send, h'.took.trans h.took⟩

theorem answer_apart (call : Call) (r : Poll (Except TunnelError ℕ)) : t.Apart (t.answer call r) := ⟨rfl, rfl, rfl⟩

theorem whenAcked_apart {call : Call} {k : Tunnel → Tunnel} (hk : ∀ t' : Tunnel, t'.Apart (k t')) :
    t.Apart (t.whenAcked call k) := by
  have hp : t.Apart t.pollAck.2 := by
    unfold Tunnel.pollAck
    repeat' split
    all_goals exact ⟨rfl, rfl, rfl⟩
  unfold Tunnel.whenAcked
  split
  · rename_i t' ht
    rw [ht] at hp
    exact hp.trans (hk t')
  · rename_i e t' ht
    rw [ht] at hp
    exact hp.trans (answer_apart _ _)
  · rename_i t' _ _ ht
    rw [ht] at hp
    exact hp.trans (answer_apart _ _)

theorem barrier_apart (call : Call) : t.Apart (t.barrier call) := by
  unfold Tunnel.barrier
  split <;> exact ⟨rfl, rfl, rfl⟩

theorem call_apart (c : Call) : t.Apart (t.call c) := by
  have hbarrier : ∀ (call : Call) (finish : Bool), t.Apart (t.pollBarrier call finish) := by
    intro call finish
    unfold Tunnel.pollBarrier
    split
    · refine whenAcked_apart fun t' => ?_
      split
      · exact answer_apart _ _
      · exact barrier_apart call
    · exact barrier_apart call
  cases c with
  | write buf =>
    refine whenAcked_apart fun t' => ?_
    split
    · exact answer_apart _ _
    · split <;> exact ⟨rfl, rfl, rfl⟩
  | flush => exact hbarrier .flush false
  | shutdown => exact hbarrier .shutdown true

theorem go_apart : t.Apart t.go := by
  unfold Tunnel.go
  split
  · exact ⟨rfl, rfl, rfl⟩
  · unfold Tunnel.pollReserve
    repeat' split
    all_goals exact ⟨rfl, rfl, rfl⟩
  · unfold Tunnel.sendItem
    split <;> exact ⟨rfl, rfl, rfl⟩
  · exact whenAcked_apart fun t' => answer_apart _ _

/-- What a stream has taken of the tunnel, and not of its end. -/
def carried : Given → Bool
  | .reset _ => false
  | _ => true

/-- **The record has what the stream has taken**, behind `base`. -/
def Tied (base : List Given) (t : Tunnel) : Prop := t.send.given.filter carried = t.log.filterMap took ++ base

variable {base : List Given}

theorem Apart.tied (h : t.Apart t') (ht : Tied base t) : Tied base t' := by
  rw [Tied, h.send, h.took]
  exact ht

theorem leave_send (x : Option (Except StreamError Unit)) : (t.leave x).send = t.send := by
  unfold Tunnel.leave
  split <;> rfl

section

variable (h : Tied base t)

include h

theorem Tied.leave (x : Option (Except StreamError Unit)) : Tied base (t.leave x) := by
  unfold Tunnel.leave
  split <;> exact h

theorem Tied.submit : Tied base t.submit := by
  unfold Tunnel.submit SendGuard.pollStopped
  rcases t.send.stops.head with _ | _ | _
  · simp only [SendGuard.pollFinish]
    rcases t.send.finishes.head with _ | _ | _
    · exact h
    · exact h
    · exact congrArg (.fin :: ·) h
  · exact h
  · exact h

theorem Tied.await (rounds : ℕ) : Tied base (t.await rounds) := by
  unfold Tunnel.await SendGuard.pollStopped
  rcases t.send.stops.head with _ | _ | _
  · simp only [SendGuard.pollReady]
    rcases t.send.readies.head with _ | _ | _ <;> exact h
  · exact h
  · exact h

theorem Tied.handle (rounds : ℕ) (w : Write) : Tied base (t.handle rounds w) := by
  cases w with
  | data bytes =>
    unfold Tunnel.handle SendGuard.start
    cases t.send.sends.head with
    | error e => exact h
    | ok u => exact congrArg (.data bytes :: ·) h
  | flush ack => exact h
  | finish ack => exact h

theorem Tied.pumpOn : Tied base t.pumpOn := by
  unfold Tunnel.pumpOn
  split
  · exact h
  · exact h
  · exact h
  · exact h
  · split
    · exact h.submit
    · exact h.await _
  · unfold Tunnel.pollRecv
    repeat' split
    all_goals exact h
  · exact h.handle _ _
  · unfold Tunnel.acknowledgeFinish
    refine Tied.leave ?_ _
    split <;> exact h
  · exact h
  · unfold Tunnel.drain
    repeat' split
    all_goals exact h
  · split <;> exact h

theorem Tied.drop : Tied base t.drop := by
  show t.send.drop.given.filter carried = _
  unfold SendGuard.drop
  split <;> exact h

theorem Tied.step (op : Op) : Tied base (t.step op) := by
  cases op with
  | call c =>
    simp only [Tunnel.step]
    split
    · exact (call_apart c).tied h
    · exact h
  | go => exact go_apart.tied h
  | dropIo =>
    simp only [Tunnel.step]
    split <;> exact h
  | poll =>
    simp only [Tunnel.step]
    split
    · unfold Tunnel.poll
      split
      · exact Tied.leave (t := t.setSend t.send.pollStopped.2) h _
      · exact h
    · exact h
  | pump => exact h.pumpOn
  | drop =>
    simp only [Tunnel.step]
    split
    · exact h.drop
    · exact h.drop
    · exact h

end

theorem run_tied (send : SendGuard) (ops : List Op) : Tied (send.given.filter carried) ((new send).run ops) :=
  foldlRecOn (motive := Tied _) ops step rfl fun _ h op _ => h.step op

/-- **Writes, flushes and the finish of a tunnel are in order**, for every stream and every run of the
application's calls and the task, in any interleaving, with the task dropped at any point or not:

* what was given to the stream and not refused, and FIN, is what it has taken;
* the bytes given to the stream are those accepted, in order and without a gap; what is missing is on
  its way, or was in the channel when the task was dropped;
* when a flush succeeds, everything accepted before was given and the stream was ready after it;
* when FIN is submitted, everything that is ever accepted was given;
* a shutdown succeeds only after FIN was submitted;
* nothing is accepted after the finish command was sent. -/
theorem writes_linearised (send : SendGuard) (ops : List Op) :
    let t := (new send).run ops
    t.send.given.filter carried = t.log.filterMap took ++ send.given.filter carried ∧
    accepted t.log = given t.log ++ t.lost ++ bytesOf t.queue ∧ (t.closed = false → t.lost = []) ∧
    (∀ pre post n, t.log = post ++ .answered .flush (.ready (.ok n)) :: pre →
      given pre = accepted pre ∧ readyAgain pre = true) ∧
    (∀ pre post, t.log = post ++ .fin :: pre → given pre = accepted t.log) ∧
    (∀ pre post n, t.log = post ++ .answered .shutdown (.ready (.ok n)) :: pre → .fin ∈ pre) ∧
    (∀ pre post, t.log = post ++ .finishIssued :: pre → accepted t.log = accepted pre) := by
  intro t
  have h : Inv t := run_inv send ops
  refine ⟨run_tied send ops, h.bytes, fun hc => h.not_lost (h.closed ▸ hc), fun pre post n hl => ?_,
    fun pre post hl => ?_, fun pre post n hl => ?_, fun pre post hl => ?_⟩
  · exact (hl ▸ h.log).split
  · have hlog : Log.Ok Justified (post ++ .fin :: pre) := hl ▸ h.log
    obtain ⟨hg, hi⟩ := hlog.split
    rw [hl, hg, accepted_append hlog (mem_cons_of_mem _ hi)]
    exact (append_nil _).symm
  · exact (hl ▸ h.log).split
  · rw [hl, accepted_append (hl ▸ h.log : Log.Ok Justified (post ++ .finishIssued :: pre)) (mem_cons_self ..)]
    exact append_nil _

end Netty.H3.Tunnel
