import Netty.Spec.Datagram

/-!
# The accounts of the datagram registry

* `Exact`: the counters are the sizes of the queues, the ready list holds the sessions
  with something to send, and no queue is over its limit.
* `Effect`: all that an operation can do to an exact registry.
* `step_effect`: every operation does one of these, and no counter falls below zero.
* `registry_accounting`, `next_fifo_fair`: what holds of every sequence of operations.
-/

namespace Netty.Datagram

open List Option

/-! ## Exact accounts -/

def size (queue : List Bytes) : ℕ := queue.foldr (fun packet n => packet.length + n) 0

@[simp] theorem size_nil : size [] = 0 := rfl

@[simp] theorem size_cons (packet : Bytes) (queue : List Bytes) :
    size (packet :: queue) = packet.length + size queue := rfl

@[simp] theorem size_concat (queue : List Bytes) (packet : Bytes) :
    size (queue ++ [packet]) = size queue + packet.length := by
  induction queue with
  | nil => simp
  | cons p queue ih => rw [cons_append, size_cons, size_cons, ih, Nat.add_assoc]

structure Entry.Exact (e : Entry) : Prop where
  incoming : e.incomingBytes = size e.incoming
  outgoing : e.outgoingBytes = size e.outgoing
  incomingPackets : e.incoming.length ≤ packets
  outgoingPackets : e.outgoing.length ≤ packets
  incomingRoom : e.incomingBytes ≤ sessionBytes
  outgoingRoom : e.outgoingBytes ≤ sessionBytes

namespace State

variable {s s' : State} {id : ℕ} {e e' : Entry}

def waiting (s : State) (id : ℕ) : Bool :=
  match s.streams.lookup id with
  | some e => e.outgoing ≠ []
  | none => false

structure Exact (s : State) : Prop where
  entries : ∀ id e, s.streams.lookup id = some e → e.Exact
  incoming : s.incoming = s.streams.total Entry.incomingBytes
  outgoing : s.outgoing = s.streams.total Entry.outgoingBytes
  incomingRoom : s.incoming ≤ connectionBytes
  outgoingRoom : s.outgoing ≤ connectionBytes
  ready : ∀ id, s.ready.count id = if s.waiting id then 1 else 0

theorem waiting_of_lookup (h : s.streams.lookup id = some e) : s.waiting id = decide (e.outgoing ≠ []) := by
  rw [waiting, h]

theorem waiting_insert (s : State) (id : ℕ) (e : Entry) (j : ℕ) :
    (s.setEntry id e).waiting j = if j = id then decide (e.outgoing ≠ []) else s.waiting j := by
  unfold waiting setEntry
  by_cases hj : j = id
  · subst hj
    simp only [AList.lookup_insert, if_true]
  · simp only [AList.lookup_insert_ne hj, if_neg hj]

theorem Exact.incomingBytes_le (h : s.Exact) (hl : s.streams.lookup id = some e) : e.incomingBytes ≤ s.incoming :=
  h.incoming ▸ AList.le_total hl

theorem Exact.outgoingBytes_le (h : s.Exact) (hl : s.streams.lookup id = some e) : e.outgoingBytes ≤ s.outgoing :=
  h.outgoing ▸ AList.le_total hl

theorem Exact.ready_nodup (h : s.Exact) : s.ready.Nodup := by
  rw [nodup_iff_count_le_one]
  intro id
  rw [h.ready id]
  split <;> omega

theorem Exact.mem_ready (h : s.Exact) : id ∈ s.ready ↔ s.waiting id = true := by
  rw [← count_pos_iff, h.ready id]
  split <;> simp [*]

/-- A new value for one entry, with the totals changed by the difference. -/
theorem Exact.update {ready : List ℕ} {incoming outgoing : ℕ} (h : s.Exact) (hl : s.streams.lookup id = some e)
    (he : e'.Exact)
    (hin : incoming + e.incomingBytes = s.incoming + e'.incomingBytes)
    (hout : outgoing + e.outgoingBytes = s.outgoing + e'.outgoingBytes)
    (hinR : incoming ≤ connectionBytes) (houtR : outgoing ≤ connectionBytes)
    (hready : ∀ j, ready.count j = if (s.setEntry id e').waiting j then 1 else 0) :
    Exact { s.setEntry id e' with ready := ready, incoming := incoming, outgoing := outgoing } := by
  have hi := AList.total_update (w := Entry.incomingBytes) hl e'
  have ho := AList.total_update (w := Entry.outgoingBytes) hl e'
  have h1 := h.incoming
  have h2 := h.outgoing
  refine ⟨fun j f hf => ?_, ?_, ?_, hinR, houtR, hready⟩
  · change (s.streams.insert id e').lookup j = some f at hf
    by_cases hj : j = id
    · subst hj
      rw [AList.lookup_insert] at hf
      cases hf
      exact he
    · exact h.entries j f ((AList.lookup_insert_ne hj).symm.trans hf)
  · show incoming = (s.streams.insert id e').total Entry.incomingBytes
    omega
  · show outgoing = (s.streams.insert id e').total Entry.outgoingBytes
    omega

/-! ## What an operation does -/

/-- Sessions, queues and counters are as they were. -/
structure Same (s s' : State) : Prop where
  streams : s'.streams = s.streams
  ready : s'.ready = s.ready
  incoming : s'.incoming = s.incoming
  outgoing : s'.outgoing = s.outgoing
  closed : s'.closed = s.closed

end State

def Op.closes (id : ℕ) : Op → Bool
  | .closeSend j | .close j => j = id
  | .closeAll => true
  | _ => false

def Out.quiet : Out → Bool
  | .taken (some _) | .sent _ (.ok _) => false
  | _ => true

/-- **All that an operation can do to an exact registry.** -/
inductive Effect (s : State) : Op → Out → State → Prop
  | same {op : Op} {out : Out} {s' : State} : s.Same s' → out.quiet = true →
      (∀ id, op.closes id = true → s.streams.lookup id = none) → op ≠ .closeAll → Effect s op out s'
  | register {id : ℕ} {semantics : Bool} : s.closed = false →
      Effect s (.register id semantics) .done (s.setEntry id (Entry.new semantics))
  | receive {packet payload : Bytes} {upgraded : Bool} {id : ℕ} {e : Entry} : s.streams.lookup id = some e →
      e.incoming.length < packets → e.incomingBytes + payload.length ≤ sessionBytes →
      s.incoming + payload.length ≤ connectionBytes →
      Effect s (.receive packet upgraded) (.received (.queued id payload))
        { s.setEntry id { e with
            incoming := e.incoming ++ [payload]
            incomingBytes := e.incomingBytes + payload.length } with
          incoming := s.incoming + payload.length }
  | take {id : ℕ} {e : Entry} {packet : Bytes} {outgoing : List Bytes} {ready : List ℕ} : s.ready = id :: ready →
      s.streams.lookup id = some e → e.outgoing = packet :: outgoing →
      Effect s .next (.taken (some (id, packet)))
        { s.setEntry id { e with outgoing := outgoing, outgoingBytes := e.outgoingBytes - packet.length } with
          ready := if outgoing ≠ [] then ready ++ [id] else ready
          outgoing := s.outgoing - packet.length }
  | send {id : ℕ} {e : Entry} {payload packet : Bytes} : s.streams.lookup id = some e → e.sendOpen = true →
      e.outgoing.length < packets → e.outgoingBytes + packet.length ≤ sessionBytes →
      s.outgoing + packet.length ≤ connectionBytes →
      Effect s (.trySend id payload) (.sent id (.ok packet))
        { s.setEntry id { e with
            outgoing := e.outgoing ++ [packet]
            outgoingBytes := e.outgoingBytes + packet.length } with
          ready := if e.outgoing = [] then s.ready ++ [id] else s.ready
          outgoing := s.outgoing + packet.length }
  | pollRecv {id : ℕ} {e : Entry} {packet : Bytes} {incoming : List Bytes} : s.streams.lookup id = some e →
      e.incoming = packet :: incoming →
      Effect s (.pollRecv id) (.payload id (.ready (some packet)))
        { s.setEntry id { e with incoming := incoming, incomingBytes := e.incomingBytes - packet.length } with
          incoming := s.incoming - packet.length }
  | closeSend {id : ℕ} {e : Entry} : s.streams.lookup id = some e →
      Effect s (.closeSend id) .done
        { s.setEntry id { e with sendOpen := false, outgoingBytes := 0, outgoing := [] } with
          outgoing := s.outgoing - e.outgoingBytes
          ready := s.ready.filter (· ≠ id) }
  | closeRecv {id : ℕ} {e : Entry} : s.streams.lookup id = some e →
      Effect s (.closeRecv id) .done
        { s.setEntry id { e with recvOpen := false, incomingBytes := 0, incoming := [] } with
          incoming := s.incoming - e.incomingBytes }
  | close {id : ℕ} {e : Entry} : s.streams.lookup id = some e →
      Effect s (.close id) .done
        { s with
          streams := s.streams.erase id
          incoming := s.incoming - e.incomingBytes
          outgoing := s.outgoing - e.outgoingBytes
          ready := s.ready.filter (· ≠ id) }
  | closeAll : Effect s .closeAll .done s.closeAll

theorem checkedSub_of_le {a b : ℕ} (h : b ≤ a) : checkedSub a b = some (a - b) := if_pos h

theorem length_encode (id : ℕ) (payload : Bytes) : (encode id payload).length = payload.length + prefixSize id := by
  rw [encode, length_append, Varint.length_encode, Nat.add_comm, Varint.size, prefixSize]
  simp only [Nat.lt_succ_iff]

namespace State

variable {s s' : State} {id : ℕ} {e e' : Entry}

theorem Same.refl (s : State) : s.Same s := ⟨rfl, rfl, rfl, rfl, rfl⟩

theorem limit_effect (s : State) (maxSize : Option ℕ) :
    Effect s (.limit maxSize) .done { s with maxSize := maxSize } :=
  .same ⟨rfl, rfl, rfl, rfl, rfl⟩ rfl (by simp [Op.closes]) nofun

theorem receive_effect (decode : Decode) (h : s.Exact) (packet : Bytes) (upgraded : Bool) :
    ∃ r s', s.receive decode packet upgraded = some (r, s') ∧ Effect s (.receive packet upgraded) (.received r) s' := by
  have hsame : ∀ r, Out.quiet (.received r) = true → Effect s (.receive packet upgraded) (.received r) s :=
    fun r hr => .same (.refl s) hr (by simp [Op.closes]) nofun
  unfold receive
  cases decode packet with
  | none => exact ⟨_, _, rfl, hsame _ rfl⟩
  | some x =>
    obtain ⟨id, payload⟩ := x
    simp only [checkedSub_of_le h.incomingRoom, bind_eq_bind, bind_some]
    cases hl : s.streams.lookup id with
    | none => exact ⟨_, _, rfl, hsame _ rfl⟩
    | some e =>
      have he := h.entries id e hl
      simp only [checkedSub_of_le he.incomingRoom]
      split
      · exact ⟨_, _, rfl, hsame _ rfl⟩
      split
      · exact ⟨_, _, rfl, hsame _ rfl⟩
      split
      · exact ⟨_, _, rfl, hsame _ rfl⟩
      split
      · exact ⟨_, _, rfl, hsame _ rfl⟩
      rename_i hp
      simp only [bind_some]
      split
      · exact ⟨_, _, rfl, hsame _ rfl⟩
      rename_i hroom
      simp only [Bool.or_eq_true, decide_eq_true_eq, not_or, not_lt] at hroom
      have h1 := he.incomingRoom
      have h2 := h.incomingRoom
      have h3 := he.incomingPackets
      exact ⟨_, _, rfl, .receive hl (by omega) (by omega) (by omega)⟩

/-- In an exact registry the front of the ready list has a packet. -/
theorem next_effect (h : s.Exact) : ∃ r s', s.next = some (r, s') ∧ Effect s .next (.taken r) s' := by
  unfold next
  cases hr : s.ready with
  | nil => exact ⟨none, _, rfl, .same ⟨rfl, hr.symm, rfl, rfl, rfl⟩ rfl (by simp [Op.closes]) nofun⟩
  | cons id ready =>
    have hw : s.waiting id = true := h.mem_ready.1 (by rw [hr]; exact mem_cons_self)
    unfold waiting at hw
    cases hl : s.streams.lookup id with
    | none => rw [hl] at hw; cases hw
    | some e =>
      rw [hl] at hw
      simp only [decide_eq_true_eq] at hw
      obtain ⟨packet, outgoing, ho⟩ := exists_cons_of_ne_nil hw
      have hb : packet.length ≤ e.outgoingBytes := by
        rw [(h.entries id e hl).outgoing, ho, size_cons]
        exact Nat.le_add_right _ _
      have hs : packet.length ≤ s.outgoing := le_trans hb (h.outgoingBytes_le hl)
      simp only [nextFrom, hl, ho, checkedSub_of_le hb, checkedSub_of_le hs, bind_eq_bind, bind_some]
      exact ⟨_, _, rfl, .take hr hl ho⟩

theorem trySend_effect (h : s.Exact) (id : ℕ) (payload : Bytes) :
    ∃ r s', s.trySend id payload = some (r, s') ∧ Effect s (.trySend id payload) (.sent id r) s' := by
  have hsame : ∀ k, Effect s (.trySend id payload) (.sent id (.error k)) s :=
    fun k => .same (.refl s) rfl (by simp [Op.closes]) nofun
  unfold trySend
  cases hl : s.streams.lookup id with
  | none => exact ⟨_, _, rfl, hsame _⟩
  | some e =>
    have he := h.entries id e hl
    simp only [checkedSub_of_le he.outgoingRoom, checkedSub_of_le h.outgoingRoom, bind_eq_bind, bind_some]
    split
    · exact ⟨_, _, rfl, hsame _⟩
    rename_i hopen
    split
    · exact ⟨_, _, rfl, hsame _⟩
    split
    · exact ⟨_, _, rfl, hsame _⟩
    rename_i size hsize
    split
    · exact ⟨_, _, rfl, hsame _⟩
    split
    · exact ⟨_, _, rfl, hsame _⟩
    rename_i hp
    split
    · exact ⟨_, _, rfl, hsame _⟩
    rename_i hroom
    split
    · exact ⟨_, _, rfl, hsame _⟩
    rename_i hcap
    have hlen : size = (encode id payload).length := by
      rw [length_encode]
      unfold checkedAdd at hsize
      split at hsize
      · injection hsize with hsize; exact hsize.symm
      · cases hsize
    subst hlen
    have h1 := he.outgoingRoom
    have h2 := h.outgoingRoom
    have h3 := he.outgoingPackets
    exact ⟨_, _, rfl, .send hl (by simpa using hopen) (by omega) (by omega) (by omega)⟩

theorem pollRecv_effect (h : s.Exact) (id : ℕ) :
    ∃ r s', s.pollRecv id = some (r, s') ∧ Effect s (.pollRecv id) (.payload id r) s' := by
  unfold pollRecv
  cases hl : s.streams.lookup id with
  | none => exact ⟨_, _, rfl, .same (.refl s) rfl (by simp [Op.closes]) nofun⟩
  | some e =>
    cases hi : e.incoming with
    | nil =>
      simp only [hi]
      exact ⟨_, _, rfl, .same (.refl s) rfl (by simp [Op.closes]) nofun⟩
    | cons packet incoming =>
      have hb : packet.length ≤ e.incomingBytes := by
        rw [(h.entries id e hl).incoming, hi, size_cons]
        exact Nat.le_add_right _ _
      have hs : packet.length ≤ s.incoming := le_trans hb (h.incomingBytes_le hl)
      simp only [hi, checkedSub_of_le hb, checkedSub_of_le hs, bind_eq_bind, bind_some]
      exact ⟨_, _, rfl, .pollRecv hl hi⟩

theorem closeSend_effect (h : s.Exact) (id : ℕ) :
    ∃ s', s.closeSend id = some s' ∧ Effect s (.closeSend id) .done s' := by
  unfold closeSend
  cases hl : s.streams.lookup id with
  | none => exact ⟨_, rfl, .same (.refl s) rfl (by rintro j hj; simp [Op.closes] at hj; exact hj ▸ hl) nofun⟩
  | some e =>
    simp only [checkedSub_of_le (h.outgoingBytes_le hl), bind_eq_bind, bind_some]
    exact ⟨_, rfl, .closeSend hl⟩

theorem closeRecv_effect (h : s.Exact) (id : ℕ) :
    ∃ s', s.closeRecv id = some s' ∧ Effect s (.closeRecv id) .done s' := by
  unfold closeRecv
  cases hl : s.streams.lookup id with
  | none => exact ⟨_, rfl, .same (.refl s) rfl (by simp [Op.closes]) nofun⟩
  | some e =>
    simp only [checkedSub_of_le (h.incomingBytes_le hl), bind_eq_bind, bind_some]
    exact ⟨_, rfl, .closeRecv hl⟩

theorem close_effect (h : s.Exact) (id : ℕ) : ∃ s', s.close id = some s' ∧ Effect s (.close id) .done s' := by
  unfold close
  cases hl : s.streams.lookup id with
  | none => exact ⟨_, rfl, .same (.refl s) rfl (by rintro j hj; simp [Op.closes] at hj; exact hj ▸ hl) nofun⟩
  | some e =>
    simp only [checkedSub_of_le (h.outgoingBytes_le hl), checkedSub_of_le (h.incomingBytes_le hl), bind_eq_bind,
      bind_some]
    exact ⟨_, rfl, .close hl⟩

/-- **Every operation on an exact registry has one of these effects.** No counter falls
below zero. -/
theorem step_effect (decode : Decode) (h : s.Exact) (op : Op) :
    ∃ out s', s.step decode op = some (out, s') ∧ Effect s op out s' := by
  cases op with
  | register id semantics =>
    refine ⟨_, _, rfl, ?_⟩
    unfold register
    split
    · exact .same (.refl s) rfl (by simp [Op.closes]) nofun
    · rename_i hc
      exact .register (by simpa using hc)
  | negotiated enabled => exact ⟨_, _, rfl, .same ⟨rfl, rfl, rfl, rfl, rfl⟩ rfl (by simp [Op.closes]) nofun⟩
  | limit maxSize => exact ⟨_, _, rfl, limit_effect s maxSize⟩
  | receive packet upgraded =>
    obtain ⟨r, s', hs, he⟩ := receive_effect decode h packet upgraded
    exact ⟨_, _, by rw [step, hs]; rfl, he⟩
  | next =>
    obtain ⟨r, s', hs, he⟩ := next_effect h
    exact ⟨_, _, by rw [step, hs]; rfl, he⟩
  | trySend id payload =>
    obtain ⟨r, s', hs, he⟩ := trySend_effect h id payload
    exact ⟨_, _, by rw [step, hs]; rfl, he⟩
  | pollRecv id =>
    obtain ⟨r, s', hs, he⟩ := pollRecv_effect h id
    exact ⟨_, _, by rw [step, hs]; rfl, he⟩
  | closeSend id =>
    obtain ⟨s', hs, he⟩ := closeSend_effect h id
    exact ⟨_, _, by rw [step, hs]; rfl, he⟩
  | closeRecv id =>
    obtain ⟨s', hs, he⟩ := closeRecv_effect h id
    exact ⟨_, _, by rw [step, hs]; rfl, he⟩
  | close id =>
    obtain ⟨s', hs, he⟩ := close_effect h id
    exact ⟨_, _, by rw [step, hs]; rfl, he⟩
  | closeAll => exact ⟨_, _, rfl, .closeAll⟩

/-! ## The accounts are kept -/

theorem Exact.same (h : s.Exact) (hs : s.Same s') : s'.Exact := by
  refine ⟨?_, ?_, ?_, ?_, ?_, ?_⟩
  · rw [hs.streams]; exact h.entries
  · rw [hs.streams, hs.incoming]; exact h.incoming
  · rw [hs.streams, hs.outgoing]; exact h.outgoing
  · rw [hs.incoming]; exact h.incomingRoom
  · rw [hs.outgoing]; exact h.outgoingRoom
  · unfold waiting
    rw [hs.streams, hs.ready]
    exact h.ready

theorem count_rotate {ready : List ℕ} (hn : id ∉ ready) (again : Prop) [Decidable again] (j : ℕ) :
    (if again then ready ++ [id] else ready).count j = if j = id then (if again then 1 else 0) else ready.count j := by
  by_cases hj : j = id
  · subst hj
    rw [if_pos rfl]
    split
    · rw [count_append, count_eq_zero_of_not_mem hn, count_singleton_self]
    · exact count_eq_zero_of_not_mem hn
  · rw [if_neg hj]
    split
    · rw [count_append, count_singleton, if_neg (by simpa using Ne.symm hj)]
      rfl
    · rfl

theorem count_filter_ne (ready : List ℕ) (j : ℕ) :
    (ready.filter (· ≠ id)).count j = if j = id then 0 else ready.count j := by
  by_cases hj : j = id
  · subst hj
    rw [if_pos rfl]
    exact count_eq_zero_of_not_mem (by simp)
  · rw [if_neg hj]
    exact count_filter (by simpa using hj)

theorem Exact.ready_insert (h : s.Exact) (hl : s.streams.lookup id = some e) (ho : e'.outgoing = e.outgoing) (j : ℕ) :
    s.ready.count j = if (s.setEntry id e').waiting j then 1 else 0 := by
  have hw : (s.setEntry id e').waiting j = s.waiting j := by
    rw [waiting_insert]
    split
    · rename_i hj
      rw [hj, waiting_of_lookup hl, ho]
    · rfl
  rw [hw]
  exact h.ready j

theorem Exact.ready_filter (h : s.Exact) (he : e'.outgoing = []) (j : ℕ) :
    (s.ready.filter (· ≠ id)).count j = if (s.setEntry id e').waiting j then 1 else 0 := by
  rw [count_filter_ne, waiting_insert, he]
  split
  · rfl
  · exact h.ready j

/-- **An effect keeps the accounts**, if no session is registered twice. -/
theorem Exact.effect {op : Op} {out : Out} (h : s.Exact) (he : Effect s op out s')
    (hfresh : ∀ id semantics, op = .register id semantics → s.streams.lookup id = none) : s'.Exact := by
  cases he with
  | same hs => exact h.same hs
  | @register id semantics _ =>
    have hn := hfresh id semantics rfl
    have hw : s.waiting id = false := by rw [waiting, hn]
    refine ⟨fun j f hf => ?_, ?_, ?_, h.incomingRoom, h.outgoingRoom, fun j => ?_⟩
    · by_cases hj : j = id
      · subst hj
        rw [show (s.setEntry j (Entry.new semantics)).streams.lookup j = _ from AList.lookup_insert _] at hf
        cases hf
        exact ⟨rfl, rfl, Nat.zero_le _, Nat.zero_le _, Nat.zero_le _, Nat.zero_le _⟩
      · exact h.entries j f ((AList.lookup_insert_ne hj).symm.trans hf)
    · rw [setEntry, AList.total_insert_new hn, ← h.incoming]
      exact (Nat.zero_add _).symm
    · rw [setEntry, AList.total_insert_new hn, ← h.outgoing]
      exact (Nat.zero_add _).symm
    · rw [waiting_insert]
      split
      · rename_i hj
        rw [hj, setEntry, h.ready id, hw]
        rfl
      · exact h.ready j
  | @receive packet payload _ id e hl hp hs hc =>
    have hx := h.entries id e hl
    have hx' : Entry.Exact { e with
        incoming := e.incoming ++ [payload], incomingBytes := e.incomingBytes + payload.length } := by
      refine ⟨?_, hx.outgoing, ?_, hx.outgoingPackets, hs, hx.outgoingRoom⟩
      · rw [size_concat, hx.incoming]
      · rw [length_append]; exact hp
    exact h.update hl hx' (by simp only; omega) rfl hc h.outgoingRoom (h.ready_insert hl rfl)
  | @take id e packet outgoing ready hr hl ho =>
    have hx := h.entries id e hl
    have hb : packet.length + size outgoing = e.outgoingBytes := by rw [hx.outgoing, ho, size_cons]
    have hle := h.outgoingBytes_le hl
    have hroom := h.outgoingRoom
    have hx' : Entry.Exact { e with outgoing := outgoing, outgoingBytes := e.outgoingBytes - packet.length } := by
      refine ⟨hx.incoming, ?_, hx.incomingPackets, ?_, hx.incomingRoom, ?_⟩
      · simp only; omega
      · have := hx.outgoingPackets
        rw [ho, length_cons] at this
        simp only
        omega
      · have := hx.outgoingRoom
        simp only
        omega
    have hn : id ∉ ready := by
      have := h.ready_nodup
      rw [hr] at this
      exact (nodup_cons.1 this).1
    refine h.update hl hx' rfl (by simp only; omega) h.incomingRoom (by omega) fun j => ?_
    rw [count_rotate hn, waiting_insert]
    split
    · simp
    · rename_i hj
      have hj' := h.ready j
      rw [hr, count_cons_of_ne (Ne.symm hj)] at hj'
      exact hj'
  | @send id e payload packet hl hopen hp hs hc =>
    have hx := h.entries id e hl
    have hx' : Entry.Exact { e with
        outgoing := e.outgoing ++ [packet], outgoingBytes := e.outgoingBytes + packet.length } := by
      refine ⟨hx.incoming, ?_, hx.incomingPackets, ?_, hx.incomingRoom, hs⟩
      · rw [size_concat, hx.outgoing]
      · rw [length_append]; exact hp
    refine h.update hl hx' rfl (by simp only; omega) h.incomingRoom hc fun j => ?_
    have hw := h.ready id
    rw [waiting_of_lookup hl] at hw
    rw [waiting_insert]
    by_cases hj : j = id
    · subst hj
      by_cases ho : e.outgoing = []
      · simp [ho] at hw ⊢
        simpa using hw
      · simpa [ho] using hw
    · rw [if_neg hj, ← h.ready j]
      split
      · rw [count_append, count_singleton, if_neg (by simpa using Ne.symm hj)]
        rfl
      · rfl
  | @pollRecv id e packet incoming hl hi =>
    have hx := h.entries id e hl
    have hb : packet.length + size incoming = e.incomingBytes := by rw [hx.incoming, hi, size_cons]
    have hle := h.incomingBytes_le hl
    have hroom := h.incomingRoom
    have hx' : Entry.Exact { e with incoming := incoming, incomingBytes := e.incomingBytes - packet.length } := by
      refine ⟨?_, hx.outgoing, ?_, hx.outgoingPackets, ?_, hx.outgoingRoom⟩
      · simp only; omega
      · have := hx.incomingPackets
        rw [hi, length_cons] at this
        simp only
        omega
      · have := hx.incomingRoom
        simp only
        omega
    exact h.update hl hx' (by simp only; omega) rfl (by omega) h.outgoingRoom (h.ready_insert hl rfl)
  | @closeSend id e hl =>
    have hx := h.entries id e hl
    have hle := h.outgoingBytes_le hl
    have hroom := h.outgoingRoom
    have hx' : Entry.Exact { e with sendOpen := false, outgoingBytes := 0, outgoing := [] } :=
      ⟨hx.incoming, rfl, hx.incomingPackets, Nat.zero_le _, hx.incomingRoom, Nat.zero_le _⟩
    exact h.update hl hx' rfl (by simp only; omega) h.incomingRoom (by omega) (h.ready_filter rfl)
  | @closeRecv id e hl =>
    have hx := h.entries id e hl
    have hle := h.incomingBytes_le hl
    have hroom := h.incomingRoom
    have hx' : Entry.Exact { e with recvOpen := false, incomingBytes := 0, incoming := [] } :=
      ⟨rfl, hx.outgoing, Nat.zero_le _, hx.outgoingPackets, Nat.zero_le _, hx.outgoingRoom⟩
    exact h.update hl hx' (by simp only; omega) rfl (by omega) h.outgoingRoom (h.ready_insert hl rfl)
  | @close id e hl =>
    have hi := AList.total_erase (w := Entry.incomingBytes) hl
    have ho := AList.total_erase (w := Entry.outgoingBytes) hl
    have h1 := h.incoming
    have h2 := h.outgoing
    have h3 := h.incomingRoom
    have h4 := h.outgoingRoom
    refine ⟨fun j f hf => ?_, ?_, ?_, by simp only; omega, by simp only; omega, fun j => ?_⟩
    · by_cases hj : j = id
      · rw [hj, AList.lookup_erase] at hf
        cases hf
      · exact h.entries j f ((AList.lookup_erase_ne hj).symm.trans hf)
    · simp only; omega
    · simp only; omega
    · rw [count_filter_ne]
      unfold waiting
      simp only
      split
      · rename_i hj
        rw [hj, AList.lookup_erase]
        rfl
      · rename_i hj
        rw [AList.lookup_erase_ne hj]
        exact h.ready j
  | closeAll =>
    refine ⟨fun j f hf => ?_, rfl, rfl, Nat.zero_le _, Nat.zero_le _, fun j => rfl⟩
    cases hf

end State

/-! ## Runs -/

def Op.registers : Op → Option ℕ
  | .register id _ => some id
  | _ => none

def registered (ops : List Op) : List ℕ := ops.filterMap Op.registers

/-- The sessions still to be registered are new. -/
structure Fresh (s : State) (ops : List Op) : Prop where
  nodup : (registered ops).Nodup
  unknown : ∀ id ∈ registered ops, s.streams.lookup id = none

inductive Effects : State → List Op → List Out → State → Prop
  | nil {s : State} : s.Exact → Effects s [] [] s
  | cons {s s' t : State} {op : Op} {ops : List Op} {out : Out} {outs : List Out} : s.Exact → Fresh s (op :: ops) →
      Effect s op out s' → Effects s' ops outs t → Effects s (op :: ops) (out :: outs) t

section Runs

variable {s s' t : State} {op : Op} {ops more : List Op} {out : Out} {outs outs' : List Out} {id : ℕ}

theorem State.lookup_setEntry (s : State) (id : ℕ) (e : Entry) (j : ℕ) :
    (s.setEntry id e).streams.lookup j = if j = id then some e else s.streams.lookup j := by
  split
  · rename_i hj
    rw [hj]
    exact AList.lookup_insert _
  · rename_i hj
    exact AList.lookup_insert_ne hj

theorem Effect.unknown (he : Effect s op out s') (hop : op.registers ≠ some id) (hl : s.streams.lookup id = none) :
    s'.streams.lookup id = none := by
  have hset : ∀ {j : ℕ} {e e' : Entry}, s.streams.lookup j = some e → (s.setEntry j e').streams.lookup id = none := by
    intro j e e' hj
    rw [s.lookup_setEntry, if_neg (by rintro rfl; rw [hj] at hl; cases hl), hl]
  cases he with
  | same hs => rw [hs.streams, hl]
  | @register j semantics _ =>
    rw [s.lookup_setEntry, if_neg (by rintro rfl; exact hop rfl), hl]
  | receive hj => exact hset hj
  | take _ hj => exact hset hj
  | send hj => exact hset hj
  | pollRecv hj => exact hset hj
  | closeSend hj => exact hset hj
  | closeRecv hj => exact hset hj
  | @close j e hj =>
    show (s.streams.erase j).lookup id = none
    rw [AList.lookup_erase_ne (by rintro rfl; rw [hj] at hl; cases hl), hl]
  | closeAll => rfl

theorem Fresh.effect (h : Fresh s (op :: ops)) (he : Effect s op out s') : Fresh s' ops := by
  obtain ⟨hn, hu⟩ := h
  unfold registered at hn hu
  cases hr : op.registers with
  | none =>
    rw [filterMap_cons_none hr] at hn hu
    exact ⟨hn, fun id hid => he.unknown (by simp [hr]) (hu id hid)⟩
  | some j =>
    rw [filterMap_cons_some hr] at hn hu
    refine ⟨(nodup_cons.1 hn).2, fun id hid => he.unknown ?_ (hu id (mem_cons_of_mem _ hid))⟩
    rw [hr]
    rintro hj
    injection hj with hj
    exact (nodup_cons.1 hn).1 (hj ▸ hid)

theorem Fresh.register (h : Fresh s (op :: ops)) (id : ℕ) (semantics : Bool) (hop : op = .register id semantics) :
    s.streams.lookup id = none := by
  subst hop
  exact h.unknown id (by simp [registered, Op.registers])

theorem Fresh.left (ops : List Op) (h : Fresh s (ops ++ more)) : Fresh s ops := by
  obtain ⟨hn, hu⟩ := h
  unfold registered at hn hu
  rw [filterMap_append] at hn hu
  exact ⟨(nodup_append.1 hn).1, fun id hid => hu id (mem_append_left _ hid)⟩

/-- **A sequence of operations is a sequence of effects**, and keeps the accounts. -/
theorem State.run_effects (decode : Decode) (ops more : List Op) (h : s.Exact) (hf : Fresh s (ops ++ more)) :
    ∃ outs s', s.run decode ops = some (outs, s') ∧ Effects s ops outs s' ∧ s'.Exact ∧ Fresh s' more := by
  induction ops generalizing s with
  | nil => exact ⟨[], s, rfl, .nil h, h, hf⟩
  | cons op ops ih =>
    obtain ⟨out, s₁, hs, he⟩ := State.step_effect decode h op
    obtain ⟨outs, s', hr, hes, h'⟩ := ih (h.effect he hf.register) (Fresh.effect hf he)
    refine ⟨out :: outs, s', ?_, .cons h (hf.left (op :: ops)) he hes, h'⟩
    rw [State.run, hs]
    simp only [bind_eq_bind, bind_some, hr]

theorem Effects.append (h₁ : Effects s ops outs s') (h₂ : Effects s' more outs' t) (hf : Fresh s (ops ++ more)) :
    Effects s (ops ++ more) (outs ++ outs') t := by
  induction h₁ with
  | nil _ => exact h₂
  | cons h _ he _ ih => exact .cons h hf he (ih h₂ (Fresh.effect hf he))

theorem State.new_exact (maxSize : Option ℕ) : (State.new maxSize).Exact :=
  ⟨fun _ _ h => (nomatch h), rfl, rfl, Nat.zero_le _, Nat.zero_le _, fun _ => rfl⟩

end Runs

/-- **Datagram registry accounting is exact.** After any sequence of operations that
registers each stream ID at most once, no counter has fallen below zero, the counters
are the sizes of the queues, no queue is over its limits, and the ready list holds each
session that has something to send exactly once. -/
theorem registry_accounting (decode : Decode) (maxSize : Option ℕ) (ops : List Op) (h : (registered ops).Nodup) :
    ∃ outs s, (State.new maxSize).run decode ops = some (outs, s) ∧ s.Exact := by
  obtain ⟨outs, s, hr, -, hs, -⟩ := State.run_effects decode ops [] (State.new_exact maxSize)
    ⟨by rwa [append_nil], fun _ _ => rfl⟩
  exact ⟨outs, s, hr, hs⟩

def sampleOps : List Op :=
  [.register 0 true, .register 4 true, .negotiated true, .trySend 0 [1, 2], .trySend 4 [3], .trySend 0 [4], .next,
    .receive [5] true, .pollRecv 4, .closeSend 0, .trySend 4 [6]]

theorem registry_accounting_sample :
    ∃ outs s, (State.new (some 1200)).run (fun packet => some (4, packet)) sampleOps = some (outs, s) ∧ s.Exact :=
  registry_accounting _ _ sampleOps (by decide)

/-! ## A closed registry -/

/-- An answer of a closed registry: no packet moves, and nobody is left waiting. -/
def Out.closed : Out → Bool
  | .done | .received .malformed | .received .dropped | .taken none | .sent _ (.error .closed)
  | .payload _ (.ready none) => true
  | _ => false

theorem State.closeAll_step (decode : Decode) (s : State) (op : Op) :
    ∃ out, ∃ t : State, s.closeAll.step decode op = some (out, t.closeAll) ∧ out.closed = true := by
  cases op with
  | negotiated enabled => exact ⟨_, { s with negotiated := enabled }, rfl, rfl⟩
  | limit maxSize => exact ⟨_, { s with maxSize := maxSize }, rfl, rfl⟩
  | receive packet upgraded =>
    simp only [State.step, State.receive]
    cases decode packet with
    | none => exact ⟨_, s, rfl, rfl⟩
    | some => exact ⟨.received .dropped, s, rfl, rfl⟩
  | register | next | trySend | pollRecv | closeSend | closeRecv | close | closeAll => exact ⟨_, s, rfl, rfl⟩

/-- **`Registry::close` is final.** Whatever is called afterwards, `register` included, the
registry stays closed and empty: senders are refused as closed, readers get the end, and
what still arrives is dropped. -/
theorem registry_close_final (decode : Decode) (s : State) (ops : List Op) :
    ∃ outs t, s.closeAll.run decode ops = some (outs, t) ∧ t = t.closeAll ∧ ∀ out ∈ outs, out.closed = true := by
  induction ops generalizing s with
  | nil => exact ⟨[], _, rfl, rfl, nofun⟩
  | cons op ops ih =>
    obtain ⟨out, s', hs, hout⟩ := s.closeAll_step decode op
    obtain ⟨outs, t, hr, ht, houts⟩ := ih s'
    refine ⟨out :: outs, t, ?_, ht, forall_mem_cons.2 ⟨hout, houts⟩⟩
    rw [State.run, hs]
    simp only [bind_eq_bind, bind_some, hr]

/-! ## One session -/

/-- The packets a session has queued. -/
def State.outgoingOf (s : State) (id : ℕ) : List Bytes := ((s.streams.lookup id).map Entry.outgoing).getD []

/-- The packet of this session that was queued. -/
def Out.admits (id : ℕ) : Out → Option Bytes
  | .sent j (.ok packet) => if j = id then some packet else none
  | _ => none

/-- The packet of this session that was taken. -/
def Out.takes (id : ℕ) : Out → Option Bytes
  | .taken (some (j, packet)) => if j = id then some packet else none
  | _ => none

/-- What a session sees of an operation: its queue, and whether it may send, before and after. -/
inductive Seen (id : ℕ) (op : Op) (out : Out) : List Bytes → Bool → List Bytes → Bool → Prop
  | same {queue : List Bytes} {isOpen : Bool} : out.admits id = none → out.takes id = none →
      (op.closes id = true → isOpen = false) → Seen id op out queue isOpen queue isOpen
  | register : op.registers = some id → out.admits id = none → out.takes id = none → Seen id op out [] false [] true
  | enqueue {queue : List Bytes} {packet : Bytes} : out.admits id = some packet → out.takes id = none →
      op.closes id = false → Seen id op out queue true (queue ++ [packet]) true
  | take {queue : List Bytes} {isOpen : Bool} {packet : Bytes} : out.admits id = none → out.takes id = some packet →
      op.closes id = false → Seen id op out (packet :: queue) isOpen queue isOpen
  | shut {queue : List Bytes} {isOpen : Bool} : out.admits id = none → out.takes id = none →
      Seen id op out queue isOpen [] false

section Session

variable {s s' : State} {op : Op} {ops : List Op} {out : Out} {outs : List Out} {id : ℕ} {e : Entry}

theorem State.outgoingOf_lookup (h : s.streams.lookup id = some e) : s.outgoingOf id = e.outgoing := by
  rw [State.outgoingOf, h]
  rfl

theorem State.sendOpen_lookup (h : s.streams.lookup id = some e) : s.sendOpen id = e.sendOpen := by
  rw [State.sendOpen, h]
  rfl

theorem State.outgoingOf_setEntry (s : State) (id : ℕ) (e : Entry) (j : ℕ) :
    (s.setEntry id e).outgoingOf j = if j = id then e.outgoing else s.outgoingOf j := by
  unfold State.outgoingOf
  rw [s.lookup_setEntry]
  split <;> rfl

theorem State.sendOpen_setEntry (s : State) (id : ℕ) (e : Entry) (j : ℕ) :
    (s.setEntry id e).sendOpen j = if j = id then e.sendOpen else s.sendOpen j := by
  unfold State.sendOpen
  rw [s.lookup_setEntry]
  split <;> rfl

theorem Out.quiet_admits (h : out.quiet = true) : out.admits id = none := by
  cases out with
  | sent j res => cases res with
    | error k => rfl
    | ok packet => cases h
  | done | received | taken | payload => rfl

theorem Out.quiet_takes (h : out.quiet = true) : out.takes id = none := by
  cases out with
  | taken x => cases x with
    | none => rfl
    | some y => cases h
  | done | received | sent | payload => rfl

theorem Seen.change {e' : Entry} (hl : s.streams.lookup id = some e) (hs : s'.streams = (s.setEntry id e').streams)
    (h : Seen id op out e.outgoing e.sendOpen e'.outgoing e'.sendOpen) :
    Seen id op out (s.outgoingOf id) (s.sendOpen id) (s'.outgoingOf id) (s'.sendOpen id) := by
  have hl' : s'.streams.lookup id = some e' := by rw [hs, s.lookup_setEntry, if_pos rfl]
  rw [State.outgoingOf_lookup hl, State.sendOpen_lookup hl, State.outgoingOf_lookup hl', State.sendOpen_lookup hl']
  exact h

theorem Seen.keep {j : ℕ} {e' : Entry} (hl : s.streams.lookup j = some e) (hs : s'.streams = (s.setEntry j e').streams)
    (ha : out.admits id = none) (ht : out.takes id = none) (hc : op.closes id = true → id = j)
    (hsame : id = j → e'.outgoing = e.outgoing ∧ e'.sendOpen = e.sendOpen ∧ op.closes id = false) :
    Seen id op out (s.outgoingOf id) (s.sendOpen id) (s'.outgoingOf id) (s'.sendOpen id) := by
  have ho : s'.outgoingOf id = s.outgoingOf id := by
    unfold State.outgoingOf
    rw [hs, s.lookup_setEntry]
    split
    · rename_i hj
      rw [hj, hl, map_some, map_some, (hsame hj).1]
    · rfl
  have hp : s'.sendOpen id = s.sendOpen id := by
    unfold State.sendOpen
    rw [hs, s.lookup_setEntry]
    split
    · rename_i hj
      rw [hj, hl, map_some, map_some, (hsame hj).2.1]
    · rfl
  rw [ho, hp]
  refine .same ha ht fun h => ?_
  rw [(hsame (hc h)).2.2] at h
  cases h

/-- **What one session sees of an effect.** -/
theorem Effect.seen (he : Effect s op out s') (hfresh : op.registers = some id → s.streams.lookup id = none) :
    Seen id op out (s.outgoingOf id) (s.sendOpen id) (s'.outgoingOf id) (s'.sendOpen id) := by
  cases he with
  | same hs hq hc =>
    have ho : s'.outgoingOf id = s.outgoingOf id := by unfold State.outgoingOf; rw [hs.streams]
    have hp : s'.sendOpen id = s.sendOpen id := by unfold State.sendOpen; rw [hs.streams]
    rw [ho, hp]
    refine .same (Out.quiet_admits hq) (Out.quiet_takes hq) fun h => ?_
    rw [State.sendOpen, hc id h]
    rfl
  | @register j semantics _ =>
    rw [State.outgoingOf_setEntry, State.sendOpen_setEntry]
    split
    · rename_i hj
      subst hj
      have hn := hfresh rfl
      have ho : s.outgoingOf id = [] := by rw [State.outgoingOf, hn]; rfl
      have hp : s.sendOpen id = false := by rw [State.sendOpen, hn]; rfl
      rw [ho, hp]
      exact .register rfl rfl rfl
    · exact .same rfl rfl fun h => (nomatch h)
  | receive hl => exact .keep hl rfl rfl rfl (fun h => (nomatch h)) fun _ => ⟨rfl, rfl, rfl⟩
  | pollRecv hl => exact .keep hl rfl rfl rfl (fun h => (nomatch h)) fun _ => ⟨rfl, rfl, rfl⟩
  | closeRecv hl => exact .keep hl rfl rfl rfl (fun h => (nomatch h)) fun _ => ⟨rfl, rfl, rfl⟩
  | @take j e packet outgoing ready _ hl ho =>
    by_cases hj : id = j
    · subst hj
      refine .change hl rfl ?_
      rw [ho]
      exact .take rfl (if_pos rfl) rfl
    · exact .keep hl rfl rfl (if_neg (Ne.symm hj)) (fun h => (nomatch h)) fun h => absurd h hj
  | @send j e payload packet hl hopen =>
    by_cases hj : id = j
    · subst hj
      refine .change hl rfl ?_
      rw [hopen]
      exact .enqueue (if_pos rfl) rfl rfl
    · exact .keep hl rfl (if_neg (Ne.symm hj)) rfl (fun h => (nomatch h)) fun h => absurd h hj
  | @closeSend j e hl =>
    by_cases hj : id = j
    · subst hj
      exact .change hl rfl (.shut rfl rfl)
    · refine .keep hl rfl rfl rfl (fun h => ?_) fun h => absurd h hj
      exact (of_decide_eq_true h).symm
  | @close j e hl =>
    by_cases hj : id = j
    · subst hj
      have hn : (s.streams.erase id).lookup id = none := AList.lookup_erase _ _
      have h1 : ((s.streams.erase id).lookup id |>.map Entry.outgoing).getD [] = [] := by rw [hn]; rfl
      have h2 : ((s.streams.erase id).lookup id |>.map Entry.sendOpen).getD false = false := by rw [hn]; rfl
      unfold State.outgoingOf State.sendOpen
      rw [h1, h2]
      exact .shut rfl rfl
    · have hn : (s.streams.erase j).lookup id = s.streams.lookup id := AList.lookup_erase_ne hj
      unfold State.outgoingOf State.sendOpen
      rw [hn]
      refine .same rfl rfl fun h => ?_
      exact absurd (of_decide_eq_true h).symm hj
  | closeAll => exact .shut rfl rfl

/-! ## First in, first out -/

def admitted (id : ℕ) (outs : List Out) : List Bytes := outs.filterMap (Out.admits id)

def taken (id : ℕ) (outs : List Out) : List Bytes := outs.filterMap (Out.takes id)

/-- Of the packets `A` of a session, `T` have been taken and the next ones are in its
queue. If it was closed, the rest is gone. -/
def Queued (s : State) (id : ℕ) (A T : List Bytes) : Prop :=
  ∃ rest, A = T ++ s.outgoingOf id ++ rest ∧ (s.sendOpen id = true → rest = [])

theorem Effect.queued {A T : List Bytes} (he : Effect s op out s')
    (hfresh : op.registers = some id → s.streams.lookup id = none) (hreg : op.registers = some id → A = T)
    (h : Queued s id A T) : Queued s' id (A ++ (out.admits id).toList) (T ++ (out.takes id).toList) := by
  obtain ⟨rest, hA, hrest⟩ := h
  have hs := he.seen hfresh
  unfold Queued
  generalize s.outgoingOf id = q at hs hA
  generalize s.sendOpen id = o at hs hrest
  generalize s'.outgoingOf id = q' at hs
  generalize s'.sendOpen id = o' at hs
  cases hs with
  | same ha ht _ =>
    rw [ha, ht]
    exact ⟨rest, by simpa using hA, hrest⟩
  | register hr ha ht =>
    rw [ha, ht]
    exact ⟨[], by simpa using hreg hr, fun _ => rfl⟩
  | enqueue ha ht _ =>
    rw [ha, ht, hA, hrest rfl]
    exact ⟨[], by simp, fun _ => rfl⟩
  | take ha ht _ =>
    rw [ha, ht, hA]
    exact ⟨rest, by simp, hrest⟩
  | shut ha ht =>
    rw [ha, ht, hA]
    exact ⟨q ++ rest, by simp, fun h => (nomatch h)⟩

theorem Effect.unseen (he : Effect s op out s') (hl : s.streams.lookup id = none) (hop : op.registers ≠ some id) :
    out.admits id = none ∧ out.takes id = none := by
  have hs := he.seen fun h => absurd h hop
  have ho : s.outgoingOf id = [] := by rw [State.outgoingOf, hl]; rfl
  have hp : s.sendOpen id = false := by rw [State.sendOpen, hl]; rfl
  rw [ho, hp] at hs
  generalize s'.outgoingOf id = q' at hs
  generalize s'.sendOpen id = o' at hs
  cases hs with
  | same ha ht _ => exact ⟨ha, ht⟩
  | register hr => exact absurd hr hop
  | shut ha ht => exact ⟨ha, ht⟩

theorem Effects.queued {A T : List Bytes} (he : Effects s ops outs s') (hreg : id ∈ registered ops → A = T)
    (h : Queued s id A T) : Queued s' id (A ++ admitted id outs) (T ++ taken id outs) := by
  induction he generalizing A T with
  | nil _ => simpa [admitted, taken] using h
  | @cons s s₁ t op ops out outs _ hf he _ ih =>
    have hfresh : op.registers = some id → s.streams.lookup id = none := fun h =>
      hf.unknown id (by rw [registered, filterMap_cons_some h]; exact mem_cons_self)
    have hnow : op.registers = some id → A = T := fun h =>
      hreg (by rw [registered, filterMap_cons_some h]; exact mem_cons_self)
    have h₁ := he.queued hfresh hnow h
    have h₂ := ih (fun hid => ?_) h₁
    · have ha : admitted id (out :: outs) = (out.admits id).toList ++ admitted id outs := by
        unfold admitted
        cases hc : out.admits id with
        | none => rw [filterMap_cons_none hc]; rfl
        | some p => rw [filterMap_cons_some hc]; rfl
      have ht : taken id (out :: outs) = (out.takes id).toList ++ taken id outs := by
        unfold taken
        cases hc : out.takes id with
        | none => rw [filterMap_cons_none hc]; rfl
        | some p => rw [filterMap_cons_some hc]; rfl
      rw [ha, ht, ← append_assoc, ← append_assoc]
      exact h₂
    · -- registered later, so nothing of it was seen in this step
      have hop : op.registers ≠ some id := fun h => by
        have := hf.nodup
        rw [registered, filterMap_cons_some h] at this
        exact (nodup_cons.1 this).1 hid
      have hmem : id ∈ registered (op :: ops) := by
        unfold registered
        cases hc : op.registers with
        | none => rw [filterMap_cons_none hc]; exact hid
        | some j => rw [filterMap_cons_some hc]; exact mem_cons_of_mem _ hid
      obtain ⟨ha, ht⟩ := he.unseen (hf.unknown id hmem) hop
      rw [ha, ht, hreg hmem]

theorem Queued.taken_first {A T : List Bytes} (h : Queued s id A T) : T <+: A := by
  obtain ⟨rest, hA, -⟩ := h
  exact ⟨s.outgoingOf id ++ rest, by rw [hA, append_assoc]⟩

/-! ## Turns -/

/-- The session whose packet was taken. -/
def Out.taker : Out → Option ℕ
  | .taken (some (id, _)) => some id
  | _ => none

def takers (outs : List Out) : List ℕ := outs.filterMap Out.taker

theorem Out.quiet_taker (h : out.quiet = true) : out.taker = none := by
  cases out with
  | taken x => cases x with
    | none => rfl
    | some y => cases h
  | done | received | sent | payload => rfl

/-- **The place of a session in the ready list.** Unless it has its turn, others move
behind it or leave, and at most one of them is served. -/
theorem Effect.place {pre post : List ℕ} (he : Effect s op out s') (hc : op.closes id = false)
    (hr : s.ready = pre ++ id :: post) : out.taker = some id ∨
      ∃ pre' post', s'.ready = pre' ++ id :: post' ∧ pre'.length + out.taker.toList.length ≤ pre.length := by
  have hfilter : ∀ j, decide (j = id) = false → ∃ pre' post', s.ready.filter (· ≠ j) = pre' ++ id :: post' ∧
      pre'.length ≤ pre.length := by
    intro j hj
    rw [decide_eq_false_iff_not] at hj
    refine ⟨pre.filter (· ≠ j), post.filter (· ≠ j), ?_, length_filter_le _ _⟩
    rw [hr, filter_append, filter_cons_of_pos (by simpa using Ne.symm hj)]
  cases he with
  | same hs hq => exact .inr ⟨pre, post, hs.ready.trans hr, by rw [Out.quiet_taker hq]; exact le_rfl⟩
  | register => exact .inr ⟨pre, post, hr, le_rfl⟩
  | receive => exact .inr ⟨pre, post, hr, le_rfl⟩
  | @take j e packet outgoing ready hr' =>
    rw [hr] at hr'
    cases pre with
    | nil =>
      injection hr' with hj _
      exact .inl (by rw [hj]; rfl)
    | cons k pre =>
      injection hr' with hj hready
      refine .inr ⟨pre, ?_⟩
      rw [← hready]
      by_cases ho : outgoing ≠ []
      · exact ⟨post ++ [j], by simp [ho], le_rfl⟩
      · exact ⟨post, by simp [ho], le_rfl⟩
  | @send j e payload packet hl hopen =>
    refine .inr ⟨pre, ?_⟩
    by_cases ho : e.outgoing = []
    · exact ⟨post ++ [j], by simp [ho, hr], le_rfl⟩
    · exact ⟨post, by simp [ho, hr], le_rfl⟩
  | pollRecv => exact .inr ⟨pre, post, hr, le_rfl⟩
  | @closeSend j e hl =>
    obtain ⟨pre', post', h1, h2⟩ := hfilter j hc
    exact .inr ⟨pre', post', h1, h2⟩
  | closeRecv => exact .inr ⟨pre, post, hr, le_rfl⟩
  | @close j e hl =>
    obtain ⟨pre', post', h1, h2⟩ := hfilter j hc
    exact .inr ⟨pre', post', h1, h2⟩
  | closeAll => cases hc

theorem Effects.turns {pre post : List ℕ} (he : Effects s ops outs s') (hc : ∀ op ∈ ops, op.closes id = false)
    (hr : s.ready = pre ++ id :: post) : ((takers outs).takeWhile (· ≠ id)).length ≤ pre.length := by
  induction he generalizing pre post with
  | nil _ => exact Nat.zero_le _
  | @cons s s₁ t op ops out outs _ _ he _ ih =>
    have hc' : ∀ op ∈ ops, op.closes id = false := fun o ho => hc o (mem_cons_of_mem _ ho)
    rcases he.place (hc op mem_cons_self) hr with hid | ⟨pre', post', hr', hlen⟩
    · rw [takers, filterMap_cons_some hid, takeWhile_cons_of_neg (by simp)]
      exact Nat.zero_le _
    · have h := ih hc' hr'
      cases ht : out.taker with
      | none =>
        rw [ht] at hlen
        rw [takers, filterMap_cons_none ht]
        exact le_trans h hlen
      | some j =>
        rw [ht] at hlen
        rw [takers, filterMap_cons_some ht]
        by_cases hj : j = id
        · rw [takeWhile_cons_of_neg (by simpa using hj)]
          exact Nat.zero_le _
        · rw [takeWhile_cons_of_pos (by simpa using hj), length_cons]
          exact le_trans (Nat.succ_le_succ h) hlen

end Session

/-- **First in, first out per session, and fair between them.** The packets taken for a
session are the first ones that were queued for it, in order. And behind any sequence of
operations, a session at place `i` of the ready list that is not closed sees at most `i`
packets of others taken before one of its own. -/
theorem next_fifo_fair (decode : Decode) (maxSize : Option ℕ) (ops₁ ops₂ : List Op)
    (h : (registered (ops₁ ++ ops₂)).Nodup) :
    ∃ outs₁ s₁ outs₂ s₂, (State.new maxSize).run decode ops₁ = some (outs₁, s₁) ∧
      s₁.run decode ops₂ = some (outs₂, s₂) ∧
      (∀ id, taken id (outs₁ ++ outs₂) <+: admitted id (outs₁ ++ outs₂)) ∧
      ∀ i id, s₁.ready[i]? = some id → (∀ op ∈ ops₂, op.closes id = false) →
        ((takers outs₂).takeWhile (· ≠ id)).length ≤ i := by
  have hf : Fresh (State.new maxSize) (ops₁ ++ ops₂) := ⟨h, fun _ _ => rfl⟩
  obtain ⟨outs₁, s₁, hr₁, he₁, hx₁, hf₁⟩ := State.run_effects decode ops₁ ops₂ (State.new_exact maxSize) hf
  obtain ⟨outs₂, s₂, hr₂, he₂, -⟩ := State.run_effects decode ops₂ [] hx₁ (by rwa [append_nil])
  refine ⟨outs₁, s₁, outs₂, s₂, hr₁, hr₂, fun id => ?_, fun i id hi hc => ?_⟩
  · have hq : Queued (State.new maxSize) id [] [] := ⟨[], rfl, fun _ => rfl⟩
    exact ((he₁.append he₂ hf).queued (fun _ => rfl) hq).taken_first
  · obtain ⟨hlt, hget⟩ := List.getElem?_eq_some_iff.1 hi
    have hready : s₁.ready = s₁.ready.take i ++ id :: s₁.ready.drop (i + 1) := by
      rw [← hget, getElem_cons_drop, take_append_drop]
    exact le_trans (he₂.turns hc hready) (length_take_le _ _)

theorem next_fifo_fair_sample :
    ∃ outs₁ s₁ outs₂ s₂,
      (State.new (some 1200)).run (fun _ => none) [.register 0 true, .register 4 true, .negotiated true,
        .trySend 0 [1, 2], .trySend 4 [3], .trySend 0 [4]] = some (outs₁, s₁) ∧
      s₁.run (fun _ => none) [.next, .trySend 0 [5], .next, .next] = some (outs₂, s₂) ∧
      (∀ id, taken id (outs₁ ++ outs₂) <+: admitted id (outs₁ ++ outs₂)) ∧
      ∀ i id, s₁.ready[i]? = some id →
        (∀ op ∈ ([.next, .trySend 0 [5], .next, .next] : List Op), op.closes id = false) →
        ((takers outs₂).takeWhile (· ≠ id)).length ≤ i :=
  next_fifo_fair _ _ _ _ (by decide)

end Netty.Datagram
