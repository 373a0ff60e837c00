import Netty.Proof.Head
import Netty.Proof.Upgrade

/-!
# The bytes behind an upgrade

A connection that is upgraded has read the heads in front of the payload, and maybe
some of the payload. What it read and did not parse is handed over in front of the
transport.

* `Feeds`, `Transport.Delivers`: a transport that brings a given stream, in any pieces.
* `Upgraded.readAll_split`, `readAll_whole`: what is read from the two together.
* `Conn.Listens`: reading and closing, while no message is parsed or written.
* `Arriving`, `Conn.Stage`: the heads of the stream have arrived so far, and where the
  connection is with them.
* `upgrade_payload`: what is read after the upgrade is the payload.
-/

namespace Netty

open List

/-! ## What a transport brings -/

def readBytes (evs : List ReadEv) : Bytes := evs.flatMap ReadEv.bytes

/-- The answers bring a front of `s`, and all of it in case of `all`. -/
structure Feeds (all : Prop) (reads : Stream' ReadEv) (s : Bytes) : Prop where
  front : ∀ n, readBytes (reads.take n) <+: s
  whole : all → ∃ n, readBytes (reads.take n) = s

section

variable {all : Prop} {reads : Stream' ReadEv} {s : Bytes}

theorem readBytes_succ (reads : Stream' ReadEv) (n : ℕ) :
    readBytes (reads.take (n + 1)) = reads.head.bytes ++ readBytes (reads.tail.take n) := rfl

theorem Feeds.tail (h : Feeds all reads s) : ∃ s', s = reads.head.bytes ++ s' ∧ Feeds all reads.tail s' := by
  obtain ⟨s', hs⟩ : reads.head.bytes <+: s := by
    have h1 := h.front 1
    rw [readBytes_succ] at h1
    exact (prefix_append _ _).trans h1
  subst hs
  refine ⟨s', rfl, fun n => ?_, fun ha => ?_⟩
  · have hn := h.front (n + 1)
    rw [readBytes_succ] at hn
    exact (prefix_append_right_inj _).1 hn
  · obtain ⟨n, hn⟩ := h.whole ha
    cases n with
    | zero =>
      have hnil : s' = [] := (append_eq_nil_iff.1 hn.symm).2
      exact ⟨0, hnil.symm⟩
    | succ n =>
      rw [readBytes_succ] at hn
      exact ⟨n, append_cancel_left hn⟩

theorem Feeds.cons (ev : ReadEv) (h : Feeds all reads s) : Feeds all (Stream'.cons ev reads) (ev.bytes ++ s) := by
  refine ⟨fun n => ?_, fun ha => ?_⟩
  · cases n with
    | zero => exact nil_prefix
    | succ n => exact (prefix_append_right_inj _).2 (h.front n)
  · obtain ⟨n, hn⟩ := h.whole ha
    exact ⟨n + 1, congrArg (ev.bytes ++ ·) hn⟩

end

/-- All that the transport has brought and will bring is a front of `s`, or `s`. -/
def Transport.Delivers (all : Prop) (s : Bytes) (io : Transport) : Prop :=
  ∃ rest, io.received ++ rest = s ∧ Feeds all io.reads rest

namespace Transport

variable {all : Prop} {s : Bytes} {io io' : Transport}

theorem Delivers.of_eq (h : io.Delivers all s) (hr : io'.reads = io.reads) (hc : io'.received = io.received) :
    io'.Delivers all s := by
  unfold Delivers at *
  rw [hr, hc]
  exact h

theorem Delivers.prefix_of (h : io.Delivers all s) : io.received <+: s := h.imp fun _ h => h.1

theorem Delivers.next (h : io.Delivers all s) (hr : io'.reads = io.reads.tail)
    (hc : io'.received = io.received ++ io.reads.head.bytes) : io'.Delivers all s := by
  obtain ⟨rest, hs, hf⟩ := h
  obtain ⟨rest', rfl, hf'⟩ := hf.tail
  exact ⟨rest', by rw [hc, append_assoc, hs], hr ▸ hf'⟩

end Transport

variable {β : Type}

theorem Buffered.pollReadFromIo_received [LawfulBuf β] (b : Buffered β) :
    b.pollReadFromIo.2.io.received = b.io.received ++ b.io.reads.head.bytes ∧
      b.pollReadFromIo.2.readBuf = b.readBuf ++ b.io.reads.head.bytes := by
  rw [b.pollReadFromIo_eq]
  cases b.io.reads.head with
  | ok bytes => exact ⟨rfl, rfl⟩
  | err e => exact ⟨(append_nil _).symm, (append_nil _).symm⟩
  | pending => exact ⟨(append_nil _).symm, (append_nil _).symm⟩

theorem Transport.Delivers.pollReadFromIo [LawfulBuf β] {all : Prop} {s : Bytes} {b : Buffered β}
    (h : b.io.Delivers all s) : b.pollReadFromIo.2.io.Delivers all s :=
  h.next b.pollReadFromIo_reads b.pollReadFromIo_received.1

/-! ## Reading from an upgraded connection -/

section

variable {all : Prop} {s : Bytes} {io : Transport}

def gained : Poll (Except IoError Bytes) → Bytes
  | .ready (.ok bytes) => bytes
  | _ => []

theorem Transport.pollReadInto_gained (io : Transport) (room : ℕ) :
    gained (io.pollReadInto room).1 = io.reads.head.bytes.take room ∧
      (io.pollReadInto room).2.received = io.received ++ io.reads.head.bytes.take room := by
  unfold pollReadInto
  cases io.reads.head with
  | ok bytes => exact ⟨rfl, rfl⟩
  | err e => simp [ReadEv.bytes, gained]
  | pending => simp [ReadEv.bytes, gained]

theorem Transport.pollReadInto_reads (io : Transport) (room : ℕ) :
    (io.pollReadInto room).2.reads = if io.reads.head.bytes.length ≤ room then io.reads.tail
      else Stream'.cons (.ok (io.reads.head.bytes.drop room)) io.reads.tail := by
  unfold pollReadInto
  cases io.reads.head with
  | ok bytes => rfl
  | err e => simp [ReadEv.bytes]
  | pending => simp [ReadEv.bytes]

theorem Feeds.pollReadInto (h : Feeds all io.reads s) (room : ℕ) :
    ∃ s', s = io.reads.head.bytes.take room ++ s' ∧ Feeds all (io.pollReadInto room).2.reads s' := by
  obtain ⟨s', rfl, hf⟩ := h.tail
  rw [io.pollReadInto_reads]
  split
  · rename_i hle
    exact ⟨s', by rw [take_of_length_le hle], hf⟩
  · refine ⟨io.reads.head.bytes.drop room ++ s', ?_, hf.cons (.ok (io.reads.head.bytes.drop room))⟩
    rw [← append_assoc, take_append_drop]

theorem Transport.Delivers.pollReadInto (h : io.Delivers all s) (room : ℕ) :
    (io.pollReadInto room).2.Delivers all s := by
  obtain ⟨rest, rfl, hf⟩ := h
  obtain ⟨rest', rfl, hf'⟩ := hf.pollReadInto room
  exact ⟨rest', by rw [(io.pollReadInto_gained room).2, append_assoc], hf'⟩

end

namespace Upgraded

variable {all : Prop} {s : Bytes} {u : Upgraded}

/-- The bytes that were read before the hand-over and are not handed out yet. -/
def front (u : Upgraded) : Bytes := u.io.pre.getD []

theorem pollRead_front (h : u.front ≠ []) (room : ℕ) :
    gained (u.pollRead room).1 = u.front.take room ∧ (u.pollRead room).2.front = u.front.drop room ∧
      (u.pollRead room).2.io.inner = u.io.inner := by
  obtain ⟨pre, inner⟩ := u
  cases pre with
  | none => exact absurd rfl h
  | some pre =>
    have hne : pre ≠ [] := h
    have htake : pre.take (min pre.length room) = pre.take room := by
      rw [Nat.min_comm, ← take_take, take_length]
    have hdrop : pre.drop (min pre.length room) = pre.drop room := by
      rcases Nat.le_total pre.length room with hle | hle
      · rw [min_eq_left hle, drop_length, drop_eq_nil_of_le hle]
      · rw [min_eq_right hle]
    simp only [pollRead, Rewind.pollRead, if_pos hne, htake, hdrop]
    refine ⟨rfl, ?_, rfl⟩
    show Option.getD (if pre.drop room ≠ [] then _ else _) [] = pre.drop room
    split
    · rfl
    · rename_i hnil
      exact (not_not.1 hnil).symm

theorem pollRead_inner (h : u.front = []) (room : ℕ) :
    gained (u.pollRead room).1 = u.io.inner.reads.head.bytes.take room ∧ (u.pollRead room).2.front = [] ∧
      (u.pollRead room).2.io.inner = (u.io.inner.pollReadInto room).2 := by
  have hread : u.io.pollRead room = u.io.pollInner room := by
    unfold Rewind.pollRead
    split
    · rename_i pre hpre
      have hnil : pre = [] := by rwa [front, hpre] at h
      rw [if_neg (not_not.2 hnil)]
    · rfl
  unfold pollRead
  rw [hread]
  exact ⟨(u.io.inner.pollReadInto_gained room).1, rfl, rfl⟩

theorem readAll_cons (u : Upgraded) (room : ℕ) (rooms : List ℕ) :
    (u.readAll (room :: rooms)).1 = gained (u.pollRead room).1 ++ ((u.pollRead room).2.readAll rooms).1 ∧
      (u.readAll (room :: rooms)).2 = ((u.pollRead room).2.readAll rooms).2 := by
  rw [readAll]
  rcases u.pollRead room with ⟨(e | bytes) | _ | _ | _, u'⟩ <;> exact ⟨rfl, rfl⟩

/-- **Nothing is lost on the way**: behind the first `q`, what the transport has brought is
what was read and what is still in front. -/
theorem readAll_split (rooms : List ℕ) : ∀ {u : Upgraded} {q : Bytes}, u.io.inner.received = q ++ u.front →
    u.io.inner.Delivers all s →
      (u.readAll rooms).2.io.inner.received = q ++ ((u.readAll rooms).1 ++ (u.readAll rooms).2.front) ∧
      (u.readAll rooms).2.io.inner.Delivers all s := by
  induction rooms with
  | nil => intro u q hq hd; exact ⟨hq, hd⟩
  | cons room rooms ih =>
    intro u q hq hd
    obtain ⟨h1, h2⟩ := u.readAll_cons room rooms
    rw [h1, h2]
    by_cases hf : u.front = []
    · obtain ⟨hg, hf', hi⟩ := pollRead_inner hf room
      have := ih (u := (u.pollRead room).2) (q := q ++ gained (u.pollRead room).1)
        (by rw [hi, hf', hg, (u.io.inner.pollReadInto_gained room).2, hq, hf]; simp)
        (by rw [hi]; exact hd.pollReadInto room)
      simpa only [append_assoc] using this
    · obtain ⟨hg, hf', hi⟩ := pollRead_front hf room
      have := ih (u := (u.pollRead room).2) (q := q ++ gained (u.pollRead room).1)
        (by rw [hi, hf', hg, hq, append_assoc, take_append_drop]) (by rw [hi]; exact hd)
      simpa only [append_assoc] using this

/-- **Everything is read**, with room for a byte in each buffer and enough of them: each
read takes a byte off the front, or a byte or an answer off the transport. -/
theorem readAll_whole (rooms : List ℕ) (hrooms : ∀ room ∈ rooms, 0 < room) : ∀ {u : Upgraded} {rest : Bytes} {n : ℕ},
    Feeds all u.io.inner.reads rest → readBytes (u.io.inner.reads.take n) = rest →
    u.front.length + (rest.length + n) ≤ rooms.length → (u.readAll rooms).1 = u.front ++ rest := by
  induction rooms with
  | nil =>
    intro u rest n _ _ hle
    have hf : u.front = [] := length_eq_zero_iff.1 (by simp only [length_nil] at hle; omega)
    have hr : rest = [] := length_eq_zero_iff.1 (by simp only [length_nil] at hle; omega)
    rw [hf, hr]
    rfl
  | cons room rooms ih =>
    intro u rest n hfeeds hn hle
    have hpos : 0 < room := hrooms room mem_cons_self
    have hrest : ∀ r ∈ rooms, 0 < r := fun r hr => hrooms r (mem_cons_of_mem _ hr)
    rw [length_cons] at hle
    rw [(u.readAll_cons room rooms).1]
    by_cases hf : u.front = []
    · obtain ⟨hg, hf', hi⟩ := pollRead_inner hf room
      obtain ⟨rest', hsplit, hfeeds'⟩ := hfeeds.pollReadInto room
      rw [hf, length_nil] at hle
      rw [hg, hf, nil_append, hsplit]
      congr 1
      -- one answer less, or one that is shorter by what was read
      obtain ⟨m, hm, hlt⟩ : ∃ m, readBytes ((u.io.inner.pollReadInto room).2.reads.take m) = rest' ∧
          rest'.length + m ≤ rooms.length := by
        have hlen := congrArg List.length hsplit
        rw [length_append, length_take] at hlen
        cases n with
        | zero =>
          have hnil : rest = [] := hn.symm
          rw [hnil] at hsplit
          exact ⟨0, (append_eq_nil_iff.1 hsplit.symm).2.symm, by
            rw [(append_eq_nil_iff.1 hsplit.symm).2]; exact Nat.zero_le _⟩
        | succ n =>
          rw [readBytes_succ, hsplit] at hn
          rw [u.io.inner.pollReadInto_reads]
          split
          · rename_i hfit
            rw [take_of_length_le hfit] at hn
            exact ⟨n, append_cancel_left hn, by omega⟩
          · rename_i hmore
            refine ⟨n + 1, ?_, by omega⟩
            rw [← take_append_drop room u.io.inner.reads.head.bytes, append_assoc] at hn
            refine Eq.trans ?_ (append_cancel_left (hn.trans ?_))
            · rfl
            · rw [take_append_drop]
      have := ih hrest (u := (u.pollRead room).2) (n := m) (by rw [hi]; exact hfeeds')
        (by rw [hi]; exact hm) (by rw [hf', length_nil]; omega)
      rw [this, hf', nil_append]
    · obtain ⟨hg, hf', hi⟩ := pollRead_front hf room
      have hlen : (u.front.drop room).length < u.front.length := by
        have := length_pos_iff.2 hf
        rw [length_drop]
        omega
      have := ih hrest (u := (u.pollRead room).2) (by rw [hi]; exact hfeeds) (by rw [hi]; exact hn)
        (by rw [hf']; omega)
      rw [this, hg, hf', ← append_assoc, take_append_drop]

end Upgraded

/-! ## Reading and closing -/

namespace Conn

open Relation

variable {β : Type} [LawfulBuf β] {H : Httparse} {c c' : Conn β}

/-- What decides how the next head is read is as it was. -/
structure Stays (c c' : Conn β) : Prop where
  reading : c'.state.reading = c.state.reading
  writing : c'.state.writing = c.state.writing
  context : c'.parseContext = c.parseContext
  cachedHeaders : c'.state.cachedHeaders = c.state.cachedHeaders
  keepAlive : c.state.keepAlive = .disabled → c'.state.keepAlive = .disabled

/-- No message was parsed or written: bytes may have been read, and the connection may
have been closed. -/
structure Listens (c c' : Conn β) : Prop where
  unwritten : c.state.Unwritten c'.state
  delivers : ∀ {all s}, c.io.io.Delivers all s → c'.io.io.Delivers all s
  heard : ∃ y, c'.io.io.received = c.io.io.received ++ y ∧ c'.io.readBuf = c.io.readBuf ++ y
  partialLen : c'.io.partialLen = c.io.partialLen
  upgrade : c'.state.upgrade = true → c.state.upgrade = true
  stays : (c.state.reading = .keepAlive → c.state.keepAlive = .disabled) → Stays c c' ∨ c'.state.reading = .closed

namespace Listens

theorem trans {c'' : Conn β} (h : Listens c c') (h' : Listens c' c'') : Listens c c'' := by
  obtain ⟨y, hy, hb⟩ := h.heard
  obtain ⟨y', hy', hb'⟩ := h'.heard
  refine ⟨h.unwritten.trans h'.unwritten, fun hd => h'.delivers (h.delivers hd), ⟨y ++ y', ?_, ?_⟩,
    h'.partialLen.trans h.partialLen, fun hu => h.upgrade (h'.upgrade hu), fun hk => ?_⟩
  · rw [hy', hy, append_assoc]
  · rw [hb', hb, append_assoc]
  · rcases h.stays hk with s | hc
    · rcases h'.stays (fun hr => s.keepAlive (hk (s.reading ▸ hr))) with s' | hc
      · exact .inl ⟨s'.reading.trans s.reading, s'.writing.trans s.writing, s'.context.trans s.context,
          s'.cachedHeaders.trans s.cachedHeaders, fun hd => s'.keepAlive (s.keepAlive hd)⟩
      · exact .inr hc
    · rcases h'.stays (fun hr => by rw [hc] at hr; cases hr) with s' | hc'
      · exact .inr (s'.reading.trans hc)
      · exact .inr hc'

theorem ofState {s : State} (hu : c.state.Unwritten s) (hup : s.upgrade = true → c.state.upgrade = true)
    (hs : (c.state.reading = .keepAlive → c.state.keepAlive = .disabled) →
      Stays c { c with state := s } ∨ s.reading = .closed) : Listens c { c with state := s } :=
  ⟨hu, id, ⟨[], (append_nil _).symm, (append_nil _).symm⟩, rfl, hup, hs⟩

theorem refl (c : Conn β) : Listens c c :=
  ofState (State.unwritten_of_eq rfl rfl) id fun _ => .inl ⟨rfl, rfl, rfl, rfl, id⟩

theorem note {ev : Ev} (h : ¬ev.Writes) : Listens c (c.note ev) :=
  ofState (c.state.unwritten_note ev h) id fun _ => .inl ⟨rfl, rfl, rfl, rfl, id⟩

theorem closeRead : Listens c c.closeRead :=
  ofState (State.unwritten_closed rfl (.inr rfl)) id fun _ => .inr rfl

theorem close : Listens c (c.modify State.close) :=
  ofState (State.unwritten_closed rfl (.inl rfl)) id fun _ => .inr rfl

theorem closeBoth : Listens c c.closeRead.closeWrite :=
  closeRead.trans (ofState (State.unwritten_closed rfl (.inl rfl)) id fun _ => .inr rfl)

theorem sameReads {io : Buffered (EncodedBuf β)} (h : c.io.SameReads io) : Listens c { c with io := io } :=
  ⟨State.unwritten_of_eq rfl rfl, fun hd => hd.of_eq h.reads h.received,
    ⟨[], by rw [append_nil]; exact h.received, by rw [append_nil]; exact h.readBuf⟩, h.partialLen, id,
    fun _ => .inl ⟨rfl, rfl, rfl, rfl, id⟩⟩

theorem read : Listens c { c with io := c.io.pollReadFromIo.2 } :=
  ⟨State.unwritten_of_eq rfl rfl, fun hd => hd.pollReadFromIo, ⟨_, c.io.pollReadFromIo_received⟩,
    c.io.pollReadFromIo_partialLen, id, fun _ => .inl ⟨rfl, rfl, rfl, rfl, id⟩⟩

end Listens

theorem maybeNotify_context (c : Conn β) :
    c.maybeNotify.parseContext = c.parseContext ∧ c.maybeNotify.state.upgrade = c.state.upgrade := by
  unfold maybeNotify
  split
  · exact ⟨rfl, rfl⟩
  split
  · exact ⟨rfl, rfl⟩
  split
  · exact ⟨rfl, rfl⟩
  split
  · exact ⟨rfl, rfl⟩
  split
  · dsimp only
    split
    · split <;> exact ⟨rfl, rfl⟩
    · exact ⟨rfl, rfl⟩
  · exact ⟨rfl, rfl⟩
  · exact ⟨rfl, rfl⟩

theorem Listens.maybeNotify (c : Conn β) : Listens c c.maybeNotify := by
  obtain ⟨hctx, hup⟩ := c.maybeNotify_context
  have stays : ∀ s : State, c.state.Same s → ({ c with state := s } : Conn β).parseContext = c.parseContext →
      Stays c { c with state := s } := fun s hs hc =>
    { hs with context := hc, keepAlive := fun hk => hs.keepAlive.trans hk }
  rcases c.maybeNotify_cases with ⟨⟨s, hs, hn⟩, -⟩ | ⟨-, -, s, hn, hs⟩ <;> rw [hn] at hctx hup ⊢
  · exact ofState hs.unwritten (fun h => hup ▸ h) fun _ => .inl (stays s hs hctx)
  · refine read.trans (ofState ?_ (fun h => hup ▸ h) fun _ => ?_)
    · rcases hs with ⟨hs, -⟩ | hs | ⟨hs, -⟩
      · exact hs.unwritten
      · exact State.unwritten_closed hs.log (.inl hs.writing)
      · exact State.unwritten_closed hs.log (.inr hs.writing)
    · rcases hs with ⟨hs, -⟩ | hs | ⟨hs, -⟩
      · exact .inl { hs with context := hctx, keepAlive := fun hk => hs.keepAlive.trans hk }
      · exact .inr hs.reading
      · exact .inr hs.reading

theorem Listens.tryKeepAlive (c : Conn β) : Listens c c.tryKeepAlive := by
  refine Listens.trans ?_ (Listens.maybeNotify (c.modify State.tryKeepAlive))
  refine ofState c.state.unwritten_tryKeepAlive ?_ fun hk => ?_
  · rcases c.state.tryKeepAlive_cases with ⟨h, -⟩ | ⟨h, -⟩ | h <;> rw [h] <;> exact id
  · rcases c.state.tryKeepAlive_cases with ⟨h, -⟩ | ⟨-, hr, -, hb⟩ | h
    · rw [h]
      exact .inl ⟨rfl, rfl, rfl, rfl, id⟩
    · rw [hk hr] at hb
      cases hb
    · rw [h]
      exact .inr rfl

theorem Listens.ofSteps (h : ReflTransGen Listens c c') : Listens c c' := by
  induction h with
  | refl => exact .refl c
  | tail _ hs ih => exact ih.trans hs

theorem pollReadKeepAlive_listens (c : Conn β) : Listens c c.pollReadKeepAlive.2 :=
  .ofSteps (pollReadKeepAlive_reaches (fun _ => .read) (fun _ => .close) fun _ => .closeRead)

theorem pollFlush_listens (c : Conn β) : Listens c c.pollFlush.2 :=
  .ofSteps (pollFlush_reaches (fun c => .sameReads c.io.pollFlush_sameReads) (fun _ _ => .note id) .tryKeepAlive)

end Conn

/-! ## The heads in front of the payload -/

variable {H : Httparse}

/-- How a head is read depends on the options of the parser only. -/
theorem ReadsAs.congr {ctx ctx' : ParseContext} {cached : Option HeaderMap} {h : Bytes} {x : ResponseHead × Bool}
    (hcfg : ctx'.h1ParserConfig = ctx.h1ParserConfig) (hmax : ctx'.h1MaxHeaders = ctx.h1MaxHeaders)
    (hc : Unused cached) (hr : ReadsAs H ctx none h x) : ReadsAs H ctx' cached h x := by
  obtain ⟨raw, head, hh, hcheck, hread⟩ := hr
  refine ⟨raw, head, ⟨?_, ?_, hh.len, hh.ends⟩, hcheck, ?_⟩
  · rw [hcfg, hmax]
    exact hh.complete
  · rw [hcfg, hmax]
    exact hh.short
  · unfold Client.readHead at hread ⊢
    rw [hcfg, show cached.getD .empty = .empty from hc]
    exact hread

def headContext (opts : Http1Options) : ParseContext where
  reqMethod := none
  h1ParserConfig := opts.h1ParserConfig
  h1MaxHeaders := opts.h1MaxHeaders
  h1MaxHeaderSize := none
  h09Responses := false
  onInformational := false

/-- A stream that switches protocols: interim heads, the head that does it, and bytes of
the other protocol. -/
structure UpgradeStream (H : Httparse) (opts : Http1Options) where
  interim : List (Bytes × ResponseHead)
  final : Bytes
  head : ResponseHead × Bool
  payload : Bytes
  interim_reads : ∀ i ∈ interim, (∃ keepAlive, ReadsAs H (headContext opts) none i.1 (i.2, keepAlive)) ∧
    i.2.subject.code < 200 ∧ i.2.subject.code ≠ 101
  final_reads : ReadsAs H (headContext opts) none final head
  status : head.1.subject.code = 101 ∨ 200 ≤ head.1.subject.code ∧ head.1.subject.code < 300

namespace UpgradeStream

variable {H : Httparse} {opts : Http1Options}

def heads (s : UpgradeStream H opts) : Bytes := bytesOf s.interim s.final

def bytes (s : UpgradeStream H opts) : Bytes := s.heads ++ s.payload

def msg (s : UpgradeStream H opts) : ParsedMessage := ⟨s.head.1, .zero, false, s.head.2 && !true, true⟩

theorem decoder_msg (s : UpgradeStream H opts) {m : Option Method}
    (h : s.head.1.subject.code = 101 ∨ m = some .connect) : Client.decoder s.head.1 m = .ok (some (.zero, true)) := by
  unfold Client.decoder
  rcases s.status with hs | ⟨h1, h2⟩
  · simp [hs]
  · have h3 : ¬ s.head.1.subject.code = 101 := by omega
    have h4 : ¬ s.head.1.subject.code < 200 := by omega
    simp [h3, h4, h2, h.resolve_left h3]

theorem heads_of (s : UpgradeStream H opts) {ctx : ParseContext} (hcfg : ctx.h1ParserConfig = opts.h1ParserConfig)
    (hmax : ctx.h1MaxHeaders = opts.h1MaxHeaders) (h : s.head.1.subject.code = 101 ∨ ctx.reqMethod = some .connect)
    {cached : Option HeaderMap} (hc : Unused cached) : Heads H ctx cached s.interim s.final s.msg := by
  have key : ∀ (is : List (Bytes × ResponseHead)) (cached : Option HeaderMap), Unused cached →
      (∀ i ∈ is, i ∈ s.interim) → Heads H ctx cached is s.final s.msg := by
    intro is
    induction is with
    | nil => intro cached hc _; exact .final (s.final_reads.congr hcfg hmax hc) (s.decoder_msg h)
    | cons i is ih =>
      intro cached hc hmem
      obtain ⟨⟨ka, hr⟩, hstatus⟩ := s.interim_reads i (hmem i mem_cons_self)
      exact .interim (x := (i.2, ka)) (hr.congr hcfg hmax hc) hstatus
        (ih none rfl fun j hj => hmem j (mem_cons_of_mem _ hj))
  exact key _ _ hc fun _ hi => hi

end UpgradeStream

section

variable {β : Type} [LawfulBuf β] {H : Httparse} {opts : Http1Options} {s : UpgradeStream H opts} {all : Prop}
  {ctx : ParseContext} {r : HeadReader β} {left : List (Bytes × ResponseHead)} {used : Bytes}

/-- The heads in front of `left` were read, and their bytes are `used`. -/
structure Arriving (s : UpgradeStream H opts) (all : Prop) (ctx : ParseContext) (r : HeadReader β)
    (left : List (Bytes × ResponseHead)) (used : Bytes) : Prop where
  heads : Heads H ctx r.cachedHeaders left s.final s.msg
  whole : used ++ (bytesOf left s.final ++ s.payload) = s.bytes
  delivers : r.io.io.Delivers all s.bytes
  received : r.io.io.received = used ++ r.io.readBuf
  partialOk : PartialOk r.io.partialLen r.io.readBuf (nextOf left s.final)

/-- What a call makes of the heads: the message, with the bytes behind it still in the
buffer; an error; or no answer. -/
inductive HeadRead (s : UpgradeStream H opts) (all : Prop) (ctx : ParseContext) :
    Poll (Except Error ParsedMessage) × HeadReader β → Prop
  | found {r : HeadReader β} (delivers : r.io.io.Delivers all s.bytes)
      (received : r.io.io.received = s.heads ++ r.io.readBuf) : HeadRead s all ctx (.ready (.ok s.msg), r)
  | failed {e : Error} {r : HeadReader β} : HeadRead s all ctx (.ready (.error e), r)
  | waiting {p : Poll (Except Error ParsedMessage)} {r : HeadReader β} {left : List (Bytes × ResponseHead)}
      {used : Bytes} (none : ∀ res, p ≠ .ready res) (arriving : Arriving s all ctx r left used) :
      HeadRead s all ctx (p, r)

theorem Arriving.read (h : Arriving s all ctx r left used) :
    Arriving s all ctx { r with io := r.io.pollReadFromIo.2 } left used := by
  obtain ⟨hrec, hbuf⟩ := r.io.pollReadFromIo_received
  refine ⟨h.heads, h.whole, h.delivers.pollReadFromIo, ?_, fun p hp => ?_⟩
  · show r.io.pollReadFromIo.2.io.received = used ++ r.io.pollReadFromIo.2.readBuf
    rw [hrec, hbuf, h.received, append_assoc]
  · obtain ⟨h1, h2⟩ := h.partialOk p (r.io.pollReadFromIo_partialLen ▸ hp)
    refine ⟨?_, h2⟩
    show p ≤ r.io.pollReadFromIo.2.readBuf.length
    rw [hbuf, length_append]
    omega

theorem Arriving.partway {post : List (Bytes × ResponseHead)} {rest buf : Bytes} (h : Arriving s all ctx r left used)
    (hrest : r.io.io.received ++ rest = s.bytes) (sub : post <:+ left)
    (hleft : buf ++ rest = bytesOf post s.final ++ s.payload) :
    ∃ used', used' ++ (bytesOf post s.final ++ s.payload) = s.bytes ∧ r.io.io.received = used' ++ buf := by
  obtain ⟨pre, rfl⟩ := sub
  have hwhole : (used ++ pre.flatMap Prod.fst) ++ (bytesOf post s.final ++ s.payload) = s.bytes := by
    rw [← h.whole]
    simp [bytesOf]
  refine ⟨_, hwhole, append_cancel_right (hrest.trans ?_)⟩
  rw [← hwhole, ← hleft, append_assoc _ buf rest]

/-- **One round** of `Buffered::parse`. -/
theorem Arriving.round (h : Arriving s all ctx r left used) :
    (HeadReader.parseRound H ctx r).Sat (fun r' => ∃ left used, Arriving s all ctx r' left used)
    (HeadRead s all ctx) := by
  obtain ⟨rest, hrest, -⟩ := h.delivers
  have hmore : r.io.readBuf ++ rest = bytesOf left s.final ++ s.payload := by
    have heq : used ++ (r.io.readBuf ++ rest) = used ++ (bytesOf left s.final ++ s.payload) := by
      rw [h.whole, ← hrest, h.received, append_assoc]
    exact append_cancel_left heq
  have hread := parseHeaders_ok r.informed h.heads hmore h.partialOk
  unfold HeadReader.parseRound
  rw [HeadReader.parsing]
  generalize parseHeaders H r.io.partialLen ctx ⟨r.io.readBuf, r.cachedHeaders, r.informed⟩ = x at hread
  cases hread with
  | @found buf c inf' out hleft =>
    refine .found h.delivers (append_cancel_right (hrest.trans ?_))
    show s.heads ++ s.payload = (s.heads ++ buf) ++ rest
    rw [append_assoc, hleft]
  | tooLarge => exact .failed
  | @partway post buf c inf' heads sub out hleft short first =>
    obtain ⟨used', hwhole, hrec⟩ := h.partway hrest sub hleft
    show (if ctx.h1MaxHeaderSize.any (· ≤ buf.length) then _ else _ : Ctl (Except Error ParsedMessage) _).Sat _ _
    split
    · exact .failed
    show (if r.io.readBufStrategy.max ≤ buf.length then _ else _ : Ctl (Except Error ParsedMessage) _).Sat _ _
    split
    · exact .failed
    have harr : Arriving s all ctx (r.put ⟨buf, c, inf'⟩).setPartialLen post used' := by
      refine ⟨heads, hwhole, h.delivers, hrec, fun p hp => ?_⟩
      have hlen : p = buf.length := HeadReader.partialLen_setPartialLen hp
      exact ⟨le_of_eq hlen, hlen ▸ short⟩
    refine Ctl.whenReady_sat (fun res t ht => ?_) fun p hp => .waiting hp harr.read
    have ht' : t = _ := (congrArg Prod.snd ht).symm
    rw [ht']
    cases res with
    | error e => exact .failed
    | ok n =>
      show (if n = 0 then _ else _ : Ctl (Except Error ParsedMessage) _).Sat _ _
      split
      · exact .failed
      · exact ⟨post, used', harr.read⟩

/-- **One call** of `Buffered::parse`. -/
theorem Arriving.parse (h : Arriving s all ctx r left used) (fuel : ℕ) :
    HeadRead s all ctx (HeadReader.parse H ctx fuel r) :=
  loop_inv (I := fun r => ∃ left used, Arriving s all ctx r left used) (fun _ ⟨_, _, h⟩ => h.round)
    (fun _ ⟨_, _, h⟩ => .waiting (by simp) h) fuel r ⟨left, used, h⟩

end

/-! ## The connection -/

def Ev.request : Ev → Option RequestHead
  | .wroteHead _ head _ _ => some head
  | _ => none

/-- The first request head that was written. The log is latest first. -/
def firstHead (log : List Ev) : Option RequestHead := (log.filterMap Ev.request).getLast?

theorem firstHead_append (l log : List Ev) : firstHead (l ++ log) = (firstHead log).or (firstHead l) := by
  unfold firstHead
  rw [filterMap_append, getLast?_append]

theorem firstHead_grows {log log' : List Ev} {head : RequestHead} (h : firstHead log = some head)
    (hlog : log <:+ log') : firstHead log' = some head := by
  obtain ⟨l, rfl⟩ := hlog
  rw [firstHead_append, h]
  rfl

theorem firstHead_unwritten {s s' : State} (h : s.Unwritten s') : firstHead s'.log = firstHead s.log := by
  obtain ⟨l, hl, hev, -⟩ := h
  have hnone : firstHead l = none := by
    unfold firstHead
    rw [getLast?_eq_none_iff, filterMap_eq_nil_iff]
    intro ev hev'
    have hno := hev ev hev'
    cases ev <;> first | rfl | exact absurd trivial hno
  rw [hl, firstHead_append, hnone, Option.or_none]

namespace Conn

section

variable {β : Type} [LawfulBuf β] {H : Httparse} {opts : Http1Options} {s : UpgradeStream H opts} {all : Prop}
  {c c' : Conn β}

/-- The head that switches protocols was read, or the stream is no answer to the request
that was written first. -/
inductive Passed (s : UpgradeStream H opts) (all : Prop) (c : Conn β) : Prop
  | upgraded (delivers : c.io.io.Delivers all s.bytes) (received : c.io.io.received = s.heads ++ c.io.readBuf)
      (ended : c.state.reading = .closed ∨
        c.state.reading = .keepAlive ∧ c.state.writing ≠ .init ∧ c.state.keepAlive = .disabled)
  | other {head : RequestHead} (first : firstHead c.state.log = some head) (method : head.subject.method ≠ .connect)
      (status : s.head.1.subject.code ≠ 101)

/-- **Where a connection is** with the stream. -/
inductive Stage (s : UpgradeStream H opts) (all : Prop) (c : Conn β) : Prop
  /-- No request was written. -/
  | idle (delivers : c.io.io.Delivers all s.bytes) (received : c.io.io.received = c.io.readBuf)
      (partialLen : c.io.partialLen = none) (config : c.state.h1ParserConfig = opts.h1ParserConfig)
      (maxHeaders : c.state.h1MaxHeaders = opts.h1MaxHeaders) (first : firstHead c.state.log = none)
      (reading : c.state.reading = .init) (writing : c.state.writing = .init) (upgrade : c.state.upgrade = false)
  /-- The heads are awaited. -/
  | awaiting {left : List (Bytes × ResponseHead)} {used : Bytes}
      (arriving : Arriving s all c.parseContext ⟨c.io, c.state.cachedHeaders, c.state.informed⟩ left used)
      (reading : c.state.reading = .init) (writing : c.state.writing ≠ .init) (upgrade : c.state.upgrade = false)
  /-- They will not be read. -/
  | lost (reading : c.state.reading = .closed) (upgrade : c.state.upgrade = false)
  | passed (h : Passed s all c)

theorem not_upgrade (h : c'.state.upgrade = true → c.state.upgrade = true) (hc : c.state.upgrade = false) :
    c'.state.upgrade = false := by
  rw [← Bool.not_eq_true] at hc ⊢
  exact fun hu => hc (h hu)

theorem Passed.listens (h : Passed s all c) (hl : Listens c c') : Passed s all c' := by
  obtain ⟨y, hy, hb⟩ := hl.heard
  cases h with
  | upgraded delivers received ended =>
    refine .upgraded (hl.delivers delivers) (by rw [hy, hb, received, append_assoc]) ?_
    have hk : c.state.reading = .keepAlive → c.state.keepAlive = .disabled := fun hr => by
      rcases ended with h | h
      · rw [h] at hr; cases hr
      · exact h.2.2
    rcases hl.stays hk with hs | hc
    · rw [hs.reading, hs.writing]
      exact ended.imp_right fun h => ⟨h.1, h.2.1, hs.keepAlive h.2.2⟩
    · exact .inl hc
  | other first method status =>
    exact .other ((firstHead_unwritten hl.unwritten).trans first) method status

theorem Stage.listens (h : Stage s all c) (hl : Listens c c') : Stage s all c' := by
  obtain ⟨y, hy, hb⟩ := hl.heard
  cases h with
  | idle delivers received partialLen config maxHeaders first reading writing upgrade =>
    have hup := not_upgrade hl.upgrade upgrade
    rcases hl.stays (fun hr => by rw [reading] at hr; cases hr) with hs | hc
    · exact .idle (hl.delivers delivers) (by rw [hy, hb, received]) (hl.partialLen.trans partialLen)
        ((congrArg ParseContext.h1ParserConfig hs.context).trans config)
        ((congrArg ParseContext.h1MaxHeaders hs.context).trans maxHeaders)
        ((firstHead_unwritten hl.unwritten).trans first) (hs.reading.trans reading) (hs.writing.trans writing) hup
    · exact .lost hc hup
  | @awaiting left used arriving reading writing upgrade =>
    have hup := not_upgrade hl.upgrade upgrade
    rcases hl.stays (fun hr => by rw [reading] at hr; cases hr) with hs | hc
    · have harr : Arriving s all c'.parseContext ⟨c'.io, c'.state.cachedHeaders, c'.state.informed⟩ left used := by
        refine ⟨?_, arriving.whole, hl.delivers arriving.delivers, ?_, ?_⟩
        · rw [hs.context]
          show Heads H _ c'.state.cachedHeaders _ _ _
          rw [hs.cachedHeaders]
          exact arriving.heads
        · show c'.io.io.received = used ++ c'.io.readBuf
          rw [hy, hb, show c.io.io.received = _ from arriving.received, append_assoc]
        · intro p hp
          obtain ⟨h1, h2⟩ := arriving.partialOk p (hl.partialLen ▸ hp)
          refine ⟨?_, h2⟩
          show p ≤ c'.io.readBuf.length
          rw [hb, length_append]
          exact le_trans h1 (Nat.le_add_right _ _)
      exact .awaiting harr (hs.reading.trans reading) (by rw [hs.writing]; exact writing) hup
    · exact .lost hc hup
  | lost reading upgrade =>
    refine .lost ?_ (not_upgrade hl.upgrade upgrade)
    rcases hl.stays (fun hr => by rw [reading] at hr; cases hr) with hs | hc
    · exact hs.reading.trans reading
    · exact hc
  | passed h => exact .passed (h.listens hl)

theorem Stage.wrote (h : Stage s all c) (hw : BodyWritten c c') (hc : c.canWriteBody = true) : Stage s all c' := by
  obtain ⟨w, hio⟩ := hw.io
  obtain ⟨w', l, hst, -, hne⟩ := hw.state
  have hni : c.state.writing ≠ .init := by
    intro hi
    simp [canWriteBody, hi] at hc
  obtain ⟨io', st'⟩ := c'
  simp only at hio hst
  subst hio hst
  cases h with
  | idle _ _ _ _ _ _ _ writing _ => exact absurd writing hni
  | awaiting arriving reading _ upgrade =>
    exact .awaiting { arriving with } reading
      (hne hni) upgrade
  | lost reading upgrade => exact .lost reading upgrade
  | passed h =>
    cases h with
    | upgraded delivers received ended =>
      exact .passed (.upgraded delivers received (ended.imp_right fun h => ⟨h.1, hne hni, h.2.2⟩))
    | other first method status =>
      exact .passed (.other (firstHead_grows first (suffix_append l c.state.log)) method status)

theorem enforceVersion_subject (st : State) (head : RequestHead) :
    (enforceVersion st head).2.subject = head.subject := by
  have hfix : (fixKeepAlive st head).2.subject = head.subject := by
    unfold fixKeepAlive
    split
    · rfl
    · split
      · rfl
      · split <;> rfl
      · rfl
  unfold enforceVersion
  split
  · exact hfix
  · split <;> rfl
  · rfl

theorem writeHead_context (c : Conn β) (head : RequestHead) (body : Option BodyLength) :
    (c.writeHead head body).state.h1ParserConfig = c.state.h1ParserConfig ∧
      (c.writeHead head body).state.h1MaxHeaders = c.state.h1MaxHeaders ∧
      (c.writeHead head body).state.method = some head.subject.method ∧
      (c.writeHead head body).state.upgrade = c.state.upgrade := by
  set s₁ := if connectionAnyClose head.headers then c.state.busy.disableKeepAlive else c.state.busy
  have h₂ : c.state.KeepAliveOnly (enforceVersion s₁ head).1 :=
    (c.state.busy_orDisabled_only _).trans (enforceVersion_only s₁ head)
  refine ⟨?_, ?_, ?_, ?_⟩
  · show (enforceVersion s₁ head).1.h1ParserConfig = _
    rw [h₂]
  · show (enforceVersion s₁ head).1.h1MaxHeaders = _
    rw [h₂]
  · show some (enforceVersion s₁ head).2.subject.method = _
    rw [enforceVersion_subject]
  · show (enforceVersion s₁ head).1.upgrade = _
    rw [h₂]

theorem Stage.writeHead (h : Stage s all c) (head : RequestHead) (body : Option BodyLength)
    (hc : c.canWriteHead = true) :
    Stage s all (c.writeHead head body) := by
  have g := c.writeHead_wrote head body
  simp only [canWriteHead, Bool.and_eq_true, decide_eq_true_eq] at hc
  obtain ⟨hopen, hw, -⟩ := hc
  cases h with
  | idle delivers received partialLen config maxHeaders first reading _ upgrade =>
    obtain ⟨hcfg, hmax, hmethod, hup⟩ := c.writeHead_context head body
    by_cases hm : s.head.1.subject.code = 101 ∨ head.subject.method = .connect
    · have harr : Arriving s all (c.writeHead head body).parseContext ⟨(c.writeHead head body).io,
          (c.writeHead head body).state.cachedHeaders, (c.writeHead head body).state.informed⟩ s.interim [] := by
        refine ⟨?_, rfl, delivers, received, fun p hp => ?_⟩
        · refine s.heads_of (hcfg.trans config) (hmax.trans maxHeaders)
            (hm.imp_right fun h => hmethod.trans (congrArg some h)) ?_
          show Unused (c.writeHead head body).state.cachedHeaders
          rw [g.cachedHeaders]
          rfl
        · rw [show (c.writeHead head body).io.partialLen = none from partialLen] at hp
          cases hp
      refine .awaiting harr (g.reading.trans reading) ?_ (hup.trans upgrade)
      rw [g.writing]
      unfold writingDone
      split_ifs <;> simp
    · rw [not_or] at hm
      have hfirst : firstHead (c.writeHead head body).state.log = some head := by
        rw [g.log, singleton_append.symm, firstHead_append, first]
        rfl
      exact .passed (.other hfirst hm.2 hm.1)
  | awaiting _ _ writing _ => exact absurd hw writing
  | lost reading _ => exact absurd reading hopen
  | passed h =>
    cases h with
    | upgraded _ _ ended =>
      rcases ended with h | h
      · exact absurd h hopen
      · exact absurd hw h.2.1
    | other first method status =>
      refine .passed (.other (firstHead_grows first ?_) method status)
      rw [g.log]
      exact suffix_cons _ _

theorem Passed.acceptHead (hd : c.io.io.Delivers all s.bytes) (hr : c.io.io.received = s.heads ++ c.io.readBuf)
    (hw : c.state.writing ≠ .init) : Passed s all (c.acceptHead s.msg) := by
  have g := gotHead_got c.state s.msg
  have hz : s.msg.decode = .zero := rfl
  have hread : (gotHead s.msg c.state).reading = .keepAlive := by
    rcases g.reading with h | h
    · exact h.2
    · exact absurd hz h.1
  have h : Passed s all (c.modify (gotHead s.msg)) := by
    refine .upgraded hd hr (.inr ⟨hread, ?_, g.keepAlive (.inr (Bool.and_false _))⟩)
    show (gotHead s.msg c.state).writing ≠ .init
    rw [g.writing]
    exact hw
  unfold Conn.acceptHead
  simp only [hz, if_true]
  exact h.listens (.tryKeepAlive _)

theorem onReadHeadError_lost (c : Conn β) (e : Error) :
    (c.onReadHeadError e).2.state.reading = .closed ∧ (c.onReadHeadError e).2.state.upgrade = c.state.upgrade ∧
      ∀ x, (c.onReadHeadError e).1 ≠ .ready (some (.ok x)) := by
  unfold onReadHeadError
  dsimp only
  split
  · exact ⟨rfl, rfl, by simp⟩
  · exact ⟨rfl, rfl, by simp⟩

def setReader (c : Conn β) (r : HeadReader (EncodedBuf β)) : Conn β :=
  { c with io := r.io, state := { c.state with cachedHeaders := r.cachedHeaders, informed := r.informed } }

/-- **A look for a head.** If one is found, it is the one that switches protocols. -/
theorem Stage.pollReadHead (h : Stage s all c) (fuel : ℕ) (hc : c.canReadHead = true) :
    Stage s all (c.pollReadHead H fuel).2 ∧
      ∀ x, (c.pollReadHead H fuel).1 = .ready (some (.ok x)) → Passed s all (c.pollReadHead H fuel).2 := by
  have hrw := hc
  simp only [canReadHead, Bool.and_eq_true, decide_eq_true_eq] at hrw
  cases h with
  | idle _ _ _ _ _ _ _ writing _ => exact absurd writing hrw.2
  | awaiting arriving reading writing upgrade =>
    have hread := arriving.parse fuel
    have hparse : c.parse H fuel = within (HeadReader.parse H c.parseContext fuel ⟨c.io, _, _⟩) c.setReader := rfl
    unfold Conn.pollReadHead
    rw [hparse]
    generalize HeadReader.parse H c.parseContext fuel ⟨c.io, c.state.cachedHeaders, c.state.informed⟩ = x at hread
    cases hread with
    | @found r delivers received =>
      have hp : Passed s all ((c.setReader r).acceptHead s.msg) := .acceptHead delivers received writing
      exact ⟨.passed hp, fun _ _ => hp⟩
    | @failed e r =>
      obtain ⟨h1, h2, h3⟩ := (c.setReader r).onReadHeadError_lost e
      exact ⟨.lost h1 (h2.trans upgrade), fun x hx => absurd hx (h3 x)⟩
    | @waiting p r _ _ none arriving =>
      have hst : ∀ q : Poll (Option (Except Error (ResponseHead × DecodedLength × Wants))), (∀ y, q ≠ .ready y) →
          Stage s all (c.setReader r) ∧ ∀ x, q = .ready (some (.ok x)) → Passed s all (c.setReader r) :=
        fun q hq => ⟨.awaiting arriving reading writing upgrade, fun x hx => absurd hx (hq _)⟩
      cases p with
      | ready res => exact absurd rfl (none res)
      | pending => exact hst .pending (by simp)
      | busy => exact hst .busy (by simp)
      | panicked => exact hst .panicked (by simp)
  | lost reading _ => exact absurd (reading.symm.trans hrw.1) (by simp)
  | passed h =>
    cases h with
    | upgraded _ _ ended =>
      rcases ended with h | h
      · exact absurd (h.symm.trans hrw.1) (by simp)
      · exact absurd (h.1.symm.trans hrw.1) (by simp)
    | other first method status =>
      have hlog : c.state.log <:+ (c.pollReadHead H fuel).2.state.log :=
        (pollReadHead_moves fuel hc).keeps (P := fun t => c.state.log <:+ t.state.log)
          (fun _ _ hm hl => hl.trans hm.log) suffix_rfl
      have hp : Passed s all (c.pollReadHead H fuel).2 := .other (firstHead_grows first hlog) method status
      exact ⟨.passed hp, fun _ _ => hp⟩

end

end Conn

/-! ## Runs -/

namespace Dispatcher

variable {β : Type} [LawfulBuf β] {H : Httparse} {opts : Http1Options} {s : UpgradeStream H opts} {all : Prop}
  {d d' : Dispatcher β}

open Conn (Stage Passed Listens)

theorem Passed.respond {c : Conn β} (h : Passed s all c) (up : Bool) (ev : Ev) :
    Passed s all ({ c with state := { c.state with upgrade := up } }.note ev) := by
  cases h with
  | upgraded delivers received ended => exact .upgraded delivers received ended
  | other first method status => exact .other (firstHead_grows first (suffix_cons _ _)) method status

theorem Stage.bodyRound (h : Stage s all d.conn) (fuel i : ℕ) : Stage s all (d.bodyRound H fuel i).state.conn := by
  have hskip : d.conn.canReadBody = false → (d.bodyRound H fuel i).state.conn = d.conn := by
    intro hc
    unfold Dispatcher.bodyRound
    simp only [hc]
    rfl
  cases h with
  | idle h1 h2 h3 h4 h5 h6 reading h8 h9 =>
    rw [hskip (by simp [Conn.canReadBody, reading])]
    exact .idle h1 h2 h3 h4 h5 h6 reading h8 h9
  | awaiting h1 reading h3 h4 =>
    rw [hskip (by simp [Conn.canReadBody, reading])]
    exact .awaiting h1 reading h3 h4
  | lost reading h2 =>
    rw [hskip (by simp [Conn.canReadBody, reading])]
    exact .lost reading h2
  | passed h =>
    cases h with
    | upgraded h1 h2 ended =>
      rw [hskip (by rcases ended with h | h <;> simp [Conn.canReadBody, h])]
      exact .passed (.upgraded h1 h2 ended)
    | other first method status =>
      exact .passed (.other ((firstHead_unwritten (bodyRound_quiets fuel i d).unwritten).trans first) method status)

/-- **An act keeps the stage.** -/
theorem Stage.act (h : Act H d d') (hs : Stage s all d.conn) : Stage s all d'.conn := by
  cases h with
  | abort _ =>
    have h := hs.listens (.closeBoth (c := d.conn))
    rwa [← pollReady_conn] at h
  | noHead fuel _ hr _ _ => exact (hs.pollReadHead fuel hr).1
  | @response fuel i head len wants c _ hr hcb hx =>
    have hp := (hs.pollReadHead fuel hr).2
    rw [hx] at hp
    obtain ⟨up, hd'⟩ := respond_some (d := d.yield.setConn c) hcb head len wants
    rw [hd']
    exact .passed (Passed.respond (hp _ rfl) up _)
  | @headError fuel _ e c _ hr _ hx =>
    have h1 := (hs.pollReadHead fuel hr).1
    rw [hx] at h1
    have h2 := h1.listens (.closeBoth (c := c))
    show Stage s all ((d.yield.setConn c).recvError e).2.conn.closeRead.closeWrite
    rw [recvError_conn]
    exact h2
  | @headNone fuel _ c _ hr _ hx =>
    have h1 := (hs.pollReadHead fuel hr).1
    rw [hx] at h1
    split
    · exact h1.listens .closeBoth
    · exact h1
  | @body fuel i _ _ _ => exact Stage.bodyRound hs fuel i
  | keepAlive _ _ _ => exact hs.listens d.conn.pollReadKeepAlive_listens
  | aside h =>
    cases h with
    | @request d₁ req _ _ hw _ hx =>
      obtain ⟨i, hd₁⟩ := pollMsg_some hx
      obtain ⟨body, hb⟩ := startRequest_conn d₁ req
      have hc : d₁.conn = d.conn.note (.took i) := by rw [hd₁]
      have h1 : Stage s all (d.conn.note (.took i)) := hs.listens (.note id)
      rw [hb, hc]
      exact h1.writeHead _ _ hw
    | @noRequest d₁ _ _ _ _ hx =>
      have hc : d₁.conn = d.conn := by rw [pollMsg_none hx]
      show Stage s all d₁.conn.closeRead.closeWrite
      rw [hc]
      exact hs.listens .closeBoth
    | want _ _ _ _ hx =>
      obtain ⟨early, hd₁⟩ := pollMsg_pending hx
      rw [hd₁]
      exact hs.listens (.note id)
    | flush => exact hs.listens d.conn.pollFlush_listens
    | clearBody _ => exact hs
    | frame _ _ hw => exact hs.wrote (d.writeFrame_written _) hw
    | endBody _ _ hw => exact hs.wrote d.endBody_written hw
    | tidy hup =>
      exact hs.listens (.ofState (State.unwritten_of_eq rfl rfl) hup fun _ => .inl ⟨rfl, rfl, rfl, rfl, id⟩)
    | woke => exact hs.listens (.note id)
    | shutdown => exact hs.listens (.sameReads d.conn.io.pollShutdown_sameReads)

end Dispatcher

theorem Conn.configure_fresh [LawfulBuf β] (opts : Http1Options) (io : Transport) (room : Stream' ℕ) :
    ((Conn.new io room : Conn β).configure opts).io.readBuf = [] ∧
      ((Conn.new io room : Conn β).configure opts).io.partialLen = none := by
  unfold Conn.configure
  cases opts.h1Writev <;> cases opts.h1ReadBufExactSize <;> cases opts.h1MaxBufSize <;> exact ⟨rfl, rfl⟩

/-- **Every run keeps the stage.** -/
theorem World.run_stage [LawfulBuf β] {opts : Http1Options} (s : UpgradeStream H opts) {all : Prop} {io : Transport}
    (room : Stream' ℕ) (users : Stream' (List (Ext β))) (hio : io.received = []) (hfeeds : Feeds all io.reads s.bytes)
    (steps : List (Step β)) : Conn.Stage s all ((World.new opts io room users).run H steps).task.conn := by
  obtain ⟨hbuf, hlen⟩ := Conn.configure_fresh (β := β) opts io room
  have hc := Conn.configure_io (β := β) opts io room
  have h0 : Conn.Stage s all (World.new opts io room users).task.conn := by
    refine .idle ?_ ?_ hlen rfl rfl rfl rfl rfl rfl
    · show Transport.Delivers all s.bytes ((Conn.new io room : Conn β).configure opts).io.io
      rw [hc]
      exact ⟨s.bytes, by rw [hio]; rfl, hfeeds⟩
    · show ((Conn.new io room : Conn β).configure opts).io.io.received =
        ((Conn.new io room : Conn β).configure opts).io.readBuf
      rw [hc, hbuf, hio]
  refine (run_keeps (I := fun d => Conn.Stage s all d.conn) (J := fun d => Conn.Stage s all d.conn)
    (fun d d' => Dispatcher.Stage.act) (fun _ _ h => h) (fun _ h => h) (fun d e h => ?_) (fun _ _ h => h)
    (fun d h => ?_)
    steps _ h0 fun _ => h0).1
  · rw [Dispatcher.failed_conn]
    exact h
  · rw [Dispatcher.drop_conn]
    exact h

theorem UpgradeableConnection.poll_some [LawfulBuf β] {fuel : ℕ} {d : Dispatcher β} {p : Poll (Except Error Unit)}
    {c : UpgradeableConnection β} {u : Upgraded} (h : UpgradeableConnection.poll H fuel ⟨some d⟩ = (p, c, some u)) :
    ∃ d', d.pollCatch H fuel true = (.ready (.ok .upgrade), d') ∧
      u = Upgraded.new d'.conn.io.io d'.conn.io.readBuf := by
  simp only [poll] at h
  rcases hx : d.pollCatch H fuel true with ⟨(e | (_ | _)) | _ | _ | _, d'⟩ <;> rw [hx] at h <;> cases h
  exact ⟨d', rfl, rfl⟩

/-- **An upgrade loses no received byte.** Let a transport bring, in any pieces and with any
answers in between, a front of a stream that switches protocols, or all of it. In any
run, when an upgrade is fulfilled, then whatever buffers are read with, the bytes that
the transport has handed over are the heads, what was read, and what is still in front;
what was read is a front of the payload; and it is the payload if the transport brings it
all and there are enough buffers. -/
theorem upgrade_payload {β : Type} [LawfulBuf β] {H : Httparse} {opts : Http1Options} (s : UpgradeStream H opts)
    {io : Transport} (room : Stream' ℕ) (users : Stream' (List (Ext β))) (hio : io.received = [])
    (hfront : ∀ n, readBytes (io.reads.take n) <+: s.bytes) (steps : List (Step β)) {d : Dispatcher β}
    (hd : ((World.new opts io room users).run H steps).task = d) {fuel : ℕ} {p : Poll (Except Error Unit)}
    {c : UpgradeableConnection β} {u : Upgraded} (hpoll : UpgradeableConnection.poll H fuel ⟨some d⟩ = (p, c, some u))
    (hreq : s.head.1.subject.code = 101 ∨
      (firstHead (d.pollCatch H fuel true).2.conn.state.log).any (·.subject.method = .connect) = true) :
    (∀ rooms, (u.readAll rooms).2.io.inner.received = s.heads ++ ((u.readAll rooms).1 ++ (u.readAll rooms).2.front) ∧
        (u.readAll rooms).1 <+: s.payload) ∧
      ((∃ n, readBytes (io.reads.take n) = s.bytes) → ∃ N, ∀ rooms, N ≤ rooms.length → (∀ r ∈ rooms, 0 < r) →
        (u.readAll rooms).1 = s.payload) := by
  obtain ⟨d', hup, rfl⟩ := UpgradeableConnection.poll_some hpoll
  obtain ⟨d₁, hloop, hflag, hio₁, hlog⟩ := Dispatcher.pollCatch_upgrade hup
  have hstage := World.run_stage s room users hio ⟨hfront, id⟩ steps
  have hacts := Dispatcher.pollLoop_acts (H := H) fuel 16 d
  rw [hd] at hstage
  rw [hloop] at hacts
  have h₁ := hacts.keeps (I := fun d => Conn.Stage s _ d.conn) (fun d d' => Dispatcher.Stage.act) hstage
  obtain ⟨hdel, hrec⟩ : d₁.conn.io.io.Delivers (∃ n, readBytes (io.reads.take n) = s.bytes) s.bytes ∧
      d₁.conn.io.io.received = s.heads ++ d₁.conn.io.readBuf := by
    cases h₁ with
    | idle _ _ _ _ _ _ _ _ upgrade => rw [upgrade] at hflag; cases hflag
    | awaiting _ _ _ upgrade => rw [upgrade] at hflag; cases hflag
    | lost _ upgrade => rw [upgrade] at hflag; cases hflag
    | passed h =>
      cases h with
      | upgraded delivers received _ => exact ⟨delivers, received⟩
      | other first method status =>
        have hconnect := hreq.resolve_left status
        rw [hup, hlog, first] at hconnect
        exact absurd (by simpa using hconnect) method
  rw [← hio₁] at hdel hrec
  refine ⟨fun rooms => ?_, fun hall => ?_⟩
  · obtain ⟨h1, h2⟩ := (Upgraded.new d'.conn.io.io d'.conn.io.readBuf).readAll_split rooms hrec hdel
    refine ⟨h1, ?_⟩
    have h3 := h2.prefix_of
    rw [h1] at h3
    exact (prefix_append _ _).trans ((prefix_append_right_inj _).1 h3)
  · obtain ⟨rest, hrest, hfeeds⟩ := hdel
    obtain ⟨n, hn⟩ := hfeeds.whole hall
    refine ⟨d'.conn.io.readBuf.length + (rest.length + n), fun rooms hlen hpos => ?_⟩
    have h1 := Upgraded.readAll_whole rooms hpos (u := Upgraded.new d'.conn.io.io d'.conn.io.readBuf) hfeeds hn hlen
    rw [h1]
    rw [hrec, append_assoc] at hrest
    exact append_cancel_left hrest

/-! ### A tunnel -/

theorem readBytes_take_append (l : List ReadEv) (n : ℕ) :
    readBytes ((l ++ₛ Stream'.const .pending).take n) <+: readBytes l := by
  induction l generalizing n with
  | nil =>
    induction n with
    | zero => exact prefix_rfl
    | succ n ih => exact ih
  | cons ev l ih =>
    cases n with
    | zero => exact nil_prefix
    | succ n => exact (prefix_append_right_inj _).2 (ih n)

/-- An early hint, the head that opens the tunnel, and two bytes. -/
def tunnelStream : UpgradeStream earlyParser defaultOptions where
  interim := [(earlyHead, plainHead ⟨103, by decide⟩)]
  final := endedHead
  head := (plainHead .okStatus, true)
  payload := [33, 34]
  interim_reads := fun i hi => by
    rw [mem_singleton.1 hi]
    exact ⟨⟨true, _, _, earlyHead_reads _, rfl, rfl⟩, by decide⟩
  final_reads := ⟨_, _, endedHead_reads _, rfl, rfl⟩
  status := .inr (by decide)

def tunnelReads : List ReadEv :=
  [.pending, .pending, .ok (earlyHead ++ endedHead.take 1), .ok (endedHead.drop 1 ++ [33]), .ok [34]]

/-- `CONNECT`, and the answer in odd pieces. -/
def tunnelWorld : World Bytes :=
  (World.new defaultOptions (promptTransport (tunnelReads ++ₛ Stream'.const .pending)) (Stream'.const 0)
      (Stream'.const [])).run earlyParser
    [.poll 9 true,
      .user (.startSend ⟨⟨.http11, ⟨.connect, ascii "a:1"⟩, .empty, .none⟩, ⟨true, none, Stream'.const .done⟩⟩),
      .user .finishSend, .poll 9 true]

theorem upgrade_payload_tunnel :
    ∃ p c u, UpgradeableConnection.poll earlyParser 9 ⟨some tunnelWorld.task⟩ = (p, c, some u) ∧
    (u.readAll [1]).1 <+: [33, 34] ∧
      ∃ N, ∀ rooms, N ≤ rooms.length → (∀ r ∈ rooms, 0 < r) → (u.readAll rooms).1 = [33, 34] := by
  obtain ⟨u, hu⟩ : ∃ u, (UpgradeableConnection.poll earlyParser 9 ⟨some tunnelWorld.task⟩).2.2 = some u :=
    Option.isSome_iff_exists.1 (by decide +kernel)
  refine ⟨_, _, u, Prod.ext rfl (Prod.ext rfl hu), ?_⟩
  obtain ⟨h1, h2⟩ := upgrade_payload tunnelStream (Stream'.const 0) (Stream'.const []) rfl
    (fun n => readBytes_take_append tunnelReads n) _ rfl (Prod.ext rfl (Prod.ext rfl hu)) (.inr (by decide +kernel))
  exact ⟨(h1 [1]).2, h2 ⟨5, rfl⟩⟩

end Netty
