import Netty.Proof.PipeH3
import Netty.Spec.RecvBody

/-!
# A response body is neither cut short nor overrun

A reader polls a body, while others may stop it at any time between two polls. What the reader
has got is compared with what the stream has delivered.

* `Reading`, `Stopped`, `Failed`, `Clean`: the four stages of a body.
* `Stage.poll`, `Stage.cancel`, `Stage.pipeDone`: one step.
* `Session.recv_body_exact`: **a reader gets the data in order, and then a clean end only if FIN
  was read and the length is right, or else one error.**
-/

namespace Netty.H3

open List Option

/-! ## What the stream has delivered -/

/-- The answers that were still to come before these polls. -/
def RecvAnswers.before (a : RecvAnswers) : List RecvEv → RecvAnswers
  | [] => a
  | .data x :: read => { a with data := a.data.cons x }.before read
  | .trailers x :: read => { a with trailers := a.trailers.cons x }.before read

def RecvEv.chunk : RecvEv → Option Bytes
  | .data (some (.ok chunk)) => chunk
  | _ => none

/-- The library had to wait. -/
def RecvEv.waits : RecvEv → Bool
  | .data x => x.isNone
  | .trailers x => x.answer.isNone

/-- FIN was read. -/
def FinRead (read : List RecvEv) : Prop := ∃ x, .trailers ⟨x, true⟩ ∈ read

/-- The chunks among what was read, in order. -/
def chunksOf (read : List RecvEv) : List Bytes := read.reverse.filterMap RecvEv.chunk

@[simp] theorem chunksOf_nil : chunksOf [] = [] := rfl

@[simp] theorem chunksOf_data (bytes : Bytes) (read : List RecvEv) :
    chunksOf (.data (some (.ok (some bytes))) :: read) = chunksOf read ++ [bytes] := by simp [chunksOf, RecvEv.chunk]

theorem chunksOf_other {e : RecvEv} (he : e.chunk = none) (read : List RecvEv) :
    chunksOf (e :: read) = chunksOf read := by simp [chunksOf, he]

namespace RecvStream

variable {answers : RecvAnswers} {s t : RecvStream}

/-- FIN comes first, in what was read and in what will be. -/
structure Honest (s : RecvStream) : Prop where
  ahead : s.answers.FinFirst
  fin : ∀ x fin, .trailers ⟨some (.ok x), fin⟩ ∈ s.read → fin = true

theorem Honest.pollRecvData (h : Honest s) : Honest s.pollRecvData.2 :=
  ⟨h.ahead, fun x fin hm => h.fin x fin ((mem_cons.1 hm).resolve_left nofun)⟩

theorem Honest.pollRecvTrailers (h : Honest s) : Honest s.pollRecvTrailers.2 := by
  refine ⟨fun n => h.ahead (n + 1), fun x fin hm => ?_⟩
  rcases mem_cons.1 hm with hm | hm
  · injection hm with hm
    have hfin := h.ahead 0 x (congrArg TrailersAnswer.answer hm.symm)
    exact (congrArg TrailersAnswer.fin hm).trans hfin
  · exact h.fin x fin hm

/-- What was read is the front of what the library answers. -/
structure Ok (answers : RecvAnswers) (s : RecvStream) : Prop extends Honest s where
  source : s.answers.before s.read = answers

theorem Ok.data (h : Ok answers s) {x : DataAnswer} (hx : s.pollRecvData = (x, t)) :
    Ok answers t ∧ t.read = .data x :: s.read := by
  have hok : Ok answers s.pollRecvData.2 := by
    refine ⟨h.toHonest.pollRecvData, ?_⟩
    show RecvAnswers.before { s.answers with data := s.answers.data.tail.cons s.answers.data.head } s.read = answers
    rw [Stream'.cons_head_tail]
    exact h.source
  obtain ⟨rfl, rfl⟩ := Prod.mk.inj hx
  exact ⟨hok, rfl⟩

theorem Ok.trailers (h : Ok answers s) {x : Option (Except StreamError (Option HeaderMap))}
    (hx : s.pollRecvTrailers = (x, t)) : Ok answers t ∧ ∃ fin, t.read = .trailers ⟨x, fin⟩ :: s.read := by
  have hok : Ok answers s.pollRecvTrailers.2 := by
    refine ⟨h.toHonest.pollRecvTrailers, ?_⟩
    show RecvAnswers.before { s.answers with trailers := s.answers.trailers.tail.cons s.answers.trailers.head } s.read =
      answers
    rw [Stream'.cons_head_tail]
    exact h.source
  obtain ⟨rfl, rfl⟩ := Prod.mk.inj hx
  exact ⟨hok, _, rfl⟩

end RecvStream

/-! ## The shared state -/

namespace State

variable (s : State)

@[simp] theorem release_recv : s.release.2.recv = s.recv := by
  unfold release; repeat' split
  all_goals rfl

@[simp] theorem release_error : s.release.2.error = s.error := by
  unfold release; repeat' split
  all_goals rfl

@[simp] theorem release_dropped : s.release.2.dropped = s.dropped := by
  unfold release; repeat' split
  all_goals rfl

@[simp] theorem dropRecv_recv : s.dropRecv.recv = none := rfl

@[simp] theorem dropRecv_error : s.dropRecv.error = s.error := rfl

theorem dropRecv_dropped {g : RecvGuard} (h : s.recv = some g) : s.dropRecv.dropped = some g := by
  rw [dropRecv, h]; rfl

end State

/-! ## The stages of a body -/

def items (datas : List Bytes) : List (Option Item) := datas.map fun bytes => some (.data bytes)

section Stages

variable (declared : Option ℕ) (answers : RecvAnswers)

/-- The body is read: the reader has got every chunk that has come. -/
structure Reading (b : RecvBody) (seen : List (Option Item)) (g : RecvGuard) : Prop where
  ok : g.stream.Ok answers
  recv : b.state.recv = some g
  error : b.state.error = none
  ended : b.ended = false
  seen : seen = items (chunksOf g.stream.read)
  counted : declared = b.remaining.map (· + (chunksOf g.stream.read).flatten.length)
  whole : b.dataDone = true → b.short = false

/-- The body was stopped, and the reader does not know yet. -/
structure Stopped (b : RecvBody) (seen : List (Option Item)) (g : RecvGuard) : Prop where
  ok : g.stream.Ok answers
  recv : b.state.recv = none
  dropped : b.state.dropped = some g
  error : b.state.error.isSome
  ended : b.ended = false
  seen : seen = items (chunksOf g.stream.read)
  le : ∀ n, declared = some n → (chunksOf g.stream.read).flatten.length ≤ n

/-- The reader has got an error, and then nothing. -/
structure Failed (b : RecvBody) (seen : List (Option Item)) (g : RecvGuard) : Prop where
  ok : g.stream.Ok answers
  dropped : b.state.dropped = some g
  recv : b.state.recv = none
  ended : b.ended = true
  seen : ∃ datas e k, seen = items datas ++ some (.error e) :: replicate k none ∧
    datas <+: chunksOf g.stream.read ∧ ∀ n, declared = some n → datas.flatten.length ≤ n

/-- The reader has got everything, perhaps trailers, and then nothing. -/
structure Clean (b : RecvBody) (seen : List (Option Item)) (g : RecvGuard) : Prop where
  ok : g.stream.Ok answers
  dropped : b.state.dropped = some g
  recv : b.state.recv = none
  ended : b.ended = true
  fin : FinRead g.stream.read
  whole : ∀ n, declared = some n → (chunksOf g.stream.read).flatten.length = n
  seen : ∃ k, seen = items (chunksOf g.stream.read) ++ replicate (k + 1) none ∨
    ∃ fields, .trailers ⟨some (.ok (some fields)), true⟩ ∈ g.stream.read ∧
      seen = items (chunksOf g.stream.read) ++ some (.trailers fields) :: replicate k none

/-- **The stage of a body**, given what its reader has got. -/
def Stage (b : RecvBody) (seen : List (Option Item)) : Prop :=
  ∃ g, Reading declared answers b seen g ∨ Stopped declared answers b seen g ∨ Failed declared answers b seen g ∨
    Clean declared answers b seen g

/-- **What a poll gives**: an answer that goes with the next stage, or nothing because the stream has
nothing. -/
def Polled (seen : List (Option Item)) (x : RecvBody.Outcome) : Prop :=
  (∃ item ms b, x = (.ready item, ms, b) ∧ Stage declared answers b (seen ++ [item])) ∨
    ∃ ms b g, x = (.pending, ms, b) ∧ Reading declared answers b seen g ∧ ∃ ev, g.stream.read.head? = some ev ∧ ev.waits

end Stages

section Steps

variable {declared : Option ℕ} {answers : RecvAnswers} {b : RecvBody} {seen : List (Option Item)} {g : RecvGuard}

section

variable (h : Reading declared answers b seen g)

include h

theorem Reading.le {n : ℕ} (hn : declared = some n) : (chunksOf g.stream.read).flatten.length ≤ n := by
  obtain ⟨m, -, hm⟩ := map_eq_some_iff.1 (hn ▸ h.counted).symm
  omega

theorem Reading.setRecv {g' : RecvGuard} (hok : g'.stream.Ok answers)
    (hc : chunksOf g'.stream.read = chunksOf g.stream.read) : Reading declared answers (b.setRecv g') seen g' where
  ok := hok
  recv := rfl
  error := h.error
  ended := h.ended
  seen := by rw [hc]; exact h.seen
  counted := by rw [hc]; exact h.counted
  whole := h.whole

/-- **The reader finds that the response has failed.** -/
theorem Reading.fail {g' : RecvGuard} (hok : g'.stream.Ok answers)
    (hc : chunksOf g.stream.read <+: chunksOf g'.stream.read) (published : Option Error) (e : Error) :
    Polled declared answers seen (RecvBody.settle ((b.setRecv g').fail published e)) := by
  have he : (b.setRecv g').state.error = none := h.error
  refine .inl ⟨some (.error (if b.state.active.isSome then published.getD e else e)),
    (b.setRecv g').state.dropRecv.release.1, { b.setRecv g' with
      state := (b.setRecv g').state.dropRecv.release.2
      ended := (b.setRecv g').state.dropRecv.release.2.recv.isNone &&
        (b.setRecv g').state.dropRecv.release.2.error.isNone
      abort := true }, rfl, g', .inr (.inr (.inl ⟨hok, ?_, ?_, ?_, ?_⟩))⟩
  · rw [State.release_dropped]
    exact State.dropRecv_dropped _ rfl
  · rw [State.release_recv, State.dropRecv_recv]
  · rw [State.release_recv, State.dropRecv_recv, State.release_error, State.dropRecv_error, he]; rfl
  · exact ⟨_, _, 0, by rw [h.seen]; rfl, hc, fun n hn => h.le hn⟩

theorem Reading.pollTrailers (hd : b.dataDone = true) (published : Option Error) :
    Polled declared answers seen (RecvBody.settle (b.pollTrailers published g)) := by
  unfold RecvBody.pollTrailers
  rcases hx : g.stream.pollRecvTrailers with ⟨p, t⟩
  obtain ⟨hok, fin, hr⟩ := h.ok.trailers hx
  have hc : chunksOf t.read = chunksOf g.stream.read := by rw [hr, chunksOf_other rfl]
  rcases p with _ | e | trailers
  · exact .inr ⟨_, _, { g with stream := t }, rfl, h.setRecv hok hc, _, by rw [hr]; rfl, rfl⟩
  · exact h.fail hok (hc ▸ prefix_rfl) published _
  · have hmem : .trailers ⟨some (.ok trailers), fin⟩ ∈ t.read := by rw [hr]; exact mem_cons_self
    obtain rfl : fin = true := hok.fin _ _ hmem
    have he : (b.setRecv { g with stream := t, finished := true }).state.error = none := h.error
    simp only [RecvBody.settle]
    refine .inl ⟨_, _, _, rfl, { g with stream := t, finished := true },
      .inr (.inr (.inr ⟨hok, ?_, ?_, ?_, ⟨_, hmem⟩, ?_, ?_⟩))⟩
    · simp only [State.release_dropped]
      exact State.dropRecv_dropped _ rfl
    · simp only [State.release_recv, State.dropRecv_recv]
    · simp only [State.release_recv, State.dropRecv_recv, State.release_error, State.dropRecv_error, he]; rfl
    · intro n hn
      obtain ⟨m, hm, hmn⟩ := map_eq_some_iff.1 (hn ▸ h.counted).symm
      have h0 : m = 0 := by simpa [RecvBody.short, hm] using h.whole hd
      show (chunksOf t.read).flatten.length = n
      rw [hc]
      omega
    · refine ⟨0, ?_⟩
      cases trailers with
      | none => exact .inl (by rw [h.seen, ← hc]; rfl)
      | some fields => exact .inr ⟨fields, hmem, by rw [h.seen, ← hc]; rfl⟩

theorem Reading.pollData (hd : b.dataDone = false) (published : Option Error) :
    Polled declared answers seen (RecvBody.settle (b.pollData published g)) := by
  unfold RecvBody.pollData
  rcases hx : g.stream.pollRecvData with ⟨p, t⟩
  obtain ⟨hok, hr⟩ := h.ok.data hx
  rcases p with _ | e | _ | bytes
  · have hc : chunksOf t.read = chunksOf g.stream.read := by rw [hr, chunksOf_other rfl]
    exact .inr ⟨_, _, { g with stream := t }, rfl, h.setRecv hok hc, _, by rw [hr]; rfl, rfl⟩
  · have hc : chunksOf t.read = chunksOf g.stream.read := by rw [hr, chunksOf_other rfl]
    exact h.fail hok (hc ▸ prefix_rfl) published _
  · simp only
    have hc : chunksOf t.read = chunksOf g.stream.read := by rw [hr, chunksOf_other rfl]
    split
    · exact h.fail hok (hc ▸ prefix_rfl) published _
    · rename_i hs
      have h' : Reading declared answers (b.setRecv { g with stream := t }) seen { g with stream := t } :=
        h.setRecv hok hc
      refine Reading.pollTrailers (b := { b.setRecv { g with stream := t } with dataDone := true }) ?_ rfl published
      exact { h' with whole := fun _ => Bool.eq_false_iff.2 hs }
  · simp only
    have hc : chunksOf t.read = chunksOf g.stream.read ++ [bytes] := by rw [hr, chunksOf_data]
    split
    · rename_i remaining hcon
      have hcount := PipeToSendStream.consumeLength_ok hcon
      refine .inl ⟨_, _, _, rfl, { g with stream := t }, .inl ⟨hok, rfl, h.error, ?_, ?_, ?_, ?_⟩⟩
      · simp only [RecvBody.setRecv]; rfl
      · rw [h.seen, hc, items, items, map_append]; rfl
      · rw [h.counted, hcount, Option.map_map, hc, flatten_append, length_append]
        congr 1
        funext m
        simp only [Function.comp, flatten_cons, flatten_nil, append_nil]
        omega
      · intro hdone
        rw [show b.dataDone = true from hdone] at hd
        cases hd
    · exact h.fail hok (hc ▸ prefix_append _ _) published _

end

theorem Stage.poll (h : Stage declared answers b seen) (published : Option Error) :
    Polled declared answers seen (b.pollFrame published) := by
  obtain ⟨g, h | h | h | h⟩ := h
  · unfold RecvBody.pollFrame RecvBody.pollState
    rw [if_neg (by rw [h.ended]; decide), h.recv]
    simp only
    split
    · rename_i hd
      exact h.pollTrailers hd published
    · rename_i hd
      exact h.pollData (Bool.eq_false_iff.2 hd) published
  · obtain ⟨e, he⟩ := isSome_iff_exists.1 h.error
    unfold RecvBody.pollFrame RecvBody.pollState
    rw [if_neg (by rw [h.ended]; decide), h.recv]
    refine .inl ⟨some (.error e), [], { b with
      state := { b.state with error := none }, ended := true, abort := true }, ?_, g,
      .inr (.inr (.inl ⟨h.ok, h.dropped, h.recv, rfl, ?_⟩))⟩
    · simp only [RecvBody.settle, he, map_some, h.recv, isNone_none, Bool.and_self]
    · exact ⟨_, e, 0, by rw [h.seen]; rfl, prefix_rfl, h.le⟩
  · unfold RecvBody.pollFrame
    rw [if_pos h.ended]
    refine .inl ⟨none, [], b, rfl, g, .inr (.inr (.inl ⟨h.ok, h.dropped, h.recv, h.ended, ?_⟩))⟩
    obtain ⟨datas, e, k, hs, hp⟩ := h.seen
    exact ⟨datas, e, k + 1, by rw [hs, replicate_succ']; simp, hp⟩
  · unfold RecvBody.pollFrame
    rw [if_pos h.ended]
    refine .inl ⟨none, [], b, rfl, g, .inr (.inr (.inr ⟨h.ok, h.dropped, h.recv, h.ended, h.fin, h.whole, ?_⟩))⟩
    obtain ⟨k, hs | ⟨fields, hf, hs⟩⟩ := h.seen
    · exact ⟨k + 1, .inl (by rw [hs, replicate_succ' (n := k + 1)]; simp)⟩
    · exact ⟨k + 1, .inr ⟨fields, hf, by rw [hs, replicate_succ']; simp⟩⟩

/-- **The body is stopped.** -/
theorem Stage.cancel (h : Stage declared answers b seen) (published : Option Error) (e : Error) :
    Stage declared answers (b.cancel published e).2 seen := by
  obtain ⟨g, hg⟩ := h
  unfold RecvBody.cancel
  split
  · rename_i hr
    obtain h | h | h | h := hg
    · refine ⟨g, .inr (.inl ⟨h.ok, ?_, ?_, ?_, h.ended, h.seen, fun n hn => h.le hn⟩)⟩
      · simp only [State.finish, State.release_recv, State.dropRecv_recv]
      · simp only [State.finish, State.release_dropped]
        exact State.dropRecv_dropped _ h.recv
      · rfl
    · rw [h.recv] at hr; cases hr
    · rw [h.recv] at hr; cases hr
    · rw [h.recv] at hr; cases hr
  · exact ⟨g, hg⟩

theorem Stage.pipeDone (h : Stage declared answers b seen) : Stage declared answers b.pipeDone.2 seen := by
  obtain ⟨g, h | h | h | h⟩ := h
  · exact ⟨g, .inl ⟨h.ok, by simpa [RecvBody.pipeDone] using h.recv, by simpa [RecvBody.pipeDone] using h.error,
      h.ended, h.seen, h.counted, h.whole⟩⟩
  · exact ⟨g, .inr (.inl ⟨h.ok, by simpa [RecvBody.pipeDone] using h.recv,
      by simpa [RecvBody.pipeDone] using h.dropped, by simpa [RecvBody.pipeDone] using h.error, h.ended, h.seen, h.le⟩)⟩
  · exact ⟨g, .inr (.inr (.inl ⟨h.ok, by simpa [RecvBody.pipeDone] using h.dropped,
      by simpa [RecvBody.pipeDone] using h.recv, h.ended, h.seen⟩))⟩
  · exact ⟨g, .inr (.inr (.inr ⟨h.ok, by simpa [RecvBody.pipeDone] using h.dropped,
      by simpa [RecvBody.pipeDone] using h.recv, h.ended, h.fin, h.whole, h.seen⟩))⟩

end Steps

/-! ## Runs -/

/-- A body and what its reader has got. -/
structure Session where
  body : RecvBody
  seen : List (Option Item)

/-- Who does something to a body, and the error of the connection that was published by then. -/
inductive Session.Op where
  | poll (published : Option Error)
  /-- Sending has failed, or a Datagram came that should not. -/
  | cancel (published : Option Error) (e : Error)
  | pipeDone

namespace Session

def start (answers : RecvAnswers) (declared : Option ℕ) (active : Active) (pipePending refused : Bool) : Session :=
  ⟨(RecvBody.new (.fresh answers) declared active pipePending refused).2, []⟩

def read (s : Session) : List RecvEv :=
  ((s.body.state.recv.or s.body.state.dropped).map fun recv => recv.stream.read).getD []

def step (s : Session) : Op → Session
  | .poll published =>
    match s.body.pollFrame published with
    | (.ready item, _, b) => ⟨b, s.seen ++ [item]⟩
    | (_, _, b) => { s with body := b }
  | .cancel published e => { s with body := (s.body.cancel published e).2 }
  | .pipeDone => { s with body := s.body.pipeDone.2 }

def run (s : Session) (ops : List Op) : Session := ops.foldl step s

variable {declared : Option ℕ} {answers : RecvAnswers}

theorem start_stage (hlib : answers.FinFirst) (active : Active) (pipePending refused : Bool) :
    Stage declared answers (start answers declared active pipePending refused).body [] := by
  refine ⟨.fresh answers, .inl ⟨⟨⟨hlib, nofun⟩, rfl⟩, ?_, ?_, rfl, rfl, ?_, nofun⟩⟩
  · simp [start, RecvBody.new]
  · simp [start, RecvBody.new]
  · simp [start, RecvBody.new, RecvGuard.fresh]

theorem step_stage {s : Session} (h : Stage declared answers s.body s.seen) (op : Op) :
    Stage declared answers (s.step op).body (s.step op).seen := by
  cases op with
  | poll published =>
    obtain ⟨item, ms, b, hx, hb⟩ | ⟨ms, b, g, hx, hb, -⟩ := h.poll published
    · simp only [step, hx]; exact hb
    · simp only [step, hx]; exact ⟨g, .inl hb⟩
  | cancel published e => exact h.cancel published e
  | pipeDone => exact h.pipeDone

theorem run_stage (hlib : answers.FinFirst) (active : Active) (pipePending refused : Bool) (ops : List Op) :
    Stage declared answers ((start answers declared active pipePending refused).run ops).body
      ((start answers declared active pipePending refused).run ops).seen :=
  foldlRecOn (motive := fun s => Stage declared answers s.body s.seen) ops step
    (start_stage hlib active pipePending refused) fun _ h op _ => step_stage h op

/-- **A response body is never cut short or overrun without an error.** -/
theorem recv_body_exact (answers : RecvAnswers) (hlib : answers.FinFirst) (declared : Option ℕ) (active : Active)
    (pipePending refused : Bool) (ops : List Op) :
    let s := (start answers declared active pipePending refused).run ops
    -- what was read is the front of what the library answers, and the reader has got `datas` of it, in order
    ∃ rest datas last, RecvAnswers.before rest s.read = answers ∧ datas <+: chunksOf s.read ∧ s.seen = items datas ++ last ∧
      -- never more than was declared
      (∀ n, declared = some n → datas.flatten.length ≤ n) ∧
      -- the body goes on, and then the reader has got everything that was read
      ((last = [] ∧ s.body.ended = false ∧ datas = chunksOf s.read) ∨
        -- or there was one error, and then the end
        (s.body.ended = true ∧ ∃ e k, last = some (.error e) :: replicate k none) ∨
        -- or FIN was read, and then the end, perhaps behind trailers
        (s.body.ended = true ∧ FinRead s.read ∧ datas = chunksOf s.read ∧
          (∀ n, declared = some n → datas.flatten.length = n) ∧
          ∃ k, last = replicate (k + 1) none ∨
            ∃ fields, .trailers ⟨some (.ok (some fields)), true⟩ ∈ s.read ∧
              last = some (.trailers fields) :: replicate k none)) ∧
      -- a reader waits only if the stream has nothing
      ∀ published, (∃ item, (s.body.pollFrame published).1 = .ready item) ∨
        (s.body.pollFrame published).1 = .pending ∧ ∃ recv,
          (s.body.pollFrame published).2.2.state.recv = some recv ∧ ∃ ev, recv.stream.read.head? = some ev ∧ ev.waits := by
  intro s
  have hs : Stage declared answers s.body s.seen := run_stage hlib active pipePending refused ops
  have hpoll : ∀ published, (∃ item, (s.body.pollFrame published).1 = .ready item) ∨
      (s.body.pollFrame published).1 = .pending ∧ ∃ recv,
        (s.body.pollFrame published).2.2.state.recv = some recv ∧ ∃ ev, recv.stream.read.head? = some ev ∧ ev.waits := by
    intro published
    obtain ⟨item, ms, b, hx, -⟩ | ⟨ms, b, g, hx, hb, hr⟩ := hs.poll published
    · exact .inl ⟨item, by rw [hx]⟩
    · exact .inr ⟨by rw [hx], g, by rw [hx]; exact hb.recv, hr⟩
  have hread : ∀ {g : RecvGuard}, s.body.state.recv.or s.body.state.dropped = some g → s.read = g.stream.read :=
    fun hg => by rw [read, hg]; rfl
  obtain ⟨g, h | h | h | h⟩ := hs
  · rw [hread (by rw [h.recv]; rfl)]
    exact ⟨_, _, [], h.ok.source, prefix_rfl, by rw [h.seen, append_nil], fun n hn => h.le hn,
      .inl ⟨rfl, h.ended, rfl⟩, hpoll⟩
  · rw [hread (by rw [h.recv]; exact h.dropped)]
    exact ⟨_, _, [], h.ok.source, prefix_rfl, by rw [h.seen, append_nil], h.le,
      .inl ⟨rfl, h.ended, rfl⟩, hpoll⟩
  · rw [hread (by rw [h.recv]; exact h.dropped)]
    obtain ⟨datas, e, k, hseen, hp, hle⟩ := h.seen
    exact ⟨_, datas, _, h.ok.source, hp, hseen, hle, .inr (.inl ⟨h.ended, e, k, rfl⟩), hpoll⟩
  · rw [hread (by rw [h.recv]; exact h.dropped)]
    have hle : ∀ n, declared = some n → (chunksOf g.stream.read).flatten.length ≤ n := fun n hn => (h.whole n hn).le
    obtain ⟨k, hseen | ⟨fields, hf, hseen⟩⟩ := h.seen
    · exact ⟨_, _, _, h.ok.source, prefix_rfl, hseen, hle,
        .inr (.inr ⟨h.ended, h.fin, rfl, h.whole, k, .inl rfl⟩), hpoll⟩
    · exact ⟨_, _, _, h.ok.source, prefix_rfl, hseen, hle,
        .inr (.inr ⟨h.ended, h.fin, rfl, h.whole, k, .inr ⟨fields, hf, rfl⟩⟩), hpoll⟩

/-- Two bytes, and FIN. -/
def twoBytes : RecvAnswers :=
  ⟨(Stream'.const (some (.ok none))).cons (some (.ok (some [97, 98]))), Stream'.const ⟨some (.ok none), true⟩⟩

/-- Both bytes are read, and the end. -/
theorem recv_body_exact_two :
    let s := (start twoBytes (some 2) ⟨true, true⟩ false false).run [.poll none, .poll none]
    s.seen = [some (.data [97, 98]), none] ∧ ∃ rest, RecvAnswers.before rest s.read = twoBytes := by
  obtain ⟨rest, _, _, hrest, -⟩ := recv_body_exact twoBytes (fun _ _ _ => rfl) (some 2) ⟨true, true⟩ false false
    [.poll none, .poll none]
  exact ⟨rfl, rest, hrest⟩

end Session

end Netty.H3
