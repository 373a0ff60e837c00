import Mathlib.Data.List.Perm.Subperm
import Netty.Spec.Chan

/-!
# The body channel loses nothing

* `Session`: a channel with what its sender has handed over so far.
* `dataOf`, `errorsOf`: what the receiver has obtained, errors with the number of chunks
  before them.
* `Session.Inv`: what was obtained and what is queued is what was accepted.
* `channel_fifo`: this holds whatever both ends do.
-/

namespace Netty

open List Option

namespace Chan

variable {c : Chan}

/-! ## What was obtained, and what is queued -/

/-- The chunks among the answers, oldest first. -/
def dataOf : List BodyItem → List Bytes
  | [] => []
  | .data b :: l => dataOf l ++ [b]
  | .trailers _ :: l | .error _ :: l | .ended :: l => dataOf l

/-- The errors among the answers, oldest first, each with the number of chunks before it. -/
def errorsOf : List BodyItem → List (ℕ × Error)
  | [] => []
  | .error e :: l => errorsOf l ++ [((dataOf l).length, e)]
  | .data _ :: l | .trailers _ :: l | .ended :: l => errorsOf l

def queued (c : Chan) : List Bytes :=
  match c.item with
  | some (.ok b) => [b]
  | _ => []

def queuedErrors (c : Chan) : List Error :=
  match c.item with
  | some (.error e) => e :: c.pendingError.toList
  | _ => c.pendingError.toList

def endItem (c : Chan) : BodyItem :=
  match c.trailers with
  | some fields => .trailers fields
  | none => .ended

/-! ## Sessions -/

inductive Op where
  | pollReady
  | sendData (chunk : Bytes)
  | sendTrailers (fields : HeaderMap)
  | sendError (e : Error)
  | dropSender
  | poll
  | dropReceiver

/-- A channel, and what its sender has handed over. -/
structure Session where
  chan : Chan
  accepted : List Bytes
  /-- The errors that were sent to an open receiver, each with the number of chunks accepted before. -/
  sent : List (ℕ × Error)
  trailers : Option HeaderMap

namespace Session

def new (len : DecodedLength) (wanter : Bool) : Session := ⟨Chan.new len wanter, [], [], none⟩

/-- An end that was dropped does nothing. -/
def step (s : Session) : Op → Session
  | .pollReady => s
  | .sendData chunk =>
    if !s.chan.senderOpen then s
    else
      match s.chan.sendData chunk with
      | (.ok (), c) => { s with chan := c, accepted := s.accepted ++ [chunk] }
      | (.error _, c) => { s with chan := c }
  | .sendTrailers fields =>
    if !s.chan.senderOpen then s
    else
      match s.chan.sendTrailers fields with
      | (.ok (), c) => { s with chan := c, trailers := some fields }
      | (.error _, c) => { s with chan := c }
  | .sendError e =>
    if !s.chan.senderOpen || !s.chan.receiverOpen then s
    else { s with chan := s.chan.sendError e, sent := s.sent ++ [(s.accepted.length, e)] }
  | .dropSender => { s with chan := s.chan.dropSender }
  | .poll => { s with chan := s.chan.poll }
  | .dropReceiver => { s with chan := s.chan.dropReceiver }

def run (s : Session) (ops : List Op) : Session := ops.foldl step s

end Session

/-! ## Operations -/

theorem poll_cases (hr : c.receiverOpen = true) :
    (c.terminated = true ∧ c.poll = { c with trailers := none, seen := c.endItem :: c.seen }) ∨
    (c.terminated = false ∧
      ((∃ b, c.item = some (.ok b) ∧ c.poll = { c with
          want := true, item := none, contentLength := c.contentLength.subIf b.length, seen := .data b :: c.seen }) ∨
        (∃ e, c.item = some (.error e) ∧ c.poll = { c with want := true, item := none, seen := .error e :: c.seen }) ∨
        (∃ e, c.item = none ∧ c.pendingError = some e ∧
          c.poll = { c with want := true, pendingError := none, seen := .error e :: c.seen }) ∨
        (c.item = none ∧ c.pendingError = none ∧ c.senderOpen = true ∧ c.poll = { c with want := true }) ∨
        (c.item = none ∧ c.pendingError = none ∧ c.senderOpen = false ∧
          c.poll = { c with want := true, terminated := true, trailers := none, seen := c.endItem :: c.seen }))) := by
  obtain ⟨item, pendingError, trailers, senderOpen, receiverOpen, want, trailersSent, terminated, len, seen⟩ := c
  simp only at hr
  subst hr
  cases terminated with
  | true =>
    left
    cases trailers <;> exact ⟨rfl, rfl⟩
  | false =>
    refine .inr ⟨rfl, ?_⟩
    rcases item with _ | e | b
    · rcases pendingError with _ | e
      · cases senderOpen with
        | true => exact .inr (.inr (.inr (.inl ⟨rfl, rfl, rfl, rfl⟩)))
        | false =>
          refine .inr (.inr (.inr (.inr ⟨rfl, rfl, rfl, ?_⟩)))
          cases trailers <;> rfl
      · exact .inr (.inr (.inl ⟨e, rfl, rfl, rfl⟩))
    · exact .inr (.inl ⟨e, rfl, rfl⟩)
    · exact .inl ⟨b, rfl, rfl⟩

theorem poll_closed (hr : c.receiverOpen = false) : c.poll = c := by
  unfold poll
  rw [hr]
  rfl

theorem sendData_cases (c : Chan) (chunk : Bytes) :
    c.sendData chunk = (.error chunk, c) ∨
      c.item = none ∧ c.pendingError = none ∧ c.receiverOpen = true ∧
        c.sendData chunk = (.ok (), { c with item := some (.ok chunk) }) := by
  unfold sendData
  split
  · exact .inl rfl
  · rename_i h
    simp only [Bool.or_eq_true, not_or, Bool.not_eq_true, isSome_eq_false_iff, isNone_iff_eq_none,
      Bool.not_eq_false'] at h
    exact .inr ⟨h.1.2, h.2, h.1.1.1, rfl⟩

theorem sendTrailers_cases (c : Chan) (fields : HeaderMap) :
    c.sendTrailers fields = (.error none, c) ∨
      c.sendTrailers fields = (.error (some fields), { c with trailersSent := true }) ∨
      c.sendTrailers fields = (.ok (), { c with trailersSent := true, trailers := some fields }) := by
  unfold sendTrailers
  split
  · exact .inl rfl
  · simp only
    split
    · exact .inr (.inl rfl)
    · exact .inr (.inr rfl)

/-- An error finds a place unless an earlier one is waiting. -/
theorem sendError_cases (c : Chan) (e : Error) (hr : c.receiverOpen = true) :
    (c.item = none ∧ c.sendError e = { c with item := some (.error e) }) ∨
      (c.item ≠ none ∧ c.pendingError = none ∧ c.sendError e = { c with pendingError := some e }) ∨
      (c.item ≠ none ∧ c.pendingError ≠ none ∧ c.sendError e = c) := by
  obtain ⟨item, pendingError, trailers, senderOpen, receiverOpen, want, trailersSent, terminated, len, seen⟩ := c
  simp only at hr
  subst hr
  rcases item with _ | i
  · exact .inl ⟨rfl, rfl⟩
  · rcases pendingError with _ | p
    · exact .inr (.inl ⟨by simp, rfl, rfl⟩)
    · exact .inr (.inr ⟨by simp, by simp, rfl⟩)

/-- How many polls a channel without a sender has before its end. -/
def backlog (c : Chan) : ℕ :=
  if c.terminated then 0 else c.item.toList.length + c.pendingError.toList.length + 1

theorem backlog_poll (hr : c.receiverOpen = true) (ho : c.senderOpen = false) :
    c.poll.receiverOpen = true ∧ c.poll.senderOpen = false ∧ c.poll.backlog ≤ c.backlog - 1 := by
  rcases poll_cases hr with ⟨hterm, hc⟩ | ⟨hterm, ⟨b, hi, hc⟩ | ⟨e, hi, hc⟩ | ⟨e, hi, hp, hc⟩ | ⟨hi, hp, ho', hc⟩ |
    ⟨hi, hp, ho', hc⟩⟩
  · rw [hc]
    exact ⟨hr, ho, by simp [backlog, hterm]⟩
  · rw [hc]
    exact ⟨hr, ho, by simp [backlog, hterm, hi, Nat.add_comm]⟩
  · rw [hc]
    exact ⟨hr, ho, by simp [backlog, hterm, hi, Nat.add_comm]⟩
  · rw [hc]
    exact ⟨hr, ho, by simp [backlog, hterm, hi, hp]⟩
  · rw [ho] at ho'
    cases ho'
  · rw [hc]
    exact ⟨hr, ho, by simp [backlog]⟩

/-- What a dropped sender leaves is obtained with three polls. -/
theorem drained (hr : c.receiverOpen = true) : c.dropSender.poll.poll.poll.terminated = true := by
  obtain ⟨hr1, ho1, h1⟩ := backlog_poll (c := c.dropSender) hr rfl
  obtain ⟨hr2, ho2, h2⟩ := backlog_poll hr1 ho1
  obtain ⟨-, -, h3⟩ := backlog_poll hr2 ho2
  have h0 : c.dropSender.backlog ≤ 3 := by
    unfold backlog
    split
    · exact Nat.zero_le _
    · cases c.dropSender.item <;> cases c.dropSender.pendingError <;> simp
  have hz : c.dropSender.poll.poll.poll.backlog = 0 := by omega
  by_contra hterm
  rw [backlog, if_neg hterm] at hz
  omega

/-! ## The invariant -/

def BodyItem.plain : BodyItem → Bool
  | .data _ | .error _ => true
  | .trailers _ | .ended => false

def lasts (trailers : Option HeaderMap) (n : ℕ) : List BodyItem :=
  trailers.toList.map .trailers ++ replicate n .ended

structure Session.Inv (s : Session) : Prop where
  chunks : dataOf s.chan.seen ++ s.chan.queued = s.accepted
  errors : (errorsOf s.chan.seen ++ s.chan.queuedErrors.map (s.accepted.length, ·)).Subperm s.sent
  first : ∀ e, s.sent.head? = some e →
    e ∈ errorsOf s.chan.seen ++ s.chan.queuedErrors.map (s.accepted.length, ·)
  finished : s.chan.terminated = true → s.chan.senderOpen = false ∧ s.chan.item = none ∧ s.chan.pendingError = none
  shape : ∃ items trailers n, s.chan.seen.reverse = items ++ lasts trailers n ∧ (∀ i ∈ items, BodyItem.plain i) ∧
    (s.chan.terminated = false → trailers = none ∧ n = 0) ∧ (s.chan.terminated = true → s.chan.trailers = none) ∧
    ∀ t, trailers = some t → s.trailers = some t
  trailers : ∀ t, s.chan.trailers = some t → s.trailers = some t

namespace Session

variable {s : Session}

theorem new_inv (len : DecodedLength) (wanter : Bool) : Inv (new len wanter) where
  chunks := rfl
  errors := nil_subperm
  first := nofun
  finished := nofun
  shape := ⟨[], none, 0, rfl, by simp, fun _ => ⟨rfl, rfl⟩, nofun, by simp⟩
  trailers := nofun

theorem Inv.congr {c : Chan} (h : Inv s) (hi : c.item = s.chan.item) (hp : c.pendingError = s.chan.pendingError)
    (hs : c.seen = s.chan.seen) (ht : c.trailers = s.chan.trailers) (hd : c.terminated = s.chan.terminated)
    (ho : c.senderOpen = true → s.chan.senderOpen = true) : Inv { s with chan := c } := by
  obtain ⟨h1, h2, h3, h4, h5, h6⟩ := h
  refine ⟨?_, ?_, ?_, ?_, ?_, ?_⟩
  · simpa only [queued, hs, hi] using h1
  · simpa only [queuedErrors, hs, hi, hp] using h2
  · simpa only [queuedErrors, hs, hi, hp] using h3
  · intro hterm
    obtain ⟨h7, h8, h9⟩ := h4 (hd ▸ hterm)
    refine ⟨?_, hi.trans h8, hp.trans h9⟩
    cases hc : c.senderOpen with
    | false => rfl
    | true => rw [ho hc] at h7; cases h7
  · simpa only [hs, hd, ht] using h5
  · simpa only [ht] using h6

theorem Inv.sendData (h : Inv s) (chunk : Bytes) (ho : s.chan.senderOpen = true) :
    Inv (s.step (.sendData chunk)) := by
  unfold step
  simp only [ho, Bool.not_true, Bool.false_eq_true, if_false]
  rcases sendData_cases s.chan chunk with hc | ⟨hi, hp, -, hc⟩
  · rw [hc]
    exact h
  · rw [hc]
    have hchunks := h.chunks
    have herrors := h.errors
    have hfirst := h.first
    simp only [queued, hi, append_nil] at hchunks
    simp only [queuedErrors, hi, hp, toList_none, map_nil, append_nil] at herrors hfirst
    refine ⟨?_, ?_, ?_, fun hterm => ?_, h.shape, h.trailers⟩
    · simp only [queued, hchunks]
    · simpa only [queuedErrors, hp, toList_none, map_nil, append_nil] using herrors
    · simpa only [queuedErrors, hp, toList_none, map_nil, append_nil] using hfirst
    · have := (h.finished hterm).1
      rw [ho] at this
      cases this

theorem Inv.not_terminated (h : Inv s) (ho : s.chan.senderOpen = true) : s.chan.terminated = false := by
  cases hterm : s.chan.terminated with
  | false => rfl
  | true => exact absurd (h.finished hterm).1 (by simp [ho])

theorem Inv.sendTrailers (h : Inv s) (fields : HeaderMap) (ho : s.chan.senderOpen = true) :
    Inv (s.step (.sendTrailers fields)) := by
  unfold step
  simp only [ho, Bool.not_true, Bool.false_eq_true, if_false]
  rcases sendTrailers_cases s.chan fields with hc | hc | hc
  · rw [hc]
    exact h
  · rw [hc]
    exact h.congr rfl rfl rfl rfl rfl id
  · rw [hc]
    obtain ⟨items, trailers, n, hseen, hplain, hnone, -, -⟩ := h.shape
    have hterm := h.not_terminated ho
    obtain ⟨rfl, rfl⟩ := hnone hterm
    refine { h with shape := ?_, trailers := fun t ht => ht }
    have hlast : s.chan.terminated = true → some fields = none := fun h' => absurd (hterm.symm.trans h') (by simp)
    exact ⟨items, none, 0, hseen, hplain, fun _ => ⟨rfl, rfl⟩, hlast, by simp⟩

theorem Inv.sendError (h : Inv s) (e : Error) (ho : s.chan.senderOpen = true) (hr : s.chan.receiverOpen = true) :
    Inv { s with chan := s.chan.sendError e, sent := s.sent ++ [(s.accepted.length, e)] } := by
  have hterm := h.not_terminated ho
  -- the new error is queued next to those that were
  have hnew : ∀ c : Chan, c.seen = s.chan.seen → c.queued = s.chan.queued →
      c.queuedErrors.Perm (s.chan.queuedErrors ++ [e]) → c.trailers = s.chan.trailers →
      c.terminated = s.chan.terminated → Inv { s with chan := c, sent := s.sent ++ [(s.accepted.length, e)] } := by
    intro c hs hq he ht hd
    have hperm : (errorsOf c.seen ++ c.queuedErrors.map (s.accepted.length, ·)).Perm
        (errorsOf s.chan.seen ++ s.chan.queuedErrors.map (s.accepted.length, ·) ++ [(s.accepted.length, e)]) := by
      rw [hs, append_assoc]
      refine Perm.append_left _ ((he.map _).trans ?_)
      rw [map_append]
      rfl
    refine ⟨?_, hperm.subperm.trans ?_, fun f hf => ?_, fun h' => ?_, ?_, ?_⟩
    · rw [hs, hq]
      exact h.chunks
    · exact (subperm_append_right _).2 h.errors
    · refine hperm.mem_iff.2 ?_
      cases hsent : s.sent with
      | nil =>
        rw [hsent] at hf
        exact mem_append_right _ (by simpa using hf.symm)
      | cons f' l =>
        rw [hsent] at hf
        exact mem_append_left _ (h.first f (by rw [hsent]; exact hf))
    · rw [hd, hterm] at h'
      cases h'
    · simpa only [hs, hd, ht] using h.shape
    · simpa only [ht] using h.trailers
  rcases sendError_cases s.chan e hr with ⟨hi, hc⟩ | ⟨hi, hp, hc⟩ | ⟨hi, hp, hc⟩
  · rw [hc]
    refine hnew _ rfl (by simp [queued, hi]) ?_ rfl rfl
    simp only [queuedErrors, hi]
    exact (perm_append_singleton e _).symm
  · rw [hc]
    refine hnew _ rfl rfl ?_ rfl rfl
    rcases hitem : s.chan.item with _ | e' | b
    · exact absurd hitem hi
    · simp [queuedErrors, hitem, hp]
    · simp [queuedErrors, hitem, hp]
  · -- an earlier error waits, so this is not the first
    rw [hc]
    refine { h with errors := h.errors.trans (sublist_append_left _ _).subperm, first := fun f hf => ?_ }
    cases hsent : s.sent with
    | nil =>
      have hle := h.errors.length_le
      obtain ⟨p, hp⟩ := ne_none_iff_exists'.1 hp
      have hlen : s.chan.queuedErrors ≠ [] := by
        unfold queuedErrors
        rw [hp]
        split <;> simp
      rw [hsent, length_append, length_map] at hle
      exact absurd (length_eq_zero_iff.1 (Nat.le_zero.1 (le_trans (Nat.le_add_left _ _) hle))) hlen
    | cons f' l =>
      rw [hsent] at hf
      exact h.first f (by rw [hsent]; exact hf)

theorem Inv.take {c : Chan} {i : BodyItem} (h : Inv s) (hi : BodyItem.plain i) (hs : c.seen = i :: s.chan.seen)
    (hdata : dataOf (i :: s.chan.seen) ++ c.queued = dataOf s.chan.seen ++ s.chan.queued)
    (herrors : errorsOf (i :: s.chan.seen) ++ c.queuedErrors.map (s.accepted.length, ·) =
      errorsOf s.chan.seen ++ s.chan.queuedErrors.map (s.accepted.length, ·))
    (ht : c.trailers = s.chan.trailers) (hterm : s.chan.terminated = false) (hd : c.terminated = false) :
    Inv { s with chan := c } := by
  obtain ⟨items, trailers, n, hseen, hplain, hnone, -, -⟩ := h.shape
  obtain ⟨rfl, rfl⟩ := hnone hterm
  refine ⟨?_, ?_, ?_, fun h' => ?_, ?_, ?_⟩
  · rw [hs, hdata]
    exact h.chunks
  · rw [hs, herrors]
    exact h.errors
  · rw [hs, herrors]
    exact h.first
  · rw [hd] at h'
    cases h'
  · refine ⟨items ++ [i], none, 0, ?_, ?_, fun _ => ⟨rfl, rfl⟩, fun h' => ?_, by simp⟩
    · rw [hs, reverse_cons, hseen]
      simp [lasts]
    · intro j hj
      rcases mem_append.1 hj with hj | hj
      · exact hplain j hj
      · rw [mem_singleton.1 hj]
        exact hi
    · rw [hd] at h'
      cases h'
  · rw [ht]
    exact h.trailers

theorem Inv.finish {c : Chan} (h : Inv s) (hs : c.seen = s.chan.endItem :: s.chan.seen) (ht : c.trailers = none)
    (hd : c.terminated = true) (hi : c.item = none) (hp : c.pendingError = none) (ho : c.senderOpen = false)
    (hi' : s.chan.item = none) (hp' : s.chan.pendingError = none) : Inv { s with chan := c } := by
  have hdata : dataOf c.seen = dataOf s.chan.seen := by
    rw [hs]
    unfold endItem
    split <;> rfl
  have herrors : errorsOf c.seen = errorsOf s.chan.seen := by
    rw [hs]
    unfold endItem
    split <;> rfl
  refine ⟨?_, ?_, ?_, fun _ => ⟨ho, hi, hp⟩, ?_, fun t h' => ?_⟩
  · simpa only [queued, hdata, hi, hi'] using h.chunks
  · simpa only [queuedErrors, herrors, hi, hi', hp, hp'] using h.errors
  · simpa only [queuedErrors, herrors, hi, hi', hp, hp'] using h.first
  · obtain ⟨items, trailers, n, hseen, hplain, hnone, htaken, hsame⟩ := h.shape
    cases hterm : s.chan.terminated with
    | true =>
      refine ⟨items, trailers, n + 1, ?_, hplain, fun h' => ?_, fun _ => ht, hsame⟩
      · rw [hs, reverse_cons, hseen, endItem, htaken hterm]
        simp [lasts, replicate_succ']
      · rw [hd] at h'
        cases h'
    | false =>
      obtain ⟨rfl, rfl⟩ := hnone hterm
      cases htr : s.chan.trailers with
      | none =>
        refine ⟨items, none, 1, ?_, hplain, fun h' => ?_, fun _ => ht, by simp⟩
        · rw [hs, reverse_cons, hseen, endItem, htr]
          simp [lasts]
        · rw [hd] at h'
          cases h'
      | some t =>
        refine ⟨items, some t, 0, ?_, hplain, fun h' => ?_, fun _ => ht, fun t' ht' => ?_⟩
        · rw [hs, reverse_cons, hseen, endItem, htr]
          simp [lasts]
        · rw [hd] at h'
          cases h'
        · rw [← ht', ← htr]
          exact h.trailers t (by rw [htr]) |>.trans (by rw [htr])
  · rw [ht] at h'
    cases h'

theorem Inv.poll (h : Inv s) : Inv (s.step .poll) := by
  show Inv { s with chan := s.chan.poll }
  cases hr : s.chan.receiverOpen with
  | false =>
    rw [poll_closed hr]
    exact h
  | true =>
    rcases poll_cases hr with ⟨hterm, hc⟩ | ⟨hterm, ⟨b, hi, hc⟩ | ⟨e, hi, hc⟩ | ⟨e, hi, hp, hc⟩ | ⟨hi, hp, ho, hc⟩ |
      ⟨hi, hp, ho, hc⟩⟩
    · rw [hc]
      obtain ⟨ho, hi, hp⟩ := h.finished hterm
      exact h.finish rfl rfl hterm hi hp ho hi hp
    · rw [hc]
      refine h.take rfl rfl ?_ ?_ rfl hterm hterm
      · simp [dataOf, queued, hi]
      · simp [errorsOf, queuedErrors, hi]
    · rw [hc]
      have hlen : (dataOf s.chan.seen).length = s.accepted.length := by simp [← h.chunks, queued, hi]
      refine h.take rfl rfl ?_ ?_ rfl hterm hterm
      · simp [dataOf, queued, hi]
      · simp [errorsOf, queuedErrors, hi, hlen]
    · rw [hc]
      have hlen : (dataOf s.chan.seen).length = s.accepted.length := by simp [← h.chunks, queued, hi]
      refine h.take rfl rfl ?_ ?_ rfl hterm hterm
      · simp [dataOf, queued, hi]
      · simp [errorsOf, queuedErrors, hi, hp, hlen]
    · rw [hc]
      exact h.congr rfl rfl rfl rfl rfl id
    · rw [hc]
      exact h.finish rfl rfl rfl hi hp ho hi hp

theorem Inv.step (h : Inv s) (op : Op) : Inv (s.step op) := by
  cases op with
  | pollReady => exact h
  | sendData chunk =>
    cases ho : s.chan.senderOpen with
    | true => exact h.sendData chunk ho
    | false => simpa only [Session.step, ho, Bool.not_false, if_true] using h
  | sendTrailers fields =>
    cases ho : s.chan.senderOpen with
    | true => exact h.sendTrailers fields ho
    | false => simpa only [Session.step, ho, Bool.not_false, if_true] using h
  | sendError e =>
    unfold Session.step
    simp only
    split
    · exact h
    · rename_i hopen
      simp only [Bool.or_eq_true, Bool.not_eq_true', not_or, Bool.not_eq_false] at hopen
      exact h.sendError e hopen.1 hopen.2
  | dropSender => exact h.congr rfl rfl rfl rfl rfl (nofun)
  | poll => exact h.poll
  | dropReceiver => exact h.congr rfl rfl rfl rfl rfl id

theorem run_inv (len : DecodedLength) (wanter : Bool) (ops : List Op) : Inv ((new len wanter).run ops) :=
  foldlRecOn ops step (new_inv len wanter) fun _ h op _ => h.step op

/-! ## The channel -/

theorem Inv.obtained (h : Inv s) (hterm : s.chan.terminated = true) :
    s.chan.senderOpen = false ∧ dataOf s.chan.seen = s.accepted ∧ s.chan.queuedErrors = [] := by
  obtain ⟨ho, hi, hp⟩ := h.finished hterm
  refine ⟨ho, ?_, by simp [queuedErrors, hi, hp]⟩
  rw [← h.chunks]
  simp [queued, hi]

/-- **The channel is first in, first out, and loses nothing.** After any operations of both ends,
in any order:
* the chunks that were obtained, and then the one that is queued, are those that were accepted;
* an error stands behind all the chunks accepted before it and no others, and the first one
  is obtained or queued;
* trailers and the end come after all else, when the sender is gone and nothing is left; the
  trailers are those that were sent;
* three polls obtain all that a dropped sender leaves;
* a chunk that is not accepted comes back as it was. -/
theorem channel_fifo (len : DecodedLength) (wanter : Bool) (ops : List Op) :
    let s := (new len wanter).run ops
    dataOf s.chan.seen ++ s.chan.queued = s.accepted ∧
      (errorsOf s.chan.seen ++ s.chan.queuedErrors.map (s.accepted.length, ·)).Subperm s.sent ∧
      (∀ e, s.sent.head? = some e → e ∈ errorsOf s.chan.seen ++ s.chan.queuedErrors.map (s.accepted.length, ·)) ∧
      (∃ items trailers n, s.chan.seen.reverse = items ++ lasts trailers n ∧ (∀ i ∈ items, BodyItem.plain i) ∧
        (∀ t, trailers = some t → s.trailers = some t) ∧
        (lasts trailers n ≠ [] →
          s.chan.senderOpen = false ∧ dataOf s.chan.seen = s.accepted ∧ s.chan.queuedErrors = [])) ∧
      (s.chan.receiverOpen = true →
        let t := s.run [.dropSender, .poll, .poll, .poll]
        t.chan.terminated = true ∧ dataOf t.chan.seen = s.accepted ∧ t.chan.queuedErrors = []) ∧
      ∀ chunk back, (s.chan.sendData chunk).1 = .error back → back = chunk ∧ (s.chan.sendData chunk).2 = s.chan := by
  intro s
  have h : Inv s := run_inv len wanter ops
  obtain ⟨items, trailers, n, hseen, hplain, hnone, -, hsame⟩ := h.shape
  refine ⟨h.chunks, h.errors, h.first, ⟨items, trailers, n, hseen, hplain, hsame, fun hl => ?_⟩, fun hr => ?_, ?_⟩
  · refine h.obtained ?_
    by_contra hterm
    obtain ⟨rfl, rfl⟩ := hnone (by simpa using hterm)
    exact hl rfl
  · intro t
    have hinv : Inv t := foldlRecOn _ step h fun _ h op _ => h.step op
    have hterm : t.chan.terminated = true := drained (c := s.chan) hr
    have hacc : t.accepted = s.accepted := rfl
    obtain ⟨-, hdata, herr⟩ := hinv.obtained hterm
    exact ⟨hterm, hdata.trans hacc, herr⟩
  · intro chunk back hback
    rcases sendData_cases s.chan chunk with hc | ⟨-, -, -, hc⟩
    · rw [hc] at hback ⊢
      cases hback
      exact ⟨rfl, rfl⟩
    · rw [hc] at hback
      cases hback

end Session

end Chan

end Netty
