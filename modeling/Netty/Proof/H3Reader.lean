import Netty.Log.Basic
import Netty.Proof.RecvBody
import Netty.Spec.H3Reader

/-!
# A tunnel reader and the end of its stream

The reader of an HTTP/3 tunnel is told that the stream has ended by nothing more than that the
sender of its channel is gone. The task drops the sender after FIN, or after it has put an error
into the channel; whoever drops the task itself drops the sender too.

* `received`, `got`: what the stream has delivered, and what was read.
* `Inv`: what is in the channel when the sender is gone.
* `reads_honest`: **a reader that is told of the end is at the end**, unless the task was dropped.
* `dropped_reads_as_end`: what happens if it was.
-/

namespace Netty.H3.Reader

open List Option

variable {r r' : Reader} {l l' : List ReadEv}

/-! ## Logs -/

def gotBy : ReadEv → Bytes
  | .got bytes => bytes
  | _ => []

/-- All that the application has read, in order. -/
def got : List ReadEv → Bytes := Log.gather gotBy

/-- All that the stream has delivered, in order. -/
def received (r : Reader) : Bytes := (chunksOf r.recv.stream.read).flatten

def Failed (l : List ReadEv) : Prop := ∃ e, .failed e ∈ l

/-- Nobody is told of the end without a reason: an error was reported before, or the stream is
done and everything was read. -/
def Justified (done : Bool) (all : Bytes) (e : ReadEv) (l : List ReadEv) : Prop :=
  e = .ended → Failed l ∨ (done = true ∧ got l = all)

/-- As long as the stream is not done, only an error is a reason. -/
theorem justified_mono {all : Bytes} (h : Log.Ok (Justified false all) l) (done : Bool) (all' : Bytes) :
    Log.Ok (Justified done all') l :=
  h.imp fun _ _ hj he => .inl ((hj he).resolve_right nofun)

theorem Failed.cons (h : Failed l) (e : ReadEv) : Failed (e :: l) := h.imp fun _ he => mem_cons_of_mem _ he

/-! ## The channel -/

def chanBytes (c : Chan) : Bytes :=
  match c.item with
  | some (.ok bytes) => bytes
  | _ => []

def Queued (c : Chan) : Prop := (∃ e, c.item = some (.error e)) ∨ c.pendingError.isSome = true

def working : Feed → Bool
  | .idle | .top _ | .opened _ | .roomy _ => true
  | _ => false

def early : Feed → Bool
  | .closing | .done => false
  | _ => true

theorem early_of_working {f : Feed} (h : working f = true) : early f = true := by
  cases f <;> first | rfl | cases h

/-- **The invariant.** -/
structure Inv (r : Reader) : Prop where
  /-- What was received and not read is on its way, in order. -/
  order : ∃ rest, received r = got r.log ++ r.data ++ chanBytes r.chan ++ rest ∧
    (r.recvDone = false → working r.feed = true → rest = r.buffered.getD []) ∧ (r.recvDone = true → rest = [])
  receiving : r.recvDone = false → early r.feed = true →
    r.chan.senderOpen = true ∧ (∀ e, r.chan.item ≠ some (.error e)) ∧ r.chan.pendingError = none
  stream : r.recv.stream.Honest
  finished : r.recvDone = true → FinRead r.recv.stream.read ∧ (r.feed = .idle ∨ r.feed = .done)
  reported : r.recvDone = false → early r.feed = false →
    r.chan.receiverOpen = false ∨ Queued r.chan ∨ Failed r.log
  ended : r.readClosed = true ∨ r.chan.terminated = true →
    Failed r.log ∨ (r.recvDone = true ∧ r.chan.item = none)
  open' : r.reading.isSome = true → r.chan.receiverOpen = true
  log : Log.Ok (Justified r.recvDone (received r)) r.log

theorem new_inv {answers : RecvAnswers} (hlib : answers.FinFirst) : Inv (new answers) where
  order := ⟨[], rfl, fun _ _ => rfl, fun _ => rfl⟩
  stream := ⟨hlib, nofun⟩
  receiving := fun _ _ => ⟨rfl, nofun, rfl⟩
  finished := nofun
  reported := nofun
  ended := nofun
  open' := nofun
  log := trivial

/-- **The application is told something.** -/
theorem Inv.record (h : Inv r) {e : ReadEv} (data : Bytes) (hg : r.data = gotBy e ++ data)
    (he : Justified r.recvDone (received r) e r.log) : Inv ({ r with data := data, reading := none }.record e) := by
  obtain ⟨rest, ho, hw, hd⟩ := h.order
  refine ⟨⟨rest, ?_, hw, hd⟩, h.receiving, h.stream, h.finished, fun hx hy => ?_, fun hx => ?_, nofun, he, h.log⟩
  · show received r = got r.log ++ gotBy e ++ data ++ _ ++ _
    rw [ho, hg, ← append_assoc (got r.log)]
    rfl
  · exact (h.reported hx hy).imp_right (Or.imp_right fun hf => hf.cons e)
  · exact (h.ended hx).imp_left fun hf => hf.cons e

/-! ## The application -/

theorem Inv.mayEnd (h : Inv r) (hd : r.data = []) (he : Failed r.log ∨ (r.recvDone = true ∧ r.chan.item = none)) :
    Justified r.recvDone (received r) .ended r.log := by
  refine fun _ => he.imp_right fun ⟨hr, hi⟩ => ⟨hr, ?_⟩
  obtain ⟨rest, ho, -, hrest⟩ := h.order
  rw [ho, hd, hrest hr]
  simp [chanBytes, hi]

/-- **What `poll_next` does**, by what it answers. -/
inductive Next (c : Chan) : Poll (Option (Except Error Bytes)) × Chan → Prop where
  | past : c.terminated = true → Next c (.ready none, c)
  | item (x : Except Error Bytes) : c.item = some x →
      Next c (.ready (some x), { c with want := true, item := none })
  | error (e : Error) : c.item = none → c.pendingError = some e →
      Next c (.ready (some (.error e)), { c with want := true, pendingError := none })
  | pending : c.item = none → Next c (.pending, { c with want := true })
  | closed : c.item = none → c.pendingError = none → c.senderOpen = false →
      Next c (.ready none, { c with want := true, terminated := true })

theorem pollNext_next (c : Chan) : Next c c.pollNext := by
  by_cases ht : c.terminated = true
  · have hc : c.pollNext = (.ready none, c) := by simp [Chan.pollNext, ht]
    rw [hc]
    exact .past ht
  · obtain ⟨item, pendingError, trailers, senderOpen, receiverOpen, want, trailersSent, terminated, contentLength,
      seen⟩ := c
    obtain rfl : terminated = false := by simpa using ht
    rcases item with _ | x
    · rcases pendingError with _ | e
      · cases senderOpen
        · exact .closed rfl rfl rfl
        · exact .pending rfl
      · exact .error e rfl rfl
    · exact .item x rfl

theorem chanBytes_none {c : Chan} (h : c.item = none) : chanBytes c = [] := by rw [chanBytes, h]

section

variable (h : Inv r)

include h

theorem Inv.taken (hd : r.data = []) {c : Chan} {data : Bytes} (hc : chanBytes r.chan = data ++ chanBytes c)
    (hs : c.senderOpen = r.chan.senderOpen) (hr : c.receiverOpen = r.chan.receiverOpen)
    (hi : c.item = r.chan.item ∨ c.item = none) (hp : c.pendingError = r.chan.pendingError ∨ c.pendingError = none)
    (hq : Queued r.chan → Queued c ∨ Failed r.log) (ht : c.terminated = r.chan.terminated) :
    Inv { r with chan := c, data := data } := by
  obtain ⟨rest, ho, hw, hdone⟩ := h.order
  refine ⟨⟨rest, ?_, hw, hdone⟩, fun hx hy => ?_, h.stream, h.finished, fun hx hy => ?_, fun hx => ?_,
    fun hx => hr.trans (h.open' hx), h.log⟩
  · show received r = got r.log ++ data ++ chanBytes c ++ rest
    rw [ho, hd, hc]
    simp
  · obtain ⟨h1, h2, h3⟩ := h.receiving hx hy
    refine ⟨hs.trans h1, fun e he => ?_, ?_⟩
    · rcases hi with hi | hi
      · exact h2 e (hi.symm.trans he)
      · cases hi.symm.trans he
    · rcases hp with hp | hp
      · exact hp.trans h3
      · exact hp
  · rcases h.reported hx hy with hro | hqu | hf
    · exact .inl (hr.trans hro)
    · exact .inr (hq hqu)
    · exact .inr (.inr hf)
  · refine (h.ended (hx.imp_right fun hx => ht.symm.trans hx)).imp_right fun hx => ⟨hx.1, ?_⟩
    rcases hi with hi | hi
    · exact hi.trans hx.2
    · exact hi

theorem Inv.told (hq : Queued r.chan) {c : Chan} (hc : chanBytes c = chanBytes r.chan) (e : Error) :
    Inv ({ r with chan := c, readClosed := true, reading := none }.record (.failed e)) := by
  obtain ⟨rest, ho, hw, hd⟩ := h.order
  have hf : Failed (.failed e :: r.log) := ⟨e, mem_cons_self ..⟩
  refine ⟨⟨rest, ?_, hw, hd⟩, fun hx hy => ?_, h.stream, h.finished, fun _ _ => .inr (.inr hf), fun _ => .inl hf,
    nofun, nofun, h.log⟩
  · show received r = got r.log ++ [] ++ r.data ++ chanBytes c ++ rest
    rw [append_nil, ho, hc]
  · obtain ⟨-, h2, h3⟩ := h.receiving hx hy
    rcases hq with ⟨e', hq⟩ | hq
    · exact absurd hq (h2 e')
    · rw [h3] at hq
      cases hq

theorem Inv.toldEnd (hd : r.data = []) (he : Failed r.log ∨ (r.recvDone = true ∧ r.chan.item = none))
    {c : Chan} {want terminated : Bool} (hc : c = { r.chan with want := want, terminated := terminated }) :
    Inv ({ r with chan := c, readClosed := true, reading := none }.record .ended) := by
  subst hc
  have hi : Inv { r with chan := { r.chan with want, terminated }, readClosed := true } := { h with ended := fun _ => he }
  exact hi.record r.data rfl (h.mayEnd hd he)

/-- **A channel that is closed and empty**: the reader knows of an error, or the stream was at its FIN. -/
theorem Inv.closed (ho : r.chan.receiverOpen = true) (hi : r.chan.item = none)
    (hp : r.chan.pendingError = none) (hs : r.chan.senderOpen = false) :
    Failed r.log ∨ (r.recvDone = true ∧ r.chan.item = none) := by
  cases hr : r.recvDone with
  | true => exact .inr ⟨rfl, hi⟩
  | false =>
    left
    cases he : early r.feed with
    | true => cases hs ▸ (h.receiving hr he).1
    | false =>
      rcases h.reported hr he with hx | hx | hx
      · cases ho ▸ hx
      · rcases hx with ⟨e, hx⟩ | hx
        · cases hi ▸ hx
        · cases hp ▸ hx
      · exact hx

theorem Inv.readOn : Inv r.readOn := by
  unfold Reader.readOn
  split
  · exact h
  · rename_i room hreading
    split
    · exact h.record _ (take_append_drop room r.data).symm nofun
    · rename_i hdata
      have hdata : r.data = [] := by simpa using hdata
      have hopen := h.open' (by rw [hreading]; rfl)
      split
      · rename_i hclosed
        exact h.record r.data rfl (h.mayEnd hdata (h.ended (.inl hclosed)))
      · have hn := pollNext_next r.chan
        generalize r.chan.pollNext = x at hn ⊢
        cases hn with
        | past ht => exact h.toldEnd hdata (h.ended (.inr ht)) rfl
        | item x hi =>
          cases x with
          | ok data =>
            refine h.taken hdata (by simp [chanBytes, hi]) rfl rfl (.inr rfl) (.inl rfl) (fun hq => ?_) rfl
            exact .inl (.inr (hq.resolve_left fun ⟨e, hx⟩ => by rw [hi] at hx; cases hx))
          | error e => exact h.told (.inl ⟨e, hi⟩) (by simp [chanBytes, hi]) e
        | error e hi hp =>
          exact h.told (c := { r.chan with want := true, pendingError := none }) (.inr (by rw [hp]; rfl)) rfl e
        | pending hi =>
          exact { h with open' := nofun }
        | closed hi hp hs => exact h.toldEnd hdata (h.closed hopen hi hp hs) rfl

/-! ## The task -/

theorem Inv.setStream (hd : r.recvDone = false) {stream : RecvStream} (hs : stream.Honest)
    (hc : chunksOf stream.read = chunksOf r.recv.stream.read) : Inv (r.setStream stream) := by
  have hr : received (r.setStream stream) = received r := congrArg flatten hc
  exact { h with
    order := by rw [hr]; exact h.order
    stream := hs
    finished := fun hx => absurd (hd.symm.trans hx) nofun
    log := by rw [hr]; exact h.log }

section

variable (hw : working r.feed = true) (hd : r.recvDone = false)

include hw hd

theorem Inv.goto {f : Feed} (hf : early f = true) : Inv (r.setFeed f) := by
  have he := early_of_working hw
  obtain ⟨rest, ho, hrest, -⟩ := h.order
  refine ⟨⟨rest, ho, fun hx _ => hrest hx hw, fun hx => ?_⟩, fun hx _ => h.receiving hx he, h.stream, fun hx => ?_,
    fun hx hy => ?_, h.ended, h.open', h.log⟩
  · cases hd ▸ hx
  · cases hd ▸ hx
  · cases hf ▸ hy

theorem Inv.fail (e : Error) : Inv (r.fail e) := by
  unfold Reader.fail
  rw [hd]
  exact h.goto hw hd rfl

theorem Inv.rest : Inv r.rest := by
  unfold Reader.rest
  rw [hd, Bool.and_false]
  exact h.goto hw hd rfl

end

theorem Inv.settle (hd : r.recvDone = true) {f : Feed} (hf : f = .idle ∨ f = .done) :
    Inv (r.setFeed f) := by
  obtain ⟨rest, ho, -, hrest⟩ := h.order
  refine ⟨⟨rest, ho, fun hx => ?_, hrest⟩, fun hx => ?_, h.stream, fun _ => ⟨(h.finished hd).1, hf⟩, fun hx => ?_,
    h.ended, h.open', h.log⟩
  all_goals cases hd ▸ hx

theorem Inv.rest_done (hd : r.recvDone = true) : Inv r.rest := by
  unfold Reader.rest
  split <;> exact h.settle hd (by simp)

theorem Inv.fail_any (hf : r.feed = .idle) (e : Error) : Inv (r.fail e) := by
  cases hd : r.recvDone with
  | false => exact h.fail (by rw [hf]; rfl) hd e
  | true =>
    unfold Reader.fail
    rw [hd]
    exact h.settle hd (by simp)

theorem Inv.poll (hf : r.feed = .idle) (send : Poll (Except Error Unit)) : Inv (r.poll send) := by
  have hgo : ∀ b, Inv (if r.recvDone then Reader.rest { r with sendDone := b }
      else { r with sendDone := b }.setFeed (.top 32)) := by
    intro b
    have hb : Inv { r with sendDone := b } := { h with }
    split
    · exact hb.rest_done ‹_›
    · rename_i hd
      exact hb.goto (by rw [hf]; rfl) (by simpa using hd) rfl
  unfold Reader.poll
  split
  · exact h.fail_any hf _
  · split
    · exact h.fail_any hf _
    · exact hgo _

end

section Working

variable (h : Inv r) (hw : working r.feed = true) (hd : r.recvDone = false)

include h hw hd

theorem Inv.violate : Inv r.violate := by
  have hp : ∀ x, Inv { r with published := x } := fun _ =>
    { h with }
  unfold Reader.violate
  exact Inv.fail (r := { r with published := some _ }) (hp _) hw hd _

/-- **FIN**: there is nothing more to come. -/
theorem Inv.finish (hb : r.buffered.getD [] = []) (hfin : FinRead r.recv.stream.read) : Inv r.finish := by
  obtain ⟨rest, ho, hrest, -⟩ := h.order
  obtain rfl := (hrest hd hw).trans hb
  have hat : ∀ f, f = .idle ∨ f = .done → Inv ({ r with
      recv := { r.recv with finished := true }, chan := r.chan.dropSender, recvDone := true }.setFeed f) := by
    intro f hf
    refine ⟨⟨[], ho, nofun, fun _ => rfl⟩, nofun, h.stream, fun _ => ⟨hfin, hf⟩, nofun, fun hx => ?_, h.open', ?_⟩
    · refine (h.ended hx).imp_right fun hx => ?_
      cases hd ▸ hx.1
    · exact justified_mono (hd ▸ h.log) true _
  unfold Reader.finish Reader.rest
  split
  · exact hat _ (.inr rfl)
  · exact hat _ (.inl rfl)

theorem Inv.pollTrailers (hb : r.buffered.getD [] = []) : Inv r.pollTrailers := by
  unfold Reader.pollTrailers
  rcases hx : r.recv.stream.pollRecvTrailers with ⟨x, stream⟩
  obtain ⟨hok, fin, hr⟩ := RecvStream.Ok.trailers ⟨h.stream, rfl⟩ hx
  have hs : Inv (r.setStream stream) := h.setStream hd hok.toHonest (by rw [hr, chunksOf_other rfl])
  split <;> rename_i heq
  · obtain ⟨rfl, rfl⟩ := Prod.mk.inj heq
    have hmem : .trailers ⟨some (.ok none), fin⟩ ∈ stream.read := by rw [hr]; exact mem_cons_self
    obtain rfl := hok.fin _ _ hmem
    exact hs.finish hw hd hb ⟨_, hmem⟩
  iterate 4 exact (Prod.mk.inj heq).2 ▸ hs.violate hw hd
  · exact (Prod.mk.inj heq).2 ▸ hs.fail hw hd _

theorem Inv.pollData (hb : r.buffered.getD [] = []) (rounds : ℕ) : Inv (r.pollData rounds) := by
  obtain ⟨rest, ho, hrest, -⟩ := h.order
  obtain rfl := (hrest hd hw).trans hb
  have hn : ∀ b, Inv { r with buffered := none, dataDone := b } := fun _ =>
    { h with order := ⟨[], ho, fun _ _ => rfl, fun _ => rfl⟩ }
  unfold Reader.pollData
  simp only
  split
  · exact (hn r.dataDone).pollTrailers hw hd rfl
  · rcases hx : r.recv.stream.pollRecvData with ⟨x, stream⟩
    obtain ⟨hok, hr⟩ := RecvStream.Ok.data ⟨h.stream, rfl⟩ hx
    rcases x with _ | e | _ | data
    · exact ((hn r.dataDone).setStream hd hok.toHonest (by rw [hr, chunksOf_other rfl])).rest hw hd
    · exact ((hn r.dataDone).setStream hd hok.toHonest (by rw [hr, chunksOf_other rfl])).fail hw hd _
    · exact ((hn true).setStream hd hok.toHonest (by rw [hr, chunksOf_other rfl])).pollTrailers hw hd rfl
    · refine ⟨⟨data, ?_, fun _ _ => rfl, fun hx => ?_⟩, fun hx _ => h.receiving hx (early_of_working hw),
        hok.toHonest, fun hx => ?_, nofun, h.ended, h.open', ?_⟩
      · show (chunksOf stream.read).flatten = got r.log ++ r.data ++ chanBytes r.chan ++ data
        rw [hr, chunksOf_data, flatten_append, flatten_singleton, ← append_nil (_ ++ chanBytes _), ← ho]
        rfl
      · cases hd ▸ hx
      · cases hd ▸ hx
      · exact justified_mono (hd ▸ h.log) _ _

theorem Inv.sendData (rounds : ℕ) : Inv (r.sendData rounds) := by
  obtain ⟨rest, ho, hrest, -⟩ := h.order
  obtain rfl := hrest hd hw
  obtain ⟨h1, h2, h3⟩ := h.receiving hd (early_of_working hw)
  unfold Reader.sendData Chan.sendData
  simp only
  by_cases hc : (!r.chan.receiverOpen || !r.chan.want || r.chan.item.isSome || r.chan.pendingError.isSome) = true
  · rw [if_pos hc]
    -- the reader is gone, and what was about to be sent is lost
    show Inv (Reader.setFeed { r with buffered := some _ } (if r.recvDone then _ else _))
    rw [if_neg (by simp [hd])]
    exact ⟨⟨_, ho, nofun, fun hx => (by cases hd ▸ hx)⟩, fun _ _ => ⟨h1, h2, h3⟩,
      h.stream, fun hx => (by cases hd ▸ hx), nofun, h.ended, h.open', h.log⟩
  · rw [if_neg hc]
    simp only [Bool.or_eq_true, not_or, Bool.not_eq_true, isSome_eq_false_iff, isNone_iff_eq_none] at hc
    refine ⟨⟨_, ?_, fun _ _ => rfl, fun hx => ?_⟩, fun hx _ => ⟨h1, nofun, h3⟩, h.stream, fun hx => ?_, nofun,
      fun hx => ?_, h.open', h.log⟩
    · show received r = got r.log ++ r.data ++ (r.buffered.getD []).take _ ++ (r.buffered.getD []).drop _
      rw [ho, chanBytes_none hc.1.2, append_nil, append_assoc _ (List.take _ _), take_append_drop]
    · cases hd ▸ hx
    · cases hd ▸ hx
    · refine (h.ended hx).imp_right fun hx => ?_
      cases hd ▸ hx.1

end Working

theorem Inv.not_done (h : Inv r) (hi : r.feed ≠ .idle) (hf : r.feed ≠ .done) : r.recvDone = false := by
  rw [Bool.eq_false_iff]
  intro hd
  exact (h.finished hd).2.elim hi hf

theorem sendError_spec (c : Chan) (e : Error) :
    chanBytes (c.sendError e) = chanBytes c ∧ (c.sendError e).receiverOpen = c.receiverOpen ∧
      (c.sendError e).terminated = c.terminated ∧ ((c.sendError e).receiverOpen = false ∨ Queued (c.sendError e)) := by
  unfold Chan.sendError
  split
  · rename_i hr
    exact ⟨rfl, rfl, rfl, .inl (by simpa using hr)⟩
  · split
    · rename_i hn
      refine ⟨?_, rfl, rfl, .inr (.inl ⟨e, rfl⟩)⟩
      rw [chanBytes_none (isNone_iff_eq_none.1 hn)]
      rfl
    · split
      · exact ⟨rfl, rfl, rfl, .inr (.inr rfl)⟩
      · rename_i hp
        exact ⟨rfl, rfl, rfl, .inr (.inr (by simpa [isNone_iff_eq_none, isSome_iff_ne_none] using hp))⟩

/-- **The error of a transfer is reported.** -/
theorem Inv.report (h : Inv r) {e : Error} (hf : r.feed = .failed e) (e' : Error) :
    Inv ({ r with chan := r.chan.sendError e' }.setFeed .closing) := by
  have hd := h.not_done (by simp [hf]) (by simp [hf])
  obtain ⟨rest, ho, -, -⟩ := h.order
  obtain ⟨hb, hr, ht, hq⟩ := sendError_spec r.chan e'
  refine ⟨⟨rest, ?_, nofun, fun hx => ?_⟩, nofun, h.stream, fun hx => ?_, fun _ _ => hq.imp_right .inl, fun hx => ?_,
    fun hx => hr.trans (h.open' hx), h.log⟩
  · show received r = got r.log ++ r.data ++ chanBytes (r.chan.sendError e') ++ rest
    rw [hb, ho]
  · cases hd ▸ hx
  · cases hd ▸ hx
  · refine (h.ended (hx.imp_right fun hx => ht.symm.trans hx)).imp_right fun hx => ?_
    cases hd ▸ hx.1

theorem Inv.close (h : Inv r) (hf : r.feed = .closing) : Inv ({ r with chan := r.chan.dropSender }.setFeed .done) := by
  have hd := h.not_done (by simp [hf]) (by simp [hf])
  obtain ⟨rest, ho, -, -⟩ := h.order
  refine ⟨⟨rest, ho, nofun, fun hx => ?_⟩, nofun, h.stream, fun hx => ?_,
    fun hx _ => h.reported hx (by rw [hf]; rfl), h.ended, h.open', h.log⟩
  · cases hd ▸ hx
  · cases hd ▸ hx

theorem Inv.pumpOn (h : Inv r) : Inv r.pumpOn := by
  unfold Reader.pumpOn
  split
  · exact h
  · exact h
  · rename_i hf
    exact h.rest (by rw [hf]; rfl) (h.not_done (by simp [hf]) (by simp [hf]))
  · rename_i rounds hf
    have hw : working r.feed = true := by rw [hf]; rfl
    have hd := h.not_done (by simp [hf]) (by simp [hf])
    split
    · exact h.fail hw hd _
    · exact h.goto hw hd rfl
  · rename_i rounds hf
    have hw : working r.feed = true := by rw [hf]; rfl
    have hd := h.not_done (by simp [hf]) (by simp [hf])
    split
    · split
      · exact h.goto hw hd rfl
      · exact h.fail hw hd _
      · exact h.rest hw hd
    · rename_i hb
      exact h.pollData hw hd (by simpa using hb) rounds
  · rename_i rounds hf
    exact h.sendData (by rw [hf]; rfl) (h.not_done (by simp [hf]) (by simp [hf])) rounds
  · rename_i e hf
    exact h.report hf _
  · exact h.close ‹_›

/-! ## Runs -/

/-- The task is dropped only after its receiving half is done, or after it is done itself. -/
def Harmless (r : Reader) (op : Op) : Prop := op = .drop → r.recvDone = true ∨ r.feed = .done

/-- In a run, too. -/
def Orderly : Reader → List Op → Prop
  | _, [] => True
  | r, op :: ops => Harmless r op ∧ Orderly (r.step op) ops

theorem Inv.step (h : Inv r) {op : Op} (hop : Harmless r op) : Inv (r.step op) := by
  cases op with
  | read room =>
    simp only [Reader.step, Reader.read]
    split
    · rename_i hc
      simp only [Bool.and_eq_true] at hc
      split
      · exact h
      · exact { h with open' := fun _ => hc.2 }
    · exact h
  | readOn => exact h.readOn
  | dropIo =>
    simp only [Reader.step]
    split
    · rename_i hc
      refine { h with reported := fun _ _ => .inl rfl, open' := fun hx => ?_ }
      rw [isNone_iff_eq_none.1 hc] at hx
      cases hx
    · exact h
  | poll send =>
    simp only [Reader.step]
    split
    · exact h.poll ‹_› send
    · exact h
  | pump => exact h.pumpOn
  | drop =>
    simp only [Reader.step]
    split
    · rename_i hf
      have hd : r.recvDone = true := (hop rfl).resolve_right (by simp [hf])
      have hc : Inv { r with chan := r.chan.dropSender } :=
        { h with receiving := fun hx => (by cases hd ▸ hx) }
      exact hc.settle hd (.inr rfl)
    · exact h
  | invalidate aborted => exact { h with }
  | publish e => exact { h with }

theorem Inv.run (h : Inv r) {ops : List Op} (hops : Orderly r ops) : Inv (r.run ops) := by
  induction ops generalizing r with
  | nil => exact h
  | cons op ops ih => exact ih (h.step hops.1) hops.2

/-- **A reader that is told of the end is at the end**, for every stream and every run of the application
and the task in which the task is not dropped too early:

* what the application reads is what the stream has delivered, in order;
* a read of no bytes comes only after FIN and after everything was read, or after an error was reported;
* when the task is done without FIN, an error was reported, or it is in the channel. -/
theorem reads_honest (answers : RecvAnswers) (hlib : answers.FinFirst) (ops : List Op) (h : Orderly (new answers) ops) :
    let r := (new answers).run ops
    got r.log <+: received r ∧
    (∀ pre post, r.log = post ++ .ended :: pre →
      (∃ e, .failed e ∈ pre) ∨ (FinRead r.recv.stream.read ∧ got pre = received r)) ∧
    (r.feed = .done → r.chan.receiverOpen = true →
      FinRead r.recv.stream.read ∨ (∃ e, .failed e ∈ r.log) ∨ Queued r.chan) := by
  intro r
  have hr : Inv r := (new_inv hlib).run h
  refine ⟨?_, fun pre post hl => ?_, fun hf ho => ?_⟩
  · obtain ⟨rest, ho, -⟩ := hr.order
    rw [ho, append_assoc, append_assoc]
    exact prefix_append _ _
  · have hlog : Log.Ok (Justified r.recvDone (received r)) (post ++ .ended :: pre) := hl ▸ hr.log
    exact (hlog.split rfl).imp_right fun hd => ⟨(hr.finished hd.1).1, hd.2⟩
  · cases hd : r.recvDone with
    | true => exact .inl (hr.finished hd).1
    | false =>
      rcases hr.reported hd (by rw [hf]; rfl) with hx | hx | hx
      · cases ho ▸ hx
      · exact .inr (.inr hx)
      · exact .inr (.inl hx)

/-- A byte, and then always the same. -/
def oneByte (next : DataAnswer) (trailers : TrailersAnswer) : RecvAnswers :=
  ⟨(Stream'.const next).cons (some (.ok (some [97]))), Stream'.const trailers⟩

/-- The byte, and FIN. -/
def shortAnswers : RecvAnswers := oneByte (some (.ok none)) ⟨some (.ok none), true⟩

/-- The byte, and a reset. -/
def resetAnswers : RecvAnswers := oneByte (some (.error (.remoteTerminate 0))) ⟨some (.error (.remoteTerminate 0)), false⟩

/-- The byte, and then nothing for as long as one waits. -/
def silentAnswers : RecvAnswers := oneByte none ⟨none, false⟩

/-- The byte comes and is read, the task goes on and is dropped, and the application reads on. -/
def readByte : List Op :=
  [.poll .pending, .pump, .pump, .pump, .pump, .pump, .pump, .read 8, .readOn, .readOn, .pump, .pump, .pump, .drop,
    .read 8, .readOn, .read 8, .readOn]

/-- A stream that comes to its FIN, and one that fails. -/
theorem reads_honest_byte :
    let r := (new shortAnswers).run readByte
    let f := (new resetAnswers).run readByte
    r.log = [.ended, .ended, .got [97]] ∧ FinRead r.recv.stream.read ∧
      f.log = [.ended, .failed (.newH3 (.h3 (.remoteTerminate 0))), .got [97]] ∧ got f.log <+: received f := by
  intro r f
  have hr := reads_honest shortAnswers (fun _ _ _ => rfl) readByte (by
    simp only [readByte, Orderly, Harmless, reduceCtorEq, false_implies, true_implies, true_and, and_true]
    exact .inl rfl)
  have hf := reads_honest resetAnswers nofun readByte (by
    simp only [readByte, Orderly, Harmless, reduceCtorEq, false_implies, true_implies, true_and, and_true]
    exact .inr rfl)
  have hend := hr.2.1 [.ended, .got [97]] [] rfl
  exact ⟨rfl, (hend.resolve_left (by simp)).1, rfl, hf.1⟩

/-- **A task that is dropped reads as the end**: the application has read a byte, the stream was not at
its FIN, the task is dropped, and the next read returns nothing and no error. -/
theorem dropped_reads_as_end :
    let r := (new silentAnswers).run readByte
    r.log = [.ended, .ended, .got [97]] ∧ ¬ FinRead r.recv.stream.read := by
  refine ⟨rfl, ?_⟩
  rintro ⟨x, hx⟩
  have hread : ((new silentAnswers).run readByte).recv.stream.read =
      [.data none, .data (some (.ok (some [97])))] := rfl
  rw [hread] at hx
  simp at hx

end Netty.H3.Reader
