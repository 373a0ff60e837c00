import Netty.Proof.PipeH2

/-!
# Uploads over HTTP/3

A chunk is given in pieces, and what the body produces is counted against the length that was
declared.

* `Open`: while the pipe waits, the bytes that were given and those in hand are what the body
  has produced, and the rest of the declared length is what it has yet to produce.
* `round_sat`: one round.
* `repoll_exact`: a whole run.
* `repoll_complete`: a body of the declared length is sent as a whole, and then FIN.
-/

namespace Netty

open LawfulBuf List Option

variable {β : Type} [LawfulBuf β]

namespace H3

def Given.bytes : Given → Bytes
  | .data bytes => bytes
  | _ => []

def sent (given : List Given) : Bytes := given.reverse.flatMap Given.bytes

@[simp] theorem sent_nil : sent [] = [] := rfl

@[simp] theorem sent_cons (g : Given) (l : List Given) : sent (g :: l) = sent l ++ g.bytes := by simp [sent]

/-- A stream that was given some pieces, then trailers if there are any, then FIN. -/
def wire (pieces : List Bytes) (trailers : Option HeaderMap) (fin : Bool) : List Given :=
  (if fin then [.fin] else []) ++ ((trailers.map Given.trailers).toList ++ pieces.map .data)

theorem fin_mem_wire {pieces : List Bytes} {trailers : Option HeaderMap} {fin : Bool} :
    .fin ∈ wire pieces trailers fin ↔ fin = true := by
  cases fin <;> cases trailers <;> simp [wire]

namespace PipeToSendStream

variable {body : Stream' (BodyEv β)} {declared : Option ℕ} {p : PipeToSendStream β}

def stash (p : PipeToSendStream β) : Bytes := (p.data.map content).getD []

/-- What the stream was given: the trailers are those of the body. -/
def OnWire (p : PipeToSendStream β) (trailers fin : Bool) : Prop :=
  ∃ pieces t, p.send.given = wire pieces t fin ∧ t.isSome = trailers ∧ ∀ f, t = some f → .trailers f ∈ p.taken

omit [LawfulBuf β] in
theorem OnWire.pieces {fin trailers : Bool} (h : p.OnWire trailers fin) (ht : trailers = false) :
    ∃ pieces, p.send.given = wire pieces none fin := by
  obtain ⟨pieces, t, hw, hs, -⟩ := h
  cases t with
  | none => exact ⟨pieces, hw⟩
  | some f => rw [ht] at hs; cases hs

/-- **A pipe that is not done.** The rest of the declared length is what the body has not
produced yet. -/
structure Open (declared : Option ℕ) (body : Stream' (BodyEv β)) (p : PipeToSendStream β) : Prop where
  source : p.taken.reverse ++ₛ p.body = body
  unfinished : p.send.finished = false
  wire : p.OnWire p.trailersSent false
  bytes : sent p.send.given ++ p.stash = produced p.taken
  counted : declared = p.remaining.map (· + (produced p.taken).length)
  complete : p.trailersSent = true ∨ p.finishing = true → p.data = none ∧ p.short = false
  bodyOver : p.finishing = true → p.taken.head? = some .done

/-- **A pipe that has submitted FIN.** -/
structure Finished (declared : Option ℕ) (body : Stream' (BodyEv β)) (p : PipeToSendStream β) : Prop where
  source : p.taken.reverse ++ₛ p.body = body
  finished : p.send.finished = true
  wire : p.OnWire p.trailersSent true
  bytes : sent p.send.given = produced p.taken
  stash : p.data = none
  length : ∀ n, declared = some n → (sent p.send.given).length = n
  bodyOver : p.taken.head? = some .done

/-- **A pipe that has given up.** -/
structure Left (declared : Option ℕ) (body : Stream' (BodyEv β)) (p : PipeToSendStream β) : Prop where
  source : p.taken.reverse ++ₛ p.body = body
  unfinished : p.send.finished = false
  wire : p.OnWire p.trailersSent false
  bytes : sent p.send.given <+: produced p.taken
  length : ∀ n, declared = some n → (sent p.send.given).length ≤ n

def Exact (declared : Option ℕ) (body : Stream' (BodyEv β)) : Poll (Except Error Unit) × PipeToSendStream β → Prop
  | (.ready _, p) => p.Finished declared body ∨ p.Left declared body
  | (_, p) => p.Finished declared body ∨ p.Open declared body

theorem Open.sent_le (h : Open declared body p) {n : ℕ} (hn : declared = some n) : (sent p.send.given).length ≤ n := by
  have hb := congrArg List.length h.bytes
  have hc := h.counted
  rw [hn] at hc
  obtain ⟨m, -, hm⟩ := map_eq_some_iff.1 hc.symm
  rw [length_append] at hb
  omega

theorem Open.left (h : Open declared body p) : Left declared body p where
  source := h.source
  unfinished := h.unfinished
  wire := h.wire
  bytes := ⟨_, h.bytes⟩
  length := fun _ hn => h.sent_le hn

theorem Open.exact (h : Open declared body p) (a : Poll (Except Error Unit)) : Exact declared body (a, p) := by
  cases a with
  | ready r => exact .inr h.left
  | _ => exact .inr h

theorem Finished.exact (h : Finished declared body p) (a : Poll (Except Error Unit)) :
    Exact declared body (a, p) := by
  cases a <;> exact .inl h

variable {g : SendGuard}

theorem Open.setSend (h : Open declared body p) (hg : g.given = p.send.given) (hf : g.finished = p.send.finished) :
    Open declared body (p.setSend g) where
  source := h.source
  unfinished := hf.trans h.unfinished
  wire := by
    obtain ⟨pieces, t, hw, ht⟩ := h.wire
    exact ⟨pieces, t, hg.trans hw, ht⟩
  bytes := (congrArg (sent · ++ p.stash) hg).trans h.bytes
  counted := h.counted
  complete := h.complete
  bodyOver := h.bodyOver

theorem Open.leave (h : Open declared body p) : Left declared body p.pollFrame.2 where
  source := by
    simpa [pollFrame, Stream'.append_append_stream, Stream'.cons_head_tail] using h.source
  unfinished := h.unfinished
  wire := by
    obtain ⟨pieces, t, hw, ht, hm⟩ := h.wire
    exact ⟨pieces, t, hw, ht, fun f hf => mem_cons_of_mem _ (hm f hf)⟩
  bytes := by
    rw [pollFrame, produced_cons, ← h.bytes, append_assoc]
    exact prefix_append _ _
  length := fun _ hn => h.sent_le hn

theorem start_cases (g : SendGuard) (x : Given) :
    (∃ g', g.start x = (.ok (), g') ∧ g'.given = x :: g.given ∧ g'.finished = g.finished) ∨
      ∃ e g', g.start x = (.error e, g') ∧ g'.given = g.given ∧ g'.finished = g.finished := by
  unfold SendGuard.start
  split
  · exact .inl ⟨_, rfl, rfl, rfl⟩
  · exact .inr ⟨_, _, rfl, rfl, rfl⟩

theorem consumeLength_ok {remaining left : Option ℕ} {size : ℕ} (h : consumeLength remaining size = .ok left) :
    remaining = left.map (· + size) := by
  unfold consumeLength at h
  split at h
  · cases h; rfl
  · split at h
    · cases h
      simp only [map_some, some.injEq]
      omega
    · cases h

section

variable (h : Open declared body p)

include h

theorem finish_sat (hf : p.finishing = true) : p.finish.Sat (Open declared body) (Exact declared body) := by
  obtain ⟨hdata, hshort⟩ := h.complete (.inr hf)
  unfold finish SendGuard.pollFinish
  rcases p.send.finishes.head with _ | e | u
  · exact .inr (h.setSend rfl rfl)
  · have h' : Open declared body (p.setSend { p.send with finishes := p.send.finishes.tail }) := h.setSend rfl rfl
    exact .inr h'.left
  · have hfin : ∀ g : SendGuard, g.given = .fin :: p.send.given → g.finished = true →
        Finished declared body (p.setSend g) := by
      intro g hg hd
      have hs : sent g.given = produced p.taken := by
        simpa [hg, Given.bytes, stash, hdata] using h.bytes
      refine ⟨h.source, hd, ?_, hs, hdata, fun n hn => ?_, h.bodyOver hf⟩
      · obtain ⟨pieces, t, hw, ht⟩ := h.wire
        exact ⟨pieces, t, by simp [setSend, hg, hw, wire], ht⟩
      · obtain ⟨m, hm, hmn⟩ := map_eq_some_iff.1 (hn ▸ h.counted).symm
        have h0 : m = 0 := by simpa [short, hm] using hshort
        rw [setSend, hs]
        omega
    exact (hfin _ rfl rfl).exact _

theorem nextFrame_sat (hd : p.data = none) (hf : p.finishing = false) :
    p.nextFrame.Sat (Open declared body) (Exact declared body) := by
  have hleft := h.leave
  have hb : sent p.send.given = produced p.taken := by simpa [stash, hd] using h.bytes
  have hquiet : p.body.head.bytes = [] → Open declared body p.pollFrame.2 := fun h0 =>
    ⟨hleft.source, h.unfinished, hleft.wire, by simp [pollFrame, stash, hd, hb, h0],
      by simpa [pollFrame, h0] using h.counted, h.complete,
      fun hc => by rw [pollFrame, hf] at hc; cases hc⟩
  unfold nextFrame
  have hx : p.pollFrame = (p.body.head, p.pollFrame.2) := rfl
  rw [hx]
  cases he : p.body.head with
  | pending => exact .inr (hquiet (by rw [he]; rfl))
  | err e => exact .inr hleft
  | done =>
    simp only
    split
    · exact .inr hleft
    · rename_i hs
      have ho := hquiet (by rw [he]; rfl)
      exact { ho with complete := fun _ => ⟨hd, Bool.eq_false_iff.2 hs⟩, bodyOver := fun _ => by simp [pollFrame, he] }
  | unknown =>
    simp only
    split
    · exact .inr hleft
    · exact hquiet (by rw [he]; rfl)
  | data chunk eos =>
    simp only
    split
    · exact .inr hleft
    · rename_i ht
      split
      · rename_i remaining hc
        have hcount : p.remaining = remaining.map (· + (content chunk).length) :=
          remaining_eq chunk ▸ consumeLength_ok hc
        refine ⟨hleft.source, h.unfinished, hleft.wire, ?_, ?_, fun hor => ?_, fun hc => ?_⟩
        · simp [pollFrame, stash, hb, he, BodyEv.bytes]
        · rw [h.counted, hcount, Option.map_map, pollFrame, he, produced_cons, length_append]
          congr 1
          funext m
          simp only [Function.comp, BodyEv.bytes]
          omega
        · rcases hor with hor | hor
          · exact absurd hor ht
          · exact absurd hor (by rw [pollFrame, hf]; decide)
        · exact absurd hc (by rw [pollFrame, hf]; decide)
      · exact .inr hleft
  | trailers fields =>
    simp only
    split
    · exact .inr hleft
    · rename_i ht
      split
      · exact .inr hleft
      · rename_i hs
        have ho := hquiet (by rw [he]; rfl)
        obtain ⟨g, hg, hgiven, hfin⟩ | ⟨e, g, hg, hgiven, hfin⟩ := start_cases p.pollFrame.2.send (.trailers fields)
        · rw [hg]
          obtain ⟨pieces, hw⟩ := h.wire.pieces (Bool.eq_false_iff.2 ht)
          refine ⟨ho.source, hfin.trans h.unfinished, ⟨pieces, some fields, ?_, rfl, ?_⟩, ?_, ho.counted,
            fun _ => ⟨hd, Bool.eq_false_iff.2 hs⟩, ho.bodyOver⟩
          · rw [setSend, hgiven, pollFrame, hw]; rfl
          · intro f hfields
            cases hfields
            simp [setSend, pollFrame, he]
          · have hbytes := ho.bytes
            simpa [setSend, stash, hgiven, Given.bytes] using hbytes
        · rw [hg]
          exact .inr (ho.setSend hgiven hfin).left

/-- **A piece is handed over**: it is the front of the chunk in hand. -/
theorem Open.piece {data : β} (hd : p.data = some data) (hf : p.finishing = false) {n : ℕ}
    (hn : n ≤ (content data).length)
    (hg : g.given = .data ((content data).take n) :: p.send.given) (hfin : g.finished = p.send.finished) :
    Open declared body ({ p with data := some (Buf.advance data n) }.setSend g) := by
  have ht : p.trailersSent = false := by
    by_contra hc
    rw [(h.complete (.inl (by simpa using hc))).1] at hd
    cases hd
  obtain ⟨pieces, hw⟩ := h.wire.pieces ht
  refine ⟨h.source, hfin.trans h.unfinished, ⟨(content data).take n :: pieces, none, ?_, ?_, ?_⟩, ?_,
    h.counted, fun hor => ?_, h.bodyOver⟩
  · rw [PipeToSendStream.setSend, hg, hw]; rfl
  · rw [PipeToSendStream.setSend, ht]; rfl
  · intro f hfields; cases hfields
  · have hb := h.bytes
    rw [stash, hd] at hb
    simp only [PipeToSendStream.setSend, stash, hg, sent_cons, Given.bytes, map_some, getD_some,
      content_advance data n hn, append_assoc, take_append_drop]
    exact hb
  · rcases hor with hor | hor
    · exact absurd hor (by simp [PipeToSendStream.setSend, ht])
    · exact absurd hor (by simp [PipeToSendStream.setSend, hf])

theorem proceed_sat (hf : p.finishing = false) :
    p.proceed.Sat (Open declared body) (Exact declared body) := by
  unfold proceed
  split
  · rename_i data hd
    split
    · have hlen : min (Buf.remaining data) chunkSize ≤ (content data).length := by
        rw [remaining_eq]; exact min_le_left _ _
      obtain ⟨g, hg, hgiven, hfin⟩ | ⟨e, g, hg, hgiven, hfin⟩ := start_cases p.send
        (.data ((content data).take (min (Buf.remaining data) chunkSize)))
      · simp only [copyToBytes, hg]
        exact h.piece hd hf hlen hgiven hfin
      · simp only [copyToBytes, hg]
        have hl := (h.setSend hgiven hfin).left
        exact .inr { hl with }
    · rename_i hr
      have hempty : content data = [] := by
        rw [hasRemaining_iff] at hr; simpa using hr
      refine nextFrame_sat { h with bytes := ?_, complete := fun hor => ⟨rfl, (h.complete hor).2⟩ }
        rfl hf
      have := h.bytes
      simpa [stash, hd, hempty] using this
  · rename_i hd
    exact nextFrame_sat h hd hf

theorem round_sat : p.round.Sat (Open declared body) (Exact declared body) := by
  unfold round
  split
  · rename_i hf
    exact finish_sat h hf
  · rename_i hf
    have h1 : Open declared body (p.setSend p.send.pollStopped.2) := h.setSend rfl rfl
    rcases hx : p.send.pollStopped with ⟨_ | e | u, g⟩ <;> rw [hx] at h1
    · have h2 : Open declared body (p.setSend g.pollReady.2) := h1.setSend rfl rfl
      simp only
      rcases hy : g.pollReady with ⟨_ | e | u, g'⟩ <;> rw [hy] at h2
      · exact .inr h2
      · exact .inr h2.left
      · exact proceed_sat h2 (Bool.eq_false_iff.2 hf)
    · exact .inr h1.left
    · exact .inr h1.left

end

theorem poll_exact (h : Exact declared body (.pending, p)) : Exact declared body p.poll := by
  unfold poll
  rcases h with h | h
  · rw [if_pos h.finished]
    have h' : Finished declared body (p.setSend p.send.pollStopped.2) :=
      { h with }
    exact h'.exact _
  · rw [if_neg (by rw [h.unfinished]; decide)]
    have hl := loop_inv (fun q hq => round_sat hq) (fun q hq => Open.exact hq .busy) 32 p h
    split
    · rename_i hx
      rw [hx] at hl
      exact hl
    · exact hl

theorem new_open (g : SendGuard) (hg : g.given = []) (hf : g.finished = false) :
    Open declared body (new g body declared) where
  source := by simp [new]
  unfinished := hf
  wire := ⟨[], none, by simp [new, hg, wire], rfl, by simp⟩
  bytes := by simp [new, hg, stash]
  counted := by simp [new]
  complete := by simp [new]
  bodyOver := by simp [new]

/-- **A whole run of the pipe**, from a stream that was given nothing. -/
theorem repoll_exact (g : SendGuard) (hg : g.given = []) (hf : g.finished = false) (polls : List ℕ) :
    Exact declared body (repoll (fun _ => poll) polls (new g body declared)) :=
  repoll_inv (fun _ _ hp => poll_exact hp) (fun _ h => h) polls _ (.inr (new_open g hg hf))

/-! ## It gets there -/

/-- A stream that the peer does not stop, and that takes what it is given. -/
structure Willing (g : SendGuard) : Prop where
  stops : ∀ n, g.stops.get n = none
  readies : ∀ n, g.readies.get n = some (.ok ())
  sends : ∀ n, g.sends.get n = .ok ()
  finishes : ∀ n, g.finishes.get n = some (.ok ())
  finished : g.finished = false

/-- Frames that may come, before or after trailers: one set of trailers, and nothing behind. -/
def Fits : Bool → List (BodyEv β) → Prop
  | _, [] => True
  | t, .pending :: l => Fits t l
  | false, .unknown :: l => Fits false l
  | false, .data _ _ :: l => Fits false l
  | false, .trailers _ :: l => Fits true l
  | _, _ => False

omit [LawfulBuf β] in
theorem Fits.cons {t : Bool} {f : BodyEv β} {l : List (BodyEv β)} (h : Fits t (f :: l)) :
    (f = .pending ∧ Fits t l) ∨ t = false ∧
      ((f = .unknown ∧ Fits false l) ∨ (∃ chunk eos, f = .data chunk eos ∧ Fits false l) ∨
        ∃ fields, f = .trailers fields ∧ Fits true l) := by
  cases t <;> cases f <;> first | exact h.elim | skip
  · exact .inl ⟨rfl, h⟩
  · exact .inr ⟨rfl, .inr (.inl ⟨_, _, rfl, h⟩)⟩
  · exact .inr ⟨rfl, .inr (.inr ⟨_, rfl, h⟩)⟩
  · exact .inr ⟨rfl, .inl ⟨rfl, h⟩⟩
  · exact .inl ⟨rfl, h⟩

theorem Fits.bytes_eq_nil {l : List (BodyEv β)} (h : Fits true l) : l.flatMap BodyEv.bytes = [] := by
  induction l with
  | nil => rfl
  | cons f l ih =>
    obtain ⟨rfl, hl⟩ | ⟨ht, -⟩ := h.cons
    · simpa [BodyEv.bytes] using ih hl
    · cases ht

/-- The body is yet to produce `frames` and then its end, and they are as long as is declared. -/
structure Producing (all : List (BodyEv β)) (p : PipeToSendStream β) (frames : List (BodyEv β)) : Prop where
  willing : Willing p.send
  going : p.finishing = false
  fits : Fits p.trailersSent frames
  rest : ∃ rest, p.body = frames ++ₛ Stream'.cons .done rest
  all : p.taken.reverse ++ (frames ++ [.done]) = all
  remaining : ∀ r, p.remaining = some r → r = (frames.flatMap BodyEv.bytes).length

/-- What is left to do: FIN, or the chunk in hand and the frames to come. -/
def Todo (all : List (BodyEv β)) (m : ℕ) (p : PipeToSendStream β) : Prop :=
  (m = 1 ∧ Willing p.send ∧ p.finishing = true ∧ p.taken.reverse = all) ∨
    ∃ frames, p.Producing all frames ∧
      m = frames.length + (frames.flatMap BodyEv.bytes).length + p.stash.length + 2

/-- The whole body was taken, and FIN was submitted. -/
def Complete (all : List (BodyEv β)) (x : Poll (Except Error Unit) × PipeToSendStream β) : Prop :=
  x.2.send.finished = true ∧ x.2.taken.reverse = all

theorem start_willing (h : Willing g) (x : Given) : ∃ g', g.start x = (.ok (), g') ∧ Willing g' := by
  have hs : g.sends.head = .ok () := h.sends 0
  exact ⟨{ g with sends := g.sends.tail, given := x :: g.given }, by simp only [SendGuard.start, hs],
    h.stops, h.readies, fun n => h.sends (n + 1), h.finishes, h.finished⟩

variable {all frames : List (BodyEv β)}

theorem Producing.short_eq (h : Producing all p frames) (hb : frames.flatMap BodyEv.bytes = []) : p.short = false := by
  unfold short
  split
  · rename_i n hn
    have := h.remaining n hn
    rw [hb] at this
    simpa using this
  · rfl

variable {m : ℕ}

theorem Producing.next {f : BodyEv β} (h : Producing all p (f :: frames))
    (hm : m = (f :: frames).length + ((f :: frames).flatMap BodyEv.bytes).length + 2) {q : PipeToSendStream β}
    (hw : Willing q.send) (hg : q.finishing = false) (hb : q.body = p.body.tail) (ht : q.taken = f :: p.taken)
    (hf : Fits q.trailersSent frames) (hr : ∀ r, q.remaining = some r → p.remaining = some (f.bytes.length + r))
    (hs : q.stash.length ≤ f.bytes.length) : ∃ k, k < m ∧ Todo all k q := by
  obtain ⟨rest, hrest⟩ := h.rest
  refine ⟨_, ?_, .inr ⟨frames, ⟨hw, hg, hf, ⟨rest, ?_⟩, ?_, fun r hq => ?_⟩, rfl⟩⟩
  · rw [hm, length_cons, flatMap_cons, length_append]
    omega
  · rw [hb, hrest]; rfl
  · rw [ht, ← h.all]; simp
  · have := h.remaining _ (hr r hq)
    rw [flatMap_cons, length_append] at this
    omega

theorem nextFrame_descends (h : Producing all p frames) (hd : p.data = none)
    (hm : m = frames.length + (frames.flatMap BodyEv.bytes).length + 2) :
    p.nextFrame.Sat (fun q => ∃ k, k < m ∧ Todo all k q) (Descends (Todo all) (Complete all) m) := by
  obtain ⟨rest, hs⟩ := h.rest
  have hstash : p.stash = [] := by simp [stash, hd]
  unfold nextFrame pollFrame
  cases frames with
  | nil =>
    have hhead : p.body.head = .done := by rw [hs]; rfl
    have hshort : p.short = false := h.short_eq rfl
    have hshort' : { p with body := p.body.tail, taken := .done :: p.taken }.short = false := hshort
    simp only [hhead, hshort', Bool.false_eq_true, if_false]
    exact ⟨1, by omega, .inl ⟨rfl, h.willing, rfl, by simpa using h.all⟩⟩
  | cons f frames =>
    have hhead : p.body.head = f := by rw [hs]; rfl
    obtain ⟨rfl, hf⟩ | ⟨ht, hf⟩ := h.fits.cons
    · simp only [hhead]
      exact .inr ⟨.inl rfl, h.next hm h.willing h.going rfl rfl hf (fun r hr => by simpa [BodyEv.bytes] using hr)
        (by simp [stash, hd])⟩
    · obtain ⟨rfl, hf⟩ | ⟨chunk, eos, rfl, hf⟩ | ⟨fields, rfl, hf⟩ := hf
      · simp only [hhead, ht, Bool.false_eq_true, if_false]
        exact h.next hm h.willing h.going rfl rfl (ht ▸ hf) (fun r hr => by simpa [BodyEv.bytes] using hr)
          (by simp [stash, hd])
      · obtain ⟨left, hc, hleft⟩ : ∃ left, consumeLength p.remaining (Buf.remaining chunk) = .ok left ∧
            ∀ r, left = some r → p.remaining = some ((content chunk).length + r) := by
          have hrem := h.remaining
          rw [remaining_eq]
          cases hr : p.remaining with
          | none => exact ⟨none, rfl, fun r hr => by cases hr⟩
          | some n =>
            have hn := hrem n hr
            rw [flatMap_cons, length_append, BodyEv.bytes] at hn
            refine ⟨some (n - (content chunk).length), if_pos (by omega), fun r hr => ?_⟩
            rw [some.injEq] at hr ⊢
            omega
        simp only [hhead, ht, Bool.false_eq_true, if_false, hc]
        exact h.next hm h.willing h.going rfl rfl (ht ▸ hf) hleft (by simp [stash, BodyEv.bytes])
      · have hshort : p.short = false := h.short_eq (by simpa [BodyEv.bytes] using hf.bytes_eq_nil)
        have hshort' : { p with body := p.body.tail, taken := .trailers fields :: p.taken }.short = false := hshort
        obtain ⟨g, hg, hw⟩ := start_willing h.willing (.trailers fields)
        simp only [hhead]
        rw [if_neg (by rw [ht]; decide), if_neg (by rw [hshort']; decide), hg]
        refine h.next hm (q := { { p with body := p.body.tail, taken := .trailers fields :: p.taken }.setSend g with
          trailersSent := true }) hw h.going rfl rfl hf (fun r hr => ?_) ?_
        · simpa [BodyEv.bytes, setSend] using hr
        · simp [setSend, stash, hd]

theorem proceed_descends (h : Producing all p frames)
    (hm : m = frames.length + (frames.flatMap BodyEv.bytes).length + p.stash.length + 2) :
    p.proceed.Sat (fun q => ∃ k, k < m ∧ Todo all k q) (Descends (Todo all) (Complete all) m) := by
  unfold proceed
  split
  · rename_i data hd
    have hstash : p.stash = content data := by simp [stash, hd]
    split
    · rename_i hr
      rw [hasRemaining_iff, ← length_pos_iff] at hr
      have hchunk : 0 < chunkSize := by decide
      have hlen : min (Buf.remaining data) chunkSize ≤ (content data).length := by
        rw [remaining_eq]; exact min_le_left _ _
      have hpos : 0 < min (Buf.remaining data) chunkSize := by
        rw [remaining_eq]; omega
      obtain ⟨g, hg, hw⟩ := start_willing h.willing
        (.data ((content data).take (min (Buf.remaining data) chunkSize)))
      simp only [copyToBytes, hg]
      refine ⟨_, ?_, .inr ⟨frames, ⟨hw, h.going, h.fits, h.rest, h.all, h.remaining⟩, rfl⟩⟩
      rw [hm, hstash]
      simp only [setSend, stash, map_some, getD_some, content_advance data _ hlen, length_drop]
      omega
    · rename_i hr
      have hempty : content data = [] := by
        rw [hasRemaining_iff] at hr; simpa using hr
      have h' : Producing all { p with data := none } frames := { h with }
      exact nextFrame_descends h' rfl (by rw [hm, hstash, hempty]; rfl)
  · rename_i hd
    exact nextFrame_descends h hd (by rw [hm]; simp [stash, hd])

theorem round_descends (h : Todo all m p) :
    p.round.Sat (fun q => ∃ k, k < m ∧ Todo all k q) (Descends (Todo all) (Complete all) m) := by
  unfold round
  rcases h with ⟨-, hw, hf, hall⟩ | ⟨frames, hp, hm⟩
  · rw [if_pos hf]
    have hx : p.send.finishes.head = some (.ok ()) := hw.finishes 0
    simp only [finish, SendGuard.pollFinish, hx]
    exact .inl ⟨rfl, hall⟩
  · rw [if_neg (by rw [hp.going]; decide)]
    have hs : p.send.pollStopped = (none, p.send.pollStopped.2) := Prod.ext (hp.willing.stops 0) rfl
    have hr : p.send.pollStopped.2.pollReady = (some (.ok ()), p.send.pollStopped.2.pollReady.2) :=
      Prod.ext (hp.willing.readies 0) rfl
    have hw : Willing p.send.pollStopped.2.pollReady.2 :=
      ⟨fun n => hp.willing.stops (n + 1), fun n => hp.willing.readies (n + 1), hp.willing.sends, hp.willing.finishes,
        hp.willing.finished⟩
    have hp' : Producing all (p.setSend p.send.pollStopped.2.pollReady.2) frames :=
      { hp with willing := hw }
    rw [hs]
    simp only
    rw [hr]
    exact proceed_descends hp' hm

theorem poll_descends (h : Todo all m p) : Descends (Todo all) (Complete all) m p.poll := by
  have hw : Willing p.send := h.elim (fun h => h.2.1) fun ⟨_, h, _⟩ => h.willing
  have hl := loop_descends (fun k q hq => round_descends hq) 32 m p (by decide) h
  unfold poll
  rw [if_neg (by rw [hw.finished]; decide)]
  split
  · rename_i q hx
    rw [hx] at hl
    exact hl.imp_right fun hl => ⟨.inl rfl, hl.2⟩
  · exact hl

/-- **A body of the declared length is sent as a whole, and then FIN**, if the peer lets it. -/
theorem repoll_complete (hw : Willing g) (hfits : Fits false frames)
    (hd : ∀ n, declared = some n → n = (frames.flatMap BodyEv.bytes).length) (rest : Stream' (BodyEv β))
    {polls : List ℕ} (hn : frames.length + (frames.flatMap BodyEv.bytes).length + 2 < polls.length) :
    Complete (frames ++ [.done])
      (repoll (fun _ => poll) polls (new g (frames ++ₛ Stream'.cons .done rest) declared)) := by
  have hp : Producing (frames ++ [.done]) (new g (frames ++ₛ Stream'.cons .done rest) declared) frames :=
    ⟨hw, rfl, hfits, ⟨rest, rfl⟩, rfl, hd⟩
  have hkeep : ∀ q : PipeToSendStream β, Complete (frames ++ [.done]) (.pending, q) →
      Complete (frames ++ [.done]) q.poll := fun q hq => by unfold poll; rw [if_pos hq.1]; exact hq
  exact repoll_descends (P := fun _ => True) (fun _ _ _ _ hq => poll_descends hq) (fun _ q hq => hkeep q hq)
    (fun _ hq => hq) polls _ _ (fun _ _ => trivial) (.inr ⟨frames, hp, rfl⟩) hn

end PipeToSendStream

end H3

end Netty
