import Netty.Spec.Pipe

/-!
# Uploads over HTTP/2

What a stream was given is compared with what the body has produced, at every point where
the pipe waits and where it ends.

* `Open`: while the pipe waits, the bytes that were given and those in its stash are what the
  body has produced.
* `round_sat`: one round.
* `repoll_exact`: a whole run.
* `repoll_complete`: a body that ends is sent as a whole.
-/

namespace Netty

open LawfulBuf

variable {β : Type} [LawfulBuf β]

def BodyEv.bytes : BodyEv β → Bytes
  | .data chunk _ => content chunk
  | _ => []

/-- The bytes of the frames that a body has produced, latest first. -/
def produced (taken : List (BodyEv β)) : Bytes := taken.reverse.flatMap BodyEv.bytes

@[simp] theorem produced_nil : produced ([] : List (BodyEv β)) = [] := rfl

@[simp] theorem produced_cons (e : BodyEv β) (l : List (BodyEv β)) : produced (e :: l) = produced l ++ e.bytes := by
  simp [produced]

namespace H2

def Given.bytes : Given → Bytes
  | .data bytes _ => bytes
  | _ => []

/-- The bytes a stream was given. -/
def sent (given : List Given) : Bytes := given.reverse.flatMap Given.bytes

@[simp] theorem sent_nil : sent [] = [] := rfl

@[simp] theorem sent_cons (g : Given) (l : List Given) : sent (g :: l) = sent l ++ g.bytes := by simp [sent]

def Given.isEnd : Given → Bool
  | .data _ eos => eos
  | .trailers _ => true
  | .reset _ => false

def Given.isPlain : Given → Bool
  | .data _ eos => !eos
  | _ => false

/-- The last frame of a body, and how the stream is ended for it. -/
inductive Closes : BodyEv β → Given → Prop
  | data (chunk : β) : Closes (.data chunk true) (.data (content chunk) true)
  | trailers (fields : HeaderMap) : Closes (.trailers fields) (.trailers fields)
  | done : Closes .done (.data [] true)

namespace SendStream

theorem give_cases (tx : SendStream) (g : Given) :
    (∃ tx', tx.give g = (.ok (), tx') ∧ tx'.given = g :: tx.given) ∨
      ∃ e tx', tx.give g = (.error e, tx') ∧ tx'.given = tx.given := by
  unfold give
  split
  · exact .inl ⟨_, rfl, rfl⟩
  · exact .inr ⟨_, _, rfl, rfl⟩

theorem capacityRound_given (tx : SendStream) :
    tx.capacityRound.Sat (fun t => t.given = tx.given) (fun x => x.2.given = tx.given) := by
  unfold capacityRound
  have h1 : tx.capacity.2.given = tx.given := rfl
  rcases hc : tx.capacity with ⟨n, t₁⟩
  rw [hc] at h1
  have h2 : t₁.pollCapacity.2.given = tx.given := h1
  simp only
  split
  · exact h1
  · rcases hg : t₁.pollCapacity with ⟨_ | n | reason | _, t₂⟩ <;> rw [hg] at h2
    · exact h2
    · simp only; split <;> exact h2
    · exact h2
    · exact h2

end SendStream

namespace PipeToSendStream

variable {body : Stream' (BodyEv β)} {p : PipeToSendStream β}

def stash (p : PipeToSendStream β) : Bytes := (p.bufferedData.map fun x => content x.1).getD []

/-- **A pipe that is not done.** -/
structure Open (body : Stream' (BodyEv β)) (p : PipeToSendStream β) : Prop where
  source : p.taken.reverse ++ₛ p.stream = body
  plain : ∀ g ∈ p.bodyTx.given, g.isPlain = true
  bytes : sent p.bodyTx.given ++ p.stash = produced p.taken
  waiting : ∀ chunk eos, p.bufferedData = some (chunk, eos) → p.taken.head? = some (.data chunk eos)

/-- **A pipe that has ended the stream.** -/
structure Ended (body : Stream' (BodyEv β)) (p : PipeToSendStream β) : Prop where
  source : p.taken.reverse ++ₛ p.stream = body
  bytes : sent p.bodyTx.given = produced p.taken
  stash : p.bufferedData = none
  last : ∃ e taken g given, p.taken = e :: taken ∧ p.bodyTx.given = g :: given ∧ Closes e g ∧
    ∀ g ∈ given, g.isPlain = true

/-- **A pipe that has failed.** It has not ended the stream, and it may have reset it. -/
structure Failed (body : Stream' (BodyEv β)) (p : PipeToSendStream β) : Prop where
  source : p.taken.reverse ++ₛ p.stream = body
  bytes : sent p.bodyTx.given <+: produced p.taken
  plain : ∃ reset given, p.bodyTx.given = reset ++ given ∧ (reset = [] ∨ ∃ reason, reset = [.reset reason]) ∧
    ∀ g ∈ given, g.isPlain = true

/-- What each answer of the pipe goes with. -/
def Exact (body : Stream' (BodyEv β)) : Poll (Except Error Unit) × PipeToSendStream β → Prop
  | (.ready (.ok ()), p) => p.Ended body
  | (.ready (.error _), p) => p.Failed body
  | (_, p) => p.Open body

omit [LawfulBuf β] in
@[simp] theorem setTx_given (tx : SendStream) : (p.setTx tx).bodyTx.given = tx.given := rfl

omit [LawfulBuf β] in
@[simp] theorem setTx_taken (tx : SendStream) : (p.setTx tx).taken = p.taken := rfl

variable {tx : SendStream}

theorem Open.setTx (h : Open body p) (ht : tx.given = p.bodyTx.given) : Open body (p.setTx tx) where
  source := h.source
  plain := by rw [setTx_given, ht]; exact h.plain
  bytes := by rw [setTx_given, ht]; exact h.bytes
  waiting := h.waiting

theorem Open.failed (h : Open body p) : Failed body p where
  source := h.source
  bytes := ⟨_, h.bytes⟩
  plain := ⟨[], _, rfl, .inl rfl, h.plain⟩

theorem Open.pollFrame (h : Open body p) :
    p.taken.reverse ++ₛ Stream'.cons p.stream.head p.stream.tail = body := by
  rw [Stream'.cons_head_tail]; exact h.source

theorem capacity_given (fuel : ℕ) (tx : SendStream) : (loop SendStream.capacityRound fuel tx).2.given = tx.given :=
  loop_inv (I := fun t => t.given = tx.given) (Q := fun x : Poll (Except Error Unit) × SendStream => x.2.given = tx.given)
    (fun t ht => ht ▸ t.capacityRound_given) (fun _ h => h) fuel tx rfl

variable {e : BodyEv β} {taken : List (BodyEv β)}

theorem refused (hs : p.taken.reverse ++ₛ p.stream = body) (ht : p.taken = e :: taken)
    (hplain : ∀ g ∈ p.bodyTx.given, g.isPlain = true) (hb : sent p.bodyTx.given = produced taken)
    (hg : tx.given = p.bodyTx.given) : Failed body (p.setTx tx) where
  source := hs
  bytes := by rw [setTx_given, setTx_taken, hg, hb, ht, produced_cons]; exact List.prefix_append _ _
  plain := ⟨[], p.bodyTx.given, hg, .inl rfl, hplain⟩

variable {chunk : β} {eos : Bool}

/-- **Data is handed over**: the frame was the last that the body has produced, and the
stash is empty. -/
theorem afterData_sat (hp : p.bufferedData = none) (hs : p.taken.reverse ++ₛ p.stream = body)
    (ht : p.taken = .data chunk eos :: taken) (hplain : ∀ g ∈ p.bodyTx.given, g.isPlain = true)
    (hb : sent p.bodyTx.given = produced taken) :
    (p.afterData (p.bodyTx.sendData (content chunk) eos) eos).Sat (Open body) (Exact body) := by
  unfold SendStream.sendData
  obtain ⟨tx, hx, hg⟩ | ⟨e, tx, hx, hg⟩ := p.bodyTx.give_cases (.data (content chunk) eos)
  · have hbytes : sent tx.given = produced p.taken := by rw [hg, ht, sent_cons, produced_cons, hb]; rfl
    rw [hx, afterData]
    cases eos with
    | true => exact ⟨hs, hbytes, hp, _, _, _, _, ht, hg, .data chunk, hplain⟩
    | false =>
      refine ⟨hs, fun g hm => ?_, ?_, fun c eos h => ?_⟩
      · rw [setTx_given, hg] at hm
        obtain rfl | hm := List.mem_cons.1 hm
        · rfl
        · exact hplain g hm
      · simpa [setTx, stash, hp] using hbytes
      · rw [setTx, hp] at h; cases h
  · rw [hx, afterData]
    exact refused hs ht hplain hb hg

theorem ends_exact {g : Given} (hs : p.taken.reverse ++ₛ p.stream = body) (ht : p.taken = e :: taken)
    (hplain : ∀ g ∈ p.bodyTx.given, g.isPlain = true) (hb : sent p.bodyTx.given = produced taken)
    (hp : p.bufferedData = none) (hc : Closes e g) (he : e.bytes = g.bytes) :
    Exact body (.ready (p.bodyTx.give g).1, p.setTx (p.bodyTx.give g).2) := by
  obtain ⟨tx, hx, hg⟩ | ⟨err, tx, hx, hg⟩ := p.bodyTx.give_cases g
  · rw [hx]
    refine ⟨hs, ?_, hp, _, _, _, _, ht, hg, hc, hplain⟩
    rw [setTx_given, setTx_taken, hg, ht, sent_cons, produced_cons, hb, he]
  · rw [hx]
    exact refused hs ht hplain hb hg

theorem sendBuffered_sat (fuel : ℕ) (h : Open body p) (hd : p.bufferedData = some (chunk, eos)) :
    (p.sendBuffered fuel chunk eos).Sat (Open body) (Exact body) := by
  have hgiven := capacity_given fuel p.bodyTx
  have hopen := h.setTx hgiven
  unfold sendBuffered
  refine Ctl.whenOk_sat (fun a s hx => ?_) (fun e s hx => ?_) fun q hq => ?_
  · obtain rfl : p.setTx (loop SendStream.capacityRound fuel p.bodyTx).2 = s := congrArg Prod.snd hx
    obtain ⟨taken, ht⟩ : ∃ taken, p.taken = .data chunk eos :: taken := by
      have := h.waiting chunk eos hd
      cases htk : p.taken with
      | nil => rw [htk] at this; cases this
      | cons e taken => rw [htk] at this; exact ⟨taken, by rw [Option.some.inj this]⟩
    refine afterData_sat rfl h.source ht hopen.plain ?_
    have hb := h.bytes
    rw [ht, produced_cons, stash, hd] at hb
    exact hgiven ▸ List.append_cancel_right hb
  · obtain rfl : p.setTx (loop SendStream.capacityRound fuel p.bodyTx).2 = s := congrArg Prod.snd hx
    exact hopen.failed
  · cases q with
    | ready b => exact absurd rfl (hq b)
    | _ => exact hopen

theorem nextFrame_sat (reasonOf : ℕ → ℕ) (h : Open body p) (hd : p.bufferedData = none) :
    (p.nextFrame reasonOf).Sat (Open body) (Exact body) := by
  have hb : sent p.bodyTx.given = produced p.taken := by simpa [stash, hd] using h.bytes
  have hs : ((p.pollFrame).2.taken.reverse ++ₛ (p.pollFrame).2.stream) = body := by
    simpa [pollFrame, Stream'.append_append_stream] using h.pollFrame
  have hquiet : p.stream.head.bytes = [] → Open body p.pollFrame.2 := fun h0 =>
    ⟨hs, h.plain, by simp [pollFrame, stash, hd, hb, h0],
      fun c eos hc => by rw [pollFrame, hd] at hc; cases hc⟩
  unfold nextFrame
  have hx : p.pollFrame = (p.stream.head, p.pollFrame.2) := rfl
  rw [hx]
  cases he : p.stream.head with
  | pending => exact hquiet (by rw [he]; rfl)
  | unknown => exact hquiet (by rw [he]; rfl)
  | data chunk eos =>
    simp only
    split
    · exact afterData_sat hd hs (by simp only [pollFrame, he]) h.plain hb
    · refine ⟨hs, h.plain, ?_, fun c eos' hc => ?_⟩
      · simp [pollFrame, stash, hb, he, BodyEv.bytes]
      · obtain ⟨rfl, rfl⟩ := Prod.mk.inj (Option.some.inj hc)
        simp [pollFrame, he]
  | trailers fields =>
    exact ends_exact hs (by simp only [pollFrame, he]) h.plain hb hd (.trailers fields) rfl
  | done => exact ends_exact hs (by simp only [pollFrame, he]) h.plain hb hd .done rfl
  | err e =>
    refine ⟨hs, ?_, [_], _, rfl, .inr ⟨_, rfl⟩, h.plain⟩
    simp [pollFrame, setTx, SendStream.sendReset, Given.bytes, hb]

theorem round_sat (reasonOf : ℕ → ℕ) (fuel : ℕ) (h : Open body p) :
    (p.round reasonOf fuel).Sat (Open body) (Exact body) := by
  have htx : Open body (p.setTx p.bodyTx.pollReset.2) := h.setTx rfl
  unfold round
  have hx : p.bodyTx.pollReset = (p.bodyTx.resets.head, p.bodyTx.pollReset.2) := rfl
  rw [hx]
  cases p.bodyTx.resets.head with
  | reset reason => exact htx.failed
  | err reason => exact htx.failed
  | pending =>
    simp only
    split
    · rename_i chunk eos hd
      exact sendBuffered_sat fuel htx hd
    · rename_i hd
      exact nextFrame_sat reasonOf htx hd

theorem new_open (tx : SendStream) (ht : tx.given = []) : Open body (new body tx) where
  source := by simp [new]
  plain := by simp [new, ht]
  bytes := by simp [new, ht, stash]
  waiting := by simp [new]

/-- **A whole run of the pipe**, from a stream that was given nothing. -/
theorem repoll_exact (reasonOf : ℕ → ℕ) (tx : SendStream) (ht : tx.given = []) (polls : List ℕ) :
    Exact body (repoll (poll reasonOf) polls (new body tx)) := by
  refine repoll_inv (fun n p hp => ?_) (fun _ h => h) polls (new body tx) (new_open tx ht)
  exact loop_inv (fun q hq => round_sat reasonOf n hq) (fun _ hq => hq) n p hp

/-! ## It gets there -/

/-- A stream that is never reset, whose window is open, and that takes what it is given. -/
structure Willing (tx : SendStream) : Prop where
  resets : ∀ n, tx.resets.get n = .pending
  capacities : ∀ n, tx.capacities.get n ≠ 0
  sends : ∀ n, tx.sends.get n = .ok ()

def GoesOn : BodyEv β → Prop
  | .pending | .unknown => True
  | .data _ eos => eos = false
  | _ => False

def IsLast (e : BodyEv β) : Prop := ∃ g, Closes e g

/-- The body is yet to produce `frames` and then its last frame. -/
structure Producing (all : List (BodyEv β)) (p : PipeToSendStream β) (frames : List (BodyEv β)) : Prop where
  willing : Willing p.bodyTx
  goesOn : ∀ f ∈ frames, GoesOn f
  rest : ∃ e rest, IsLast e ∧ p.stream = frames ++ₛ Stream'.cons e rest ∧ p.taken.reverse ++ (frames ++ [e]) = all

/-- What is left to do: the last chunk waits, or there are frames to come. -/
def Todo (all : List (BodyEv β)) (m : ℕ) (p : PipeToSendStream β) : Prop :=
  (m = 1 ∧ Willing p.bodyTx ∧ p.taken.reverse = all ∧ ∃ chunk, p.bufferedData = some (chunk, true)) ∨
    ∃ frames, p.Producing all frames ∧
      (m = 2 * frames.length + 2 ∧ p.bufferedData = none ∨
        m = 2 * frames.length + 3 ∧ ∃ chunk, p.bufferedData = some (chunk, false))

/-- The whole body was taken, and the pipe is done. -/
def Complete (all : List (BodyEv β)) (x : Poll (Except Error Unit) × PipeToSendStream β) : Prop :=
  x.1 = .ready (.ok ()) ∧ x.2.taken.reverse = all

theorem give_willing (h : Willing tx) (g : Given) : ∃ tx', tx.give g = (.ok (), tx') ∧ Willing tx' := by
  have hs : tx.sends.head = .ok () := h.sends 0
  refine ⟨{ tx with sends := tx.sends.tail, given := g :: tx.given }, by simp only [SendStream.give, hs],
    h.resets, h.capacities, fun n => h.sends (n + 1)⟩

variable {fuel : ℕ}

theorem capacity_willing (h : Willing tx) (hf : 0 < fuel) :
    ∃ tx', loop SendStream.capacityRound fuel tx = (.ready (.ok ()), tx') ∧ Willing tx' := by
  have hc : tx.capacities.head ≠ 0 := h.capacities 0
  obtain ⟨n, rfl⟩ : ∃ n, fuel = n + 1 := ⟨fuel - 1, by omega⟩
  refine ⟨tx.capacity.2, ?_, h.resets, fun n => h.capacities (n + 1), h.sends⟩
  have hx : tx.capacity = (tx.capacities.head, tx.capacity.2) := rfl
  simp only [loop, SendStream.capacityRound]
  rw [hx]
  simp only [hc, ne_eq, not_false_eq_true, if_true]

variable {m : ℕ} {all : List (BodyEv β)}

theorem sendBuffered_descends (hf : 0 < fuel) (h : Todo all m p) (hd : p.bufferedData = some (chunk, eos)) :
    (p.sendBuffered fuel chunk eos).Sat (fun q => ∃ k, k < m ∧ Todo all k q)
      (Descends (Todo all) (Complete all) m) := by
  have hw : Willing p.bodyTx := h.elim (fun h => h.2.1) fun ⟨_, h, _⟩ => h.willing
  obtain ⟨tx, hx, hw⟩ := capacity_willing hw hf
  obtain ⟨tx', hx', hw'⟩ := give_willing hw (.data (content chunk) eos)
  unfold sendBuffered
  simp only [hx, within, Ctl.whenOk, Ctl.whenReady, setTx, SendStream.sendData, hx', afterData]
  rcases h with ⟨-, -, hall, c, hc⟩ | ⟨frames, hp, hm⟩
  · obtain ⟨-, rfl⟩ := Prod.mk.inj (Option.some.inj (hd.symm.trans hc))
    exact .inl ⟨rfl, hall⟩
  · obtain ⟨-, hn⟩ | ⟨rfl, c, hc⟩ := hm
    · rw [hd] at hn; cases hn
    · obtain ⟨-, rfl⟩ := Prod.mk.inj (Option.some.inj (hd.symm.trans hc))
      exact ⟨_, lt_add_one _, .inr ⟨frames, ⟨hw', hp.goesOn, hp.rest⟩, .inl ⟨rfl, rfl⟩⟩⟩

theorem nextFrame_descends (reasonOf : ℕ → ℕ) (h : Todo all m p) (hd : p.bufferedData = none) :
    (p.nextFrame reasonOf).Sat (fun q => ∃ k, k < m ∧ Todo all k q) (Descends (Todo all) (Complete all) m) := by
  rcases h with ⟨-, -, -, c, hc⟩ | ⟨frames, hp, hm⟩
  · rw [hd] at hc; cases hc
  obtain ⟨rfl, -⟩ | ⟨-, c, hc⟩ := hm
  swap
  · rw [hd] at hc; cases hc
  obtain ⟨e, rest, hlast, hs, hall⟩ := hp.rest
  unfold nextFrame pollFrame
  cases frames with
  | nil =>
    -- the frame that ends the body
    obtain ⟨hhead, htail⟩ : p.stream.head = e ∧ p.stream.tail = rest := by rw [hs]; exact ⟨rfl, rfl⟩
    have htaken : (e :: p.taken).reverse = all := by simpa using hall
    obtain ⟨g, hg⟩ := hlast
    cases hg with
    | data chunk =>
      obtain ⟨tx, hx, hw⟩ := give_willing hp.willing (.data (content chunk) true)
      simp only [hhead]
      split
      · simp only [SendStream.sendData, hx, afterData, if_true]
        exact .inl ⟨rfl, htaken⟩
      · exact ⟨1, by simp, .inl ⟨rfl, hp.willing, htaken, chunk, rfl⟩⟩
    | trailers fields =>
      obtain ⟨tx, hx, hw⟩ := give_willing hp.willing (.trailers fields)
      simp only [hhead, SendStream.sendTrailers, hx]
      exact .inl ⟨rfl, htaken⟩
    | done =>
      obtain ⟨tx, hx, hw⟩ := give_willing hp.willing (.data [] true)
      simp only [hhead, SendStream.sendData, hx]
      exact .inl ⟨rfl, htaken⟩
  | cons f frames =>
    have hhead : p.stream.head = f := by rw [hs]; rfl
    have hgo : ∀ f' ∈ frames, GoesOn f' := fun f' hf' => hp.goesOn f' (List.mem_cons_of_mem _ hf')
    have hrest : ∃ e rest, IsLast e ∧ p.stream.tail = frames ++ₛ Stream'.cons e rest ∧
        (f :: p.taken).reverse ++ (frames ++ [e]) = all :=
      ⟨e, rest, hlast, by rw [hs]; rfl, by simpa using hall⟩
    have hless : 2 * frames.length + 2 < 2 * (f :: frames).length + 2 := by simp
    have hf := hp.goesOn f (by simp)
    cases f with
    | pending =>
      simp only [hhead]
      exact .inr ⟨.inl rfl, _, hless, .inr ⟨frames, ⟨hp.willing, hgo, hrest⟩, .inl ⟨rfl, hd⟩⟩⟩
    | unknown =>
      simp only [hhead]
      exact ⟨_, hless, .inr ⟨frames, ⟨hp.willing, hgo, hrest⟩, .inl ⟨rfl, hd⟩⟩⟩
    | data chunk eos =>
      obtain rfl : eos = false := hf
      obtain ⟨tx, hx, hw⟩ := give_willing hp.willing (.data (content chunk) false)
      simp only [hhead]
      split
      · simp only [SendStream.sendData, hx, afterData]
        exact ⟨_, hless, .inr ⟨frames, ⟨hw, hgo, hrest⟩, .inl ⟨rfl, hd⟩⟩⟩
      · exact ⟨2 * frames.length + 3, by simp; omega,
          .inr ⟨frames, ⟨hp.willing, hgo, hrest⟩, .inr ⟨rfl, chunk, rfl⟩⟩⟩
    | trailers fields => exact absurd hf (by simp [GoesOn])
    | err e => exact absurd hf (by simp [GoesOn])
    | done => exact absurd hf (by simp [GoesOn])

theorem round_descends (reasonOf : ℕ → ℕ) (hf : 0 < fuel) (h : Todo all m p) :
    (p.round reasonOf fuel).Sat (fun q => ∃ k, k < m ∧ Todo all k q) (Descends (Todo all) (Complete all) m) := by
  have hw : Willing p.bodyTx := h.elim (fun h => h.2.1) fun ⟨_, h, _⟩ => h.willing
  have hw' : Willing p.bodyTx.pollReset.2 := ⟨fun n => hw.resets (n + 1), hw.capacities, hw.sends⟩
  have h' : Todo all m (p.setTx p.bodyTx.pollReset.2) := by
    rcases h with ⟨hm, -, h⟩ | ⟨frames, hp, h⟩
    · exact .inl ⟨hm, hw', h⟩
    · exact .inr ⟨frames, ⟨hw', hp.goesOn, hp.rest⟩, h⟩
  have hx : p.bodyTx.pollReset = (.pending, p.bodyTx.pollReset.2) := Prod.ext (hw.resets 0) rfl
  unfold round
  rw [hx]
  simp only
  split
  · rename_i chunk eos hd
    exact sendBuffered_descends hf h' hd
  · rename_i hd
    exact nextFrame_descends reasonOf h' hd

/-- **A body that ends is sent as a whole**, if the stream lets it. -/
theorem repoll_complete (reasonOf : ℕ → ℕ) (hw : Willing tx) {frames : List (BodyEv β)} (hgo : ∀ f ∈ frames, GoesOn f)
    (he : IsLast e) (rest : Stream' (BodyEv β)) {polls : List ℕ} (hpos : ∀ n ∈ polls, 0 < n)
    (hn : 2 * frames.length + 2 < polls.length) :
    Complete (frames ++ [e]) (repoll (poll reasonOf) polls (new (frames ++ₛ Stream'.cons e rest) tx)) := by
  refine repoll_descends (I := Todo (frames ++ [e])) (fun n m q hn hq => ?_) (fun _ _ h => absurd h.1 (by simp))
    (fun _ h => absurd h.1 (by simp)) polls _ _ hpos ?_ hn
  · exact loop_descends (fun k q hq => round_descends reasonOf hn hq) n m q hn hq
  · exact .inr ⟨frames, ⟨hw, hgo, e, rest, he, rfl, rfl⟩, .inl ⟨rfl, rfl⟩⟩

end PipeToSendStream

end H2

end Netty
