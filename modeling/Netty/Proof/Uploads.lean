import Netty.Proof.PipeH3
import Netty.Proof.ContentLength

/-!
# Uploads are exact

* `H2.Upload`, `H3.Upload`: what holds of an upload wherever it stands.
* `H3.declareLength_spec`: the length an HTTP/3 body is held to is the one its head declares.
* `uploads_exact`: **both pipes give the bytes in order, and end the stream at most once and
  after all of them.**
-/

namespace Netty

open List

variable {β : Type} [LawfulBuf β]

/-! ## The declared length -/

namespace H3

theorem denotesLength_unique {a b : ℕ} {v : HeaderValue} (ha : DenotesLength a v) (hb : DenotesLength b v) : a = b := by
  obtain ⟨item, hitem⟩ := exists_mem_of_ne_nil _ (splitOn_ne_nil (44 : UInt8) v.bytes)
  rw [← (ha item hitem).2.2, ← (hb item hitem).2.2]

omit [LawfulBuf β] in
/-- **The length a body is held to is the one that its head declares.** -/
theorem declareLength_spec {connect : Bool} {method : Method} {headers headers' : HeaderMap} {body : RequestBody β}
    {length : Option ℕ} {n : ℕ} (h : declareLength connect method headers body = .ok (headers', length))
    (hn : contentLength headers' = .ok (some n)) : length = some n := by
  have hread : ∀ {m : HeaderMap} {r : Option ℕ}, contentLength m = .ok r →
      (m.getAll .contentLength).foldlM Netty.contentLengthLine none = some r := fun hm => by
    rw [← contentLength_toOption, hm]; rfl
  unfold declareLength at h
  cases hc : contentLength headers with
  | error e => rw [hc] at h; cases h
  | ok own =>
    rw [hc] at h
    simp only at h
    split at h
    · cases h
    · have hx := Except.ok.inj h
      unfold chooseLength at hx
      split at hx
      · rename_i hown
        have hnone : contentLength headers ≠ .ok (some n) := by
          rw [hc, of_decide_eq_true (Bool.and_eq_true_iff.1 hown).1]
          simp
        split at hx
        · rename_i size hs
          split at hx
          · obtain ⟨hh, hl⟩ := Prod.mk.inj hx
            unfold setContentLengthIfMissing at hh
            split at hh
            · exact absurd (hh ▸ hn) hnone
            · -- the one line that was added says how long the body is
              have hvals := hread hn
              rw [← hh, HeaderMap.getAll_insert, if_pos rfl] at hvals
              have hsome : contentLengthParseAllValues [HeaderValue.fromU64 size] = some n := by
                rw [contentLengthParseAllValues, hvals]; rfl
              have hd := (contentLengthParseAllValues_eq_some hsome).2 _ (mem_singleton.2 rfl)
              rw [← hl, denotesLength_unique (denotesLength_fromU64 size) hd]
          · exact absurd ((Prod.mk.inj hx).1 ▸ hn) hnone
        · exact absurd ((Prod.mk.inj hx).1 ▸ hn) hnone
      · obtain ⟨hh, hl⟩ := Prod.mk.inj hx
        rw [← hh, hc] at hn
        rw [← hl]
        exact Except.ok.inj hn

end H3

/-! ## Both -/

/-- **An HTTP/2 upload**, wherever it stands. -/
structure H2.Upload (body : Stream' (BodyEv β)) (x : Poll (Except Error Unit) × H2.PipeToSendStream β) : Prop where
  /-- What was taken is the front of the body. -/
  source : x.2.taken.reverse ++ₛ x.2.stream = body
  /-- The bytes are given in order. -/
  inOrder : H2.sent x.2.bodyTx.given <+: produced x.2.taken
  /-- None is lost, and none is given twice. -/
  exact : (∀ e, x.1 ≠ .ready (.error e)) → H2.sent x.2.bodyTx.given ++ x.2.stash = produced x.2.taken
  ended : x.1 = .ready (.ok ()) → ∃ g ∈ x.2.bodyTx.given, g.isEnd = true
  /-- What ends or resets the stream is the last thing it is given. The body has ended, and all
  its bytes were given. -/
  last : ∀ later g earlier, x.2.bodyTx.given = later ++ g :: earlier → g.isPlain = false →
    later = [] ∧ (∀ g' ∈ earlier, g'.isPlain = true) ∧ (g.isEnd = true →
      H2.sent x.2.bodyTx.given = produced x.2.taken ∧ ∃ e, x.2.taken.head? = some e ∧ H2.Closes e g)

/-- **An HTTP/3 upload**, wherever it stands. -/
structure H3.Upload (declared : Option ℕ) (body : Stream' (BodyEv β))
    (x : Poll (Except Error Unit) × H3.PipeToSendStream β) : Prop where
  source : x.2.taken.reverse ++ₛ x.2.body = body
  inOrder : H3.sent x.2.send.given <+: produced x.2.taken
  exact : (∀ a, x.1 ≠ .ready a) → H3.sent x.2.send.given ++ x.2.stash = produced x.2.taken
  /-- Data, then trailers of the body, then FIN. -/
  wire : ∃ pieces trailers fin, x.2.send.given = H3.wire pieces trailers fin ∧
    ∀ fields, trailers = some fields → .trailers fields ∈ x.2.taken
  /-- FIN means that the body has ended, and that all of it was given, as much as was declared. -/
  fin : .fin ∈ x.2.send.given → H3.sent x.2.send.given = produced x.2.taken ∧ x.2.taken.head? = some .done ∧
    ∀ n, declared = some n → (H3.sent x.2.send.given).length = n
  le : ∀ n, declared = some n → (H3.sent x.2.send.given).length ≤ n
  /-- Without FIN, the stream is reset in the end. -/
  reset : x.2.drop.given =
    if .fin ∈ x.2.send.given then x.2.send.given else .reset x.2.send.code :: x.2.send.given

theorem H2.last_of_plain {g g₀ : H2.Given} {l later earlier : List H2.Given} (h : g₀ :: l = later ++ g :: earlier)
    (hl : ∀ g ∈ l, g.isPlain = true) (hg : g.isPlain = false) : later = [] ∧ g₀ = g ∧ l = earlier := by
  cases later with
  | nil => exact ⟨rfl, List.cons.inj h⟩
  | cons x later =>
    rw [hl g (by rw [(List.cons.inj h).2]; simp)] at hg
    cases hg

theorem H2.Closes.isEnd {e : BodyEv β} {g : H2.Given} (h : H2.Closes e g) : g.isEnd = true := by
  cases h <;> rfl

theorem H2.PipeToSendStream.Exact.upload {body : Stream' (BodyEv β)}
    {x : Poll (Except Error Unit) × H2.PipeToSendStream β} (h : H2.PipeToSendStream.Exact body x) :
    H2.Upload body x := by
  have hopen : ∀ {p : H2.PipeToSendStream β} {a : Poll (Except Error Unit)}, (∀ r, a ≠ .ready r) → p.Open body →
      H2.Upload body (a, p) := fun {p a} ha h =>
    ⟨h.source, ⟨_, h.bytes⟩, fun _ => h.bytes, fun hr => absurd hr (ha _), fun later g earlier hg hp => by
      rw [h.plain g (by rw [hg]; simp)] at hp; cases hp⟩
  rcases x with ⟨(e | ⟨⟩) | _ | _ | _, p⟩
  · obtain ⟨hs, hb, reset, given, hg, hr, hplain⟩ := h
    refine ⟨hs, hb, fun hne => absurd rfl (hne e), fun hr => ?_, fun later g earlier hsplit hp => ?_⟩
    · cases hr
    obtain rfl | ⟨reason, rfl⟩ := hr
    · rw [hplain g (by rw [← nil_append given, ← hg, hsplit]; simp)] at hp; cases hp
    · obtain ⟨rfl, rfl, rfl⟩ := H2.last_of_plain (hg.symm.trans hsplit) hplain hp
      exact ⟨rfl, hplain, nofun⟩
  · obtain ⟨hs, hb, hd, e, taken, g, given, ht, hg, hc, hplain⟩ := h
    refine ⟨hs, hb ▸ prefix_rfl, fun _ => ?_, fun _ => ⟨g, by rw [hg]; simp, hc.isEnd⟩,
      fun later g' earlier hsplit hp => ?_⟩
    · simp [H2.PipeToSendStream.stash, hd, hb]
    · obtain ⟨rfl, rfl, rfl⟩ := H2.last_of_plain (hg.symm.trans hsplit) hplain hp
      exact ⟨rfl, hplain, fun _ => ⟨hb, e, by rw [ht]; rfl, hc⟩⟩
  · exact hopen (by simp) h
  · exact hopen (by simp) h
  · exact hopen (by simp) h

theorem H3.PipeToSendStream.Exact.upload {declared : Option ℕ} {body : Stream' (BodyEv β)}
    {x : Poll (Except Error Unit) × H3.PipeToSendStream β} (h : H3.PipeToSendStream.Exact declared body x) :
    H3.Upload declared body x := by
  have hdrop : ∀ {p : H3.PipeToSendStream β} {t fin : Bool}, p.OnWire t fin → p.send.finished = fin →
      (.fin ∈ p.send.given ↔ fin = true) ∧ p.drop.given =
        if .fin ∈ p.send.given then p.send.given else .reset p.send.code :: p.send.given := by
    intro p t fin ⟨pieces, trailers, hw, _⟩ hf
    have hiff : .fin ∈ p.send.given ↔ fin = true := by rw [hw]; exact H3.fin_mem_wire
    refine ⟨hiff, ?_⟩
    unfold H3.PipeToSendStream.drop H3.SendGuard.drop
    rw [hf]
    by_cases h : fin = true
    · rw [if_pos h, if_pos (hiff.2 h)]
    · rw [if_neg h, if_neg fun hm => h (hiff.1 hm)]
  have hwire : ∀ {p : H3.PipeToSendStream β} {t fin : Bool}, p.OnWire t fin → ∃ pieces trailers fin,
      p.send.given = H3.wire pieces trailers fin ∧ ∀ fields, trailers = some fields → .trailers fields ∈ p.taken :=
    fun ⟨pieces, trailers, hw, _, hm⟩ => ⟨pieces, trailers, _, hw, hm⟩
  have hfinished : ∀ {p : H3.PipeToSendStream β} (a : Poll (Except Error Unit)), p.Finished declared body →
      H3.Upload declared body (a, p) := fun {p} a h =>
    ⟨h.source, h.bytes ▸ prefix_rfl, fun _ => by simp [H3.PipeToSendStream.stash, h.stash, h.bytes], hwire h.wire,
      fun _ => ⟨h.bytes, h.bodyOver, h.length⟩, fun n hn => (h.length n hn).le, (hdrop h.wire h.finished).2⟩
  have hnofin : ∀ {p : H3.PipeToSendStream β} {t : Bool}, p.OnWire t false → p.send.finished = false →
      .fin ∉ p.send.given := fun hw hf hm => by
    have := (hdrop hw hf).1.1 hm
    cases this
  have hleft : ∀ {p : H3.PipeToSendStream β} (a : Poll (Except Error Unit)), p.Left declared body →
      ((∀ r, a ≠ .ready r) → H3.sent p.send.given ++ p.stash = produced p.taken) → H3.Upload declared body (a, p) :=
    fun {p} a h hb => ⟨h.source, h.bytes, hb, hwire h.wire, fun hm => absurd hm (hnofin h.wire h.unfinished), h.length,
      (hdrop h.wire h.unfinished).2⟩
  rcases x with ⟨r | _ | _ | _, p⟩
  · exact h.elim (hfinished _) fun h => hleft _ h fun hr => absurd rfl (hr r)
  · exact h.elim (hfinished _) fun h => hleft _ h.left fun _ => h.bytes
  · exact h.elim (hfinished _) fun h => hleft _ h.left fun _ => h.bytes
  · exact h.elim (hfinished _) fun h => hleft _ h.left fun _ => h.bytes

/-- **Uploads are exact.** -/
theorem uploads_exact :
    (∀ (body : Stream' (BodyEv β)) reasonOf resets capacities grants sends polls,
      H2.Upload body (repoll (H2.PipeToSendStream.poll reasonOf) polls
        (.new body (.fresh resets capacities grants sends)))) ∧
    (∀ (body : Stream' (BodyEv β)) declared stops readies sends finishes code polls,
      H3.Upload declared body (repoll (fun _ => H3.PipeToSendStream.poll) polls
        (.new (.fresh stops readies sends finishes code) body declared))) ∧
    -- the declared length is the one in the head
    (∀ connect method headers (request : RequestBody β) headers' length n,
      H3.declareLength connect method headers request = .ok (headers', length) →
        H3.contentLength headers' = .ok (some n) → length = some n) ∧
    -- a body that ends is sent as a whole, if the peer lets it
    (∀ reasonOf tx (frames : List (BodyEv β)) e rest polls, H2.PipeToSendStream.Willing tx →
      (∀ f ∈ frames, H2.PipeToSendStream.GoesOn f) → H2.PipeToSendStream.IsLast e → (∀ n ∈ polls, 0 < n) →
        2 * frames.length + 2 < polls.length → H2.PipeToSendStream.Complete (frames ++ [e])
          (repoll (H2.PipeToSendStream.poll reasonOf) polls (.new (frames ++ₛ Stream'.cons e rest) tx))) ∧
    ∀ declared g (frames : List (BodyEv β)) rest (polls : List ℕ), H3.PipeToSendStream.Willing g →
      H3.PipeToSendStream.Fits false frames →
        (∀ n, declared = some n → n = (frames.flatMap BodyEv.bytes).length) →
          frames.length + (frames.flatMap BodyEv.bytes).length + 2 < polls.length →
            H3.PipeToSendStream.Complete (frames ++ [.done]) (repoll (fun _ => H3.PipeToSendStream.poll) polls
              (.new g (frames ++ₛ Stream'.cons .done rest) declared)) := by
  refine ⟨fun body reasonOf resets capacities grants sends polls => ?_,
    fun body declared stops readies sends finishes code polls => ?_, ?_, ?_, ?_⟩
  · exact (H2.PipeToSendStream.repoll_exact reasonOf _ rfl polls).upload
  · exact (H3.PipeToSendStream.repoll_exact _ rfl rfl polls).upload
  · intro connect method headers request headers' length n h hn
    exact H3.declareLength_spec h hn
  · intro reasonOf tx frames e rest polls hw hgo he hpos hn
    exact H2.PipeToSendStream.repoll_complete reasonOf hw hgo he rest hpos hn
  · intro declared g frames rest polls hw hfits hd hn
    exact H3.PipeToSendStream.repoll_complete hw hfits hd rest hn

end Netty
