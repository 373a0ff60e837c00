import Mathlib.Data.List.Basic
import Mathlib.Logic.Relation

/-!
# Byte buffers that are read from the front

The reading half of a buffer: how many bytes are left (`remaining`), some bytes
that come next (`chunk`), dropping bytes (`advance`), and several runs of bytes at
once for a vectored write (`chunksVectored`).

* `LawfulBuf`: a buffer whose operations agree on one `content`.
* `GapFree`: the guarantee of a vectored read, now and after any reads. Asked for `k`
  runs, the buffer gives `k` of them or all its bytes. A type that does not say how it
  is vectored gives its first run only (`firstChunk`), so it keeps the guarantee just
  when it has no second one.
* `Take`, `Chain`: a buffer cut short, and one buffer after another.
-/

namespace Netty

open List

abbrev Bytes := List UInt8

class Buf (β : Type) where
  remaining : β → ℕ
  chunk : β → Bytes
  advance : β → ℕ → β
  /-- At most `k` runs of bytes from the current position on. -/
  chunksVectored : β → ℕ → List Bytes

/-- What `chunksVectored` gives by default: the first run only. -/
def firstChunk (remaining : ℕ) (chunk : Bytes) (k : ℕ) : List Bytes :=
  if k = 0 then [] else if 0 < remaining then [chunk] else []

def Buf.hasRemaining {β : Type} [Buf β] (b : β) : Bool := 0 < Buf.remaining b

/-- A buffer whose operations agree on what it holds. -/
class LawfulBuf (β : Type) extends Buf β where
  content : β → Bytes
  remaining_eq : ∀ b, remaining b = (content b).length
  chunk_isPrefix : ∀ b, chunk b <+: content b
  chunk_ne_nil : ∀ b, content b ≠ [] → chunk b ≠ []
  content_advance : ∀ b n, n ≤ (content b).length → content (advance b n) = (content b).drop n

variable {β γ : Type}

section Vectored

variable [LawfulBuf β]

open LawfulBuf

/-- The runs stand one after the other, from the current position on. -/
structure VectoredOK (b : β) (k : ℕ) : Prop where
  length_le : (Buf.chunksVectored b k).length ≤ k
  isPrefix : (Buf.chunksVectored b k).flatten <+: content b
  ne_nil : 0 < k → content b ≠ [] → (Buf.chunksVectored b k).flatten ≠ []

/-- One read of the buffer: drop some of the bytes it has. -/
def Reads (b b' : β) : Prop := ∃ n, n ≤ (content b).length ∧ b' = Buf.advance b n

/-- **Gap free.** After any reads, fewer runs than asked for hold all the bytes. -/
def GapFree (b : β) : Prop :=
  ∀ b', Relation.ReflTransGen Reads b b' → ∀ k, VectoredOK b' k ∧
    ((Buf.chunksVectored b' k).length < k → (Buf.chunksVectored b' k).flatten = content b')

theorem GapFree.advance {b : β} (h : GapFree b) {n : ℕ} (hn : n ≤ (content b).length) :
    GapFree (Buf.advance b n) :=
  fun b' hb' => h b' (Relation.ReflTransGen.head ⟨n, hn, rfl⟩ hb')

theorem GapFree.now {b : β} (h : GapFree b) (k : ℕ) : VectoredOK b k ∧
    ((Buf.chunksVectored b k).length < k → (Buf.chunksVectored b k).flatten = content b) :=
  h b Relation.ReflTransGen.refl k

theorem hasRemaining_iff (b : β) : Buf.hasRemaining b = true ↔ content b ≠ [] := by
  unfold Buf.hasRemaining
  rw [remaining_eq, decide_eq_true_eq, length_pos_iff]

theorem gapFree_of_chunk (hc : ∀ b : β, Buf.chunk b = content b)
    (hv : ∀ (b : β) k, Buf.chunksVectored b k = firstChunk (Buf.remaining b) (Buf.chunk b) k)
    (b : β) : GapFree b := by
  intro b' _ k
  rw [hv, hc, remaining_eq]
  unfold firstChunk
  rcases Nat.eq_zero_or_pos k with rfl | hk
  · refine ⟨⟨?_, ?_, ?_⟩, ?_⟩ <;> simp [hv, firstChunk]
  · by_cases hb : content b' = []
    · refine ⟨⟨?_, ?_, ?_⟩, ?_⟩ <;> simp [hv, remaining_eq, firstChunk, hb]
    · have hpos : 0 < (content b').length := length_pos_iff.2 hb
      have hk0 : k ≠ 0 := by omega
      refine ⟨⟨?_, ?_, ?_⟩, ?_⟩ <;> simp [hv, hc, remaining_eq, firstChunk, hk0, hpos, hb]
      omega

end Vectored

/-! ## Plain bytes -/

instance : LawfulBuf Bytes where
  remaining b := b.length
  chunk b := b
  advance b n := b.drop n
  chunksVectored b k := firstChunk b.length b k
  content b := b
  remaining_eq _ := rfl
  chunk_isPrefix _ := prefix_rfl
  chunk_ne_nil _ h := h
  content_advance _ _ _ := rfl

theorem gapFree_bytes (b : Bytes) : GapFree b := gapFree_of_chunk (fun _ => rfl) (fun _ _ => rfl) b

/-! ## A buffer cut short -/

structure Take (β : Type) where
  inner : β
  limit : ℕ

/-- Cut a list of runs after `limit` bytes. -/
def cutAt : ℕ → List Bytes → List Bytes
  | _, [] => []
  | limit, s :: ss => if limit ≤ s.length then [s.take limit] else s :: cutAt (limit - s.length) ss

instance [Buf β] : Buf (Take β) where
  remaining t := min (Buf.remaining t.inner) t.limit
  chunk t := (Buf.chunk t.inner).take t.limit
  advance t n := ⟨Buf.advance t.inner n, t.limit - n⟩
  chunksVectored t k :=
    if t.limit = 0 then [] else cutAt t.limit (Buf.chunksVectored t.inner (min k 16))

instance [LawfulBuf β] : LawfulBuf (Take β) where
  content t := (LawfulBuf.content t.inner).take t.limit
  remaining_eq t := by
    show min (Buf.remaining t.inner) t.limit = _
    rw [LawfulBuf.remaining_eq, length_take, Nat.min_comm]
  chunk_isPrefix t := by
    show (Buf.chunk t.inner).take t.limit <+: _
    obtain ⟨rest, hr⟩ := LawfulBuf.chunk_isPrefix t.inner
    rw [← hr, take_append]; exact prefix_append _ _
  chunk_ne_nil t h := by
    show (Buf.chunk t.inner).take t.limit ≠ []
    rw [Ne, take_eq_nil_iff, not_or] at h ⊢
    exact ⟨h.1, LawfulBuf.chunk_ne_nil _ h.2⟩
  content_advance t n hn := by
    show (LawfulBuf.content (Buf.advance t.inner n)).take (t.limit - n) = _
    rw [length_take] at hn
    rw [LawfulBuf.content_advance _ _ (by omega), drop_take]

/-! ## One buffer after another -/

structure Chain (β γ : Type) where
  a : β
  b : γ

instance [Buf β] [Buf γ] : Buf (Chain β γ) where
  remaining c := Buf.remaining c.a + Buf.remaining c.b
  chunk c := if Buf.hasRemaining c.a then Buf.chunk c.a else Buf.chunk c.b
  advance c n :=
    let aRem := Buf.remaining c.a
    if aRem ≠ 0 then
      if n ≤ aRem then { c with a := Buf.advance c.a n }
      else ⟨Buf.advance c.a aRem, Buf.advance c.b (n - aRem)⟩
    else { c with b := Buf.advance c.b n }
  chunksVectored c k :=
    let va := Buf.chunksVectored c.a k
    va ++ Buf.chunksVectored c.b (k - va.length)

instance [LawfulBuf β] [LawfulBuf γ] : LawfulBuf (Chain β γ) where
  content c := LawfulBuf.content c.a ++ LawfulBuf.content c.b
  remaining_eq c := by
    show Buf.remaining c.a + Buf.remaining c.b = _
    rw [LawfulBuf.remaining_eq, LawfulBuf.remaining_eq, length_append]
  chunk_isPrefix c := by
    show (if Buf.hasRemaining c.a then Buf.chunk c.a else Buf.chunk c.b) <+: _
    by_cases h : LawfulBuf.content c.a = []
    · rw [if_neg (by rw [hasRemaining_iff]; simpa using h), h, nil_append]
      exact LawfulBuf.chunk_isPrefix c.b
    · rw [if_pos ((hasRemaining_iff c.a).2 h)]
      exact (LawfulBuf.chunk_isPrefix c.a).trans (prefix_append _ _)
  chunk_ne_nil c hc := by
    show (if Buf.hasRemaining c.a then Buf.chunk c.a else Buf.chunk c.b) ≠ []
    by_cases h : LawfulBuf.content c.a = []
    · rw [if_neg (by rw [hasRemaining_iff]; simpa using h)]
      exact LawfulBuf.chunk_ne_nil _ (by simpa [h] using hc)
    · rw [if_pos ((hasRemaining_iff c.a).2 h)]
      exact LawfulBuf.chunk_ne_nil _ h
  content_advance c n hn := by
    rw [length_append] at hn
    have ha := LawfulBuf.remaining_eq c.a
    simp only [Buf.advance, ha]
    by_cases h0 : (LawfulBuf.content c.a).length = 0
    · rw [if_neg (by simpa using h0)]
      rw [length_eq_zero_iff] at h0
      simp only [h0, nil_append]
      exact LawfulBuf.content_advance _ _ (by simpa [h0] using hn)
    · rw [if_pos h0]
      by_cases hle : n ≤ (LawfulBuf.content c.a).length
      · rw [if_pos hle]
        simp only
        rw [LawfulBuf.content_advance _ _ hle, drop_append_of_le_length hle]
      · rw [if_neg hle]
        simp only
        have hz : (LawfulBuf.content c.a).drop n = [] := drop_eq_nil_of_le (by omega)
        rw [LawfulBuf.content_advance _ _ (Nat.le_refl _), LawfulBuf.content_advance _ _ (by omega),
          drop_length, nil_append, drop_append, hz, nil_append]

end Netty
