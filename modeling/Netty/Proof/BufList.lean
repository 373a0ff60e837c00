import Netty.Proof.Wire

/-!
# A list of buffers is their concatenation

* `BufList.Made`: the lists that come about, with the bytes that they should hold.
* `BufList.putTake_copies`: the copying loop across buffers.
* `buf_list_concatenates`: **every list that comes about.**
-/

namespace Netty

open LawfulBuf List

variable {β : Type} [CopyBuf β]

/-- The loop of `advance` does not index an empty queue. -/
theorem advanceLoop_eq (bufs : List β) : ∀ n, n ≤ remainingAll bufs → advanceLoop bufs n = some (advanceBufs bufs n) := by
  induction bufs with
  | nil =>
    intro n hn
    cases n with
    | zero => rfl
    | succ n => cases hn
  | cons b bs ih =>
    intro n hn
    rw [remainingAll] at hn
    cases n with
    | zero => rfl
    | succ n =>
      simp only [advanceLoop, advanceBufs, Nat.add_one_ne_zero, if_false]
      split
      · rfl
      · exact ih _ (by omega)

namespace BufList

variable {l l' : BufList β} {c : Bytes}

/-- **The list holds these bytes**, and no empty buffer. -/
structure Holds (l : BufList β) (c : Bytes) : Prop where
  content : contentAll l.bufs = c
  full : ∀ b ∈ l.bufs, LawfulBuf.content b ≠ []

theorem Holds.remaining (h : l.Holds c) : l.remaining = c.length := by
  rw [l.counted, remainingAll_eq, h.content]

theorem Holds.push (h : l.Holds c) {b : β} (hb : LawfulBuf.content b ≠ []) :
    (l.push b).Holds (c ++ LawfulBuf.content b) := by
  refine ⟨by simp [BufList.push, h.content], fun x hx => ?_⟩
  rcases mem_append.1 hx with hx | hx
  · exact h.full x hx
  · rw [mem_singleton.1 hx]
    exact hb

theorem Holds.advance (h : l.Holds c) {n : ℕ} (hn : n ≤ l.remaining) : (l.advance n).Holds (c.drop n) := by
  rw [h.remaining, ← h.content] at hn
  refine ⟨?_, forall_advanceBufs (fun _ _ _ hlt => content_advance_ne_nil hlt) l.bufs n h.full⟩
  rw [← h.content]
  exact contentAll_advanceBufs l.bufs n hn

theorem Holds.chunk (h : l.Holds c) : Buf.chunk l <+: c ∧ (c ≠ [] → Buf.chunk l ≠ []) := by
  have hc := h.content
  simp only [Buf.chunk]
  cases hb : l.bufs with
  | nil =>
    rw [hb] at hc
    exact ⟨ nil_prefix, fun hne => absurd hc.symm hne⟩
  | cons b bs =>
    rw [hb, contentAll_cons] at hc
    have hne := h.full b (by rw [hb]; exact mem_cons_self)
    refine ⟨?_, fun _ => LawfulBuf.chunk_ne_nil b hne⟩
    rw [← hc]
    exact (LawfulBuf.chunk_isPrefix b).trans (prefix_append _ _)

theorem putTake_copies (fuel : ℕ) : ∀ {l : BufList β} {c : Bytes} {len : ℕ}, l.Holds c → len ≤ fuel →
    len ≤ l.remaining → (putTake fuel l len).1 = c.take len ∧ (putTake fuel l len).2.Holds (c.drop len) := by
  induction fuel with
  | zero =>
    intro l c len h hf _
    obtain rfl : len = 0 := Nat.le_zero.1 hf
    exact ⟨rfl, h⟩
  | succ fuel ih =>
    intro l c len h hf hle
    unfold putTake
    split
    · obtain rfl : len = 0 := by omega
      exact ⟨rfl, h⟩
    · rename_i hpos
      -- the run has a byte, and stands in front of what is left
      obtain ⟨hpre, hne⟩ := h.chunk
      have hlen := h.remaining
      have hrun : (Buf.chunk l).length ≠ 0 := fun hz =>
        hne (fun hc => hpos (by rw [hlen, hc, length_nil, Nat.zero_min])) (length_eq_zero_iff.1 hz)
      generalize hr : (Buf.chunk l).take len = run
      have hsize : run.length = min len (Buf.chunk l).length := by rw [← hr, length_take]
      have hrunc : c.take run.length = run := by
        obtain ⟨rest, rfl⟩ := hpre
        rw [hsize, ← hr, take_append_of_le_length (min_le_right _ _), take_eq_take_iff]
        omega
      obtain ⟨hbytes, hholds⟩ := ih (h.advance (n := run.length) (by omega)) (by omega)
        (Nat.sub_le_sub_right hle run.length)
      have hadd : len = run.length + (len - run.length) := by omega
      rw [hadd, take_add, hrunc, ← drop_drop, ← hadd]
      exact ⟨congrArg (run ++ ·) hbytes, hholds⟩

theorem copyAcross_copies (h : l.Holds c) {n : ℕ} (hn : n ≤ l.remaining) :
    ∃ l', l.copyAcross n = some (c.take n, l') ∧ l'.Holds (c.drop n) := by
  obtain ⟨hbytes, hholds⟩ := putTake_copies n h (le_refl n) hn
  exact ⟨_, by rw [copyAcross, if_pos hn, ← hbytes], hholds⟩

theorem copyToBytes_copies (h : l.Holds c) {n : ℕ} (hn : n ≤ l.remaining) :
    ∃ l', l.copyToBytes n = some (c.take n, l') ∧ l'.Holds (c.drop n) := by
  have hc := h.content
  have hfull := h.full
  unfold copyToBytes
  split
  · exact copyAcross_copies h hn
  · rename_i front rest hb
    rw [hb, contentAll_cons] at hc
    rw [hb] at hfull
    obtain ⟨-, hrest⟩ := forall_mem_cons.1 hfull
    -- a request that the front buffer can answer touches no other
    have hfront : n ≤ (LawfulBuf.content front).length → (CopyBuf.copyToBytes front n).1 = c.take n ∧
        LawfulBuf.content (CopyBuf.copyToBytes front n).2 ++ contentAll rest = c.drop n := by
      intro hle
      obtain ⟨hbytes, hleft⟩ := CopyBuf.copied front n hle
      rw [← hc, take_append_of_le_length hle, drop_append_of_le_length hle, hbytes, hleft]
      exact ⟨rfl, rfl⟩
    split
    · rename_i heq
      rw [remaining_eq] at heq
      refine ⟨_, congrArg (fun bytes => some (bytes, _)) (hfront (le_of_eq heq.symm)).1, ?_, hrest⟩
      rw [← hc]
      exact (drop_left' heq).symm
    split
    · rename_i hlt
      rw [remaining_eq] at hlt
      have hle := le_of_lt hlt
      obtain ⟨hbytes, hleft⟩ := hfront hle
      refine ⟨_, congrArg (fun bytes => some (bytes, _)) hbytes, hleft, forall_mem_cons.2 ⟨fun hnil => ?_, hrest⟩⟩
      rw [(CopyBuf.copied front n hle).2, drop_eq_nil_iff] at hnil
      omega
    · exact copyAcross_copies h hn

/-- **How a list comes about**, and the bytes that were pushed and not yet read. -/
inductive Made : BufList β → Bytes → Prop where
  | new : Made BufList.new []
  | push {l : BufList β} {c : Bytes} (b : β) : Made l c → content b ≠ [] → Made (l.push b) (c ++ content b)
  | advance {l : BufList β} {c : Bytes} (n : ℕ) : Made l c → n ≤ l.remaining → Made (l.advance n) (c.drop n)
  | copyToBytes {l l' : BufList β} {c bytes : Bytes} (n : ℕ) : Made l c → n ≤ l.remaining →
    l.copyToBytes n = some (bytes, l') → Made l' (c.drop n)

theorem Made.holds (h : l.Made c) : l.Holds c := by
  induction h with
  | new => exact ⟨rfl, fun _ h => absurd h not_mem_nil⟩
  | push b _ hb ih => exact ih.push hb
  | advance n _ hn ih => exact ih.advance hn
  | copyToBytes n _ hn hl ih =>
    obtain ⟨l'', h, hholds⟩ := copyToBytes_copies ih hn
    rw [hl] at h
    obtain ⟨-, rfl⟩ := Prod.mk.inj (Option.some.inj h)
    exact hholds

end BufList

open BufList

/-- **A list of buffers is a faithful concatenation.** However it came about, it holds the bytes that
were pushed and not read, in buffers that each have some; its count is theirs, its next run and (if each
buffer keeps the guarantee of a vectored read) its vectored runs are a front of these bytes, dropping
and copying out treat exactly the first `n`, and no index is out of bounds. -/
theorem buf_list_concatenates (l : BufList β) (c : Bytes) (h : l.Made c) :
    l.remaining = remainingAll l.bufs ∧ contentAll l.bufs = c ∧ l.remaining = c.length ∧
    (∀ b ∈ l.bufs, content b ≠ []) ∧
    (Buf.chunk l <+: c ∧ (0 < l.remaining → Buf.chunk l ≠ [])) ∧
    ((∀ b ∈ l.bufs, GapFree b) → ∀ k,
      (Buf.chunksVectored l k).length ≤ k ∧ (Buf.chunksVectored l k).flatten <+: c) ∧
    ∀ n ≤ l.remaining,
      (advanceLoop l.bufs n = some (l.advance n).bufs ∧ contentAll (l.advance n).bufs = c.drop n) ∧
      (∃ l', l.copyToBytes n = some (c.take n, l') ∧ contentAll l'.bufs = c.drop n) ∧
      ∃ l', l.copyAcross n = some (c.take n, l') ∧ contentAll l'.bufs = c.drop n := by
  have hh := h.holds
  have hlen := hh.remaining
  refine ⟨l.counted, hh.content, hlen, hh.full, ⟨hh.chunk.1, fun hpos => hh.chunk.2 ?_⟩, fun hg k => ?_,
    fun n hn => ⟨⟨?_, (hh.advance hn).content⟩, ?_, ?_⟩⟩
  · exact length_pos_iff.1 (by omega)
  · show (if k = 0 then [] else gather l.bufs k).length ≤ k ∧ (if k = 0 then [] else gather l.bufs k).flatten <+: c
    split
    · exact ⟨Nat.zero_le k, nil_prefix⟩
    · rw [← hh.content]
      exact gather_isPrefix l.bufs k hg
  · exact advanceLoop_eq l.bufs n (by rw [← l.counted]; exact hn)
  · obtain ⟨l', hl, hl'⟩ := copyToBytes_copies hh hn
    exact ⟨l', hl, hl'.content⟩
  · obtain ⟨l', hl, hl'⟩ := copyAcross_copies hh hn
    exact ⟨l', hl, hl'.content⟩

/-- Two buffers, the first of them half read. -/
theorem buf_list_concatenates_half :
    ∃ l : BufList Bytes, l.Made [2, 3, 4] ∧ ∃ l', l.copyToBytes 2 = some ([2, 3], l') ∧ contentAll l'.bufs = [4] := by
  have hm := ((Made.new (β := Bytes)).push [1, 2] (by decide)).push [3, 4] (by decide) |>.advance 1 (by decide)
  obtain ⟨-, -, -, -, -, -, hall⟩ := buf_list_concatenates _ _ hm
  exact ⟨_, hm, (hall 2 (by decide)).2.1⟩

instance : CopyBuf TwoRuns where
  copyToBytes b n := ((content b).take n, Buf.advance b n)
  copied b n hn := ⟨rfl, content_advance b n hn⟩

/-- **The vectored runs of buffers of two runs are not consecutive.** -/
theorem vectored_runs_skip :
    ∃ l : BufList TwoRuns, l.Made [1, 2, 3, 4] ∧ Buf.chunksVectored l 2 = [[1], [3]] ∧
      ¬ (Buf.chunksVectored l 2).flatten <+: [1, 2, 3, 4] := by
  have hm := ((Made.new (β := TwoRuns)).push ⟨[1], [2]⟩ (by decide)).push ⟨[3], [4]⟩ (by decide)
  exact ⟨_, hm, rfl, by decide⟩

end Netty
