import Netty.Split.Basic
import Netty.Spec.Head

/-!
# Unfolding a header value

A value over several lines is put on one line, in place: each line break becomes a space, and the
whitespace around it goes. What goes, too, is the whitespace at the end of the last line.

* `unfolded`: the lines of a value, joined.
* `length_unfolded_le`: there is room for it.
* `notMem_unfolded`: it has no line breaks in it.
* `obs_fold_safe`: **what becomes of the buffer and of the value**.
* `obs_fold_trims_the_end`: whitespace at the end of the value.
-/

namespace Netty

open List

/-! ## Trimming -/

theorem trimEndWs_isPrefix (s : Bytes) : trimEndWs s <+: s := by
  unfold trimEndWs
  have h := dropWhile_suffix isAsciiWhitespace (l := s.reverse)
  rw [← reverse_prefix, reverse_reverse] at h
  exact h

theorem getLast?_trimEndWs (s : Bytes) : ∀ b ∈ (trimEndWs s).getLast?, isAsciiWhitespace b = false := by
  intro b hb
  unfold trimEndWs at hb
  rw [getLast?_reverse] at hb
  have h := head?_dropWhile_not isAsciiWhitespace s.reverse
  rw [hb] at h
  simpa using h

theorem trimWs_sublist (s : Bytes) : (trimWs s).Sublist s :=
  (dropWhile_sublist _).trans (trimEndWs_isPrefix s).sublist

theorem trimEndWs_of_last {s : Bytes} (h : ∀ b ∈ s.getLast?, isAsciiWhitespace b = false) : trimEndWs s = s := by
  have hd : s.reverse.dropWhile isAsciiWhitespace = s.reverse := by
    cases hs : s.reverse with
    | nil => rfl
    | cons b t =>
      have hb : isAsciiWhitespace b = false := h b (by rw [← head?_reverse, hs]; rfl)
      rw [dropWhile_cons, hb]
      rfl
  unfold trimEndWs
  rw [hd, reverse_reverse]

/-! ## The lines of a value -/

/-- The lines of a value of more than one line, joined by spaces. -/
def unfolded (value : Bytes) : Bytes :=
  match value.splitOn 10 with
  | first :: line :: lines => [32].intercalate (trimEndWs first :: (line :: lines).map trimWs)
  | _ => value

/-- Every carriage return stands before a line feed. -/
def CrBeforeLf (value : Bytes) : Prop := ∀ pre post, value = pre ++ 13 :: post → post.head? = some 10

variable {value first rest : Bytes}

theorem crBeforeLf_of_forall (h : ∀ i < value.length, value[i]? = some 13 → value[i + 1]? = some 10) :
    CrBeforeLf value := by
  rintro pre post rfl
  have := h pre.length (by simp) (by simp)
  rw [List.getElem?_append_right (by omega)] at this
  simpa [head?_eq_getElem?] using this

theorem unfolded_of_notMem (h : 10 ∉ value) : unfolded value = value := by
  unfold unfolded
  rw [splitOn_eq_singleton h]

theorem unfolded_append (h : 10 ∉ first) :
    unfolded (first ++ 10 :: rest) = trimEndWs first ++ (rest.splitOn 10).flatMap fun l => 32 :: trimWs l := by
  obtain ⟨line, lines, hs, -⟩ := List.exists_splitOn 10 rest
  unfold unfolded
  rw [splitOn_append_cons_self_of_not_mem h, hs]
  simp only
  rw [List.intercalate_cons_eq_flatMap, flatMap_map]

/-- **There is room for the value.** -/
theorem length_unfolded_le (h : 10 ∉ first) :
    (unfolded (first ++ 10 :: rest)).length ≤ (first ++ 10 :: rest).length := by
  obtain ⟨line, lines, hs, hjoin⟩ := List.exists_splitOn 10 rest
  have hlines : ∀ ls : List Bytes, (ls.flatMap fun l => 32 :: trimWs l).length ≤ (ls.flatMap (10 :: ·)).length := by
    intro ls
    induction ls with
    | nil => simp
    | cons l ls ih =>
      have := (trimWs_sublist l).length_le
      simp only [flatMap_cons, length_append, length_cons]
      omega
  have hrest : 10 :: rest = (rest.splitOn 10).flatMap (10 :: ·) := by rw [hs, hjoin]; simp
  have hfirst := (trimEndWs_isPrefix first).length_le
  rw [unfolded_append h, hrest, length_append, length_append]
  exact add_le_add hfirst (hlines _)

/-- A carriage return of a line stands at its end, and is trimmed. -/
theorem cr_notMem_trimEndWs {line : Bytes} (hcr : CrBeforeLf value) (hl : line ∈ value.splitOn 10) :
    13 ∉ trimEndWs line := by
  intro hmem
  obtain ⟨p, q, hv, -⟩ := List.exists_append_of_mem_splitOn hl
  obtain ⟨a, b, hab⟩ := append_of_mem hmem
  obtain ⟨w, hw⟩ := trimEndWs_isPrefix line
  have hhead : (b ++ w ++ q).head? = some 10 := hcr (p ++ a) (b ++ w ++ q) (by rw [hv, ← hw, hab]; simp)
  cases b with
  | nil =>
    have := getLast?_trimEndWs line 13 (by rw [hab]; simp)
    revert this
    decide
  | cons y b =>
    obtain rfl : y = 10 := by simpa using hhead
    have : 10 ∈ line := by rw [← hw, hab]; simp
    exact List.notMem_of_mem_splitOn hl this

/-- **The value has no line breaks in it.** -/
theorem notMem_unfolded (hcr : CrBeforeLf value) : 13 ∉ unfolded value ∧ 10 ∉ unfolded value := by
  by_cases h : 10 ∈ value
  · obtain ⟨first, rest, rfl, hf⟩ := eq_append_cons_of_mem h
    have hsplit := splitOn_append_cons_self_of_not_mem hf rest
    have hline : ∀ l ∈ (first ++ 10 :: rest).splitOn 10, ∀ b : UInt8, b = 13 ∨ b = 10 → b ∉ trimEndWs l := by
      rintro l hl b (rfl | rfl) hb
      · exact cr_notMem_trimEndWs hcr hl hb
      · exact List.notMem_of_mem_splitOn hl ((trimEndWs_isPrefix l).subset hb)
    have hnone : ∀ b : UInt8, b = 13 ∨ b = 10 → b ∉ unfolded (first ++ 10 :: rest) := by
      intro b hb hmem
      rw [unfolded_append hf] at hmem
      rcases mem_append.1 hmem with hmem | hmem
      · exact hline first (by rw [hsplit]; simp) b hb hmem
      · obtain ⟨l, hl, hbl⟩ := mem_flatMap.1 hmem
        rcases mem_cons.1 hbl with rfl | hbl
        · revert hb; decide
        · exact hline l (by rw [hsplit]; exact mem_cons_of_mem _ hl) b hb
            ((dropWhile_sublist _).subset hbl)
    exact ⟨hnone 13 (.inl rfl), hnone 10 (.inr rfl)⟩
  · rw [unfolded_of_notMem h]
    refine ⟨fun hmem => ?_, h⟩
    obtain ⟨pre, post, rfl⟩ := append_of_mem hmem
    have := hcr pre post rfl
    exact h (mem_append_right _ (mem_cons_of_mem _ (mem_of_mem_head? this)))

/-! ## Whitespace around line breaks only -/

/-- The lines behind a line break. The last of them has no line break behind it. -/
def behindBreak : Bytes → List Bytes → List Bytes
  | last, [] => [last.dropWhile isAsciiWhitespace]
  | line, next :: lines => trimWs line :: behindBreak next lines

/-- Each line without the whitespace around its line breaks. -/
def aroundBreaks : List Bytes → List Bytes
  | first :: line :: lines => trimEndWs first :: behindBreak line lines
  | lines => lines

theorem behindBreak_eq_map (lines : List Bytes) : ∀ line : Bytes,
    (∀ b ∈ ((line :: lines).getLastD []).getLast?, isAsciiWhitespace b = false) →
      behindBreak line lines = (line :: lines).map trimWs := by
  induction lines with
  | nil =>
    intro line h
    simp only [behindBreak, map_cons, map_nil, trimWs]
    rw [trimEndWs_of_last (s := line) h]
  | cons next lines ih =>
    intro line h
    rw [behindBreak, ih next h]
    rfl

theorem getLast?_lastLine (rest : Bytes) (h : ∀ b ∈ (10 :: rest).getLast?, isAsciiWhitespace b = false) :
    ∀ b ∈ ((rest.splitOn 10).getLastD []).getLast?, isAsciiWhitespace b = false := by
  obtain ⟨line, lines, hs, hjoin⟩ := List.exists_splitOn 10 rest
  have hrest : 10 :: rest = (line :: lines).flatMap (10 :: ·) := by rw [hjoin]; simp
  rcases eq_nil_or_concat (line :: lines) with hnil | ⟨init, last, hc⟩
  · cases hnil
  · rw [concat_eq_append] at hc
    rw [hs, hc]
    rw [hrest, hc, flatMap_append, flatMap_singleton] at h
    intro b hb
    simp only [getLastD_concat] at hb
    cases last with
    | nil => cases hb
    | cons y last =>
      refine h b ?_
      rw [getLast?_append]
      simp only [getLast?_cons_cons]
      rw [hb]
      rfl

theorem unfolded_eq_aroundBreaks (h : ∀ b ∈ value.getLast?, isAsciiWhitespace b = false) :
    unfolded value = [32].intercalate (aroundBreaks (value.splitOn 10)) := by
  by_cases hlf : 10 ∈ value
  · obtain ⟨first, rest, rfl, hf⟩ := eq_append_cons_of_mem hlf
    obtain ⟨line, lines, hs, -⟩ := List.exists_splitOn 10 rest
    have hlast : ∀ b ∈ ((line :: lines).getLastD []).getLast?, isAsciiWhitespace b = false := by
      rw [← hs]
      refine getLast?_lastLine rest fun b hb => h b ?_
      rw [getLast?_append, hb]
      rfl
    unfold unfolded
    rw [splitOn_append_cons_self_of_not_mem hf, hs]
    simp only [aroundBreaks]
    rw [behindBreak_eq_map lines line hlast]
  · rw [unfolded_of_notMem hlf, splitOn_eq_singleton hlf]
    simp [aroundBreaks]

/-! ## The buffer -/

theorem idxOf?_first (first rest : Bytes) (h : 10 ∉ first) : (first ++ 10 :: rest).idxOf? 10 = some first.length := by
  induction first with
  | nil => simp [idxOf?_cons]
  | cons b first ih =>
    rw [mem_cons, not_or] at h
    rw [cons_append, idxOf?_cons, ih h.2]
    simp [Ne.symm h.1]

variable {idx : HeaderIndices} {all : Bytes}

/-- The code in closed form. -/
theorem obsFoldLineChecked_eq (hr : idx.value.1 ≤ idx.value.2 ∧ idx.value.2 ≤ all.length)
    (hlf : 10 ∈ sliceOf all idx.value) :
    let new := unfolded (sliceOf all idx.value)
    new.length ≤ (sliceOf all idx.value).length ∧
    obsFoldLineChecked all idx = some
      (all.take idx.value.1 ++ (new ++ (sliceOf all idx.value).drop new.length) ++ all.drop idx.value.2,
        { idx with value := (idx.value.1, idx.value.1 + new.length) }) := by
  intro new
  obtain ⟨first, rest, hv, hf⟩ := eq_append_cons_of_mem hlf
  have hlen : new.length ≤ (sliceOf all idx.value).length := by
    show (unfolded (sliceOf all idx.value)).length ≤ _
    rw [hv]
    exact length_unfolded_le hf
  have hnew : new = trimEndWs first ++ (rest.splitOn 10).flatMap fun l => 32 :: trimWs l := by
    show unfolded (sliceOf all idx.value) = _
    rw [hv, unfolded_append hf]
  have htake : (sliceOf all idx.value).take first.length = first := by rw [hv, take_left']; rfl
  have hdrop : (sliceOf all idx.value).drop (first.length + 1) = rest := by
    rw [hv, ← drop_drop, drop_left']
    · rfl
    · rfl
  refine ⟨hlen, ?_⟩
  unfold obsFoldLineChecked
  rw [if_pos hr]
  simp only
  have hidx : (sliceOf all idx.value).idxOf? 10 = some first.length := by rw [hv]; exact idxOf?_first first rest hf
  rw [hidx]
  simp only [htake, hdrop, ← hnew]
  rw [if_pos hlen]

theorem obsFoldLine_of_notMem (hlf : 10 ∉ sliceOf all idx.value) : obsFoldLine all idx = (all, idx) := by
  unfold obsFoldLine
  rw [splitOn_eq_singleton hlf]

theorem obsFoldLine_of_mem (hlf : 10 ∈ sliceOf all idx.value) :
    let new := unfolded (sliceOf all idx.value)
    obsFoldLine all idx = (all.take idx.value.1 ++ new ++ all.drop (idx.value.1 + new.length),
      { idx with value := (idx.value.1, idx.value.1 + new.length) }) := by
  intro new
  obtain ⟨first, rest, hv, hf⟩ := eq_append_cons_of_mem hlf
  obtain ⟨line, lines, hs, -⟩ := List.exists_splitOn 10 rest
  have hnew : new = trimEndWs first ++ (line :: lines).flatMap fun l => 32 :: trimWs l := by
    show unfolded (sliceOf all idx.value) = _
    rw [hv, unfolded_append hf, hs]
  unfold obsFoldLine
  rw [hv, splitOn_append_cons_self_of_not_mem hf, hs]
  simp only [← hnew]

/-- What is known of a buffer and of a value in it, after the value was unfolded. -/
structure Unfolds (all all' : Bytes) (idx idx' : HeaderIndices) : Prop where
  before : all'.take idx.value.1 = all.take idx.value.1
  behind : all'.drop idx.value.2 = all.drop idx.value.2
  length : all'.length = all.length
  name : idx'.name = idx.name
  start : idx'.value.1 = idx.value.1
  shorter : idx'.value.2 ≤ idx.value.2
  value : sliceOf all' idx'.value = unfolded (sliceOf all idx.value)

theorem unfolds_of_le (hr : idx.value.1 ≤ idx.value.2 ∧ idx.value.2 ≤ all.length)
    (hlen : (unfolded (sliceOf all idx.value)).length ≤ (sliceOf all idx.value).length) :
    Unfolds all (all.take idx.value.1 ++ (unfolded (sliceOf all idx.value) ++
        (sliceOf all idx.value).drop (unfolded (sliceOf all idx.value)).length) ++ all.drop idx.value.2) idx
      { idx with value := (idx.value.1, idx.value.1 + (unfolded (sliceOf all idx.value)).length) } := by
  obtain ⟨hab, hb⟩ := hr
  have hslice : (sliceOf all idx.value).length = idx.value.2 - idx.value.1 := by
    unfold sliceOf
    rw [length_drop, length_take, min_eq_left hb]
  generalize hnew : unfolded (sliceOf all idx.value) = new at hlen ⊢
  have htake : (all.take idx.value.1).length = idx.value.1 := by rw [length_take]; omega
  have hmid : (new ++ (sliceOf all idx.value).drop new.length).length = idx.value.2 - idx.value.1 := by
    rw [length_append, length_drop, hslice]; omega
  refine ⟨?_, ?_, ?_, rfl, rfl, ?_, ?_⟩
  · rw [append_assoc, take_left' htake]
  · refine drop_left' ?_
    rw [length_append, htake, hmid]; omega
  · rw [length_append, length_append, htake, hmid, length_drop]; omega
  · show idx.value.1 + new.length ≤ idx.value.2
    omega
  · show ((_ : Bytes).take (idx.value.1 + new.length)).drop idx.value.1 = _
    rw [hnew, append_assoc, append_assoc, ← append_assoc,
      take_left' (by rw [length_append, htake]), drop_left' htake]

theorem drop_sliceOf_append {r : ℕ × ℕ} (hr : r.1 ≤ r.2 ∧ r.2 ≤ all.length) {n : ℕ} (hn : n ≤ (sliceOf all r).length) :
    (sliceOf all r).drop n ++ all.drop r.2 = all.drop (r.1 + n) := by
  unfold sliceOf at hn ⊢
  rw [length_drop, length_take, min_eq_left hr.2] at hn
  rw [drop_drop, ← drop_append_of_le_length (by rw [length_take]; omega), take_append_drop]

/-- **Unfolding is safe.** For every buffer and every value in it whose carriage returns stand before line feeds, no
bound is missed, nothing outside the value changes, and the value does not get longer. The new value has no line
breaks in it: it is the lines of the old one, joined by single spaces, the first without whitespace at its end and the
others without whitespace at both ends. So if the old value does not end in whitespace, it is its lines without the
whitespace around their line breaks. A value of one line stays as it is. -/
theorem obs_fold_safe (all : Bytes) (idx : HeaderIndices)
    (hr : idx.value.1 ≤ idx.value.2 ∧ idx.value.2 ≤ all.length) (hcr : CrBeforeLf (sliceOf all idx.value)) :
    ∃ all' idx', obsFoldLineChecked all idx = some (all', idx') ∧ obsFoldLine all idx = (all', idx') ∧
      Unfolds all all' idx idx' ∧ 13 ∉ sliceOf all' idx'.value ∧ 10 ∉ sliceOf all' idx'.value ∧
      ((∀ b ∈ (sliceOf all idx.value).getLast?, isAsciiWhitespace b = false) →
        sliceOf all' idx'.value = [32].intercalate (aroundBreaks ((sliceOf all idx.value).splitOn 10))) ∧
      (10 ∉ sliceOf all idx.value → all' = all ∧ idx' = idx) := by
  by_cases hlf : 10 ∈ sliceOf all idx.value
  · obtain ⟨hlen, hchecked⟩ := obsFoldLineChecked_eq hr hlf
    have hun := unfolds_of_le hr hlen
    obtain ⟨h13, h10⟩ := notMem_unfolded hcr
    refine ⟨_, _, hchecked, ?_, hun, ?_, ?_, fun hlast => ?_, fun hn => absurd hlf hn⟩
    · rw [obsFoldLine_of_mem hlf]
      simp only [append_assoc, drop_sliceOf_append hr hlen]
    · rw [hun.value]; exact h13
    · rw [hun.value]; exact h10
    · rw [hun.value, unfolded_eq_aroundBreaks hlast]
  · have hsame := obsFoldLine_of_notMem hlf
    have hchecked : obsFoldLineChecked all idx = some (all, idx) := by
      unfold obsFoldLineChecked
      rw [if_pos hr]
      simp only [idxOf?_eq_none_iff.2 hlf]
    obtain ⟨h13, h10⟩ := notMem_unfolded hcr
    rw [unfolded_of_notMem hlf] at h13 h10
    refine ⟨all, idx, hchecked, hsame, ⟨rfl, rfl, rfl, rfl, rfl, le_rfl, (unfolded_of_notMem hlf).symm⟩, h13, h10,
      fun hlast => ?_, fun _ => ⟨rfl, rfl⟩⟩
    rw [← unfolded_eq_aroundBreaks hlast, unfolded_of_notMem hlf]

/-- `x: a CR LF SP b`, with its value over two lines. -/
theorem obs_fold_safe_two_lines :
    ∃ all' idx', obsFoldLineChecked [120, 58, 97, 13, 10, 32, 98] ⟨(0, 1), (2, 7)⟩ = some (all', idx') ∧
      sliceOf all' idx'.value = [97, 32, 98] ∧ 10 ∉ sliceOf all' idx'.value := by
  have hcr : CrBeforeLf (sliceOf [120, 58, 97, 13, 10, 32, 98] (2, 7)) := crBeforeLf_of_forall (by decide)
  obtain ⟨all', idx', hc, -, hun, -, h10, -⟩ := obs_fold_safe [120, 58, 97, 13, 10, 32, 98] ⟨(0, 1), (2, 7)⟩
    (by decide) hcr
  exact ⟨all', idx', hc, hun.value.trans (by decide), h10⟩

/-- **Whitespace at the end of a value is trimmed**, though there is no line break near it: `a LF SP b SP`. -/
theorem obs_fold_trims_the_end :
    obsFoldLineChecked [97, 10, 32, 98, 32] ⟨(0, 0), (0, 5)⟩ = some ([97, 32, 98, 98, 32], ⟨(0, 0), (0, 3)⟩) ∧
    [32].intercalate (aroundBreaks (([97, 10, 32, 98, 32] : Bytes).splitOn 10)) = [97, 32, 98, 32] := by
  decide

end Netty
