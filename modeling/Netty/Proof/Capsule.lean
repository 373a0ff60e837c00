import Netty.Spec.Capsule

/-!
# Capsules are received exactly

* `decodeLoop_front`: what the decoder makes of the capsule at the front of its buffer.
* `Within`, `decode_bounded`: a capsule that is skipped, and what the decoder keeps of it.
* `Outcome`: where the receiver stands in a list of capsules, or which one it has refused.
* `drain_outcome`, `feedAll_outcome`: it is there after any bytes, in any pieces.
* `capsules_exact`: what has been delivered, refused and cut.
-/

namespace Netty.Capsule

open List Option

section Front

variable {c : Capsule} {cs : List Capsule} {buf : Bytes} {fuel skip : ℕ}

theorem wire_cons (c : Capsule) (cs : List Capsule) : wire (c :: cs) = c.bytes ++ wire cs := flatMap_cons

theorem wire_append (cs ds : List Capsule) : wire (cs ++ ds) = wire cs ++ wire ds := flatMap_append

theorem length_bytes (c : Capsule) : c.bytes.length = c.header.length + c.value.length := length_append

/-- A part of two strings ends in the first, or has all of it. -/
theorem prefix_cases {p a b : Bytes} (h : p <+: a ++ b) :
    (p.length < a.length ∧ p <+: a) ∨ ∃ p', p = a ++ p' ∧ p' <+: b := by
  by_cases hle : a.length ≤ p.length
  · obtain ⟨p', rfl⟩ := prefix_of_prefix_length_le (prefix_append a b) h hle
    exact .inr ⟨p', rfl, (prefix_append_right_inj a).1 h⟩
  · exact .inl ⟨by omega, prefix_of_prefix_length_le h (prefix_append a b) (by omega)⟩

/-! ## One capsule -/

/-- What the decoder does with a capsule. -/
inductive Fate where
  | deliver
  | skip
  | refuse
  deriving DecidableEq

def fate (c : Capsule) : Fate :=
  if c.kind ≠ datagram then .skip
  else if c.value.length ≤ maxDatagram then .deliver
  else if c.udp.isSome then .refuse
  else .skip

/-- How much of the capsule the decoder has to see. -/
def needs (c : Capsule) : ℕ := if c.kind ≠ datagram then c.header.length else c.toldBy

theorem header_le_toldBy (c : Capsule) : c.header.length ≤ c.toldBy := by
  unfold toldBy
  split
  · rw [length_bytes]; exact Nat.le_add_right _ _
  · exact Nat.le_add_right _ _

theorem header_le_needs (c : Capsule) : c.header.length ≤ c.needs := by
  unfold needs
  split
  · exact le_refl _
  · exact header_le_toldBy c

theorem toldBy_le (c : Capsule) : c.toldBy ≤ c.bytes.length := by
  unfold toldBy
  split
  · exact le_refl _
  · rw [length_bytes]
    cases h : Varint.decode c.value with
    | none => exact Nat.add_le_add_left (Nat.zero_le _) _
    | some x => exact Nat.add_le_add_left (Varint.decode_le h).2.1 _

theorem needs_le (c : Capsule) : c.needs ≤ c.bytes.length := by
  unfold needs
  split
  · rw [length_bytes]; exact Nat.le_add_right _ _
  · exact toldBy_le c

theorem decode_kind (c : Capsule) (rest : Bytes) :
    Varint.decode (c.header ++ rest) = some (c.kind, c.kindForm.length) := by
  rw [header, append_assoc]
  exact Varint.decode_encodeAs c.kind_lt _

theorem decode_len (c : Capsule) (rest : Bytes) :
    Varint.decode ((c.header ++ rest).drop c.kindForm.length) = some (c.value.length, c.lenForm.length) := by
  have hdrop : (c.header ++ rest).drop c.kindForm.length = Varint.encodeAs c.lenForm c.value.length ++ rest := by
    rw [header, append_assoc, ← Varint.length_encodeAs c.kindForm c.kind, drop_left]
  rw [hdrop]
  exact Varint.decode_encodeAs c.len_lt _

theorem length_header (c : Capsule) : c.header.length = c.kindForm.length + c.lenForm.length := by
  rw [header, length_append, Varint.length_encodeAs, Varint.length_encodeAs]

theorem header_pos (c : Capsule) : 0 < c.header.length := by
  rw [length_header]
  exact lt_of_lt_of_le (Varint.Form.length_pos _) (Nat.le_add_right _ _)

theorem decodeLoop_header (hbuf : buf <+: c.header) (hlen : buf.length < c.header.length) :
    decodeLoop (fuel + 1) 0 buf = some (.more, 0, buf) := by
  obtain ⟨q, hq⟩ := hbuf
  have hkind := decode_kind c []
  have hl := decode_len c []
  rw [append_nil, ← hq] at hkind hl
  simp only [decodeLoop, Nat.zero_min, drop_zero, Nat.sub_self, lt_irrefl, if_false]
  by_cases hk : buf.length < c.kindForm.length
  · rw [Varint.decode_short hkind hk]
  · rw [Varint.decode_of_prefix hkind (le_of_not_gt hk)]
    rw [drop_append_of_le_length (le_of_not_gt hk)] at hl
    have hshort : (buf.drop c.kindForm.length).length < c.lenForm.length := by
      rw [length_drop]
      have := length_header c
      omega
    simp only [Varint.decode_short hl hshort]

theorem decode_context (hlong : maxDatagram < c.value.length) :
    ∃ context len, Varint.decode c.value = some (context, len) :=
  Varint.decode_of_length (by unfold maxDatagram maxUdpPayload at hlong; omega)

variable {after : Bytes}

/-- **The capsule at the front of the buffer**, once the decoder has seen enough of it. -/
theorem decodeLoop_front {rest : Bytes} (fuel : ℕ) (hrest : rest <+: c.value ++ after) :
    ((c.header ++ rest).length < c.needs →
        decodeLoop (fuel + 1) 0 (c.header ++ rest) = some (.more, 0, c.header ++ rest)) ∧
    (c.needs ≤ (c.header ++ rest).length →
      (c.fate = .deliver →
        decodeLoop (fuel + 1) 0 (c.header ++ rest) = some (.value c.value, 0, rest.drop c.value.length)) ∧
      (c.fate = .refuse → decodeLoop (fuel + 1) 0 (c.header ++ rest) = some (.malformed, 0, c.header ++ rest)) ∧
      (c.fate = .skip → decodeLoop (fuel + 1) 0 (c.header ++ rest) = decodeLoop fuel c.value.length rest)) := by
  simp only [decodeLoop, Nat.zero_min, drop_zero, Nat.sub_self, lt_irrefl, if_false, decode_kind, decode_len,
    ← length_header, drop_left, length_append]
  unfold needs fate
  by_cases hk : c.kind = datagram
  · simp only [hk, ne_eq, not_true_eq_false, if_false, if_true]
    by_cases hb : c.value.length ≤ maxDatagram
    · simp only [hb, if_true, toldBy, length_bytes]
      refine ⟨fun h => if_pos h, fun h => ⟨fun _ => ?_, nofun, nofun⟩⟩
      obtain ⟨q, hq⟩ := hrest
      have htake : (rest ++ q).take c.value.length = rest.take c.value.length :=
        take_append_of_le_length (by omega)
      rw [hq, take_left] at htake
      rw [if_neg (by omega), ← htake]
    · simp only [hb, if_false, toldBy]
      obtain ⟨context, len, hc⟩ := decode_context (lt_of_not_ge hb)
      have hdec := Varint.decode_append hc after
      obtain ⟨q, hq⟩ := hrest
      rw [← hq] at hdec
      simp only [hc, map_some, getD_some]
      refine ⟨fun h => ?_, fun h => ?_⟩
      · simp only [Varint.decode_short hdec (by omega)]
      · have hudp : c.udp.isSome = decide (context = 0) := by
          rw [udp, if_pos hk, hc]
          cases context <;> rfl
        simp only [Varint.decode_of_prefix hdec (by omega), hudp]
        cases context with
        | zero => exact ⟨nofun, fun _ => rfl, nofun⟩
        | succ n => exact ⟨nofun, nofun, fun _ => rfl⟩
  · simp only [hk, ne_eq, not_false_eq_true, if_true, if_false]
    refine ⟨fun h => by omega, fun _ => ⟨nofun, nofun, fun _ => trivial⟩⟩

/-! ## Skipping -/

theorem decodeLoop_inside (h : buf.length < skip) :
    decodeLoop (fuel + 1) skip buf = some (.more, skip - buf.length, []) := by
  simp only [decodeLoop, min_eq_right (le_of_lt h), drop_length]
  rw [if_pos (by omega)]

theorem decodeLoop_behind (h : skip ≤ buf.length) :
    decodeLoop (fuel + 1) skip buf = decodeLoop (fuel + 1) 0 (buf.drop skip) := by
  simp only [decodeLoop, min_eq_left h, Nat.sub_self, Nat.zero_min, drop_zero]

/-- **One round of the loop** returns, or takes two bytes at least. If it wants more bytes, it is because the buffer is
shorter than a header with the longest value, or holds nothing. -/
theorem decodeLoop_round (skip : ℕ) (buf : Bytes) :
    (∃ out skip' buf', (out = .more → buf'.length < 65551 ∧ (0 < skip' → buf' = [])) ∧
      ∀ fuel, decodeLoop (fuel + 1) skip buf = some (out, skip', buf')) ∨
    ∃ taken skip', 2 ≤ taken ∧ taken ≤ buf.length ∧
      ∀ fuel, decodeLoop (fuel + 1) skip buf = decodeLoop fuel skip' (buf.drop taken) := by
  by_cases hlt : buf.length < skip
  · exact .inl ⟨.more, _, [], fun _ => ⟨by decide, fun _ => rfl⟩, fun fuel => decodeLoop_inside hlt⟩
  have hle : skip ≤ buf.length := le_of_not_gt hlt
  -- behind the bytes to be skipped, a header is looked for
  have hfront : ∀ fuel, decodeLoop (fuel + 1) skip buf = decodeLoop (fuel + 1) 0 (buf.drop skip) :=
    fun fuel => decodeLoop_behind hle
  have hlen : (buf.drop skip).length = buf.length - skip := length_drop
  simp only [hfront]
  have hmore : ∀ front : Bytes, front.length < 65551 → (∃ out skip' buf',
      (out = Decoded.more → buf'.length < 65551 ∧ (0 < skip' → buf' = [])) ∧
        ∀ fuel : ℕ, some (Decoded.more, 0, front) = some (out, skip', buf')) := fun front hf =>
    ⟨.more, 0, front, fun _ => ⟨hf, fun h => absurd h (lt_irrefl 0)⟩, fun _ => rfl⟩
  simp only [decodeLoop, Nat.zero_min, drop_zero, Nat.sub_self, lt_irrefl, if_false]
  cases hk : Varint.decode (buf.drop skip) with
  | none => exact .inl (hmore _ (by have := Varint.length_lt_of_decode_none hk; omega))
  | some x =>
    obtain ⟨kind, kindLen⟩ := x
    obtain ⟨hkpos, hkle, hk8⟩ := Varint.decode_le hk
    simp only
    cases hl : Varint.decode ((buf.drop skip).drop kindLen) with
    | none =>
      have hshort := Varint.length_lt_of_decode_none hl
      rw [length_drop] at hshort
      exact .inl (hmore _ (by omega))
    | some y =>
      obtain ⟨len, lenLen⟩ := y
      obtain ⟨hlpos, hlle, hl8⟩ := Varint.decode_le hl
      rw [length_drop] at hlle
      have hgo : ∃ taken skip', 2 ≤ taken ∧ taken ≤ buf.length ∧ ∀ fuel,
          decodeLoop fuel len ((buf.drop skip).drop (kindLen + lenLen)) = decodeLoop fuel skip' (buf.drop taken) :=
        ⟨skip + (kindLen + lenLen), len, by omega, by omega, fun fuel => by rw [drop_drop]⟩
      simp only
      split
      · split
        · rename_i hmax
          unfold maxDatagram maxUdpPayload at hmax
          split
          · rename_i hpart
            exact .inl (hmore _ (by omega))
          · exact .inl ⟨_, _, _, fun h => (by cases h), fun _ => rfl⟩
        · cases hc : Varint.decode ((buf.drop skip).drop (kindLen + lenLen)) with
          | none =>
            have hshort := Varint.length_lt_of_decode_none hc
            rw [length_drop] at hshort
            exact .inl (hmore _ (by omega))
          | some z =>
            obtain ⟨context, contextLen⟩ := z
            cases context with
            | zero => exact .inl ⟨_, _, _, fun h => (by cases h), fun _ => rfl⟩
            | succ n => exact .inr hgo
      · exact .inr hgo

theorem decodeLoop_enough {f g : ℕ} (hf : buf.length < f) (hg : buf.length < g) :
    decodeLoop f skip buf = decodeLoop g skip buf := by
  induction f generalizing g skip buf with
  | zero => omega
  | succ f ih =>
    cases g with
    | zero => omega
    | succ g =>
      rcases decodeLoop_round skip buf with ⟨out, skip', buf', -, h⟩ | ⟨taken, skip', h2, hle, h⟩
      · rw [h, h]
      · rw [h, h]
        apply ih <;> rw [length_drop] <;> omega

/-- **A call returns**, and wants more bytes only with few in the buffer. -/
theorem decode_total (skip : ℕ) (buf : Bytes) : ∃ out skip' buf', decode skip buf = some (out, skip', buf') ∧
    (out = .more → buf'.length < 65551 ∧ (0 < skip' → buf' = [])) := by
  have hrun : ∀ (fuel skip : ℕ) (buf : Bytes), buf.length < fuel → ∃ out skip' buf',
      decodeLoop fuel skip buf = some (out, skip', buf') ∧
        (out = .more → buf'.length < 65551 ∧ (0 < skip' → buf' = [])) := by
    intro fuel
    induction fuel with
    | zero => exact fun _ _ h => absurd h (Nat.not_lt_zero _)
    | succ fuel ih =>
      intro skip buf hlen
      rcases decodeLoop_round skip buf with ⟨out, skip', buf', hb, h⟩ | ⟨taken, skip', h2, hle, h⟩
      · exact ⟨out, skip', buf', h fuel, hb⟩
      · rw [h]
        exact ih skip' _ (by rw [length_drop]; omega)
  exact hrun _ skip buf (Nat.lt_succ_self _)

theorem decode_behind (h : skip ≤ buf.length) : decode skip buf = decode 0 (buf.drop skip) := by
  rw [decode, decodeLoop_behind h, decode]
  exact decodeLoop_enough (by rw [length_drop]; omega) (Nat.lt_succ_self _)

theorem decode_skip {rest : Bytes} (hrest : rest <+: c.value ++ after) (hf : c.fate = .skip)
    (hn : c.needs ≤ (c.header ++ rest).length) : decode 0 (c.header ++ rest) = decode c.value.length rest := by
  have hgo := ((decodeLoop_front (c.header ++ rest).length hrest).2 hn).2.2 hf
  rw [decode, hgo, decode]
  have hheader := header_pos c
  exact decodeLoop_enough (by rw [length_append]; omega) (Nat.lt_succ_self _)

/-- **Where the decoder is in a capsule that it skips**, of which `seen` has arrived: it waits for what tells of the
capsule, or keeps nothing of it and counts down. -/
def Within (c : Capsule) (seen : Bytes) (skip : ℕ) (buf : Bytes) : Prop :=
  skip = 0 ∧ buf = seen ∧ seen.length < c.needs ∨
    0 < skip ∧ buf = [] ∧ c.header.length ≤ seen.length ∧ seen.length + skip = c.bytes.length

theorem within_start (c : Capsule) : Within c [] 0 [] :=
  .inl ⟨rfl, rfl, lt_of_lt_of_le (header_pos c) (header_le_needs c)⟩

/-- **A piece of the stream**, inside a capsule that is skipped or across its end. -/
theorem Within.step {seen chunk : Bytes} (h : Within c seen skip buf) (hf : c.fate = .skip)
    (harr : seen ++ chunk <+: c.bytes ++ after) :
    ((seen ++ chunk).length < c.bytes.length →
      ∃ skip' buf', decode skip (buf ++ chunk) = some (.more, skip', buf') ∧ Within c (seen ++ chunk) skip' buf') ∧
    (c.bytes.length ≤ (seen ++ chunk).length →
      decode skip (buf ++ chunk) = decode 0 ((seen ++ chunk).drop c.bytes.length)) := by
  have hbytes := length_bytes c
  rcases h with ⟨rfl, rfl, -⟩ | ⟨hpos, rfl, hheader, hskip⟩
  · generalize buf ++ chunk = t at harr ⊢
    rw [bytes, append_assoc] at harr
    rcases prefix_cases harr with ⟨hlt, hpre⟩ | ⟨rest, rfl, hrest⟩
    · refine ⟨fun _ => ⟨0, t, decodeLoop_header hpre hlt, .inl ⟨rfl, rfl, ?_⟩⟩, fun hle => by omega⟩
      exact lt_of_lt_of_le hlt (header_le_needs c)
    by_cases hn : (c.header ++ rest).length < c.needs
    · refine ⟨fun _ => ⟨0, _, (decodeLoop_front _ hrest).1 hn, .inl ⟨rfl, rfl, hn⟩⟩, fun hle => ?_⟩
      have := needs_le c
      omega
    rw [decode_skip hrest hf (le_of_not_gt hn), length_append]
    refine ⟨fun hlt => ⟨_, [], decodeLoop_inside (by omega), .inr ⟨by omega, rfl, ?_, ?_⟩⟩, fun hle => ?_⟩
    · rw [length_append]
      omega
    · rw [length_append]
      omega
    · rw [decode_behind (by omega), hbytes, ← drop_drop, drop_left]
  · rw [nil_append, length_append]
    refine ⟨fun hlt => ⟨_, [], decodeLoop_inside (by omega), .inr ⟨by omega, rfl, ?_, ?_⟩⟩, fun hle => ?_⟩
    · rw [length_append]
      omega
    · rw [length_append]
      omega
    · rw [decode_behind (by omega), ← hskip, ← drop_drop, drop_left]

def feedMore : ℕ × Bytes → List Bytes → Option (ℕ × Bytes)
  | s, [] => some s
  | s, chunk :: chunks =>
    match decode s.1 (s.2 ++ chunk) with
    | some (.more, skip, buf) => feedMore (skip, buf) chunks
    | _ => none

theorem Within.run (hf : c.fate = .skip) (chunks : List Bytes) : ∀ {seen buf : Bytes} {skip : ℕ},
    Within c seen skip buf → seen ++ chunks.flatten <+: c.bytes → (seen ++ chunks.flatten).length < c.bytes.length →
    ∃ skip' buf', feedMore (skip, buf) chunks = some (skip', buf') ∧
      Within c (seen ++ chunks.flatten) skip' buf' := by
  induction chunks with
  | nil =>
    intro seen buf skip h _ _
    exact ⟨skip, buf, rfl, by rw [flatten_nil, append_nil]; exact h⟩
  | cons chunk chunks ih =>
    intro seen buf skip h harr hlt
    rw [flatten_cons, ← append_assoc] at harr hlt ⊢
    have harr' : seen ++ chunk <+: c.bytes ++ [] := by
      rw [append_nil]
      exact (prefix_append _ _).trans harr
    obtain ⟨skip₁, buf₁, hd, h₁⟩ := (h.step hf harr').1 (by rw [length_append] at hlt; omega)
    rw [feedMore, hd]
    exact ih h₁ harr hlt

theorem needs_skip_le (hf : c.fate = .skip) : c.needs ≤ 24 := by
  have hlen : ∀ form : Varint.Form, form.length ≤ 8 := by
    intro form
    cases form <;> decide
  have hheader : c.header.length ≤ 16 := by
    have hk := hlen c.kindForm
    have hl := hlen c.lenForm
    rw [length_header]
    omega
  unfold needs
  split
  · omega
  · rename_i hk
    have hlong : ¬c.value.length ≤ maxDatagram := by
      intro hle
      rw [fate, if_neg hk, if_pos hle] at hf
      cases hf
    obtain ⟨context, len, hc⟩ := decode_context (lt_of_not_ge hlong)
    have h8 := (Varint.decode_le hc).2.2
    rw [toldBy, if_neg hlong, hc]
    show c.header.length + len ≤ 24
    omega

/-- **Decoding takes little memory and always goes on.** A call returns; if it wants more bytes, fewer than 65551 are in
the buffer. Each round of its loop returns or takes two bytes at least. Of a capsule of another type, or of a context
that is not for UDP and too long, whatever its length and in whatever pieces it comes, nothing is kept once its header
and the Context ID have arrived, and the decoder is then at the capsule behind it. -/
theorem decode_bounded :
    (∀ skip buf, ∃ out skip' buf', decode skip buf = some (out, skip', buf') ∧
      (out = .more → buf'.length < 65551)) ∧
    (∀ skip buf, (∃ x, ∀ fuel, decodeLoop (fuel + 1) skip buf = some x) ∨
      ∃ taken skip', 2 ≤ taken ∧ taken ≤ buf.length ∧
        ∀ fuel, decodeLoop (fuel + 1) skip buf = decodeLoop fuel skip' (buf.drop taken)) ∧
    ∀ c : Capsule, (c.kind ≠ datagram ∨ maxDatagram < c.value.length ∧ c.udp = none) →
      ∀ chunks : List Bytes, chunks.flatten <+: c.bytes → chunks.flatten.length < c.bytes.length →
      ∃ skip buf, feedMore (0, []) chunks = some (skip, buf) ∧ buf.length < 24 ∧
        (c.needs ≤ chunks.flatten.length → buf = [] ∧ chunks.flatten.length + skip = c.bytes.length) ∧
        ∀ chunk rest, chunks.flatten ++ chunk = c.bytes ++ rest → decode skip (buf ++ chunk) = decode 0 rest := by
  refine ⟨fun skip buf => ?_, fun skip buf => ?_, fun c hc chunks harr hlt => ?_⟩
  · obtain ⟨out, skip', buf', hd, hb⟩ := decode_total skip buf
    exact ⟨out, skip', buf', hd, fun hm => (hb hm).1⟩
  · rcases decodeLoop_round skip buf with ⟨out, skip', buf', -, h⟩ | h
    · exact .inl ⟨_, h⟩
    · exact .inr h
  · have hf : c.fate = .skip := by
      unfold fate
      rcases hc with hk | ⟨hlong, hudp⟩
      · exact if_pos hk
      · rw [if_neg (not_le.2 hlong), hudp]
        split <;> rfl
    have hneeds := needs_skip_le hf
    obtain ⟨skip, buf, hfeed, hw⟩ := Within.run hf chunks (within_start c) harr hlt
    rw [nil_append] at hw
    refine ⟨skip, buf, hfeed, ?_, fun hle => ?_, fun chunk rest heq => ?_⟩
    · rcases hw with ⟨-, rfl, h⟩ | ⟨-, rfl, -, -⟩
      · omega
      · exact Nat.succ_pos _
    · rcases hw with ⟨-, -, h⟩ | ⟨-, hb, -, hskip⟩
      · omega
      · exact ⟨hb, hskip⟩
    · have hpre : chunks.flatten ++ chunk <+: c.bytes ++ rest := ⟨[], by rw [append_nil, heq]⟩
      have hbehind := (hw.step hf hpre).2 (by rw [heq, length_append]; omega)
      rw [hbehind, heq, drop_left]

end Front

/-! ## Where the receiver stands -/

/-- Of the capsules `cs`, the bytes `seen` and then those in the buffer have arrived. What
was seen is nothing, or the start of a capsule that is being skipped. -/
structure At (seen : Bytes) (skip : ℕ) (buf : Bytes) (cs : List Capsule) : Prop where
  arrived : seen ++ buf <+: wire cs
  inside : (skip = 0 ∧ seen = []) ∨
    (0 < skip ∧ ∃ c rest, cs = c :: rest ∧ c.fate = .skip ∧ c.header.length ≤ seen.length ∧
      seen.length + skip = c.bytes.length)

/-- The first capsule has not arrived, and is not known to be oversized. -/
def Short (arrived : ℕ) (cs : List Capsule) : Prop :=
  ∀ c rest, cs = c :: rest → arrived < c.bytes.length ∧ (c.oversized = true → arrived < c.toldBy)

/-- **What has become of the bytes `fed` of the capsules `cs`**, with some payloads given
before: some capsules are done, and the next one is awaited or refused. -/
inductive Outcome (given : List Bytes) (cs : List Capsule) (fed : Bytes) (r : Receiver) : Prop
  | waiting (done rest : List Capsule) (seen : Bytes) : cs = done ++ rest → (∀ c ∈ done, c.oversized = false) →
      fed = wire done ++ (seen ++ r.buf) → At seen r.skip r.buf rest → Short (seen ++ r.buf).length rest →
      r.payloads = given ++ done.filterMap payload → r.failed = false → Outcome given cs fed r
  | refused (done : List Capsule) (c : Capsule) (rest : List Capsule) : cs = done ++ c :: rest →
      (∀ c ∈ done, c.oversized = false) → c.oversized = true → (wire done).length + c.toldBy ≤ fed.length →
      r.payloads = given ++ done.filterMap payload → r.failed = true → Outcome given cs fed r

section Classes

variable {c : Capsule}

theorem kind_of_udp (h : c.udp ≠ none) : c.kind = datagram := by
  by_contra hk
  exact h (if_neg hk)

theorem oversized_udp (h : c.oversized = true) : ∃ payload, c.udp = some payload ∧ maxUdpPayload < payload.length := by
  unfold oversized at h
  cases hu : c.udp with
  | none => rw [hu] at h; cases h
  | some payload => exact ⟨payload, rfl, by simpa [hu] using h⟩

theorem needs_of_oversized (h : c.oversized = true) : c.needs = c.toldBy := by
  obtain ⟨payload, hu, -⟩ := oversized_udp h
  exact if_neg (by simp [kind_of_udp (by rw [hu]; nofun)])

theorem fate_skip (h : c.fate = .skip) : c.udp = none := by
  unfold fate at h
  split at h
  · rename_i hk
    exact if_neg hk
  split at h
  · cases h
  split at h
  · cases h
  · rename_i hu
    simpa using hu

theorem fate_refuse (h : c.fate = .refuse) : c.oversized = true := by
  unfold fate at h
  split at h
  · cases h
  rename_i hk
  split at h
  · cases h
  rename_i hlong
  split at h
  · rename_i hu
    -- the Context ID takes eight bytes at most
    obtain ⟨context, len, hc⟩ := decode_context (lt_of_not_ge hlong)
    have hlen := (Varint.decode_le hc).2.2
    rw [udp, if_pos (by simpa using hk), hc] at hu
    cases context with
    | succ n => cases hu
    | zero =>
      have hdrop : maxUdpPayload < (c.value.drop len).length := by
        rw [length_drop]
        unfold maxDatagram at hlong
        omega
      rw [oversized, udp, if_pos (by simpa using hk), hc]
      simpa using hdrop
  · cases h

theorem fate_deliver (h : c.fate = .deliver) : c.kind = datagram ∧ c.needs = c.bytes.length := by
  unfold fate at h
  split at h
  · cases h
  rename_i hk
  split at h
  · rename_i hb
    exact ⟨by simpa using hk, by rw [needs, if_neg hk, toldBy, if_pos hb]⟩
  split at h <;> cases h

theorem udpPayload_value (hk : c.kind = datagram) :
    udpPayload c.value = if c.oversized then .malformed else c.payload.elim .dropped .payload := by
  unfold udpPayload oversized payload udp
  rw [if_pos hk]
  cases Varint.decode c.value with
  | none => rfl
  | some x =>
    obtain ⟨context, len⟩ := x
    cases context with
    | succ n => rfl
    | zero =>
      simp only [ne_eq, not_true_eq_false, if_false, Option.any_some, decide_eq_true_eq]
      generalize c.value.drop len = p
      by_cases hlen : maxUdpPayload < p.length
      · simp [hlen]
      · have hle : p.length ≤ maxUdpPayload := le_of_not_gt hlen
        simp [hlen, Option.filter, hle]

end Classes

/-! ## Receiving -/

section Receiving

variable {c : Capsule} {cs : List Capsule} {given : List Bytes} {fed buf seen : Bytes} {r : Receiver} {fuel skip : ℕ}

theorem payloads_cons (given : List Bytes) (c : Capsule) (done : List Capsule) :
    given ++ (c :: done).filterMap payload = given ++ c.payload.toList ++ done.filterMap payload := by
  cases hpay : c.payload with
  | none => rw [filterMap_cons_none hpay]; simp
  | some p => rw [filterMap_cons_some hpay]; simp

theorem Outcome.cons (h : Outcome (given ++ c.payload.toList) cs fed r) (hc : c.oversized = false) :
    Outcome given (c :: cs) (c.bytes ++ fed) r := by
  have hall : ∀ done : List Capsule, (∀ d ∈ done, d.oversized = false) → ∀ d ∈ c :: done, d.oversized = false :=
    fun done hd => forall_mem_cons.2 ⟨hc, hd⟩
  cases h with
  | waiting done rest seen hcs hd hfed hat hs hpay hf =>
    exact .waiting (c :: done) rest seen (by rw [hcs]; rfl) (hall done hd) (by rw [hfed, wire_cons, append_assoc])
      hat hs (by rw [hpay, payloads_cons]) hf
  | refused done d rest hcs hd ho hle hpay hf =>
    refine .refused (c :: done) d rest (by rw [hcs]; rfl) (hall done hd) ho ?_ (by rw [hpay, payloads_cons]) hf
    rw [wire_cons, length_append, length_append]
    omega

variable {buf' : Bytes} {skip' : ℕ}

theorem Outcome.wait {seen' : Bytes} (hat : At seen' skip' buf' cs) (hfed : fed = seen' ++ buf')
    (hs : Short fed.length cs) : Outcome given cs fed ⟨skip', buf', given, false⟩ :=
  .waiting [] cs seen' rfl nofun hfed hat (hfed ▸ hs) (append_nil _).symm rfl

theorem Outcome.refuse (ho : c.oversized = true) (hle : c.toldBy ≤ fed.length) :
    Outcome given (c :: cs) fed ⟨skip, buf, given, true⟩ :=
  .refused [] c cs rfl nofun ho (by simpa [wire] using hle) (append_nil _).symm rfl

theorem short_cons (h : fed.length < c.needs) : Short fed.length (c :: cs) := by
  intro d rest heq
  injection heq with hd _
  subst hd
  refine ⟨lt_of_lt_of_le h (needs_le c), fun ho => ?_⟩
  rw [← needs_of_oversized ho]
  exact h

theorem short_skip (hf : c.fate = .skip) (h : fed.length < c.bytes.length) : Short fed.length (c :: cs) := by
  intro d rest heq
  injection heq with hd _
  subst hd
  refine ⟨h, fun ho => ?_⟩
  obtain ⟨payload, hu, -⟩ := oversized_udp ho
  rw [fate_skip hf] at hu
  cases hu

theorem drain_more (h : decode skip buf = some (.more, skip', buf')) :
    Receiver.drain (fuel + 1) ⟨skip, buf, given, false⟩ = some ⟨skip', buf', given, false⟩ := by
  simp only [Receiver.drain, h]

theorem drain_malformed (h : decode skip buf = some (.malformed, skip', buf')) :
    Receiver.drain (fuel + 1) ⟨skip, buf, given, false⟩ = some ⟨skip', buf', given, true⟩ := by
  simp only [Receiver.drain, h]

theorem drain_behind (h : decode skip buf = decode skip' buf') :
    Receiver.drain (fuel + 1) ⟨skip, buf, given, false⟩ = Receiver.drain (fuel + 1) ⟨skip', buf', given, false⟩ := by
  simp only [Receiver.drain, h]

theorem drain_value (hk : c.kind = datagram) (h : decode skip buf = some (.value c.value, 0, buf')) :
    Receiver.drain (fuel + 1) ⟨skip, buf, given, false⟩ =
      if c.oversized then some ⟨0, buf', given, true⟩
      else Receiver.drain fuel ⟨0, buf', given ++ c.payload.toList, false⟩ := by
  simp only [Receiver.drain, h, udpPayload_value hk]
  cases c.oversized with
  | true => rfl
  | false =>
    cases c.payload with
    | none => simp
    | some p => rfl

theorem arrived_cons (h : fed <+: wire (c :: cs)) (hlen : c.bytes.length ≤ fed.length) :
    fed = c.bytes ++ fed.drop c.bytes.length ∧ fed.drop c.bytes.length <+: wire cs := by
  rw [wire_cons] at h
  rcases prefix_cases h with ⟨hlt, -⟩ | ⟨rest, rfl, hrest⟩
  · omega
  · rw [drop_left]
    exact ⟨rfl, hrest⟩

/-- Once the first capsule is done, draining goes on behind it. -/
def Continues (c : Capsule) (cs : List Capsule) : Prop :=
  ∀ (given : List Bytes) (fuel : ℕ) (rest : Bytes), rest <+: wire cs → rest.length < fuel → c.oversized = false →
    ∃ r, Receiver.drain fuel ⟨0, rest, given ++ c.payload.toList, false⟩ = some r ∧
      Outcome given (c :: cs) (c.bytes ++ rest) r

theorem Continues.skipped {rest : Bytes} (h : Continues c cs) (fuel : ℕ) (given : List Bytes) (hf : c.fate = .skip)
    (hrest : rest <+: wire cs) (hlen : rest.length < fuel) :
    ∃ r, Receiver.drain fuel ⟨0, rest, given, false⟩ = some r ∧ Outcome given (c :: cs) (c.bytes ++ rest) r := by
  have hudp := fate_skip hf
  obtain ⟨r, hr, ho⟩ := h given fuel rest hrest hlen (by rw [oversized, hudp]; rfl)
  rw [payload, hudp, filter_none, toList_none, append_nil] at hr
  exact ⟨r, hr, ho⟩

theorem drain_within (given : List Bytes) (hnext : Continues c cs) (h : Within c seen skip buf') (hf : c.fate = .skip)
    (harr : seen ++ buf <+: wire (c :: cs)) (hfuel : (buf' ++ buf).length < fuel + 1) :
    ∃ r, Receiver.drain (fuel + 1) ⟨skip, buf' ++ buf, given, false⟩ = some r ∧
      Outcome given (c :: cs) (seen ++ buf) r := by
  have harr' := harr
  rw [wire_cons] at harr'
  obtain ⟨hmore, hbehind⟩ := h.step hf harr'
  by_cases hlt : (seen ++ buf).length < c.bytes.length
  · obtain ⟨skip', left, hd, hw⟩ := hmore hlt
    refine ⟨_, drain_more hd, ?_⟩
    rcases hw with ⟨rfl, rfl, -⟩ | ⟨hpos, rfl, hheader, hskip⟩
    · have hat : At [] 0 (seen ++ buf) (c :: cs) := ⟨harr, .inl ⟨rfl, rfl⟩⟩
      exact .wait hat rfl (short_skip hf hlt)
    · exact .wait ⟨by rw [append_nil]; exact harr, .inr ⟨hpos, c, cs, rfl, hf, hheader, hskip⟩⟩
        (append_nil _).symm (short_skip hf hlt)
  · have hle := le_of_not_gt hlt
    obtain ⟨hsplit, hrest⟩ := arrived_cons harr hle
    have hlen : ((seen ++ buf).drop c.bytes.length).length < fuel + 1 := by
      rw [length_append] at hfuel
      rw [length_drop, length_append]
      rcases h with ⟨-, rfl, -⟩ | ⟨-, -, -, hskip⟩ <;> omega
    obtain ⟨r, hr, ho⟩ := hnext.skipped (fuel + 1) given hf hrest hlen
    exact ⟨r, by rw [drain_behind (hbehind hle), hr], by rw [hsplit]; exact ho⟩

theorem drain_start (hnext : Continues c cs) (harr : buf <+: wire (c :: cs)) (hfuel : buf.length < fuel + 1) :
    ∃ r, Receiver.drain (fuel + 1) ⟨0, buf, given, false⟩ = some r ∧ Outcome given (c :: cs) buf r := by
  have hat : At [] 0 buf (c :: cs) := ⟨harr, .inl ⟨rfl, rfl⟩⟩
  have hsplit := arrived_cons harr
  rw [wire_cons, bytes, append_assoc] at harr
  rcases prefix_cases harr with ⟨hlt, hpre⟩ | ⟨rest, rfl, hrest⟩
  · exact ⟨_, drain_more (decodeLoop_header hpre hlt), .wait hat rfl
      (short_cons (lt_of_lt_of_le hlt (header_le_needs c)))⟩
  obtain ⟨hmore, hgo⟩ := decodeLoop_front (c.header ++ rest).length hrest
  have hbehind : (c.header ++ rest).drop c.bytes.length = rest.drop c.value.length := by
    rw [length_bytes, ← drop_drop, drop_left]
  rw [hbehind] at hsplit
  by_cases hn : (c.header ++ rest).length < c.needs
  · exact ⟨_, drain_more (hmore hn), .wait hat rfl (short_cons hn)⟩
  have hneeds := le_of_not_gt hn
  obtain ⟨hdeliver, hrefuse, -⟩ := hgo hneeds
  cases hf : c.fate with
  | deliver =>
    obtain ⟨hk, hall⟩ := fate_deliver hf
    obtain ⟨hbuf, hrest'⟩ := hsplit (by omega)
    rw [drain_value hk (hdeliver hf)]
    cases hov : c.oversized with
    | true => exact ⟨_, rfl, .refuse hov (by rw [← needs_of_oversized hov]; exact hneeds)⟩
    | false =>
      have hlen := congrArg List.length hbuf
      have hpos := header_pos c
      rw [length_append, length_append, length_bytes] at hlen
      rw [length_append] at hfuel
      obtain ⟨r, hr, ho⟩ := hnext given fuel _ hrest' (by omega) hov
      exact ⟨r, hr, by rw [hbuf]; exact ho⟩
  | refuse =>
    have hov := fate_refuse hf
    exact ⟨_, drain_malformed (hrefuse hf), .refuse hov (by rw [← needs_of_oversized hov]; exact hneeds)⟩
  | skip =>
    have hdrain := drain_within given hnext (within_start c) hf hat.arrived hfuel
    exact hdrain

/-- **Draining the buffer** brings the receiver to where the next capsule is awaited, or
to the first one that is refused. -/
theorem drain_outcome (given : List Bytes) (hat : At seen skip buf cs) (hfuel : buf.length < fuel) :
    ∃ r, Receiver.drain fuel ⟨skip, buf, given, false⟩ = some r ∧ Outcome given cs (seen ++ buf) r := by
  obtain ⟨fuel, rfl⟩ := Nat.exists_eq_add_one_of_ne_zero (Nat.ne_of_gt (lt_of_le_of_lt (Nat.zero_le _) hfuel))
  induction cs generalizing seen skip buf given fuel with
  | nil =>
    obtain ⟨harr, hin⟩ := hat
    obtain ⟨rfl, rfl⟩ := append_eq_nil_iff.1 (prefix_nil.1 harr)
    rcases hin with ⟨rfl, -⟩ | ⟨-, c, rest, hcs, -⟩
    · have hat : At [] 0 [] [] := ⟨ nil_prefix, .inl ⟨rfl, rfl⟩⟩
      exact ⟨_, drain_more rfl, .wait hat rfl nofun⟩
    · cases hcs
  | cons c cs ih =>
    have hnext : Continues c cs := by
      intro given fuel rest hrest hlt hov
      obtain ⟨fuel, rfl⟩ := Nat.exists_eq_add_one_of_ne_zero (Nat.ne_of_gt (lt_of_le_of_lt (Nat.zero_le _) hlt))
      have hat : At [] 0 rest cs := ⟨hrest, .inl ⟨rfl, rfl⟩⟩
      obtain ⟨r, hr, ho⟩ := ih (given ++ c.payload.toList) hat fuel hlt
      exact ⟨r, hr, Outcome.cons ho hov⟩
    obtain ⟨harr, hin⟩ := hat
    rcases hin with ⟨rfl, rfl⟩ | ⟨hpos, d, rest, hcs, hfate, hheader, hskip⟩
    · exact drain_start hnext harr hfuel
    · injection hcs with hd hr
      subst hd hr
      exact drain_within given hnext (.inr ⟨hpos, rfl, hheader, hskip⟩) hfate harr hfuel

theorem Outcome.behind {done rest : List Capsule} (hd : ∀ c ∈ done, c.oversized = false) {given : List Bytes}
    (h : Outcome (given ++ done.filterMap payload) rest fed r) : Outcome given (done ++ rest) (wire done ++ fed) r := by
  induction done generalizing given with
  | nil => simpa [wire] using h
  | cons c done ih =>
    obtain ⟨hc, hd⟩ := forall_mem_cons.1 hd
    rw [payloads_cons] at h
    rw [wire_cons, append_assoc]
    exact (ih hd h).cons hc

theorem feed_outcome {chunk : Bytes} (h : Outcome [] cs fed r) (hfed : fed ++ chunk <+: wire cs) :
    ∃ r', r.feed chunk = some r' ∧ Outcome [] cs (fed ++ chunk) r' := by
  cases h with
  | refused done c rest hcs hd ho hle hpay hf =>
    refine ⟨r, if_pos hf, .refused done c rest hcs hd ho ?_ hpay hf⟩
    rw [length_append]
    omega
  | waiting done rest seen hcs hd hfed' hat hs hpay hf =>
    obtain ⟨skip, buf, payloads, failed⟩ := r
    subst hf hpay hfed' hcs
    have hat' : At seen skip (buf ++ chunk) rest := by
      refine ⟨?_, hat.inside⟩
      rw [wire_append, append_assoc, append_assoc, prefix_append_right_inj] at hfed
      exact hfed
    obtain ⟨r', hr, ho⟩ := drain_outcome ([] ++ done.filterMap payload) hat' (Nat.lt_succ_self _)
    refine ⟨r', hr, ?_⟩
    have := ho.behind hd
    rw [append_assoc, append_assoc]
    exact this

theorem feedAll_outcome {chunks : List Bytes} (h : Outcome [] cs fed r) (hfed : fed ++ chunks.flatten <+: wire cs) :
    ∃ r', r.feedAll chunks = some r' ∧ Outcome [] cs (fed ++ chunks.flatten) r' := by
  induction chunks generalizing fed r with
  | nil => exact ⟨r, rfl, by simpa using h⟩
  | cons chunk chunks ih =>
    rw [flatten_cons, ← append_assoc] at hfed ⊢
    obtain ⟨r₁, hr₁, h₁⟩ := feed_outcome h ((prefix_append _ _).trans hfed)
    obtain ⟨r', hr', h'⟩ := ih h₁ hfed
    exact ⟨r', by rw [Receiver.feedAll, hr₁, bind_some, hr'], h'⟩

theorem Short.not_told {done rest before after : List Capsule} {arrived : ℕ} (hs : Short arrived rest)
    (hd : ∀ c ∈ done, c.oversized = false) (heq : done ++ rest = before ++ c :: after) (ho : c.oversized = true) :
    (wire done).length + arrived < (wire before).length + c.toldBy := by
  rcases append_eq_append_iff.1 heq with ⟨mid, hb, hr⟩ | ⟨mid, hdone, hr⟩
  · cases mid with
    | nil =>
      rw [hb, append_nil]
      exact Nat.add_lt_add_left ((hs c after hr).2 ho) _
    | cons d mid =>
      have hlt := (hs d _ hr).1
      rw [hb, wire_append, wire_cons, length_append, length_append]
      omega
  · cases mid with
    | nil =>
      rw [hdone, append_nil]
      exact Nat.add_lt_add_left ((hs c after hr.symm).2 ho) _
    | cons d mid =>
      injection hr with hcd _
      have := hd c (by rw [hdone, hcd]; simp)
      rw [ho] at this
      cases this

theorem At.partial_iff (h : At seen skip buf cs) : isPartial skip buf = true ↔ seen ++ buf ≠ [] := by
  unfold isPartial
  rcases h.inside with ⟨rfl, rfl⟩ | ⟨hpos, c, rest, -, -, hheader, -⟩
  · simp
  · have hseen : seen ≠ [] := length_pos_iff.1 (lt_of_lt_of_le (header_pos c) hheader)
    simp [hpos, hseen]

end Receiving

def ofPayload (payload : Bytes) (h : payload.length ≤ maxUdpPayload) : Capsule where
  kind := datagram
  kindForm := Varint.shortest datagram
  value := 0 :: payload
  lenForm := Varint.shortest (payload.length + 1)
  kind_lt := by decide
  len_lt := Varint.lt_limit_shortest (by
    unfold maxUdpPayload at h
    rw [length_cons]
    omega)

section

variable (p : Bytes) (h : p.length ≤ maxUdpPayload)

include p h

theorem ofPayload_bytes : (ofPayload p h).bytes = encodeDatagram p := by
  rw [encodeDatagram, Varint.encode_shortest, Varint.encode_shortest]
  rfl

theorem ofPayload_udp : (ofPayload p h).udp = some p := rfl

theorem ofPayload_payload : (ofPayload p h).payload = some p := by
  rw [payload, ofPayload_udp, filter_some, if_pos (by simpa using h)]

theorem ofPayload_oversized : (ofPayload p h).oversized = false := by
  rw [oversized, ofPayload_udp, any_some]
  simpa using h

end

theorem exists_ofPayloads {payloads : List Bytes} (h : ∀ p ∈ payloads, p.length ≤ maxUdpPayload) :
    ∃ cs, wire cs = payloads.flatMap encodeDatagram ∧ cs.filterMap payload = payloads ∧
      ∀ c ∈ cs, c.oversized = false := by
  induction payloads with
  | nil => exact ⟨[], rfl, rfl, nofun⟩
  | cons p payloads ih =>
    obtain ⟨hp, h⟩ := forall_mem_cons.1 h
    obtain ⟨cs, hw, hpay, hov⟩ := ih h
    refine ⟨ofPayload p hp :: cs, ?_, ?_, forall_mem_cons.2 ⟨ofPayload_oversized p hp, hov⟩⟩
    · rw [wire_cons, ofPayload_bytes, hw, flatMap_cons]
    · rw [filterMap_cons_some (ofPayload_payload p hp), hpay]

/-! ## The whole stream -/

/-- An oversized capsule is among them, and enough of it has arrived. -/
def Told (cs : List Capsule) (arrived : ℕ) : Prop :=
  ∃ before c after, cs = before ++ c :: after ∧ c.oversized = true ∧ (wire before).length + c.toldBy ≤ arrived

/-- **What has become of a stream fed in pieces.** -/
theorem feedAll_new {cs : List Capsule} {chunks : List Bytes} (h : chunks.flatten <+: wire cs) :
    ∃ r, Receiver.new.feedAll chunks = some r ∧ Outcome [] cs chunks.flatten r := by
  have hstart : Outcome [] cs [] Receiver.new :=
    .wait ⟨ nil_prefix, .inl ⟨rfl, rfl⟩⟩ rfl fun c rest _ =>
      ⟨lt_of_lt_of_le (header_pos c) (by rw [length_bytes]; exact Nat.le_add_right _ _),
        fun _ => lt_of_lt_of_le (header_pos c) (header_le_toldBy c)⟩
  exact feedAll_outcome hstart h

theorem Outcome.failed_iff {cs : List Capsule} {fed : Bytes} {r : Receiver} (h : Outcome [] cs fed r) :
    r.failed = true ↔ Told cs fed.length := by
  cases h with
  | refused done c rest hcs hd ho hle hpay hf => exact ⟨fun _ => ⟨done, c, rest, hcs, ho, hle⟩, fun _ => hf⟩
  | waiting done rest seen hcs hd hfed hat hs hpay hf =>
    refine ⟨fun h => absurd (hf.symm.trans h) nofun, fun ⟨before, c, after, heq, ho, hle⟩ => ?_⟩
    have hlt := hs.not_told hd (hcs.symm.trans heq) ho
    rw [hfed, length_append] at hle
    omega

/-- **Capsules are received exactly.** Of any capsules, any part has been fed in any
pieces. The receiver has failed exactly if enough of an oversized capsule has arrived, and
has then delivered the payloads before the first such one. If not, it has delivered those
of the capsules that are complete, and is inside a capsule exactly if the cut is. In
particular payloads that were encoded come back. -/
theorem capsules_exact (cs : List Capsule) (chunks : List Bytes) (h : chunks.flatten <+: wire cs) :
    (∃ r, Receiver.new.feedAll chunks = some r ∧
      (r.failed = true ↔ Told cs chunks.flatten.length) ∧
      (r.failed = true → ∃ before c after, cs = before ++ c :: after ∧ (∀ b ∈ before, b.oversized = false) ∧
        c.oversized = true ∧ (wire before).length + c.toldBy ≤ chunks.flatten.length ∧
        r.payloads = before.filterMap payload) ∧
      (r.failed = false → ∃ done rest, cs = done ++ rest ∧ wire done <+: chunks.flatten ∧
        (∀ c after, rest = c :: after → chunks.flatten.length < (wire done).length + c.bytes.length) ∧
        r.payloads = done.filterMap payload ∧ (isPartial r.skip r.buf = true ↔ chunks.flatten ≠ wire done))) ∧
    ∀ (payloads pieces : List Bytes), (∀ p ∈ payloads, p.length ≤ maxUdpPayload) →
      pieces.flatten = payloads.flatMap encodeDatagram →
      ∃ r, Receiver.new.feedAll pieces = some r ∧ r.payloads = payloads ∧ r.failed = false ∧
        isPartial r.skip r.buf = false := by
  constructor
  · obtain ⟨r, hr, ho⟩ := feedAll_new h
    refine ⟨r, hr, ho.failed_iff, fun hf => ?_, fun hf => ?_⟩
    · cases ho with
      | refused done c rest hcs hd ho hle hpay _ => exact ⟨done, c, rest, hcs, hd, ho, hle, hpay⟩
      | waiting _ _ _ _ _ _ _ _ _ hf' => exact absurd (hf'.symm.trans hf) nofun
    · cases ho with
      | refused _ _ _ _ _ _ _ _ hf' => exact absurd (hf'.symm.trans hf) nofun
      | waiting done rest seen hcs hd hfed hat hs hpay _ =>
        refine ⟨done, rest, hcs, hfed ▸ prefix_append _ _, fun c after hr => ?_, hpay, ?_⟩
        · rw [hfed, length_append]
          exact Nat.add_lt_add_left (hs c after hr).1 _
        · rw [hat.partial_iff, hfed, ne_eq, ne_eq, append_right_eq_self]
  · intro payloads pieces hp hpieces
    obtain ⟨cs, hw, hpay, hov⟩ := exists_ofPayloads hp
    rw [← hw] at hpieces
    have hfed : pieces.flatten <+: wire cs := ⟨[], by rw [append_nil, hpieces]⟩
    obtain ⟨r, hr, ho⟩ := feedAll_new hfed
    refine ⟨r, hr, ?_⟩
    cases ho with
    | refused done c rest hcs _ ho =>
      rw [hov c (by rw [hcs]; simp)] at ho
      cases ho
    | waiting done rest seen hcs hd hfed hat hs hpays hf =>
      have hrest : wire rest = seen ++ r.buf := by
        rw [hpieces, hcs, wire_append] at hfed
        exact append_cancel_left hfed
      -- all of the capsules are complete
      cases rest with
      | cons c rest =>
        have hlt := (hs c rest rfl).1
        rw [← hrest, wire_cons, length_append] at hlt
        omega
      | nil =>
        rw [append_nil] at hcs
        have hpart := hat.partial_iff
        rw [← hrest] at hpart
        exact ⟨by rw [hpays, ← hcs, hpay]; rfl, hf, by simpa [wire] using hpart⟩

/-- An unknown capsule with its numbers in long forms, and a datagram. -/
def sampleCapsules : List Capsule :=
  [⟨0x17, .four, [1, 2, 3], .two, by decide, by decide⟩, ofPayload [4, 5] (by decide)]

theorem capsules_exact_cut :
    ∃ r, Receiver.new.feedAll [[0x80, 0, 0], [0x17, 0x40, 3, 1], [2, 3, 0, 3, 0, 4]] = some r ∧
      (r.failed = true ↔ Told sampleCapsules 13) ∧
      (r.failed = true → ∃ before c after, sampleCapsules = before ++ c :: after ∧
        (∀ b ∈ before, b.oversized = false) ∧ c.oversized = true ∧ (wire before).length + c.toldBy ≤ 13 ∧
        r.payloads = before.filterMap payload) ∧
      (r.failed = false → ∃ done rest, sampleCapsules = done ++ rest ∧
        wire done <+: [0x80, 0, 0, 0x17, 0x40, 3, 1, 2, 3, 0, 3, 0, 4] ∧
        (∀ c after, rest = c :: after → 13 < (wire done).length + c.bytes.length) ∧
        r.payloads = done.filterMap payload ∧
        (isPartial r.skip r.buf = true ↔ [0x80, 0, 0, 0x17, 0x40, 3, 1, 2, 3, 0, 3, 0, 4] ≠ wire done)) :=
  (capsules_exact sampleCapsules [[0x80, 0, 0], [0x17, 0x40, 3, 1], [2, 3, 0, 3, 0, 4]] (by decide)).1

end Netty.Capsule
