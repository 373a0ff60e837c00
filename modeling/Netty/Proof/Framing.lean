import Netty.Spec.Message
import Netty.Proof.Headers

/-!
# The framing headers of a request agree with its encoder

A receiver takes the length of a request body from the lines of the head: from the
final transfer coding if there is a `Transfer-Encoding`, else from the
`Content-Length`, and there is no body if there is neither.

* `Frames`: the lines of a head announce what the encoder will write.
* `fieldLines_inj`: a head is read back as the fields that were written.
* `contentLengthParseAllValues_eq_some`: what an accepted `Content-Length` says.
* `encode_framing_agrees`: when the two agree.
-/

namespace Netty

open List Option

/-! ## What a receiver reads -/

/-- The items of a list field over all its lines. Empty items do not count. -/
def listItems (lines : List HeaderValue) : List Bytes :=
  (lines.flatMap fun v => (splitComma v.bytes).map trim).filter (· ≠ [])

/-- The last transfer coding is `chunked`. -/
def FinalChunked (lines : List HeaderValue) : Prop :=
  (listItems lines).getLast?.map (eqIgnoreAsciiCase · (ascii "chunked")) = some true

instance (lines : List HeaderValue) : Decidable (FinalChunked lines) := by
  unfold FinalChunked; infer_instance

def isDigit (b : UInt8) : Bool := 48 ≤ b && b ≤ 57

def decimalFrom (n : ℕ) (s : Bytes) : ℕ := s.foldl (fun acc b => acc * 10 + (b - 48).toNat) n

/-- Every item of the line is the number `n`, written in decimal digits. -/
def DenotesLength (n : ℕ) (v : HeaderValue) : Prop :=
  ∀ item ∈ splitComma v.bytes, trim item ≠ [] ∧ (trim item).all isDigit = true ∧ decimalFrom 0 (trim item) = n

instance (n : ℕ) (v : HeaderValue) : Decidable (DenotesLength n v) := by
  unfold DenotesLength; infer_instance

/-- **The lines announce the body that the encoder writes.** -/
def Frames (e : Encoder) (fields : List (HeaderName × HeaderValue)) : Prop :=
  match e.kind with
  | .chunked _ => FinalChunked (valuesOf .transferEncoding fields) ∧ valuesOf .contentLength fields = []
  | .length n => valuesOf .transferEncoding fields = [] ∧
      (∀ v ∈ valuesOf .contentLength fields, DenotesLength n v) ∧ (0 < n → valuesOf .contentLength fields ≠ [])

instance (e : Encoder) (fields : List (HeaderName × HeaderValue)) : Decidable (Frames e fields) := by
  unfold Frames
  cases e.kind <;> infer_instance

/-- The request line, up to the header lines. -/
def requestLine (head : RequestHead) : Bytes :=
  head.subject.method.asStr ++ ascii " " ++ head.subject.uri ++ ascii " " ++ Client.versionBytes head.version ++ crlf

/-- The encoded head is a request line and the lines of some fields, and these
announce the body of the returned encoder. -/
def FramingAgrees (head : RequestHead) (body : Option BodyLength) : Prop :=
  ∃ fields, (Client.encode head body).2 = requestLine head ++ fields.flatMap headerLine ++ crlf ∧
    Frames (Client.encode head body).1 fields

/-! ## Header lines are read back -/

/-- A separator that is in neither front ends both at once. -/
theorem append_sep_inj {α : Type} {x : α} : ∀ {a b r r' : List α}, x ∉ a → x ∉ b →
    a ++ x :: r = b ++ x :: r' → a = b ∧ r = r'
  | [], [], _, _, _, _, h => ⟨rfl, (List.cons.inj h).2⟩
  | [], _ :: _, _, _, _, hb, h => absurd (mem_cons.2 (.inl (List.cons.inj h).1)) hb
  | _ :: _, [], _, _, ha, _, h => absurd (mem_cons.2 (.inl (List.cons.inj h).1.symm)) ha
  | y :: a, z :: b, r, r', ha, hb, h => by
    obtain ⟨rfl, htail⟩ := List.cons.inj h
    obtain ⟨hab, hr⟩ := append_sep_inj (fun hx => ha (mem_cons_of_mem _ hx))
      (fun hx => hb (mem_cons_of_mem _ hx)) htail
    exact ⟨by rw [hab], hr⟩

theorem HeaderName.sep_notMem (n : HeaderName) {x : UInt8} (hx : isNameByte x = false) : x ∉ n.bytes := by
  intro hmem
  have := all_eq_true.1 n.ok.2 x hmem
  rw [hx] at this
  cases this

theorem HeaderValue.sep_notMem (v : HeaderValue) {x : UInt8} (hx : isValueByte x = false) : x ∉ v.bytes := by
  intro hmem
  have := all_eq_true.1 v.ok x hmem
  rw [hx] at this
  cases this

theorem headerLine_append (f : HeaderName × HeaderValue) (rest : Bytes) :
    headerLine f ++ rest = f.1.bytes ++ 58 :: 32 :: (f.2.bytes ++ 13 :: 10 :: rest) := by
  have h : ascii ": " = [58, 32] := by decide
  simp [headerLine, crlf, h]

theorem headerLine_ne_crlf (f : HeaderName × HeaderValue) (rest : Bytes) : headerLine f ++ rest ≠ crlf := by
  intro h
  rw [headerLine_append] at h
  obtain ⟨x, xs, hx⟩ := exists_cons_of_ne_nil f.1.ok.1
  rw [hx] at h
  have hcr : (13 : UInt8) ∈ f.1.bytes := by rw [hx, (List.cons.inj h).1]; simp
  exact f.1.sep_notMem (by decide) hcr

/-- **A head is read back as the fields that were written.** -/
theorem fieldLines_inj : ∀ {fs gs : List (HeaderName × HeaderValue)},
    fs.flatMap headerLine ++ crlf = gs.flatMap headerLine ++ crlf → fs = gs
  | [], [], _ => rfl
  | [], g :: gs, h => by
    rw [flatMap_cons, append_assoc] at h
    exact absurd h.symm (headerLine_ne_crlf g _)
  | f :: fs, [], h => by
    rw [flatMap_cons, append_assoc] at h
    exact absurd h (headerLine_ne_crlf f _)
  | f :: fs, g :: gs, h => by
    rw [flatMap_cons, flatMap_cons, append_assoc, append_assoc, headerLine_append, headerLine_append] at h
    -- the name ends at the colon, the value at the carriage return
    obtain ⟨hname, hrest⟩ := append_sep_inj (f.1.sep_notMem (by decide)) (g.1.sep_notMem (by decide)) h
    obtain ⟨hvalue, htail⟩ := append_sep_inj (f.2.sep_notMem (by decide)) (g.2.sep_notMem (by decide))
      (List.cons.inj hrest).2
    have hfg : f = g := by
      rcases f with ⟨⟨_, _⟩, ⟨_, _⟩⟩
      rcases g with ⟨⟨_, _⟩, ⟨_, _⟩⟩
      simp_all
    rw [hfg, fieldLines_inj (List.cons.inj htail).2]

/-- Without a header-preserving callback the lines written are those of the map. -/
theorem framingAgrees_iff_frames {head : RequestHead} {body : Option BodyLength}
    (hp : head.extensions.preserveHeader = none) :
    FramingAgrees head body ↔ Frames (Client.setLength head body).1 (Client.setLength head body).2.iter := by
  have hbytes : (Client.encode head body).2 =
      requestLine head ++ (Client.setLength head body).2.iter.flatMap headerLine ++ crlf := by
    simp only [Client.encode, requestLine, Client.headerLines, hp, writeHeaders]
  constructor
  · rintro ⟨fields, hf, hfr⟩
    rw [hbytes, append_assoc, append_assoc] at hf
    rw [← fieldLines_inj (append_cancel_left hf)] at hfr
    exact hfr
  · intro h
    exact ⟨_, hbytes, h⟩

/-! ## Numbers -/

theorem le_decimalFrom (s : Bytes) : ∀ n, n ≤ decimalFrom n s := by
  induction s with
  | nil => exact fun n => le_refl n
  | cons b s ih =>
    intro n
    have := ih (n * 10 + (b - 48).toNat)
    simp only [decimalFrom, foldl_cons] at this ⊢
    omega

variable {s : Bytes} {n : ℕ}

/-- The digit loop: it stops at the first byte that is no digit, and on overflow. -/
theorem digitLoop_eq_some : ∀ {acc : ℕ}, acc < u64Size →
    (s.foldlM (fun result b => if 48 ≤ b && b ≤ 57 then
      (checkedMul result 10).bind fun r => checkedAdd r (b - 48).toNat else none) acc = some n ↔
      s.all isDigit = true ∧ decimalFrom acc s = n ∧ n < u64Size) := by
  induction s with
  | nil =>
    intro acc hacc
    simp only [foldlM_nil, decimalFrom, foldl_nil, all_nil, true_and]
    refine ⟨fun h => ?_, fun h => by rw [h.1]; rfl⟩
    obtain rfl : acc = n := some.inj h
    exact ⟨rfl, hacc⟩
  | cons b s ih =>
    intro acc hacc
    have hle := le_decimalFrom s (acc * 10 + (b - 48).toNat)
    have hall : (b :: s).all isDigit = true ↔ isDigit b = true ∧ s.all isDigit = true := by
      rw [all_cons, Bool.and_eq_true]
    rw [foldlM_cons, hall]
    have hcons : decimalFrom acc (b :: s) = decimalFrom (acc * 10 + (b - 48).toNat) s := rfl
    rw [hcons]
    by_cases hd : isDigit b = true
    · have hd' : (48 ≤ b && b ≤ 57) = true := hd
      rw [if_pos hd']
      by_cases hov : acc * 10 + (b - 48).toNat < u64Size
      · have h1 : checkedMul acc 10 = some (acc * 10) := if_pos (by omega)
        have h2 : checkedAdd (acc * 10) (b - 48).toNat = some (acc * 10 + (b - 48).toNat) := if_pos hov
        simp only [h1, bind_some, h2, bind_eq_bind, ih hov, hd, true_and]
      · have hnone : ((checkedMul acc 10).bind fun r => checkedAdd r (b - 48).toNat) = none := by
          unfold checkedMul checkedAdd
          by_cases h : acc * 10 < u64Size
          · rw [if_pos h, bind_some, if_neg hov]
          · rw [if_neg h]; rfl
        rw [hnone]
        refine ⟨nofun, fun h => ?_⟩
        omega
    · have hd' : ¬ (48 ≤ b && b ≤ 57) = true := hd
      rw [if_neg hd']
      exact ⟨nofun, fun h => absurd h.1.1 hd⟩

theorem fromDigits_eq_some :
    fromDigits s = some n ↔ s ≠ [] ∧ s.all isDigit = true ∧ decimalFrom 0 s = n ∧ n < u64Size := by
  unfold fromDigits
  by_cases hs : s = []
  · rw [if_pos hs]
    exact ⟨fun h => (nomatch h), fun h => absurd hs h.1⟩
  · rw [if_neg hs, digitLoop_eq_some (by decide)]
    exact ⟨fun h => ⟨hs, h⟩, fun h => h.2⟩

theorem decimalFrom_digits (ds : List ℕ) (hds : ∀ d ∈ ds, d < 10) :
    decimalFrom 0 (ds.reverse.map fun d => UInt8.ofNat (48 + d)) = Nat.ofDigits 10 ds := by
  induction ds with
  | nil => rfl
  | cons d ds ih =>
    have hd : d < 10 := hds d (by simp)
    have hall : ∀ d : Fin 10, (UInt8.ofNat (48 + d) - 48).toNat = d := by decide
    have ih' := ih fun x hx => hds x (by simp [hx])
    unfold decimalFrom at ih' ⊢
    rw [reverse_cons, map_append, foldl_append, ih', Nat.ofDigits_cons]
    simp only [map_cons, map_nil, foldl_cons, foldl_nil]
    rw [hall ⟨d, hd⟩]
    simp only
    omega

/-- The digits a number is written with. -/
theorem decimalBytes_spec (n : ℕ) :
    decimalBytes n ≠ [] ∧ (decimalBytes n).all isDigit = true ∧ decimalFrom 0 (decimalBytes n) = n := by
  unfold decimalBytes
  by_cases hn : n = 0
  · rw [if_pos hn, hn]
    decide
  · rw [if_neg hn]
    have hlt : ∀ d ∈ Nat.digits 10 n, d < 10 := fun d hd => Nat.digits_lt_base (by decide) hd
    refine ⟨by simpa using Nat.digits_ne_nil_iff_ne_zero.2 hn, all_eq_true.2 fun b hb => ?_, ?_⟩
    · obtain ⟨d, hd, rfl⟩ := mem_map.1 hb
      have hall : ∀ d : Fin 10, isDigit (UInt8.ofNat (48 + d)) = true := by decide
      exact hall ⟨d, hlt d (mem_reverse.1 hd)⟩
    · rw [decimalFrom_digits _ hlt, Nat.ofDigits_digits]

/-! ## List fields -/

theorem trim_of_noOws (h : ∀ b ∈ s, isOws b = false) : trim s = s := by
  have hd : ∀ l : Bytes, (∀ b ∈ l, isOws b = false) → l.dropWhile isOws = l := by
    intro l hl
    cases l with
    | nil => rfl
    | cons b l => rw [dropWhile_cons, hl b (by simp)]; rfl
  unfold trim
  rw [hd s h, hd s.reverse fun b hb => h b (mem_reverse.1 hb), reverse_reverse]

variable {b : UInt8}

theorem mem_dropWhile_or {p : UInt8 → Bool} (hb : b ∈ s) : p b = true ∨ b ∈ s.dropWhile p := by
  rw [← takeWhile_append_dropWhile (p := p) (l := s), mem_append] at hb
  exact hb.imp_left fun h => all_eq_true.1 all_takeWhile b h

theorem mem_trim_or (hb : b ∈ s) : isOws b = true ∨ b ∈ trim s := by
  rcases mem_dropWhile_or (p := isOws) hb with h | h
  · exact .inl h
  · rcases mem_dropWhile_or (p := isOws) (mem_reverse.2 h) with h | h
    · exact .inl h
    · exact .inr (mem_reverse.2 h)

theorem mem_splitComma_or (hb : b ∈ s) : b = 44 ∨ ∃ item ∈ splitComma s, b ∈ item := by
  unfold splitComma splitOn
  induction s with
  | nil => cases hb
  | cons x s ih =>
    rw [splitOnP_cons_eq_if_modifyHead]
    by_cases hx : (x == (44 : UInt8)) = true
    · rw [if_pos hx]
      rcases mem_cons.1 hb with rfl | hb
      · exact .inl (beq_iff_eq.1 hx)
      · obtain h | ⟨item, hi, h⟩ := ih hb
        · exact .inl h
        · exact .inr ⟨item, mem_cons_of_mem _ hi, h⟩
    · rw [if_neg hx]
      obtain ⟨y, ys, hy⟩ := exists_cons_of_ne_nil (splitOnP_ne_nil (· == (44 : UInt8)) s)
      rw [hy] at ih ⊢
      rw [modifyHead_cons]
      rcases mem_cons.1 hb with rfl | hb
      · exact .inr ⟨b :: y, by simp, by simp⟩
      · obtain h | ⟨item, hi, h⟩ := ih hb
        · exact .inl h
        · rcases mem_cons.1 hi with rfl | hi
          · exact .inr ⟨x :: item, by simp, mem_cons_of_mem _ h⟩
          · exact .inr ⟨item, mem_cons_of_mem _ hi, h⟩

theorem splitComma_append (a b : Bytes) : splitComma (a ++ 44 :: b) = splitComma a ++ splitComma b :=
  splitOn_append_cons_self a b

/-! ## Content-Length -/

section Agree

variable {α : Type} {f : Option ℕ → α → Option (Option ℕ)} {P : ℕ → α → Prop}

/-- A loop that takes the number of its first item and stops at one that differs:
what it returns is the number of every item. -/
theorem foldlM_agree (hf : ∀ acc x r, f acc x = some r → ∃ n, r = some n ∧ P n x ∧ ∀ m, acc = some m → m = n) :
    ∀ {xs : List α} {acc r : Option ℕ}, xs.foldlM f acc = some r →
      (∀ m, acc = some m → r = some m) ∧ ∀ x ∈ xs, ∃ n, r = some n ∧ P n x := by
  intro xs
  induction xs with
  | nil =>
    intro acc r h
    obtain rfl : acc = r := some.inj h
    exact ⟨fun m hm => hm, fun x hx => nomatch hx⟩
  | cons x xs ih =>
    intro acc r h
    rw [foldlM_cons] at h
    obtain ⟨r₁, hx, hxs⟩ := bind_eq_some_iff.1 h
    obtain ⟨n, rfl, hP, hacc⟩ := hf acc x r₁ hx
    obtain ⟨hr, hall⟩ := ih hxs
    refine ⟨fun m hm => hacc m hm ▸ hr n rfl, fun y hy => ?_⟩
    rcases mem_cons.1 hy with rfl | hy
    · exact ⟨n, hr n rfl, hP⟩
    · exact hall y hy

theorem foldlM_agree_of_forall {n : ℕ} : ∀ {xs : List α},
    (∀ x ∈ xs, ∀ acc, (∀ m, acc = some m → m = n) → f acc x = some (some n)) →
      ∀ acc, (∀ m, acc = some m → m = n) → xs ≠ [] → xs.foldlM f acc = some (some n) := by
  intro xs
  induction xs with
  | nil => exact fun _ _ _ h => absurd rfl h
  | cons x xs ih =>
    intro hall acc hacc _
    have hx : f acc x = some (some n) := hall x (by simp) acc hacc
    rw [foldlM_cons, hx]
    have hself : ∀ m, some n = some m → m = n := fun m hm => (some.inj hm).symm
    by_cases hxs : xs = []
    · rw [hxs]; rfl
    · exact ih (fun y hy => hall y (mem_cons_of_mem _ hy)) (some n) hself hxs

end Agree

theorem contentLengthItem_spec (acc : Option ℕ) (v : Bytes) (r : Option ℕ) (h : contentLengthItem acc v = some r) :
    ∃ n, r = some n ∧ fromDigits (trim v) = some n ∧ ∀ m, acc = some m → m = n := by
  unfold contentLengthItem at h
  cases hd : fromDigits (trim v) with
  | none => rw [hd] at h; cases h
  | some n =>
    rw [hd] at h
    cases acc with
    | none => exact ⟨n, (some.inj h).symm, rfl, fun m hm => nomatch hm⟩
    | some k =>
      by_cases hk : k = n
      · subst hk
        simp only [ne_eq, not_true_eq_false, if_false] at h
        exact ⟨k, (some.inj h).symm, rfl, fun m hm => (some.inj hm).symm⟩
      · simp only [ne_eq, hk, not_false_eq_true, if_true] at h
        cases h

theorem contentLengthItem_of_eq {acc : Option ℕ} {v : Bytes} (hd : fromDigits (trim v) = some n)
    (hacc : ∀ m, acc = some m → m = n) : contentLengthItem acc v = some (some n) := by
  unfold contentLengthItem
  rw [hd]
  cases acc with
  | none => rfl
  | some m => simp [hacc m rfl]

variable {v : HeaderValue}

theorem toStr_eq_some (h : v.toStr = some s) : s = v.bytes := by
  unfold HeaderValue.toStr at h
  split at h
  · exact (some.inj h).symm
  · cases h

theorem contentLengthLine_spec (acc : Option ℕ) (v : HeaderValue) (r : Option ℕ)
    (h : contentLengthLine acc v = some r) :
    ∃ n, r = some n ∧ (DenotesLength n v ∧ n < u64Size) ∧ ∀ m, acc = some m → m = n := by
  unfold contentLengthLine at h
  cases hs : v.toStr with
  | none => rw [hs] at h; cases h
  | some s =>
    rw [hs, toStr_eq_some hs] at h
    obtain ⟨hacc, hall⟩ := foldlM_agree contentLengthItem_spec h
    obtain ⟨item, hitem⟩ := exists_mem_of_ne_nil _ (splitOn_ne_nil (44 : UInt8) v.bytes)
    obtain ⟨n, rfl, hn⟩ := hall item hitem
    refine ⟨n, rfl, ⟨fun x hx => ?_, (fromDigits_eq_some.1 hn).2.2.2⟩, fun m hm => (some.inj (hacc m hm)).symm⟩
    obtain ⟨k, hk, hd⟩ := hall x hx
    obtain rfl : n = k := some.inj hk
    obtain ⟨hne, hdig, hval, -⟩ := fromDigits_eq_some.1 hd
    exact ⟨hne, hdig, hval⟩

theorem toStr_of_denotes (h : DenotesLength n v) : v.toStr = some v.bytes := by
  unfold HeaderValue.toStr
  refine if_pos (all_eq_true.2 fun b hb => ?_)
  have hsmall : b = 44 ∨ isOws b = true ∨ isDigit b = true := by
    rcases mem_splitComma_or hb with rfl | ⟨item, hi, hbi⟩
    · exact .inl rfl
    · rcases mem_trim_or hbi with hw | ht
      · exact .inr (.inl hw)
      · exact .inr (.inr (all_eq_true.1 (h item hi).2.1 b ht))
  rcases hsmall with rfl | hw | hd
  · decide
  · simp only [isOws, Bool.or_eq_true, decide_eq_true_eq] at hw
    rcases hw with rfl | rfl <;> decide
  · simp only [isDigit, Bool.and_eq_true, decide_eq_true_eq, UInt8.le_iff_toNat_le] at hd
    simp only [Bool.or_eq_true, Bool.and_eq_true, decide_eq_true_eq, UInt8.le_iff_toNat_le, UInt8.lt_iff_toNat_lt]
    have h48 : (48 : UInt8).toNat = 48 := rfl
    have h57 : (57 : UInt8).toNat = 57 := rfl
    have h32 : (32 : UInt8).toNat = 32 := rfl
    have h127 : (127 : UInt8).toNat = 127 := rfl
    omega

theorem contentLengthLine_of_denotes {acc : Option ℕ} (hn : n < u64Size) (hv : DenotesLength n v)
    (hacc : ∀ m, acc = some m → m = n) : contentLengthLine acc v = some (some n) := by
  unfold contentLengthLine
  rw [toStr_of_denotes hv]
  refine foldlM_agree_of_forall (fun item hi a ha => contentLengthItem_of_eq ?_ ha) acc hacc
    (splitOn_ne_nil (44 : UInt8) v.bytes)
  obtain ⟨hne, hdig, hval⟩ := hv item hi
  exact fromDigits_eq_some.2 ⟨hne, hdig, hval, hn⟩

variable {vs : List HeaderValue}

theorem contentLengthParseAllValues_folds (h : contentLengthParseAllValues vs = some n) :
    vs.foldlM contentLengthLine none = some (some n) := by
  unfold contentLengthParseAllValues at h
  cases hr : vs.foldlM contentLengthLine none with
  | none => rw [hr] at h; cases h
  | some r =>
    rw [hr] at h
    exact congrArg some h

/-- **What an accepted `Content-Length` says**: every line denotes the number. -/
theorem contentLengthParseAllValues_eq_some (h : contentLengthParseAllValues vs = some n) :
    vs ≠ [] ∧ ∀ v ∈ vs, DenotesLength n v := by
  have hr := contentLengthParseAllValues_folds h
  obtain ⟨-, hall⟩ := foldlM_agree contentLengthLine_spec hr
  refine ⟨?_, fun v hv => ?_⟩
  · rintro rfl
    cases hr
  · obtain ⟨k, hk, hd, -⟩ := hall v hv
    exact some.inj hk ▸ hd

theorem contentLengthParseAllValues_of_denotes (hn : n < u64Size) (hne : vs ≠ []) (hall : ∀ v ∈ vs, DenotesLength n v) :
    contentLengthParseAllValues vs = some n := by
  unfold contentLengthParseAllValues
  rw [foldlM_agree_of_forall (fun v hv a ha => contentLengthLine_of_denotes hn (hall v hv) ha) none
    (fun m hm => nomatch hm) hne]
  rfl

theorem denotesLength_fromU64 (n : ℕ) : DenotesLength n (HeaderValue.fromU64 n) := by
  obtain ⟨hne, hdig, hval⟩ := decimalBytes_spec n
  have hcomma : (44 : UInt8) ∉ (HeaderValue.fromU64 n).bytes := by
    intro hmem
    have := all_eq_true.1 hdig 44 hmem
    revert this
    decide
  have htrim : trim (decimalBytes n) = decimalBytes n := by
    refine trim_of_noOws fun b hb => ?_
    have hd := all_eq_true.1 hdig b hb
    rw [← Bool.not_eq_true]
    intro hw
    simp only [isOws, Bool.or_eq_true, decide_eq_true_eq] at hw
    rcases hw with rfl | rfl <;> revert hd <;> decide
  intro item hitem
  rw [splitComma, splitOn_eq_singleton hcomma, mem_singleton] at hitem
  rw [hitem, show (HeaderValue.fromU64 n).bytes = decimalBytes n from rfl, htrim]
  exact ⟨hne, hdig, hval⟩

/-! ## Transfer-Encoding -/

theorem finalChunked_of_last {init : List HeaderValue} {line : HeaderValue} (items : List Bytes) {c : Bytes}
    (hsplit : splitComma line.bytes = items ++ [c]) (hc : eqIgnoreAsciiCase (trim c) (ascii "chunked") = true) :
    FinalChunked (init ++ [line]) := by
  have hne : trim c ≠ [] := by
    intro h
    rw [h] at hc
    revert hc
    decide
  unfold FinalChunked listItems
  rw [flatMap_append, flatMap_singleton, hsplit, map_append, map_singleton, ← append_assoc, filter_append]
  simp [hne, hc]

theorem finalChunked_of_isChunked (h : isChunked vs = true) : FinalChunked vs := by
  rcases eq_nil_or_concat vs with rfl | ⟨init, line, rfl⟩
  · cases h
  · rw [concat_eq_append] at h ⊢
    unfold isChunked at h
    rw [getLast?_concat] at h
    simp only at h
    cases hs : line.toStr with
    | none => rw [hs] at h; cases h
    | some s =>
      rw [hs, toStr_eq_some hs] at h
      rcases eq_nil_or_concat (splitComma line.bytes) with hnil | ⟨items, c, hc⟩
      · exact absurd hnil (splitOn_ne_nil (44 : UInt8) line.bytes)
      · rw [concat_eq_append] at hc
        simp only [hc, getLast?_concat] at h
        exact finalChunked_of_last items hc h

theorem finalChunked_chunkedLine (init : List HeaderValue) (line : HeaderValue) :
    FinalChunked (init ++ [chunkedLine line]) := by
  have hbytes : (chunkedLine line).bytes = line.bytes ++ 44 :: ascii " chunked" := by
    have h : ascii ", chunked" = 44 :: ascii " chunked" := by decide
    rw [← h]; rfl
  refine finalChunked_of_last (splitComma line.bytes) (c := ascii " chunked") ?_ (by decide)
  rw [hbytes, splitComma_append]
  congr 1

theorem finalChunked_addChunked (v : HeaderValue) (ex : List HeaderValue) :
    FinalChunked ((addChunked v ex).1 :: (addChunked v ex).2) := by
  unfold addChunked
  rcases eq_nil_or_concat ex with rfl | ⟨init, line, rfl⟩
  · exact finalChunked_chunkedLine [] v
  · rw [concat_eq_append, getLast?_concat]
    simp only [dropLast_concat]
    exact finalChunked_chunkedLine (v :: init) line

/-! ## The head -/

/-- The `Content-Length` lines of the request are those of its encoder, where the
code leaves them as they are although it will write no body. -/
def LengthLinesOk (head : RequestHead) (body : Option BodyLength) : Prop :=
  match body with
  | none => ∀ v ∈ head.headers.getAll .contentLength, DenotesLength 0 v
  | some (.known _) => True
  | some .unknown =>
    contentLengthParseAll head.headers = none →
      head.version ≠ .http11 ∨ (head.headers.containsKey .transferEncoding = false ∧
        (head.subject.method = .get ∨ head.subject.method = .head ∨ head.subject.method = .connect)) →
      head.headers.getAll .contentLength = []

instance (head : RequestHead) (body : Option BodyLength) : Decidable (LengthLinesOk head body) := by
  unfold LengthLinesOk
  split <;> infer_instance

/-- The condition on the lines, over the values of the map that is written. -/
def MapFrames (e : Encoder) (m : HeaderMap) : Prop :=
  match e.kind with
  | .chunked _ => FinalChunked (m.getAll .transferEncoding) ∧ m.getAll .contentLength = []
  | .length n => m.getAll .transferEncoding = [] ∧
      (∀ v ∈ m.getAll .contentLength, DenotesLength n v) ∧ (0 < n → m.getAll .contentLength ≠ [])

theorem frames_iter (e : Encoder) (m : HeaderMap) : Frames e m.iter ↔ MapFrames e m := by
  unfold Frames MapFrames
  simp only [valuesOf_iter]

theorem withTrailerNames_kind (m : HeaderMap) : ∃ t, (withTrailerNames m Encoder.chunked).kind = .chunked t := by
  unfold withTrailerNames
  split
  · exact ⟨some (trailerNames m), rfl⟩
  · exact ⟨none, rfl⟩

variable {m' m : HeaderMap}

theorem mapFrames_chunked (hte : FinalChunked (m'.getAll .transferEncoding)) :
    MapFrames (withTrailerNames m Encoder.chunked) (m'.remove .contentLength) := by
  obtain ⟨t, ht⟩ := withTrailerNames_kind m
  unfold MapFrames
  rw [ht]
  simp only [HeaderMap.getAll_remove, if_true]
  exact ⟨by rw [if_neg (by decide)]; exact hte, trivial⟩

theorem mapFrames_existing (h : contentLengthParseAll m = some n) (hte : m'.getAll .transferEncoding = [])
    (hcl : m'.getAll .contentLength = m.getAll .contentLength) : MapFrames (Encoder.length n) m' := by
  obtain ⟨hne, hall⟩ := contentLengthParseAllValues_eq_some h
  refine ⟨hte, ?_, fun _ => ?_⟩
  · rw [hcl]; exact hall
  · rw [hcl]; exact hne

theorem mapFrames_setContentLength (hte : m.getAll .transferEncoding = []) :
    MapFrames (setContentLength m n).1 (setContentLength m n).2 := by
  unfold setContentLength
  have hcl : (m.insert .contentLength (HeaderValue.fromU64 n)).getAll .contentLength = [HeaderValue.fromU64 n] := by
    rw [HeaderMap.getAll_insert, if_pos rfl]
  refine ⟨?_, fun v hv => ?_, fun _ => ?_⟩
  · rw [HeaderMap.getAll_insert, if_neg (by decide)]
    exact hte
  · rw [hcl, mem_singleton] at hv
    rw [hv]
    exact denotesLength_fromU64 n
  · rw [hcl]
    exact cons_ne_nil _ _

theorem mapFrames_zero_iff (h : contentLengthParseAll m = none) (hte : m'.getAll .transferEncoding = [])
    (hcl : m'.getAll .contentLength = m.getAll .contentLength) :
    MapFrames (Encoder.length 0) m' ↔ m.getAll .contentLength = [] := by
  have hkind : (Encoder.length 0).kind = .length 0 := rfl
  unfold MapFrames
  simp only [hkind, hte, hcl, true_and, lt_irrefl, false_implies, and_true]
  constructor
  · intro hall
    by_contra hne
    have hsome := contentLengthParseAllValues_of_denotes (by decide) hne hall
    unfold contentLengthParseAll at h
    rw [h] at hsome
    cases hsome
  · intro hnil v hv
    rw [hnil] at hv
    cases hv

section

variable {head : RequestHead}

theorem getAll_remove_transferEncoding (m : HeaderMap) :
    (m.remove .transferEncoding).getAll .transferEncoding = [] ∧
      (m.remove .transferEncoding).getAll .contentLength = m.getAll .contentLength := by
  rw [HeaderMap.getAll_remove, HeaderMap.getAll_remove, if_pos rfl, if_neg (by decide)]
  exact ⟨rfl, rfl⟩

theorem mapFrames_none_iff : MapFrames (Client.setLength head none).1 (Client.setLength head none).2 ↔
    LengthLinesOk head none := by
  obtain ⟨hte, hcl⟩ := getAll_remove_transferEncoding head.headers
  have hkind : (Encoder.length 0).kind = .length 0 := rfl
  unfold MapFrames LengthLinesOk Client.setLength
  simp only [hkind, hte, hcl, true_and, lt_irrefl, false_implies, and_true]

variable {body : BodyLength}

theorem mapFrames_old_iff (hv : head.version ≠ .http11) :
    MapFrames (Client.setLength head (some body)).1 (Client.setLength head (some body)).2 ↔
      LengthLinesOk head (some body) := by
  obtain ⟨hte, hcl⟩ := getAll_remove_transferEncoding head.headers
  unfold Client.setLength
  simp only [if_pos hv]
  cases hlen : contentLengthParseAll head.headers with
  | some n =>
    refine iff_of_true (mapFrames_existing hlen hte hcl) ?_
    cases body <;> simp [LengthLinesOk, hlen]
  | none =>
    cases body with
    | known n => exact iff_of_true (mapFrames_setContentLength hte) trivial
    | unknown =>
      rw [mapFrames_zero_iff hlen hte hcl]
      simp [LengthLinesOk, hlen, hv]

/-- The user's transfer codings, with `chunked` at their end. -/
theorem mapFrames_codings (hv : head.version = .http11) (hte : head.headers.containsKey .transferEncoding = true) :
    MapFrames (Client.setLength head (some body)).1 (Client.setLength head (some body)).2 := by
  unfold Client.setLength
  simp only [hv, ne_eq, not_true_eq_false, if_false, hte, if_true]
  refine mapFrames_chunked ?_
  split
  · rename_i hc
    exact finalChunked_of_isChunked hc
  · have hne : head.headers.getAll .transferEncoding ≠ [] := by
      rw [Ne, HeaderMap.getAll_eq_nil, hte]
      decide
    obtain ⟨v, ex, hvs⟩ := exists_cons_of_ne_nil hne
    rw [HeaderMap.getAll_mapValues hvs]
    exact finalChunked_addChunked v ex

theorem mapFrames_plain_iff (hv : head.version = .http11) (hte : head.headers.containsKey .transferEncoding = false) :
    MapFrames (Client.setLength head (some body)).1 (Client.setLength head (some body)).2 ↔
      LengthLinesOk head (some body) := by
  have hnil : head.headers.getAll .transferEncoding = [] := HeaderMap.getAll_eq_nil.2 hte
  unfold Client.setLength
  simp only [hv, ne_eq, not_true_eq_false, if_false, hte, Bool.false_eq_true]
  cases hlen : contentLengthParseAll head.headers with
  | some n =>
    refine iff_of_true (mapFrames_existing hlen hnil rfl) ?_
    cases body <;> simp [LengthLinesOk, hlen]
  | none =>
    cases body with
    | known n => exact iff_of_true (mapFrames_setContentLength hnil) trivial
    | unknown =>
      have hone : FinalChunked ((head.headers.insert .transferEncoding .chunked).getAll .transferEncoding) := by
        rw [HeaderMap.getAll_insert, if_pos rfl]
        decide
      have hzero := mapFrames_zero_iff hlen hnil rfl
      have hchunked := mapFrames_chunked (m := head.headers.insert .transferEncoding .chunked) hone
      cases hm : head.subject.method <;>
        simp [LengthLinesOk, hlen, hv, hte, hm, hzero, hchunked]

theorem mapFrames_setLength_iff (head : RequestHead) (body : Option BodyLength) :
    MapFrames (Client.setLength head body).1 (Client.setLength head body).2 ↔ LengthLinesOk head body := by
  cases body with
  | none => exact mapFrames_none_iff
  | some body =>
    by_cases hv : head.version = .http11
    · cases hte : head.headers.containsKey .transferEncoding with
      | false => exact mapFrames_plain_iff hv hte
      | true =>
        refine iff_of_true (mapFrames_codings hv hte) ?_
        cases body <;> simp [LengthLinesOk, hv, hte]
    · exact mapFrames_old_iff hv

end

/-- **The head announces the body that is written**, exactly when the
`Content-Length` lines that the code leaves alone do not contradict an empty body. -/
theorem encode_framing_agrees (head : RequestHead) (body : Option BodyLength)
    (hp : head.extensions.preserveHeader = none) : FramingAgrees head body ↔ LengthLinesOk head body := by
  rw [framingAgrees_iff_frames hp, frames_iter, mapFrames_setLength_iff]

/-- A request with a single `Content-Length` line. -/
def lengthRequest (method : Method) (length : HeaderValue) : RequestHead :=
  ⟨.http11, ⟨method, ascii "/"⟩, HeaderMap.empty.append .contentLength length, .none⟩

theorem encode_framing_agrees_known :
    FramingAgrees (lengthRequest .post (HeaderValue.fromU64 5)) (some (.known 5)) :=
  (encode_framing_agrees _ _ rfl).2 trivial

/-- **An empty body keeps the user's `Content-Length`**: the receiver waits for five
bytes that the encoder will not write. -/
theorem encode_framing_disagrees :
    (Client.encode (lengthRequest .get ⟨ascii "5", by decide⟩) none).1 = Encoder.length 0 ∧
    (Client.encode (lengthRequest .get ⟨ascii "5", by decide⟩) none).2 =
      ascii "GET / HTTP/1.1" ++ crlf ++ ascii "content-length: 5" ++ crlf ++ crlf ∧
    ¬ FramingAgrees (lengthRequest .get ⟨ascii "5", by decide⟩) none := by
  refine ⟨rfl, by decide, ?_⟩
  rw [framingAgrees_iff_frames rfl]
  decide

end Netty
