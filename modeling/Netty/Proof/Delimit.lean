import Netty.Proof.ContentLength

/-!
# Where a response ends

`Client::decoder` follows the rules of RFC 9112 on the length of a response body, in their order. It looks
for the last transfer coding at the very end of the last line, where the list syntax also allows for
empty elements.

* `isChunked_iff`: what the code takes for a chunked response.
* `response_framing`: **every rule**, for every response head.
* `empty_element_hides_chunked`: an empty element at the end.
-/

namespace Netty

open List

/-! ## The last transfer coding -/

/-- The last line can be read as text, and does not end in an empty element. -/
def EndsInItem (lines : List HeaderValue) : Prop :=
  ∃ line ∈ lines.getLast?, line.toStr.isSome = true ∧ ∀ c ∈ (splitComma line.bytes).getLast?, trim c ≠ []

theorem toStr_of_isSome {v : HeaderValue} (h : v.toStr.isSome = true) : v.toStr = some v.bytes := by
  obtain ⟨s, hs⟩ := Option.isSome_iff_exists.1 h
  rw [hs, toStr_eq_some hs]

theorem splitComma_concat (s : Bytes) : ∃ items c, splitComma s = items ++ [c] := by
  rcases eq_nil_or_concat (splitComma s) with hnil | ⟨items, c, hc⟩
  · exact absurd hnil (splitOn_ne_nil (44 : UInt8) s)
  · exact ⟨items, c, by rw [hc, concat_eq_append]⟩

theorem listItems_concat {init : List HeaderValue} {line : HeaderValue} {items : List Bytes} {c : Bytes}
    (hsplit : splitComma line.bytes = items ++ [c]) (hc : trim c ≠ []) :
    (listItems (init ++ [line])).getLast? = some (trim c) := by
  unfold listItems
  rw [flatMap_append, flatMap_singleton, hsplit, map_append, map_singleton, ← append_assoc, filter_append]
  simp [hc]

/-- **What the code takes for chunked**: the last transfer coding is `chunked`, and the last line ends with it. -/
theorem isChunked_iff (lines : List HeaderValue) : isChunked lines = true ↔ FinalChunked lines ∧ EndsInItem lines := by
  rcases eq_nil_or_concat lines with rfl | ⟨init, line, rfl⟩
  · simp [isChunked, EndsInItem]
  · rw [concat_eq_append]
    obtain ⟨items, c, hc⟩ := splitComma_concat line.bytes
    have hends : EndsInItem (init ++ [line]) ↔ line.toStr.isSome = true ∧ trim c ≠ [] := by
      simp [EndsInItem, hc]
    rw [hends]
    constructor
    · intro h
      refine ⟨finalChunked_of_isChunked h, ?_⟩
      unfold isChunked at h
      rw [getLast?_concat] at h
      simp only at h
      cases hs : line.toStr with
      | none => rw [hs] at h; cases h
      | some s =>
        rw [hs, toStr_eq_some hs] at h
        simp only [hc, getLast?_concat] at h
        refine ⟨rfl, fun hnil => ?_⟩
        rw [hnil] at h
        revert h
        decide
    · rintro ⟨hfinal, hstr, htrim⟩
      unfold FinalChunked at hfinal
      rw [listItems_concat hc htrim] at hfinal
      unfold isChunked
      rw [getLast?_concat]
      simp only [toStr_of_isSome hstr, hc, getLast?_concat]
      simpa using hfinal

/-! ## The rules -/

namespace Client

def Interim (code : ℕ) : Prop := code < 200 ∧ code ≠ 101

/-- A response without a body, whatever its fields say. -/
def Bodiless (code : ℕ) (method : Option Method) : Prop :=
  code = 101 ∨ 200 ≤ code ∧ code < 300 ∧ method = some .connect ∨ code = 204 ∨ code = 304 ∨ method = some .head

variable {inc : ResponseHead} {method : Option Method}

theorem decoder_of_interim (h : Interim inc.subject.code) : decoder inc method = .ok none := by
  simp only [decoder, if_neg h.2, if_pos h.1]

theorem decoder_of_bodiless (hi : ¬ Interim inc.subject.code) (hb : Bodiless inc.subject.code method) :
    ∃ upgrade, decoder inc method = .ok (some (.zero, upgrade)) := by
  unfold decoder
  by_cases h101 : inc.subject.code = 101
  · exact ⟨true, by simp only [if_pos h101]⟩
  · have h200 : ¬ inc.subject.code < 200 := fun h => hi ⟨h, h101⟩
    simp only [if_neg h101, if_neg h200]
    split
    · exact ⟨true, rfl⟩
    · rename_i hconnect
      split
      · exact ⟨false, rfl⟩
      · rename_i hcode
        simp only [Bool.and_eq_true, decide_eq_true_eq, not_and] at hconnect
        simp only [Bool.or_eq_true, decide_eq_true_eq, not_or] at hcode
        rcases hb with h | ⟨-, h, hm⟩ | h | h | hm
        · exact absurd h h101
        · exact absurd hm (hconnect h)
        · exact absurd h hcode.1
        · exact absurd h hcode.2
        · exact ⟨false, by rw [if_pos hm]⟩

def fieldFraming (inc : ResponseHead) : Except Parse (Option (DecodedLength × Bool)) :=
  if inc.headers.containsKey .transferEncoding then
    if inc.version = .http10 then .error (.header .transferEncodingUnexpected)
    else if transferEncodingIsChunked inc.headers then .ok (some (.chunked, false))
    else .ok (some (.closeDelimited, false))
  else
    match contentLengthParseAll inc.headers with
    | some len => (DecodedLength.checkedNew len).map fun l => some (l, false)
    | none =>
      if inc.headers.containsKey .contentLength then .error (.header .contentLengthInvalid)
      else .ok (some (.closeDelimited, false))

theorem decoder_of_fields (hi : ¬ Interim inc.subject.code) (hb : ¬ Bodiless inc.subject.code method) :
    decoder inc method = fieldFraming inc := by
  unfold Bodiless at hb
  simp only [not_or, not_and] at hb
  obtain ⟨h101, hconnect, h204, h304, hhead⟩ := hb
  have h200 : ¬ inc.subject.code < 200 := fun h => hi ⟨h, h101⟩
  have hc : ¬ (decide (inc.subject.code < 300) && decide (method = some .connect)) = true := by
    simp only [Bool.and_eq_true, decide_eq_true_eq, not_and]
    exact hconnect (by omega)
  have hn : ¬ (decide (inc.subject.code = 204) || decide (inc.subject.code = 304)) = true := by
    simp [h204, h304]
  unfold decoder
  simp only [if_neg h101, if_neg h200, if_neg hc, if_neg hn, if_neg hhead]
  rfl

theorem fieldFraming_ne_none (inc : ResponseHead) : fieldFraming inc ≠ .ok none := by
  unfold fieldFraming
  split
  · split
    · simp
    · split <;> simp
  · split
    · unfold DecodedLength.checkedNew
      split <;> simp [Except.map]
    · split <;> simp

theorem fieldFraming_of_coding (h : inc.headers.getAll .transferEncoding ≠ []) (hv : inc.version ≠ .http10) :
    fieldFraming inc = .ok (some
      (if isChunked (inc.headers.getAll .transferEncoding) then .chunked else .closeDelimited, false)) := by
  have hte : inc.headers.containsKey .transferEncoding = true := by
    rw [← Bool.not_eq_false, ← HeaderMap.getAll_eq_nil]
    exact h
  unfold fieldFraming transferEncodingIsChunked
  rw [if_pos hte, if_neg hv]
  split <;> rfl

theorem checkedNew_eq_ok {n k : ℕ} : DecodedLength.checkedNew n = .ok (.exact k) ↔ n = k ∧ n < u64Size - 2 := by
  unfold DecodedLength.checkedNew DecodedLength.maxLen
  have : u64Size - 3 = u64Size - 2 - 1 := rfl
  have hpos : 0 < u64Size - 2 := by decide
  by_cases h : n ≤ u64Size - 3
  · rw [if_pos h]
    simp only [Except.ok.injEq, DecodedLength.exact.injEq]
    exact ⟨fun hk => ⟨hk, by omega⟩, fun hk => hk.1⟩
  · rw [if_neg h]
    refine ⟨nofun, fun hx => ?_⟩
    omega

theorem fieldFraming_of_length (h : inc.headers.getAll .transferEncoding = []) :
    (∀ n, fieldFraming inc = .ok (some (.exact n, false)) ↔ inc.headers.getAll .contentLength ≠ [] ∧
      (∀ v ∈ inc.headers.getAll .contentLength, DenotesLength n v) ∧ n < u64Size - 2) ∧
    ((∃ e, fieldFraming inc = .error e) ↔ inc.headers.getAll .contentLength ≠ [] ∧
      ¬ ∃ n, (∀ v ∈ inc.headers.getAll .contentLength, DenotesLength n v) ∧ n < u64Size - 2) ∧
    (inc.headers.getAll .contentLength = [] → fieldFraming inc = .ok (some (.closeDelimited, false))) := by
  have hte : ¬ inc.headers.containsKey .transferEncoding = true := by
    rw [Bool.not_eq_true, ← HeaderMap.getAll_eq_nil]
    exact h
  have hlt : ∀ n, n < u64Size - 2 → n < u64Size := fun n hn => by omega
  unfold fieldFraming
  rw [if_neg hte]
  cases hcl : contentLengthParseAll inc.headers with
  | some len =>
    obtain ⟨hne, hall, -⟩ := contentLengthParseAllValues_iff.1 hcl
    have huniq : ∀ n, (∀ v ∈ inc.headers.getAll .contentLength, DenotesLength n v) → n < u64Size - 2 → n = len := by
      intro n hn hb
      have := contentLengthParseAllValues_of_denotes (hlt n hb) hne hn
      exact (Option.some.inj (hcl.symm.trans this)).symm
    simp only
    refine ⟨fun n => ?_, ?_, fun hnil => absurd hnil hne⟩
    · constructor
      · intro hx
        cases hnew : DecodedLength.checkedNew len with
        | error e => rw [hnew] at hx; cases hx
        | ok l =>
          rw [hnew] at hx
          simp only [Except.map, Except.ok.injEq, Option.some.injEq, Prod.mk.injEq, and_true] at hx
          obtain ⟨rfl, hb⟩ := checkedNew_eq_ok.1 (hx ▸ hnew)
          exact ⟨hne, hall, hb⟩
      · rintro ⟨-, hn, hb⟩
        obtain rfl := huniq n hn hb
        rw [checkedNew_eq_ok.2 ⟨rfl, hb⟩]
        rfl
    · constructor
      · rintro ⟨e, hx⟩
        refine ⟨hne, ?_⟩
        rintro ⟨n, hn, hb⟩
        obtain rfl := huniq n hn hb
        rw [checkedNew_eq_ok.2 ⟨rfl, hb⟩] at hx
        cases hx
      · rintro ⟨-, hno⟩
        have hbig : ¬ len ≤ DecodedLength.maxLen := fun hle => hno ⟨len, hall, by
          unfold DecodedLength.maxLen at hle
          have : u64Size - 3 < u64Size - 2 := by decide
          omega⟩
        exact ⟨.tooLarge, by unfold DecodedLength.checkedNew; rw [if_neg hbig]; rfl⟩
  | none =>
    have hno : inc.headers.getAll .contentLength ≠ [] →
        ∀ n, ¬ ((∀ v ∈ inc.headers.getAll .contentLength, DenotesLength n v) ∧ n < u64Size - 2) := by
      rintro hne n ⟨hn, hb⟩
      have := contentLengthParseAllValues_of_denotes (hlt n hb) hne hn
      cases hcl.symm.trans this
    simp only
    cases hkey : inc.headers.containsKey .contentLength with
    | true =>
      have hne : inc.headers.getAll .contentLength ≠ [] := by
        rw [ne_eq, HeaderMap.getAll_eq_nil, hkey]
        simp
      rw [if_pos rfl]
      refine ⟨fun n => ⟨nofun, fun hx => absurd hx.2 (hno hne n)⟩,
        ⟨fun _ => ⟨hne, fun hx => ?_⟩, fun _ => ⟨_, rfl⟩⟩, fun hnil => absurd hnil hne⟩
      obtain ⟨n, hn⟩ := hx
      exact hno hne n hn
    | false =>
      have hnil : inc.headers.getAll .contentLength = [] := HeaderMap.getAll_eq_nil.2 hkey
      rw [if_neg (by simp)]
      refine ⟨fun n => ⟨nofun, fun hx => absurd hnil hx.1⟩, ⟨fun hx => ?_, fun hx => absurd hnil hx.1⟩,
        fun _ => rfl⟩
      obtain ⟨e, hx⟩ := hx
      cases hx

/-- **The framing of a response**, for every status, method, version and fields:

* an interim response is skipped, and no other;
* some responses have no body;
* with a transfer coding, HTTP/1.0 is rejected, and else the body is chunked exactly when the last transfer coding is
  `chunked` and the last line ends with it, and goes on until the end of the stream otherwise;
* without one, the body has length `n` exactly when every item of every `Content-Length` line denotes `n`, it fails when
  there is a line and no such number, and it goes on until the end of the stream when there is no line. -/
theorem response_framing (inc : ResponseHead) (method : Option Method) :
    let code := inc.subject.code
    let codings := inc.headers.getAll .transferEncoding
    let lengths := inc.headers.getAll .contentLength
    let Denoted (n : ℕ) := (∀ v ∈ lengths, DenotesLength n v) ∧ n < u64Size - 2
    let r := decoder inc method
    (r = .ok none ↔ Interim code) ∧
    (¬ Interim code → Bodiless code method → ∃ upgrade, r = .ok (some (.zero, upgrade))) ∧
    (¬ Interim code → ¬ Bodiless code method →
      (codings ≠ [] → inc.version = .http10 → ∃ e, r = .error e) ∧
      (codings ≠ [] → inc.version ≠ .http10 →
        (r = .ok (some (.chunked, false)) ↔ FinalChunked codings ∧ EndsInItem codings) ∧
        (r = .ok (some (.closeDelimited, false)) ↔ ¬ (FinalChunked codings ∧ EndsInItem codings))) ∧
      (codings = [] →
        (∀ n, r = .ok (some (.exact n, false)) ↔ lengths ≠ [] ∧ Denoted n) ∧
        ((∃ e, r = .error e) ↔ lengths ≠ [] ∧ ¬ ∃ n, Denoted n) ∧
        (lengths = [] → r = .ok (some (.closeDelimited, false))))) := by
  intro code codings lengths Denoted r
  refine ⟨⟨fun h => ?_, decoder_of_interim⟩, decoder_of_bodiless, fun hi hb => ⟨fun hne hv => ?_, fun hne hv => ?_,
    fun hnil => ?_⟩⟩
  · by_contra hi
    by_cases hb : Bodiless code method
    · obtain ⟨upgrade, hx⟩ := decoder_of_bodiless hi hb
      cases hx.symm.trans h
    · exact fieldFraming_ne_none inc ((decoder_of_fields hi hb).symm.trans h)
  · have hte : inc.headers.containsKey .transferEncoding = true := by
      rw [← Bool.not_eq_false, ← HeaderMap.getAll_eq_nil]
      exact hne
    refine ⟨.header .transferEncodingUnexpected, (decoder_of_fields hi hb).trans ?_⟩
    unfold fieldFraming
    rw [if_pos hte, if_pos hv]
  · have hr : r = _ := (decoder_of_fields hi hb).trans (fieldFraming_of_coding hne hv)
    rw [hr, ← isChunked_iff]
    cases isChunked codings <;> simp
  · have hr : r = fieldFraming inc := decoder_of_fields hi hb
    rw [hr]
    exact fieldFraming_of_length hnil

/-- `Transfer-Encoding: chunked,` -/
def emptyElement : HeaderMap :=
  ((HeaderValue.fromBytes (ascii "chunked,")).map (HeaderMap.empty.append .transferEncoding)).getD .empty

/-- **An empty element hides the last transfer coding**: the response is chunked, and is read to the end of the
stream. -/
theorem empty_element_hides_chunked :
    FinalChunked (emptyElement.getAll .transferEncoding) ∧
    decoder ⟨.http11, .okStatus, emptyElement, .none⟩ (some .get) = .ok (some (.closeDelimited, false)) := by
  decide +kernel

end Client

end Netty
