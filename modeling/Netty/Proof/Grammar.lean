import Mathlib.Data.List.Forall2
import Mathlib.Data.List.Induction
import Netty.Proof.Bounded
import Netty.Proof.Fragment
import Netty.Scan.Basic

/-!
# The grammar of a chunked body

The data part of a chunked body is everything up to the line of the last chunk. The decoder goes through it byte
by byte; here it is written down as a grammar, and the two are compared.

* `SizeLine`, `Chunk`, `DataPart`: the grammar. A value of these types is a derivation.
* `dataPart`: the transitions of the decoder up to the last line, as a scanner.
* `Within`, `Progress`: what the bytes read so far are in the grammar, for each state.
* `recognizes`: **the decoder recognises the grammar.**
* `chunked_grammar`: what that says of every byte string.
-/

namespace Netty

open List

/-! ## Hex digits -/

/-- `b` is the digit `d`, in either case. -/
def HexDigit (b : UInt8) (d : ℕ) : Prop :=
  (ascii "0123456789abcdef")[d]? = some b ∨ (ascii "0123456789ABCDEF")[d]? = some b

instance (b : UInt8) (d : ℕ) : Decidable (HexDigit b d) := by
  unfold HexDigit
  infer_instance

/-- The digits denote `n`. Their values are taken from the last one on. -/
def HexString (digits : Bytes) (n : ℕ) : Prop :=
  ∃ values, Forall₂ HexDigit digits.reverse values ∧ n = Nat.ofDigits 16 values

variable {b : UInt8}

theorem HexDigit.lt {d : ℕ} (h : HexDigit b d) : d < 16 := by
  rcases h with h | h <;> exact (List.getElem?_eq_some_iff.1 h).1

theorem hexVal_eq_some {d : ℕ} : Chunked.hexVal b = some d ↔ HexDigit b d := by
  constructor
  · have hall : ∀ n : Fin 256, ∀ d ∈ Chunked.hexVal (UInt8.ofNat n), HexDigit (UInt8.ofNat n) d := by decide +kernel
    intro h
    have := hall ⟨b.toNat, b.toNat_lt⟩ d
    simpa [h] using this
  · have hall : ∀ d : Fin 16, (∀ b ∈ (ascii "0123456789abcdef")[d.val]?, Chunked.hexVal b = some d.val) ∧
        ∀ b ∈ (ascii "0123456789ABCDEF")[d.val]?, Chunked.hexVal b = some d.val := by decide +kernel
    intro h
    obtain ⟨hl, hu⟩ := hall ⟨d, h.lt⟩
    exact h.elim (hl b) (hu b)

theorem hexString_nil : HexString [] 0 := ⟨[], .nil, rfl⟩

theorem hexString_concat {digits : Bytes} {n : ℕ} :
    HexString (digits ++ [b]) n ↔ ∃ m d, HexString digits m ∧ HexDigit b d ∧ n = 16 * m + d := by
  unfold HexString
  rw [reverse_append, reverse_singleton, singleton_append]
  constructor
  · rintro ⟨values, hv, rfl⟩
    obtain ⟨d, vs, hd, hvs, rfl⟩ := forall₂_cons_left_iff.1 hv
    refine ⟨_, d, ⟨vs, hvs, rfl⟩, hd, ?_⟩
    rw [Nat.ofDigits_cons]
    exact add_comm _ _
  · rintro ⟨m, d, ⟨vs, hvs, rfl⟩, hd, rfl⟩
    refine ⟨d :: vs, .cons hd hvs, ?_⟩
    rw [Nat.ofDigits_cons]
    exact add_comm _ _

/-! ## The grammar -/

/-- A chunk size, whitespace, and an extension. -/
structure SizeLine where
  digits : Bytes
  size : ℕ
  white : Bytes
  extension : Option Bytes
  digits_ne : digits ≠ []
  denotes : HexString digits size
  size_lt : size < u64Size
  white_ok : ∀ b ∈ white, b = 9 ∨ b = 32
  extension_ok : ∀ e ∈ extension, cr ∉ e ∧ lf ∉ e

namespace SizeLine

/-- The bytes behind the whitespace. -/
def extensionPart (l : SizeLine) : Bytes := l.extension.elim [] (59 :: ·)

/-- How many bytes of extension there are. The semicolon is not counted. -/
def extensionLen (l : SizeLine) : ℕ := l.extension.elim 0 List.length

/-- The line up to its end. -/
def front (l : SizeLine) : Bytes := l.digits ++ l.white ++ l.extensionPart

def bytes (l : SizeLine) : Bytes := l.front ++ crlf

end SizeLine

/-- A chunk with data. -/
structure Chunk where
  line : SizeLine
  data : Bytes
  data_length : data.length = line.size
  data_ne : data ≠ []

def Chunk.bytes (c : Chunk) : Bytes := c.line.bytes ++ c.data ++ crlf

def bytesOfAll (chunks : List Chunk) : Bytes := chunks.flatMap Chunk.bytes

def dataOfAll (chunks : List Chunk) : Bytes := chunks.flatMap Chunk.data

def extensionsOfAll : List Chunk → ℕ
  | [] => 0
  | c :: cs => c.line.extensionLen + extensionsOfAll cs

/-- The bytes of extensions in the chunks, and in one more line. -/
abbrev extensionsTo (chunks : List Chunk) (l : SizeLine) : ℕ := extensionsOfAll chunks + l.extensionLen

/-- **The data part of a body**: chunks with data, and the line of the last chunk. The extensions of all lines
together are limited. -/
structure DataPart where
  chunks : List Chunk
  last : SizeLine
  last_size : last.size = 0
  extensions_lt : extensionsOfAll chunks + last.extensionLen < chunkedExtensionsLimit

namespace DataPart

def bytes (p : DataPart) : Bytes := bytesOfAll p.chunks ++ p.last.bytes

def data (p : DataPart) : Bytes := dataOfAll p.chunks

end DataPart

/-- The byte strings of the grammar, with their data. -/
def InGrammar (s data : Bytes) : Prop := ∃ p : DataPart, p.bytes = s ∧ p.data = data

theorem extensionsOfAll_concat (cs : List Chunk) (c : Chunk) :
    extensionsOfAll (cs ++ [c]) = extensionsTo cs c.line := by
  induction cs with
  | nil => simp [extensionsOfAll]
  | cons d cs ih => simp only [cons_append, extensionsOfAll, extensionsTo, ih, add_assoc]

theorem bytesOfAll_concat (cs : List Chunk) (c : Chunk) : bytesOfAll (cs ++ [c]) = bytesOfAll cs ++ c.bytes := by
  simp [bytesOfAll]

theorem dataOfAll_concat (cs : List Chunk) (c : Chunk) : dataOfAll (cs ++ [c]) = dataOfAll cs ++ c.data := by
  simp [dataOfAll]

/-! ## The decoder as a scanner -/

/-- A byte, up to the line of the last chunk. -/
def dataPartStep (c : Chunked) (b : UInt8) : Except Outcome (Chunked × Bytes) :=
  if c.state = .body then .ok (c.eat 1, [b])
  else
    match c.onByte b with
    | (.to s, c') => .ok ({ c' with state := s }, [])
    | (.fail e, _) => .error (.failed e)
    | (.panic, _) => .error .panicked

/-- The data part is read when the line of the last chunk has ended. -/
def dataPart : Scanner UInt8 Chunked Outcome UInt8 where
  step := dataPartStep
  done c := c.state = .endCr

variable {H B : Option ℕ}

/-- The decoder inside the data part, where no trailers have been seen. -/
def point (H B : Option ℕ) (state : ChunkedState) (size extensions : ℕ) : Chunked :=
  ⟨state, size, extensions, none, 0, H, B⟩

section Step

variable {st : ChunkedState} {n k d : ℕ} {b : UInt8}

theorem dataPartStep_to {c c' : Chunked} (hb : c.state ≠ .body) (h : c.onByte b = (.to st, c')) :
    dataPartStep c b = .ok ({ c' with state := st }, []) := by
  rw [dataPartStep, if_neg hb, h]

theorem dataPartStep_fail {c c' : Chunked} {e : IoError} (hb : c.state ≠ .body) (h : c.onByte b = (.fail e, c')) :
    dataPartStep c b = .error (.failed e) := by
  rw [dataPartStep, if_neg hb, h]

section

variable (hst : st = .start ∨ st = .size) (hd : HexDigit b d)

include hst hd

theorem onByte_digit :
    (point H B st n k).state ≠ .body ∧ (point H B st n k).onByte b = (point H B st n k).pushDigit d := by
  have hv := hexVal_eq_some.2 hd
  rcases hst with rfl | rfl <;>
    simp only [Chunked.onByte, point, Chunked.readStart, Chunked.readSize, hv, and_true] <;> simp

theorem step_digit (hlt : 16 * n + d < u64Size) :
    dataPartStep (point H B st n k) b = .ok (point H B .size (16 * n + d) k, []) := by
  obtain ⟨hb, hbyte⟩ := onByte_digit (H := H) (B := B) (n := n) (k := k) hst hd
  have hmul : checkedMul n 16 = some (16 * n) := by rw [checkedMul, if_pos (by omega), mul_comm]
  have hadd : checkedAdd (16 * n) d = some (16 * n + d) := if_pos hlt
  have hpush : (point H B st n k).pushDigit d = (.to .size, point H B st (16 * n + d) k) := by
    simp only [Chunked.pushDigit, point, hmul, hadd, Chunked.go]
  exact dataPartStep_to hb (hbyte.trans hpush)

theorem step_digit_overflow (hge : u64Size ≤ 16 * n + d) :
    dataPartStep (point H B st n k) b = .error (.failed sizeOverflow) := by
  obtain ⟨hb, hbyte⟩ := onByte_digit (H := H) (B := B) (n := n) (k := k) hst hd
  have hpush : ∃ c', (point H B st n k).pushDigit d = (.fail sizeOverflow, c') := by
    by_cases hm : n * 16 < u64Size
    · have hmul : checkedMul n 16 = some (n * 16) := if_pos hm
      have hadd : checkedAdd (n * 16) d = none := if_neg (by omega)
      exact ⟨_, by simp only [Chunked.pushDigit, point, hmul, hadd]; rfl⟩
    · have hmul : checkedMul n 16 = none := if_neg hm
      exact ⟨_, by simp only [Chunked.pushDigit, point, hmul]; rfl⟩
  obtain ⟨c', hpush⟩ := hpush
  exact dataPartStep_fail hb (hbyte.trans hpush)

end

variable {x : Chunked × Bytes}

theorem step_start_inv (h : dataPartStep (point H B .start n k) b = .ok x) : ∃ d, HexDigit b d := by
  cases hv : Chunked.hexVal b with
  | some d => exact ⟨d, hexVal_eq_some.1 hv⟩
  | none => simp [dataPartStep, point, Chunked.onByte, Chunked.readStart, hv, Chunked.fail] at h

theorem step_white (hst : st = .size ∨ st = .sizeLws) (hb : b = 9 ∨ b = 32) :
    dataPartStep (point H B st n k) b = .ok (point H B .sizeLws n k, []) := by
  rcases hst with rfl | rfl <;> rcases hb with rfl | rfl <;> rfl

theorem step_semicolon (hst : st = .size ∨ st = .sizeLws) :
    dataPartStep (point H B st n k) 59 = .ok (point H B .extension n k, []) := by
  rcases hst with rfl | rfl <;> rfl

theorem step_lineCr (hst : st = .size ∨ st = .sizeLws ∨ st = .extension) :
    dataPartStep (point H B st n k) cr = .ok (point H B .sizeLf n k, []) := by
  rcases hst with rfl | rfl | rfl <;> rfl

theorem step_size_inv (h : dataPartStep (point H B .size n k) b = .ok x) :
    (∃ d, HexDigit b d) ∨ (b = 9 ∨ b = 32) ∨ b = 59 ∨ b = cr := by
  cases hv : Chunked.hexVal b with
  | some d => exact .inl ⟨d, hexVal_eq_some.1 hv⟩
  | none =>
    right
    by_contra hn
    simp only [not_or] at hn
    simp [dataPartStep, point, Chunked.onByte, Chunked.readSize, hv, hn, Chunked.fail] at h

theorem step_sizeLws_inv (h : dataPartStep (point H B .sizeLws n k) b = .ok x) :
    (b = 9 ∨ b = 32) ∨ b = 59 ∨ b = cr := by
  by_contra hn
  simp only [not_or] at hn
  simp [dataPartStep, point, Chunked.onByte, Chunked.readSizeLws, hn, Chunked.fail] at h

theorem step_extension (hcr : b ≠ cr) (hlf : b ≠ lf) (hk : k + 1 < chunkedExtensionsLimit) :
    dataPartStep (point H B .extension n k) b = .ok (point H B .extension n (k + 1), []) := by
  have hbyte : (point H B .extension n k).onByte b = (.to .extension, point H B .extension n (k + 1)) := by
    show Chunked.readExtension _ _ = _
    rw [Chunked.readExtension, if_neg hcr, if_neg hlf]
    exact if_neg (not_le.2 hk)
  exact dataPartStep_to (by simp [point]) hbyte

theorem step_extension_overflow (hcr : b ≠ cr) (hlf : b ≠ lf) (hk : chunkedExtensionsLimit ≤ k + 1) :
    dataPartStep (point H B .extension n k) b =
      .error (.failed (ioError .invalidData "chunk extensions over limit")) := by
  have hbyte : (point H B .extension n k).onByte b =
      (.fail (ioError .invalidData "chunk extensions over limit"), point H B .extension n (k + 1)) := by
    show Chunked.readExtension _ _ = _
    rw [Chunked.readExtension, if_neg hcr, if_neg hlf]
    exact if_pos hk
  exact dataPartStep_fail (by simp [point]) hbyte

theorem step_extension_inv (h : dataPartStep (point H B .extension n k) b = .ok x) : b ≠ lf := by
  rintro rfl
  cases h

theorem step_sizeLf : dataPartStep (point H B .sizeLf n k) lf =
    .ok (point H B (if n = 0 then .endCr else .body) n k, []) := by
  by_cases hn : n = 0
  · subst hn; rfl
  · simp [dataPartStep, point, Chunked.onByte, Chunked.readSizeLf, hn, Chunked.go]

theorem step_sizeLf_inv (h : dataPartStep (point H B .sizeLf n k) b = .ok x) : b = lf := by
  by_contra hb
  simp [dataPartStep, point, Chunked.onByte, Chunked.readSizeLf, hb, Chunked.fail] at h

theorem step_body : dataPartStep (point H B .body n k) b =
    .ok (point H B (if 0 < n - 1 then .body else .bodyCr) (n - 1) k, [b]) := rfl

theorem step_bodyCr : dataPartStep (point H B .bodyCr n k) cr = .ok (point H B .bodyLf n k, []) := rfl

theorem step_bodyCr_inv (h : dataPartStep (point H B .bodyCr n k) b = .ok x) : b = cr := by
  by_contra hb
  simp [dataPartStep, point, Chunked.onByte, Chunked.readBodyCr, hb, Chunked.fail] at h

theorem step_bodyLf : dataPartStep (point H B .bodyLf n k) lf = .ok (point H B .start n k, []) := rfl

theorem step_bodyLf_inv (h : dataPartStep (point H B .bodyLf n k) b = .ok x) : b = lf := by
  by_contra hb
  simp [dataPartStep, point, Chunked.onByte, Chunked.readBodyLf, hb, Chunked.fail] at h

end Step

/-! ## Every string of the grammar is read -/

section Complete

open Scanner

variable {n k : ℕ}

theorem reaches_byte {st st' : ChunkedState} {n' k' : ℕ} {b : UInt8} {o : Bytes} (hst : st ≠ .endCr)
    (h : dataPartStep (point H B st n k) b = .ok (point H B st' n' k', o)) :
    dataPart.Reaches (point H B st n k) [b] o (point H B st' n' k') :=
  .one (by simpa [dataPart, point] using hst) h

theorem reaches_digits {digits : Bytes} (hne : digits ≠ []) : ∀ {n : ℕ}, HexString digits n → n < u64Size →
    dataPart.Reaches (point H B .start 0 k) digits [] (point H B .size n k) := by
  induction digits using reverseRecOn with
  | nil => exact absurd rfl hne
  | append_singleton ds b ih =>
    intro n hn hlt
    obtain ⟨m, d, hm, hd, rfl⟩ := hexString_concat.1 hn
    by_cases hds : ds = []
    · subst hds
      obtain ⟨values, hv, rfl⟩ := hm
      cases hv
      exact reaches_byte (by simp) (step_digit (.inl rfl) hd hlt)
    · exact (ih hds hm (by omega)).trans (reaches_byte (by simp) (step_digit (.inr rfl) hd hlt))

theorem reaches_white {white : Bytes} (h : ∀ b ∈ white, b = 9 ∨ b = 32) : ∀ st : ChunkedState,
    st = .size ∨ st = .sizeLws → ∃ st', (st' = .size ∨ st' = .sizeLws) ∧
      dataPart.Reaches (point H B st n k) white [] (point H B st' n k) := by
  induction white with
  | nil => intro st hst; exact ⟨st, hst, .refl _⟩
  | cons b white ih =>
    intro st hst
    obtain ⟨st', hst', hr⟩ := ih (fun b hb => h b (mem_cons_of_mem _ hb)) .sizeLws (.inr rfl)
    refine ⟨st', hst', ?_⟩
    have hone := reaches_byte (by rcases hst with rfl | rfl <;> simp)
      (step_white (H := H) (B := B) (n := n) (k := k) hst (h b mem_cons_self))
    exact hone.trans hr

theorem reaches_extension {e : Bytes} : ∀ {k : ℕ}, cr ∉ e → lf ∉ e → k + e.length < chunkedExtensionsLimit →
    dataPart.Reaches (point H B .extension n k) e [] (point H B .extension n (k + e.length)) := by
  induction e with
  | nil => intro k _ _ _; exact .refl _
  | cons b e ih =>
    intro k hcr hlf hk
    rw [mem_cons, not_or] at hcr hlf
    rw [length_cons] at hk ⊢
    have hone : dataPart.Reaches (point H B .extension n k) [b] [] (point H B .extension n (k + 1)) :=
      reaches_byte (by simp) (step_extension (Ne.symm hcr.1) (Ne.symm hlf.1) (by omega))
    have hrest := hone.trans (ih (k := k + 1) hcr.2 hlf.2 (by omega))
    rwa [Nat.add_right_comm] at hrest

/-- The states in which a line can end, and what was read of it. -/
def LineState (l : SizeLine) (st : ChunkedState) : Prop :=
  st = .size ∧ l.white = [] ∧ l.extension = none ∨ st = .sizeLws ∧ l.extension = none ∨
    st = .extension ∧ l.extension ≠ none

theorem LineState.cases {l : SizeLine} {st : ChunkedState} (h : LineState l st) :
    st = .size ∨ st = .sizeLws ∨ st = .extension := by
  rcases h with ⟨rfl, -⟩ | ⟨rfl, -⟩ | ⟨rfl, -⟩ <;> simp

theorem reaches_front (l : SizeLine) (hk : k + l.extensionLen < chunkedExtensionsLimit) :
    ∃ st, (st = .size ∨ st = .sizeLws ∨ st = .extension) ∧ (l.extension ≠ none → st = .extension) ∧
      dataPart.Reaches (point H B .start 0 k) l.front [] (point H B st l.size (k + l.extensionLen)) := by
  obtain ⟨st, hst, hwhite⟩ := reaches_white (H := H) (B := B) (n := l.size) (k := k) l.white_ok .size (.inl rfl)
  have hdigits : dataPart.Reaches (point H B .start 0 k) l.digits [] (point H B .size l.size k) :=
    reaches_digits l.digits_ne l.denotes l.size_lt
  have hfront := hdigits.trans hwhite
  unfold SizeLine.front SizeLine.extensionPart SizeLine.extensionLen at *
  cases he : l.extension with
  | none => exact ⟨st, by tauto, fun h => absurd rfl h, by simpa using hfront⟩
  | some e =>
    obtain ⟨hcr, hlf⟩ := l.extension_ok e he
    rw [he] at hk
    have hsemi : dataPart.Reaches (point H B st l.size k) [59] [] (point H B .extension l.size k) :=
      reaches_byte (by rcases hst with rfl | rfl <;> simp) (step_semicolon hst)
    have hext := hsemi.trans (reaches_extension (n := l.size) (H := H) (B := B) hcr hlf hk)
    exact ⟨.extension, by simp, fun _ => rfl, hfront.trans hext⟩

theorem reaches_line (l : SizeLine) (hk : k + l.extensionLen < chunkedExtensionsLimit) :
    dataPart.Reaches (point H B .start 0 k) l.bytes []
      (point H B (if l.size = 0 then .endCr else .body) l.size (k + l.extensionLen)) := by
  obtain ⟨st, hst, -, hfront⟩ := reaches_front (H := H) (B := B) l hk
  have hcr : dataPart.Reaches (point H B st l.size (k + l.extensionLen)) [cr] []
      (point H B .sizeLf l.size (k + l.extensionLen)) :=
    reaches_byte (by rcases hst with rfl | rfl | rfl <;> simp) (step_lineCr hst)
  exact hfront.trans (hcr.trans (reaches_byte (by simp) step_sizeLf))

theorem reaches_data (x : Bytes) : ∀ {n : ℕ}, x.length = n → x ≠ [] →
    dataPart.Reaches (point H B .body n k) x x (point H B .bodyCr 0 k) := by
  induction x with
  | nil => intro n _ hne; exact absurd rfl hne
  | cons b x ih =>
    rintro _ rfl -
    have hone : dataPart.Reaches (point H B .body (x.length + 1) k) [b] [b] _ := reaches_byte (by simp) step_body
    rw [Nat.add_sub_cancel] at hone
    by_cases hx : x = []
    · subst hx
      exact hone
    · rw [if_pos (length_pos_iff.2 hx)] at hone
      exact hone.trans (ih rfl hx)

theorem reaches_chunk (c : Chunk) (hk : k + c.line.extensionLen < chunkedExtensionsLimit) :
    dataPart.Reaches (point H B .start 0 k) c.bytes c.data (point H B .start 0 (k + c.line.extensionLen)) := by
  have hne : c.line.size ≠ 0 := by
    rw [← c.data_length]
    exact fun h => c.data_ne (length_eq_zero_iff.1 h)
  have hline := reaches_line (H := H) (B := B) c.line hk
  rw [if_neg hne] at hline
  have hend : dataPart.Reaches (point H B .bodyCr 0 (k + c.line.extensionLen)) crlf []
      (point H B .start 0 (k + c.line.extensionLen)) :=
    (reaches_byte (by simp) step_bodyCr).trans (reaches_byte (by simp) step_bodyLf)
  have hall := (hline.trans (reaches_data c.data c.data_length c.data_ne)).trans hend
  rwa [nil_append, append_nil] at hall

theorem reaches_chunks (cs : List Chunk) : ∀ {k : ℕ}, k + extensionsOfAll cs < chunkedExtensionsLimit →
    dataPart.Reaches (point H B .start 0 k) (bytesOfAll cs) (dataOfAll cs)
      (point H B .start 0 (k + extensionsOfAll cs)) := by
  induction cs with
  | nil => intro k _; exact .refl _
  | cons c cs ih =>
    intro k hk
    rw [extensionsOfAll, ← add_assoc] at hk ⊢
    exact (reaches_chunk c (by omega)).trans (ih hk)

/-- **Every string of the grammar is read.** -/
theorem reaches_grammar {s data : Bytes} (h : InGrammar s data) :
    ∃ c, dataPart.Reaches (Chunked.new H B) s data c ∧ dataPart.done c = true := by
  obtain ⟨p, rfl, rfl⟩ := h
  have hlt := p.extensions_lt
  have hline := reaches_line (H := H) (B := B) p.last hlt
  rw [if_pos p.last_size] at hline
  have hchunks := reaches_chunks (H := H) (B := B) (k := 0) p.chunks (by omega)
  rw [zero_add] at hchunks
  have hall := hchunks.trans hline
  rw [append_nil] at hall
  exact ⟨_, hall, rfl⟩

end Complete

/-! ## Nothing else is read -/

namespace SizeLine

def first (b : UInt8) (d : ℕ) (h : HexDigit b d) : SizeLine where
  digits := [b]
  size := d
  white := []
  extension := none
  digits_ne := cons_ne_nil b []
  denotes := hexString_concat.2 ⟨0, d, hexString_nil, h, (zero_add d).symm⟩
  size_lt := h.lt.trans (by unfold u64Size; omega)
  white_ok _ h := absurd h not_mem_nil
  extension_ok _ h := by cases h

def pushDigit (l : SizeLine) (b : UInt8) (d : ℕ) (h : HexDigit b d) (hlt : 16 * l.size + d < u64Size) : SizeLine :=
  { l with
    digits := l.digits ++ [b]
    size := 16 * l.size + d
    digits_ne := append_ne_nil_of_right_ne_nil _ (cons_ne_nil b [])
    denotes := hexString_concat.2 ⟨l.size, d, l.denotes, h, rfl⟩
    size_lt := hlt }

def pushWhite (l : SizeLine) (b : UInt8) (h : b = 9 ∨ b = 32) : SizeLine :=
  { l with
    white := l.white ++ [b]
    white_ok := forall_mem_append.2 ⟨l.white_ok, forall_mem_singleton.2 h⟩ }

def withExtension (l : SizeLine) (e : Bytes) (hcr : cr ∉ e) (hlf : lf ∉ e) : SizeLine :=
  { l with
    extension := some e
    extension_ok := fun _ h => Option.some.inj h ▸ ⟨hcr, hlf⟩ }

def zero : SizeLine := first 48 0 (.inl rfl)

variable {l : SizeLine} {b : UInt8}

theorem front_pushDigit {d : ℕ} (h : HexDigit b d) (hlt : 16 * l.size + d < u64Size) (hw : l.white = [])
    (he : l.extension = none) : (l.pushDigit b d h hlt).front = l.front ++ [b] := by
  simp [front, extensionPart, pushDigit, hw, he]

theorem front_pushWhite (h : b = 9 ∨ b = 32) (he : l.extension = none) : (l.pushWhite b h).front = l.front ++ [b] := by
  simp [front, extensionPart, pushWhite, he]

theorem front_withExtension_nil (he : l.extension = none) :
    (l.withExtension [] not_mem_nil not_mem_nil).front = l.front ++ [59] := by
  simp [front, extensionPart, withExtension, he]

theorem front_withExtension_concat {e : Bytes} (he : l.extension = some e) (hcr : cr ∉ e ++ [b]) (hlf : lf ∉ e ++ [b]) :
    (l.withExtension (e ++ [b]) hcr hlf).front = l.front ++ [b] := by
  simp [front, extensionPart, withExtension, he]

end SizeLine

/-- **What has been read behind the last complete chunk**, for each state: the bytes, and the data in them. -/
inductive Within (H B : Option ℕ) (chunks : List Chunk) : Bytes → Bytes → Chunked → Prop
  | start : Within H B chunks [] [] (point H B .start 0 (extensionsOfAll chunks))
  | line {l : SizeLine} {st : ChunkedState} : LineState l st →
      Within H B chunks l.front [] (point H B st l.size (extensionsTo chunks l))
  | sizeLf (l : SizeLine) :
      Within H B chunks (l.front ++ [cr]) [] (point H B .sizeLf l.size (extensionsTo chunks l))
  | body {l : SizeLine} {x : Bytes} : x.length < l.size →
      Within H B chunks (l.bytes ++ x) x (point H B .body (l.size - x.length) (extensionsTo chunks l))
  | bodyCr (c : Chunk) : Within H B chunks (c.line.bytes ++ c.data) c.data
      (point H B .bodyCr 0 (extensionsTo chunks c.line))
  | bodyLf (c : Chunk) : Within H B chunks (c.line.bytes ++ c.data ++ [cr]) c.data
      (point H B .bodyLf 0 (extensionsTo chunks c.line))
  | last {l : SizeLine} : l.size = 0 →
      Within H B chunks l.bytes [] (point H B .endCr 0 (extensionsTo chunks l))

/-- **What has been read**: complete chunks, and something behind them. -/
def Progress (H B : Option ℕ) (x o : Bytes) (c : Chunked) : Prop :=
  ∃ chunks w d, x = bytesOfAll chunks ++ w ∧ o = dataOfAll chunks ++ d ∧ Within H B chunks w d c ∧ c.Inv H B

section Sound

variable {chunks : List Chunk} {n k : ℕ} {b : UInt8} {c' : Chunked} {o : Bytes} {l : SizeLine} {st : ChunkedState}

theorem within_line {w : Bytes} (h : LineState l st) (hw : l.front = w) (hn : n = l.size)
    (hk : k = extensionsTo chunks l) : Within H B chunks w [] (point H B st n k) := by
  subst hw hn hk
  exact .line h

theorem grows_start (h : dataPartStep (point H B .start 0 (extensionsOfAll chunks)) b = .ok (c', o)) :
    Within H B chunks [b] o c' := by
  obtain ⟨d, hd⟩ := step_start_inv h
  have hlt : 16 * 0 + d < u64Size := by
    have := hd.lt
    unfold u64Size
    omega
  rw [step_digit (.inl rfl) hd hlt] at h
  cases h
  exact within_line (l := .first b d hd) (.inl ⟨rfl, rfl, rfl⟩) rfl (by simp [SizeLine.first]) rfl

theorem grows_digit {d : ℕ} (hw : l.white = []) (he : l.extension = none) (hd : HexDigit b d)
    (h : dataPartStep (point H B .size l.size (extensionsTo chunks l)) b = .ok (c', o)) :
    Within H B chunks (l.front ++ [b]) o c' := by
  by_cases hlt : 16 * l.size + d < u64Size
  · rw [step_digit (.inr rfl) hd hlt] at h
    cases h
    exact within_line (l := l.pushDigit b d hd hlt) (.inl ⟨rfl, hw, he⟩) (SizeLine.front_pushDigit hd hlt hw he) rfl rfl
  · rw [step_digit_overflow (.inr rfl) hd (le_of_not_gt hlt)] at h
    cases h

theorem grows_white (hst : st = .size ∨ st = .sizeLws) (he : l.extension = none) (hb : b = 9 ∨ b = 32)
    (h : dataPartStep (point H B st l.size (extensionsTo chunks l)) b = .ok (c', o)) :
    Within H B chunks (l.front ++ [b]) o c' := by
  rw [step_white hst hb] at h
  cases h
  exact within_line (l := l.pushWhite b hb) (.inr (.inl ⟨rfl, he⟩)) (SizeLine.front_pushWhite hb he) rfl rfl

theorem grows_semicolon (hst : st = .size ∨ st = .sizeLws) (he : l.extension = none)
    (h : dataPartStep (point H B st l.size (extensionsTo chunks l)) 59 = .ok (c', o)) :
    Within H B chunks (l.front ++ [59]) o c' := by
  rw [step_semicolon hst] at h
  cases h
  refine within_line (.inr (.inr ⟨rfl, by simp [SizeLine.withExtension]⟩)) (SizeLine.front_withExtension_nil he) rfl ?_
  simp [SizeLine.extensionLen, SizeLine.withExtension, he]

theorem grows_cr (hst : LineState l st)
    (h : dataPartStep (point H B st l.size (extensionsTo chunks l)) cr = .ok (c', o)) :
    Within H B chunks (l.front ++ [cr]) o c' := by
  rw [step_lineCr hst.cases] at h
  cases h
  exact .sizeLf l

theorem grows_extension (he : l.extension ≠ none)
    (h : dataPartStep (point H B .extension l.size (extensionsTo chunks l)) b = .ok (c', o)) :
    Within H B chunks (l.front ++ [b]) o c' := by
  by_cases hcr : b = cr
  · subst hcr
    exact grows_cr (.inr (.inr ⟨rfl, he⟩)) h
  obtain ⟨e, hsome⟩ := Option.ne_none_iff_exists'.1 he
  obtain ⟨hcr', hlf'⟩ := l.extension_ok e hsome
  have hlf : b ≠ lf := step_extension_inv h
  by_cases hk : extensionsTo chunks l + 1 < chunkedExtensionsLimit
  · rw [step_extension hcr hlf hk] at h
    cases h
    have hcr'' : cr ∉ e ++ [b] := by simp [hcr', Ne.symm hcr]
    have hlf'' : lf ∉ e ++ [b] := by simp [hlf', Ne.symm hlf]
    refine within_line (.inr (.inr ⟨rfl, by simp [SizeLine.withExtension]⟩))
      (SizeLine.front_withExtension_concat hsome hcr'' hlf'') rfl ?_
    simp [SizeLine.extensionLen, SizeLine.withExtension, hsome, add_assoc]
  · rw [step_extension_overflow hcr hlf (le_of_not_gt hk)] at h
    cases h

theorem grows_line (hst : LineState l st)
    (h : dataPartStep (point H B st l.size (extensionsTo chunks l)) b = .ok (c', o)) :
    Within H B chunks (l.front ++ [b]) o c' := by
  have hall := hst
  rcases hst with ⟨rfl, hw, he⟩ | ⟨rfl, he⟩ | ⟨rfl, he⟩
  · rcases step_size_inv h with ⟨d, hd⟩ | hb | rfl | rfl
    · exact grows_digit hw he hd h
    · exact grows_white (.inl rfl) he hb h
    · exact grows_semicolon (.inl rfl) he h
    · exact grows_cr hall h
  · rcases step_sizeLws_inv h with hb | rfl | rfl
    · exact grows_white (.inr rfl) he hb h
    · exact grows_semicolon (.inr rfl) he h
    · exact grows_cr hall h
  · exact grows_extension he h

theorem grows_sizeLf
    (h : dataPartStep (point H B .sizeLf l.size (extensionsTo chunks l)) b = .ok (c', o)) :
    Within H B chunks (l.front ++ [cr] ++ [b]) o c' := by
  obtain rfl := step_sizeLf_inv h
  rw [step_sizeLf] at h
  cases h
  have hbytes : l.front ++ [cr] ++ [lf] = l.bytes := by rw [append_assoc]; rfl
  rw [hbytes]
  by_cases hn : l.size = 0
  · rw [if_pos hn, hn]
    exact .last hn
  · rw [if_neg hn]
    have hbody : Within H B chunks (l.bytes ++ []) [] _ := .body (pos_of_ne_zero hn)
    rwa [append_nil] at hbody

variable {x : Bytes}

theorem grows_body (hx : x.length < l.size)
    (h : dataPartStep (point H B .body (l.size - x.length) (extensionsTo chunks l)) b = .ok (c', o)) :
    Within H B chunks (l.bytes ++ x ++ [b]) (x ++ o) c' := by
  rw [step_body] at h
  cases h
  have hlen : (x ++ [b]).length = x.length + 1 := by rw [length_append, length_singleton]
  rw [append_assoc, Nat.sub_sub, ← hlen]
  by_cases hlt : (x ++ [b]).length < l.size
  · rw [if_pos (by omega)]
    exact .body hlt
  · have hn : l.size - (x ++ [b]).length = 0 := by omega
    rw [hn, if_neg (lt_irrefl 0)]
    exact .bodyCr ⟨l, x ++ [b], by omega, by simp⟩

theorem grows_bodyLf {c : Chunk}
    (h : dataPartStep (point H B .bodyLf 0 (extensionsTo chunks c.line)) b = .ok (c', o)) :
    c.line.bytes ++ c.data ++ [cr] ++ [b] = c.bytes ∧ o = [] ∧
      Within H B (chunks ++ [c]) [] [] c' := by
  obtain rfl := step_bodyLf_inv h
  rw [step_bodyLf] at h
  cases h
  refine ⟨by rw [append_assoc]; rfl, rfl, ?_⟩
  rw [← extensionsOfAll_concat]
  exact .start

theorem grows_bodyCr {c : Chunk}
    (h : dataPartStep (point H B .bodyCr 0 (extensionsTo chunks c.line)) b = .ok (c', o)) :
    Within H B chunks (c.line.bytes ++ c.data ++ [b]) (c.data ++ o) c' := by
  obtain rfl := step_bodyCr_inv h
  rw [step_bodyCr] at h
  cases h
  rw [append_nil]
  exact .bodyLf c

variable {c : Chunked}

theorem Within.state_ne {w d : Bytes} (h : Within H B chunks w d c) : c.state ≠ .ended := by
  cases h with
  | line hst => rcases hst.cases with rfl | rfl | rfl <;> simp [point]
  | _ => simp [point]

theorem dataPartStep_inv (h : c.Inv H B) (he : c.state ≠ .ended) (hs : dataPartStep c b = .ok (c', o)) :
    c'.Inv H B := by
  unfold dataPartStep at hs
  split at hs
  · cases hs
    exact Chunked.eat_inv h 1
  · have hinv := Chunked.onByte_inv h ‹_› he b
    rcases ho : c.onByte b with ⟨st | e | _, c₁⟩ <;> rw [ho] at hs hinv
    · cases hs
      exact hinv
    · cases hs
    · cases hs

theorem Progress.step {o' : Bytes} (h : Progress H B x o c) (hd : dataPart.done c = false)
    (hs : dataPart.step c b = .ok (c', o')) : Progress H B (x ++ [b]) (o ++ o') c' := by
  obtain ⟨chunks, w, d, rfl, rfl, hw, hinv⟩ := h
  have hinv' := dataPartStep_inv hinv hw.state_ne hs
  -- still behind the same chunks
  have hsame : Within H B chunks (w ++ [b]) (d ++ o') c' →
      Progress H B (bytesOfAll chunks ++ w ++ [b]) (dataOfAll chunks ++ d ++ o') c' := fun hw' =>
    ⟨chunks, w ++ [b], d ++ o', append_assoc _ _ _, append_assoc _ _ _, hw', hinv'⟩
  cases hw with
  | start => exact hsame (grows_start hs)
  | line hst => exact hsame (grows_line hst hs)
  | sizeLf l => exact hsame (grows_sizeLf hs)
  | body hx => exact hsame (grows_body hx hs)
  | bodyCr c => exact hsame (grows_bodyCr hs)
  | bodyLf c =>
    obtain ⟨hbytes, rfl, hw'⟩ := grows_bodyLf hs
    refine ⟨chunks ++ [c], [], [], ?_, ?_, hw', hinv'⟩
    · rw [append_nil, bytesOfAll_concat, append_assoc, hbytes]
    · rw [append_nil, append_nil, dataOfAll_concat]
  | last => cases hd

theorem progress_of_reaches (h : dataPart.Reaches (Chunked.new H B) x o c) : Progress H B x o c :=
  h.inv (I := Progress H B) (fun _ _ _ _ _ _ hI hd hs => hI.step hd hs) [] []
    ⟨[], [], [], rfl, rfl, .start, Chunked.new_inv H B⟩

end Sound

/-! ## There is always a way on -/

section Viable

open Scanner

variable {chunks : List Chunk} {l : SizeLine}

theorem viable_last (hn : l.size = 0) (hk : extensionsTo chunks l < chunkedExtensionsLimit) :
    Viable InGrammar (bytesOfAll chunks ++ l.bytes) :=
  ⟨[], dataOfAll chunks, ⟨chunks, l, hn, hk⟩, (append_nil _).symm, rfl⟩

theorem viable_chunks (hk : extensionsOfAll chunks < chunkedExtensionsLimit) : Viable InGrammar (bytesOfAll chunks) :=
  (viable_last (l := .zero) rfl hk).of_append

theorem viable_chunk {c : Chunk} (hk : extensionsTo chunks c.line < chunkedExtensionsLimit) :
    Viable InGrammar (bytesOfAll chunks ++ c.bytes) := by
  rw [← bytesOfAll_concat]
  rw [← extensionsOfAll_concat] at hk
  exact viable_chunks hk

variable {x : Bytes}

theorem viable_data (hx : x.length < l.size) (hk : extensionsTo chunks l < chunkedExtensionsLimit) :
    Viable InGrammar (bytesOfAll chunks ++ (l.bytes ++ x)) := by
  have hlen : (x ++ replicate (l.size - x.length) 0).length = l.size := by
    rw [length_append, length_replicate]
    omega
  have hne : x ++ replicate (l.size - x.length) 0 ≠ [] := by
    rw [← length_pos_iff, hlen]
    omega
  have h : Viable InGrammar (bytesOfAll chunks ++ Chunk.bytes ⟨l, _, hlen, hne⟩) := viable_chunk hk
  unfold Chunk.bytes at h
  simp only [← append_assoc] at h ⊢
  exact h.of_append.of_append

theorem viable_line (hk : extensionsTo chunks l < chunkedExtensionsLimit) :
    Viable InGrammar (bytesOfAll chunks ++ l.bytes) := by
  by_cases hn : l.size = 0
  · exact viable_last hn hk
  · have h := viable_data (x := []) (pos_of_ne_zero hn) hk
    rwa [append_nil] at h

variable {c : Chunked}

/-- **A body can be completed from every state.** -/
theorem Progress.viable {o : Bytes} (h : Progress H B x o c) : Viable InGrammar x := by
  obtain ⟨chunks, w, d, rfl, rfl, hw, hinv⟩ := h
  have hk := hinv.counts.extensions
  cases hw with
  | start =>
    rw [append_nil]
    exact viable_chunks hk
  | line hst =>
    have h := viable_line hk
    unfold SizeLine.bytes at h
    rw [← append_assoc] at h
    exact h.of_append
  | sizeLf l =>
    have h := viable_line hk
    have hb : l.bytes = l.front ++ [cr] ++ [lf] := by rw [append_assoc]; rfl
    rw [hb, ← append_assoc] at h
    exact h.of_append
  | body hx => exact viable_data hx hk
  | bodyCr c =>
    have h := viable_chunk hk
    unfold Chunk.bytes at h
    rw [← append_assoc] at h
    exact h.of_append
  | bodyLf c =>
    have h := viable_chunk hk
    have hb : c.bytes = c.line.bytes ++ c.data ++ [cr] ++ [lf] := by rw [append_assoc _ [cr]]; rfl
    rw [hb, ← append_assoc] at h
    exact h.of_append
  | last hn => exact viable_last hn hk

theorem Within.last_of_done {chunks : List Chunk} {w d : Bytes} (hw : Within H B chunks w d c)
    (hd : dataPart.done c = true) :
    ∃ l : SizeLine, l.size = 0 ∧ w = l.bytes ∧ d = [] ∧
      c = point H B .endCr 0 (extensionsTo chunks l) := by
  cases hw with
  | last hn => exact ⟨_, hn, rfl, rfl, rfl⟩
  | line hst => rcases hst.cases with rfl | rfl | rfl <;> cases hd
  | start => cases hd
  | sizeLf l => cases hd
  | body hx => cases hd
  | bodyCr c => cases hd
  | bodyLf c => cases hd

theorem Progress.inGrammar {o : Bytes} (h : Progress H B x o c) (hd : dataPart.done c = true) : InGrammar x o := by
  obtain ⟨chunks, w, d, rfl, rfl, hw, hinv⟩ := h
  obtain ⟨l, hn, rfl, rfl, rfl⟩ := hw.last_of_done hd
  exact ⟨⟨chunks, l, hn, hinv.counts.extensions⟩, rfl, (append_nil _).symm⟩

/-- **The decoder recognises the grammar.** -/
theorem recognizes (H B : Option ℕ) : Recognizes dataPart (Chunked.new H B) InGrammar where
  complete := reaches_grammar
  sound h hd := (progress_of_reaches h).inGrammar hd
  viable h := (progress_of_reaches h).viable

end Viable

/-! ## Rejected bytes -/

section Reject

variable {x o : Bytes} {b : UInt8} {c : Chunked}

def Chunked.Next.Rejects : Chunked.Next → Prop
  | (.fail e, _) => e.kind ≠ .unexpectedEof
  | _ => True

theorem pushDigit_rejects (c : Chunked) (d : ℕ) : (c.pushDigit d).Rejects := by
  have hover : sizeOverflow.kind ≠ .unexpectedEof := by decide
  unfold Chunked.pushDigit
  split
  · exact hover
  · split
    · exact hover
    · trivial

theorem putU8_rejects (c : Chunked) (buf : Bytes) (b : UInt8) (st : ChunkedState) : (c.putU8 buf b st).Rejects := by
  have hover : trailersOverLimit.kind ≠ .unexpectedEof := by decide
  unfold Chunked.putU8
  simp only
  split
  · exact hover
  · trivial

theorem onByte_rejects (c : Chunked) (b : UInt8) : (c.onByte b).Rejects := by
  have hinput : ∀ text, (ioError .invalidInput text).kind ≠ .unexpectedEof := fun _ => by simp [ioError]
  have hdata : ∀ text, (ioError .invalidData text).kind ≠ .unexpectedEof := fun _ => by simp [ioError]
  unfold Chunked.onByte
  split
  · unfold Chunked.readStart
    split
    · exact pushDigit_rejects c _
    · exact hinput _
  · unfold Chunked.readSize
    split
    · exact pushDigit_rejects c _
    · split_ifs <;> first | trivial | exact hinput _
  · unfold Chunked.readSizeLws
    split_ifs <;> first | trivial | exact hinput _
  · unfold Chunked.readExtension
    simp only
    split_ifs <;> first | trivial | exact hdata _
  · unfold Chunked.readSizeLf
    split_ifs <;> first | trivial | exact hinput _
  · unfold Chunked.readBodyCr
    split_ifs <;> first | trivial | exact hinput _
  · unfold Chunked.readBodyLf
    split_ifs <;> first | trivial | exact hinput _
  · unfold Chunked.readTrailer
    split
    · trivial
    · exact putU8_rejects ..
  · unfold Chunked.readTrailerLf
    split
    · split
      · exact hdata _
      · simp only
        split
        · trivial
        · exact putU8_rejects ..
    · exact hinput _
  · unfold Chunked.readEndCr
    simp only
    split
    · exact putU8_rejects ..
    · split_ifs <;> trivial
  · unfold Chunked.readEndLf
    split
    · split
      · exact putU8_rejects ..
      · trivial
    · exact hinput _
  · trivial
  · trivial

theorem dataPartStep_error {out : Outcome} (h : c.Inv H B) (he : c.state ≠ .ended)
    (hs : dataPartStep c b = .error out) :
    ∃ e c', out = .failed e ∧ c.state ≠ .body ∧ c.onByte b = (.fail e, c') ∧ e.kind ≠ .unexpectedEof := by
  unfold dataPartStep at hs
  split at hs
  · cases hs
  · have hinv := Chunked.onByte_inv h ‹_› he b
    have hrej := onByte_rejects c b
    rcases ho : c.onByte b with ⟨st | e | _, c'⟩ <;> rw [ho] at hs hinv hrej
    · cases hs
    · cases hs
      exact ⟨e, c', rfl, ‹_›, rfl, hrej⟩
    · exact hinv.elim

/-- The next digit makes the chunk size too large. -/
def SizeOverflow (x : Bytes) (b : UInt8) : Prop :=
  ∃ (chunks : List Chunk) (l : SizeLine) (d : ℕ), x = bytesOfAll chunks ++ l.digits ∧
    extensionsOfAll chunks < chunkedExtensionsLimit ∧ HexDigit b d ∧ u64Size ≤ 16 * l.size + d

/-- The next byte of extension is one too many. -/
def ExtensionOverflow (x : Bytes) (b : UInt8) : Prop :=
  ∃ (chunks : List Chunk) (l : SizeLine) (e : Bytes), x = bytesOfAll chunks ++ l.front ∧ l.extension = some e ∧
    b ≠ cr ∧ b ≠ lf ∧ extensionsOfAll chunks + e.length + 1 = chunkedExtensionsLimit

theorem step_of_sizeOverflow (h : SizeOverflow x b) (hr : dataPart.Reaches (Chunked.new H B) x o c) :
    dataPartStep c b = .error (.failed sizeOverflow) := by
  obtain ⟨chunks, l, d, rfl, hk, hd, hge⟩ := h
  have hchunks := reaches_chunks (H := H) (B := B) (k := 0) chunks (by omega)
  have hdigits := hchunks.trans (reaches_digits l.digits_ne l.denotes l.size_lt)
  rw [hr.unique hdigits]
  exact step_digit_overflow (.inr rfl) hd hge

theorem step_of_extensionOverflow (h : ExtensionOverflow x b) (hr : dataPart.Reaches (Chunked.new H B) x o c) :
    dataPartStep c b = .error (.failed (ioError .invalidData "chunk extensions over limit")) := by
  obtain ⟨chunks, l, e, rfl, he, hcr, hlf, hk⟩ := h
  have hlen : l.extensionLen = e.length := by simp [SizeLine.extensionLen, he]
  have hchunks := reaches_chunks (H := H) (B := B) (k := 0) chunks (by omega)
  rw [zero_add] at hchunks
  obtain ⟨st, -, hst, hfront⟩ := reaches_front (H := H) (B := B) (k := extensionsOfAll chunks) l (by omega)
  obtain rfl := hst (by simp [he])
  rw [hr.unique (hchunks.trans hfront)]
  exact step_extension_overflow hcr hlf (by omega)

/-! ## The calls of the decoder -/

theorem meaning_of_reaches (hp : Httparse) (h : dataPart.Reaches (Chunked.new H B) x o c) :
    ∀ y, (Chunked.new H B).meaning hp (x ++ y) = (c.meaning hp y).after o x.length := by
  refine (h.inv (I := fun x o c => Progress H B x o c ∧
    ∀ y, (Chunked.new H B).meaning hp (x ++ y) = (c.meaning hp y).after o x.length)
    (fun x o c b c' o' hI hd hs => ?_) [] []
    ⟨⟨[], [], [], rfl, rfl, .start, Chunked.new_inv H B⟩, fun y => by simp⟩).2
  obtain ⟨hprog, hm⟩ := hI
  have hprog' := hprog.step hd hs
  refine ⟨hprog', fun y => ?_⟩
  obtain ⟨_, _, _, -, -, hw, -⟩ := hprog
  obtain ⟨_, _, _, -, -, hw', -⟩ := hprog'
  -- one byte more of the meaning
  have hone : c.meaning hp (b :: y) = (c'.meaning hp y).after o' 1 := by
    have hs : dataPartStep c b = .ok (c', o') := hs
    unfold dataPartStep at hs
    split at hs
    · cases hs
      rw [Chunked.meaning, if_neg hw.state_ne, if_pos ‹_›]
    · rcases ho : c.onByte b with ⟨st | e | _, c₁⟩ <;> rw [ho] at hs
      · cases hs
        exact Chunked.meaning_to hp y ho ‹_› hw.state_ne hw'.state_ne
      · cases hs
      · cases hs
  rw [append_assoc, singleton_append, hm, hone, Decoded.after_after, length_append, length_singleton]

theorem meaning_nil_of_progress (hp : Httparse) (h : Progress H B x o c) :
    ∃ e, e.kind = .unexpectedEof ∧ c.meaning hp [] = ⟨[], none, .failed e, 0⟩ := by
  obtain ⟨_, _, _, -, -, hw, -⟩ := h
  unfold Chunked.meaning
  split
  · exact absurd ‹_› hw.state_ne
  · exact ⟨incompleteBody, rfl, rfl⟩
  · exact ⟨eofInSizeLine, rfl, rfl⟩

/-- **The chunked decoder accepts exactly its grammar.** The data part of a byte string is read to its end if and only
if the string is in the grammar, and its data are those of the chunks. For every byte string, however it is cut into
reads,

* the decoder reads the string of the grammar that stands in front, and goes on behind it,
* or the string could become one of the grammar, and the decoder reports an unexpected end,
* or the decoder fails at the first byte behind which it cannot become one, with invalid data if that byte makes a
  chunk size too large, or the extensions too long. -/
theorem chunked_grammar (β : Type) [LawfulBuf β] (hp : Httparse) (h1MaxHeaders h1MaxHeaderSize : Option ℕ) (s : Bytes) :
    let d := Decoder.new .chunked h1MaxHeaders h1MaxHeaderSize
    let r := dataPart.scan (Chunked.new h1MaxHeaders h1MaxHeaderSize) s
    (∀ data, InGrammar s data ↔ r.out = data ∧ r.used = s.length ∧ ∃ c, r.ended = .reached c) ∧
    ((∃ x y c, s = x ++ y ∧ InGrammar x r.out ∧ r.used = x.length ∧ r.ended = .reached c ∧
        Decodes β hp d s ((c.meaning hp y).after r.out r.used)) ∨
      (∃ e, Scanner.Viable InGrammar s ∧ e.kind = .unexpectedEof ∧
        Decodes β hp d s ⟨r.out, none, .failed e, s.length⟩) ∨
      (∃ x b y e, s = x ++ b :: y ∧ Scanner.Viable InGrammar x ∧ ¬ Scanner.Viable InGrammar (x ++ [b]) ∧
        e.kind ≠ .unexpectedEof ∧ (SizeOverflow x b ∨ ExtensionOverflow x b → e.kind = .invalidData) ∧
        Decodes β hp d s ⟨r.out, none, .failed e, x.length + 1⟩)) := by
  intro d r
  have hdec : Decodes β hp d s ((Chunked.new h1MaxHeaders h1MaxHeaderSize).meaning hp s) :=
    decodes_meaning hp (Decoder.new_wf .chunked h1MaxHeaders h1MaxHeaderSize) s
  have hrec := recognizes h1MaxHeaders h1MaxHeaderSize
  refine ⟨fun data => hrec.scan_iff, ?_⟩
  rcases hrec.scan s with ⟨x, y, c, rfl, hL, hu, he⟩ | ⟨c, hv, hr, hd, hu, he⟩ |
    ⟨x, b, y, c, out, rfl, hv, hnv, hr, hs, hu, he⟩
  · obtain ⟨c', hr, hd⟩ := hrec.complete hL
    have hc := congrArg Scanned.ended (hr.scan_done hd y)
    rw [he] at hc
    cases hc
    rw [meaning_of_reaches hp hr, ← hu] at hdec
    exact .inl ⟨x, y, c, rfl, hL, hu, he, hdec⟩
  · obtain ⟨e, hk, hm⟩ := meaning_nil_of_progress hp (progress_of_reaches hr)
    have hall := meaning_of_reaches hp hr []
    rw [append_nil, hm] at hall
    rw [hall] at hdec
    refine .inr (.inl ⟨e, hv, hk, ?_⟩)
    simpa [Decoded.after] using hdec
  · obtain ⟨_, _, _, -, -, hw, hinv⟩ := progress_of_reaches hr
    obtain ⟨e, c', rfl, hb, hbyte, hk⟩ := dataPartStep_error hinv hw.state_ne hs
    have hall := meaning_of_reaches hp hr (b :: y)
    rw [Chunked.meaning_cons hp y hb hw.state_ne, hbyte] at hall
    rw [hall] at hdec
    refine .inr (.inr ⟨x, b, y, e, rfl, hv, hnv, hk, fun hover => ?_, ?_⟩)
    · have hs : dataPartStep c b = .error (.failed e) := hs
      rcases hover with hover | hover
      · rw [step_of_sizeOverflow hover hr] at hs
        cases hs
        rfl
      · rw [step_of_extensionOverflow hover hr] at hs
        cases hs
        rfl
    · simpa [Decoded.after] using hdec

end Reject

end Netty
