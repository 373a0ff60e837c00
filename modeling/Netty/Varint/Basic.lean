import Mathlib.Data.Nat.Basic

/-!
# Variable-length integers

The integers of QUIC: the two highest bits of the first byte give the number of bytes,
1, 2, 4 or 8, and the rest is the number in big-endian order.

* `encode`: the shortest form; `encodeAs`: any form that holds the number.
* `decode`: the number at the front of a byte string, and how long it is.
* `decode_encodeAs`, `decode_append`, `decode_short`: what decoding makes of a form with
  anything behind it, and of a part of one.
-/

namespace Netty.Varint

open List

/-- The length of the shortest form. -/
def size (n : ℕ) : ℕ :=
  if n < 0x40 then 1 else if n < 0x4000 then 2 else if n < 0x40000000 then 4 else 8

/-- The lowest `len` bytes of a number, highest first. -/
def bigEndian : ℕ → ℕ → List UInt8
  | 0, _ => []
  | len + 1, n => bigEndian len (n / 256) ++ [UInt8.ofNat n]

/-- The two highest bits of a form of this length. -/
def tag : ℕ → ℕ
  | 1 => 0
  | 2 => 0x4000
  | 4 => 0x80000000
  | _ => 0xC000000000000000

def encode (n : ℕ) : List UInt8 := bigEndian (size n) (tag (size n) + n)

@[simp] theorem length_bigEndian (len n : ℕ) : (bigEndian len n).length = len := by
  induction len generalizing n with
  | zero => rfl
  | succ len ih => rw [bigEndian, length_append, ih]; rfl

@[simp] theorem length_encode (n : ℕ) : (encode n).length = size n := length_bigEndian _ _

/-! ## Forms -/

/-- The four forms. A number need not be in its shortest one. -/
inductive Form where
  | one
  | two
  | four
  | eight
  deriving DecidableEq, Repr

def Form.length : Form → ℕ
  | .one => 1
  | .two => 2
  | .four => 4
  | .eight => 8

theorem Form.length_pos (form : Form) : 0 < form.length := by cases form <;> decide

/-- One past the largest number of the form. -/
def Form.limit : Form → ℕ
  | .one => 0x40
  | .two => 0x4000
  | .four => 0x40000000
  | .eight => 0x4000000000000000

def encodeAs (form : Form) (n : ℕ) : List UInt8 := bigEndian form.length (tag form.length + n)

def shortest (n : ℕ) : Form :=
  if n < 0x40 then .one else if n < 0x4000 then .two else if n < 0x40000000 then .four else .eight

theorem encode_shortest (n : ℕ) : encode n = encodeAs (shortest n) n := by
  have h : size n = (shortest n).length := by
    unfold size shortest
    split
    · rfl
    split
    · rfl
    split <;> rfl
  rw [encode, encodeAs, h]

theorem lt_limit_shortest {n : ℕ} (h : n < 0x4000000000000000) : n < (shortest n).limit := by
  unfold shortest
  split
  · assumption
  split
  · assumption
  split
  · assumption
  · exact h

@[simp] theorem length_encodeAs (form : Form) (n : ℕ) : (encodeAs form n).length = form.length := length_bigEndian _ _

/-! ## Decoding -/

/-- The number at the front, and the length of its form; `none` if the bytes end first. -/
def decode : List UInt8 → Option (ℕ × ℕ)
  | [] => none
  | first :: rest =>
    let len := 1 <<< (first.toNat / 64)
    if rest.length < len - 1 then none
    else some ((rest.take (len - 1)).foldl (fun value b => value * 256 + b.toNat) (first.toNat % 64), len)

theorem toNat_byte (m : ℕ) : (UInt8.ofNat m).toNat = m % 256 := UInt8.toNat_ofNat'

/-- A first byte with the bytes its two highest bits announce. -/
theorem decode_cons {first : UInt8} {tail : List UInt8} (h : 1 <<< (first.toNat / 64) = tail.length + 1)
    (rest : List UInt8) :
    decode (first :: (tail ++ rest)) =
      some (tail.foldl (fun value b => value * 256 + b.toNat) (first.toNat % 64), tail.length + 1) := by
  rw [decode, h, Nat.add_sub_cancel, if_neg (by simp), take_left]

theorem decode_encodeAs {form : Form} {n : ℕ} (h : n < form.limit) (rest : List UInt8) :
    decode (encodeAs form n ++ rest) = some (n, form.length) := by
  cases form with
  | one =>
    have hn : n < 0x40 := h
    have hb : encodeAs .one n = [UInt8.ofNat (0 + n)] := rfl
    rw [hb, singleton_append, ← nil_append rest, decode_cons]
    · simp only [foldl_nil, toNat_byte]
      congr 2
      omega
    · simp only [toNat_byte]
      rw [show (0 + n) % 256 / 64 = 0 by omega]
      rfl
  | two =>
    have hn : n < 0x4000 := h
    have hb : encodeAs .two n = UInt8.ofNat ((0x4000 + n) / 256) :: [UInt8.ofNat (0x4000 + n)] := rfl
    rw [hb, cons_append, decode_cons]
    · simp only [foldl_cons, foldl_nil, toNat_byte]
      congr 2
      omega
    · simp only [toNat_byte]
      rw [show (0x4000 + n) / 256 % 256 / 64 = 1 by omega]
      rfl
  | four =>
    have hn : n < 0x40000000 := h
    have hb : encodeAs .four n = UInt8.ofNat ((0x80000000 + n) / 256 / 256 / 256) ::
      [UInt8.ofNat ((0x80000000 + n) / 256 / 256), UInt8.ofNat ((0x80000000 + n) / 256),
        UInt8.ofNat (0x80000000 + n)] := rfl
    rw [hb, cons_append, decode_cons]
    · simp only [foldl_cons, foldl_nil, toNat_byte]
      congr 2
      omega
    · simp only [toNat_byte]
      rw [show (0x80000000 + n) / 256 / 256 / 256 % 256 / 64 = 2 by omega]
      rfl
  | eight =>
    have hn : n < 0x4000000000000000 := h
    generalize hm : 0xC000000000000000 + n = m
    have hb : encodeAs .eight n = UInt8.ofNat (m / 256 / 256 / 256 / 256 / 256 / 256 / 256) ::
      [UInt8.ofNat (m / 256 / 256 / 256 / 256 / 256 / 256), UInt8.ofNat (m / 256 / 256 / 256 / 256 / 256),
        UInt8.ofNat (m / 256 / 256 / 256 / 256), UInt8.ofNat (m / 256 / 256 / 256), UInt8.ofNat (m / 256 / 256),
        UInt8.ofNat (m / 256), UInt8.ofNat m] := by rw [← hm]; rfl
    rw [hb, cons_append, decode_cons]
    · simp only [foldl_cons, foldl_nil, toNat_byte]
      congr 2
      omega
    · simp only [toNat_byte]
      rw [show m / 256 / 256 / 256 / 256 / 256 / 256 / 256 % 256 / 64 = 3 by omega]
      rfl

theorem shift_le {c : ℕ} (h : c < 4) : 0 < 1 <<< c ∧ 1 <<< c ≤ 8 := by
  match c, h with
  | 0, _ | 1, _ | 2, _ | 3, _ => decide

section Prefix

variable {p q : List UInt8} {n len : ℕ}

theorem decode_le (h : decode p = some (n, len)) : 0 < len ∧ len ≤ p.length ∧ len ≤ 8 := by
  cases p with
  | nil => cases h
  | cons first rest =>
    simp only [decode] at h
    split at h
    · cases h
    · rename_i hlen
      injection h with h
      injection h with _ h
      subst h
      obtain ⟨h1, h2⟩ := shift_le (show first.toNat / 64 < 4 by have := first.toNat_lt; omega)
      exact ⟨h1, by rw [length_cons]; omega, h2⟩

theorem decode_append (h : decode p = some (n, len)) (q : List UInt8) : decode (p ++ q) = some (n, len) := by
  cases p with
  | nil => cases h
  | cons first rest =>
    simp only [decode] at h
    split at h
    · cases h
    · rename_i hlen
      simp only [cons_append, decode]
      rw [if_neg (by rw [length_append]; omega), take_append_of_le_length (by omega)]
      exact h

theorem decode_short (h : decode (p ++ q) = some (n, len)) (hlen : p.length < len) : decode p = none := by
  cases hp : decode p with
  | none => rfl
  | some x =>
    obtain ⟨m, l⟩ := x
    have h' := decode_append hp q
    rw [h] at h'
    injection h' with h'
    injection h' with _ h'
    have := (decode_le hp).2.1
    omega

theorem decode_of_prefix (h : decode (p ++ q) = some (n, len)) (hlen : len ≤ p.length) : decode p = some (n, len) := by
  cases p with
  | nil =>
    have := (decode_le h).1
    rw [length_nil] at hlen
    omega
  | cons first rest =>
    simp only [cons_append, decode] at h ⊢
    split at h
    · cases h
    · injection h with h
      injection h with hn hl
      rw [hl] at hn ⊢
      rw [length_cons] at hlen
      rw [if_neg (by omega), ← hn, take_append_of_le_length (by omega)]

theorem decode_of_length (h : 8 ≤ p.length) : ∃ n len, decode p = some (n, len) := by
  cases p with
  | nil => cases h
  | cons first rest =>
    have hc := (shift_le (show first.toNat / 64 < 4 by have := first.toNat_lt; omega)).2
    rw [length_cons] at h
    exact ⟨_, _, if_neg (by omega)⟩

theorem length_lt_of_decode_none (h : decode p = none) : p.length < 8 := by
  by_contra hlen
  obtain ⟨n, len, hp⟩ := decode_of_length (le_of_not_gt hlen)
  cases h.symm.trans hp

end Prefix

end Netty.Varint
