import Netty.Buf.Basic

/-!
# Bytes, machine integers and comma-separated lists

What the source takes from the standard library: byte strings, `u64` arithmetic
that is checked for overflow, and the `str` functions `trim`, `split(',')` and
`eq_ignore_ascii_case` on strings of visible ASCII characters and tabs.
-/

namespace Netty

/-- The bytes of a string of ASCII characters. -/
def ascii (s : String) : Bytes := s.toList.map fun c => UInt8.ofNat c.toNat

def cr : UInt8 := 13

def lf : UInt8 := 10

def crlf : Bytes := [13, 10]

/-! ## `u64` and `usize` -/

/-- `2 ^ 64`: one past the largest `u64`. -/
def u64Size : ℕ := 0x10000000000000000

/-- The largest `usize` of a 64-bit target. -/
def usizeMax : ℕ := 0xffffffffffffffff

def checkedMul (a b : ℕ) : Option ℕ := if a * b < u64Size then some (a * b) else none

def checkedAdd (a b : ℕ) : Option ℕ := if a + b < u64Size then some (a + b) else none

/-- A subtraction that must not fall below zero. -/
def checkedSub (a b : ℕ) : Option ℕ := if b ≤ a then some (a - b) else none

theorem bind_ok {ε α β : Type} {x : Except ε α} {f : α → Except ε β} {b : β} (h : x >>= f = .ok b) :
    ∃ a, x = .ok a ∧ f a = .ok b := by
  cases x with
  | error e => cases h
  | ok a => exact ⟨a, rfl, h⟩

/-! ## Strings -/

/-- Space and tab: the only whitespace in a string of visible ASCII and tabs. -/
def isOws (b : UInt8) : Bool := b = 32 || b = 9

def trim (s : Bytes) : Bytes := ((s.dropWhile isOws).reverse.dropWhile isOws).reverse

/-- `split(',')`: always at least one piece. -/
def splitComma (s : Bytes) : List Bytes := s.splitOn 44

def toLower (b : UInt8) : UInt8 := if 65 ≤ b && b ≤ 90 then b + 32 else b

def eqIgnoreAsciiCase (a b : Bytes) : Bool := a.map toLower = b.map toLower

end Netty
