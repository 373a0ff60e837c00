import Netty.Spec.Bytes

/-!
# Header maps and the header helpers

`HeaderMap` is the multi-valued map of the `http` crate: one bucket per name, in
insertion order, each with its values in the order they were appended. Removing a
name moves the last bucket into its place.

The second half is `src/proto/headers.rs`.
-/

namespace Netty

open List

/-- A byte of a header name as it is stored: a token character, in lower case. -/
def isNameByte (b : UInt8) : Bool :=
  (97 ≤ b && b ≤ 122) || (48 ≤ b && b ≤ 57) || (ascii "!#$%&'*+-.^_`|~").contains b

/-- A byte a header value may hold: no control byte but the tab. -/
def isValueByte (b : UInt8) : Bool := b = 9 || (32 ≤ b && b ≠ 127)

structure HeaderName where
  bytes : Bytes
  ok : bytes ≠ [] ∧ bytes.all isNameByte = true
  deriving DecidableEq, Repr

structure HeaderValue where
  bytes : Bytes
  ok : bytes.all isValueByte = true
  deriving DecidableEq, Repr

/-- `HeaderName::from_bytes`: token characters of either case, stored in lower case. -/
def HeaderName.fromBytes (b : Bytes) : Option HeaderName :=
  let low := b.map toLower
  if h : low ≠ [] ∧ low.all isNameByte = true then some ⟨low, h⟩ else none

def HeaderValue.fromBytes (b : Bytes) : Option HeaderValue :=
  if h : b.all isValueByte = true then some ⟨b, h⟩ else none

/-- `HeaderValue::to_str`: only visible ASCII and tabs make a string. -/
def HeaderValue.toStr (v : HeaderValue) : Option Bytes :=
  if v.bytes.all (fun b => b = 9 || (32 ≤ b && b < 127)) then some v.bytes else none

namespace HeaderName

def connection : HeaderName := ⟨ascii "connection", by decide⟩
def contentLength : HeaderName := ⟨ascii "content-length", by decide⟩
def transferEncoding : HeaderName := ⟨ascii "transfer-encoding", by decide⟩
def te : HeaderName := ⟨ascii "te", by decide⟩
def trailer : HeaderName := ⟨ascii "trailer", by decide⟩
def authorization : HeaderName := ⟨ascii "authorization", by decide⟩
def cacheControl : HeaderName := ⟨ascii "cache-control", by decide⟩
def contentEncoding : HeaderName := ⟨ascii "content-encoding", by decide⟩
def contentRange : HeaderName := ⟨ascii "content-range", by decide⟩
def contentType : HeaderName := ⟨ascii "content-type", by decide⟩
def host : HeaderName := ⟨ascii "host", by decide⟩
def maxForwards : HeaderName := ⟨ascii "max-forwards", by decide⟩
def setCookie : HeaderName := ⟨ascii "set-cookie", by decide⟩

end HeaderName

/-! ## The map -/

/-- A name with its first value and the values appended to it later. -/
structure Bucket where
  name : HeaderName
  value : HeaderValue
  extra : List HeaderValue
  deriving DecidableEq, Repr

def Bucket.values (b : Bucket) : List HeaderValue := b.value :: b.extra

structure HeaderMap where
  entries : List Bucket
  nodup : (entries.map Bucket.name).Nodup
  deriving DecidableEq

namespace HeaderMap

variable (m : HeaderMap) (n : HeaderName)

def empty : HeaderMap := ⟨[], by simp⟩

def getAll : List HeaderValue := ((m.entries.find? (·.name = n)).map Bucket.values).getD []

def get : Option HeaderValue := (m.getAll n).head?

def containsKey : Bool := m.entries.any (·.name = n)

/-- The fields in iteration order: the values of one name stand together. -/
def iter : List (HeaderName × HeaderValue) :=
  m.entries.flatMap fun b => b.values.map fun v => (b.name, v)

/-- The owning iterator: only the first value of a bucket comes with its name. -/
def intoIter : List (Option HeaderName × HeaderValue) :=
  m.entries.flatMap fun b => (some b.name, b.value) :: b.extra.map fun v => (none, v)

/-- Change the values of `n`'s bucket. -/
def mapValues (f : HeaderValue → List HeaderValue → HeaderValue × List HeaderValue) : HeaderMap :=
  ⟨m.entries.map fun b => if b.name = n then ⟨b.name, (f b.value b.extra).1, (f b.value b.extra).2⟩ else b, by
    have : (m.entries.map fun b => if b.name = n then
        ⟨b.name, (f b.value b.extra).1, (f b.value b.extra).2⟩ else b).map Bucket.name =
        m.entries.map Bucket.name := by
      rw [map_map]; apply map_congr_left
      intro b _; simp only [Function.comp]; split <;> rfl
    rw [this]; exact m.nodup⟩

/-- Add a bucket for a name the map does not have. -/
def push (v : HeaderValue) (h : m.containsKey n = false) : HeaderMap :=
  ⟨m.entries ++ [⟨n, v, []⟩], by
    simp only [containsKey, any_eq_false, decide_eq_true_eq] at h
    rw [map_append, nodup_append]
    refine ⟨m.nodup, by simp, ?_⟩
    intro a ha b hb hab
    obtain ⟨x, hx, rfl⟩ := mem_map.1 ha
    simp only [map_cons, map_nil, mem_singleton] at hb
    exact h x hx (hab.trans hb)⟩

/-- `insert`: the value replaces all values of the name. -/
def insert (v : HeaderValue) : HeaderMap :=
  if h : m.containsKey n = false then m.push n v h else m.mapValues n fun _ _ => (v, [])

/-- The names that the table of a map has room for. -/
def maxNames : ℕ := 24576

/-- `append`: the value is added to those of the name, in a map that is not full. -/
def append (v : HeaderValue) : HeaderMap :=
  if h : m.containsKey n = false then m.push n v h else m.mapValues n fun a ex => (a, ex ++ [v])

/-- `Vec::swap_remove` at the first bucket of the name. -/
def swapRemove (l : List Bucket) : List Bucket :=
  let pre := l.takeWhile (·.name ≠ n)
  match l.dropWhile (·.name ≠ n) with
  | [] => pre
  | _ :: post =>
    match post.getLast? with
    | none => pre
    | some b => pre ++ b :: post.dropLast

theorem swapRemove_perm (l : List Bucket) :
    (swapRemove n l).Perm (l.takeWhile (·.name ≠ n) ++ (l.dropWhile (·.name ≠ n)).tail) := by
  unfold swapRemove
  cases l.dropWhile (·.name ≠ n) with
  | nil => simp
  | cons x post =>
    simp only [tail_cons]
    rcases eq_nil_or_concat post with rfl | ⟨init, b, rfl⟩
    · simp
    · simp only [concat_eq_append, getLast?_append, getLast?_singleton, Option.some_or, dropLast_concat]
      exact Perm.append_left _ (perm_append_singleton b init).symm

def remove : HeaderMap :=
  ⟨swapRemove n m.entries, by
    refine (((swapRemove_perm n m.entries).map Bucket.name).nodup_iff).2 (m.nodup.sublist ?_)
    refine Sublist.map _ ?_
    conv_rhs => rw [← takeWhile_append_dropWhile (p := fun b : Bucket => b.name ≠ n) (l := m.entries)]
    exact (Sublist.refl _).append (tail_sublist _)⟩

end HeaderMap

/-! ## `src/proto/headers.rs` -/

def connectionHas (value : HeaderValue) (needle : Bytes) : Bool :=
  match value.toStr with
  | some s => (splitComma s).any fun v => eqIgnoreAsciiCase (trim v) needle
  | none => false

def connectionKeepAlive (value : HeaderValue) : Bool := connectionHas value (ascii "keep-alive")

def connectionClose (value : HeaderValue) : Bool := connectionHas value (ascii "close")

def connectionAnyClose (headers : HeaderMap) : Bool :=
  (headers.getAll .connection).any connectionClose

/-- Decimal digits only; `none` on overflow of a `u64`. -/
def fromDigits (bytes : Bytes) : Option ℕ :=
  if bytes = [] then none
  else bytes.foldlM (fun result b =>
    if 48 ≤ b && b ≤ 57 then
      (checkedMul result 10).bind fun r => checkedAdd r (b - 48).toNat
    else none) 0

/-- One comma-separated item: it must be a number, the same as those before it. -/
def contentLengthItem (acc : Option ℕ) (v : Bytes) : Option (Option ℕ) :=
  match fromDigits (trim v), acc with
  | none, _ => none
  | some n, none => some (some n)
  | some n, some m => if m ≠ n then none else some (some m)

def contentLengthLine (acc : Option ℕ) (h : HeaderValue) : Option (Option ℕ) :=
  match h.toStr with
  | some line => (splitComma line).foldlM contentLengthItem acc
  | none => none

def contentLengthParseAllValues (values : List HeaderValue) : Option ℕ :=
  (values.foldlM contentLengthLine none).join

def contentLengthParseAll (headers : HeaderMap) : Option ℕ :=
  contentLengthParseAllValues (headers.getAll .contentLength)

def isChunked (encodings : List HeaderValue) : Bool :=
  -- chunked must be the last coding of the last line
  match encodings.getLast? with
  | none => false
  | some line =>
    match line.toStr with
    | none => false
    | some s =>
      match (splitComma s).getLast? with
      | none => false
      | some encoding => eqIgnoreAsciiCase (trim encoding) (ascii "chunked")

def transferEncodingIsChunked (headers : HeaderMap) : Bool :=
  isChunked (headers.getAll .transferEncoding)

/-- A line with `, chunked` written after it. -/
def chunkedLine (line : HeaderValue) : HeaderValue :=
  ⟨line.bytes ++ ascii ", chunked", by
    have := line.ok
    rw [all_append, this, Bool.true_and]; decide⟩

/-- `add_chunked`, on the values of the occupied entry. -/
def addChunked (value : HeaderValue) (extra : List HeaderValue) : HeaderValue × List HeaderValue :=
  match extra.getLast? with
  | none => (chunkedLine value, [])
  | some line => (value, extra.dropLast ++ [chunkedLine line])

end Netty
