import Netty.Proof.Headers
import Netty.Spec.Message

/-!
# The trailers of a request

The encoder of a chunked body sends a trailer field if the `Trailer` lines of the request
name it and it is not one of the fields that must not come late.

* `allowedTrailers_eq`: the loop over the trailers keeps the buckets that may be sent.
* `mem_trailerNames`: the names in the `Trailer` lines, in any case.
* `declared_trailers_sent`: the bytes that are sent, from the header lines of the request.
-/

namespace Netty

open List

/-! ## The loop -/

/-- The buckets with such a name. -/
def HeaderMap.restrict (m : HeaderMap) (p : HeaderName → Bool) : HeaderMap :=
  ⟨m.entries.filter fun b => p b.name, m.nodup.sublist (filter_sublist.map _)⟩

theorem HeaderMap.iter_restrict (m : HeaderMap) (p : HeaderName → Bool) :
    (m.restrict p).iter = m.iter.filter fun f => p f.1 := by
  show (m.entries.filter fun b => p b.name).flatMap _ = (m.entries.flatMap _).filter _
  induction m.entries with
  | nil => rfl
  | cons b bs ih =>
    -- all fields of a bucket have its name
    have hb : (b.values.map fun v => (b.name, v)).filter (fun f => p f.1) =
        if p b.name then b.values.map fun v => (b.name, v) else [] := by
      split
      · rename_i hp
        exact filter_eq_self.2 fun f hf => by
          obtain ⟨v, -, rfl⟩ := mem_map.1 hf
          exact hp
      · rename_i hp
        exact filter_eq_nil_iff.2 fun f hf => by
          obtain ⟨v, -, rfl⟩ := mem_map.1 hf
          exact hp
    rw [flatMap_cons, filter_append, hb, ← ih, filter_cons]
    split
    · rw [flatMap_cons]
    · rw [nil_append]

/-- The field may be sent as a trailer. -/
def mayTrail (allowed : List HeaderName) (name : HeaderName) : Bool :=
  allowed.contains name && isValidTrailerField name

/-- The values of a name behind its first one: the loop carries the name. -/
theorem allowedTrailers_extra (allowed : List HeaderName) (n : HeaderName)
    (rest : List (Option HeaderName × HeaderValue)) (ex : List HeaderValue) :
    ∀ m, allowedTrailers allowed (ex.map (fun v => (none, v)) ++ rest) (some n) m =
      allowedTrailers allowed rest (some n)
        (if mayTrail allowed n then ex.foldl (fun acc v => acc.append n v) m else m) := by
  induction ex with
  | nil => intro m; rw [foldl_nil, ite_self]; rfl
  | cons v ex ih =>
    intro m
    rw [map_cons, cons_append, allowedTrailers]
    simp only [Option.none_or]
    rw [ih]
    unfold mayTrail
    split <;> rfl

theorem allowedTrailers_buckets (allowed : List HeaderName) (bs : List Bucket) : ∀ cur m,
    allowedTrailers allowed (bs.flatMap fun b => (some b.name, b.value) :: b.extra.map fun v => (none, v)) cur m =
      some (((bs.filter fun b => mayTrail allowed b.name).flatMap HeaderMap.bucketFields).foldl
        (fun acc f => acc.append f.1 f.2) m) := by
  induction bs with
  | nil => intro cur m; rfl
  | cons b bs ih =>
    intro cur m
    rw [flatMap_cons, cons_append, allowedTrailers]
    simp only [Option.some_or]
    rw [allowedTrailers_extra, ih, filter_cons]
    -- the first value and those behind it are appended together, or none is
    by_cases hb : mayTrail allowed b.name = true
    · have hb' : (allowed.contains b.name && isValidTrailerField b.name) = true := hb
      simp only [hb, hb', if_true, flatMap_cons, foldl_append, HeaderMap.bucketFields, Bucket.values,
        map_cons, foldl_cons, foldl_map]
    · have hb' : ¬(allowed.contains b.name && isValidTrailerField b.name) = true := hb
      rw [if_neg hb, if_neg hb, if_neg hb']

/-- **The loop keeps the buckets that may be sent**, in their order and whole. -/
theorem allowedTrailers_eq (allowed : List HeaderName) (t : HeaderMap) :
    allowedTrailers allowed t.intoIter none .empty = some (t.restrict (mayTrail allowed)) := by
  refine (allowedTrailers_buckets allowed t.entries none .empty).trans (congrArg some (HeaderMap.ext_entries ?_))
  exact HeaderMap.entries_append_buckets _ .empty (t.restrict (mayTrail allowed)).nodup

/-! ## The declaration -/

/-- A `Trailer` line names the field. A line with other bytes than visible ASCII and tabs
is not read. -/
def HeaderValue.names (line : HeaderValue) (name : HeaderName) : Bool :=
  line.toStr.isSome && (splitComma line.bytes).any fun item => eqIgnoreAsciiCase (trim item) name.bytes

/-- The `Trailer` lines name the field. -/
def declared (headers : HeaderMap) (name : HeaderName) : Bool := (headers.getAll .trailer).any (·.names name)

theorem mem_trailerNames {headers : HeaderMap} {name : HeaderName} :
    name ∈ trailerNames headers ↔ declared headers name = true := by
  unfold trailerNames declared HeaderValue.names
  simp only [mem_flatMap, mem_filterMap, HeaderName.fromBytes_eq_some, any_eq_true, Bool.and_eq_true]
  constructor
  · rintro ⟨s, ⟨line, hline, hs⟩, item, hitem, hname⟩
    have hb : line.bytes = s := by
      unfold HeaderValue.toStr at hs
      split at hs
      · exact Option.some.inj hs
      · cases hs
    exact ⟨line, hline, by rw [hs]; rfl, item, by rwa [hb], hname⟩
  · rintro ⟨line, hline, hs, item, hitem, hname⟩
    refine ⟨line.bytes, ⟨line, hline, ?_⟩, item, hitem, hname⟩
    unfold HeaderValue.toStr at hs ⊢
    split at hs
    · rename_i hv
      rw [if_pos hv]
    · cases hs

/-! ## The encoder -/

/-- The trailer fields that are declared and permitted, in their order. -/
def sentTrailers (headers trailers : HeaderMap) : List (HeaderName × HeaderValue) :=
  trailers.iter.filter fun f => declared headers f.1 && isValidTrailerField f.1

theorem mayTrail_trailerNames (headers : HeaderMap) (name : HeaderName) :
    mayTrail (trailerNames headers) name = (declared headers name && isValidTrailerField name) := by
  unfold mayTrail
  congr 1
  rw [Bool.eq_iff_iff, contains_iff_mem, mem_trailerNames]

theorem headerLines_eq_nil {fs : List (HeaderName × HeaderValue)} : fs.flatMap headerLine = [] ↔ fs = [] := by
  rw [flatMap_eq_nil_iff]
  constructor
  · intro h
    refine eq_nil_iff_forall_not_mem.2 fun f hf => ?_
    have hl := h f hf
    simp [headerLine, f.1.ok.1] at hl
  · rintro rfl f hf
    cases hf

variable {β : Type} [LawfulBuf β]

theorem content_encodeTrailers (headers trailers : HeaderMap) :
    ((withTrailerNames headers Encoder.chunked).encodeTrailers (β := β) trailers).map LawfulBuf.content =
      if sentTrailers headers trailers = [] then none
      else some (ascii "0" ++ crlf ++ (sentTrailers headers trailers).flatMap headerLine ++ crlf) := by
  have hsent : (trailers.restrict (mayTrail (trailerNames headers))).iter = sentTrailers headers trailers := by
    rw [HeaderMap.iter_restrict, sentTrailers]
    simp only [mayTrail_trailerNames]
  by_cases hn : trailerNames headers = []
  · -- nothing is declared: the encoder has no list
    have hnone : sentTrailers headers trailers = [] := by
      refine filter_eq_nil_iff.2 fun f _ hf => ?_
      rw [Bool.and_eq_true, ← mem_trailerNames, hn] at hf
      cases hf.1
    rw [if_pos hnone, withTrailerNames, if_neg (by simp [hn])]
    rfl
  · have henc : withTrailerNames headers Encoder.chunked = ⟨.chunked (some (trailerNames headers)), false⟩ := by
      rw [withTrailerNames, if_pos (by simp [hn, Encoder.isChunked, Encoder.chunked, Encoder.new])]
      rfl
    rw [henc]
    simp only [Encoder.encodeTrailers, allowedTrailers_eq, writeHeaders, hsent, headerLines_eq_nil]
    split
    · rfl
    · rfl

theorem withTrailerNames_congr {m m' : HeaderMap} (h : m.getAll .trailer = m'.getAll .trailer) (e : Encoder) :
    withTrailerNames m e = withTrailerNames m' e := by
  have hn : trailerNames m = trailerNames m' := by simp only [trailerNames, h]
  unfold withTrailerNames
  rw [hn]

theorem setLength_chunked {head : RequestHead} {body : Option BodyLength}
    (h : (Client.setLength head body).1.isChunked = true) :
    (Client.setLength head body).1 = withTrailerNames head.headers Encoder.chunked := by
  have hte : HeaderName.trailer ≠ .transferEncoding := by decide
  unfold Client.setLength at h ⊢
  split at h
  · cases h
  · simp only at h ⊢
    split at h
    · split at h <;> cases h
    · rename_i hv
      rw [if_neg hv]
      split at h
      · rename_i hc
        rw [if_pos hc]
        refine withTrailerNames_congr ?_ _
        split
        · rfl
        · exact HeaderMap.getAll_mapValues_ne _ hte _
      · rename_i hc
        rw [if_neg hc]
        split at h
        · cases h
        · split at h
          · cases h
          · cases h
          · cases h
          · refine withTrailerNames_congr ?_ _
            rw [HeaderMap.getAll_insert, if_neg hte]
        · cases h

/-- **Only declared and permitted trailers are sent, and all of them.** For every request
with a chunked body and all trailers, `encodeTrailers` writes the fields whose name stands
in a readable `Trailer` line, in any case, and is not forbidden: each once, in their order,
between the last chunk and the empty line. It writes nothing if there is no such field. -/
theorem declared_trailers_sent (head : RequestHead) (body : Option BodyLength) (trailers : HeaderMap)
    (h : (Client.setLength head body).1.isChunked = true) :
    ((Client.setLength head body).1.encodeTrailers (β := β) trailers).map LawfulBuf.content =
      if sentTrailers head.headers trailers = [] then none
      else some (ascii "0" ++ crlf ++ (sentTrailers head.headers trailers).flatMap headerLine ++ crlf) := by
  rw [setLength_chunked h, content_encodeTrailers]

/-- A request with a chunked body and this `Trailer` line. -/
def trailedRequest (line : HeaderValue) : RequestHead where
  version := .http11
  subject := ⟨.post, ascii "/"⟩
  headers := (HeaderMap.empty.append .transferEncoding .chunked).append .trailer line
  extensions := .none

theorem sampleName_ok : ascii "x-a" ≠ [] ∧ (ascii "x-a").all isNameByte = true := by decide

def sampleName : HeaderName := ⟨ascii "x-a", sampleName_ok⟩

/-- Two values of `x-a`, and a field that must not come late. -/
def sampleTrailers : HeaderMap :=
  (((HeaderMap.empty.append sampleName (.fromU64 1)).append .host (.fromU64 0)).append sampleName (.fromU64 2))

def sampleDeclaration : HeaderValue := ⟨ascii "X-A, host", by decide⟩

theorem declared_trailers_sent_sample :
    ((Client.setLength (trailedRequest sampleDeclaration) (some .unknown)).1.encodeTrailers (β := Bytes)
      sampleTrailers).map LawfulBuf.content = some (ascii "0\r\nx-a: 1\r\nx-a: 2\r\n\r\n") :=
  (declared_trailers_sent _ _ _ (by decide +kernel)).trans (by decide +kernel)

/-- The declaration `x-a,` with a byte behind it that is not ASCII. -/
def unreadableDeclaration : HeaderValue := ⟨ascii "x-a, " ++ [255], by decide⟩

/-- One such byte hides the names of its line: `x-a` stands in the declaration, but it is
not sent. -/
theorem unreadable_line_not_sent :
    ((splitComma unreadableDeclaration.bytes).any fun item => eqIgnoreAsciiCase (trim item) sampleName.bytes) = true ∧
    isValidTrailerField sampleName = true ∧ (sampleName, HeaderValue.fromU64 1) ∈ sampleTrailers.iter ∧
    (Client.setLength (trailedRequest unreadableDeclaration) (some .unknown)).1.isChunked = true ∧
    ((Client.setLength (trailedRequest unreadableDeclaration) (some .unknown)).1.encodeTrailers (β := Bytes)
      sampleTrailers).map LawfulBuf.content = none := by
  decide +kernel

end Netty
