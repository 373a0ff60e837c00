import Netty.Proof.Framing
import Netty.Spec.Multiplexed

/-!
# No field of a connection is sent on HTTP/2 or HTTP/3

A name is either removed with all its values, or keeps them all. Only the first `Connection` line and
the first `TE` line are looked at.

* `FirstNames`, `OtherTe`: what the function looks at.
* `Dropped`, `getAll_strip_dropped`, `getAll_strip_kept`: the names that go, and the names that stay.
* `strip_removes`: **what is true of every request**, and of which requests the rest is true.
* `second_lines_survive`: a second line.
-/

namespace Netty

open List

variable {headers : HeaderMap} {k : HeaderName}

def Names (v : HeaderValue) (k : HeaderName) : Prop :=
  ∃ item ∈ splitComma v.bytes, HeaderName.fromBytes (trim item) = some k

instance (v : HeaderValue) (k : HeaderName) : Decidable (Names v k) := by
  unfold Names
  infer_instance

/-- A `Connection` line of the map has this name in it. -/
def Nominated (headers : HeaderMap) (k : HeaderName) : Prop := ∃ v ∈ headers.getAll .connection, Names v k

instance (headers : HeaderMap) (k : HeaderName) : Decidable (Nominated headers k) := by
  unfold Nominated
  infer_instance

/-! ## Removing -/

theorem getAll_foldl_remove (ns : List HeaderName) : ∀ m : HeaderMap,
    (k ∈ ns → (ns.foldl HeaderMap.remove m).getAll k = []) ∧
      (k ∉ ns → (ns.foldl HeaderMap.remove m).getAll k = m.getAll k) := by
  induction ns with
  | nil => intro m; simp
  | cons n ns ih =>
    intro m
    obtain ⟨hin, hout⟩ := ih (m.remove n)
    rw [foldl_cons, mem_cons]
    by_cases hk : k ∈ ns
    · exact ⟨fun _ => hin hk, fun h => absurd (.inr hk) h⟩
    · rw [hout hk, HeaderMap.getAll_remove]
      by_cases hn : k = n
      · exact ⟨fun _ => if_pos hn, fun h => absurd (.inl hn) h⟩
      · exact ⟨fun h => absurd h (not_or.2 ⟨hn, hk⟩), fun _ => if_neg hn⟩

theorem getAll_removeStr (m : HeaderMap) (name : Bytes) :
    (HeaderName.fromBytes name = some k → (m.removeStr name).getAll k = []) ∧
      (HeaderName.fromBytes name ≠ some k → (m.removeStr name).getAll k = m.getAll k) := by
  unfold HeaderMap.removeStr
  cases hn : HeaderName.fromBytes name with
  | none => simp
  | some n =>
    simp only [HeaderMap.getAll_remove, ne_eq, Option.some.injEq]
    exact ⟨fun h => if_pos h.symm, fun h => if_neg fun hk => h hk.symm⟩

theorem getAll_foldl_removeStr (items : List Bytes) : ∀ m : HeaderMap,
    ((∃ item ∈ items, HeaderName.fromBytes (trim item) = some k) →
      (items.foldl (fun m name => m.removeStr (trim name)) m).getAll k = []) ∧
    ((∀ item ∈ items, HeaderName.fromBytes (trim item) ≠ some k) →
      (items.foldl (fun m name => m.removeStr (trim name)) m).getAll k = m.getAll k) := by
  induction items with
  | nil => intro m; simp
  | cons item items ih =>
    intro m
    obtain ⟨hin, hout⟩ := ih (m.removeStr (trim item))
    obtain ⟨hin', hout'⟩ := getAll_removeStr (k := k) m (trim item)
    rw [foldl_cons]
    refine ⟨fun h => ?_, fun h => ?_⟩
    · by_cases hrest : ∃ item ∈ items, HeaderName.fromBytes (trim item) = some k
      · exact hin hrest
      · obtain ⟨x, hx, hxk⟩ := h
        rcases mem_cons.1 hx with rfl | hx
        · rw [hout fun y hy hyk => hrest ⟨y, hy, hyk⟩, hin' hxk]
        · exact absurd ⟨x, hx, hxk⟩ hrest
    · rw [hout fun y hy => h y (mem_cons_of_mem _ hy), hout' (h item mem_cons_self)]

/-! ## What goes -/

def FirstNames (headers : HeaderMap) (k : HeaderName) : Prop :=
  ∃ v, headers.get .connection = some v ∧ v.toStr.isSome = true ∧ Names v k

def OtherTe (headers : HeaderMap) : Prop := ∃ v, headers.get .te = some v ∧ v.bytes ≠ ascii "trailers"

theorem get_congr {m m' : HeaderMap} (h : m.getAll k = m'.getAll k) : m.get k = m'.get k := by
  unfold HeaderMap.get
  rw [h]

theorem otherTe_iff (headers : HeaderMap) :
    ((headers.get .te).any fun v => v.bytes ≠ ascii "trailers") = true ↔ OtherTe headers := by
  unfold OtherTe
  cases headers.get .te with
  | none => simp
  | some v => simp

theorem getAll_stripTe_self (h : OtherTe headers) : (stripTe headers true).getAll .te = [] := by
  unfold stripTe
  rw [if_pos rfl, if_pos ((otherTe_iff headers).2 h), HeaderMap.getAll_remove, if_pos rfl]

theorem getAll_stripTe (h : k = .te → ¬ OtherTe headers) : (stripTe headers true).getAll k = headers.getAll k := by
  unfold stripTe
  rw [if_pos rfl]
  split
  · rename_i hte
    rw [HeaderMap.getAll_remove, if_neg fun hk => h hk ((otherTe_iff headers).1 hte)]
  · rfl

theorem getAll_stripNominated (headers : HeaderMap) (k : HeaderName) :
    (k = .connection ∨ FirstNames headers k → (stripNominated headers).getAll k = []) ∧
      (k ≠ .connection → ¬ FirstNames headers k → (stripNominated headers).getAll k = headers.getAll k) := by
  have hremove := HeaderMap.getAll_remove headers .connection k
  unfold stripNominated FirstNames
  cases hv : headers.get .connection with
  | none =>
    refine ⟨?_, fun _ _ => rfl⟩
    rintro (rfl | ⟨v, hv', -⟩)
    · exact head?_eq_none_iff.1 hv
    · cases hv'
  | some v =>
    cases ht : v.toStr with
    | none =>
      simp only [ht, Option.some.injEq]
      refine ⟨?_, fun hk _ => by rw [hremove, if_neg hk]⟩
      rintro (rfl | ⟨w, rfl, hs, -⟩)
      · rw [hremove, if_pos rfl]
      · rw [ht] at hs
        cases hs
    | some contents =>
      obtain rfl := toStr_eq_some ht
      obtain ⟨hin, hout⟩ := getAll_foldl_removeStr (k := k) (splitComma v.bytes) (headers.remove .connection)
      simp only [ht, Option.some.injEq]
      by_cases hn : Names v k
      · exact ⟨fun _ => hin hn, fun _ h => absurd ⟨v, rfl, by rw [ht]; rfl, hn⟩ h⟩
      · have hkeep := hout fun item hi hk => hn ⟨item, hi, hk⟩
        refine ⟨?_, fun hk _ => by rw [hkeep, hremove, if_neg hk]⟩
        rintro (rfl | ⟨w, rfl, -, hwk⟩)
        · rw [hkeep, hremove, if_pos rfl]
        · exact absurd hwk hn

theorem getAll_stripNominated_nil (h : headers.getAll k = []) : (stripNominated headers).getAll k = [] := by
  obtain ⟨hin, hout⟩ := getAll_stripNominated headers k
  by_cases hk : k = .connection ∨ FirstNames headers k
  · exact hin hk
  · obtain ⟨hc, hf⟩ := not_or.1 hk
    rw [hout hc hf, h]

/-! ## The whole function -/

def beforeNominated (headers : HeaderMap) : HeaderMap :=
  stripTe (connectionHeaders.foldl HeaderMap.remove headers) true

theorem otherTe_foldl_remove : OtherTe (connectionHeaders.foldl HeaderMap.remove headers) ↔ OtherTe headers := by
  unfold OtherTe
  rw [get_congr ((getAll_foldl_remove connectionHeaders headers).2 (by decide))]

theorem getAll_beforeNominated (hk : k ∉ connectionHeaders) (hte : k = .te → ¬ OtherTe headers) :
    (beforeNominated headers).getAll k = headers.getAll k := by
  unfold beforeNominated
  rw [getAll_stripTe fun h => mt otherTe_foldl_remove.1 (hte h), (getAll_foldl_remove connectionHeaders headers).2 hk]

theorem firstNames_beforeNominated : FirstNames (beforeNominated headers) k ↔ FirstNames headers k := by
  have h : (beforeNominated headers).getAll .connection = headers.getAll .connection :=
    getAll_beforeNominated (by decide) fun h => absurd h (by decide)
  unfold FirstNames
  rw [get_congr h]

theorem strip_eq (headers : HeaderMap) :
    stripConnectionHeaders headers true = stripNominated (beforeNominated headers) := rfl

theorem getAll_strip_firstNames (h : k = .connection ∨ FirstNames headers k) :
    (stripConnectionHeaders headers true).getAll k = [] := by
  rw [strip_eq]
  exact (getAll_stripNominated _ k).1 (h.imp_right firstNames_beforeNominated.2)

theorem getAll_strip_connectionHeaders (h : k ∈ connectionHeaders) :
    (stripConnectionHeaders headers true).getAll k = [] := by
  have hte : k ≠ .te := by
    rintro rfl
    revert h
    decide
  rw [strip_eq]
  apply getAll_stripNominated_nil
  unfold beforeNominated
  rw [getAll_stripTe fun h => absurd h hte, (getAll_foldl_remove connectionHeaders headers).1 h]

theorem getAll_strip_te (h : OtherTe headers) : (stripConnectionHeaders headers true).getAll .te = [] := by
  rw [strip_eq]
  exact getAll_stripNominated_nil (getAll_stripTe_self (otherTe_foldl_remove.2 h))

/-! ## Exactly what goes -/

/-- The names that are removed: the five, those in the first `Connection` line, and `TE` when its first
line is not `trailers`. -/
def Dropped (headers : HeaderMap) (k : HeaderName) : Prop :=
  k ∈ HeaderName.connection :: connectionHeaders ∨ FirstNames headers k ∨ (k = .te ∧ OtherTe headers)

theorem getAll_strip_dropped (h : Dropped headers k) : (stripConnectionHeaders headers true).getAll k = [] := by
  rcases h with h | h | ⟨rfl, h⟩
  · rcases mem_cons.1 h with rfl | h
    · exact getAll_strip_firstNames (.inl rfl)
    · exact getAll_strip_connectionHeaders h
  · exact getAll_strip_firstNames (.inr h)
  · exact getAll_strip_te h

theorem getAll_strip_kept (h : ¬ Dropped headers k) :
    (stripConnectionHeaders headers true).getAll k = headers.getAll k := by
  obtain ⟨hk, hf, hte⟩ := not_or.1 h |>.imp_right not_or.1
  rw [mem_cons, not_or] at hk
  rw [strip_eq, (getAll_stripNominated _ k).2 hk.1 (mt firstNames_beforeNominated.1 hf),
    getAll_beforeNominated hk.2 fun h ho => hte ⟨h, ho⟩]

theorem nominated_of_firstNames (h : FirstNames headers k) : Nominated headers k := by
  obtain ⟨v, hv, -, hk⟩ := h
  exact ⟨v, mem_of_mem_head? hv, hk⟩

/-- **No field of a connection survives**, but for what only later lines say. The five fields are gone from
every request. The nominated fields are gone exactly when each is dropped or was not there, and no `TE` other
than `trailers` is left exactly when `TE` is dropped or had no other value. Everything else keeps its values
and their order, whatever the map. -/
theorem strip_removes (headers : HeaderMap) :
    (∀ k ∈ HeaderName.connection :: connectionHeaders, (stripConnectionHeaders headers true).getAll k = []) ∧
    ((∀ k, Nominated headers k → (stripConnectionHeaders headers true).getAll k = []) ↔
      ∀ k, Nominated headers k → Dropped headers k ∨ headers.getAll k = []) ∧
    ((∀ v ∈ (stripConnectionHeaders headers true).getAll .te, v.bytes = ascii "trailers") ↔
      Dropped headers .te ∨ ∀ v ∈ headers.getAll .te, v.bytes = ascii "trailers") ∧
    (∀ k ∉ HeaderName.connection :: connectionHeaders, ¬ Nominated headers k →
      (k = .te → ∀ v ∈ headers.getAll .te, v.bytes = ascii "trailers") →
      (stripConnectionHeaders headers true).getAll k = headers.getAll k) := by
  refine ⟨fun k hk => getAll_strip_dropped (.inl hk), forall₂_congr fun k _ => ?_, ?_, fun k hk hn hte => ?_⟩
  · by_cases hd : Dropped headers k
    · simp only [getAll_strip_dropped hd, hd, true_or]
    · simp only [getAll_strip_kept hd, hd, false_or]
  · by_cases hd : Dropped headers .te
    · simp only [getAll_strip_dropped hd, hd, true_or, not_mem_nil, false_implies, implies_true]
    · simp only [getAll_strip_kept hd, hd, false_or]
  · apply getAll_strip_kept
    rintro (h | h | ⟨h, v, hv, hb⟩)
    · exact hk h
    · exact hn (nominated_of_firstNames h)
    · exact hb (hte h v (mem_of_mem_head? hv))

def fieldsOf (fields : List (HeaderName × String)) : HeaderMap :=
  fields.foldl (fun m f => ((HeaderValue.fromBytes (ascii f.2)).map (m.append f.1)).getD m) .empty

def xA : HeaderName := ⟨ascii "x-a", by decide +kernel⟩

/-- Two `Connection` lines, the second of which names `X-A`, and two `TE` lines. -/
def twoLines : HeaderMap :=
  fieldsOf [(.connection, "close"), (.connection, "x-a"), (xA, "1"), (.te, "trailers"), (.te, "gzip")]

/-- **Second lines are not looked at**: `X-A` is sent although it is nominated, and so is `TE: gzip`. -/
theorem second_lines_survive :
    Nominated twoLines xA ∧
    ((stripConnectionHeaders twoLines true).getAll xA).map HeaderValue.bytes = [ascii "1"] ∧
    ((stripConnectionHeaders twoLines true).getAll .te).map HeaderValue.bytes =
      [ascii "trailers", ascii "gzip"] := by
  decide +kernel

end Netty
