import Netty.Spec.Headers
import Mathlib.Data.List.TakeWhile

/-!
# Header maps

How the operations of a header map change its buckets.

* `HeaderName.fromBytes_eq_some`: the spellings of a name.
* `foldl_append_iter`: appending the fields of a map one by one gives the map.
* `getAll_remove`, `getAll_insert`, `getAll_mapValues`: the values of a name after a change.
* `valuesOf_iter`: the lines of a name among the fields of a map.
-/

namespace Netty

open List

/-! ## Names -/

theorem HeaderName.map_toLower (n : HeaderName) : n.bytes.map toLower = n.bytes := by
  have hfin : ∀ i : Fin 256, isNameByte (UInt8.ofNat i) = true → toLower (UInt8.ofNat i) = UInt8.ofNat i := by
    decide +kernel
  have hall : ∀ b : UInt8, isNameByte b = true → toLower b = b := by
    intro b hb
    simpa using hfin ⟨b.toNat, b.toNat_lt⟩ (by simpa using hb)
  have h := n.ok.2
  rw [all_eq_true] at h
  exact (map_congr_left fun b hb => hall b (h b hb)).trans (map_id _)

/-- The spelling of a name differs from it in case only. -/
theorem HeaderName.fromBytes_eq_some {b : Bytes} {n : HeaderName} :
    HeaderName.fromBytes b = some n ↔ eqIgnoreAsciiCase b n.bytes = true := by
  unfold fromBytes eqIgnoreAsciiCase
  rw [n.map_toLower, decide_eq_true_eq]
  constructor
  · intro h
    simp only at h
    split at h
    · cases h; rfl
    · cases h
  · intro h
    simp only [h]
    rw [dif_pos n.ok]

/-! ## The buckets -/

namespace HeaderMap

variable {m : HeaderMap}

theorem ext_entries {m' : HeaderMap} (h : m.entries = m'.entries) : m = m' := by
  cases m; cases m'; simp_all

variable {n : HeaderName}

theorem containsKey_eq_false : m.containsKey n = false ↔ n ∉ m.entries.map Bucket.name := by
  simp only [containsKey, any_eq_false, decide_eq_true_eq, mem_map, not_exists, not_and]

theorem containsKey_eq_true : m.containsKey n = true ↔ n ∈ m.entries.map Bucket.name := by
  rw [← not_iff_not, Bool.not_eq_true, containsKey_eq_false]

theorem length_append_le (m : HeaderMap) (n : HeaderName) (v : HeaderValue) :
    (m.append n v).entries.length ≤ m.entries.length + 1 := by
  unfold append
  split
  · simp [push]
  · simp [mapValues]

theorem entries_append_new (h : n ∉ m.entries.map Bucket.name) (v : HeaderValue) :
    (m.append n v).entries = m.entries ++ [⟨n, v, []⟩] := by
  unfold append
  rw [dif_pos (containsKey_eq_false.2 h)]
  rfl

variable {b : Bucket}

theorem entries_append_last {pre : List Bucket} (hm : m.entries = pre ++ [b]) (v : HeaderValue) :
    (m.append b.name v).entries = pre ++ [{ b with extra := b.extra ++ [v] }] := by
  have hnd := m.nodup
  rw [hm, map_append, map_singleton, nodup_append] at hnd
  have hpre : ∀ x ∈ pre, x.name ≠ b.name := fun x hx =>
    hnd.2.2 x.name (mem_map_of_mem hx) b.name (by simp)
  have hc : ¬ m.containsKey b.name = false := by
    rw [Bool.not_eq_false, containsKey_eq_true, hm]; simp
  unfold append
  rw [dif_neg hc]
  simp only [mapValues, hm, map_append, map_singleton, if_true, append_cancel_right_eq]
  exact (map_congr_left fun x hx => if_neg (hpre x hx)).trans (map_id _)

theorem entries_append_extra (ex : List HeaderValue) : ∀ {m : HeaderMap} {pre : List Bucket} {b : Bucket},
    m.entries = pre ++ [b] →
      (ex.foldl (fun acc v => acc.append b.name v) m).entries = pre ++ [{ b with extra := b.extra ++ ex }] := by
  induction ex with
  | nil => intro m pre b hm; simpa using hm
  | cons v ex ih =>
    intro m pre b hm
    rw [foldl_cons, ih (b := { b with extra := b.extra ++ [v] }) (entries_append_last hm v)]
    simp

def bucketFields (b : Bucket) : List (HeaderName × HeaderValue) := b.values.map fun v => (b.name, v)

theorem entries_append_buckets (bs : List Bucket) : ∀ m : HeaderMap,
    ((m.entries ++ bs).map Bucket.name).Nodup →
      ((bs.flatMap bucketFields).foldl (fun acc f => acc.append f.1 f.2) m).entries = m.entries ++ bs := by
  induction bs with
  | nil => intro m _; simp
  | cons b bs ih =>
    intro m hnd
    have hb : b.name ∉ m.entries.map Bucket.name := by
      rw [map_append, nodup_append] at hnd
      intro hmem
      exact hnd.2.2 _ hmem b.name (by simp) rfl
    have hone : ((bucketFields b).foldl (fun acc f => acc.append f.1 f.2) m).entries = m.entries ++ [b] := by
      simp only [bucketFields, Bucket.values, map_cons, foldl_cons, foldl_map]
      exact entries_append_extra b.extra (b := ⟨b.name, b.value, []⟩) (entries_append_new hb b.value)
    rw [flatMap_cons, foldl_append, ih]
    · rw [hone, append_assoc]; rfl
    · rw [hone, append_assoc]; exact hnd

/-- **A map is its fields**, appended in iteration order. -/
theorem foldl_append_iter (m : HeaderMap) : m.iter.foldl (fun acc f => acc.append f.1 f.2) empty = m :=
  ext_entries (entries_append_buckets m.entries empty (by simpa [empty] using m.nodup))

/-! ## The values of a name -/

theorem getAll_of_mem (hb : b ∈ m.entries) : m.getAll b.name = b.values := by
  have hf : m.entries.find? (·.name = b.name) = some b := by
    obtain ⟨pre, post, hm⟩ := append_of_mem hb
    have hnd := m.nodup
    rw [hm, map_append, map_cons, nodup_append] at hnd
    have hpre : ∀ x ∈ pre, ¬ x.name = b.name := fun x hx =>
      hnd.2.2 x.name (mem_map_of_mem hx) b.name (by simp)
    rw [hm, find?_append, find?_eq_none.2 (by simpa using hpre)]
    simp
  unfold getAll
  rw [hf]
  rfl

theorem getAll_of_notMem (h : ∀ b ∈ m.entries, b.name ≠ n) : m.getAll n = [] := by
  unfold getAll
  rw [find?_eq_none.2 (by simpa using h)]
  rfl

theorem getAll_eq_nil : m.getAll n = [] ↔ m.containsKey n = false := by
  rw [containsKey_eq_false]
  constructor
  · intro h hmem
    obtain ⟨b, hb, rfl⟩ := mem_map.1 hmem
    rw [getAll_of_mem hb] at h
    cases h
  · intro h
    exact getAll_of_notMem fun b hb hn => h (hn ▸ mem_map_of_mem hb)

theorem getAll_congr {m' : HeaderMap} (h : ∀ b : Bucket, b.name = n → (b ∈ m.entries ↔ b ∈ m'.entries)) :
    m.getAll n = m'.getAll n := by
  by_cases hex : ∃ b ∈ m.entries, b.name = n
  · obtain ⟨b, hb, rfl⟩ := hex
    rw [getAll_of_mem hb, getAll_of_mem ((h b rfl).1 hb)]
  · rw [not_exists] at hex
    rw [getAll_of_notMem fun b hb hn => hex b ⟨hb, hn⟩,
      getAll_of_notMem fun b hb hn => hex b ⟨(h b hn).2 hb, hn⟩]

theorem mem_remove : b ∈ (m.remove n).entries ↔ b ∈ m.entries ∧ b.name ≠ n := by
  have hsplit := takeWhile_append_dropWhile (p := fun b : Bucket => b.name ≠ n) (l := m.entries)
  have hpre : ∀ x ∈ m.entries.takeWhile (·.name ≠ n), x.name ≠ n := fun x hx => by
    simpa using all_eq_true.1 all_takeWhile x hx
  have hmem : b ∈ (m.remove n).entries ↔
      b ∈ m.entries.takeWhile (·.name ≠ n) ++ (m.entries.dropWhile (·.name ≠ n)).tail :=
    (swapRemove_perm n m.entries).mem_iff
  rw [hmem]
  generalize m.entries.takeWhile (·.name ≠ n) = pre at hsplit hpre
  have hhead : ∀ x ∈ (m.entries.dropWhile (·.name ≠ n)).head?, x.name = n := fun x hx => by
    have := head?_dropWhile_not (fun b : Bucket => b.name ≠ n) m.entries
    rw [hx] at this
    simpa using this
  cases hd : m.entries.dropWhile (·.name ≠ n) with
  | nil =>
    rw [hd, append_nil] at hsplit
    rw [tail_nil, append_nil, hsplit]
    refine ⟨fun hb => ⟨hb, hpre b (hsplit.symm ▸ hb)⟩, fun hb => hb.1⟩
  | cons x post =>
    rw [hd] at hsplit hhead
    have hx : x.name = n := hhead x rfl
    have hnd := m.nodup
    rw [← hsplit, map_append, map_cons, nodup_append, nodup_cons] at hnd
    have hpost : ∀ y ∈ post, y.name ≠ n := fun y hy hn =>
      hnd.2.1.1 (hx ▸ hn ▸ mem_map_of_mem hy)
    rw [tail_cons, ← hsplit, mem_append, mem_append, mem_cons]
    constructor
    · rintro (hb | hb)
      · exact ⟨.inl hb, hpre b hb⟩
      · exact ⟨.inr (.inr hb), hpost b hb⟩
    · rintro ⟨hb | rfl | hb, hn⟩
      · exact .inl hb
      · exact absurd hx hn
      · exact .inr hb

theorem remove_of_notMem (h : m.containsKey n = false) : m.remove n = m := by
  have hall : ∀ b ∈ m.entries, decide (b.name ≠ n) = true := fun b hb =>
    decide_eq_true fun hn => containsKey_eq_false.1 h (hn ▸ mem_map_of_mem hb)
  apply ext_entries
  show swapRemove n m.entries = m.entries
  unfold swapRemove
  rw [dropWhile_eq_nil_iff.2 hall, takeWhile_eq_self_iff.2 hall]

theorem getAll_remove (m : HeaderMap) (n k : HeaderName) :
    (m.remove n).getAll k = if k = n then [] else m.getAll k := by
  split
  · rename_i h
    exact getAll_of_notMem fun b hb => h ▸ (mem_remove.1 hb).2
  · rename_i h
    exact getAll_congr fun b hb => by rw [mem_remove, hb]; simp [h]

theorem getAll_mapValues {v : HeaderValue} {ex : List HeaderValue} (h : m.getAll n = v :: ex)
    (f : HeaderValue → List HeaderValue → HeaderValue × List HeaderValue) :
    (m.mapValues n f).getAll n = (f v ex).1 :: (f v ex).2 := by
  have hc : n ∈ m.entries.map Bucket.name := by
    rw [← containsKey_eq_true, ← Bool.not_eq_false, ← getAll_eq_nil, h]
    exact cons_ne_nil _ _
  obtain ⟨b, hb, rfl⟩ := mem_map.1 hc
  rw [getAll_of_mem hb] at h
  obtain ⟨rfl, rfl⟩ := List.cons.inj h
  have hb' : (⟨b.name, (f b.value b.extra).1, (f b.value b.extra).2⟩ : Bucket) ∈ (m.mapValues b.name f).entries :=
    mem_map.2 ⟨b, hb, if_pos rfl⟩
  exact getAll_of_mem hb'

theorem getAll_mapValues_ne (m : HeaderMap) {k : HeaderName} (h : k ≠ n)
    (f : HeaderValue → List HeaderValue → HeaderValue × List HeaderValue) :
    (m.mapValues n f).getAll k = m.getAll k := by
  refine getAll_congr fun b hb => ?_
  have hbn : b.name ≠ n := fun hn => h (hb ▸ hn)
  simp only [mapValues, mem_map]
  constructor
  · rintro ⟨x, hx, hxb⟩
    by_cases hxn : x.name = n
    · rw [if_pos hxn] at hxb
      exact absurd (hxb ▸ hxn) hbn
    · rw [if_neg hxn] at hxb
      exact hxb ▸ hx
  · intro hmem
    exact ⟨b, hmem, if_neg hbn⟩

theorem getAll_push (hc : m.containsKey n = false) (k : HeaderName) (v : HeaderValue) :
    (m.push n v hc).getAll k = if k = n then [v] else m.getAll k := by
  split
  · rename_i h
    rw [h]
    exact getAll_of_mem (m := m.push n v hc) (b := ⟨n, v, []⟩) (mem_append_right _ (mem_singleton.2 rfl))
  · rename_i h
    refine getAll_congr fun b hb => ?_
    have hbn : b ≠ ⟨n, v, []⟩ := by
      rintro rfl
      exact h hb.symm
    simp [push, hbn]

theorem getAll_insert (m : HeaderMap) (n k : HeaderName) (v : HeaderValue) :
    (m.insert n v).getAll k = if k = n then [v] else m.getAll k := by
  unfold insert
  by_cases hc : m.containsKey n = false
  · rw [dif_pos hc]
    exact getAll_push hc k v
  · rw [dif_neg hc]
    split
    · rename_i h
      obtain ⟨w, ex, hw⟩ := exists_cons_of_ne_nil (mt getAll_eq_nil.1 hc)
      rw [h, getAll_mapValues hw]
    · rename_i h
      exact getAll_mapValues_ne m h _

theorem getAll_append (m : HeaderMap) (n k : HeaderName) (v : HeaderValue) :
    (m.append n v).getAll k = if k = n then m.getAll k ++ [v] else m.getAll k := by
  unfold append
  by_cases hc : m.containsKey n = false
  · rw [dif_pos hc, getAll_push hc]
    split
    · rename_i h
      rw [h, getAll_eq_nil.2 hc, nil_append]
    · rfl
  · rw [dif_neg hc]
    split
    · rename_i h
      obtain ⟨w, ex, hw⟩ := exists_cons_of_ne_nil (mt getAll_eq_nil.1 hc)
      rw [h, getAll_mapValues hw, hw, cons_append]
    · rename_i h
      exact getAll_mapValues_ne m h _

end HeaderMap

/-- The values of the lines with this name. -/
def valuesOf (n : HeaderName) (fields : List (HeaderName × HeaderValue)) : List HeaderValue :=
  (fields.filter (·.1 = n)).map (·.2)

theorem valuesOf_bucketFields (n : HeaderName) (b : Bucket) :
    valuesOf n (HeaderMap.bucketFields b) = if b.name = n then b.values else [] := by
  unfold valuesOf HeaderMap.bucketFields
  by_cases hb : b.name = n <;> simp [hb, filter_map, Function.comp_def]

/-- **The lines of a name** among the fields of a map are its values there. -/
theorem valuesOf_iter (m : HeaderMap) (n : HeaderName) : valuesOf n m.iter = m.getAll n := by
  have happ : ∀ a b, valuesOf n (a ++ b) = valuesOf n a ++ valuesOf n b := fun a b => by
    simp [valuesOf]
  have hnone : ∀ l : List Bucket, (∀ b ∈ l, b.name ≠ n) → valuesOf n (l.flatMap HeaderMap.bucketFields) = [] := by
    intro l hl
    induction l with
    | nil => rfl
    | cons b l ih =>
      rw [flatMap_cons, happ, valuesOf_bucketFields, if_neg (hl b (by simp)),
        ih fun x hx => hl x (by simp [hx])]
      rfl
  have hiter : m.iter = m.entries.flatMap HeaderMap.bucketFields := rfl
  by_cases hex : ∃ b ∈ m.entries, b.name = n
  · obtain ⟨b, hb, rfl⟩ := hex
    obtain ⟨pre, post, hm⟩ := append_of_mem hb
    have hnd := m.nodup
    rw [hm, map_append, map_cons, nodup_append, nodup_cons] at hnd
    rw [HeaderMap.getAll_of_mem hb, hiter, hm, flatMap_append, flatMap_cons, happ, happ,
      hnone pre fun x hx => hnd.2.2 x.name (mem_map_of_mem hx) b.name (by simp),
      hnone post fun x hx hn => hnd.2.1.1 (hn ▸ mem_map_of_mem hx), valuesOf_bucketFields, if_pos rfl]
    simp
  · have hno : ∀ b ∈ m.entries, b.name ≠ n := fun b hb hn => hex ⟨b, hb, hn⟩
    rw [HeaderMap.getAll_of_notMem hno, hiter, hnone _ hno]

end Netty
