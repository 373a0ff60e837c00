import Netty.Proof.SocksHeader

/-!
# Unframing a batch in place

`unframe` parses the datagrams of a batch and packs the payloads of a run at the front of
the buffer that it parses. The payloads never reach what is still to be read, because a
datagram is longer than its payload.

* `datagrams`: the valid datagrams among the pieces of a buffer.
* `Run`, `MaximalRun`: which of them a call may unframe together.
* `Inv`: the buffer, the two positions and the record of accesses in the loop.
* `unframe_batch`: one call, and all calls on a batch.
* `unframe_boundaries`: what can be told of the payloads afterwards.
* `framed_batch_reported`: what was framed comes back.
-/

namespace Netty.Socks

open List Option

/-! ## The datagrams of a batch -/

/-- A source and a payload. -/
abbrev Datagram := Address × Bytes

/-- The buffer in pieces of `stride` bytes, the last possibly shorter. -/
def pieces (stride : ℕ) (buf : Bytes) : List Bytes :=
  if buf = [] ∨ stride = 0 then [] else buf.take stride :: pieces stride (buf.drop stride)
termination_by buf.length
decreasing_by
  rename_i h
  rw [not_or] at h
  have := length_pos_iff.2 h.1
  rw [length_drop]
  omega

theorem pieces_nil (stride : ℕ) : pieces stride [] = [] := by
  rw [pieces, if_pos (.inl rfl)]

variable {stride : ℕ} {buf : Bytes}

theorem pieces_eq (hb : buf ≠ []) (hs : 0 < stride) :
    pieces stride buf = buf.take stride :: pieces stride (buf.drop stride) := by
  rw [pieces, if_neg (not_or.2 ⟨hb, by omega⟩)]

/-- The datagram in a piece, if it is valid. -/
def datagram (piece : Bytes) : Option Datagram := (decodeHeader piece).toOption

/-- The valid datagrams, in order. -/
def datagrams (stride : ℕ) (buf : Bytes) : List Datagram := (pieces stride buf).filterMap datagram

/-- All payloads, one behind the other. -/
def payloads (ds : List Datagram) : Bytes := ds.flatMap Prod.snd

/-! ## Runs -/

/-- The datagrams have the source of the first, none is longer than the first, and only
the last may be shorter. -/
structure Like (first : Datagram) (ds : List Datagram) : Prop where
  source : ∀ d ∈ ds, d.1 = first.1
  length_le : ∀ d ∈ ds, d.2.length ≤ first.2.length
  length_eq : ∀ d ∈ ds.dropLast, d.2.length = first.2.length

/-- The datagrams are a run: at least one, and all like the first. -/
def Run (ds : List Datagram) : Prop := ∃ first, ds.head? = some first ∧ Like first ds

/-- The longest run in front of the datagrams. -/
structure MaximalRun (run ds : List Datagram) : Prop where
  isRun : Run run
  isPrefix : run <+: ds
  longest : ∀ other, Run other → other <+: ds → other.length ≤ run.length

/-- The datagrams that the loop takes, with the run so far. -/
def grow (run : Option (Address × ℕ)) : List Datagram → List Datagram
  | [] => []
  | d :: ds =>
    let r := run.getD (d.1, d.2.length)
    if r.1 ≠ d.1 ∨ r.2 < d.2.length then []
    else if d.2.length < r.2 then [d]
    else d :: grow (some r) ds

theorem grow_isPrefix (ds : List Datagram) : ∀ run, grow run ds <+: ds := by
  induction ds with
  | nil => intro run; exact prefix_rfl
  | cons d ds ih =>
    intro run
    unfold grow
    simp only
    split
    · exact nil_prefix
    split
    · exact ⟨ds, rfl⟩
    · exact (cons_prefix_cons).2 ⟨rfl, ih _⟩

variable {d first : Datagram} {ds : List Datagram}

theorem Like.cons (h : Like first ds) (hs : d.1 = first.1) (hl : d.2.length = first.2.length) :
    Like first (d :: ds) := by
  refine ⟨?_, ?_, ?_⟩
  · rintro x (_ | ⟨_, hx⟩)
    · exact hs
    · exact h.source x hx
  · rintro x (_ | ⟨_, hx⟩)
    · exact Nat.le_of_eq hl
    · exact h.length_le x hx
  · cases ds with
    | nil => rintro x (_ | _)
    | cons y ds =>
      rw [dropLast_cons_of_ne_nil (cons_ne_nil y ds)]
      rintro x (_ | ⟨_, hx⟩)
      · exact hl
      · exact h.length_eq x hx

theorem Like.tail (h : Like first (d :: ds)) : Like first ds := by
  refine ⟨fun x hx => h.source x (mem_cons_of_mem _ hx), fun x hx => h.length_le x (mem_cons_of_mem _ hx),
    fun x hx => h.length_eq x ?_⟩
  cases ds with
  | nil => cases hx
  | cons y ds =>
    rw [dropLast_cons_of_ne_nil (cons_ne_nil y ds)]
    exact mem_cons_of_mem _ hx

theorem Like.length_head {e : Datagram} (h : Like first (d :: e :: ds)) : d.2.length = first.2.length := by
  refine h.length_eq d ?_
  rw [dropLast_cons_of_ne_nil (cons_ne_nil e ds)]
  exact mem_cons_self

theorem grow_like (first : Datagram) (ds : List Datagram) : Like first (grow (some (first.1, first.2.length)) ds) := by
  have hnil : Like first [] := ⟨by simp, by simp, by simp⟩
  induction ds with
  | nil => exact hnil
  | cons d ds ih =>
    unfold grow
    simp only [getD_some]
    split
    · exact hnil
    rename_i hd
    rw [not_or, not_not, Nat.not_lt] at hd
    split
    · -- a shorter datagram is the last one
      exact ⟨by simpa using hd.1.symm, by simpa using hd.2, by simp⟩
    · rename_i hl
      exact ih.cons hd.1.symm (by omega)

/-- No longer list of datagrams like the first stands in front. -/
theorem grow_longest (first : Datagram) (ds : List Datagram) : ∀ other, Like first other → other <+: ds →
    other.length ≤ (grow (some (first.1, first.2.length)) ds).length := by
  induction ds with
  | nil => intro other _ hp; rw [prefix_nil.1 hp]; exact Nat.le_refl 0
  | cons d ds ih =>
    intro other hlike hp
    cases other with
    | nil => exact Nat.zero_le _
    | cons x other =>
      obtain ⟨rfl, htail⟩ := cons_prefix_cons.1 hp
      have hs := hlike.source x mem_cons_self
      have hl := hlike.length_le x mem_cons_self
      unfold grow
      simp only [getD_some]
      rw [if_neg (by rw [not_or, not_not]; exact ⟨hs.symm, by omega⟩)]
      split
      · rename_i hshort
        -- a shorter datagram that is not the last one
        cases other with
        | nil => exact Nat.le_refl 1
        | cons y other =>
          have := hlike.length_head
          omega
      · exact Nat.succ_le_succ (ih other hlike.tail htail)

theorem grow_none (d : Datagram) (ds : List Datagram) :
    grow none (d :: ds) = d :: grow (some (d.1, d.2.length)) ds := by
  rw [grow]
  simp

/-- **What the loop takes is the longest run.** -/
theorem grow_maximalRun (h : ds ≠ []) : MaximalRun (grow none ds) ds := by
  obtain ⟨d, ds, rfl⟩ := exists_cons_of_ne_nil h
  have hg := grow_none d ds
  refine ⟨⟨d, by rw [hg]; rfl, ?_⟩, grow_isPrefix _ _, fun other hrun hp => ?_⟩
  · rw [hg]
    exact (grow_like d ds).cons rfl rfl
  · obtain ⟨first, hfirst, hlike⟩ := hrun
    cases other with
    | nil => cases hfirst
    | cons x other =>
      obtain ⟨rfl, -⟩ := cons_prefix_cons.1 hp
      cases hfirst
      exact grow_longest _ _ _ hlike hp

/-- **Cut at the length of the first**, the payloads of a run are those that are not empty. -/
theorem Like.pieces_payloads (h : Like first ds) :
    pieces first.2.length (payloads ds) = (ds.map Prod.snd).filter (· ≠ []) := by
  induction ds with
  | nil => exact pieces_nil _
  | cons d ds ih =>
    have hle := h.length_le d mem_cons_self
    have hpay : payloads (d :: ds) = d.2 ++ payloads ds := flatMap_cons
    rw [map_cons, hpay]
    by_cases hd : d.2 = []
    · -- the first is empty, or this is the last
      rw [hd, nil_append, filter_cons_of_neg (by simp)]
      exact ih h.tail
    · have hpos := length_pos_iff.2 hd
      have hne : d.2 ++ payloads ds ≠ [] := fun hx => hd (append_eq_nil_iff.1 hx).1
      rw [pieces_eq hne (by omega), filter_cons_of_pos (by simpa using hd), ← ih h.tail]
      cases ds with
      | nil =>
        have hnil : payloads [] = [] := rfl
        rw [hnil, append_nil, take_of_length_le hle, drop_of_length_le hle]
      | cons e ds => rw [← h.length_head, take_left, drop_left]

/-! ## Moving a payload -/

/-- Bytes are written over the buffer at `dest`. -/
def overwrite (buf : Bytes) (dest : ℕ) (bytes : Bytes) : Bytes :=
  buf.take dest ++ bytes ++ buf.drop (dest + bytes.length)

section Overwrite

variable {buf bytes : Bytes} {dest : ℕ}

theorem length_overwrite (h : dest + bytes.length ≤ buf.length) : (overwrite buf dest bytes).length = buf.length := by
  simp only [overwrite, length_append, length_take, length_drop]
  omega

theorem take_overwrite (h : dest ≤ buf.length) :
    (overwrite buf dest bytes).take (dest + bytes.length) = buf.take dest ++ bytes := by
  have hlen : (buf.take dest ++ bytes).length = dest + bytes.length := by
    rw [length_append, length_take_of_le h]
  rw [overwrite, ← hlen, take_left']
  rfl

theorem drop_overwrite {pos : ℕ} (h : dest ≤ buf.length) (hpos : dest + bytes.length ≤ pos) :
    (overwrite buf dest bytes).drop pos = buf.drop pos := by
  have hlen : (buf.take dest ++ bytes).length = dest + bytes.length := by
    rw [length_append, length_take_of_le h]
  rw [overwrite, drop_append, hlen, drop_of_length_le (by omega), nil_append, drop_drop,
    Nat.add_sub_cancel' hpos]

theorem copyWithin_eq {first last : ℕ} (hb : (buf.take last).drop first = bytes) (dest : ℕ) :
    copyWithin buf first last dest = overwrite buf dest bytes := by
  simp only [copyWithin, overwrite, hb]

end Overwrite

/-! ## The loop -/

/-- Every part of the buffer is read before anything is written to it: what was written
ends where a later read starts. The record has the latest access first. -/
def ReadFirst : List Access → Prop
  | [] => True
  | .read first _ :: trace => (∀ x y, .write x y ∈ trace → y ≤ first) ∧ ReadFirst trace
  | .write _ _ :: trace => ReadFirst trace

/-- **The loop's invariant**: what is still to be read is as it was, and lies behind what
was written. -/
structure Inv (orig : Bytes) (c : Cursor) : Prop where
  length : c.buf.length = orig.length
  rest : c.buf.drop c.read = orig.drop c.read
  write_le : c.write ≤ c.read
  read_le : c.read ≤ orig.length
  writes : ∀ x y, .write x y ∈ c.trace → y ≤ c.write
  readFirst : ReadFirst c.trace

section Round

variable {orig : Bytes} {c : Cursor} {stride : ℕ}

def pieceEnd (stride : ℕ) (c : Cursor) : ℕ := min (c.read + stride) c.buf.length

theorem Inv.piece (h : Inv orig c) (stride : ℕ) :
    (c.buf.take (pieceEnd stride c)).drop c.read = (orig.drop c.read).take stride := by
  have hlen : c.buf.drop c.read = orig.drop c.read := h.rest
  have hle := h.read_le
  rw [drop_take, hlen, pieceEnd, h.length]
  by_cases hs : c.read + stride ≤ orig.length
  · rw [Nat.min_eq_left hs, Nat.add_sub_cancel_left]
  · rw [Nat.min_eq_right (by omega), take_of_length_le (Nat.le_of_eq length_drop),
      take_of_length_le (by rw [length_drop]; omega)]

theorem Inv.pieces (h : Inv orig c) (hlt : c.read < orig.length) (hs : 0 < stride) :
    pieces stride (orig.drop c.read) = (orig.drop c.read).take stride :: pieces stride (orig.drop (pieceEnd stride c)) := by
  have hne : orig.drop c.read ≠ [] := fun hnil => by
    have := drop_eq_nil_iff.1 hnil
    omega
  have hdrop : orig.drop (c.read + stride) = orig.drop (pieceEnd stride c) := by
    rw [pieceEnd, h.length]
    by_cases hle : c.read + stride ≤ orig.length
    · rw [Nat.min_eq_left hle]
    · rw [Nat.min_eq_right (by omega), drop_of_length_le (by omega), drop_of_length_le (Nat.le_refl _)]
  rw [pieces_eq hne hs, drop_drop, hdrop]

theorem Inv.pieceEnd_le (h : Inv orig c) (stride : ℕ) : pieceEnd stride c ≤ orig.length := by
  rw [pieceEnd, h.length]
  exact Nat.min_le_right _ _

theorem Inv.lt_pieceEnd (h : Inv orig c) (hlt : c.read < orig.length) (hs : 0 < stride) :
    c.read < pieceEnd stride c := by
  rw [pieceEnd, h.length]
  exact Nat.lt_min.2 ⟨by omega, hlt⟩

def Cursor.reads (c : Cursor) (stride : ℕ) : Cursor :=
  { c with trace := .read c.read (pieceEnd stride c) :: c.trace }

theorem Inv.reads (h : Inv orig c) (stride : ℕ) : Inv orig (c.reads stride) :=
  { h with
    writes := fun x y hw => h.writes x y (by simpa [Cursor.reads] using hw)
    readFirst := ⟨fun x y hw => Nat.le_trans (h.writes x y hw) h.write_le, h.readFirst⟩ }

theorem Inv.skip (h : Inv orig c) {pos : ℕ} (hle : c.read ≤ pos) (hpos : pos ≤ orig.length) :
    Inv orig { c with read := pos } := by
  refine { h with rest := ?_, write_le := Nat.le_trans h.write_le hle, read_le := hpos }
  have hd := congrArg (List.drop (pos - c.read)) h.rest
  rw [drop_drop, drop_drop, Nat.add_sub_cancel' hle] at hd
  exact hd

/-- The payload at the end of the piece is moved to the front. -/
def Cursor.takes (c : Cursor) (stride : ℕ) (payload : Bytes) (run : Address × ℕ) : Cursor where
  buf := overwrite c.buf c.write payload
  read := pieceEnd stride c
  write := c.write + payload.length
  run := some run
  trace := .write c.write (c.write + payload.length) ::
    .read (pieceEnd stride c - payload.length) (pieceEnd stride c) :: c.trace

theorem Inv.payload (h : Inv orig c) {head payload : Bytes} (hne : head ≠ [])
    (hp : (orig.drop c.read).take stride = head ++ payload) :
    (c.buf.take (pieceEnd stride c)).drop (pieceEnd stride c - payload.length) = payload ∧
      c.read + payload.length < pieceEnd stride c := by
  have hpiece := h.piece stride
  rw [hp] at hpiece
  have hlen := congrArg List.length hpiece
  have hend := h.pieceEnd_le stride
  have hpos := length_pos_iff.2 hne
  rw [length_drop, length_take, h.length, Nat.min_eq_left hend, length_append] at hlen
  refine ⟨?_, by omega⟩
  have hdrop := congrArg (List.drop head.length) hpiece
  rw [drop_drop, drop_left] at hdrop
  rwa [show pieceEnd stride c - payload.length = c.read + head.length by omega]

theorem Inv.takes (h : Inv orig c) {head payload : Bytes} (hne : head ≠ [])
    (hp : (orig.drop c.read).take stride = head ++ payload) (run : Address × ℕ) :
    Inv orig (c.takes stride payload run) := by
  obtain ⟨-, hfit⟩ := h.payload hne hp
  have hend := h.pieceEnd_le stride
  have hw := h.write_le
  have hr := h.read_le
  have hbuf : c.write ≤ c.buf.length := by rw [h.length]; omega
  refine ⟨?_, ?_, ?_, hend, ?_, ?_⟩
  · exact (length_overwrite (by rw [h.length]; omega)).trans h.length
  · show (overwrite c.buf c.write payload).drop (pieceEnd stride c) = _
    rw [drop_overwrite hbuf (by omega)]
    exact (h.skip (by omega : c.read ≤ pieceEnd stride c) hend).rest
  · show c.write + payload.length ≤ pieceEnd stride c
    omega
  · intro x y hmem
    rcases mem_cons.1 hmem with heq | hmem
    · cases heq
      exact Nat.le_refl _
    · rcases mem_cons.1 hmem with heq | hmem
      · cases heq
      · exact Nat.le_trans (h.writes x y hmem) (Nat.le_add_right _ _)
  · -- the payload stands behind all that was written
    refine ⟨fun x y hmem => ?_, h.readFirst⟩
    have := h.writes x y hmem
    omega

theorem takes_front (h : Inv orig c) (stride : ℕ) (payload : Bytes) (run : Address × ℕ) :
    (c.takes stride payload run).buf.take (c.takes stride payload run).write = c.buf.take c.write ++ payload :=
  take_overwrite (by rw [h.length]; exact Nat.le_trans h.write_le h.read_le)

theorem round_invalid (h : Inv orig c) (hd : datagram ((orig.drop c.read).take stride) = none) :
    unframeRound stride c = .inl { c.reads stride with read := pieceEnd stride c } := by
  obtain ⟨e, he⟩ : ∃ e, decodeHeader ((c.buf.take (min (c.read + stride) c.buf.length)).drop c.read) = .error e := by
    rw [← h.piece stride, datagram, pieceEnd] at hd
    cases hdec : decodeHeader ((c.buf.take (min (c.read + stride) c.buf.length)).drop c.read) with
    | error e => exact ⟨e, rfl⟩
    | ok x => rw [hdec] at hd; cases hd
  simp only [unframeRound, he, Cursor.reads, pieceEnd]

theorem round_valid (h : Inv orig c) {d : Datagram} (hd : datagram ((orig.drop c.read).take stride) = some d) :
    unframeRound stride c =
      if (c.run.getD (d.1, d.2.length)).1 ≠ d.1 ∨ (c.run.getD (d.1, d.2.length)).2 < d.2.length then
        .inr (c.reads stride)
      else if d.2.length < (c.run.getD (d.1, d.2.length)).2 then
        .inr ((c.reads stride).takes stride d.2 (c.run.getD (d.1, d.2.length)))
      else .inl ((c.reads stride).takes stride d.2 (c.run.getD (d.1, d.2.length))) := by
  have hdec : decodeHeader ((orig.drop c.read).take stride) = .ok d := by
    rw [datagram] at hd
    cases hdec : decodeHeader ((orig.drop c.read).take stride) with
    | error e => rw [hdec] at hd; cases hd
    | ok x => rw [hdec] at hd; cases hd; rfl
  obtain ⟨head, hne, hp⟩ := decodeHeader_payload hdec
  have hcopy := copyWithin_eq (h.payload hne hp).1 c.write
  rw [← h.piece stride, pieceEnd] at hdec
  rw [pieceEnd] at hcopy
  simp only [unframeRound, hdec, hcopy, Cursor.reads, Cursor.takes, pieceEnd]

end Round

/-! ## A call -/

/-- What the loop has done from `c` to `c'`: these datagrams were taken, and those are left. -/
structure Takes (orig : Bytes) (stride : ℕ) (c c' : Cursor) (taken left : List Datagram) : Prop where
  inv : Inv orig c'
  write : c'.write = c.write + (payloads taken).length
  front : c'.buf.take c'.write = c.buf.take c.write ++ payloads taken
  run : c'.run = c.run.or (taken.head?.map fun d => (d.1, d.2.length))
  left : datagrams stride (orig.drop c'.read) = left
  read_le : c.read ≤ c'.read
  read_lt : taken ≠ [] → c.read < c'.read
  untouched : taken = [] → c'.buf = c.buf

section Loop

variable {orig : Bytes} {c : Cursor} {stride : ℕ} {c' : Cursor}

theorem Takes.nothing (h : Inv orig c') (hbuf : c'.buf = c.buf) (hread : c'.read = c.read)
    (hwrite : c'.write = c.write) (hrun : c'.run = c.run) :
    Takes orig stride c c' [] (datagrams stride (orig.drop c.read)) := by
  refine ⟨h, hwrite, ?_, ?_, by rw [hread], Nat.le_of_eq hread.symm, fun hn => absurd rfl hn, fun _ => hbuf⟩
  · rw [hbuf, hwrite, payloads, flatMap_nil, append_nil]
  · rw [hrun]
    cases c.run <;> rfl

theorem Takes.ended (h : Inv orig c) (hle : orig.length ≤ c.read) :
    Takes orig stride c c (grow c.run (datagrams stride (orig.drop c.read)))
      ((datagrams stride (orig.drop c.read)).drop (grow c.run (datagrams stride (orig.drop c.read))).length) := by
  have hnil : datagrams stride (orig.drop c.read) = [] := by
    rw [drop_of_length_le hle, datagrams, pieces_nil]
    rfl
  have hn : Takes orig stride c c [] _ := .nothing h rfl rfl rfl rfl
  rw [hnil] at hn ⊢
  exact hn

theorem Takes.skipped {c₁ : Cursor} {taken left : List Datagram} (h : Takes orig stride c₁ c' taken left)
    (hbuf : c₁.buf = c.buf) (hread : c.read < c₁.read) (hwrite : c₁.write = c.write) (hrun : c₁.run = c.run) :
    Takes orig stride c c' taken left where
  inv := h.inv
  write := by rw [h.write, hwrite]
  front := by rw [h.front, hbuf, hwrite]
  run := by rw [h.run, hrun]
  left := h.left
  read_le := Nat.le_trans (Nat.le_of_lt hread) h.read_le
  read_lt := fun hn => Nat.lt_trans hread (h.read_lt hn)
  untouched := fun hn => (h.untouched hn).trans hbuf

theorem Takes.taken {c₁ : Cursor} {d : Datagram} {taken left : List Datagram} (h : Takes orig stride c₁ c' taken left)
    (hread : c.read < c₁.read) (hwrite : c₁.write = c.write + d.2.length)
    (hfront : c₁.buf.take c₁.write = c.buf.take c.write ++ d.2) (hrun : c₁.run = some (c.run.getD (d.1, d.2.length))) :
    Takes orig stride c c' (d :: taken) left where
  inv := h.inv
  write := by
    rw [h.write, hwrite, payloads, payloads, flatMap_cons, length_append]
    omega
  front := by rw [h.front, hfront, payloads, payloads, flatMap_cons, append_assoc]
  run := by
    rw [h.run, hrun]
    cases c.run <;> rfl
  left := h.left
  read_le := Nat.le_trans (Nat.le_of_lt hread) h.read_le
  read_lt := fun _ => Nat.lt_of_lt_of_le hread h.read_le
  untouched := fun hn => absurd hn (cons_ne_nil _ _)

/-- The first datagram is invalid, or the first of those in the buffer. -/
theorem Inv.datagrams (h : Inv orig c) (hlt : c.read < orig.length) (hs : 0 < stride) :
    datagrams stride (orig.drop c.read) =
      (datagram ((orig.drop c.read).take stride)).toList ++ datagrams stride (orig.drop (pieceEnd stride c)) := by
  unfold Socks.datagrams
  rw [h.pieces hlt hs, filterMap_cons]
  cases datagram ((orig.drop c.read).take stride) <;> rfl

/-- **The loop takes the longest run.** By induction on the rounds that are left: every
round reads one byte at least. -/
theorem loop_takes (hs : 0 < stride) : ∀ (fuel : ℕ) (c : Cursor), Inv orig c → orig.length - c.read ≤ fuel →
    Takes orig stride c (unframeLoop stride fuel c) (grow c.run (datagrams stride (orig.drop c.read)))
      ((datagrams stride (orig.drop c.read)).drop (grow c.run (datagrams stride (orig.drop c.read))).length) := by
  intro fuel
  induction fuel with
  | zero => exact fun c h hfuel => .ended h (by omega)
  | succ fuel ih =>
    intro c h hfuel
    unfold unframeLoop
    by_cases hlt : c.read < orig.length
    · have hend := h.lt_pieceEnd hlt hs
      have hle := h.pieceEnd_le stride
      rw [h.length, if_pos hlt, h.datagrams hlt hs]
      cases hd : datagram ((orig.drop c.read).take stride) with
      | none =>
        rw [round_invalid h hd]
        have h₁ : Inv orig { c.reads stride with read := pieceEnd stride c } :=
          (h.reads stride).skip (Nat.le_of_lt hend) hle
        exact (ih _ h₁ (by show orig.length - pieceEnd stride c ≤ fuel; omega)).skipped rfl hend rfl rfl
      | some d =>
        obtain ⟨head, hne, hp⟩ : ∃ head, head ≠ [] ∧ (orig.drop c.read).take stride = head ++ d.2 := by
          rw [datagram] at hd
          cases hdec : decodeHeader ((orig.drop c.read).take stride) with
          | error e => rw [hdec] at hd; cases hd
          | ok x => rw [hdec] at hd; cases hd; exact decodeHeader_payload hdec
        rw [round_valid h hd, toList_some, singleton_append, grow]
        by_cases hbreak : (c.run.getD (d.1, d.2.length)).1 ≠ d.1 ∨ (c.run.getD (d.1, d.2.length)).2 < d.2.length
        · -- the datagram is left for the next call
          rw [if_pos hbreak, if_pos hbreak]
          have hn : Takes orig stride c (c.reads stride) [] _ := .nothing (h.reads stride) rfl rfl rfl rfl
          rw [h.datagrams hlt hs, hd] at hn
          exact hn
        · rw [if_neg hbreak, if_neg hbreak]
          have h₁ : Inv orig ((c.reads stride).takes stride d.2 (c.run.getD (d.1, d.2.length))) :=
            (h.reads stride).takes hne hp _
          have hfront := takes_front (h.reads stride) stride d.2 (c.run.getD (d.1, d.2.length))
          by_cases hstop : d.2.length < (c.run.getD (d.1, d.2.length)).2
          · rw [if_pos hstop, if_pos hstop]
            exact (Takes.nothing h₁ rfl rfl rfl rfl).taken hend rfl hfront rfl
          · rw [if_neg hstop, if_neg hstop]
            exact (ih _ h₁ (by show orig.length - pieceEnd stride c ≤ fuel; omega)).taken hend rfl hfront rfl
    · rw [h.length, if_neg hlt]
      exact .ended h (by omega)

end Loop

/-- The stride that counts: without one, the buffer is a single piece. -/
def strideOf (stride : ℕ) (buf : Bytes) : ℕ := if stride = 0 then buf.length else stride

theorem pieces_long (h : buf.length ≤ stride) : pieces stride buf = pieces buf.length buf := by
  by_cases hb : buf = []
  · rw [hb, pieces_nil, pieces_nil]
  · have hpos := length_pos_iff.2 hb
    rw [pieces_eq hb (by omega), pieces_eq hb hpos, take_of_length_le h, drop_of_length_le h,
      take_length, drop_length, pieces_nil, pieces_nil]

/-- What is left of a buffer has the same datagrams under its own stride. -/
theorem datagrams_left {left : Bytes} (h : left.length ≤ buf.length) :
    datagrams (strideOf stride left) left = datagrams (strideOf stride buf) left := by
  unfold strideOf datagrams
  split
  · rw [pieces_long h]
  · rfl

/-- The result of a call describes the datagrams that it has unframed. -/
structure Describes (u : Unframed) (bytes : Bytes) (run : List Datagram) : Prop where
  source : ∀ d ∈ run, d.1 = u.source
  stride : run.head?.map (fun d => d.2.length) = some u.stride
  len : u.len = (payloads run).length
  bytes : bytes = payloads run

/-- The results of the calls on a batch, with the bytes at the front of the buffer:
together they describe its datagrams, each in one run, and each run is the longest. -/
inductive Reports : List (Unframed × Bytes) → List Datagram → Prop
  | done : Reports [] []
  | call {u : Unframed} {bytes : Bytes} {run left : List Datagram} {results : List (Unframed × Bytes)} :
      MaximalRun run (run ++ left) → Describes u bytes run → Reports results left →
      Reports ((u, bytes) :: results) (run ++ left)

section Call

variable {relay sender : SocketAddr} {buf : Bytes} {stride : ℕ}

theorem start_takes (buf : Bytes) (stride : ℕ) :
    Takes buf (strideOf stride buf) ⟨buf, 0, 0, none, []⟩
      (unframeLoop (strideOf stride buf) buf.length ⟨buf, 0, 0, none, []⟩)
      (grow none (datagrams (strideOf stride buf) buf))
      ((datagrams (strideOf stride buf) buf).drop (grow none (datagrams (strideOf stride buf) buf)).length) := by
  have h : Inv buf ⟨buf, 0, 0, none, []⟩ :=
    ⟨rfl, rfl, Nat.le_refl 0, Nat.zero_le _, nofun, trivial⟩
  by_cases hs : 0 < strideOf stride buf
  · exact loop_takes hs buf.length _ h (Nat.sub_le _ _)
  · -- only an empty buffer has no stride
    have hnil : buf = [] := by
      unfold strideOf at hs
      split at hs
      · exact eq_nil_of_length_eq_zero (by omega)
      · omega
    subst hnil
    exact Takes.ended h (Nat.le_refl 0)

/-- In the order of the accesses: what is written before a read ends where the read starts. -/
theorem ReadFirst.split {first last : ℕ} {trace before : List Access} :
    ∀ later, trace = later ++ .read first last :: before → ReadFirst trace → ∀ x y, .write x y ∈ before → y ≤ first := by
  intro later
  induction later generalizing trace with
  | nil =>
    rintro rfl h x y hm
    exact h.1 x y hm
  | cons a later ih =>
    rintro rfl h
    cases a with
    | read _ _ => exact ih rfl h.2
    | write _ _ => exact ih rfl h

/-- Everything that a call does to the buffer, and what it returns. -/
structure Call (stride : ℕ) (buf : Bytes) (call : Unframing) : Prop where
  length : call.buf.length = buf.length
  readFirst : ∀ before first last after, call.accesses = before ++ .read first last :: after →
    ∀ x y, .write x y ∈ before → y ≤ first
  nothing : call.result = none → datagrams (strideOf stride buf) buf = [] ∧ call.buf = buf
  consumed : ∀ u, call.result = some u → 0 < u.consumed ∧ u.consumed ≤ buf.length ∧
    call.buf.drop u.consumed = buf.drop u.consumed ∧ ∀ x y, .write x y ∈ call.accesses → y ≤ u.consumed
  run : ∀ u, call.result = some u → ∃ run left, datagrams (strideOf stride buf) buf = run ++ left ∧
    MaximalRun run (run ++ left) ∧ Describes u (call.buf.take u.len) run ∧
    datagrams (strideOf stride buf) (buf.drop u.consumed) = left

/-- **One call** unframes the longest run of datagrams. -/
theorem unframe_call (h : accepted relay sender = true) (buf : Bytes) (stride : ℕ) :
    Call stride buf (unframe relay sender buf stride) := by
  have ht := start_takes buf stride
  have hcall : unframe relay sender buf stride = (fun c : Cursor =>
      (⟨c.run.map fun run => ⟨run.1, c.write, run.2, c.read⟩, c.buf, c.trace.reverse⟩ : Unframing))
      (unframeLoop (strideOf stride buf) buf.length ⟨buf, 0, 0, none, []⟩) := by
    rw [unframe, h]
    rfl
  rw [hcall]
  generalize unframeLoop (strideOf stride buf) buf.length ⟨buf, 0, 0, none, []⟩ = c at ht
  have hrun : c.run = (grow none (datagrams (strideOf stride buf) buf)).head?.map fun d => (d.1, d.2.length) := ht.run
  -- a result means that there is a datagram, and describes the first
  have hsome : ∀ u, c.run.map (fun run => (⟨run.1, c.write, run.2, c.read⟩ : Unframed)) = some u →
      datagrams (strideOf stride buf) buf ≠ [] ∧ ∃ first, (grow none (datagrams (strideOf stride buf) buf)).head? =
        some first ∧ u = ⟨first.1, c.write, first.2.length, c.read⟩ := by
    intro u hu
    cases hf : (grow none (datagrams (strideOf stride buf) buf)).head? with
    | none => rw [hrun, hf] at hu; cases hu
    | some first =>
      rw [hrun, hf] at hu
      refine ⟨fun hnil => ?_, first, rfl, (some.inj hu).symm⟩
      rw [hnil] at hf
      cases hf
  refine ⟨ht.inv.length, fun before first last after heq => ?_, fun hnone => ?_, fun u hu => ?_, fun u hu => ?_⟩
  · have hrev : c.trace = after.reverse ++ .read first last :: before.reverse := by
      have := congrArg reverse heq
      simpa using this
    intro x y hm
    exact ReadFirst.split _ hrev ht.inv.readFirst x y (mem_reverse.2 hm)
  · -- without a run there is no datagram
    have hnil : datagrams (strideOf stride buf) buf = [] := by
      cases hds : datagrams (strideOf stride buf) buf with
      | nil => rfl
      | cons d ds =>
        rw [hds, grow_none] at hrun
        simp only [hrun] at hnone
        cases hnone
    refine ⟨hnil, ht.untouched ?_⟩
    rw [hnil]
    rfl
  · obtain ⟨hne, first, hfirst, rfl⟩ := hsome u hu
    have htaken : grow none (datagrams (strideOf stride buf) buf) ≠ [] := fun hnil => by
      rw [hnil] at hfirst
      cases hfirst
    refine ⟨ht.read_lt htaken, ht.inv.read_le, ht.inv.rest, fun x y hm => ?_⟩
    exact Nat.le_trans (ht.inv.writes x y (mem_reverse.1 hm)) ht.inv.write_le
  · obtain ⟨hne, first, hfirst, rfl⟩ := hsome u hu
    have hmax := grow_maximalRun hne
    obtain ⟨first', hfirst', hlike⟩ := hmax.isRun
    rw [hfirst] at hfirst'
    cases hfirst'
    have hsplit := (prefix_iff_eq_append.1 hmax.isPrefix).symm
    refine ⟨_, _, hsplit, hsplit ▸ hmax, ⟨hlike.source, by rw [hfirst]; rfl, ?_, ht.front⟩, ht.left⟩
    exact ht.write.trans (Nat.zero_add _)

/-- **All calls on a batch** end, and report each of its datagrams once. -/
theorem unframeAll_reports (h : accepted relay sender = true) (stride : ℕ) : ∀ (fuel : ℕ) (buf : Bytes),
    buf.length < fuel → ∃ results, unframeAll relay sender stride fuel buf = some results ∧
      Reports results (datagrams (strideOf stride buf) buf) := by
  intro fuel
  induction fuel with
  | zero => exact fun buf hf => absurd hf (Nat.not_lt_zero _)
  | succ fuel ih =>
    intro buf hf
    have hc := unframe_call h buf stride
    unfold unframeAll
    cases hr : (unframe relay sender buf stride).result with
    | none =>
      rw [(hc.nothing hr).1]
      exact ⟨[], by simp only [hr], .done⟩
    | some u =>
      obtain ⟨hpos, hle, hdrop, -⟩ := hc.consumed u hr
      obtain ⟨run, left, hds, hmax, hdesc, hleft⟩ := hc.run u hr
      have hshort : (buf.drop u.consumed).length ≤ buf.length := by
        rw [length_drop]
        exact Nat.sub_le _ _
      obtain ⟨results, hall, hrep⟩ := ih (buf.drop u.consumed) (by rw [length_drop]; omega)
      rw [datagrams_left hshort, hleft] at hrep
      refine ⟨(u, (unframe relay sender buf stride).buf.take u.len) :: results, ?_, ?_⟩
      · simp only [hr, hdrop, hall, map_some]
      · rw [hds]
        exact .call hmax hdesc hrep

end Call

/-- **Unframing a batch in place is safe and complete.** For every buffer and stride, and
a sender that is the relay:

* each call packs at the front the payloads of the longest run of valid datagrams, changes
  no byte at or behind `consumed`, and writes to no part of the buffer that it reads later;
* the calls on what is left end, and every valid datagram of the buffer is in one run. -/
theorem unframe_batch (relay sender : SocketAddr) (buf : Bytes) (stride : ℕ) (h : accepted relay sender = true) :
    Call stride buf (unframe relay sender buf stride) ∧
    ∃ results, unframeAll relay sender stride (buf.length + 1) buf = some results ∧
      Reports results (datagrams (strideOf stride buf) buf) :=
  ⟨unframe_call h buf stride, unframeAll_reports h stride _ buf (Nat.lt_succ_self _)⟩

def sampleRelay : SocketAddr := .v4 ⟨[127, 0, 0, 1], rfl⟩ 1080

/-- Two datagrams from 10.0.0.1:53 with a malformed one between them. -/
def sampleBatch : Bytes :=
  [0, 0, 0, 1, 10, 0, 0, 1, 0, 53, 7] ++ replicate 11 9 ++ [0, 0, 0, 1, 10, 0, 0, 1, 0, 53, 8]

theorem unframe_batch_sample :
    (unframe sampleRelay sampleRelay sampleBatch 11).result =
      some ⟨.ip (.v4 ⟨[10, 0, 0, 1], rfl⟩ 53), 2, 1, 33⟩ ∧
    (unframe sampleRelay sampleRelay sampleBatch 11).buf.take 2 = [7, 8] ∧
    Call 11 sampleBatch (unframe sampleRelay sampleRelay sampleBatch 11) :=
  ⟨by decide +kernel, by decide +kernel, (unframe_batch _ _ _ _ (by decide +kernel)).1⟩

/-! ## The boundaries of the datagrams -/

/-- **What a run keeps of its boundaries.** Cut at multiples of the stride that a call returns, the bytes at the front
are the payloads of its run that are not empty; so the payloads can be told apart exactly when none is empty. -/
theorem unframe_boundaries (relay sender : SocketAddr) (buf : Bytes) (stride : ℕ) (h : accepted relay sender = true)
    {u : Unframed} (hu : (unframe relay sender buf stride).result = some u) :
    ∃ run left, datagrams (strideOf stride buf) buf = run ++ left ∧ MaximalRun run (run ++ left) ∧
      let cuts := pieces u.stride ((unframe relay sender buf stride).buf.take u.len)
      cuts = (run.map Prod.snd).filter (· ≠ []) ∧ (cuts = run.map Prod.snd ↔ ∀ d ∈ run, d.2 ≠ []) := by
  obtain ⟨run, left, hds, hmax, hdesc, -⟩ := (unframe_call h buf stride).run u hu
  obtain ⟨first, hfirst, hlike⟩ := hmax.isRun
  have hstride : u.stride = first.2.length := by
    have hs := hdesc.stride
    rw [hfirst] at hs
    exact (some.inj hs).symm
  have hcuts := hlike.pieces_payloads
  rw [← hstride, ← hdesc.bytes] at hcuts
  refine ⟨run, left, hds, hmax, hcuts, ?_⟩
  rw [hcuts, filter_eq_self, List.forall_mem_map]
  simp only [decide_eq_true_eq]

theorem unframe_boundaries_sample : ∃ run left,
    datagrams 11 sampleBatch = run ++ left ∧ MaximalRun run (run ++ left) ∧
      pieces 1 ((unframe sampleRelay sampleRelay sampleBatch 11).buf.take 2) = (run.map Prod.snd).filter (· ≠ []) := by
  have hres : (unframe sampleRelay sampleRelay sampleBatch 11).result =
      some ⟨.ip (.v4 ⟨[10, 0, 0, 1], rfl⟩ 53), 2, 1, 33⟩ := by decide +kernel
  obtain ⟨run, left, hds, hmax, hcuts, -⟩ := unframe_boundaries _ _ _ _ (by decide +kernel) hres
  exact ⟨run, left, hds, hmax, hcuts⟩

/-- A datagram with a payload and one without, both from 10.0.0.1:53. -/
def emptyLast : Bytes := [0, 0, 0, 1, 10, 0, 0, 1, 0, 53, 7] ++ [0, 0, 0, 1, 10, 0, 0, 1, 0, 53]

/-- **An empty datagram is lost**: it is in the run, and what the call returns is one payload. -/
theorem unframe_loses_empty :
    datagrams 11 emptyLast = [(.ip (.v4 ⟨[10, 0, 0, 1], rfl⟩ 53), [7]), (.ip (.v4 ⟨[10, 0, 0, 1], rfl⟩ 53), [])] ∧
    (unframe sampleRelay sampleRelay emptyLast 11).result = some ⟨.ip (.v4 ⟨[10, 0, 0, 1], rfl⟩ 53), 1, 1, 21⟩ ∧
    pieces 1 ((unframe sampleRelay sampleRelay emptyLast 11).buf.take 1) = [[7]] := by
  have hbuf : (unframe sampleRelay sampleRelay emptyLast 11).buf.take 1 = [7] := by decide +kernel
  refine ⟨?_, by decide +kernel, ?_⟩
  · rw [datagrams, pieces_eq (by decide) (by decide), pieces_eq (by decide) (by decide)]
    have hend : (emptyLast.drop 11).drop 11 = [] := rfl
    rw [hend, pieces_nil]
    decide +kernel
  · rw [hbuf, pieces_eq (by decide) (by decide)]
    exact congrArg _ (pieces_nil 1)

/-! ## Both directions -/

/-- A datagram behind the header for its target. -/
def frame (d : Datagram) : Bytes := (encodeHeader d.1 []).2 ++ d.2

/-- A datagram that can be framed, and its frame has this length. -/
abbrev Framed (stride : ℕ) := { d : Datagram // (encodeHeader d.1 []).1 = .ok () ∧ (frame d).length = stride }

theorem frame_reads {target : Address} (payload : Bytes) (h : (encodeHeader target []).1 = .ok ()) :
    datagram (frame (target, payload)) = some (target.canonical, payload) := by
  have he : target.Encodable := by
    by_contra hn
    rw [encodeHeader_error hn] at h
    cases h
  have hf : frame (target, payload) = header target ++ payload := by
    rw [frame, encodeHeader_ok he, nil_append]
  rw [hf, datagram, (header_reads he).whole]
  rfl

theorem datagrams_framed {stride : ℕ} (ds : List (Framed stride)) :
    datagrams stride (ds.flatMap fun d => frame d.1) = ds.map fun d => (d.1.1.canonical, d.1.2) := by
  induction ds with
  | nil => rw [datagrams, flatMap_nil, pieces_nil]; rfl
  | cons d ds ih =>
    obtain ⟨⟨target, payload⟩, he, hlen⟩ := d
    have hd := frame_reads payload he
    have hne : frame (target, payload) ≠ [] := fun hnil => by
      rw [hnil] at hd
      cases hd
    have hs : 0 < stride := hlen ▸ length_pos_iff.2 hne
    rw [flatMap_cons, datagrams, pieces_eq (append_ne_nil_of_left_ne_nil hne _) hs, take_left' hlen,
      drop_left' hlen, filterMap_cons_some hd]
    exact congrArg _ ih

/-- **What was framed comes back.** Datagrams for any targets, in frames of one length that
arrive as one batch, are all reported, in order, each in one run. -/
theorem framed_batch_reported (relay : SocketAddr) (n : ℕ) (ds : List (Framed (n + 1))) :
    let buf := ds.flatMap fun d => frame d.1
    ∃ results, unframeAll relay relay (n + 1) (buf.length + 1) buf = some results ∧
      Reports results (ds.map fun d => (d.1.1.canonical, d.1.2)) := by
  intro buf
  have hrelay : accepted relay relay = true := by simp [accepted]
  obtain ⟨results, hr, hrep⟩ := unframeAll_reports hrelay (n + 1) _ buf (Nat.lt_succ_self _)
  rw [strideOf, if_neg (Nat.succ_ne_zero n), datagrams_framed] at hrep
  exact ⟨results, hr, hrep⟩

end Netty.Socks
