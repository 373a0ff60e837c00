import Netty.Proof.Delimit
import Netty.Proof.Head
import Netty.Proof.Reader

/-!
# Whether a response leaves its connection open

`Client::parse` goes through the lines of a head with two flags. What they say in the end does not depend
on the order of the lines: no `Connection` line asks to close, and HTTP/1.0 has to ask for more.

* `HasToken`: the items of a `Connection` line.
* `Persistent`: what the lines of a response say about its connection.
* `Returned`: the lines that the parser has found in the head of a message.
* `keep_alive_order_free`: **the flag of the code is that**, and the order and grouping of lines do not matter.
-/

namespace Netty

open List Relation

/-- `to_str` makes a string of these bytes. -/
def Visible (v : Bytes) : Prop := v.all (fun b => b = 9 || (32 ≤ b && b < 127)) = true

/-- The line has this item. A line that is not visible ASCII has none. -/
def HasToken (v token : Bytes) : Prop :=
  Visible v ∧ ∃ item ∈ splitComma v, eqIgnoreAsciiCase (trim item) token = true

/-- **The response leaves its connection open**: it is no upgrade, no line asks to close, and its version is
HTTP/1.1 or a line asks to keep it alive. -/
def Persistent (version : Version) (upgrade : Bool) (lines : List Bytes) : Prop :=
  upgrade = false ∧ (∀ v ∈ lines, ¬ HasToken v (ascii "close")) ∧
    (version = .http11 ∨ ∃ v ∈ lines, HasToken v (ascii "keep-alive"))

def connectionLines (lines : List (Bytes × Bytes)) : List Bytes :=
  (lines.filter fun l => HeaderName.fromBytes l.1 = some .connection).map Prod.snd

theorem connectionHas_iff (v : HeaderValue) (token : Bytes) :
    connectionHas v token = true ↔ HasToken v.bytes token := by
  unfold connectionHas HasToken Visible HeaderValue.toStr
  split <;> simp_all

theorem ParsedMessage.Honest.persistent {msg : ParsedMessage} (h : msg.Honest) :
    msg.keepAlive = true ↔ Persistent msg.head.version msg.wantsUpgrade
      ((msg.head.headers.getAll .connection).map HeaderValue.bytes) := by
  rw [h.keepAlive, connectionAnyClose, any_eq_false, any_eq_true]
  simp only [connectionClose, connectionKeepAlive, connectionHas_iff]
  unfold Persistent
  rw [forall_mem_map]
  simp only [mem_map, exists_exists_and_eq_and]
  constructor
  · rintro ⟨hclose, hka, hup⟩
    exact ⟨hup, hclose, hka⟩
  · rintro ⟨hup, hclose, hka⟩
    exact ⟨hclose, hka, hup⟩

section Order

variable {version : Version} {upgrade : Bool}

theorem Persistent.of_mem {l l' : List Bytes} (hmem : ∀ v, v ∈ l ↔ v ∈ l') (h : Persistent version upgrade l) :
    Persistent version upgrade l' := by
  obtain ⟨hup, hclose, hka⟩ := h
  refine ⟨hup, fun v hv => hclose v ((hmem v).2 hv), hka.imp_right ?_⟩
  rintro ⟨v, hv, ht⟩
  exact ⟨v, (hmem v).1 hv, ht⟩

theorem Persistent.perm {l l' : List (Bytes × Bytes)} (h : l.Perm l') :
    Persistent version upgrade (connectionLines l) ↔ Persistent version upgrade (connectionLines l') := by
  have hperm : (connectionLines l).Perm (connectionLines l') := (h.filter _).map _
  exact ⟨Persistent.of_mem fun _ => hperm.mem_iff, Persistent.of_mem fun _ => hperm.mem_iff.symm⟩

theorem hasToken_split {a b : Bytes} (hv : Visible (a ++ 44 :: b)) (token : Bytes) :
    HasToken (a ++ 44 :: b) token ↔ HasToken a token ∨ HasToken b token := by
  have hab := hv
  unfold Visible at hab
  rw [all_append, all_cons, Bool.and_eq_true, Bool.and_eq_true] at hab
  have ha : Visible a := hab.1
  have hb : Visible b := hab.2.2
  unfold HasToken
  rw [splitComma_append]
  simp only [hv, ha, hb, true_and, mem_append, or_and_right, exists_or]

/-- Two lines, or one with a comma between them. -/
theorem Persistent.split {n a b : Bytes} (hv : Visible (a ++ 44 :: b)) (l l' : List (Bytes × Bytes)) :
    Persistent version upgrade (connectionLines (l ++ (n, a ++ 44 :: b) :: l')) ↔
      Persistent version upgrade (connectionLines (l ++ (n, a) :: (n, b) :: l')) := by
  unfold connectionLines
  simp only [filter_append, filter_cons, map_append]
  split
  · unfold Persistent
    simp only [map_cons, mem_append, mem_cons, or_imp, forall_and, forall_eq, or_and_right, exists_or,
      exists_eq_left, hasToken_split hv, not_or, and_assoc, or_assoc]
  · rfl

end Order

/-! ## The lines of a message -/

/-- The lines of a head, as the parser has found them and `obs_fold_line` has joined them. -/
def RawHead.lines (raw : RawHead) (ctx : ParseContext) (slice : Bytes) : List (Bytes × Bytes) :=
  let x := if ctx.h1ParserConfig.obsoleteMultilineHeaders then obsFoldLines slice raw.headers else (slice, raw.headers)
  x.2.map fun idx => (sliceOf x.1 idx.name, sliceOf x.1 idx.value)

/-- `Client::parse` skips some heads, finds one with this version and these lines, and returns its message. It
starts without the fields of an older one. -/
structure Returned (version : Version) (lines : List (Bytes × Bytes)) (msg : ParsedMessage) : Prop where
  run : ∃ (hp : Httparse) (ctx : ParseContext) (s t s' : Parsing) (raw : RawHead),
    Unused s.cachedHeaders ∧ Client.parse hp ctx s = (.ready (.ok (some msg)), s') ∧
      ReflTransGen (fun a b => Client.parseRound hp ctx a = .again b) s t ∧
      Client.parseRound hp ctx t = .ret (.ready (.ok (some msg)), s') ∧
      Client.nextHead hp ctx t.buf = .ok (some raw) ∧ raw.version = version ∧
      raw.lines ctx (t.buf.take raw.len) = lines

variable {hp : Httparse} {ctx : ParseContext} {s s' : Parsing} {msg : ParsedMessage}

/-- The connection lines of a map that is read line by line. -/
theorem readFields_connection {slice : Bytes} (idxs : List HeaderIndices) : ∀ {f f' : Fields},
    readFields slice idxs f = some (.ok f') →
    (f'.headers.getAll .connection).map HeaderValue.bytes = (f.headers.getAll .connection).map HeaderValue.bytes ++
      connectionLines (idxs.map fun idx => (sliceOf slice idx.name, sliceOf slice idx.value)) := by
  induction idxs with
  | nil =>
    intro f f' h
    cases h
    simp [connectionLines]
  | cons idx idxs ih =>
    intro f f' h
    unfold readFields at h
    split at h
    · cases h
    · cases h
    · rename_i name value hname hvalue
      have hbytes : value.bytes = sliceOf slice idx.value := by
        unfold HeaderValue.fromBytes at hvalue
        split at hvalue <;> cases hvalue
        rfl
      have hheaders : (f.add name value).headers = f.headers.append name value := by
        unfold Fields.add
        simp only
        split_ifs <;> rfl
      rw [ih h, hheaders, HeaderMap.getAll_append]
      unfold connectionLines
      by_cases hc : name = .connection
      · subst hc
        simp [hname, hbytes]
      · simp [hname, hc, Ne.symm hc]

theorem parseRound_lines {t : Parsing} {raw : RawHead} (ht : Unused t.cachedHeaders)
    (hhead : Client.nextHead hp ctx t.buf = .ok (some raw))
    (hround : Client.parseRound hp ctx t = .ret (.ready (.ok (some msg)), s')) :
    msg.head.version = raw.version ∧ (msg.head.headers.getAll .connection).map HeaderValue.bytes =
      connectionLines (raw.lines ctx (t.buf.take raw.len)) := by
  unfold Client.parseRound at hround
  rw [hhead] at hround
  simp only at hround
  rcases hread : Client.readHead ctx (t.buf.take raw.len) raw t.cachedHeaders with _ | e | x <;>
    rw [hread] at hround
  · cases hround
  · cases hround
  · have hx : msg.head = x.1 := by
      rcases hd : Client.decoder x.1 ctx.reqMethod with e | _ | ⟨decode, upgrade⟩ <;>
        simp only [Client.finishHead, hd] at hround
      · cases hround
      · split_ifs at hround <;> cases hround
      · cases hround
        rfl
    rw [hx]
    unfold Client.readHead at hread
    rw [ht] at hread
    unfold RawHead.lines
    generalize (if ctx.h1ParserConfig.obsoleteMultilineHeaders = true then obsFoldLines (t.buf.take raw.len) raw.headers
      else (t.buf.take raw.len, raw.headers)) = y at hread ⊢
    obtain ⟨slice, idxs⟩ := y
    simp only at hread
    rcases hf : readFields slice idxs ⟨.empty, raw.version = .http11, false⟩ with _ | e | f <;> rw [hf] at hread
    · cases hread
    · cases hread
    · cases hread
      have hlines := readFields_connection idxs hf
      exact ⟨rfl, hlines⟩

theorem parseRound_again {a b : Parsing} (h : Client.parseRound hp ctx a = .again b) : Unused b.cachedHeaders := by
  unfold Client.parseRound at h
  split at h
  · cases h
  · cases h
  · simp only at h
    split at h
    · cases h
    · cases h
    · rename_i x _
      rcases hd : Client.decoder x.1 ctx.reqMethod with e | _ | ⟨decode, upgrade⟩ <;>
        simp only [Client.finishHead, hd] at h
      · cases h
      · split_ifs at h <;> cases h <;> rfl
      · cases h

theorem exists_returned (hs : Unused s.cachedHeaders) (h : Client.parse hp ctx s = (.ready (.ok (some msg)), s')) :
    ∃ version lines, Returned version lines msg := by
  have hlast : ∃ t, ReflTransGen (fun a b => Client.parseRound hp ctx a = .again b) s t ∧
      Client.parseRound hp ctx t = .ret (Client.parse hp ctx s) ∨ (Client.parse hp ctx s).1 = .busy := by
    refine loop_inv (I := ReflTransGen (fun a b => Client.parseRound hp ctx a = .again b) s)
      (Q := fun x => ∃ t, ReflTransGen (fun a b => Client.parseRound hp ctx a = .again b) s t ∧
        Client.parseRound hp ctx t = .ret x ∨ x.1 = .busy) (fun t ht => ?_) (fun t _ => ⟨t, .inr rfl⟩) _ s .refl
    cases hr : Client.parseRound hp ctx t with
    | again u => exact ht.tail hr
    | ret x => exact ⟨t, .inl ⟨ht, hr⟩⟩
  obtain ⟨t, ⟨hrun, hround⟩ | hbusy⟩ := hlast
  · rw [h] at hround
    cases hhead : Client.nextHead hp ctx t.buf with
    | error e =>
      unfold Client.parseRound at hround
      rw [hhead] at hround
      cases hround
    | ok raw =>
      cases raw with
      | none =>
        unfold Client.parseRound at hround
        rw [hhead] at hround
        cases hround
      | some raw => exact ⟨_, _, ⟨hp, ctx, s, t, s', raw, hs, h, hrun, hround, hhead, rfl, rfl⟩⟩
  · rw [h] at hbusy
    cases hbusy

theorem Returned.persistent {version : Version} {lines : List (Bytes × Bytes)} (h : Returned version lines msg) :
    msg.keepAlive = true ↔ Persistent version msg.wantsUpgrade (connectionLines lines) := by
  obtain ⟨hp, ctx, s, t, s', raw, hs, hparse, hrun, hround, hhead, rfl, rfl⟩ := h.run
  have ht : Unused t.cachedHeaders := by
    rcases hrun.cases_tail with rfl | ⟨u, -, hu⟩
    · exact hs
    · exact parseRound_again hu
  obtain ⟨hversion, hlines⟩ := parseRound_lines ht hhead hround
  rw [((clientParse_ok hs).2 msg (congrArg Prod.fst hparse)).persistent, hversion, hlines]

/-- **Whether a response leaves its connection open does not depend on the order of its lines.** Every message that
`Client::parse` returns comes from a head that the parser has found, and:

* its flag says that it is no upgrade, that no `Connection` line of the head has a `close` item, and that its version
  is HTTP/1.1 or some `Connection` line has a `keep-alive` item;
* the lines of the head may be permuted;
* a visible line may be split, and two may be merged, at a comma. -/
theorem keep_alive_order_free :
    (∀ hp ctx s s' msg, Unused s.cachedHeaders → Client.parse hp ctx s = (.ready (.ok (some msg)), s') →
      ∃ version lines, Returned version lines msg) ∧
    (∀ version lines msg, Returned version lines msg →
      (msg.keepAlive = true ↔ Persistent version msg.wantsUpgrade (connectionLines lines))) ∧
    (∀ version lines lines' msg msg', Returned version lines msg → Returned version lines' msg' →
      msg.wantsUpgrade = msg'.wantsUpgrade → lines.Perm lines' → msg.keepAlive = msg'.keepAlive) ∧
    ∀ version (l l' : List (Bytes × Bytes)) (n a b : Bytes) msg msg', Visible (a ++ 44 :: b) →
      Returned version (l ++ (n, a ++ 44 :: b) :: l') msg → Returned version (l ++ (n, a) :: (n, b) :: l') msg' →
      msg.wantsUpgrade = msg'.wantsUpgrade → msg.keepAlive = msg'.keepAlive := by
  refine ⟨fun hp ctx s s' msg hs h => exists_returned hs h, fun version lines msg h => h.persistent,
    fun version lines lines' msg msg' h h' hu hperm => ?_, fun version l l' n a b msg msg' hv h h' hu => ?_⟩
  · rw [Bool.eq_iff_iff, h.persistent, h'.persistent, hu]
    exact Persistent.perm hperm
  · rw [Bool.eq_iff_iff, h.persistent, h'.persistent, hu]
    exact Persistent.split hv l l'

/-! ### A head in two orders -/

/-- A message that is returned in the first round, and is no upgrade. -/
def Client.isPlain : Ctl (Except Parse (Option ParsedMessage)) Parsing → Bool
  | .ret (.ready (.ok (some msg)), _) => !msg.wantsUpgrade
  | _ => false

theorem returned_of_round (hp : Httparse) (ctx : ParseContext) (s : Parsing) (raw : RawHead)
    {lines : List (Bytes × Bytes)} (hs : Unused s.cachedHeaders)
    (hhead : Client.nextHead hp ctx s.buf = .ok (some raw)) (hlines : raw.lines ctx (s.buf.take raw.len) = lines)
    (hround : Client.isPlain (Client.parseRound hp ctx s) = true) :
    ∃ msg, msg.wantsUpgrade = false ∧ Returned raw.version lines msg := by
  rcases hr : Client.parseRound hp ctx s with u | ⟨(e | _ | msg) | _ | _ | _, s'⟩ <;> rw [hr] at hround
  all_goals try cases hround
  have hparse : Client.parse hp ctx s = (.ready (.ok (some msg)), s') := by
    unfold Client.parse loop
    rw [hr]
  exact ⟨msg, by simpa [Client.isPlain] using hround, hp, ctx, s, s, s', raw, hs, hparse, .refl, hr, hhead, rfl, hlines⟩

def keepLine : Bytes × Bytes := (ascii "Connection", ascii "keep-alive")

def closeLine : Bytes × Bytes := (ascii "Connection", ascii "close")

/-- The connection is to be kept alive, and to be closed. -/
def keepCloseHead : Bytes := ascii "HTTP/1.1 200 OK\r\nConnection: keep-alive\r\nConnection: close\r\n\r\n"

def closeKeepHead : Bytes := ascii "HTTP/1.1 200 OK\r\nConnection: close\r\nConnection: keep-alive\r\n\r\n"

def keepCloseRaw : RawResponse := ⟨62, 200, ascii "OK", 1, [⟨(17, 27), (29, 39)⟩, ⟨(41, 51), (53, 58)⟩]⟩

def closeKeepRaw : RawResponse := ⟨62, 200, ascii "OK", 1, [⟨(17, 27), (29, 34)⟩, ⟨(36, 46), (48, 58)⟩]⟩

def orderParser : Httparse := tableParser [(keepCloseHead, keepCloseRaw), (closeKeepHead, closeKeepRaw)]

theorem keepClose_returned : ∃ msg, msg.wantsUpgrade = false ∧ Returned .http11 [keepLine, closeLine] msg :=
  returned_of_round orderParser earlyContext ⟨keepCloseHead, none, []⟩
    ⟨62, .okStatus, none, .http11, keepCloseRaw.headers⟩ rfl (by decide +kernel) (by decide +kernel)
    (by decide +kernel)

theorem closeKeep_returned : ∃ msg, msg.wantsUpgrade = false ∧ Returned .http11 [closeLine, keepLine] msg :=
  returned_of_round orderParser earlyContext ⟨closeKeepHead, none, []⟩
    ⟨62, .okStatus, none, .http11, closeKeepRaw.headers⟩ rfl (by decide +kernel) (by decide +kernel)
    (by decide +kernel)

theorem closeLine_closes : HasToken closeLine.2 (ascii "close") :=
  ⟨show all _ _ = true by decide +kernel, closeLine.2, by decide +kernel, by decide +kernel⟩

theorem keep_alive_order_free_swapped : ∃ msg msg', Returned .http11 [keepLine, closeLine] msg ∧
    Returned .http11 [closeLine, keepLine] msg' ∧ msg.keepAlive = msg'.keepAlive ∧ msg'.keepAlive = false := by
  obtain ⟨msg, hu, h⟩ := keepClose_returned
  obtain ⟨msg', hu', h'⟩ := closeKeep_returned
  obtain ⟨-, hflag, hperm, -⟩ := keep_alive_order_free
  refine ⟨msg, msg', h, h', hperm _ _ _ _ _ h h' (hu.trans hu'.symm) (.swap ..), ?_⟩
  rw [← Bool.not_eq_true, hflag _ _ _ h']
  exact fun hp => hp.2.1 closeLine.2 (by decide +kernel) closeLine_closes

end Netty
