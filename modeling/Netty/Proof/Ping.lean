import Netty.Spec.Ping

/-!
# Keep-alive does not end a live connection

* `Fair`: what a record of reads, PINGs and timeouts must satisfy.
* `Inv`: the deadline of the timer is due to what was read and pinged before it.
* `keep_alive_fair`: every record is fair, and the timeout loop ends once reads stop.
-/

namespace Netty

open List Option

namespace Ping

/-- The record up to an event allows it: what was read before is older than the interval or the
timeout, and a PING came a timeout earlier. -/
def Ev.Fair (cfg : Config) : Ev → List Ev → Prop
  | .read _, _ => True
  | .ping t idle, before =>
    (∃ interval, cfg.keepAliveInterval = some interval ∧ ∀ r, .read r ∈ before → r + interval ≤ t) ∧
      (idle = true → cfg.keepAliveWhileIdle = true)
  | .timedOut t, before =>
    (∃ a idle, .ping a idle ∈ before ∧ a + cfg.keepAliveTimeout ≤ t) ∧
      ∀ r, .read r ∈ before → r + cfg.keepAliveTimeout ≤ t

/-- Every event of a record is allowed, latest first. -/
def Fair (cfg : Config) : List Ev → Prop
  | [] => True
  | e :: before => e.Fair cfg before ∧ Fair cfg before

/-- The state of the timer says when it is ready. -/
def KeepAlive.Ok (ka : KeepAlive) (log : List Ev) : Prop :=
  match ka.state with
  | .init => True
  | .scheduled due => ka.sleep = due
  | .pingSent deadline => ka.sleep = deadline ∧ ∃ a idle, .ping a idle ∈ log ∧ a + ka.timeout ≤ deadline

theorem KeepAlive.Ok.cons {ka : KeepAlive} {log : List Ev} (h : ka.Ok log) (e : Ev) : ka.Ok (e :: log) := by
  unfold KeepAlive.Ok at *
  split at h
  · trivial
  · exact h
  · obtain ⟨hs, a, idle, hmem, ha⟩ := h
    exact ⟨hs, a, idle, mem_cons_of_mem _ hmem, ha⟩

namespace Ponger

variable {B : Type} {cfg : Config} {p p' : Ponger B} {ka : KeepAlive}

/-- **The invariant.** -/
structure Inv (cfg : Config) (p : Ponger B) : Prop where
  ok : p.panicked = false
  bytes : p.bdp ≠ none → p.shared.bytes ≠ none
  past : ∀ r, p.shared.lastReadAt = some r → r ≤ p.clock.now
  reads : ∀ t r, .read t ∈ p.log → p.shared.lastReadAt = some r → t ≤ r
  timer : ∀ ka, p.keepAlive = some ka → p.shared.lastReadAt ≠ none ∧ cfg.keepAliveInterval = some ka.interval ∧
    cfg.keepAliveTimeout = ka.timeout ∧ cfg.keepAliveWhileIdle = ka.whileIdle ∧ ka.Ok p.log
  fair : Fair cfg p.log

/-! ## Time -/

theorem now_fst (p : Ponger B) : p.clock.now ≤ p.now.1 := Nat.le_add_right _ _

theorem now_snd (p : Ponger B) : p.now.2.clock.now = p.now.1 := rfl

theorem Inv.later (h : Inv cfg p) (hpan : p'.panicked = p.panicked)
    (hbytes : p'.bdp ≠ none → p'.shared.bytes ≠ none) (hread : p'.shared.lastReadAt = p.shared.lastReadAt)
    (hka : p'.keepAlive = p.keepAlive) (hlog : p'.log = p.log) (hnow : p.clock.now ≤ p'.clock.now) : Inv cfg p' := by
  refine ⟨hpan.trans h.ok, hbytes, fun r hr => ?_, ?_, ?_, ?_⟩
  · exact le_trans (h.past r (hread ▸ hr)) hnow
  · rw [hlog, hread]
    exact h.reads
  · rw [hka, hread, hlog]
    exact h.timer
  · rw [hlog]
    exact h.fair

theorem Inv.now (h : Inv cfg p) : Inv cfg p.now.2 := h.later rfl h.bytes rfl rfl rfl p.now_fst

theorem sendPing_keeps (p : Ponger B) : p.sendPing.panicked = p.panicked ∧ p.sendPing.bdp = p.bdp ∧
    p.sendPing.shared.bytes = p.shared.bytes ∧ p.sendPing.shared.lastReadAt = p.shared.lastReadAt ∧
    p.sendPing.keepAlive = p.keepAlive ∧ p.sendPing.log = p.log ∧ p.clock.now ≤ p.sendPing.clock.now := by
  unfold sendPing
  simp only
  split
  · exact ⟨rfl, rfl, rfl, rfl, rfl, rfl, Nat.le_add_right _ _⟩
  · exact ⟨rfl, rfl, rfl, rfl, rfl, rfl, le_refl _⟩

theorem Inv.sendPing (h : Inv cfg p) : Inv cfg p.sendPing := by
  obtain ⟨h1, h2, h3, h4, h5, h6, h7⟩ := p.sendPing_keeps
  exact h.later h1 (h2 ▸ h3 ▸ h.bytes) h4 h5 h6 h7

theorem Inv.updateLastReadAt (h : Inv cfg p) : Inv cfg p.updateLastReadAt := by
  unfold Ponger.updateLastReadAt
  split
  · rename_i r hr
    refine { h.now with past := fun r' hr' => ?_, reads := fun t r' ht hr' => ?_, timer := fun ka hka => ?_ }
    · exact le_of_eq (some.inj hr').symm
    · cases hr'
      exact le_trans (h.reads t r ht hr) (le_trans (h.past r hr) p.now_fst)
    · exact ⟨some_ne_none _, (h.timer ka hka).2⟩
  · exact h

theorem updateLastReadAt_now {r : ℕ} (hr : p.updateLastReadAt.shared.lastReadAt = some r) :
    p.updateLastReadAt.clock.now = r := by
  unfold updateLastReadAt at *
  split at hr
  · exact some.inj hr
  · rename_i hnone
    rw [hnone] at hr
    cases hr

theorem Inv.noteRead (h : Inv cfg p) : Inv cfg p.updateLastReadAt.noteRead := by
  have h' := h.updateLastReadAt
  refine { h' with reads := fun t r ht hr => ?_, timer := fun ka hka => ?_, fair := ⟨trivial, h'.fair⟩ }
  · rcases mem_cons.1 ht with ht | ht
    · cases ht
      exact le_of_eq (updateLastReadAt_now hr)
    · exact h'.reads t r ht hr
  · obtain ⟨hr, hi, ht, hw, hok⟩ := h'.timer ka hka
    exact ⟨hr, hi, ht, hw, hok.cons _⟩

theorem updateLastReadAt_keepAlive (p : Ponger B) : p.updateLastReadAt.keepAlive = p.keepAlive := by
  unfold updateLastReadAt
  split <;> rfl

theorem Inv.yield (h : Inv cfg p) : Inv cfg p.yield := by
  have h' : Inv cfg { p with others := p.others.tail } := h.later rfl h.bytes rfl rfl rfl (le_refl _)
  unfold Ponger.yield
  split
  · exact h'.noteRead
  · exact h'

theorem yield_keepAlive (p : Ponger B) : p.yield.keepAlive = p.keepAlive := by
  unfold yield
  split
  · exact updateLastReadAt_keepAlive _
  · rfl

/-! ## Data and pongs -/

theorem Inv.countBytes (h : Inv cfg p) (len : ℕ) : Inv cfg (p.countBytes len) := by
  unfold Ponger.countBytes
  split
  · rename_i bytes _
    have h' : Inv cfg { p with shared := { p.shared with bytes := some (min (bytes + len) usizeMax) } } :=
      h.later rfl (by simp) rfl rfl rfl (le_refl _)
    simp only
    split
    · exact h'
    · exact h'.sendPing
  · exact h

theorem Inv.recordData (h : Inv cfg p) (len : ℕ) : Inv cfg (p.recordData len) := by
  unfold Ponger.recordData
  split
  · simp only
    split
    · exact h.now
    · refine Inv.countBytes ?_ len
      exact h.now.later rfl h.bytes rfl rfl rfl (le_refl _)
  · exact h.countBytes len

theorem Inv.endSample (h : Inv cfg p) (t start : ℕ) : Inv cfg (p.endSample t start).2 := by
  unfold Ponger.endSample
  split
  · rename_i bdp hbdp
    split
    · rename_i hbytes
      exact absurd hbytes (h.bytes (by simp [hbdp]))
    · simp only
      split <;> exact h.later rfl (by simp) rfl rfl rfl (le_refl _)
  · exact h

theorem Inv.poll (h : Inv cfg p) : Inv cfg p.poll.2 := by
  unfold Ponger.poll
  simp only
  split
  · exact h.now
  · have h' : Inv cfg { p.now.2 with pongs := p.now.2.pongs.tail } :=
      h.now.later rfl h.bytes rfl rfl rfl (le_refl _)
    split
    · refine Inv.endSample (Inv.noteRead ?_) _ _
      exact h'.later rfl h.bytes rfl rfl rfl (le_refl _)
    · exact h'
    · exact h'

/-! ## Keep-alive -/

theorem Inv.setState {state : KeepAliveState} {sleep : ℕ} (h : Inv cfg p)
    (hka : p.keepAlive = some ka) (hok : KeepAlive.Ok { ka with state := state, sleep := sleep } p.log) :
    Inv cfg (p.setState ka state sleep) := by
  refine { h with timer := fun ka' hka' => ?_ }
  obtain ⟨hr, hi, ht, hw, -⟩ := h.timer ka hka
  cases hka'
  exact ⟨hr, hi, ht, hw, hok⟩

theorem Inv.schedule (h : Inv cfg p) (hka : p.keepAlive = some ka) : Inv cfg (p.schedule ka) := by
  unfold Ponger.schedule
  split
  · exact h.setState hka rfl
  · rename_i hr
    exact absurd hr (h.timer ka hka).1

theorem Inv.maybeSchedule (h : Inv cfg p) (isIdle : Bool) : Inv cfg (p.maybeSchedule isIdle) := by
  unfold Ponger.maybeSchedule
  split
  · exact h
  · rename_i ka hka
    split
    · split
      · exact h
      · exact h.schedule hka
    · split
      · exact h
      · exact h.schedule hka
    · exact h

/-- A PING is attempted at `t` by a timer that was due and has seen no later read. -/
theorem Inv.attempt {read t : ℕ} {isIdle : Bool} (h : Inv cfg p) (hka : p.keepAlive = some ka)
    (hr : p.shared.lastReadAt = some read) (ht : read + ka.interval ≤ t) (hidle : (!ka.whileIdle && isIdle) = false) :
    Inv cfg (p.note (.ping t isIdle)) := by
  obtain ⟨hrn, hi, hto, hw, hok⟩ := h.timer ka hka
  refine ⟨h.ok, h.bytes, h.past, fun t' r ht' hr' => ?_, fun ka' hka' => ?_, ⟨⟨ka.interval, hi, fun r hr' => ?_⟩, ?_⟩,
    h.fair⟩
  · rcases mem_cons.1 ht' with ht' | ht'
    · cases ht'
    · exact h.reads t' r ht' hr'
  · obtain ⟨h1, h2, h3, h4, h5⟩ := h.timer ka' hka'
    exact ⟨h1, h2, h3, h4, h5.cons _⟩
  · have hle := h.reads r read hr' hr
    omega
  · intro hid
    rw [hid, Bool.and_true, Bool.not_eq_false'] at hidle
    rw [hw, hidle]

theorem Inv.maybePing (h : Inv cfg p) (isIdle : Bool) : Inv cfg (p.maybePing isIdle) := by
  unfold Ponger.maybePing
  split
  · exact h
  · rename_i ka hka
    split
    · rename_i due hstate
      have hsleep : ka.sleep = due := by
        have := (h.timer ka hka).2.2.2.2
        simpa only [KeepAlive.Ok, hstate] using this
      simp only
      split
      · exact h.now
      · rename_i hready
        split
        · rename_i hr
          exact absurd hr (h.timer ka hka).1
        · rename_i read hr
          split
          · exact h.now.setState hka trivial
          · rename_i hno
            split
            · exact h.now.setState hka trivial
            · rename_i hidle
              have ht : read + ka.interval ≤ p.now.2.now.1 := by
                have := p.now.2.now_fst
                rw [now_snd] at this
                omega
              have ha := h.now.now.attempt hka hr ht (by simpa using hidle)
              obtain ⟨-, -, -, -, h5, h6, h7⟩ := (p.now.2.now.2.note (.ping p.now.2.now.1 isIdle)).sendPing_keeps
              refine ha.sendPing.now.setState (h5.trans hka) ⟨rfl, p.now.2.now.1, isIdle, ?_, ?_⟩
              · exact h6 ▸ mem_cons_self
              · exact Nat.add_le_add_right (le_trans h7 (now_fst _)) _
    · exact h
    · exact h

theorem Inv.pollTimeout (h : Inv cfg p) (fuel : ℕ) :
    Inv cfg (p.pollTimeout fuel).2 ∧ ∀ t, (p.pollTimeout fuel).1 = .ready t →
      (Ev.timedOut t).Fair cfg (p.pollTimeout fuel).2.log := by
  refine loop_inv (I := Inv cfg) (Q := fun x => Inv cfg x.2 ∧ ∀ t, x.1 = .ready t → (Ev.timedOut t).Fair cfg x.2.log)
    (fun q hq => ?_) (fun q hq => ⟨hq, nofun⟩) fuel p h
  unfold timeoutRound
  split
  · exact ⟨hq, nofun⟩
  · rename_i ka hka
    split
    · exact ⟨hq, nofun⟩
    · exact ⟨hq, nofun⟩
    · rename_i deadline hstate
      simp only
      split
      · exact ⟨hq.now, nofun⟩
      · rename_i hready
        have hy := hq.now.yield
        have hky : q.now.2.yield.keepAlive = some ka := (yield_keepAlive _).trans hka
        obtain ⟨hr, hi, ht, hw, hok⟩ := hy.timer ka hky
        simp only [KeepAlive.Ok, hstate] at hok
        obtain ⟨hsleep, a, idle, hmem, ha⟩ := hok
        split
        · rename_i hr'
          exact absurd hr' hr
        · rename_i read hr'
          split
          · rename_i hle
            refine ⟨hy, fun t hteq => ?_⟩
            cases hteq
            refine ⟨⟨a, idle, hmem, by omega⟩, fun r hmem' => ?_⟩
            have hrle := hy.reads r read hmem' hr'
            omega
          · exact hy.setState hky ⟨rfl, a, idle, hmem, le_trans ha (by omega)⟩

theorem Inv.pollKeepAlive (h : Inv cfg p) (isIdle : Bool) (fuel : ℕ) : Inv cfg (p.pollKeepAlive isIdle fuel).2 := by
  unfold Ponger.pollKeepAlive
  split
  · exact h
  · simp only
    obtain ⟨h', hfair⟩ := ((h.maybeSchedule isIdle).maybePing isIdle).pollTimeout fuel
    refine whenReady_ind (P := fun x => Inv cfg x.2) (fun t q hx => ?_) (fun _ _ => h')
    rw [hx] at h' hfair
    refine ⟨h'.ok, h'.bytes, h'.past, fun t' r ht' hr => ?_, nofun, hfair t rfl, h'.fair⟩
    rcases mem_cons.1 ht' with ht' | ht'
    · cases ht'
    · exact h'.reads t' r ht' hr

theorem Inv.connPoll (h : Inv cfg p) (a : ConnAnswer) (fuel : ℕ) : Inv cfg (p.connPoll a fuel) := by
  have hread : Inv cfg (if a.readActivity then p.poll.2.recordRead.noteRead else p.poll.2) := by
    split
    · exact h.poll.noteRead
    · exact h.poll
  unfold Ponger.connPoll
  simp only
  split
  · exact hread.pollKeepAlive _ fuel
  · exact hread

theorem Inv.step (h : Inv cfg p) (a : Action) : Inv cfg (p.step a) := by
  cases a with
  | data len => exact h.recordData len
  | poll => exact h.poll
  | read => exact h.noteRead
  | keepAlive isIdle fuel => exact h.pollKeepAlive isIdle fuel
  | conn a fuel => exact h.connPoll a fuel

/-! ## The timeout loop -/

def Current (p : Ponger B) : Prop :=
  ∀ ka deadline read, p.keepAlive = some ka → ka.state = .pingSent deadline → p.shared.lastReadAt = some read →
    read + ka.timeout ≤ deadline

/-- Each round but one needs a new read. -/
def Rounds (m : ℕ) (p : Ponger B) : Prop :=
  ∃ k, (∀ j, k ≤ j → p.others.get j = false) ∧ (k < m ∨ k = m ∧ p.Current)

theorem yield_others (p : Ponger B) : p.yield.others = p.others.tail := by
  unfold yield updateLastReadAt
  split
  · split <;> rfl
  · rfl

theorem yield_lastReadAt {p : Ponger B} (h : p.others.head = false) :
    p.yield.shared.lastReadAt = p.shared.lastReadAt := by
  unfold yield
  rw [h]
  rfl

theorem timeoutRound_rounds (m : ℕ) (p : Ponger B) (h : Rounds m p) :
    p.timeoutRound.Sat (fun q => ∃ m', m' < m ∧ Rounds m' q) (fun x => x.1 ≠ .busy) := by
  obtain ⟨k, hk, hm⟩ := h
  unfold timeoutRound
  split
  · simp [Ctl.Sat]
  · rename_i ka hka
    split
    · simp [Ctl.Sat]
    · simp [Ctl.Sat]
    · rename_i deadline hstate
      simp only
      split
      · simp [Ctl.Sat]
      · split
        · simp [Ctl.Sat]
        · rename_i read hr
          split
          · simp [Ctl.Sat]
          · rename_i hlate
            refine ⟨k - 1, ?_, k - 1, fun j hj => ?_, .inr ⟨rfl, ?_⟩⟩
            · -- a round goes on after a new read, or the deadline was not current
              cases hhead : p.others.head with
              | true =>
                have hk0 : k ≠ 0 := fun h0 => by
                  have := hk 0 (le_of_eq h0)
                  rw [show p.others.get 0 = p.others.head from rfl, hhead] at this
                  cases this
                omega
              | false =>
                rw [yield_lastReadAt (p := p.now.2) hhead] at hr
                have hcur : ¬p.Current := fun hc => hlate (hc ka deadline read hka hstate hr)
                rcases hm with hm | ⟨-, hc⟩
                · omega
                · exact absurd hc hcur
            · show p.now.2.yield.others.get j = false
              rw [yield_others]
              exact hk (j + 1) (by omega)
            · intro ka' deadline' read' hka' hstate' hr'
              cases hka'
              cases hstate'
              rw [show (p.now.2.yield.setState ka _ _).shared.lastReadAt = some read from hr] at hr'
              cases hr'
              exact le_refl _

/-- **The loop of `poll_timeout` ends when reads stop**: with `k` more reads it takes at most
`k + 2` rounds. -/
theorem pollTimeout_ends {k fuel : ℕ} (hk : ∀ j, k ≤ j → p.others.get j = false) (hf : k + 2 ≤ fuel) :
    (p.pollTimeout fuel).1 ≠ .busy :=
  loop_progress timeoutRound_rounds fuel (k + 1) p ⟨k, hk, .inl (Nat.lt_succ_self k)⟩ (by omega)

theorem sendPing_others (p : Ponger B) : p.sendPing.others = p.others := by
  unfold sendPing
  simp only
  split <;> rfl

theorem maybeSchedule_others (p : Ponger B) (isIdle : Bool) : (p.maybeSchedule isIdle).others = p.others := by
  unfold maybeSchedule schedule
  split
  · rfl
  · split
    · split
      · rfl
      · split <;> rfl
    · split
      · rfl
      · split <;> rfl
    · rfl

theorem maybePing_others (p : Ponger B) (isIdle : Bool) : (p.maybePing isIdle).others = p.others := by
  unfold maybePing
  split
  · rfl
  · split
    · simp only
      split
      · rfl
      · split
        · rfl
        · split
          · rfl
          · split
            · rfl
            · exact sendPing_others _
    · rfl
    · rfl

/-! ## Runs -/

theorem channel_inv (cfg : Config) (sampler : Sampler B) (bdp : B) (clock : Clock) (sends : Stream' Bool)
    (pongs : Stream' PongEv) (others : Stream' Bool) : Inv cfg (channel cfg sampler bdp clock sends pongs others) where
  ok := rfl
  bytes := by
    unfold channel
    cases cfg.bdp <;> simp
  past := by
    intro r hr
    unfold channel at hr ⊢
    cases hi : cfg.keepAliveInterval with
    | none => simp [hi] at hr
    | some i =>
      simp only [hi, map_some, some.injEq] at hr
      exact le_of_eq hr.symm
  reads := nofun
  timer := by
    intro ka hka
    unfold channel at hka ⊢
    cases hi : cfg.keepAliveInterval with
    | none => simp [hi] at hka
    | some i =>
      simp only [hi, map_some, some.injEq] at hka
      subst hka
      exact ⟨by simp, rfl, rfl, rfl, trivial⟩
  fair := trivial

/-- **Keep-alive never ends a live connection.** Whatever is read, answered and polled, with any clock
and any PINGs that cannot be sent: a timeout at `t` is reported only if a keep-alive PING was
attempted a timeout before, and all that was read is a timeout old; a PING is attempted only if
all that was read is an interval old, and on an idle connection only if that is asked
for. A poll ends if at most `k` more reads are recorded while it loops. -/
theorem keep_alive_fair (cfg : Config) (sampler : Sampler B) (bdp : B) (clock : Clock) (sends : Stream' Bool)
    (pongs : Stream' PongEv) (others : Stream' Bool) (acts : List Action) :
    let p := (channel cfg sampler bdp clock sends pongs others).run acts
    p.panicked = false ∧ Fair cfg p.log ∧
      ∀ isIdle k fuel, (∀ j, k ≤ j → p.others.get j = false) → k + 2 ≤ fuel →
        (p.pollKeepAlive isIdle fuel).1 ≠ .busy := by
  intro p
  have h : Inv cfg p :=
    foldlRecOn acts step (channel_inv cfg sampler bdp clock sends pongs others) fun _ h a _ => h.step a
  refine ⟨h.ok, h.fair, fun isIdle k fuel hk hf => ?_⟩
  unfold pollKeepAlive
  split
  · simp
  · simp only
    have hends : (((p.maybeSchedule isIdle).maybePing isIdle).pollTimeout fuel).1 ≠ .busy := by
      refine pollTimeout_ends (fun j hj => ?_) hf
      rw [maybePing_others, maybeSchedule_others]
      exact hk j hj
    revert hends
    rcases ((p.maybeSchedule isIdle).maybePing isIdle).pollTimeout fuel with ⟨t | _ | _ | _, q⟩
    · intro _
      simp
    · intro _
      simp [whenReady]
    · intro hb
      exact absurd rfl hb
    · intro _
      simp [whenReady]

end Ponger

end Ping

end Netty
