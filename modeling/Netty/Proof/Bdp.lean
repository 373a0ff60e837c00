import Netty.Spec.Ping

/-!
# The bandwidth estimator

The delay between the samples is halved each time the window grows, and nothing else makes it smaller. The window
grows by about a third at least, so it comes to its limit before the delay comes to zero.

* `leastWindow`, `leastDelay`: where both are at the least after so many increases.
* `Bdp.Usable`: what holds after every sample.
* `bandwidth_monotone`: **every sequence of samples.**
-/

namespace Netty

namespace Ping

namespace Bdp

variable {b b' : Bdp} {bytes rtt : ℕ} {slower : Bool}

def leastWindow : ℕ → ℕ
  | 0 => initial.bdp
  | k + 1 => min (leastWindow k * 2 / 3 * 2) limit

def leastDelay : ℕ → ℕ
  | 0 => initial.pingDelay
  | k + 1 => leastDelay k / 2

theorem leastWindow_limit : leastWindow 20 = limit := by decide +kernel

theorem leastDelay_pos : ∀ k ≤ 20, 0 < leastDelay k := by decide +kernel

/-- **What holds after every sample**: the window has grown at most twenty times. -/
structure Usable (b : Bdp) : Prop where
  lower : initial.bdp ≤ b.bdp
  upper : b.bdp ≤ limit
  grown : ∃ k ≤ 20, leastWindow k ≤ b.bdp ∧ leastDelay k ≤ b.pingDelay
  delay : b.pingDelay < 40000000000

theorem initial_usable : initial.Usable := ⟨le_rfl, by decide, ⟨0, by decide, le_rfl, le_rfl⟩, by decide⟩

theorem Usable.pingDelay_pos (h : b.Usable) : 0 < b.pingDelay := by
  obtain ⟨k, hk, -, hd⟩ := h.grown
  have hpos := leastDelay_pos k hk
  omega

theorem stabilizeDelay_cases (b : Bdp) : b.stabilizeDelay.bdp = b.bdp ∧ (b.stabilizeDelay.pingDelay = b.pingDelay ∨
    b.pingDelay < 10000000000 ∧ b.stabilizeDelay.pingDelay = b.pingDelay * 4) := by
  unfold stabilizeDelay
  split
  · rename_i hlt
    split
    · exact ⟨rfl, .inr ⟨hlt, rfl⟩⟩
    · exact ⟨rfl, .inl rfl⟩
  · exact ⟨rfl, .inl rfl⟩

theorem Usable.stabilizeDelay (h : b.Usable) : b.stabilizeDelay.Usable := by
  obtain ⟨hbdp, hdelay⟩ := b.stabilizeDelay_cases
  obtain ⟨k, hk, hw, hd⟩ := h.grown
  have hlt := h.delay
  refine ⟨by rw [hbdp]; exact h.lower, by rw [hbdp]; exact h.upper, ⟨k, hk, by rw [hbdp]; exact hw, by omega⟩, by omega⟩

/-- **What a sample does**: the window stays and the delay is stabilised, or the window grows to what it announces. -/
theorem calculate_cases (b : Bdp) (bytes rtt : ℕ) (slower : Bool) :
    b.calculate bytes rtt slower = (none, b.stabilizeDelay) ∨ b.bdp ≠ limit ∧ ∃ window, b.bdp * 2 / 3 ≤ bytes ∧
      window = min (min (bytes * 2) usizeMax) limit ∧
      b.calculate bytes rtt slower = (some window, ⟨window, b.pingDelay / 2, 0⟩) := by
  unfold calculate
  split
  · exact .inl rfl
  · rename_i hlimit
    split
    · exact .inl rfl
    split
    · exact .inl rfl
    split
    · rename_i hbytes
      exact .inr ⟨hlimit, _, hbytes, rfl, rfl⟩
    · exact .inl rfl

/-- **The window grows**, and there is room for another increase. -/
theorem Usable.grow {window : ℕ} (h : b.Usable) (hlimit : b.bdp ≠ limit) (hbytes : b.bdp * 2 / 3 ≤ bytes)
    (hw : window = min (min (bytes * 2) usizeMax) limit) :
    b.bdp < window ∧ window ≤ limit ∧ Usable ⟨window, b.pingDelay / 2, 0⟩ := by
  have hlow : 65535 ≤ b.bdp := h.lower
  have hup := h.upper
  have hdelay := h.delay
  have hsize : limit ≤ usizeMax := by decide
  have hlt : b.bdp < window := by omega
  have hle : window ≤ limit := by omega
  obtain ⟨k, hk, hkw, hkd⟩ := h.grown
  have hk' : k ≠ 20 := by
    intro hx
    rw [hx, leastWindow_limit] at hkw
    omega
  refine ⟨hlt, hle, le_trans h.lower (le_of_lt hlt), hle, ⟨k + 1, by omega, ?_, ?_⟩, ?_⟩
  · show min (leastWindow k * 2 / 3 * 2) limit ≤ window
    omega
  · show leastDelay k / 2 ≤ b.pingDelay / 2
    omega
  · show b.pingDelay / 2 < 40000000000
    omega

/-- **A run of samples** keeps all this, and each window is larger than those before. -/
theorem Usable.run (samples : List (ℕ × ℕ)) : ∀ {b : Bdp} (slower : Stream' Bool), b.Usable →
    (∀ w ∈ (sampler.run (b, slower) samples).1, b.bdp < w ∧ w ≤ limit) ∧
    (sampler.run (b, slower) samples).1.Pairwise (· < ·) ∧ (sampler.run (b, slower) samples).2.1.Usable := by
  induction samples with
  | nil =>
    intro b slower h
    exact ⟨nofun, .nil, h⟩
  | cons sample samples ih =>
    intro b slower h
    obtain ⟨bytes, rtt⟩ := sample
    rcases b.calculate_cases bytes rtt slower.head with hc | ⟨hlimit, window, hbytes, hw, hc⟩
    · have hrun : sampler.run (b, slower) ((bytes, rtt) :: samples) =
          sampler.run (b.stabilizeDelay, slower.tail) samples := by
        simp only [Sampler.run, sampler, hc]
        rfl
      obtain ⟨hall, hpair, hend⟩ := ih slower.tail h.stabilizeDelay
      rw [hrun]
      rw [b.stabilizeDelay_cases.1] at hall
      exact ⟨hall, hpair, hend⟩
    · have hrun : sampler.run (b, slower) ((bytes, rtt) :: samples) =
          (window :: (sampler.run (⟨window, b.pingDelay / 2, 0⟩, slower.tail) samples).1,
            (sampler.run (⟨window, b.pingDelay / 2, 0⟩, slower.tail) samples).2) := by
        simp only [Sampler.run, sampler, hc]
        rfl
      obtain ⟨hlt, hle, husable⟩ := h.grow hlimit hbytes hw
      obtain ⟨hall, hpair, hend⟩ := ih slower.tail husable
      rw [hrun]
      refine ⟨fun w hw => ?_, List.pairwise_cons.2 ⟨fun w hw => (hall w hw).1, hpair⟩, hend⟩
      rcases List.mem_cons.1 hw with rfl | hw
      · exact ⟨hlt, hle⟩
      · exact ⟨lt_trans hlt (hall w hw).1, (hall w hw).2⟩

end Bdp

/-- **The estimator is monotone and its delay stays usable.** For every sequence of samples and every outcome of the
comparisons, each window is larger than the first one and all earlier ones and at most 16 MiB, and after them the
delay is positive and below 40 seconds. -/
theorem bandwidth_monotone (samples : List (ℕ × ℕ)) (slower : Stream' Bool) :
    (Bdp.sampler.run (Bdp.initial, slower) samples).1.Pairwise (· < ·) ∧
      (∀ w ∈ (Bdp.sampler.run (Bdp.initial, slower) samples).1, 65535 < w ∧ w ≤ 1024 * 1024 * 16) ∧
      0 < Bdp.sampler.pingDelay (Bdp.sampler.run (Bdp.initial, slower) samples).2 ∧
      Bdp.sampler.pingDelay (Bdp.sampler.run (Bdp.initial, slower) samples).2 < 40000000000 := by
  obtain ⟨hall, hpair, hend⟩ := Bdp.initial_usable.run samples slower
  exact ⟨hpair, hall, hend.pingDelay_pos, hend.delay⟩

end Ping

end Netty
