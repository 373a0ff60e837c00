import Mathlib.Algebra.Group.Nat.Defs
import Mathlib.Data.List.Induction
import Netty.Spec.Io

/-!
# The adaptive read size

* `prevPowerOfTwo_eq`: the shift of `prev_power_of_two` stays inside the word, and gives a power of two.
* `ReadStrategy.Fits`: the sizes that a strategy can come to.
* `read_size_adapts`: **every sequence of reads.**
-/

namespace Netty

/-- All ones, shifted down to `l` bits. -/
theorem usizeMax_shiftRight {k l : ℕ} (h : k + l = 64) : usizeMax >>> k + 1 = 2 ^ l := by
  have hprod : 2 ^ l * 2 ^ k = usizeMax + 1 := by
    rw [← Nat.pow_add, add_comm, h]
    rfl
  have hk : 0 < 2 ^ k := Nat.two_pow_pos k
  have hl : 0 < 2 ^ l := Nat.two_pow_pos l
  have hdiv : usizeMax / 2 ^ k = 2 ^ l - 1 := by
    apply Nat.div_eq_of_lt_le
    · rw [Nat.sub_mul]
      omega
    · rw [Nat.sub_add_cancel hl]
      omega
  rw [Nat.shiftRight_eq_div_pow, hdiv]
  omega

theorem prevPowerOfTwo_eq {n : ℕ} (hn : 4 ≤ n) (hmax : n ≤ usizeMax) :
    63 - n.log2 + 2 < 64 ∧ prevPowerOfTwo n = 2 ^ (n.log2 - 1) := by
  have hlow : 2 ≤ n.log2 := (Nat.le_log2 (by omega)).2 hn
  have hhigh : n.log2 < 64 := (Nat.log2_lt (by omega)).2 (Nat.lt_succ_of_le hmax)
  exact ⟨by omega, usizeMax_shiftRight (by omega)⟩

namespace ReadStrategy

variable {max next n : ℕ} {decreaseNow : Bool}

/-- **What one read does**: it fills the size, stays within it, or is the first or the second small one. -/
theorem record_cases (decreaseNow : Bool) (next max n : ℕ) :
    next ≤ n ∧ record n (.adaptive decreaseNow next max) = .adaptive false (min (incrPowerOfTwo next) max) max ∨
    n < next ∧ record n (.adaptive decreaseNow next max) = .adaptive false next max ∨
    n < prevPowerOfTwo next ∧ record n (.adaptive decreaseNow next max) = .adaptive true next max ∨
    decreaseNow = true ∧ n < prevPowerOfTwo next ∧
      record n (.adaptive decreaseNow next max) = .adaptive false (Nat.max (prevPowerOfTwo next) initBufferSize) max := by
  simp only [record]
  by_cases hfull : next ≤ n
  · exact .inl ⟨hfull, if_pos hfull⟩
  · rw [if_neg hfull]
    by_cases hsmall : n < prevPowerOfTwo next
    · rw [if_pos hsmall]
      cases decreaseNow with
      | false => exact .inr (.inr (.inl ⟨hsmall, rfl⟩))
      | true => exact .inr (.inr (.inr ⟨rfl, hsmall, rfl⟩))
    · rw [if_neg hsmall]
      exact .inr (.inl ⟨lt_of_not_ge hfull, rfl⟩)

/-- A size that a strategy with this maximum can come to. -/
structure Fits (max next : ℕ) : Prop where
  lower : initBufferSize ≤ next
  upper : next ≤ max
  shape : next.isPowerOfTwo ∨ next = max

theorem Fits.initial (h : initBufferSize ≤ max) : Fits max initBufferSize := ⟨le_rfl, h, .inl ⟨13, rfl⟩⟩

section

variable (h : Fits max next) (hmax : max ≤ usizeMax)

include h hmax

theorem Fits.grow : Fits max (min (incrPowerOfTwo next) max) := by
  have hlow := h.lower
  have hup := h.upper
  unfold incrPowerOfTwo
  refine ⟨by omega, by omega, ?_⟩
  rcases lt_or_ge (next * 2) max with hlt | hge
  · -- below the maximum a size is a power of two, and so is its double
    have hpow : next.isPowerOfTwo := h.shape.resolve_right (by omega)
    have heq : min (min (next * 2) usizeMax) max = next * 2 := by omega
    rw [heq]
    exact .inl (Nat.isPowerOfTwo_mul_two_of_isPowerOfTwo hpow)
  · exact .inr (by omega)

theorem Fits.prev :
    63 - next.log2 + 2 < 64 ∧ (prevPowerOfTwo next).isPowerOfTwo ∧ prevPowerOfTwo next * 2 ≤ next := by
  have hlow : 8192 ≤ next := h.lower
  obtain ⟨hshift, heq⟩ := prevPowerOfTwo_eq (n := next) (by omega) (le_trans h.upper hmax)
  refine ⟨hshift, ⟨_, heq⟩, ?_⟩
  have hlog : (next.log2 - 1).succ = next.log2 := by omega
  rw [heq, ← Nat.pow_succ, hlog]
  exact Nat.log2_self_le (by omega)

theorem Fits.shrink : Fits max (Nat.max (prevPowerOfTwo next) initBufferSize) := by
  obtain ⟨-, hpow, hle⟩ := h.prev hmax
  have hlow := h.lower
  have hup := h.upper
  rcases Nat.le_total (prevPowerOfTwo next) initBufferSize with hp | hp
  · have heq : Nat.max (prevPowerOfTwo next) initBufferSize = initBufferSize := max_eq_right hp
    rw [heq]
    exact .initial (le_trans hlow hup)
  · have heq : Nat.max (prevPowerOfTwo next) initBufferSize = prevPowerOfTwo next := max_eq_left hp
    rw [heq]
    exact ⟨hp, by omega, .inl hpow⟩

end

def recorded (max : ℕ) (reads : List ℕ) : ReadStrategy := reads.foldl (fun s n => s.record n) (withMax max)

theorem recorded_concat (max : ℕ) (reads : List ℕ) (n : ℕ) :
    recorded max (reads ++ [n]) = (recorded max reads).record n := List.foldl_append ..

/-- **Where a strategy is after some reads**: if it is about to shrink, the last read was small and left the size. -/
structure Adapted (max : ℕ) (reads : List ℕ) (decreaseNow : Bool) (next : ℕ) : Prop where
  state : recorded max reads = .adaptive decreaseNow next max
  fits : Fits max next
  small : decreaseNow = true → ∃ earlier m, reads = earlier ++ [m] ∧ (recorded max earlier).next = next ∧
    m < prevPowerOfTwo next

theorem recorded_adapted (hmin : initBufferSize ≤ max) (hmax : max ≤ usizeMax) (reads : List ℕ) :
    ∃ decreaseNow next, Adapted max reads decreaseNow next := by
  induction reads using List.reverseRecOn with
  | nil => exact ⟨false, initBufferSize, rfl, .initial hmin, nofun⟩
  | append_singleton reads n ih =>
    obtain ⟨d, next, h⟩ := ih
    have hrec : recorded max (reads ++ [n]) = record n (.adaptive d next max) := by
      rw [recorded_concat, h.state]
    rcases record_cases d next max n with ⟨-, hr⟩ | ⟨-, hr⟩ | ⟨hn, hr⟩ | ⟨-, -, hr⟩ <;> rw [hr] at hrec
    · exact ⟨false, _, hrec, h.fits.grow hmax, nofun⟩
    · exact ⟨false, _, hrec, h.fits, nofun⟩
    · refine ⟨true, _, hrec, h.fits, fun _ => ⟨reads, n, rfl, ?_, hn⟩⟩
      rw [h.state]
      rfl
    · exact ⟨false, _, hrec, h.fits.shrink hmax, nofun⟩

end ReadStrategy

/-- **The read size stays in range and shrinks only on evidence.** Whatever was read so far, the size is between the
least one and the maximum, and a power of two or the maximum; the next read lets it grow only if it fills it, and
shrink only if it and the read before it are small, and the size was the same at that one; and the shift that says
what is small is shorter than a word. -/
theorem read_size_adapts {max : ℕ} (hmin : minimumMaxBufferSize ≤ max) (hmax : max ≤ usizeMax) (reads : List ℕ) :
    let size := fun reads => (ReadStrategy.recorded max reads).next
    (initBufferSize ≤ size reads ∧ size reads ≤ max ∧ ((size reads).isPowerOfTwo ∨ size reads = max)) ∧
    (∀ n, size reads < size (reads ++ [n]) → size reads ≤ n) ∧
    (∀ n, size (reads ++ [n]) < size reads → ∃ earlier m, reads = earlier ++ [m] ∧ size earlier = size reads ∧
      m < prevPowerOfTwo (size reads) ∧ n < prevPowerOfTwo (size reads)) ∧
    63 - (size reads).log2 + 2 < 64 ∧ (prevPowerOfTwo (size reads)).isPowerOfTwo ∧
      prevPowerOfTwo (size reads) * 2 ≤ size reads := by
  intro size
  obtain ⟨d, next, h⟩ := ReadStrategy.recorded_adapted hmin hmax reads
  have hsize : size reads = next := congrArg ReadStrategy.next h.state
  have hnext : ∀ n, size (reads ++ [n]) = (ReadStrategy.record n (.adaptive d next max)).next := by
    intro n
    show (ReadStrategy.recorded max (reads ++ [n])).next = _
    rw [ReadStrategy.recorded_concat, h.state]
  have hprev := h.fits.prev hmax
  refine ⟨?_, fun n hgrow => ?_, fun n hshrink => ?_, ?_⟩
  · rw [hsize]
    exact ⟨h.fits.lower, h.fits.upper, h.fits.shape⟩
  · rw [hsize, hnext] at hgrow
    rw [hsize]
    rcases ReadStrategy.record_cases d next max n with ⟨hn, -⟩ | ⟨-, hr⟩ | ⟨-, hr⟩ | ⟨-, -, hr⟩
    · exact hn
    · rw [hr] at hgrow
      exact absurd hgrow (lt_irrefl _)
    · rw [hr] at hgrow
      exact absurd hgrow (lt_irrefl _)
    · -- the previous power of two and the least size are no larger
      rw [hr] at hgrow
      have hle : Nat.max (prevPowerOfTwo next) initBufferSize ≤ next :=
        Nat.max_le.2 ⟨by omega, h.fits.lower⟩
      exact absurd hgrow (not_lt.2 hle)
  · rw [hsize, hnext] at hshrink
    rw [hsize]
    rcases ReadStrategy.record_cases d next max n with ⟨-, hr⟩ | ⟨-, hr⟩ | ⟨-, hr⟩ | ⟨hd, hn, -⟩
    · rw [hr] at hshrink
      have hle : next ≤ min (incrPowerOfTwo next) max := by
        have hup := h.fits.upper
        unfold incrPowerOfTwo
        omega
      exact absurd hshrink (not_lt.2 hle)
    · rw [hr] at hshrink
      exact absurd hshrink (lt_irrefl _)
    · rw [hr] at hshrink
      exact absurd hshrink (lt_irrefl _)
    · obtain ⟨earlier, m, hreads, hsame, hm⟩ := h.small hd
      exact ⟨earlier, m, hreads, hsame, hm, hn⟩
  · rw [hsize]
    exact hprev

/-- A maximum between two powers of two: two small reads lead from it back to the least size. -/
theorem read_size_adapts_uneven :
    (ReadStrategy.recorded 20000 [8192, 16384, 100]).next = 20000 ∧
      (ReadStrategy.recorded 20000 ([8192, 16384, 100] ++ [200])).next = 8192 ∧
      200 < prevPowerOfTwo (ReadStrategy.recorded 20000 [8192, 16384, 100]).next := by
  have h := @read_size_adapts 20000 (by decide) (by decide) [8192, 16384, 100]
  obtain ⟨-, -, -, -, -, hn⟩ := h.2.2.1 200 (by decide +kernel)
  exact ⟨by decide +kernel, by decide +kernel, hn⟩

end Netty
