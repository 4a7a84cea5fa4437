import Mathlib
import RegisterMachine.Machine.Generator

/-! The period of the generator.

Two generators that start apart stay apart by a multiple of a power of the multiplier
(`state_sub_iterate`). So twice as many steps lead from a state by the distance of half of them,
times one more than such a power, which is two times an odd number (`state_iterate_two_mul`). One
step leads by an odd number, and therefore `2 ^ k` steps by an odd multiple of `2 ^ k`
(`state_iterate_two_pow`): they come back for `k = 64` and not before. From every seed the generator
then takes all states, each once in a period (`bijOn_state`), and draws each word as often as there
are states with it in the upper half (`full_period`). -/
namespace RegisterMachine.Generator

open Function Set
open scoped UInt64.CommRing

variable {g h : Generator}

theorem eq_of_state (hstate : g.state = h.state) : g = h := congrArg Generator.mk hstate

theorem state_next (g : Generator) : g.next.state = g.state * multiplier + increment := rfl

/-! ### How far steps lead -/

theorem state_sub_iterate (g h : Generator) (n : ℕ) :
    (next^[n] h).state - (next^[n] g).state = multiplier ^ n * (h.state - g.state) := by
  induction n with
  | zero => rw [iterate_zero_apply, iterate_zero_apply, pow_zero, one_mul]
  | succ n ih =>
    rw [iterate_succ_apply', iterate_succ_apply', state_next, state_next, pow_succ']
    linear_combination multiplier * ih

theorem state_iterate_two_mul (g : Generator) (n : ℕ) : (next^[2 * n] g).state - g.state =
    (multiplier ^ n + 1) * ((next^[n] g).state - g.state) := by
  have hsecond := state_sub_iterate g (next^[n] g) n
  rw [← iterate_add_apply, ← two_mul] at hsecond
  linear_combination hsecond

/-- The multiplier is one more than a multiple of four, and so are its powers. -/
theorem multiplier_pow (n : ℕ) : ∃ q, multiplier ^ n = 4 * q + 1 := by
  have hmultiplier : multiplier = 4 * 1591034055961698251 + 1 := by decide
  induction n with
  | zero => exact ⟨0, by rw [pow_zero, mul_zero, zero_add]⟩
  | succ n ih =>
    obtain ⟨q, hq⟩ := ih
    refine ⟨q * multiplier + 1591034055961698251, ?_⟩
    rw [pow_succ, hq]
    linear_combination hmultiplier

/-- One step leads by an odd number, since the increment is odd. -/
theorem state_next_sub (g : Generator) : ∃ q, g.next.state - g.state = 2 * q + 1 := by
  obtain ⟨q, hq⟩ := multiplier_pow 1
  have hincrement : increment = 2 * 721347520444481703 + 1 := by decide
  refine ⟨2 * q * g.state + 721347520444481703, ?_⟩
  rw [pow_one] at hq
  rw [state_next, hincrement]
  linear_combination g.state * hq

/-- `2 ^ k` steps lead by an odd multiple of `2 ^ k`. -/
theorem state_iterate_two_pow (g : Generator) (k : ℕ) :
    ∃ q, (next^[2 ^ k] g).state = g.state + 2 ^ k * (2 * q + 1) := by
  induction k with
  | zero =>
    obtain ⟨q, hq⟩ := g.state_next_sub
    refine ⟨q, ?_⟩
    rw [pow_zero, pow_zero, iterate_one]
    linear_combination hq
  | succ k ih =>
    obtain ⟨q, hq⟩ := ih
    obtain ⟨r, hr⟩ := multiplier_pow (2 ^ k)
    have hdouble := g.state_iterate_two_mul (2 ^ k)
    rw [← pow_succ', hr, hq] at hdouble
    -- the distance is multiplied by `4 * r + 2`, which is two times an odd number
    refine ⟨2 * r * q + r + q, ?_⟩
    linear_combination hdouble

/-! ### The period -/

theorem two_pow_period : (2 : UInt64) ^ 64 = 0 := by decide +kernel

theorem iterate_period (g : Generator) : next^[2 ^ 64] g = g := by
  obtain ⟨q, hq⟩ := g.state_iterate_two_pow 64
  apply eq_of_state
  rw [hq, two_pow_period, zero_mul, add_zero]

/-- Half of the period leads to the other half of the states. -/
theorem iterate_half_ne (g : Generator) : next^[2 ^ 63] g ≠ g := by
  obtain ⟨q, hq⟩ := g.state_iterate_two_pow 63
  intro hfixed
  rw [hfixed] at hq
  have hhalf : (2 : UInt64) ^ 63 = 0 := by
    linear_combination -hq - q * two_pow_period
  exact absurd hhalf (by decide +kernel)

theorem minimalPeriod_next (g : Generator) : minimalPeriod next g = 2 ^ 64 := by
  have : Fact (Nat.Prime 2) := ⟨Nat.prime_two⟩
  exact minimalPeriod_eq_prime_pow (k := 63) g.iterate_half_ne g.iterate_period

/-! ### What the generator takes on the way -/

/-- In one period the state is every 64-bit number once. -/
theorem bijOn_state (g : Generator) :
    BijOn (fun k => (next^[k] g).state.toNat) (Iio (2 ^ 64)) (Iio (2 ^ 64)) := by
  have hmaps : MapsTo (fun k => (next^[k] g).state.toNat) (Iio (2 ^ 64)) (Iio (2 ^ 64)) :=
    fun k _ => (next^[k] g).state.toNat_lt
  -- there are as many numbers of steps as states, so it is enough that no state comes twice
  refine ((finite_Iio _).injOn_iff_bijOn_of_mapsTo hmaps).mp fun k hk l hl heq => ?_
  have hsame : next^[k] g = next^[l] g := eq_of_state (UInt64.toNat_inj.mp heq)
  rw [← g.minimalPeriod_next] at hk hl
  exact iterate_injOn_Iio_minimalPeriod hk hl hsame

theorem toNat_word (g : Generator) : g.word.1.toNat = g.next.state.toNat / 2 ^ 32 := by
  have hstate := g.next.state.toNat_lt
  show ((g.next.state >>> 32).toUInt32).toNat = _
  rw [UInt64.toNat_toUInt32, UInt64.toNat_shiftRight]
  show g.next.state.toNat >>> 32 % 2 ^ 32 = _
  rw [Nat.shiftRight_eq_div_pow]
  omega

/-- The states with this number in the upper half. -/
theorem ncard_upper {v : ℕ} (hv : v < 2 ^ 32) :
    (Iio (2 ^ 64) ∩ {n | n / 2 ^ 32 = v}).ncard = 2 ^ 32 := by
  have hstates : Iio (2 ^ 64) ∩ {n | n / 2 ^ 32 = v} =
      ↑(Finset.Ico (2 ^ 32 * v) (2 ^ 32 * v + 2 ^ 32)) := by
    ext n
    simp only [mem_inter_iff, mem_Iio, mem_ofPred_eq, Finset.coe_Ico, mem_Ico]
    omega
  rw [hstates, ncard_coe_finset, Nat.card_Ico, Nat.add_sub_cancel_left]

/-- In one period every word is drawn equally often. -/
theorem ncard_draws (g : Generator) (v : UInt32) :
    {k | k < 2 ^ 64 ∧ (next^[k] g).word.1 = v}.ncard = 2 ^ 32 := by
  have hdraw (k : ℕ) : (next^[k] g).word.1 = v ↔
      (next^[k] g.next).state.toNat / 2 ^ 32 = v.toNat := by
    rw [← UInt32.toNat_inj, toNat_word, ← iterate_succ_apply' next, iterate_succ_apply]
  have hbij := g.next.bijOn_state
  have himage : (fun k => (next^[k] g.next).state.toNat) ''
      {k | k < 2 ^ 64 ∧ (next^[k] g).word.1 = v} = Iio (2 ^ 64) ∩ {n | n / 2 ^ 32 = v.toNat} := by
    rw [← hbij.image_eq, ← image_inter_preimage]
    congr 1
    ext k
    exact and_congr_right fun _ => hdraw k
  rw [← ncard_upper v.toNat_lt, ← himage]
  exact (hbij.injOn.mono fun k hk => hk.1).ncard_image.symm

/-- **The generator has full period.** From every seed it reaches every state after exactly one
number of steps below `2 ^ 64`. It is back at the seed after `2 ^ 64` steps and not before, and in
these steps it draws every word `2 ^ 32` times. -/
theorem full_period (g : Generator) :
    (∀ t : UInt64, ∃! k, k < 2 ^ 64 ∧ (next^[k] g).state = t) ∧
      next^[2 ^ 64] g = g ∧ (∀ k, 0 < k → k < 2 ^ 64 → next^[k] g ≠ g) ∧
      ∀ v : UInt32, {k | k < 2 ^ 64 ∧ (next^[k] g).word.1 = v}.ncard = 2 ^ 32 := by
  have hbij := g.bijOn_state
  refine ⟨fun t => ?_, g.iterate_period, fun k hpos hk hback => ?_, g.ncard_draws⟩
  · obtain ⟨k, hk, hkt⟩ := hbij.surjOn (mem_Iio.mpr t.toNat_lt)
    refine ⟨k, ⟨hk, UInt64.toNat_inj.mp hkt⟩, fun l hl => ?_⟩
    refine hbij.injOn hl.1 hk ?_
    show (next^[l] g).state.toNat = _
    rw [hl.2]
    exact hkt.symm
  · have hperiodic : IsPeriodicPt next k g := hback
    have hle := hperiodic.minimalPeriod_le hpos
    rw [g.minimalPeriod_next] at hle
    omega

end RegisterMachine.Generator
