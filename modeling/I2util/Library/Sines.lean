import Mathlib.Analysis.Complex.Basic
import Mathlib.Analysis.Complex.Trigonometric
import Mathlib.Tactic.LinearCombination

/-!
The digits of the sines of natural numbers, by exact arithmetic.

`exp I` is near a sum of powers of `I` over factorials, whose numerator is a pair of
integers. The powers of that pair give the sines of all natural numbers, with an error that
grows with the exponent.
-/

namespace Sines

open Complex

/-- The power of a pair of integers, read as a complex number. -/
def power (p : ℤ × ℤ) : ℕ → ℤ × ℤ
  | 0 => (1, 0)
  | n + 1 =>
      let q := power p n
      (q.1 * p.1 - q.2 * p.2, q.1 * p.2 + q.2 * p.1)

/-- The numerator of `1 + I + I ^ 2 / 2! + … + I ^ n / n!`, over `n!`. -/
def partialSum : ℕ → ℤ × ℤ
  | 0 => (1, 0)
  | n + 1 =>
      let q := partialSum n
      let r := power (0, 1) (n + 1)
      (q.1 * (n + 1) + r.1, q.2 * (n + 1) + r.2)

/-- `t` is `K` times the sine of `n`, rounded down: as the sum of `N` powers has it, with a
margin of one part in `c` on both sides. -/
def Digits (N K c n t : ℕ) : Prop :=
  let y := (power (partialSum N) n).2.natAbs
  let D := N.factorial ^ n
  c * K * (2 * n * (N + 2)) ≤ (N + 1).factorial * (N + 1) ∧
    c * t * D + D ≤ c * K * y ∧ c * K * y + D < c * (t + 1) * D

instance (N K c n t : ℕ) : Decidable (Digits N K c n t) :=
  inferInstanceAs (Decidable (_ ∧ _ ∧ _))

def toComplex (p : ℤ × ℤ) : ℂ := p.1 + p.2 * I

theorem toComplex_power (p : ℤ × ℤ) (n : ℕ) : toComplex (power p n) = toComplex p ^ n := by
  induction n with
  | zero => simp [toComplex, power]
  | succ n ih =>
      rw [pow_succ, ← ih]
      simp only [toComplex, power]
      push_cast
      linear_combination (-((power p n).2 * p.2 : ℂ)) * I_sq

theorem toComplex_partialSum (n : ℕ) :
    toComplex (partialSum n) / n.factorial =
      ∑ m ∈ Finset.range (n + 1), I ^ m / m.factorial := by
  induction n with
  | zero => simp [toComplex, partialSum]
  | succ n ih =>
      have hsum : toComplex (partialSum (n + 1)) =
          toComplex (partialSum n) * (n + 1) + I ^ (n + 1) := by
        have hpower := toComplex_power (0, 1) (n + 1)
        have hI : toComplex (0, 1) = I := by simp [toComplex]
        rw [hI] at hpower
        rw [← hpower]
        simp only [toComplex, partialSum]
        push_cast
        ring
      have hn : (n.factorial : ℂ) ≠ 0 := Nat.cast_ne_zero.mpr n.factorial_ne_zero
      have hn1 : (n + 1 : ℂ) ≠ 0 := Nat.cast_add_one_ne_zero n
      rw [Finset.sum_range_succ, ← ih, hsum, Nat.factorial_succ]
      push_cast
      field_simp

/-- The powers of two numbers that are near each other, one of them of norm one. -/
theorem norm_pow_sub_pow_le {z w : ℂ} {δ : ℝ} (hz : ‖z‖ = 1) (hδ : ‖z - w‖ ≤ δ) {n : ℕ}
    (hn : 2 * n * δ ≤ 1) : ‖z ^ n - w ^ n‖ ≤ 2 * n * δ := by
  have hpos : 0 ≤ δ := (norm_nonneg _).trans hδ
  induction n with
  | zero => simp
  | succ n ih =>
      push_cast at hn ⊢
      have hle := ih (by linarith)
      -- the powers of `w` stay within distance one of those of `z`
      have hw : ‖w ^ n‖ ≤ 2 := by
        have htri := norm_sub_norm_le (w ^ n) (z ^ n)
        rw [norm_pow z, hz, one_pow, norm_sub_rev] at htri
        linarith
      have hsplit : z ^ (n + 1) - w ^ (n + 1) = z * (z ^ n - w ^ n) + (z - w) * w ^ n := by ring
      calc ‖z ^ (n + 1) - w ^ (n + 1)‖
          ≤ ‖z * (z ^ n - w ^ n)‖ + ‖(z - w) * w ^ n‖ := hsplit ▸ norm_add_le _ _
        _ = ‖z ^ n - w ^ n‖ + ‖z - w‖ * ‖w ^ n‖ := by rw [norm_mul, norm_mul, hz, one_mul]
        _ ≤ 2 * n * δ + δ * 2 := by gcongr
        _ = 2 * (n + 1) * δ := by ring

/-- How far the sum is from `exp I`. -/
theorem exp_I_bound (N : ℕ) :
    ‖exp I - toComplex (partialSum N) / N.factorial‖ ≤
      (N + 2 : ℝ) * ((N + 1).factorial * (N + 1) : ℝ)⁻¹ := by
  have hbound := exp_bound (x := I) (by rw [norm_I]) (Nat.succ_pos N)
  rw [norm_I, one_pow, one_mul, ← toComplex_partialSum] at hbound
  push_cast at hbound
  rwa [show (N : ℝ) + 1 + 1 = N + 2 by ring] at hbound

theorem sin_bound {N n : ℕ}
    (h : 2 * n * ((N + 2 : ℝ) * ((N + 1).factorial * (N + 1) : ℝ)⁻¹) ≤ 1) :
    |Real.sin n - (power (partialSum N) n).2 / (N.factorial : ℝ) ^ n| ≤
      2 * n * ((N + 2 : ℝ) * ((N + 1).factorial * (N + 1) : ℝ)⁻¹) := by
  have hnorm : ‖exp I‖ = 1 := by
    have hone := norm_exp_ofReal_mul_I 1
    rwa [ofReal_one, one_mul] at hone
  have hpow := norm_pow_sub_pow_le hnorm (exp_I_bound N) h
  have hsin : (exp I ^ n).im = Real.sin n := by
    rw [← exp_nat_mul, show (n : ℂ) * I = ((n : ℝ) : ℂ) * I by push_cast; rfl,
      exp_ofReal_mul_I_im]
  have him : ((toComplex (partialSum N) / N.factorial) ^ n).im =
      (power (partialSum N) n).2 / (N.factorial : ℝ) ^ n := by
    rw [div_pow, ← toComplex_power, ← Nat.cast_pow, div_natCast_im]
    simp [toComplex]
  rw [← hsin, ← him, ← sub_im]
  exact (abs_im_le_norm _).trans hpow

/-- A number that is known up to an error has the digits of its approximation, when that is
far enough from the next ones. -/
theorem floor_of_near {s q e : ℝ} {K c t : ℕ} (hs : 0 ≤ s) (hc : 0 < c) (hnear : |s - q| ≤ e)
    (herr : c * K * e ≤ 1) (hlow : c * t + 1 ≤ c * K * q) (hhigh : c * K * q + 1 < c * (t + 1)) :
    ⌊(K : ℝ) * s⌋₊ = t := by
  have hcpos : (0 : ℝ) < c := Nat.cast_pos.mpr hc
  have hcK : (0 : ℝ) ≤ c * K := by positivity
  obtain ⟨hbelow, habove⟩ := abs_le.mp hnear
  have hdown : (c : ℝ) * K * (q - e) ≤ c * K * s :=
    mul_le_mul_of_nonneg_left (by linarith) hcK
  have hup : (c : ℝ) * K * s ≤ c * K * (q + e) :=
    mul_le_mul_of_nonneg_left (by linarith) hcK
  rw [mul_sub] at hdown
  rw [mul_add] at hup
  rw [Nat.floor_eq_iff (mul_nonneg K.cast_nonneg hs)]
  constructor
  · apply le_of_mul_le_mul_left _ hcpos
    linarith
  · apply lt_of_mul_lt_mul_left _ hcpos.le
    linarith

/-- The digits of a sine are decided by integers. -/
theorem floor_eq {N K c n t : ℕ} (hc : 0 < c) (hK : 0 < K) (h : Digits N K c n t) :
    ⌊(K : ℝ) * |Real.sin n|⌋₊ = t := by
  obtain ⟨herr, hlow, hhigh⟩ := h
  have hDpos : (0 : ℝ) < (N.factorial : ℝ) ^ n := by positivity
  have hfac : (0 : ℝ) < (N + 1).factorial * (N + 1) := by positivity
  -- the error, times `K`, is at most one part in `c`
  have herr' : (c : ℝ) * K * (2 * n * ((N + 2 : ℝ) * ((N + 1).factorial * (N + 1) : ℝ)⁻¹)) ≤ 1 := by
    rw [← mul_assoc (2 * (n : ℝ)), ← mul_assoc, ← div_eq_mul_inv]
    exact (div_le_one hfac).mpr (by exact_mod_cast herr)
  have hcK : (1 : ℝ) ≤ c * K := by exact_mod_cast Nat.mul_pos hc hK
  have herr0 : (0 : ℝ) ≤ 2 * n * ((N + 2 : ℝ) * ((N + 1).factorial * (N + 1) : ℝ)⁻¹) := by
    positivity
  have hnear := (abs_abs_sub_abs_le_abs_sub _ _).trans
    (sin_bound (N := N) (n := n) ((le_mul_of_one_le_left herr0 hcK).trans herr'))
  have hcast : (((power (partialSum N) n).2.natAbs : ℕ) : ℝ) =
      |((power (partialSum N) n).2 : ℝ)| := by
    rw [Nat.cast_natAbs, Int.cast_abs]
  rw [abs_div, abs_of_pos hDpos] at hnear
  apply floor_of_near (abs_nonneg _) hc hnear herr'
  · rw [mul_div_assoc', le_div_iff₀ hDpos, ← hcast, add_mul, one_mul]
    exact_mod_cast hlow
  · rw [mul_div_assoc', div_add_one hDpos.ne', div_lt_iff₀ hDpos, ← hcast]
    exact_mod_cast hhigh

end Sines
