import Mathlib

/-!
# Gains of the recursive Gaussian

A filter that decays by `a` a pixel keeps `e⁻ᵃ` of a response from one pixel to the next. With
exact coefficients each half answers a constant line by a constant, and the gains of both add
up to one.
-/

namespace FixedRaster.Gaussian

/-- What is left of a response one pixel further. -/
noncomputable def ratio (a : ℝ) : ℝ := Real.exp (-a)

noncomputable def spread (a : ℝ) : ℝ := 1 + (a + a) * ratio a - ratio a * ratio a

noncomputable def tap (a : ℝ) : ℝ := (1 - ratio a) * (1 - ratio a) / spread a

noncomputable def leftGain (a : ℝ) : ℝ := (1 + (a - 1) * ratio a) / spread a

noncomputable def rightGain (a : ℝ) : ℝ := ((a + 1) * ratio a - ratio a * ratio a) / spread a

section
variable {a : ℝ}

theorem ratio_pos (a : ℝ) : 0 < ratio a := Real.exp_pos _

theorem ratio_lt_one (ha : 0 < a) : ratio a < 1 := Real.exp_lt_one_iff.2 (neg_lt_zero.2 ha)

theorem add_one_mul_ratio_le (a : ℝ) : (a + 1) * ratio a ≤ 1 := by
  have hexp := mul_le_mul_of_nonneg_right (Real.add_one_le_exp a) (ratio_pos a).le
  rwa [ratio, ← Real.exp_add, add_neg_cancel, Real.exp_zero] at hexp

theorem one_sub_ratio_le_spread (ha : 0 < a) : 1 - ratio a ≤ spread a := by
  have hpos := ratio_pos a
  have hsquare := mul_le_mul_of_nonneg_left (ratio_lt_one ha).le hpos.le
  have hcross := mul_pos ha hpos
  rw [spread]
  linarith

theorem spread_pos (ha : 0 < a) : 0 < spread a :=
  (sub_pos.2 (ratio_lt_one ha)).trans_le (one_sub_ratio_le_spread ha)

theorem tap_nonneg (ha : 0 < a) : 0 ≤ tap a :=
  div_nonneg (mul_self_nonneg _) (spread_pos ha).le

theorem tap_le (ha : 0 < a) : tap a ≤ 1 - ratio a := by
  rw [tap, div_le_iff₀ (spread_pos ha)]
  exact mul_le_mul_of_nonneg_left (one_sub_ratio_le_spread ha) (sub_pos.2 (ratio_lt_one ha)).le

theorem abs_sub_one_mul_ratio_le (ha : 0 < a) : |(a - 1) * ratio a| ≤ 1 := by
  have hpos := ratio_pos a
  have hcross := mul_pos ha hpos
  have hone := add_one_mul_ratio_le a
  have hlt := ratio_lt_one ha
  rw [abs_le]
  constructor <;> linarith

theorem abs_tap_second_le (ha : 0 < a) : |tap a * (a - 1) * ratio a| ≤ tap a := by
  rw [mul_assoc, abs_mul, abs_of_nonneg (tap_nonneg ha)]
  exact mul_le_of_le_one_right (tap_nonneg ha) (abs_sub_one_mul_ratio_le ha)

theorem abs_tap_third_le (ha : 0 < a) : |tap a * (a + 1) * ratio a| ≤ tap a := by
  have hfactor : 0 ≤ (a + 1) * ratio a := mul_nonneg (by linarith) (ratio_pos a).le
  rw [mul_assoc, abs_mul, abs_of_nonneg (tap_nonneg ha), abs_of_nonneg hfactor]
  exact mul_le_of_le_one_right (tap_nonneg ha) (add_one_mul_ratio_le a)

theorem abs_tap_fourth_le (ha : 0 < a) : |-(tap a) * (ratio a * ratio a)| ≤ tap a := by
  have hpos := (ratio_pos a).le
  have hlt := (ratio_lt_one ha).le
  rw [abs_mul, abs_neg, abs_of_nonneg (tap_nonneg ha), abs_of_nonneg (mul_nonneg hpos hpos)]
  exact mul_le_of_le_one_right (tap_nonneg ha) (mul_le_one₀ hlt hpos hlt)

theorem leftGain_add_rightGain (ha : 0 < a) : leftGain a + rightGain a = 1 := by
  rw [leftGain, rightGain, ← add_div, div_eq_one_iff_eq (spread_pos ha).ne', spread]
  ring

theorem leftGain_nonneg (ha : 0 < a) : 0 ≤ leftGain a := by
  have hcross := mul_pos ha (ratio_pos a)
  have hlt := ratio_lt_one ha
  exact div_nonneg (by linarith) (spread_pos ha).le

theorem rightGain_nonneg (ha : 0 < a) : 0 ≤ rightGain a := by
  have hfactor : (a + 1) * ratio a - ratio a * ratio a = ratio a * (a + (1 - ratio a)) := by ring
  have hlt := ratio_lt_one ha
  rw [rightGain, hfactor]
  exact div_nonneg (mul_nonneg (ratio_pos a).le (by linarith)) (spread_pos ha).le

/-- The taps of the causal half add up to its gain times what a constant response lacks. -/
theorem tap_add_eq (ha : 0 < a) :
    tap a + tap a * (a - 1) * ratio a = leftGain a * ((1 - ratio a) * (1 - ratio a)) := by
  have hspread := (spread_pos ha).ne'
  rw [tap, leftGain]
  field_simp

theorem tap_sub_eq (ha : 0 < a) :
    tap a * (a + 1) * ratio a - tap a * (ratio a * ratio a) =
      rightGain a * ((1 - ratio a) * (1 - ratio a)) := by
  have hspread := (spread_pos ha).ne'
  rw [tap, rightGain]
  field_simp

end

end FixedRaster.Gaussian
