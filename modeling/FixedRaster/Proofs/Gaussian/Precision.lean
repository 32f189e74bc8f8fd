import FixedRaster.Gaussian.Coefficients
import FixedRaster.Proofs.Binary.Exponential
import FixedRaster.Proofs.Binary.Order
import FixedRaster.Proofs.Gaussian.Gains

/-!
# The precision of the coefficients

The coefficients of a radius up to 240 pixels are close to the exact ones: each is off by what the
steps in double precision come to and by one rounding to single precision. The larger the radius,
the smaller the denominators, and the more digits the quotients lose.
-/

namespace FixedRaster.Gaussian

open Binary

noncomputable def slack (a : ℝ) : ℝ := (1 - ratio a) * grain + grain / 256

theorem near_one : Near 1.0 1 0 := by
  have hvalue : value 1.0 = .finite .positive 4503599627370496 (-52) (by decide) := rfl
  exact near_value hvalue (by norm_num [factor])

theorem near_two : Near 2.0 2 0 := by
  have hvalue : value 2.0 = .finite .positive 4503599627370496 (-51) (by decide) := rfl
  exact near_value hvalue (by norm_num [factor])

theorem near_decayScale : Near Coefficients.decayScale (7628971155556059 / 2 ^ 52) 0 := by
  have hvalue : value Coefficients.decayScale =
      .finite .positive 7628971155556059 (-52) (by decide) := rfl
  exact near_value hvalue (by norm_num [factor])

section
variable {decay g1 g2 : Float} {a : ℝ}

structure Decays (decay g1 g2 : Float) (a : ℝ) : Prop where
  decay : Near decay a 0
  once : Near g1 (ratio a) (1 / 2 ^ 52)
  twice : Near g2 (ratio a * ratio a) (1 / 2 ^ 49)
  low : 1 / 142 ≤ a
  high : a ≤ 7 / 2

namespace Decays

theorem pos (h : Decays decay g1 g2 a) : 0 < a := lt_of_lt_of_le (by norm_num) h.low

theorem abs_ratio_le (h : Decays decay g1 g2 a) : |ratio a| ≤ 1 := by
  rw [abs_of_pos (ratio_pos a)]
  exact (ratio_lt_one h.pos).le

theorem le_one_sub_ratio (h : Decays decay g1 g2 a) : 1 / 143 ≤ 1 - ratio a := by
  have hone := add_one_mul_ratio_le a
  have hgrow := mul_le_mul_of_nonneg_right (add_le_add_left h.low 1) (ratio_pos a).le
  linarith

theorem near_lost (h : Decays decay g1 g2 a) : Near (1.0 - g1) (1 - ratio a) (1 / 2 ^ 50) := by
  have hpos := ratio_pos a
  have hlt := ratio_lt_one h.pos
  refine (near_one.sub h.once (M := 2) ?_ (by norm_num)).mono (by norm_num)
  rw [abs_of_pos (sub_pos.2 hlt)]
  linarith

theorem near_spread (h : Decays decay g1 g2 a) :
    Near (1.0 + 2.0 * decay * g1 - g2) (spread a) (1 / 2 ^ 45) := by
  have hpos := ratio_pos a
  have hlt := ratio_lt_one h.pos
  have hlow := h.pos
  have hhigh := h.high
  have hdouble : Near (2.0 * decay) (2 * a) (1 / 2 ^ 49) := by
    refine (near_two.mul h.decay (A := 2) (B := 7 / 2) (M := 7) ?_ ?_ ?_ (by norm_num)).mono
      (by norm_num)
    · norm_num
    · rwa [abs_of_pos hlow]
    · norm_num
  have hcross : Near (2.0 * decay * g1) (2 * a * ratio a) (1 / 2 ^ 47) := by
    refine (hdouble.mul h.once (A := 7) (B := 1) (M := 8) ?_ h.abs_ratio_le ?_
      (by norm_num)).mono (by norm_num)
    · rw [abs_of_pos (by linarith)]
      linarith
    · norm_num
  have hbound : 2 * a * ratio a ≤ 7 := by nlinarith
  have hcross0 : 0 ≤ 2 * a * ratio a := by positivity
  have hsum : Near (1.0 + 2.0 * decay * g1) (1 + 2 * a * ratio a) (1 / 2 ^ 46) := by
    refine (near_one.add hcross (M := 9) ?_ (by norm_num)).mono (by norm_num)
    rw [abs_of_nonneg (by linarith)]
    linarith
  have heq : spread a = 1 + 2 * a * ratio a - ratio a * ratio a := by rw [spread, two_mul]
  have hspread := spread_pos h.pos
  rw [heq] at hspread ⊢
  refine (hsum.sub h.twice (M := 10) ?_ (by norm_num)).mono (by norm_num)
  rw [abs_of_pos hspread]
  nlinarith

theorem near_tap (h : Decays decay g1 g2 a) :
    Near ((1.0 - g1) * (1.0 - g1) / (1.0 + 2.0 * decay * g1 - g2)) (tap a) (1 / 2 ^ 37) := by
  have hpos := ratio_pos a
  have hlost := sub_pos.2 (ratio_lt_one h.pos)
  have hspread := one_sub_ratio_le_spread h.pos
  have hleast := h.le_one_sub_ratio
  have hle : |1 - ratio a| ≤ 1 := by
    rw [abs_of_pos hlost]
    linarith
  have hsquare : Near ((1.0 - g1) * (1.0 - g1)) ((1 - ratio a) * (1 - ratio a)) (1 / 2 ^ 48) :=
    (h.near_lost.mul h.near_lost (A := 1) (B := 1) (M := 2) hle hle (by norm_num)
      (by norm_num)).mono (by norm_num)
  refine (hsquare.div h.near_spread (L := 1 / 150) (Q := 1) (M := 2) (by norm_num) ?_ ?_
    (by norm_num) (by norm_num)).mono (by norm_num)
  · rw [abs_of_pos (spread_pos h.pos)]
    linarith
  · rw [abs_mul, abs_of_pos (spread_pos h.pos), abs_of_pos hlost]
    nlinarith

theorem abs_tap_le (h : Decays decay g1 g2 a) : |tap a| ≤ 1 := by
  rw [abs_of_nonneg (tap_nonneg h.pos)]
  linarith [tap_le h.pos, ratio_pos a]

variable {k : Float}

theorem near_tap_mul (h : Decays decay g1 g2 a) (hk : Near k (tap a) (1 / 2 ^ 37)) {x : Float}
    {v : ℝ} (hx : Near x v (1 / 2 ^ 49)) (hv : |v| ≤ 5) :
    Near (k * x * g1) (tap a * v * ratio a) (1 / 2 ^ 33) := by
  have hscaled : Near (k * x) (tap a * v) (1 / 2 ^ 34) :=
    (hk.mul hx (A := 1) (B := 5) (M := 6) h.abs_tap_le hv (by norm_num) (by norm_num)).mono
      (by norm_num)
  have hsize := abs_mul_le h.abs_tap_le hv
  exact (hscaled.mul h.once (A := 5) (B := 1) (M := 6) (by linarith) h.abs_ratio_le (by norm_num)
    (by norm_num)).mono (by norm_num)

theorem near_tap_second (h : Decays decay g1 g2 a) (hk : Near k (tap a) (1 / 2 ^ 37)) :
    Near (k * (decay - 1.0) * g1) (tap a * (a - 1) * ratio a) (1 / 2 ^ 33) := by
  have hlow := h.pos
  have hhigh := h.high
  have hsize : |a - 1| ≤ 5 := by
    rw [abs_le]
    constructor <;> linarith
  refine h.near_tap_mul hk ?_ hsize
  exact (h.decay.sub near_one (M := 6) (by linarith) (by norm_num)).mono (by norm_num)

theorem near_tap_third (h : Decays decay g1 g2 a) (hk : Near k (tap a) (1 / 2 ^ 37)) :
    Near (k * (decay + 1.0) * g1) (tap a * (a + 1) * ratio a) (1 / 2 ^ 33) := by
  have hlow := h.pos
  have hhigh := h.high
  have hsize : |a + 1| ≤ 5 := by
    rw [abs_le]
    constructor <;> linarith
  refine h.near_tap_mul hk ?_ hsize
  exact (h.decay.add near_one (M := 6) (by linarith) (by norm_num)).mono (by norm_num)

theorem abs_ratio_mul_self_le (h : Decays decay g1 g2 a) : |ratio a * ratio a| ≤ 1 :=
  (abs_mul_le h.abs_ratio_le h.abs_ratio_le).trans_eq (one_mul 1)

theorem near_tap_fourth (h : Decays decay g1 g2 a) (hk : Near k (tap a) (1 / 2 ^ 37)) :
    Near (-k * g2) (-(tap a) * (ratio a * ratio a)) (1 / 2 ^ 36) := by
  refine (hk.neg.mul h.twice (A := 1) (B := 1) (M := 2) ?_ h.abs_ratio_mul_self_le (by norm_num)
    (by norm_num)).mono (by norm_num)
  rw [abs_neg]
  exact h.abs_tap_le

theorem near_feedback (h : Decays decay g1 g2 a) :
    Near (2.0 * g1) (2 * ratio a) (1 / 2 ^ 49) :=
  (near_two.mul h.once (A := 2) (B := 1) (M := 3) (by norm_num) h.abs_ratio_le (by norm_num)
    (by norm_num)).mono (by norm_num)

theorem near_lack (h : Decays decay g1 g2 a) :
    Near (1.0 - 2.0 * g1 - -g2) ((1 - ratio a) * (1 - ratio a)) (1 / 2 ^ 47) := by
  have hpos := ratio_pos a
  have hlt := ratio_lt_one h.pos
  have hfirst : Near (1.0 - 2.0 * g1) (1 - 2 * ratio a) (1 / 2 ^ 48) := by
    refine (near_one.sub h.near_feedback (M := 2) ?_ (by norm_num)).mono (by norm_num)
    have hsize : |1 - 2 * ratio a| ≤ 1 := by
      rw [abs_le]
      constructor <;> linarith
    linarith
  have heq : (1 - ratio a) * (1 - ratio a) = 1 - 2 * ratio a - -(ratio a * ratio a) := by ring
  rw [heq]
  refine (hfirst.sub h.twice.neg (M := 2) ?_ (by norm_num)).mono (by norm_num)
  rw [← heq, abs_of_nonneg (mul_self_nonneg _)]
  nlinarith

theorem near_corner (h : Decays decay g1 g2 a) {x : Float} {gain : ℝ} (hgain : |gain| ≤ 1)
    (hx : Near x (gain * ((1 - ratio a) * (1 - ratio a))) (1 / 2 ^ 32)) :
    Near (x / (1.0 - 2.0 * g1 - -g2)) gain (3 / 2 ^ 19) := by
  have hleast := h.le_one_sub_ratio
  have hsquare : 1 / 143 * (1 / 143) ≤ (1 - ratio a) * (1 - ratio a) :=
    mul_le_mul hleast hleast (by norm_num) (by linarith)
  have hpos : 0 < (1 - ratio a) * (1 - ratio a) := lt_of_lt_of_le (by norm_num) hsquare
  -- the denominator is small where the radius is large: `1 / 20449` costs 15 bits
  have hquotient := hx.div h.near_lack (L := 1 / 20500) (Q := 1) (M := 2) (by norm_num)
    (by rw [abs_of_pos hpos]; linarith)
    (by rw [abs_mul]; exact mul_le_mul_of_nonneg_right hgain (abs_nonneg _)) (by norm_num)
    (by norm_num)
  rw [mul_div_cancel_right₀ _ hpos.ne'] at hquotient
  exact hquotient.mono (by norm_num)

theorem abs_leftGain_le (h : Decays decay g1 g2 a) : |leftGain a| ≤ 1 := by
  rw [abs_of_nonneg (leftGain_nonneg h.pos)]
  linarith [leftGain_add_rightGain h.pos, rightGain_nonneg h.pos]

theorem abs_rightGain_le (h : Decays decay g1 g2 a) : |rightGain a| ≤ 1 := by
  rw [abs_of_nonneg (rightGain_nonneg h.pos)]
  linarith [leftGain_add_rightGain h.pos, leftGain_nonneg h.pos]

theorem abs_gain_mul_le (h : Decays decay g1 g2 a) {gain : ℝ} (hgain : |gain| ≤ 1) :
    |gain * ((1 - ratio a) * (1 - ratio a))| ≤ 1 := by
  have hpos := ratio_pos a
  have hlost := sub_pos.2 (ratio_lt_one h.pos)
  rw [abs_mul, abs_of_pos (mul_pos hlost hlost)]
  exact mul_le_one₀ hgain (mul_pos hlost hlost).le (by nlinarith)

theorem near_leftCorner (h : Decays decay g1 g2 a) (hk : Near k (tap a) (1 / 2 ^ 37)) :
    Near ((k + k * (decay - 1.0) * g1) / (1.0 - 2.0 * g1 - -g2)) (leftGain a) (3 / 2 ^ 19) := by
  have hgain := h.abs_leftGain_le
  have hsize := h.abs_gain_mul_le hgain
  refine h.near_corner hgain ?_
  rw [← tap_add_eq h.pos] at hsize ⊢
  refine (hk.add (h.near_tap_second hk) (M := 2) ?_ (by norm_num)).mono (by norm_num)
  linarith

theorem near_rightCorner (h : Decays decay g1 g2 a) (hk : Near k (tap a) (1 / 2 ^ 37)) :
    Near ((k * (decay + 1.0) * g1 + -k * g2) / (1.0 - 2.0 * g1 - -g2)) (rightGain a)
      (3 / 2 ^ 19) := by
  have hgain := h.abs_rightGain_le
  have hsize := h.abs_gain_mul_le hgain
  refine h.near_corner hgain ?_
  rw [← tap_sub_eq h.pos, sub_eq_add_neg, ← neg_mul] at hsize ⊢
  refine ((h.near_tap_third hk).add (h.near_tap_fourth hk) (M := 2) ?_ (by norm_num)).mono
    (by norm_num)
  linarith

theorem near_narrow_tap (h : Decays decay g1 g2 a) {x : Float} {v ε : ℝ} (hx : Near x v ε)
    (hε : ε ≤ 1 / 2 ^ 33) (hv : |v| ≤ tap a) :
    Near (widen (narrow x)) v (slack a) := by
  have hpos := ratio_pos a
  have htap := tap_le h.pos
  refine (hx.narrow (M := 1 - ratio a + 1 / 2 ^ 33) (by linarith) ?_).mono ?_
  · linarith
  · rw [slack, grain]
    linarith

end Decays

/-- Coefficients in single precision that are close to those of a decay. -/
structure Coefficients.Follows (c : Coefficients) (a : ℝ) : Prop where
  pos : 0 < a
  le_lost : 1 / 143 ≤ 1 - ratio a
  a0 : Near (widen c.a0) (tap a) (slack a)
  a1 : Near (widen c.a1) (tap a * (a - 1) * ratio a) (slack a)
  a2 : Near (widen c.a2) (tap a * (a + 1) * ratio a) (slack a)
  a3 : Near (widen c.a3) (-(tap a) * (ratio a * ratio a)) (slack a)
  b1 : Near (widen c.b1) (2 * ratio a) (grain + grain / 256)
  b2 : Near (widen c.b2) (-(ratio a * ratio a)) (grain / 2 + grain / 256)
  leftCorner : Near (widen c.leftCorner) (leftGain a) (1 / 2 ^ 17)
  rightCorner : Near (widen c.rightCorner) (rightGain a) (1 / 2 ^ 17)

theorem Decays.follows (h : Decays decay g1 g2 a) :
    (Coefficients.ofDecay decay g1 g2).Follows a := by
  have hpos := ratio_pos a
  have hlt := ratio_lt_one h.pos
  have hleast := h.le_one_sub_ratio
  have hk := h.near_tap
  refine ⟨h.pos, hleast, ?_, ?_, ?_, ?_, ?_, ?_, ?_, ?_⟩
  · exact h.near_narrow_tap hk (by norm_num) (abs_of_nonneg (tap_nonneg h.pos)).le
  · exact h.near_narrow_tap (h.near_tap_second hk) (by norm_num) (abs_tap_second_le h.pos)
  · exact h.near_narrow_tap (h.near_tap_third hk) (by norm_num) (abs_tap_third_le h.pos)
  · exact h.near_narrow_tap (h.near_tap_fourth hk) (by norm_num) (abs_tap_fourth_le h.pos)
  · refine (h.near_feedback.narrow_of_lt (k := 1) ?_ (by decide)).mono (by norm_num [grain])
    rw [abs_of_pos (by linarith)]
    linarith
  · refine (h.twice.neg.narrow_of_lt (k := 0) ?_ (by decide)).mono (by norm_num [grain])
    rw [abs_neg, abs_of_pos (mul_pos hpos hpos)]
    nlinarith
  · refine ((h.near_leftCorner hk).narrow (M := 2) ?_ (by norm_num)).mono (by norm_num)
    linarith [h.abs_leftGain_le]
  · refine ((h.near_rightCorner hk).narrow (M := 2) ?_ (by norm_num)).mono (by norm_num)
    linarith [h.abs_rightGain_le]

end

structure Moderate (radius : Float32) : Prop where
  inFormat : InFormat .binary32 (single radius)
  low : 1 / 2 ≤ real (single radius)
  high : real (single radius) ≤ 240

theorem Moderate.exists_near_decay {radius : Float32} (h : Moderate radius) :
    ∃ a, Near (Coefficients.decayScale / widen radius) a 0 ∧ 1 / 142 ≤ a ∧ a ≤ 7 / 2 := by
  obtain ⟨hin, hreal⟩ := value_widen h.inFormat
  have hlow := h.low
  have hhigh := h.high
  rw [← hreal] at hlow hhigh
  have hradius : Near (widen radius) (real (value (widen radius))) 0 := near_self hin
  generalize real (value (widen radius)) = r at hradius hlow hhigh
  have hpos : 0 < r := by linarith
  have hquotient := (near_decayScale.div hradius (L := 1 / 2) (Q := 4) (M := 4) (by norm_num)
    (by rw [abs_of_pos hpos]; linarith)
    (by rw [abs_of_pos hpos, abs_of_pos (by positivity)]; linarith)
    (by norm_num) (by norm_num)).mono (show _ ≤ 1 / 2 ^ 50 by norm_num)
  obtain ⟨hdown, hup⟩ := abs_le.1 hquotient.2
  have hleast : 1 / 142 + 1 / 2 ^ 50 ≤ 7628971155556059 / 2 ^ 52 / r := by
    rw [le_div_iff₀ hpos]
    linarith
  have hmost : 7628971155556059 / 2 ^ 52 / r ≤ 7 / 2 - 1 / 2 ^ 50 := by
    rw [div_le_iff₀ hpos]
    linarith
  exact ⟨_, hquotient.self, by linarith, by linarith⟩

theorem decays_of_near {decay : Float} {a : ℝ} (h : Near decay a 0) (hlow : 1 / 142 ≤ a)
    (hhigh : a ≤ 7 / 2) : Decays decay (exp (-decay)) (exp (-2.0 * decay)) a := by
  have hdouble : Near (-2.0 * decay) (-(2 * a)) (1 / 2 ^ 50) := by
    rw [← neg_mul]
    refine (near_two.neg.mul h (A := 2) (B := 7 / 2) (M := 7) ?_ ?_ ?_ (by norm_num)).mono
      (by norm_num)
    · norm_num
    · rwa [abs_of_pos (by linarith)]
    · norm_num
  have hsquare : ratio a * ratio a = Real.exp (-(2 * a)) := by
    rw [ratio, ← Real.exp_add]
    congr 1
    ring
  refine ⟨h, ?_, ?_, hlow, hhigh⟩
  · exact (near_exp h.neg (by linarith) (by linarith)).mono (by norm_num)
  · rw [hsquare]
    exact (near_exp hdouble (by linarith) (by linarith)).mono (by norm_num)

theorem moderate_leastRadius : Moderate Coefficients.leastRadius := by
  have hvalue : single Coefficients.leastRadius =
      .finite .positive 8388608 (-24) (by decide) := rfl
  refine ⟨inFormat_single hvalue, ?_, ?_⟩
  · rw [hvalue, real, factor]
    norm_num
  · rw [hvalue, real, factor]
    norm_num

theorem moderate_of_not_lt {radius : Float32} (hpos : 0.0 < radius)
    (hlow : ¬ radius < Coefficients.leastRadius) (hhigh : ¬ 240.0 < radius) : Moderate radius := by
  have hmost : single 240.0 = .finite .positive 15728640 (-16) (by decide) := rfl
  have hmost' := inFormat_single hmost
  have hreal : real (single 240.0) = 240 := by
    rw [hmost, real, factor]
    norm_num
  have hin : InFormat .binary32 (single radius) :=
    inFormat_of_between (y := 0.0) trivial hmost' hpos hhigh
  refine ⟨hin, ?_, ?_⟩
  · rw [lt_iff_single_lt, lt_iff_real_lt hin moderate_leastRadius.inFormat, not_lt] at hlow
    exact moderate_leastRadius.low.trans hlow
  · rwa [lt_iff_single_lt, lt_iff_real_lt hmost' hin, not_lt, hreal] at hhigh

theorem exists_follows {radius : Float32} {c : Coefficients}
    (h : Coefficients.ofBlurRadius? radius = some c) (hhigh : ¬ 240.0 < radius) :
    ∃ a, c.Follows a := by
  unfold Coefficients.ofBlurRadius? at h
  split at h
  · rename_i hpos
    obtain rfl := Option.some.inj h
    have hmoderate : Moderate (if radius < Coefficients.leastRadius then Coefficients.leastRadius
        else radius) := by
      split_ifs with hlow
      · exact moderate_leastRadius
      · exact moderate_of_not_lt hpos hlow hhigh
    obtain ⟨a, hdecay, hlow, hhigh⟩ := hmoderate.exists_near_decay
    exact ⟨a, (decays_of_near hdecay hlow hhigh).follows⟩
  · cases h

end FixedRaster.Gaussian
