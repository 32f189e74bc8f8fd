import FixedRaster.Proofs.Binary.Near

/-!
# The order of finite numbers

Numbers of a format are compared by sign, exponent and mantissa, which is the order of the reals
they stand for: of two positive ones the one with the larger exponent has a full mantissa.
-/

namespace FixedRaster.Binary

open Float.Model (Format UnpackedFloat totalExponent)
open Float.Model.UnpackedFloat

section
variable {format : Format} {m m' : ℕ} {e e' : ℤ}

theorem Fits.lt_of_exponent_lt (h : Fits format m e) (h' : Fits format m' e') (hlt : e < e') :
    (m : ℝ) * 2 ^ e < m' * 2 ^ e' := by
  have hbits := mantissaBits_eq format
  have hfull : 2 ^ format.mantissaBitsWithoutImplicit ≤ m' := by
    have hle := h.le
    exact h'.full.resolve_right (by omega)
  have hstep : (2 : ℝ) ^ e * 2 ≤ 2 ^ e' := by
    rw [← zpow_add_one₀ two_ne_zero]
    exact zpow_le_zpow_right₀ one_le_two (by omega)
  have hm : (m : ℝ) < 2 ^ format.mantissaBitsWithoutImplicit * 2 := by
    rw [← pow_succ, ← hbits]
    exact_mod_cast h.lt
  have hm' : (2 : ℝ) ^ format.mantissaBitsWithoutImplicit ≤ m' := by exact_mod_cast hfull
  calc (m : ℝ) * 2 ^ e < 2 ^ format.mantissaBitsWithoutImplicit * 2 * 2 ^ e := by gcongr
    _ = 2 ^ format.mantissaBitsWithoutImplicit * (2 ^ e * 2) := by ring
    _ ≤ m' * 2 ^ e' := by gcongr

theorem Fits.compare_eq_lt_iff (h : Fits format m e) (h' : Fits format m' e') :
    (compare e e').then (compare m m') = .lt ↔ (m : ℝ) * 2 ^ e < m' * 2 ^ e' := by
  rcases lt_trichotomy e e' with hlt | rfl | hgt
  · rw [Int.compare_eq_lt.2 hlt]
    exact iff_of_true rfl (h.lt_of_exponent_lt h' hlt)
  · rw [Int.compare_eq_eq.2 rfl, Ordering.eq_then, Nat.compare_eq_lt,
      mul_lt_mul_iff_left₀ (by positivity), Nat.cast_lt]
  · rw [Int.compare_eq_gt.2 hgt]
    exact iff_of_false Ordering.noConfusion (h'.lt_of_exponent_lt h hgt).not_gt

end

section
variable {format : Format} {a b : UnpackedFloat}

theorem real_positive {m : ℕ} (hm : 0 < m) (e : ℤ) :
    real (.finite .positive m e hm) = m * 2 ^ e := by
  rw [real, factor, one_mul]

theorem real_negative {m : ℕ} (hm : 0 < m) (e : ℤ) :
    real (.finite .negative m e hm) = -(m * 2 ^ e) := by
  rw [real, factor, neg_one_mul, neg_mul]

theorem lt_iff_real_lt (ha : InFormat format a) (hb : InFormat format b) :
    a.lt b = true ↔ real a < real b := by
  have hlt : some Ordering.lt = some Ordering.lt := rfl
  have heq : some Ordering.eq ≠ some Ordering.lt := by decide
  have hgt : some Ordering.gt ≠ some Ordering.lt := by decide
  rw [UnpackedFloat.lt, beq_iff_eq]
  cases a with
  | infinity => exact ha.elim
  | notANumber => exact ha.elim
  | zero sign =>
    cases b with
    | infinity => exact hb.elim
    | notANumber => exact hb.elim
    | zero sign' => exact iff_of_false heq (lt_irrefl 0)
    | finite sign' m' e' hm' =>
      have hpos : (0 : ℝ) < m' * 2 ^ e' := by positivity
      cases sign' with
      | negative =>
        rw [real_negative]
        exact iff_of_false hgt (neg_neg_of_pos hpos).not_gt
      | positive =>
        rw [real_positive]
        exact iff_of_true hlt hpos
  | finite sign m e hm =>
    have hpos : (0 : ℝ) < m * 2 ^ e := by positivity
    cases b with
    | infinity => exact hb.elim
    | notANumber => exact hb.elim
    | zero sign' =>
      cases sign with
      | negative =>
        rw [real_negative]
        exact iff_of_true hlt (neg_neg_of_pos hpos)
      | positive =>
        rw [real_positive]
        exact iff_of_false hgt hpos.not_gt
    | finite sign' m' e' hm' =>
      have hpos' : (0 : ℝ) < m' * 2 ^ e' := by positivity
      cases sign with
      | negative =>
        cases sign' with
        | negative =>
          rw [real_negative, real_negative, neg_lt_neg_iff, ← hb.1.compare_eq_lt_iff ha.1,
            ← Int.compare_swap, ← Nat.compare_swap, ← Ordering.swap_then]
          exact Option.some_inj
        | positive =>
          rw [real_negative, real_positive]
          exact iff_of_true hlt ((neg_neg_of_pos hpos).trans hpos')
      | positive =>
        cases sign' with
        | negative =>
          rw [real_negative, real_positive]
          exact iff_of_false hgt ((neg_neg_of_pos hpos').trans hpos).not_gt
        | positive =>
          rw [real_positive, real_positive, ← ha.1.compare_eq_lt_iff hb.1]
          exact Option.some_inj

end

section
variable {x y : Float32} {format : Format} {a : UnpackedFloat}

theorem lt_iff_single_lt : x < y ↔ (single x).lt (single y) = true := decide_eq_true_iff

theorem lt_infinity_iff (ha : InFormat format a) (sign : Sign) :
    a.lt (.infinity sign) = true ↔ sign = .positive := by
  cases sign with
  | negative =>
    refine iff_of_false ?_ Sign.noConfusion
    cases a with
    | infinity => exact ha.elim
    | notANumber => exact ha.elim
    | zero => exact Bool.false_ne_true
    | finite sign' => cases sign' <;> exact Bool.false_ne_true
  | positive =>
    refine iff_of_true ?_ rfl
    cases a with
    | infinity => exact ha.elim
    | notANumber => exact ha.elim
    | zero => rfl
    | finite sign' => cases sign' <;> rfl

theorem not_lt_notANumber (a : UnpackedFloat) : a.lt .notANumber = false := by
  cases a <;> rfl

theorem inFormat_of_between {z : Float32} (hy : InFormat .binary32 (single y))
    (hz : InFormat .binary32 (single z)) (hlow : y < x) (hhigh : ¬ z < x) :
    InFormat .binary32 (single x) := by
  rw [lt_iff_single_lt] at hlow hhigh
  apply inFormat_unpack (by decide)
  change (single x).isFinite = true
  cases hx : single x with
  | infinity sign =>
    rw [hx, lt_infinity_iff hy] at hlow
    rw [hx, lt_infinity_iff hz] at hhigh
    exact absurd hlow hhigh
  | notANumber =>
    rw [hx, not_lt_notANumber] at hlow
    exact absurd hlow Bool.false_ne_true
  | zero => rfl
  | finite => rfl

end

end FixedRaster.Binary
