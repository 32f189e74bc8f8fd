import FixedRaster.Proofs.Binary.Rounding

/-!
# Arithmetic of finite numbers

Each operation on numbers of a format rounds the exact result of the operation on reals, as long as
that stays in the range that the format has room for. Zeros are no exception, whatever their
sign.
-/

namespace FixedRaster.Binary

open Float.Model (Format UnpackedFloat totalExponent)
open Float.Model.UnpackedFloat

variable {format : Format} {a b : UnpackedFloat}

theorem wide_binary64 : Wide .binary64 := ⟨by decide, by decide, by decide⟩

theorem wide_binary32 : Wide .binary32 := ⟨by decide, by decide, by decide⟩

theorem rounds_self (h : InFormat format a) : Rounds format a (real a) := by
  refine ⟨h, format.minExponent, ?_, .inl rfl⟩
  rw [sub_self, abs_zero]
  positivity

theorem rounds_normalize (hwide : Wide format) (n : ℤ) (e : ℤ) (zeroSign : Sign)
    (hv : |(n : ℝ) * 2 ^ e| ≤ 2 ^ 100) :
    Rounds format (UnpackedFloat.normalize format n e zeroSign) (n * 2 ^ e) := by
  have hpos : (0 : ℝ) < 2 ^ e := by positivity
  rw [abs_mul, abs_of_pos hpos] at hv
  rw [UnpackedFloat.normalize]
  rcases lt_trichotomy n 0 with hneg | rfl | hlt
  · have hcast : ((-n).toNat : ℝ) = -n := by exact_mod_cast Int.toNat_of_nonneg (by omega)
    have hrounds := rounds_round hwide (e := e) .negative (show 0 < (-n).toNat by omega)
      (by rwa [hcast, ← abs_of_neg (Int.cast_lt_zero.2 hneg)])
    rw [Int.compare_eq_lt.2 hneg]
    rwa [hcast, factor, neg_mul, neg_mul, one_mul, neg_neg] at hrounds
  · rw [Int.cast_zero, zero_mul]
    exact rounds_self (a := .zero zeroSign) trivial
  · have hcast : (n.toNat : ℝ) = n := by exact_mod_cast Int.toNat_of_nonneg (by omega)
    have hrounds := rounds_round hwide (e := e) .positive (show 0 < n.toNat by omega)
      (by rwa [hcast, ← abs_of_pos (Int.cast_pos.2 hlt)])
    rw [Int.compare_eq_gt.2 hlt]
    rwa [hcast, factor, one_mul] at hrounds

theorem factor_neg (sign : Sign) : factor (-sign) = -factor sign := by
  cases sign with
  | negative => exact (neg_neg _).symm
  | positive => rfl

theorem factor_mul (sign sign' : Sign) : factor (sign * sign') = factor sign * factor sign' := by
  cases sign with
  | negative =>
    cases sign' with
    | negative => exact show (1 : ℝ) = -1 * -1 by norm_num
    | positive => exact (mul_one _).symm
  | positive =>
    cases sign' with
    | negative => exact (one_mul _).symm
    | positive => exact (one_mul _).symm

theorem factor_div (sign sign' : Sign) : factor (sign / sign') = factor sign / factor sign' := by
  cases sign with
  | negative =>
    cases sign' with
    | negative => exact show (1 : ℝ) = -1 / -1 by norm_num
    | positive => exact (div_one _).symm
  | positive =>
    cases sign' with
    | negative => exact show (-1 : ℝ) = 1 / -1 by norm_num
    | positive => exact (div_one _).symm

theorem neg_spec (h : InFormat format a) :
    InFormat format (neg a) ∧ real (neg a) = -real a := by
  cases a with
  | infinity => exact h.elim
  | notANumber => exact h.elim
  | zero => exact ⟨trivial, neg_zero.symm⟩
  | finite sign m e hm =>
    refine ⟨h, ?_⟩
    simp only [neg, real, factor_neg]
    ring

theorem sub_eq_add (format : Format) (a b : UnpackedFloat) :
    sub format a b = add format a (neg b) := by
  have hsign : ∀ (sign : Sign) (n : ℤ), (-sign).apply n = -sign.apply n := by
    intro sign n
    cases sign with
    | negative => exact (neg_neg n).symm
    | positive => rfl
  cases a <;> cases b <;> first | rfl | simp only [sub, add, neg, hsign, Int.sub_eq_add_neg]

theorem real_aligned (sign : Sign) {m : ℕ} (hm : 0 < m) {e t : ℤ} (ht : t ≤ e) :
    ((sign.apply (decreaseExponent m e t).1 : ℤ) : ℝ) * 2 ^ t = real (.finite sign m e hm) := by
  have hshift := cast_shiftLeft_mul m (e - t).toNat e
  rw [show e - (e - t).toNat = t by omega] at hshift
  rw [cast_apply, Int.cast_natCast, decreaseExponent, mul_assoc, hshift, real, mul_assoc]

theorem rounds_add (hwide : Wide format) (ha : InFormat format a) (hb : InFormat format b)
    (hv : |real a + real b| ≤ 2 ^ 100) : Rounds format (add format a b) (real a + real b) := by
  cases a with
  | infinity => exact ha.elim
  | notANumber => exact ha.elim
  | zero sign =>
    have hreal : real (.zero sign) + real b = real b := zero_add _
    rw [hreal]
    cases b with
    | infinity => exact hb.elim
    | notANumber => exact hb.elim
    | zero sign' =>
      rw [add]
      split_ifs
      · exact rounds_self (a := .zero sign) trivial
      · exact rounds_self (a := .zero .positive) trivial
    | finite sign' m' e' hm' => exact rounds_self hb
  | finite sign m e hm =>
    cases b with
    | infinity => exact hb.elim
    | notANumber => exact hb.elim
    | zero sign' =>
      have hreal : real (.finite sign m e hm) + real (.zero sign') = real (.finite sign m e hm) :=
        add_zero _
      rw [hreal]
      exact rounds_self ha
    | finite sign' m' e' hm' =>
      -- Both are brought to the smaller exponent, which is exact.
      have hreal := real_aligned sign hm (min_le_left e e')
      have hreal' := real_aligned sign' hm' (min_le_right e e')
      rw [← hreal, ← hreal', ← add_mul, ← Int.cast_add] at hv ⊢
      exact rounds_normalize hwide _ _ _ hv

theorem rounds_sub (hwide : Wide format) (ha : InFormat format a) (hb : InFormat format b)
    (hv : |real a - real b| ≤ 2 ^ 100) : Rounds format (sub format a b) (real a - real b) := by
  obtain ⟨hneg, hreal⟩ := neg_spec hb
  rw [sub_eq_add]
  rw [sub_eq_add_neg, ← hreal] at hv ⊢
  exact rounds_add hwide ha hneg hv

theorem Fits.le_log2 {m : ℕ} {e : ℤ} (h : Fits format m e) (hm : 0 < m) :
    format.mantissaBitsWithoutImplicit ≤ m.log2 ∨ e = format.minExponent :=
  h.full.imp_left (Nat.le_log2 hm.ne').2

theorem log2_le_of_le {m n : ℕ} (hm : 0 < m) (h : m ≤ n) : m.log2 ≤ n.log2 :=
  (Nat.le_log2 (hm.trans_le h).ne').2 ((Nat.log2_self_le hm.ne').trans h)

theorem rounds_mul (hwide : Wide format) (ha : InFormat format a) (hb : InFormat format b)
    (hv : |real a * real b| ≤ 2 ^ 100) : Rounds format (mul format a b) (real a * real b) := by
  cases a with
  | infinity => exact ha.elim
  | notANumber => exact ha.elim
  | zero sign =>
    have hreal : real (.zero sign) * real b = 0 := zero_mul _
    rw [hreal]
    cases b with
    | infinity => exact hb.elim
    | notANumber => exact hb.elim
    | zero sign' => exact rounds_self (a := .zero (sign * sign')) trivial
    | finite sign' m' e' hm' => exact rounds_self (a := .zero (sign * sign')) trivial
  | finite sign m e hm =>
    cases b with
    | infinity => exact hb.elim
    | notANumber => exact hb.elim
    | zero sign' =>
      have hreal : real (.finite sign m e hm) * real (.zero sign') = 0 := mul_zero _
      rw [hreal]
      exact rounds_self (a := .zero (sign * sign')) trivial
    | finite sign' m' e' hm' =>
      have hreal : real (.finite sign m e hm) * real (.finite sign' m' e' hm') =
          factor (sign * sign') * ((m * m' : ℕ) * 2 ^ (e + e')) := by
        rw [real, real, factor_mul, zpow_add₀ two_ne_zero]
        push_cast
        ring
      have hpos : (0 : ℝ) ≤ (m * m' : ℕ) * 2 ^ (e + e') := by positivity
      rw [hreal] at hv ⊢
      rw [abs_mul, abs_factor, one_mul, abs_of_nonneg hpos] at hv
      refine rounds_roundWithAccuracy hwide _ (stands_exact _) ?_ hv
      -- One full mantissa is enough to make the product long enough.
      have hlog := log2_le_of_le hm (Nat.le_mul_of_pos_right m hm')
      have hlog' := log2_le_of_le hm' (Nat.le_mul_of_pos_left m' hm)
      have hleast := hwide.least_nonpos
      rw [targetExponent_eq]
      rcases ha.1.le_log2 hm with hfull | hmin
      · omega
      · rcases hb.1.le_log2 hm' with hfull' | hmin'
        · omega
        · omega

theorem stands_quotient (num : ℕ) {den : ℕ} (h : 0 < den) :
    Stands (.ofMantissaAndAccuracy (num / den) (accuracyOfFraction (num % den) den))
      (num / den : ℝ) := by
  have hden : (0 : ℝ) < den := Nat.cast_pos.2 h
  have hsplit : (num / den : ℝ) = (num / den : ℕ) + (num % den : ℕ) / den := by
    have heq : (num : ℝ) = den * (num / den : ℕ) + (num % den : ℕ) := by
      exact_mod_cast (Nat.div_add_mod num den).symm
    rw [div_eq_iff hden.ne', add_mul, div_mul_cancel₀ _ hden.ne', heq]
    ring
  have hlt : ((num % den : ℕ) : ℝ) < den := Nat.cast_lt.2 (Nat.mod_lt num h)
  generalize num % den = r at *
  rw [hsplit, accuracyOfFraction]
  split_ifs with hzero
  · rw [hzero, Nat.cast_zero, zero_div, add_zero]
    exact stands_exact _
  · have hr : (0 : ℝ) < r / den := by
      have hr : (0 : ℝ) < r := Nat.cast_pos.2 (Nat.pos_of_ne_zero hzero)
      positivity
    rcases lt_trichotomy (2 * r) den with hbelow | htie | habove
    · have hhalf : (2 * r : ℝ) < den := by exact_mod_cast hbelow
      rw [Nat.compare_eq_lt.2 hbelow]
      refine ⟨r / den, by simp [ExtendedMantissa.ofMantissaAndAccuracy], hr.le, ?_, ?_⟩
      · rw [div_lt_iff₀ hden]
        linarith
      · simp [ExtendedMantissa.ofMantissaAndAccuracy, hr.ne']
    · have hhalf : (2 * r : ℝ) = den := by exact_mod_cast htie
      have heq : (r / den : ℝ) = 1 / 2 := by
        rw [div_eq_iff hden.ne']
        linarith
      rw [Nat.compare_eq_eq.2 htie, heq]
      exact ⟨0, by simp [ExtendedMantissa.ofMantissaAndAccuracy], le_rfl, by norm_num,
        by simp [ExtendedMantissa.ofMantissaAndAccuracy]⟩
    · have hhalf : (den : ℝ) < 2 * r := by exact_mod_cast habove
      have hmore : 1 / 2 < (r / den : ℝ) := by
        rw [lt_div_iff₀ hden]
        linarith
      have hless : (r / den : ℝ) < 1 := (div_lt_one hden).2 hlt
      rw [Nat.compare_eq_gt.2 habove]
      refine ⟨r / den - 1 / 2, ?_, by linarith, by linarith, ?_⟩
      · simp only [ExtendedMantissa.ofMantissaAndAccuracy, cond_true]
        ring
      · simp only [ExtendedMantissa.ofMantissaAndAccuracy, Bool.true_eq_false, false_iff]
        linarith

theorem rounds_div (hwide : Wide format) (ha : InFormat format a) (hb : InFormat format b)
    (hne : real b ≠ 0) (hv : |real a / real b| ≤ 2 ^ 100) :
    Rounds format (div format a b) (real a / real b) := by
  cases b with
  | infinity => exact hb.elim
  | notANumber => exact hb.elim
  | zero sign' => exact absurd rfl hne
  | finite sign' m' e' hm' =>
    cases a with
    | infinity => exact ha.elim
    | notANumber => exact ha.elim
    | zero sign =>
      have hreal : real (.zero sign) / real (.finite sign' m' e' hm') = 0 := zero_div _
      rw [hreal]
      exact rounds_self (a := .zero (sign / sign')) trivial
    | finite sign m e hm =>
      rw [div, divCore]
      generalize htarget : min (e - e')
        (format.targetExponent (totalExponent m e - totalExponent m' e')) = t
      generalize hk : (e - e' - t).toNat = k
      have hreal : real (.finite sign m e hm) / real (.finite sign' m' e' hm') =
          factor (sign / sign') * ((m <<< k : ℕ) / m' * 2 ^ t) := by
        have hshift := cast_shiftLeft_mul m k (t + k)
        have hexp : t + k = e - e' := by omega
        rw [add_sub_cancel_right, hexp, zpow_sub₀ two_ne_zero] at hshift
        have hquotient : (m <<< k : ℕ) / m' * (2 : ℝ) ^ t = m * (2 ^ e / 2 ^ e') / m' := by
          rw [div_mul_eq_mul_div, hshift]
        rw [real, real, factor_div, hquotient]
        have hden : (m' : ℝ) ≠ 0 := (Nat.cast_pos.2 hm').ne'
        have hfactor : factor sign' ≠ 0 := by
          rw [← abs_pos, abs_factor]
          exact one_pos
        field_simp
      have hpos : (0 : ℝ) ≤ (m <<< k : ℕ) / m' * 2 ^ t := by positivity
      rw [hreal] at hv ⊢
      rw [abs_mul, abs_factor, one_mul, abs_of_nonneg hpos] at hv
      refine rounds_roundWithAccuracy hwide _ (stands_quotient _ hm') ?_ hv
      -- The numerator was made so long that the quotient has all the bits of the format.
      rw [targetExponent_eq]
      by_cases hleast : t ≤ format.minExponent
      · omega
      · have hbits := mantissaBits_eq format
        have htotal : t ≤ m.log2 + e - (m'.log2 + e') - format.mantissaBits := by
          rw [Format.targetExponent, totalExponent, totalExponent] at htarget
          omega
        have hlog := log2_shiftLeft hm k
        have hpos : 0 < m <<< k := Nat.shiftLeft_pos_iff.2 hm
        have hquotient : 2 ^ format.mantissaBitsWithoutImplicit ≤ m <<< k / m' := by
          rw [Nat.le_div_iff_mul_le hm']
          calc 2 ^ format.mantissaBitsWithoutImplicit * m'
              ≤ 2 ^ format.mantissaBitsWithoutImplicit * 2 ^ (m'.log2 + 1) :=
                Nat.mul_le_mul_left _ Nat.lt_log2_self.le
            _ ≤ 2 ^ (m <<< k).log2 := by
                rw [← Nat.pow_add]
                exact Nat.pow_le_pow_right (by decide) (by omega)
            _ ≤ m <<< k := Nat.log2_self_le hpos.ne'
        have hlong := (Nat.le_log2 ((Nat.two_pow_pos _).trans_le hquotient).ne').2 hquotient
        omega

end FixedRaster.Binary
