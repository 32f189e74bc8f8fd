import FixedRaster.Proofs.Binary.Packing

/-!
# Rounding to a format

Shifting a mantissa to the right keeps track of what is cut off, so the rounded mantissa is a
nearest integer to the number before the shift. A rounding is then off by at most half a unit in
its last place: by at most `2⁻ᵖ` of the number itself, or by half the least number of the
format. What the format can hold is rounded to itself.
-/

namespace FixedRaster.Binary

open Float.Model (Format UnpackedFloat totalExponent)
open Float.Model.UnpackedFloat

def factor : Sign → ℝ
  | .positive => 1
  | .negative => -1

noncomputable def real : UnpackedFloat → ℝ
  | .finite sign mantissa exponent _ => factor sign * mantissa * 2 ^ exponent
  | _ => 0

noncomputable def grain : ℝ := 1 / 2 ^ 24

theorem grain_pos : 0 < grain := by
  rw [grain]
  positivity

theorem grain_lt : grain < 1 / 1000000 := by norm_num [grain]

section
variable {em : ExtendedMantissa} {x : ℝ}

/-- An extended mantissa stands for a number in units of its last place: the round bit for a half,
the sticky bit for whether there is a rest below that. -/
def Stands (em : ExtendedMantissa) (x : ℝ) : Prop :=
  ∃ rest : ℝ, x = em.mantissa + cond em.roundBit (1 / 2) 0 + rest ∧ 0 ≤ rest ∧ rest < 1 / 2 ∧
    (em.stickyBit = false ↔ rest = 0)

theorem stands_exact (m : ℕ) : Stands (.ofMantissaAndAccuracy m .exact) m :=
  ⟨0, by simp [ExtendedMantissa.ofMantissaAndAccuracy], le_rfl, by norm_num,
    by simp [ExtendedMantissa.ofMantissaAndAccuracy]⟩

theorem Stands.bounds (h : Stands em x) : em.mantissa ≤ x ∧ x < em.mantissa + 1 := by
  obtain ⟨rest, rfl, hrest, hrest', -⟩ := h
  cases em.roundBit with
  | true => constructor <;> simp only [cond_true] <;> linarith
  | false => constructor <;> simp only [cond_false] <;> linarith

theorem Stands.shiftRightOne (h : Stands em x) : Stands em.shiftRightOne (x / 2) := by
  obtain ⟨mantissa, roundBit, stickyBit⟩ := em
  obtain ⟨rest, rfl, hrest, hrest', hsticky⟩ := h
  have hhalves : (mantissa : ℝ) = 2 * (mantissa / 2 : ℕ) + (mantissa % 2 : ℕ) := by
    exact_mod_cast (Nat.div_add_mod mantissa 2).symm
  have hparity : ((mantissa % 2 : ℕ) : ℝ) / 2 = cond (mantissa % 2 != 0) (1 / 2) 0 := by
    rcases Nat.mod_two_eq_zero_or_one mantissa with heven | hodd
    · simp [heven]
    · simp [hodd]
  refine ⟨(cond roundBit (1 / 2) 0 + rest) / 2, ?_, ?_⟩
  · rw [ExtendedMantissa.shiftRightOne, ← hparity, hhalves]
    ring
  · rw [ExtendedMantissa.shiftRightOne, Bool.or_eq_false_iff, hsticky]
    cases roundBit with
    | true =>
      simp only [cond_true, Bool.true_eq_false, false_and, false_iff]
      exact ⟨by linarith, by linarith, by linarith⟩
    | false =>
      simp only [cond_false, true_and]
      refine ⟨by linarith, by linarith, ?_⟩
      constructor <;> intro <;> linarith

theorem shiftRight_succ (em : ExtendedMantissa) (n : ℕ) :
    em >>> (n + 1) = (em >>> n).shiftRightOne := rfl

theorem Stands.shiftRight (h : Stands em x) (n : ℕ) : Stands (em >>> n) (x / 2 ^ n) := by
  induction n with
  | zero =>
    rw [pow_zero, div_one]
    exact h
  | succ n ih =>
    rw [shiftRight_succ, pow_succ, ← div_div]
    exact ih.shiftRightOne

theorem mantissa_shiftRight (em : ExtendedMantissa) (n : ℕ) :
    (em >>> n).mantissa = em.mantissa / 2 ^ n := by
  induction n with
  | zero => exact (Nat.div_one _).symm
  | succ n ih =>
    rw [shiftRight_succ, ExtendedMantissa.shiftRightOne, ih, Nat.div_div_eq_div_mul, Nat.pow_succ]

theorem roundedMantissa_bounds (em : ExtendedMantissa) :
    em.mantissa ≤ em.roundedMantissa ∧ em.roundedMantissa ≤ em.mantissa + 1 := by
  obtain ⟨mantissa, roundBit, stickyBit⟩ := em
  cases roundBit <;> cases stickyBit <;>
    simp only [ExtendedMantissa.roundedMantissa, ExtendedMantissa.accuracy,
      Accuracy.roundToNearestEven] <;> omega

theorem Stands.abs_roundedMantissa_sub_le (h : Stands em x) :
    |(em.roundedMantissa : ℝ) - x| ≤ 1 / 2 := by
  obtain ⟨mantissa, roundBit, stickyBit⟩ := em
  obtain ⟨rest, rfl, hrest, hrest', hsticky⟩ := h
  rw [abs_le]
  cases roundBit with
  | false =>
    have hrounded : ExtendedMantissa.roundedMantissa ⟨mantissa, false, stickyBit⟩ = mantissa := by
      cases stickyBit <;> rfl
    simp only [hrounded, cond_false]
    constructor <;> linarith
  | true =>
    cases stickyBit with
    | false =>
      -- A tie goes either way.
      have hbounds := roundedMantissa_bounds ⟨mantissa, true, false⟩
      have hlow : (mantissa : ℝ) ≤ ExtendedMantissa.roundedMantissa ⟨mantissa, true, false⟩ := by
        exact_mod_cast hbounds.1
      have hhigh : (ExtendedMantissa.roundedMantissa ⟨mantissa, true, false⟩ : ℝ) ≤
          mantissa + 1 := by
        exact_mod_cast hbounds.2
      rw [hsticky.1 rfl]
      simp only [cond_true]
      constructor <;> linarith
    | true =>
      have hrounded : ExtendedMantissa.roundedMantissa ⟨mantissa, true, true⟩ = mantissa + 1 := rfl
      rw [hrounded]
      push_cast
      simp only [cond_true]
      constructor <;> linarith

end

theorem cast_apply (sign : Sign) (n : ℤ) : ((sign.apply n : ℤ) : ℝ) = factor sign * n := by
  cases sign <;> simp [Sign.apply, factor]

section
variable {format : Format} {sign : Sign} {m : ℕ} {e : ℤ} {accuracy : Accuracy}

theorem targetExponent_eq (format : Format) (m : ℕ) (e : ℤ) :
    format.targetExponent (totalExponent m e) =
      max (m.log2 + e - format.mantissaBitsWithoutImplicit) format.minExponent := by
  have hbits := mantissaBits_eq format
  rw [Format.targetExponent, totalExponent]
  omega

theorem shiftToTargetExponent_eq (h : e ≤ format.targetExponent (totalExponent m e)) :
    shiftToTargetExponent format m e accuracy =
      (ExtendedMantissa.ofMantissaAndAccuracy m accuracy >>>
          (format.targetExponent (totalExponent m e) - e).toNat,
        format.targetExponent (totalExponent m e)) := by
  simp only [shiftToTargetExponent, shiftToExponent]
  congr 1
  omega

theorem mantissa_ofMantissaAndAccuracy (m : ℕ) (accuracy : Accuracy) :
    (ExtendedMantissa.ofMantissaAndAccuracy m accuracy).mantissa = m := by
  rcases accuracy with _ | (_ | _ | _) <;> rfl

theorem shiftToTargetExponent_of_lt (hm : m < 2 ^ format.mantissaBits)
    (he : format.minExponent ≤ e) :
    (shiftToTargetExponent format m e .exact).1.mantissa = m ∧
      (shiftToTargetExponent format m e .exact).2 = e := by
  have hlog : m.log2 ≤ format.mantissaBitsWithoutImplicit := by
    rcases Nat.eq_zero_or_pos m with rfl | hpos
    · exact Nat.zero_le _
    · have hlt := (Nat.log2_lt hpos.ne').2 hm
      rw [mantissaBits_eq] at hlt
      omega
  have htarget := targetExponent_eq format m e
  have hshift : (format.targetExponent (totalExponent m e) - e).toNat = 0 := by omega
  rw [shiftToTargetExponent, shiftToExponent, hshift]
  exact ⟨rfl, by omega⟩

theorem shiftToTargetExponent_carry (he : format.minExponent ≤ e) :
    (shiftToTargetExponent format (2 ^ format.mantissaBits) e .exact).1.mantissa =
        2 ^ format.mantissaBitsWithoutImplicit ∧
      (shiftToTargetExponent format (2 ^ format.mantissaBits) e .exact).2 = e + 1 := by
  have htarget := targetExponent_eq format (2 ^ format.mantissaBits) e
  have hbits := mantissaBits_eq format
  rw [Nat.log2_two_pow] at htarget
  have hshift :
      (format.targetExponent (totalExponent (2 ^ format.mantissaBits) e) - e).toNat = 1 := by
    omega
  rw [shiftToTargetExponent, shiftToExponent, hshift, mantissa_shiftRight]
  refine ⟨?_, rfl⟩
  rw [mantissa_ofMantissaAndAccuracy, hbits, Nat.pow_succ, pow_one]
  omega

def carried (format : Format) (sign : Sign) (r : ℕ) (t : ℤ) : UnpackedFloat :=
  let final := shiftToTargetExponent format r t .exact
  if h : final.1.mantissa = 0 then .zero sign
  else .finite sign final.1.mantissa final.2 (Nat.pos_of_ne_zero h)

theorem roundWithAccuracy_eq (format : Format) (sign : Sign) (m : ℕ) (e : ℤ)
    (accuracy : Accuracy) :
    roundWithAccuracy format sign m e accuracy =
      carried format sign (shiftToTargetExponent format m e accuracy).1.roundedMantissa
        (shiftToTargetExponent format m e accuracy).2 := rfl

theorem carried_spec (sign : Sign) {r : ℕ} {t : ℤ} (hr : r ≤ 2 ^ format.mantissaBits)
    (ht : format.minExponent ≤ t)
    (hfull : 2 ^ format.mantissaBitsWithoutImplicit ≤ r ∨ t = format.minExponent)
    (htop : t + 1 < exponentTop format) :
    InFormat format (carried format sign r t) ∧
      real (carried format sign r t) = factor sign * r * 2 ^ t := by
  have hbits := mantissaBits_eq format
  rcases hr.lt_or_eq with hlt | rfl
  · obtain ⟨hmantissa, hexponent⟩ := shiftToTargetExponent_of_lt hlt ht
    rw [carried]
    simp only [hmantissa, hexponent]
    split_ifs with hzero
    · rw [hzero, Nat.cast_zero, mul_zero, zero_mul]
      exact ⟨trivial, rfl⟩
    · exact ⟨⟨⟨hlt, ht, hfull⟩, by omega⟩, rfl⟩
  · obtain ⟨hmantissa, hexponent⟩ := shiftToTargetExponent_carry ht
    have hpos := Nat.two_pow_pos format.mantissaBitsWithoutImplicit
    rw [carried]
    simp only [hmantissa, hexponent, hpos.ne', dif_neg, not_false_eq_true]
    refine ⟨⟨⟨?_, by omega, .inl le_rfl⟩, htop⟩, ?_⟩
    · rw [hbits]
      exact Nat.pow_lt_pow_right (by decide) (by omega)
    · rw [real, hbits, zpow_add_one₀ two_ne_zero]
      push_cast
      ring

structure Wide (format : Format) : Prop where
  least_nonpos : format.minExponent ≤ 0
  least : format.minExponent + 1 < exponentTop format
  top : 101 < exponentTop format + format.mantissaBitsWithoutImplicit

/-- A number of the format that is as close to another one as half a last place. The last place
`2ᵗ` is the least one of the format or that of a full mantissa. -/
structure Rounds (format : Format) (value : UnpackedFloat) (v : ℝ) : Prop where
  inFormat : InFormat format value
  near : ∃ t : ℤ, |real value - v| ≤ 2 ^ t / 2 ∧
    (t = format.minExponent ∨ 2 ^ (t + format.mantissaBitsWithoutImplicit) ≤ |v|)

theorem Rounds.abs_sub_le {u : UnpackedFloat} {v : ℝ} (h : Rounds format u v) :
    |real u - v| ≤ |v| / 2 ^ format.mantissaBits + 2 ^ format.minExponent / 2 := by
  obtain ⟨t, hnear, rfl | hfull⟩ := h.near
  · exact hnear.trans (le_add_of_nonneg_left (div_nonneg (abs_nonneg v) (by positivity)))
  · refine hnear.trans (le_add_of_le_of_nonneg ?_ (by positivity))
    rw [mantissaBits_eq, pow_succ, ← div_div]
    gcongr
    rw [zpow_add₀ two_ne_zero, zpow_natCast] at hfull
    rwa [le_div_iff₀ (by positivity)]

/-- The binade of the number gives twice the precision that its size does at the worst. -/
theorem Rounds.abs_sub_le_of_lt {u : UnpackedFloat} {v : ℝ} (h : Rounds format u v) {k : ℕ}
    (hv : |v| < 2 ^ k) :
    |real u - v| ≤ 2 ^ k / 2 ^ (format.mantissaBits + 1) + 2 ^ format.minExponent / 2 := by
  obtain ⟨t, hnear, rfl | hfull⟩ := h.near
  · exact hnear.trans (le_add_of_nonneg_left (by positivity))
  · refine hnear.trans (le_add_of_le_of_nonneg ?_ (by positivity))
    have hlt := hfull.trans_lt hv
    rw [← zpow_natCast, zpow_lt_zpow_iff_right₀ one_lt_two] at hlt
    have hlast : (2 : ℝ) ^ t ≤ 2 ^ ((k : ℤ) - format.mantissaBits) :=
      zpow_le_zpow_right₀ one_le_two (by rw [mantissaBits_eq]; push_cast; omega)
    rw [zpow_sub₀ two_ne_zero, zpow_natCast, zpow_natCast] at hlast
    rw [pow_succ, ← div_div]
    linarith

theorem Rounds.abs_le {u : UnpackedFloat} {v : ℝ} (hwide : Wide format) (h : Rounds format u v) :
    |real u| ≤ 2 * |v| + 1 := by
  have htri := abs_add_le (real u - v) v
  have hscale : |v| / 2 ^ format.mantissaBits ≤ |v| :=
    div_le_self (abs_nonneg v) (one_le_pow₀ one_le_two)
  have hleast : (2 : ℝ) ^ format.minExponent ≤ 1 :=
    zpow_le_one_of_nonpos₀ one_le_two hwide.least_nonpos
  rw [sub_add_cancel] at htri
  linarith [h.abs_sub_le]

theorem log2_add_le {x : ℝ} (hm : 0 < m) (hx : (m : ℝ) ≤ x) :
    (2 : ℝ) ^ (m.log2 + e) ≤ x * 2 ^ e := by
  have hlog : ((2 ^ m.log2 : ℕ) : ℝ) ≤ x :=
    le_trans (Nat.cast_le.2 (Nat.log2_self_le hm.ne')) hx
  rw [zpow_add₀ two_ne_zero, zpow_natCast]
  push_cast at hlog
  exact mul_le_mul_of_nonneg_right hlog (by positivity)

theorem div_pow_lt {n k : ℕ} (h : m.log2 < k + n) : m / 2 ^ n < 2 ^ k := by
  rw [Nat.div_lt_iff_lt_mul (Nat.two_pow_pos n), ← Nat.pow_add]
  exact lt_of_lt_of_le Nat.lt_log2_self (Nat.pow_le_pow_right (by decide) h)

theorem pow_le_div {n k : ℕ} (hm : 0 < m) (h : m.log2 = k + n) : 2 ^ k ≤ m / 2 ^ n := by
  rw [Nat.le_div_iff_mul_le (Nat.two_pow_pos n), ← Nat.pow_add, ← h]
  exact Nat.log2_self_le hm.ne'

theorem abs_factor (sign : Sign) : |factor sign| = 1 := by
  cases sign <;> simp [factor]

theorem targetExponent_cases (he : e ≤ format.targetExponent (totalExponent m e)) :
    format.targetExponent (totalExponent m e) = format.minExponent ∨
      0 < m ∧ format.targetExponent (totalExponent m e) =
        m.log2 + e - format.mantissaBitsWithoutImplicit := by
  have htarget := targetExponent_eq format m e
  have hmb := format.hm
  have hbits := mantissaBits_eq format
  rcases Nat.eq_zero_or_pos m with rfl | hpos
  · rw [Nat.log2_zero] at htarget
    omega
  · omega

theorem targetExponent_lt_top (hwide : Wide format) {x : ℝ} (hx : (m : ℝ) ≤ x)
    (he : e ≤ format.targetExponent (totalExponent m e)) (hv : x * 2 ^ e ≤ 2 ^ 100) :
    format.targetExponent (totalExponent m e) + 1 < exponentTop format := by
  have hleast := hwide.least
  have htop := hwide.top
  rcases targetExponent_cases he with hmin | ⟨hpos, hfull⟩
  · omega
  · have hle := (log2_add_le hpos hx).trans hv
    rw [← zpow_natCast, zpow_le_zpow_iff_right₀ one_lt_two] at hle
    omega

theorem targetExponent_eq_or_le {x : ℝ} (hx : (m : ℝ) ≤ x)
    (he : e ≤ format.targetExponent (totalExponent m e)) :
    format.targetExponent (totalExponent m e) = format.minExponent ∨
      2 ^ (format.targetExponent (totalExponent m e) + format.mantissaBitsWithoutImplicit) ≤
        x * 2 ^ e := by
  refine (targetExponent_cases he).imp_right fun ⟨hpos, hfull⟩ => ?_
  rw [hfull, sub_add_cancel]
  exact log2_add_le hpos hx

theorem rounds_roundWithAccuracy (hwide : Wide format) (sign : Sign) {x : ℝ}
    (hx : Stands (.ofMantissaAndAccuracy m accuracy) x)
    (he : e ≤ format.targetExponent (totalExponent m e)) (hv : x * 2 ^ e ≤ 2 ^ 100) :
    Rounds format (roundWithAccuracy format sign m e accuracy) (factor sign * (x * 2 ^ e)) := by
  have hbits := mantissaBits_eq format
  have hlow := hx.bounds.1
  rw [mantissa_ofMantissaAndAccuracy] at hlow
  have htarget := targetExponent_eq format m e
  have hcases := targetExponent_cases he
  have hrange := targetExponent_lt_top hwide hlow he hv
  have hunit := targetExponent_eq_or_le hlow he
  rw [roundWithAccuracy_eq, shiftToTargetExponent_eq he]
  generalize hn : (format.targetExponent (totalExponent m e) - e).toNat = n
  generalize format.targetExponent (totalExponent m e) = t at *
  have hmantissa := mantissa_shiftRight (ExtendedMantissa.ofMantissaAndAccuracy m accuracy) n
  have hbounds := roundedMantissa_bounds (ExtendedMantissa.ofMantissaAndAccuracy m accuracy >>> n)
  have hnear := (hx.shiftRight n).abs_roundedMantissa_sub_le
  rw [hmantissa, mantissa_ofMantissaAndAccuracy] at hbounds
  generalize (ExtendedMantissa.ofMantissaAndAccuracy m accuracy >>> n).roundedMantissa = r at *
  have hsize : m / 2 ^ n < 2 ^ format.mantissaBits := div_pow_lt (by omega)
  have hfull : 2 ^ format.mantissaBitsWithoutImplicit ≤ r ∨ t = format.minExponent := by
    rcases hcases with hmin | ⟨hpos, hfull⟩
    · exact .inr hmin
    · exact .inl ((pow_le_div hpos (by omega)).trans hbounds.1)
  obtain ⟨hin, hreal⟩ := carried_spec sign (by omega) (by omega) hfull hrange
  refine ⟨hin, ?_⟩
  have hscale : x * 2 ^ e = x / 2 ^ n * 2 ^ t := by
    have ht : t = e + n := by omega
    rw [ht, zpow_add₀ two_ne_zero, zpow_natCast]
    field_simp
  have hpos : (0 : ℝ) < 2 ^ t := by positivity
  have herror : |factor sign * r * 2 ^ t - factor sign * (x * 2 ^ e)| ≤ 2 ^ t / 2 := by
    rw [hscale, mul_assoc, ← mul_sub, ← sub_mul, abs_mul, abs_mul, abs_factor, one_mul,
      abs_of_pos hpos]
    exact (mul_le_mul_of_nonneg_right hnear hpos.le).trans_eq (by ring)
  have hx0 : 0 ≤ x * 2 ^ e := mul_nonneg ((Nat.cast_nonneg m).trans hlow) (by positivity)
  rw [hreal, abs_mul, abs_factor, one_mul, abs_of_nonneg hx0]
  exact ⟨t, herror, hunit⟩

theorem log2_shiftLeft (hm : 0 < m) (k : ℕ) : (m <<< k).log2 = m.log2 + k := by
  have hpos := Nat.two_pow_pos k
  rw [Nat.shiftLeft_eq, Nat.log2_eq_iff (Nat.mul_pos hm hpos).ne', Nat.add_right_comm, Nat.pow_add,
    Nat.pow_add]
  exact ⟨Nat.mul_le_mul_right _ (Nat.log2_self_le hm.ne'),
    Nat.mul_lt_mul_of_pos_right Nat.lt_log2_self hpos⟩

theorem totalExponent_shiftLeft (hm : 0 < m) (k : ℕ) :
    totalExponent (m <<< k) (e - k) = totalExponent m e := by
  rw [totalExponent, totalExponent, log2_shiftLeft hm]
  omega

theorem cast_shiftLeft_mul (m k : ℕ) (e : ℤ) :
    ((m <<< k : ℕ) : ℝ) * 2 ^ (e - k) = m * 2 ^ e := by
  rw [Nat.shiftLeft_eq, zpow_sub₀ two_ne_zero, zpow_natCast]
  push_cast
  field_simp

theorem round_eq (format : Format) (sign : Sign) (m : ℕ) (e : ℤ) :
    round format sign m e =
      roundWithAccuracy format sign
        (m <<< (e - format.targetExponent (totalExponent m e)).toNat)
        (e - (e - format.targetExponent (totalExponent m e)).toNat) .exact := rfl

theorem rounds_round (hwide : Wide format) (sign : Sign) (hm : 0 < m)
    (hv : (m : ℝ) * 2 ^ e ≤ 2 ^ 100) :
    Rounds format (round format sign m e) (factor sign * (m * 2 ^ e)) := by
  rw [round_eq]
  generalize hk : (e - format.targetExponent (totalExponent m e)).toNat = k
  rw [← cast_shiftLeft_mul m k e] at hv ⊢
  refine rounds_roundWithAccuracy hwide sign (stands_exact _) ?_ hv
  rw [totalExponent_shiftLeft hm]
  omega

theorem real_round_of_lt (sign : Sign) (hm : 0 < m) (hlt : m < 2 ^ format.mantissaBits)
    (he : format.minExponent ≤ e) (htop : e + 1 < exponentTop format) :
    InFormat format (round format sign m e) ∧
      real (round format sign m e) = factor sign * m * 2 ^ e := by
  have hbits := mantissaBits_eq format
  have htarget := targetExponent_eq format m e
  have hlog := (Nat.log2_lt hm.ne').2 hlt
  rw [round_eq]
  generalize hk : (e - format.targetExponent (totalExponent m e)).toNat = k
  have hshifted : e - k = format.targetExponent (totalExponent m e) := by omega
  have htotal := totalExponent_shiftLeft (e := e) hm k
  rw [roundWithAccuracy_eq, shiftToTargetExponent_eq (by rw [htotal, hshifted]), htotal, hshifted,
    sub_self, Int.toNat_zero]
  have hlog' := log2_shiftLeft hm k
  have hrounded : (ExtendedMantissa.ofMantissaAndAccuracy (m <<< k) .exact >>> 0).roundedMantissa =
      m <<< k := rfl
  have hpos : 0 < m <<< k := Nat.shiftLeft_pos_iff.2 hm
  have hsmall : m <<< k < 2 ^ format.mantissaBits := (Nat.log2_lt hpos.ne').1 (by omega)
  have hfull : 2 ^ format.mantissaBitsWithoutImplicit ≤ m <<< k ∨
      format.targetExponent (totalExponent m e) = format.minExponent := by
    by_cases hmin : format.targetExponent (totalExponent m e) = format.minExponent
    · exact .inr hmin
    · exact .inl ((Nat.le_log2 hpos.ne').1 (by omega))
  obtain ⟨hin, hreal⟩ := carried_spec sign hsmall.le (by omega) hfull (by omega)
  rw [hrounded]
  refine ⟨hin, ?_⟩
  rw [hreal, ← hshifted, mul_assoc, cast_shiftLeft_mul, mul_assoc]

end

end FixedRaster.Binary
