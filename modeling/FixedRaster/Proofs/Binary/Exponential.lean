import FixedRaster.Proofs.Binary.Near

/-!
# The exponential function near that of the reals

The terms of the series are rounded down one after the other, each from the one before, and stay
within four units in the last place of the exact ones; so does the sum of the logarithm
within one unit a term. What remains after 64 terms is far below the rounding to double precision.
-/

namespace FixedRaster.Binary

open Float.Model (Format UnpackedFloat totalExponent)
open Float.Model.UnpackedFloat

theorem one_eq_pow : one = 2 ^ 256 := by rw [one, Nat.one_shiftLeft, fractionBits]

theorem cast_one_pos : (0 : ℝ) < one := by
  rw [one_eq_pow]
  positivity

theorem floor_div_bounds (a b : ℕ) :
    (a / b : ℝ) - 1 ≤ (a / b : ℕ) ∧ ((a / b : ℕ) : ℝ) ≤ a / b := by
  have hlow := Nat.lt_floor_add_one (a / b : ℝ)
  rw [Nat.floor_div_eq_div] at hlow
  exact ⟨by linarith, Nat.cast_div_le⟩

theorem lnTwoTerms_bounds (n : ℕ) :
    one * ∑ i ∈ Finset.range n, (1 / 2 : ℝ) ^ (i + 1) / (i + 1) - n ≤ lnTwoTerms n ∧
      (lnTwoTerms n : ℝ) ≤ one * ∑ i ∈ Finset.range n, (1 / 2 : ℝ) ^ (i + 1) / (i + 1) := by
  induction n with
  | zero => simp [lnTwoTerms]
  | succ n ih =>
    obtain ⟨hlow, hhigh⟩ := floor_div_bounds one ((n + 1) * (1 <<< (n + 1)))
    have hterm : (one : ℝ) / ((n + 1) * (1 <<< (n + 1)) : ℕ) =
        one * ((1 / 2) ^ (n + 1) / (n + 1)) := by
      rw [Nat.one_shiftLeft]
      push_cast
      rw [one_div, inv_pow]
      field_simp
    rw [hterm] at hlow hhigh
    rw [lnTwoTerms, Finset.sum_range_succ, mul_add]
    push_cast at hlow hhigh ⊢
    constructor <;> linarith [ih.1, ih.2]

theorem abs_lnTwo_sub_le : |(lnTwo : ℝ) / one - Real.log 2| ≤ 1 / 2 ^ 200 := by
  have hseries := Real.abs_log_sub_add_sum_range_le (x := 1 / 2) (by norm_num) 256
  have hlog : Real.log (1 - 1 / 2) = -Real.log 2 := by
    rw [← Real.log_inv]
    norm_num
  obtain ⟨hlow, hhigh⟩ := lnTwoTerms_bounds 256
  rw [hlog] at hseries
  generalize ∑ i ∈ Finset.range 256, (1 / 2 : ℝ) ^ (i + 1) / (i + 1) = s at *
  have hquotient : s - 256 / one ≤ (lnTwo : ℝ) / one ∧ (lnTwo : ℝ) / one ≤ s := by
    have hpos := cast_one_pos
    rw [lnTwo, sub_le_iff_le_add, ← add_div, le_div_iff₀ hpos, div_le_iff₀ hpos]
    push_cast at hlow
    constructor <;> linarith
  have hsmall : (256 : ℝ) / one ≤ 1 / 2 ^ 201 := by
    rw [one_eq_pow]
    norm_num
  have hrest : |(1 / 2 : ℝ)| ^ (256 + 1) / (1 - |1 / 2|) ≤ 1 / 2 ^ 201 := by
    rw [abs_of_pos one_half_pos, sub_half, pow_succ, mul_div_assoc, div_self one_half_pos.ne',
      mul_one, ← one_div_pow]
    exact pow_le_pow_of_le_one one_half_pos.le (by norm_num) (by norm_num)
  obtain ⟨hs, hs'⟩ := abs_le.1 (hseries.trans hrest)
  rw [abs_le]
  constructor <;> linarith

/-- The first terms of `Σ xᵏ / k!`, where the first of them is `t` and its successor is divided by
`n`. -/
noncomputable def termsFrom (x : ℝ) : (count n : ℕ) → (t : ℝ) → ℝ
  | 0, _, _ => 0
  | count + 1, n, t => t + termsFrom x count (n + 1) (t * x / n)

theorem termsFrom_eq (x : ℝ) (count n : ℕ) (t : ℝ) :
    termsFrom x count (n + 1) t =
      ∑ k ∈ Finset.range count, t * x ^ k * n.factorial / (n + k).factorial := by
  induction count generalizing n t with
  | zero => rfl
  | succ count ih =>
    rw [termsFrom, ih, Finset.sum_range_succ', add_comm]
    congr 1
    · apply Finset.sum_congr rfl
      intro k _
      rw [Nat.factorial_succ n, Nat.add_right_comm n 1 k, Nat.add_assoc n k 1, pow_succ]
      push_cast
      field_simp
    · rw [pow_zero, mul_one, Nat.add_zero, mul_div_assoc, div_self (Nat.cast_ne_zero.2
        n.factorial_ne_zero), mul_one]

theorem seriesFrom_bounds {r : ℕ} (hr : (r : ℝ) / one ≤ 3 / 4) {count n term : ℕ} (hn : 0 < n)
    {t : ℝ} (hlow : one * t - 4 ≤ term) (hhigh : (term : ℝ) ≤ one * t) :
    one * termsFrom (r / one) count n t - 4 * count ≤ seriesFrom r count n term ∧
      (seriesFrom r count n term : ℝ) ≤ one * termsFrom (r / one) count n t := by
  induction count generalizing n term t with
  | zero => simp [seriesFrom, termsFrom]
  | succ count ih =>
    have hone := cast_one_pos
    have hcast : (1 : ℝ) ≤ n := Nat.one_le_cast.2 hn
    have hx : 0 ≤ (r : ℝ) / one := div_nonneg (Nat.cast_nonneg r) hone.le
    have hratio : (r : ℝ) / one / n ≤ 3 / 4 := (div_le_self hx hcast).trans hr
    have hratio0 : 0 ≤ (r : ℝ) / one / n := div_nonneg hx (Nat.cast_nonneg n)
    obtain ⟨hdown, hup⟩ := floor_div_bounds (term * r) (one * n)
    have hterm : ((term * r : ℕ) : ℝ) / (one * n : ℕ) = term * ((r : ℝ) / one / n) := by
      rw [Nat.cast_mul, Nat.cast_mul, mul_div_assoc, div_div]
    rw [hterm] at hdown hup
    have hnext : t * (r / one) / n = t * ((r : ℝ) / one / n) := mul_div_assoc _ _ _
    have hlower := mul_le_mul_of_nonneg_right hlow hratio0
    have hupper := mul_le_mul_of_nonneg_right hhigh hratio0
    have hlow' : one * (t * ((r : ℝ) / one / n)) - 4 ≤ (term * r / (one * n) : ℕ) := by linarith
    have hhigh' : ((term * r / (one * n) : ℕ) : ℝ) ≤ one * (t * ((r : ℝ) / one / n)) := by
      linarith
    obtain ⟨hrest, hrest'⟩ := ih (Nat.succ_pos n) hlow' hhigh'
    rw [seriesFrom, termsFrom, hnext]
    push_cast
    constructor <;> linarith

theorem abs_series_sub_le {r : ℕ} (hr : (r : ℝ) / one ≤ 3 / 4) :
    |(series r : ℝ) / one - Real.exp (r / one)| ≤ 1 / 2 ^ 200 := by
  have hone := cast_one_pos
  have hx : 0 ≤ (r : ℝ) / one := div_nonneg (Nat.cast_nonneg r) hone.le
  have hbounds : one * termsFrom (r / one) 64 1 1 - 4 * (64 : ℕ) ≤ series r ∧
      (series r : ℝ) ≤ one * termsFrom (r / one) 64 1 1 :=
    seriesFrom_bounds hr one_pos (by linarith) (by rw [mul_one])
  have hterms : termsFrom (r / one) 64 1 1 =
      ∑ k ∈ Finset.range 64, ((r : ℝ) / one) ^ k / k.factorial := by
    rw [termsFrom_eq _ 64 0]
    simp only [one_mul, Nat.factorial_zero, Nat.cast_one, mul_one, zero_add]
  have hexp := Real.exp_bound (x := (r : ℝ) / one) (by rw [abs_of_nonneg hx]; linarith)
    (show 0 < 64 by norm_num)
  rw [← hterms, abs_of_nonneg hx] at hexp
  have hrest : ((r : ℝ) / one) ^ 64 * ((64 : ℕ).succ / ((64 : ℕ).factorial * (64 : ℕ))) ≤
      1 / 2 ^ 201 := by
    have hpow : ((r : ℝ) / one) ^ 64 ≤ 1 := pow_le_one₀ hx (by linarith)
    have hlast : ((64 : ℕ).succ : ℝ) / ((64 : ℕ).factorial * (64 : ℕ)) ≤ 1 / 2 ^ 201 := by
      norm_num [Nat.factorial]
    exact (mul_le_mul hpow hlast (by positivity) zero_le_one).trans_eq (one_mul _)
  have hsmall : (4 * 64 : ℝ) / one ≤ 1 / 2 ^ 201 := by
    rw [one_eq_pow]
    norm_num
  have hquotient : termsFrom (r / one) 64 1 1 - 4 * 64 / one ≤ (series r : ℝ) / one ∧
      (series r : ℝ) / one ≤ termsFrom (r / one) 64 1 1 := by
    rw [sub_le_iff_le_add, ← add_div, le_div_iff₀ hone, div_le_iff₀ hone]
    push_cast at hbounds
    constructor <;> linarith
  obtain ⟨hs, hs'⟩ := abs_le.1 (hexp.trans hrest)
  rw [abs_le]
  constructor <;> linarith

theorem series_pos (r : ℕ) : 0 < series r := by
  have hone : 0 < one := by
    rw [one_eq_pow]
    exact Nat.two_pow_pos 256
  exact Nat.add_pos_left hone _

theorem fit_spec {u : UnpackedFloat} (h : InFormat .binary64 u) (hv : |real u| ≤ 2 ^ 100) :
    InFormat .binary64 (fit .binary64 u) ∧ real (fit .binary64 u) = real u := by
  cases u with
  | infinity => exact h.elim
  | notANumber => exact h.elim
  | zero sign => exact ⟨trivial, rfl⟩
  | finite sign m e hm =>
    have hpos : (0 : ℝ) ≤ m * 2 ^ e := by positivity
    have hscale : (2 : ℝ) ^ e ≤ m * 2 ^ e :=
      le_mul_of_one_le_left (by positivity) (Nat.one_le_cast.2 hm)
    rw [real, mul_assoc, abs_mul, abs_factor, one_mul, abs_of_nonneg hpos] at hv
    have hexp := hscale.trans hv
    rw [← zpow_natCast, zpow_le_zpow_iff_right₀ one_lt_two] at hexp
    have hmost : exponentTop .binary64 = 972 := by decide
    exact real_round_of_lt sign hm h.1.lt h.1.le (by omega)

theorem cast_toFixed {m : ℕ} {e : ℤ} (he : -256 ≤ e) : (toFixed m e : ℝ) = m * 2 ^ e * one := by
  have hbits : (fractionBits : ℤ) = 256 := rfl
  obtain ⟨n, hn⟩ := Int.eq_ofNat_of_zero_le (show 0 ≤ e + fractionBits by omega)
  have hscale : (2 : ℝ) ^ e * 2 ^ 256 = 2 ^ n := by
    rw [← zpow_natCast, ← zpow_natCast, ← zpow_add₀ two_ne_zero]
    congr 1
  rw [toFixed, if_pos (by omega), hn, Int.toNat_natCast, Nat.shiftLeft_eq, one_eq_pow, mul_assoc,
    Nat.cast_mul, Nat.cast_pow, Nat.cast_pow, Nat.cast_two, hscale]

/-- The argument is brought below the logarithm of two by a multiple of it. -/
theorem exists_expValue {m : ℕ} {e : ℤ} (hm : 0 < m) (he : -256 ≤ e)
    (hhigh : (m : ℝ) * 2 ^ e ≤ 8) :
    ∃ k r : ℕ, expValue (.finite .negative m e hm) = expReduced (-(k : ℤ)) r ∧ k ≤ 16 ∧
      (r : ℝ) / one ≤ 3 / 4 ∧ (r : ℝ) / one = k * (lnTwo / one) - m * 2 ^ e := by
  have hone := cast_one_pos
  have htotal : ¬ 10 < totalExponent m e := by
    have hle := (log2_add_le (e := e) hm le_rfl).trans hhigh
    rw [show (8 : ℝ) = 2 ^ (3 : ℤ) by norm_num, zpow_le_zpow_iff_right₀ one_lt_two] at hle
    rw [totalExponent]
    omega
  obtain ⟨hlog, hlog'⟩ := abs_le.1 abs_lnTwo_sub_le
  have hlow := Real.log_two_gt_d9
  have hlow' := Real.log_two_lt_d9
  have hln0 : 1 / 2 < (lnTwo : ℝ) / one := by linarith
  have hln1 : (lnTwo : ℝ) / one < 3 / 4 := by linarith
  have hln : 0 < lnTwo := by
    rw [lt_div_iff₀ hone] at hln0
    exact Nat.cast_pos.1 ((mul_pos one_half_pos hone).trans hln0)
  have hfixed := cast_toFixed (m := m) he
  have hsplit := Nat.div_add_mod (toFixed m e + lnTwo - 1) lnTwo
  have hrest := Nat.mod_lt (toFixed m e + lnTwo - 1) hln
  rw [expValue, if_neg htotal]
  generalize (toFixed m e + lnTwo - 1) / lnTwo = k at hsplit ⊢
  rw [Nat.mul_comm] at hsplit
  have hge : toFixed m e ≤ k * lnTwo := by omega
  have hlt : k * lnTwo < toFixed m e + lnTwo := by omega
  have hrest : ((k * lnTwo - toFixed m e : ℕ) : ℝ) / one = k * (lnTwo / one) - m * 2 ^ e := by
    rw [Nat.cast_sub hge, hfixed, sub_div, mul_div_cancel_right₀ _ hone.ne', Nat.cast_mul,
      mul_div_assoc]
  have hltcast : (k : ℝ) * (lnTwo / one) < m * 2 ^ e + lnTwo / one := by
    rw [← mul_div_assoc, div_lt_iff₀ hone, add_mul, div_mul_cancel₀ _ hone.ne', ← hfixed]
    exact_mod_cast hlt
  refine ⟨k, k * lnTwo - toFixed m e, rfl, ?_, by rw [hrest]; linarith, hrest⟩
  by_contra hk
  have hcast : (17 : ℝ) ≤ k := by exact_mod_cast Nat.lt_of_not_le hk
  generalize (lnTwo : ℝ) / one = l at *
  have hscale := mul_le_mul_of_nonneg_right hcast (one_half_pos.trans hln0).le
  linarith

theorem abs_scaled_sub_le {k : ℕ} {s y l a : ℝ} (hs : |s - Real.exp y| ≤ 1 / 2 ^ 200)
    (hlog : |l - Real.log 2| ≤ 1 / 2 ^ 200) (hln : 0 ≤ l) (hk : k ≤ 16) (hy : y ≤ 3 / 4)
    (hsplit : y = k * l - a) : |s * 2 ^ (-(k : ℤ)) - Real.exp (-a)| ≤ 1 / 2 ^ 190 := by
  have hkcast : (k : ℝ) ≤ 16 := by exact_mod_cast hk
  have hE : Real.exp y ≤ 3 :=
    (Real.exp_le_exp.2 (show y ≤ 1 by linarith)).trans (by linarith [Real.exp_one_lt_d9])
  have hpow : (2 : ℝ) ^ (-(k : ℤ)) = Real.exp (-(k * l)) * Real.exp (k * (l - Real.log 2)) := by
    rw [← Real.exp_add, ← Real.rpow_intCast, Real.rpow_def_of_pos two_pos]
    congr 1
    push_cast
    ring
  have hexp : Real.exp (-a) = Real.exp y * Real.exp (-(k * l)) := by
    rw [← Real.exp_add, hsplit]
    congr 1
    ring
  have hdrift : |(k : ℝ) * (l - Real.log 2)| ≤ 16 / 2 ^ 200 := by
    rw [abs_mul, Nat.abs_cast, div_eq_mul_one_div]
    exact mul_le_mul hkcast hlog (abs_nonneg _) (by norm_num)
  have hone := (Real.abs_exp_sub_one_le (hdrift.trans (by norm_num))).trans
    (mul_le_mul_of_nonneg_left hdrift zero_le_two)
  have hw : Real.exp (-(k * l)) ≤ 1 := Real.exp_le_one_iff.2 (neg_nonpos.2 (by positivity))
  have ht : (2 : ℝ) ^ (-(k : ℤ)) ≤ 1 :=
    zpow_le_one_of_nonpos₀ one_le_two (by omega)
  have hform : s * 2 ^ (-(k : ℤ)) - Real.exp (-a) = (s - Real.exp y) * 2 ^ (-(k : ℤ)) +
      Real.exp y * Real.exp (-(k * l)) * (Real.exp (k * (l - Real.log 2)) - 1) := by
    rw [hexp, hpow]
    ring
  have hleft : |(s - Real.exp y) * 2 ^ (-(k : ℤ))| ≤ 1 / 2 ^ 200 * 1 := by
    rw [abs_mul, abs_of_pos (show (0 : ℝ) < 2 ^ (-(k : ℤ)) by positivity)]
    gcongr
  have hright : |Real.exp y * Real.exp (-(k * l)) * (Real.exp (k * (l - Real.log 2)) - 1)| ≤
      3 * 1 * (2 * (16 / 2 ^ 200)) := by
    rw [abs_mul, abs_mul, Real.abs_exp, Real.abs_exp]
    gcongr
  rw [hform]
  refine (abs_add_le _ _).trans ((add_le_add hleft hright).trans ?_)
  norm_num

theorem near_exp_of_reduced {k r : ℕ} {a : ℝ} {x : Float}
    (hx : exp x = ofValue (expReduced (-(k : ℤ)) r)) (ha : 0 ≤ a) (hk : k ≤ 16)
    (hr : (r : ℝ) / one ≤ 3 / 4) (hsplit : (r : ℝ) / one = k * (lnTwo / one) - a) :
    Near (exp x) (Real.exp (-a)) (1 / 2 ^ 52) := by
  have hnear := abs_scaled_sub_le (abs_series_sub_le hr) abs_lnTwo_sub_le
    (div_nonneg (Nat.cast_nonneg lnTwo) cast_one_pos.le) hk hr hsplit
  have hle : Real.exp (-a) ≤ 1 := Real.exp_le_one_iff.2 (neg_nonpos.2 ha)
  have hpos := series_pos r
  have hscaled : (series r : ℝ) * 2 ^ (-(k : ℤ) - fractionBits) =
      series r / one * 2 ^ (-(k : ℤ)) := by
    rw [one_eq_pow, zpow_sub₀ two_ne_zero, zpow_natCast, fractionBits, Nat.cast_pow, Nat.cast_two]
    ring
  rw [expReduced] at hx
  generalize series r = n at *
  rw [← hscaled] at hnear
  generalize -(k : ℤ) - fractionBits = e at *
  have hv0 : 0 ≤ (n : ℝ) * 2 ^ e := by positivity
  have hv : (n : ℝ) * 2 ^ e ≤ 3 / 2 := by
    have hup := (abs_le.1 hnear).2
    have hsmall : (1 : ℝ) / 2 ^ 190 ≤ 1 / 2 := by norm_num
    linarith
  have hrounds := rounds_round wide_binary64 .positive hpos (hv.trans (by norm_num))
  rw [factor, one_mul] at hrounds
  have hsize : 2 * |(n : ℝ) * 2 ^ e| + 1 ≤ 2 ^ 100 := by
    rw [abs_of_nonneg hv0]
    linarith
  obtain ⟨hin, hreal⟩ := fit_spec hrounds.inFormat (hrounds.abs_le wide_binary64 |>.trans hsize)
  have hvalue := value_ofValue hin
  rw [← hx] at hvalue
  rw [← hvalue] at hin hreal
  rw [← abs_of_nonneg hv0] at hv
  exact (near_of_real_eq hrounds hin hreal hv hnear).mono (by norm_num)

theorem near_exp_self {x : Float} {a : ℝ} (hin : InFormat .binary64 (value x))
    (hreal : real (value x) = -a) (hlow : 1 / 2 ^ 8 ≤ a) (hhigh : a ≤ 8) :
    Near (exp x) (Real.exp (-a)) (1 / 2 ^ 52) := by
  have ha : 0 < a := lt_of_lt_of_le (by norm_num) hlow
  have hresult : exp x = ofValue (expValue (value x)) := rfl
  cases hv : value x with
  | infinity => exact (hv ▸ hin).elim
  | notANumber => exact (hv ▸ hin).elim
  | zero sign =>
    have hzero : real (value x) = 0 := by rw [hv, real]; simp
    linarith
  | finite sign m e hm =>
    rw [hv] at hin hreal hresult
    rw [real] at hreal
    cases sign with
    | positive =>
      have hpos : (0 : ℝ) ≤ m * 2 ^ e := by positivity
      rw [factor, one_mul] at hreal
      linarith
    | negative =>
      have hma : (m : ℝ) * 2 ^ e = a := by
        rw [factor] at hreal
        linarith
      have hexponent : -256 ≤ e := by
        have hlt : (m : ℝ) < 2 ^ 53 := by exact_mod_cast hin.1.lt
        by_contra hsmall
        have hpow : (2 : ℝ) ^ e ≤ 2 ^ (-256 : ℤ) :=
          zpow_le_zpow_right₀ one_le_two (by omega)
        have hle := mul_le_mul hlt.le hpow (by positivity) (by positivity)
        rw [hma] at hle
        exact absurd (hlow.trans hle) (by norm_num)
      obtain ⟨k, r, hvalue, hk, hr, hsplit⟩ := exists_expValue hm hexponent (by rwa [hma])
      rw [hma] at hsplit
      rw [hvalue] at hresult
      exact near_exp_of_reduced hresult ha.le hk hr hsplit

theorem exp_neg_sub_le {a b : ℝ} (hb : 0 ≤ b) (hle : b ≤ a) :
    Real.exp (-b) - Real.exp (-a) ≤ a - b := by
  have hfactor : Real.exp (-a) = Real.exp (-b) * Real.exp (b - a) := by
    rw [← Real.exp_add]
    congr 1
    ring
  have htangent := Real.add_one_le_exp (b - a)
  have hone : Real.exp (-b) ≤ 1 := Real.exp_le_one_iff.2 (neg_nonpos.2 hb)
  have hscale := mul_le_mul_of_nonneg_left htangent (Real.exp_pos (-b)).le
  have hshrink := mul_le_mul_of_nonneg_right hone (sub_nonneg.2 hle)
  linarith

theorem near_exp {x : Float} {a ε : ℝ} (hx : Near x (-a) ε) (hlow : 1 / 2 ^ 8 + ε ≤ a)
    (hhigh : a + ε ≤ 8) : Near (exp x) (Real.exp (-a)) (ε + 1 / 2 ^ 52) := by
  obtain ⟨hin, herror⟩ := hx
  obtain ⟨b, hb⟩ : ∃ b, real (value x) = -b := ⟨-real (value x), (neg_neg _).symm⟩
  rw [hb] at herror
  obtain ⟨hdown, hup⟩ := abs_le.1 herror
  have hlow' : 1 / 2 ^ 8 ≤ b := by linarith
  obtain ⟨hin', hnear⟩ := near_exp_self hin hb hlow' (by linarith)
  refine ⟨hin', ?_⟩
  have hpos : (0 : ℝ) < 1 / 2 ^ 8 := by positivity
  have hdrift : |Real.exp (-b) - Real.exp (-a)| ≤ ε := by
    rcases le_total b a with hle | hle
    · have hdiff := exp_neg_sub_le (hpos.trans_le hlow').le hle
      rw [abs_of_nonneg (sub_nonneg.2 (Real.exp_le_exp.2 (neg_le_neg hle)))]
      linarith
    · have hdiff := exp_neg_sub_le (show 0 ≤ a by linarith) hle
      rw [abs_sub_comm, abs_of_nonneg (sub_nonneg.2 (Real.exp_le_exp.2 (neg_le_neg hle)))]
      linarith
  have htri := abs_sub_le (real (value (exp x))) (Real.exp (-b)) (Real.exp (-a))
  linarith

end FixedRaster.Binary
