import FixedRaster.Gaussian.Line
import FixedRaster.Proofs.Binary.Arithmetic

/-!
# Doubles near real numbers

A double is near a real number if it is finite and off by at most a given error. An operation adds
what the errors of its operands come to and one rounding of the result. Widening and the conversion
from a sample add nothing, narrowing rounds once to single precision, and the conversion to a
sample cuts off less than one.
-/

namespace FixedRaster.Binary

open Float.Model (Format UnpackedFloat totalExponent)
open Float.Model.UnpackedFloat

def single (x : Float32) : UnpackedFloat := .unpack .binary32 x.toBits.toBitVec

/-- A finite double that is off a real number by at most an error. -/
def Near (x : Float) (v ε : ℝ) : Prop := InFormat .binary64 (value x) ∧ |real (value x) - v| ≤ ε

variable {x y : Float} {a b ε δ : ℝ}

theorem Near.mono (h : Near x a ε) (hle : ε ≤ δ) : Near x a δ := ⟨h.1, h.2.trans hle⟩

theorem Near.nonneg (h : Near x a ε) : 0 ≤ ε := (abs_nonneg _).trans h.2

theorem near_self (h : InFormat .binary64 (value x)) : Near x (real (value x)) 0 :=
  ⟨h, by rw [sub_self, abs_zero]⟩

theorem Near.self (h : Near x a ε) : Near x (real (value x)) 0 := near_self h.1

theorem abs_mul_le {A B : ℝ} (ha : |a| ≤ A) (hb : |b| ≤ B) : |a * b| ≤ A * B := by
  rw [abs_mul]
  exact mul_le_mul ha hb (abs_nonneg b) ((abs_nonneg a).trans ha)

theorem Near.abs_le (h : Near x a ε) : |real (value x)| ≤ |a| + ε := by
  have htri := abs_add_le (real (value x) - a) a
  rw [sub_add_cancel] at htri
  linarith [h.2]

theorem near_value {sign : Sign} {m : ℕ} {e : ℤ} {hm : 0 < m}
    (hx : value x = .finite sign m e hm) (ha : factor sign * m * 2 ^ e = a) : Near x a 0 := by
  have hfinite : (value x).isFinite = true := by
    rw [hx]
    rfl
  refine ⟨inFormat_unpack (by decide) hfinite, ?_⟩
  rw [hx, real, ha, sub_self, abs_zero]

theorem inFormat_single {x : Float32} {sign : Sign} {m : ℕ} {e : ℤ} {hm : 0 < m}
    (hx : single x = .finite sign m e hm) : InFormat .binary32 (single x) := by
  apply inFormat_unpack (by decide)
  change (single x).isFinite = true
  rw [hx]
  rfl

theorem near_of_real_eq {u : UnpackedFloat} {v M : ℝ} (h : Rounds .binary64 u v)
    (hin : InFormat .binary64 (value x)) (hx : real (value x) = real u) (hv : |v| ≤ M)
    (ha : |v - a| ≤ ε) : Near x a (ε + M / 2 ^ 53 + 1 / 2 ^ 100) := by
  have hp : Format.mantissaBits .binary64 = 53 := rfl
  have hleast : (2 : ℝ) ^ Format.minExponent .binary64 / 2 ≤ 1 / 2 ^ 100 := by
    have hmin : Format.minExponent .binary64 = -1074 := by decide
    have hpow : (2 : ℝ) ^ (-1074 : ℤ) ≤ 2 ^ (-100 : ℤ) :=
      zpow_le_zpow_right₀ one_le_two (by norm_num)
    have hpos : (0 : ℝ) < 2 ^ (-1074 : ℤ) := by positivity
    have heq : (2 : ℝ) ^ (-100 : ℤ) = 1 / 2 ^ 100 := by
      rw [zpow_neg, one_div]
      rfl
    rw [hmin, ← heq]
    exact (half_le_self hpos.le).trans hpow
  have herror := h.abs_sub_le
  rw [hp, ← hx] at herror
  have htri := abs_sub_le (real (value x)) v a
  refine ⟨hin, ?_⟩
  have hscale : |v| / 2 ^ 53 ≤ M / 2 ^ 53 := by gcongr
  linarith

theorem near_of_rounds {u : UnpackedFloat} {v M : ℝ} (h : Rounds .binary64 u v)
    (hx : value x = unpack .binary64 (pack .binary64 u)) (hv : |v| ≤ M) (ha : |v - a| ≤ ε) :
    Near x a (ε + M / 2 ^ 53 + 1 / 2 ^ 100) := by
  rw [unpack_pack h.inFormat] at hx
  exact near_of_real_eq h (hx ▸ h.inFormat) (congrArg real hx) hv ha

theorem value_add (x y : Float) :
    value (x + y) = unpack .binary64 (pack .binary64 (add .binary64 (value x) (value y))) := rfl

theorem value_sub (x y : Float) :
    value (x - y) = unpack .binary64 (pack .binary64 (sub .binary64 (value x) (value y))) := rfl

theorem value_mul (x y : Float) :
    value (x * y) = unpack .binary64 (pack .binary64 (mul .binary64 (value x) (value y))) := rfl

theorem value_div (x y : Float) :
    value (x / y) = unpack .binary64 (pack .binary64 (div .binary64 (value x) (value y))) := rfl

theorem value_neg (x : Float) :
    value (-x) = unpack .binary64 (pack .binary64 (neg (value x))) := rfl

section
variable {M : ℝ}

theorem Near.add (hx : Near x a ε) (hy : Near y b δ) (hM : |a + b| + (ε + δ) ≤ M)
    (hM' : M ≤ 2 ^ 100) : Near (x + y) (a + b) (ε + δ + M / 2 ^ 53 + 1 / 2 ^ 100) := by
  have herror : |real (value x) + real (value y) - (a + b)| ≤ ε + δ := by
    rw [add_sub_add_comm]
    exact (abs_add_le _ _).trans (add_le_add hx.2 hy.2)
  have hsize : |real (value x) + real (value y)| ≤ M := by
    have htri := abs_add_le (real (value x) + real (value y) - (a + b)) (a + b)
    rw [sub_add_cancel] at htri
    linarith
  exact near_of_rounds (rounds_add wide_binary64 hx.1 hy.1 (hsize.trans hM')) (value_add x y)
    hsize herror

theorem Near.neg (hx : Near x a ε) : Near (-x) (-a) ε := by
  obtain ⟨hin, hreal⟩ := neg_spec hx.1
  have hvalue := value_neg x
  rw [unpack_pack hin] at hvalue
  refine ⟨hvalue ▸ hin, ?_⟩
  rw [hvalue, hreal, neg_sub_neg, abs_sub_comm]
  exact hx.2

theorem Near.sub (hx : Near x a ε) (hy : Near y b δ) (hM : |a - b| + (ε + δ) ≤ M)
    (hM' : M ≤ 2 ^ 100) : Near (x - y) (a - b) (ε + δ + M / 2 ^ 53 + 1 / 2 ^ 100) := by
  have herror : |real (value x) - real (value y) - (a - b)| ≤ ε + δ := by
    rw [sub_sub_sub_comm]
    exact (abs_sub _ _).trans (add_le_add hx.2 hy.2)
  have hsize : |real (value x) - real (value y)| ≤ M := by
    have htri := abs_add_le (real (value x) - real (value y) - (a - b)) (a - b)
    rw [sub_add_cancel] at htri
    linarith
  exact near_of_rounds (rounds_sub wide_binary64 hx.1 hy.1 (hsize.trans hM')) (value_sub x y)
    hsize herror

theorem Near.mul {A B : ℝ} (hx : Near x a ε) (hy : Near y b δ) (hA : |a| ≤ A) (hB : |b| ≤ B)
    (hM : (A + ε) * (B + δ) ≤ M) (hM' : M ≤ 2 ^ 100) :
    Near (x * y) (a * b) (A * δ + B * ε + ε * δ + M / 2 ^ 53 + 1 / 2 ^ 100) := by
  have hsize : |real (value x) * real (value y)| ≤ M :=
    (abs_mul_le (hx.abs_le.trans (by linarith)) (hy.abs_le.trans (by linarith))).trans hM
  have herror : |real (value x) * real (value y) - a * b| ≤ A * δ + B * ε + ε * δ := by
    have hsplit : real (value x) * real (value y) - a * b =
        a * (real (value y) - b) + b * (real (value x) - a) +
          (real (value x) - a) * (real (value y) - b) := by ring
    rw [hsplit]
    exact (abs_add_three _ _ _).trans (add_le_add_three (abs_mul_le hA hy.2) (abs_mul_le hB hx.2)
      (abs_mul_le hx.2 hy.2))
  exact near_of_rounds (rounds_mul wide_binary64 hx.1 hy.1 (hsize.trans hM')) (value_mul x y)
    hsize herror

theorem Near.div {L Q : ℝ} (hx : Near x a ε) (hy : Near y b δ) (hL : 0 < L) (hb : L + δ ≤ |b|)
    (hQ : |a| ≤ Q * |b|) (hM : Q + (ε + Q * δ) / L ≤ M) (hM' : M ≤ 2 ^ 100) :
    Near (x / y) (a / b) ((ε + Q * δ) / L + M / 2 ^ 53 + 1 / 2 ^ 100) := by
  have hδ := hy.nonneg
  have hbpos : 0 < |b| := by linarith
  have hden : L ≤ |real (value y)| := by
    have htri := abs_sub_abs_le_abs_sub b (real (value y))
    rw [abs_sub_comm] at htri
    linarith [hy.2]
  have hdenpos : 0 < |real (value y)| := hL.trans_le hden
  have herror : |real (value x) / real (value y) - a / b| ≤ (ε + Q * δ) / L := by
    have hsplit : real (value x) / real (value y) - a / b =
        ((real (value x) - a) * b - a * (real (value y) - b)) / (real (value y) * b) := by
      rw [div_sub_div _ _ (abs_pos.1 hdenpos) (abs_pos.1 hbpos)]
      ring
    have hnum : |(real (value x) - a) * b - a * (real (value y) - b)| ≤ (ε + Q * δ) * |b| := by
      refine (abs_sub _ _).trans ?_
      rw [abs_mul, abs_mul]
      have hleft := mul_le_mul_of_nonneg_right hx.2 hbpos.le
      have hright := mul_le_mul hQ hy.2 (abs_nonneg _) ((abs_nonneg a).trans hQ)
      linarith
    have hQ0 : 0 ≤ Q := nonneg_of_mul_nonneg_left ((abs_nonneg a).trans hQ) hbpos
    have hbound : 0 ≤ (ε + Q * δ) * |b| := by
      have hε := hx.nonneg
      positivity
    rw [hsplit, abs_div, abs_mul, div_le_div_iff₀ (mul_pos hdenpos hbpos) hL]
    calc |(real (value x) - a) * b - a * (real (value y) - b)| * L
        ≤ (ε + Q * δ) * |b| * |real (value y)| := mul_le_mul hnum hden hL.le hbound
      _ = (ε + Q * δ) * (|real (value y)| * |b|) := by ring
  have hsize : |real (value x) / real (value y)| ≤ M := by
    have htri := abs_add_le (real (value x) / real (value y) - a / b) (a / b)
    have hquotient : |a / b| ≤ Q := by
      rw [abs_div, div_le_iff₀ hbpos]
      exact hQ
    rw [sub_add_cancel] at htri
    linarith
  exact near_of_rounds (rounds_div wide_binary64 hx.1 hy.1 (abs_pos.1 hdenpos) (hsize.trans hM'))
    (value_div x y) hsize herror

end

theorem value_ofValue {u : UnpackedFloat} (h : InFormat .binary64 (fit .binary64 u)) :
    value (ofValue u) = fit .binary64 u := by
  have hbits : value (ofValue u) =
      unpack .binary64 (pack .binary64 (unpack .binary64 (pack .binary64 (fit .binary64 u)))) := rfl
  rw [hbits, unpack_pack h, unpack_pack h]

theorem single_narrow {x : Float} (h : InFormat .binary32 (fit .binary32 (value x))) :
    single (narrow x) = fit .binary32 (value x) := by
  have hbits : single (narrow x) = unpack .binary32 (pack .binary32
      (unpack .binary32 (pack .binary32 (fit .binary32 (value x))))) := rfl
  rw [hbits, unpack_pack h, unpack_pack h]

theorem value_widen {x : Float32} (h : InFormat .binary32 (single x)) :
    InFormat .binary64 (value (widen x)) ∧ real (value (widen x)) = real (single x) := by
  have hfit : InFormat .binary64 (fit .binary64 (single x)) ∧
      real (fit .binary64 (single x)) = real (single x) := by
    cases hs : single x with
    | infinity => exact (hs ▸ h).elim
    | notANumber => exact (hs ▸ h).elim
    | zero sign => exact ⟨trivial, rfl⟩
    | finite sign m e hm =>
      rw [hs] at h
      obtain ⟨⟨hlt, hle, -⟩, htop⟩ := h
      have hleast : Format.minExponent .binary32 = -149 := by decide
      have hleast' : Format.minExponent .binary64 = -1074 := by decide
      have hmost : exponentTop .binary32 = 105 := by decide
      have hmost' : exponentTop .binary64 = 972 := by decide
      exact real_round_of_lt sign hm (hlt.trans (by decide)) (by omega) (by omega)
  have hvalue : value (widen x) = fit .binary64 (single x) := value_ofValue hfit.1
  rw [hvalue]
  exact hfit

theorem rounds_fit {u : UnpackedFloat} (h : InFormat .binary64 u) (hv : |real u| ≤ 2 ^ 100) :
    Rounds .binary32 (fit .binary32 u) (real u) := by
  cases u with
  | infinity => exact h.elim
  | notANumber => exact h.elim
  | zero sign => exact rounds_self (a := .zero sign) trivial
  | finite sign m e hm =>
    have hpos : (0 : ℝ) ≤ m * 2 ^ e := by positivity
    rw [real, mul_assoc, abs_mul, abs_factor, one_mul, abs_of_nonneg hpos] at hv
    have hrounds := rounds_round wide_binary32 sign hm hv
    rwa [← mul_assoc] at hrounds

theorem Near.narrow_of_rounding (hx : Near x a ε) (hsize : |real (value x)| ≤ 2 ^ 100)
    (h : ∀ u, Rounds .binary32 u (real (value x)) →
      |real u - real (value x)| ≤ δ + 2 ^ Format.minExponent .binary32 / 2) :
    Near (widen (narrow x)) a (ε + δ + 1 / 2 ^ 100) := by
  have hrounds := rounds_fit hx.1 hsize
  have hsingle := single_narrow hrounds.inFormat
  obtain ⟨hin, hreal⟩ := value_widen (hsingle ▸ hrounds.inFormat)
  have hleast : (2 : ℝ) ^ Format.minExponent .binary32 / 2 ≤ 1 / 2 ^ 100 := by
    have hmin : Format.minExponent .binary32 = -149 := by decide
    rw [hmin]
    norm_num
  have herror := h _ hrounds
  have htri := abs_sub_le (real (fit .binary32 (value x))) (real (value x)) a
  refine ⟨hin, ?_⟩
  rw [hreal, hsingle]
  linarith [hx.2]

theorem Near.narrow_of_lt (hx : Near x a ε) {k : ℕ} (hk : |a| + ε < 2 ^ k) (hk' : k ≤ 100) :
    Near (widen (narrow x)) a (ε + 2 ^ k / 2 ^ 25 + 1 / 2 ^ 100) := by
  have hlt : |real (value x)| < 2 ^ k := hx.abs_le.trans_lt hk
  have hle : (2 : ℝ) ^ k ≤ 2 ^ 100 := pow_le_pow_right₀ one_le_two hk'
  exact hx.narrow_of_rounding (hlt.le.trans hle) fun u hu => hu.abs_sub_le_of_lt hlt

theorem Near.narrow (hx : Near x a ε) {M : ℝ} (hM : |a| + ε ≤ M) (hM' : M ≤ 2 ^ 100) :
    Near (widen (narrow x)) a (ε + M / 2 ^ 24 + 1 / 2 ^ 100) := by
  have hsize : |real (value x)| ≤ M := hx.abs_le.trans hM
  have hp : Format.mantissaBits .binary32 = 24 := rfl
  refine hx.narrow_of_rounding (hsize.trans hM') fun u hu => hu.abs_sub_le.trans ?_
  rw [hp]
  gcongr

theorem near_toFloat (v : UInt16) : Near v.toFloat v.toNat 0 := by
  have hvalue : value v.toFloat = unpack .binary64 (pack .binary64
      (UnpackedFloat.normalize .binary64 (v.toNat : ℤ) 0 .positive)) := rfl
  have hspec : InFormat .binary64 (UnpackedFloat.normalize .binary64 (v.toNat : ℤ) 0 .positive) ∧
      real (UnpackedFloat.normalize .binary64 (v.toNat : ℤ) 0 .positive) = v.toNat := by
    rw [UnpackedFloat.normalize]
    rcases Nat.eq_zero_or_pos v.toNat with hzero | hpos
    · rw [hzero]
      exact ⟨trivial, Nat.cast_zero.symm⟩
    · have hlt := v.toNat_lt
      have hsmall : v.toNat < 2 ^ Format.mantissaBits .binary64 := hlt.trans (by decide)
      obtain ⟨hin, hreal⟩ := real_round_of_lt (e := 0) .positive hpos hsmall (by decide) (by decide)
      rw [Int.compare_eq_gt.2 (Int.natCast_pos.2 hpos)]
      refine ⟨hin, hreal.trans ?_⟩
      rw [factor, one_mul, zpow_zero, mul_one]
  rw [unpack_pack hspec.1] at hvalue
  refine ⟨hvalue ▸ hspec.1, ?_⟩
  rw [hvalue, hspec.2, sub_self, abs_zero]

theorem toNat_ofNatClamp (n : ℕ) : (UInt16.ofNatClamp n).toNat = min n 65535 := by
  have hsize : UInt16.size = 65536 := rfl
  rcases Nat.lt_or_ge n UInt16.size with hlt | hge
  · rw [UInt16.toNat_ofNatClamp_of_lt hlt]
    omega
  · rw [UInt16.toNat_ofNatClamp_of_le hge]
    omega

theorem abs_roundToInt_sub_le (sign : Sign) (m : ℕ) (e : ℤ) :
    |(roundToInt sign m e : ℝ) - factor sign * (m * 2 ^ e)| ≤ 1 := by
  have hround : roundToInt sign m e = sign.apply
      (ExtendedMantissa.ofMantissaAndAccuracy (m <<< (e - 0).toNat) .exact >>>
        (0 - (e - (e - 0).toNat)).toNat).mantissa := rfl
  generalize hk : (e - 0).toNat = k at hround
  generalize hn : (0 - (e - k)).toNat = n at hround
  obtain ⟨hlow, hhigh⟩ := ((stands_exact (m <<< k)).shiftRight n).bounds
  have hvalue : ((m <<< k : ℕ) : ℝ) / 2 ^ n = m * 2 ^ e := by
    have hexp : e - k = -(n : ℤ) := by omega
    rw [← cast_shiftLeft_mul m k e, hexp, zpow_neg, zpow_natCast, div_eq_mul_inv]
  rw [hvalue] at hlow hhigh
  rw [hround, cast_apply, ← mul_sub, abs_mul, abs_factor, one_mul, Int.cast_natCast, abs_le]
  constructor <;> linarith

theorem abs_toInt_sub_le {format : Format} {u : UnpackedFloat} (h : InFormat format u)
    (low high : ℤ) : |(u.toInt low high : ℝ) - real u| ≤ 1 := by
  cases u with
  | infinity => exact h.elim
  | notANumber => exact h.elim
  | zero sign =>
    have hzero : ((UnpackedFloat.zero sign).toInt low high : ℝ) - real (.zero sign) = 0 := by
      simp [UnpackedFloat.toInt, real]
    rw [hzero, abs_zero]
    exact zero_le_one
  | finite sign m e hm =>
    rw [real, mul_assoc]
    exact abs_roundToInt_sub_le sign m e

/-- A number below zero is cut off at zero and one beyond the samples at the greatest sample. -/
theorem Near.toUInt16 (hx : Near x a ε) (v : UInt16) :
    |(x.toUInt16.toNat : ℝ) - v.toNat| ≤ |a - v.toNat| + ε + 1 := by
  have hclamp : x.toUInt16 = UInt16.ofNatClamp ((value x).toInt 0 (UInt16.size - 1)).toNat := rfl
  have hv := v.toNat_lt
  have hint := abs_toInt_sub_le hx.1 0 (UInt16.size - 1)
  generalize (value x).toInt 0 (UInt16.size - 1) = k at hclamp hint
  have hlipschitz : |((min k.toNat 65535 : ℕ) : ℤ) - v.toNat| ≤ |k - v.toNat| := by
    simp only [Int.abs_eq_natAbs]
    omega
  have hcast : |((min k.toNat 65535 : ℕ) : ℝ) - v.toNat| ≤ |(k : ℝ) - v.toNat| := by
    exact_mod_cast hlipschitz
  have htri := abs_sub_le (k : ℝ) (real (value x)) v.toNat
  have htri' := abs_sub_le (real (value x)) a v.toNat
  rw [hclamp, toNat_ofNatClamp]
  linarith [hx.2]

end FixedRaster.Binary
