import Mathlib
import FixedRaster.Binary.Width

/-!
# The numbers of a format

A finite number of a format is a mantissa below `2ᵖ` times a power of two, with a full mantissa
unless the exponent is the least one. Unpacking gives such numbers only, and packing them loses
nothing.
-/

namespace FixedRaster.Binary

open Float.Model (Format UnpackedFloat totalExponent)
open Float.Model.UnpackedFloat

structure Fits (format : Format) (mantissa : ℕ) (exponent : ℤ) : Prop where
  lt : mantissa < 2 ^ format.mantissaBits
  le : format.minExponent ≤ exponent
  full : 2 ^ format.mantissaBitsWithoutImplicit ≤ mantissa ∨ exponent = format.minExponent

/-- The exponents below this one are those of finite numbers. -/
def exponentTop (format : Format) : ℤ := 2 ^ format.exponentBits + format.minExponent - 2

def InFormat (format : Format) : UnpackedFloat → Prop
  | .zero _ => True
  | .finite _ mantissa exponent _ => Fits format mantissa exponent ∧ exponent < exponentTop format
  | _ => False

section
variable {format : Format}

theorem mantissaBits_eq (format : Format) :
    format.mantissaBits = format.mantissaBitsWithoutImplicit + 1 := Nat.add_comm _ _

theorem exponentBias_eq (format : Format) :
    (format.exponentBias + format.mantissaBitsWithoutImplicit : ℤ) = 1 - format.minExponent := by
  have hpos : 1 ≤ 2 ^ (format.exponentBits - 1) := Nat.one_le_two_pow
  rw [Format.exponentBias, Format.minExponent, mantissaBits_eq]
  push_cast [Nat.cast_sub hpos]
  ring

theorem toNat_append_one {n : ℕ} (v : BitVec n) : (1#1 ++ v).toNat = 2 ^ n + v.toNat := by
  have hor := Nat.two_pow_add_eq_or_of_lt v.isLt 1
  rw [Nat.mul_one] at hor
  rw [BitVec.toNat_append, BitVec.toNat_ofNat, Nat.pow_one, Nat.one_mod, Nat.one_shiftLeft, hor]

theorem toNat_lt_of_ne_ones {n : ℕ} {v : BitVec n} (h : v ≠ -1#n) : v.toNat + 1 < 2 ^ n := by
  have hlt := v.isLt
  by_contra hge
  apply h
  apply BitVec.eq_of_toNat_eq
  rw [BitVec.neg_one_eq_allOnes, BitVec.toNat_allOnes]
  omega

theorem inFormat_unpack (hwide : 2 ≤ format.exponentBits) {b : BitVec format.numBits}
    (h : (unpack format b).isFinite = true) : InFormat format (unpack format b) := by
  have hbias := exponentBias_eq format
  have hmantissa := (unpackMantissa b).isLt
  have hbits := mantissaBits_eq format
  have hpow : 2 ^ 2 ≤ 2 ^ format.exponentBits := Nat.pow_le_pow_right (by decide) hwide
  revert h
  fun_cases unpack format b with
  | case1 => simp [isFinite]
  | case2 => simp [isFinite]
  | case3 => exact fun _ => trivial
  | case4 mantissa exponentVec exponent bits sign hones hzero hne =>
    intro _
    have hexponent : exponent + 1 = format.minExponent := by
      simp only [exponent, hzero, BitVec.toNat_ofNat, Nat.zero_mod]
      omega
    rw [InFormat, hexponent, exponentTop]
    refine ⟨⟨?_, le_rfl, .inr rfl⟩, by zify at hpow; omega⟩
    rw [hbits, Nat.pow_succ]
    omega
  | case5 mantissa exponentVec exponent bits sign hones hzero =>
    intro _
    have hlow : 0 < exponentVec.toNat := (BitVec.toNat_pos _).2 ((BitVec.pos_iff_ne_zero _).2 hzero)
    have hhigh := toNat_lt_of_ne_ones hones
    rw [InFormat, exponentTop]
    simp only [toNat_append_one]
    refine ⟨⟨?_, ?_, .inl ?_⟩, ?_⟩
    · rw [hbits, Nat.pow_succ]
      omega
    · omega
    · omega
    · zify at hhigh
      omega

theorem unpack_pack {value : UnpackedFloat} (h : InFormat format value) :
    unpack format (pack format value) = value := by
  have hbias := exponentBias_eq format
  have hbits := mantissaBits_eq format
  have hpos := format.he
  cases value with
  | infinity => exact h.elim
  | notANumber => exact h.elim
  | zero sign => exact unpack_packedZero
  | finite sign mantissa exponent hmantissa =>
    obtain ⟨⟨hlt, hle, hfull⟩, htop⟩ := h
    rw [exponentTop] at htop
    rw [hbits, Nat.pow_succ] at hlt
    have hlog := Nat.log2_eq_iff hmantissa.ne' (k := format.mantissaBitsWithoutImplicit)
    generalize hbiased : (exponent + format.exponentBias +
      format.mantissaBitsWithoutImplicit).toNat = biased
    have hcast : (biased : ℤ) = exponent - format.minExponent + 1 := by omega
    have hsmall : biased + 1 < 2 ^ format.exponentBits := by
      zify
      omega
    rw [pack]
    simp only [hbiased, if_neg (Nat.not_le.2 hsmall), hbits, Nat.add_right_cancel_iff]
    have hones : ∀ k : ℕ, k + 1 < 2 ^ format.exponentBits →
        BitVec.ofNat format.exponentBits k ≠ -1#_ := by
      intro k hk h
      have hvalue := congrArg BitVec.toNat h
      rw [BitVec.neg_one_eq_allOnes, BitVec.toNat_allOnes, BitVec.toNat_ofNat,
        Nat.mod_eq_of_lt (by omega)] at hvalue
      omega
    have hzero : ∀ n k : ℕ, 0 < k → k < 2 ^ n → BitVec.ofNat n k ≠ 0#n := by
      intro n k hk hsmall h
      have hvalue := congrArg BitVec.toNat h
      rw [BitVec.toNat_ofNat, Nat.mod_eq_of_lt hsmall, BitVec.toNat_ofNat, Nat.zero_mod] at hvalue
      omega
    by_cases hnormal : 2 ^ format.mantissaBitsWithoutImplicit ≤ mantissa
    · rw [if_pos (hlog.2 ⟨hnormal, by omega⟩), unpack]
      simp only [unpackMantissa_packComponents, unpackExponent_packComponents,
        unpackSign_packComponents, Sign.ofBitVec_toBitVec, if_neg (hones biased hsmall),
        if_neg (hzero format.exponentBits biased (by omega) (by omega)), finite.injEq, true_and,
        toNat_append_one, BitVec.toNat_ofNat]
      constructor
      · rw [Nat.mod_eq_sub_mod hnormal, Nat.mod_eq_of_lt (by omega)]
        omega
      · rw [Nat.mod_eq_of_lt (by omega)]
        omega
    · have hmin : exponent = format.minExponent := hfull.resolve_left hnormal
      rw [if_neg fun h => hnormal (hlog.1 h).1, unpack]
      simp only [unpackMantissa_packComponents, unpackExponent_packComponents,
        unpackSign_packComponents, Sign.ofBitVec_toBitVec, if_neg (hones 0 (by omega)),
        dif_neg (hzero format.mantissaBitsWithoutImplicit mantissa hmantissa (by omega)), if_true,
        finite.injEq, true_and, BitVec.toNat_ofNat, Nat.zero_mod]
      constructor
      · exact Nat.mod_eq_of_lt (by omega)
      · omega

end

end FixedRaster.Binary
