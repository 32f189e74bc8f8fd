import Mathlib
import FixedRaster.FixedPoint

/-!
# Words that hold their exact value

A 32-bit operation wraps, so its value is the value of the unbounded operation exactly where that
stays inside the word. The narrowings are rewritten as clamps of unbounded integers.
-/

namespace FixedRaster

theorem toInt_add_of_fits {a b : Int32} (h : |a.toInt + b.toInt| < 2 ^ 31) :
    (a + b).toInt = a.toInt + b.toInt := by
  have hb := abs_lt.1 h
  rw [Int32.toInt_add]
  exact Int.bmod_eq_of_le (by omega) (by omega)

theorem toInt_mul_of_fits {a b : Int32} (h : |a.toInt * b.toInt| < 2 ^ 31) :
    (a * b).toInt = a.toInt * b.toInt := by
  have hb := abs_lt.1 h
  rw [Int32.toInt_mul]
  exact Int.bmod_eq_of_le (by omega) (by omega)

theorem abs_toInt16_le (w : Int16) : |w.toInt| ≤ 2 ^ 15 := by
  have hlo := w.le_toInt
  have hhi := w.toInt_lt
  exact abs_le.2 ⟨by omega, by omega⟩

theorem toInt_shiftRight_sample (s : Int32) : (s >>> sampleShift).toInt = s.toInt / 128 := by
  rw [← Int32.toInt_toBitVec, Int32.toBitVec_shiftRight]
  simp [sampleShift, BitVec.toInt_sshiftRight, Int.shiftRight_eq_div_pow]

theorem toInt_shiftRight_Q14 (s : Int32) : (s >>> Q14.shift).toInt = s.toInt / 16384 := by
  rw [← Int32.toInt_toBitVec, Int32.toBitVec_shiftRight]
  simp [Q14.shift, BitVec.toInt_sshiftRight, Int.shiftRight_eq_div_pow]

theorem toNat_toUInt32 {v : Int32} (h : 0 ≤ v.toInt) : (v.toUInt32.toNat : ℤ) = v.toInt := by
  have hv : 0 ≤ v := by simpa [Int32.le_iff_toInt_le] using h
  rw [Int32.toNat_toUInt32_of_le hv, Int32.cast_toNatClampNeg v hv]

theorem toNat_toUInt64 {v : Int32} (h : 0 ≤ v.toInt) :
    (v.toInt64.toUInt64.toNat : ℤ) = v.toInt := by
  have hv : 0 ≤ v.toInt64 := by
    rw [Int64.le_iff_toInt_le, Int32.toInt_toInt64]
    exact h
  rw [Int64.toNat_toUInt64_of_le hv, Int64.cast_toNatClampNeg _ hv, Int32.toInt_toInt64]

theorem toNat_dropNegative (v : Int32) : ((dropNegative v).toNat : ℤ) = max 0 v.toInt := by
  rw [dropNegative]
  split_ifs with h
  · have h0 : 0 ≤ v.toInt := by simpa [Int32.le_iff_toInt_le] using h
    rw [toNat_toUInt32 h0, max_eq_right h0]
  · have h0 : ¬ 0 ≤ v.toInt := by simpa [Int32.le_iff_toInt_le] using h
    rw [max_eq_left (by omega)]
    rfl

theorem toNat_saturateByte (v : Int32) :
    ((saturateByte v).toNat : ℤ) = max 0 (min 255 v.toInt) := by
  rw [saturateByte]
  split_ifs with hlow hhigh
  · have hv : v.toInt < 0 := by simpa [Int32.lt_iff_toInt_lt] using hlow
    rw [max_eq_left (by omega)]
    rfl
  · have hv : 255 < v.toInt := by simpa [Int32.lt_iff_toInt_lt] using hhigh
    rw [min_eq_left hv.le]
    rfl
  · have h0 : ¬ v.toInt < 0 := by simpa [Int32.lt_iff_toInt_lt] using hlow
    have h1 : ¬ 255 < v.toInt := by simpa [Int32.lt_iff_toInt_lt] using hhigh
    have hn := toNat_toUInt32 (v := v) (by omega)
    rw [min_eq_right (by omega), max_eq_right (by omega), UInt32.toNat_toUInt8]
    omega

theorem toInt_byte (b : UInt8) : (Int32.ofNat b.toNat).toInt = b.toNat := by
  have hb := b.toNat_lt
  exact Int32.toInt_ofNat_of_lt (by omega)

theorem toInt_half (b : UInt16) : (Int32.ofNat b.toNat).toInt = b.toNat := by
  have hb := b.toNat_lt
  exact Int32.toInt_ofNat_of_lt (by omega)

theorem toInt_abs {v : Int32} (h : -2 ^ 31 < v.toInt) : v.abs.toInt = v.toInt.natAbs := by
  have hne : v.toBitVec ≠ BitVec.intMin 32 := by
    intro heq
    have hv := congrArg BitVec.toInt heq
    rw [Int32.toInt_toBitVec] at hv
    norm_num [BitVec.toInt_intMin] at hv
    omega
  have habs := BitVec.toInt_abs_eq_natAbs_of_ne_intMin hne
  rw [Int32.toInt_toBitVec] at habs
  exact habs

theorem toInt_abs_toInt32 (w : Int16) : w.toInt32.abs.toInt = w.toInt.natAbs := by
  have hw : w.toInt32.toInt = w.toInt := Int16.toInt_toInt32 w
  have hlo := w.le_toInt
  rw [toInt_abs (by omega), hw]

theorem sum_abs_nonneg {α : Type} (v : α → ℤ) (xs : List α) : 0 ≤ (xs.map fun a => |v a|).sum := by
  apply List.sum_nonneg
  intro x hx
  obtain ⟨a, -, rfl⟩ := List.mem_map.1 hx
  exact abs_nonneg _

/-- The magnitudes bound every prefix of the sum, whatever the signs of its terms. -/
theorem toInt_foldl_add {α : Type} {g : α → Int32} {v : α → ℤ} (xs : List α) (acc : Int32)
    (hg : ∀ a ∈ xs, (g a).toInt = v a)
    (hfit : |acc.toInt| + (xs.map fun a => |v a|).sum < 2 ^ 31) :
    (xs.foldl (fun sum a => sum + g a) acc).toInt = acc.toInt + (xs.map v).sum := by
  induction xs generalizing acc with
  | nil => simp
  | cons a xs ih =>
    have ha := hg a (List.mem_cons_self ..)
    have hrest := sum_abs_nonneg v xs
    have htri := abs_add_le acc.toInt (v a)
    simp only [List.map_cons, List.sum_cons] at hfit ⊢
    have hstep : (acc + g a).toInt = acc.toInt + v a := by
      rw [← ha] at hfit htri ⊢
      exact toInt_add_of_fits (by omega)
    rw [List.foldl_cons, ih (acc + g a) (fun b hb => hg b (List.mem_cons_of_mem a hb))
      (by rw [hstep]; omega), hstep]
    omega

section
variable {a b : Int32}

theorem toInt_max (a b : Int32) : (max a b).toInt = max a.toInt b.toInt := by
  have hmax : max a b = if a ≤ b then b else a := rfl
  rw [hmax, max_def, apply_ite Int32.toInt]
  simp only [Int32.le_iff_toInt_le]

theorem toInt_min (a b : Int32) : (min a b).toInt = min a.toInt b.toInt := by
  have hmin : min a b = if a ≤ b then a else b := rfl
  rw [hmin, min_def, apply_ite Int32.toInt]
  simp only [Int32.le_iff_toInt_le]

theorem toInt_add_eq {x y : ℤ} (ha : a.toInt = x) (hb : b.toInt = y) (hlow : -2 ^ 31 < x + y)
    (hhigh : x + y < 2 ^ 31) : (a + b).toInt = x + y := by
  rw [toInt_add_of_fits, ha, hb]
  rw [ha, hb]
  exact abs_lt.2 ⟨hlow, hhigh⟩

theorem toInt_sub_eq {x y : ℤ} (ha : a.toInt = x) (hb : b.toInt = y) (hlow : -2 ^ 31 < x - y)
    (hhigh : x - y < 2 ^ 31) : (a - b).toInt = x - y := by
  rw [Int32.toInt_sub, ha, hb]
  exact Int.bmod_eq_of_le (by omega) (by omega)

theorem toInt_mul_eq {x y : ℤ} (ha : a.toInt = x) (hb : b.toInt = y) (hlow : -2 ^ 31 < x * y)
    (hhigh : x * y < 2 ^ 31) : (a * b).toInt = x * y := by
  rw [toInt_mul_of_fits, ha, hb]
  rw [ha, hb]
  exact abs_lt.2 ⟨hlow, hhigh⟩

theorem toInt_div_eq {x y : ℤ} (ha : a.toInt = x) (hb : b.toInt = y) (hlow : -2 ^ 31 < x) :
    (a / b).toInt = x.tdiv y := by
  have hhigh := a.toInt_lt
  have hle : |x.tdiv y| ≤ |x| := by
    rw [Int.abs_eq_natAbs, Int.abs_eq_natAbs, Int.natAbs_tdiv]
    exact_mod_cast Nat.div_le_self _ _
  have hlt := abs_lt.1 (lt_of_le_of_lt hle (abs_lt.2 ⟨hlow, by omega⟩))
  rw [Int32.toInt_div, ha, hb]
  exact Int.bmod_eq_of_le (by omega) (by omega)

theorem toInt_shiftLeft_eq {x : ℤ} {k : ℕ} (ha : a.toInt = x) (hk : k < 31)
    (hb : b.toBitVec.smod 32 = BitVec.ofNat 32 k) (hlow : -2 ^ 31 < x * (2 ^ k : ℕ))
    (hhigh : x * (2 ^ k : ℕ) < 2 ^ 31) : (a <<< b).toInt = x * (2 ^ k : ℕ) := by
  have hpow : 2 ^ k < 2 ^ 31 := Nat.pow_lt_pow_right (by decide) hk
  have hmul : a <<< b = a * Int32.ofNat (2 ^ k) := by
    apply Int32.toBitVec_inj.1
    rw [Int32.toBitVec_shiftLeft, Int32.toBitVec_mul, hb, BitVec.shiftLeft_eq', BitVec.toNat_ofNat,
      Nat.mod_eq_of_lt (by omega), BitVec.shiftLeft_eq_mul_twoPow, Int32.toBitVec_ofNat']
    congr 1
    apply BitVec.eq_of_toNat_eq
    rw [BitVec.toNat_twoPow, BitVec.toNat_ofNat]
  rw [hmul]
  exact toInt_mul_eq ha (Int32.toInt_ofNat_of_lt hpow) hlow hhigh

theorem toNat_toUInt16 (v : Int32) : (v.toUInt32.toUInt16.toNat : ℤ) = v.toInt % 65536 := by
  rw [UInt32.toNat_toUInt16]
  have h : v.toInt = (v.toUInt32.toNat : ℤ).bmod (2 ^ 32) := by
    rw [← Int32.toInt_toBitVec, BitVec.toInt_eq_toNat_bmod]
    rfl
  rw [h]
  push_cast
  rw [Int.bmod]
  omega

end

theorem toInt_saturateInt32 (v : Int64) :
    (saturateInt32 v).toInt = max (-2 ^ 31) (min (2 ^ 31 - 1) v.toInt) := by
  have hmin : Int32.minValue.toInt64.toInt = -2 ^ 31 := rfl
  have hmax : Int32.maxValue.toInt64.toInt = 2 ^ 31 - 1 := rfl
  rw [saturateInt32]
  simp only [Int64.lt_iff_toInt_lt, hmin, hmax]
  split_ifs with hlow hhigh
  · rw [min_eq_right (by omega), max_eq_left (by omega)]
    rfl
  · rw [min_eq_left (by omega), max_eq_right (by omega)]
    rfl
  · rw [min_eq_right (by omega), max_eq_right (by omega), Int64.toInt_toInt32]
    exact Int.bmod_eq_of_le (by omega) (by omega)

theorem toInt_saturatingAdd (a b : Int32) :
    (saturatingAdd a b).toInt = max (-2 ^ 31) (min (2 ^ 31 - 1) (a.toInt + b.toInt)) := by
  have ha := a.le_toInt
  have ha' := a.toInt_lt
  have hb := b.le_toInt
  have hb' := b.toInt_lt
  rw [saturatingAdd, toInt_saturateInt32, Int64.toInt_add, Int32.toInt_toInt64, Int32.toInt_toInt64,
    Int.bmod_eq_of_le (by omega) (by omega)]

theorem abs_toInt_mul_le (a b : Int32) : |a.toInt * b.toInt| ≤ 2 ^ 31 * 2 ^ 31 := by
  have ha := abs_le.2 ⟨a.le_toInt, a.toInt_lt.le⟩
  have hb := abs_le.2 ⟨b.le_toInt, b.toInt_lt.le⟩
  rw [abs_mul]
  exact mul_le_mul ha hb (abs_nonneg _) (by norm_num)

theorem toInt_scaleQ12 (strength difference : Int32) :
    (scaleQ12 strength difference).toInt =
      max (-2 ^ 31) (min (2 ^ 31 - 1) ((strength.toInt * difference.toInt + 2048) / 4096)) := by
  obtain ⟨hlow, hhigh⟩ := abs_le.1 (abs_toInt_mul_le strength difference)
  have hshift : ∀ v : Int64, (v >>> Q12.shift.toInt64).toInt = v.toInt / 4096 := by
    intro v
    rw [← Int64.toInt_toBitVec, Int64.toBitVec_shiftRight]
    simp [Q12.shift, BitVec.toInt_sshiftRight, Int.shiftRight_eq_div_pow]
  have hhalf : Q12.half.toInt64.toInt = 2048 := rfl
  have hmul : (strength.toInt64 * difference.toInt64).toInt =
      strength.toInt * difference.toInt := by
    rw [Int64.toInt_mul, Int32.toInt_toInt64, Int32.toInt_toInt64]
    exact Int.bmod_eq_of_le (by omega) (by omega)
  rw [scaleQ12, toInt_saturateInt32, hshift, Int64.toInt_add, hmul, hhalf,
    Int.bmod_eq_of_le (by omega) (by omega)]

theorem toInt_clampInt32 {low high : Int32} (h : low.toInt ≤ high.toInt) (v : Int32) :
    (clampInt32 low high v).toInt = max low.toInt (min high.toInt v.toInt) := by
  rw [clampInt32]
  simp only [Int32.lt_iff_toInt_lt]
  split_ifs with hlow hhigh
  · omega
  · omega
  · omega

theorem toNat_max (a b : UInt8) : (max a b).toNat = max a.toNat b.toNat := by
  have hmax : max a b = if a ≤ b then b else a := rfl
  rw [hmax, max_def, apply_ite UInt8.toNat]
  simp only [UInt8.le_iff_toNat_le]

theorem toNat_min (a b : UInt8) : (min a b).toNat = min a.toNat b.toNat := by
  have hmin : min a b = if a ≤ b then a else b := rfl
  rw [hmin, min_def, apply_ite UInt8.toNat]
  simp only [UInt8.le_iff_toNat_le]

end FixedRaster
