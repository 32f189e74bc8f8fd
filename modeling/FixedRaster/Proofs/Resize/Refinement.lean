import Mathlib
import FixedRaster.Proofs.Resize.Exact

/-!
# Samples and bytes of a resize have their exact value

For a row of taps whose mass was checked, the four 32-bit sums of either pass equal the unbounded
ones, and the narrowing that follows loses nothing. The only saturation that can act is the one in
the division by alpha, and it acts where the byte is 0 or 255 anyway.
-/

namespace FixedRaster.Resize

def level (middle : Array UInt16) (i : ℕ) (c : Channel) : ℤ := (middle.getD (i * 4 + c) 0).toNat

theorem level_nonneg (middle : Array UInt16) (i : ℕ) (c : Channel) : 0 ≤ level middle i c :=
  Int.natCast_nonneg _

theorem level_le (middle : Array UInt16) (i : ℕ) (c : Channel) : level middle i c ≤ 65535 := by
  have h := (middle.getD (i * 4 + c) 0).toNat_lt
  rw [level]
  omega

theorem abs_level_le (middle : Array UInt16) (i : ℕ) (c : Channel) :
    |level middle i c| ≤ (65535 : ℕ) :=
  abs_le.2 ⟨by have := level_nonneg middle i c; omega, level_le middle i c⟩

theorem toInt_byteAt (image : Array UInt8) (i : ℕ) (c : Channel) :
    (byteAt image i c).toInt = Exact.channel image i c :=
  toInt_byte _

theorem toInt_sampleAt (middle : Array UInt16) (i : ℕ) (c : Channel) :
    (sampleAt middle i c).toInt = level middle i c :=
  toInt_half _

theorem toInt_weight_mul (w : Int16) {x : Int32} (hx : |x.toInt| ≤ 65535) :
    (w.toInt32 * x).toInt = w.toInt * x.toInt := by
  have hw := abs_toInt16_le w
  have hprod : |w.toInt * x.toInt| ≤ 2 ^ 15 * 65535 := by
    rw [abs_mul]
    exact mul_le_mul hw hx (abs_nonneg _) (by norm_num)
  have h32 : w.toInt32.toInt = w.toInt := Int16.toInt_toInt32 w
  rw [← h32] at hprod ⊢
  exact toInt_mul_of_fits (by omega)

theorem toInt_byte_term (w : Int16) (image : Array UInt8) (i : ℕ) (c : Channel) :
    (w.toInt32 * byteAt image i c).toInt = w.toInt * Exact.channel image i c := by
  have h := Exact.abs_channel_le image i c
  rw [← toInt_byteAt] at h ⊢
  exact toInt_weight_mul w (by omega)

theorem toInt_premultiplied_term (w : Int16) (image : Array UInt8) (i : ℕ) (c : Channel) :
    (w.toInt32 * byteAt image i alpha * byteAt image i c).toInt =
      w.toInt * (Exact.channel image i alpha * Exact.channel image i c) := by
  have hw := abs_toInt16_le w
  have hprod : |w.toInt * (Exact.channel image i alpha * Exact.channel image i c)| ≤
      2 ^ 15 * 65025 := by
    rw [abs_mul]
    exact mul_le_mul hw (Exact.abs_premultiplied_le image i c) (abs_nonneg _) (by norm_num)
  have hstep : (w.toInt32 * byteAt image i alpha).toInt * (byteAt image i c).toInt =
      w.toInt * (Exact.channel image i alpha * Exact.channel image i c) := by
    rw [toInt_byte_term, toInt_byteAt, mul_assoc]
  rw [← hstep] at hprod ⊢
  exact toInt_mul_of_fits (by omega)

theorem toInt_sample_term (w : Int16) (middle : Array UInt16) (i : ℕ) (c : Channel) :
    (w.toInt32 * sampleAt middle i c).toInt = w.toInt * level middle i c := by
  have h := abs_level_le middle i c
  rw [← toInt_sampleAt] at h ⊢
  exact toInt_weight_mul w (by omega)

section
variable {t : Taps} (ht : t.mass ≤ 32767)
include ht

theorem toInt_weigh_bytes (image : Array UInt8) (origin : ℕ) (c : Channel) :
    (weigh (fun w i => w * byteAt image (origin + i) c) t).toInt =
      t.dot fun i => Exact.channel image (origin + i) c :=
  toInt_weigh t (fun w i => toInt_byte_term w image (origin + i) c)
    (fun i => Exact.abs_channel_le image (origin + i) c) (by omega)

theorem toInt_weigh_premultiplied (image : Array UInt8) (origin : ℕ) (c : Channel) :
    (weigh (fun w i => w * byteAt image (origin + i) alpha * byteAt image (origin + i) c) t).toInt =
      t.dot fun i => Exact.channel image (origin + i) alpha * Exact.channel image (origin + i) c :=
  toInt_weigh t (fun w i => toInt_premultiplied_term w image (origin + i) c)
    (fun i => Exact.abs_premultiplied_le image (origin + i) c) (by omega)

theorem toInt_weigh_samples (middle : Array UInt16) (origin : ℕ) (c : Channel) :
    (weigh (fun w i => w * sampleAt middle (origin + i) c) t).toInt =
      t.dot fun i => level middle (origin + i) c :=
  toInt_weigh t (fun w i => toInt_sample_term w middle (origin + i) c)
    (fun i => abs_level_le middle (origin + i) c) (by omega)

theorem abs_dot_channel_le (image : Array UInt8) (origin : ℕ) (c : Channel) :
    |t.dot fun i => Exact.channel image (origin + i) c| ≤ 8355585 := by
  have h := t.abs_dot_le fun i => Exact.abs_channel_le image (origin + i) c
  omega

theorem abs_dot_premultiplied_le (image : Array UInt8) (origin : ℕ) (c : Channel) :
    |t.dot fun i => Exact.channel image (origin + i) alpha *
      Exact.channel image (origin + i) c| ≤ 2130674175 := by
  have h := t.abs_dot_le fun i => Exact.abs_premultiplied_le image (origin + i) c
  omega

theorem abs_dot_level_le (middle : Array UInt16) (origin : ℕ) (c : Channel) :
    |t.dot fun i => level middle (origin + i) c| ≤ 2147385345 := by
  have h := t.abs_dot_le fun i => abs_level_le middle (origin + i) c
  omega

end

theorem toNat_toSample_uncut {s : Int32} (h : s.toInt < 8388608) :
    (toSample s).toNat = (dropNegative (s >>> sampleShift)).toNat := by
  have hd := toNat_dropNegative (s >>> sampleShift)
  rw [toInt_shiftRight_sample] at hd
  rw [toSample, UInt32.toNat_toUInt16]
  omega

theorem toNat_toSample {s : Int32} (h : s.toInt < 8388608) :
    ((toSample s).toNat : ℤ) = max 0 (s.toInt / 128) := by
  rw [toNat_toSample_uncut h, toNat_dropNegative, toInt_shiftRight_sample]

theorem toInt_add_half {s : Int32} (h : s.toInt ≤ 2147475455) :
    (s + Q14.half).toInt = s.toInt + 8192 := by
  have hlo := s.le_toInt
  have hhalf : Q14.half.toInt = 8192 := rfl
  rw [← hhalf]
  exact toInt_add_of_fits (abs_lt.2 ⟨by omega, by omega⟩)

theorem toNat_toByte {s : Int32} (h : s.toInt ≤ 2147475455) :
    ((toByte s).toNat : ℤ) = Exact.nearestByte s.toInt := by
  rw [toByte, toNat_saturateByte, toInt_shiftRight_Q14, toInt_add_half h, Exact.nearestByte]

theorem toInt_div_255 (s : Int32) : (s / 255).toInt = s.toInt.tdiv 255 :=
  Int32.toInt_div_of_ne_right s 255 (by decide)

theorem toInt_mul_255 (color : Int32) : (color.toInt64 * 255).toInt = 255 * color.toInt := by
  have hlo := color.le_toInt
  have hhi := color.toInt_lt
  have h255 : (255 : Int64).toInt = 255 := rfl
  rw [Int64.toInt_mul, Int32.toInt_toInt64, h255, Int.bmod_eq_of_le (by omega) (by omega)]
  omega

theorem toInt_divideAlpha (color : Int32) {a : Int32} (ha : 0 < a.toInt) :
    (divideAlpha color a).toInt =
      max (-2147483648) (min 2147475455 ((255 * color.toInt).tdiv a.toInt)) := by
  have hne : a.toInt64 ≠ -1 := by
    intro h
    have hv := congrArg Int64.toInt h
    rw [Int32.toInt_toInt64] at hv
    change a.toInt = -1 at hv
    omega
  have hq : (color.toInt64 * 255 / a.toInt64).toInt = (255 * color.toInt).tdiv a.toInt := by
    rw [Int64.toInt_div_of_ne_right _ _ hne, toInt_mul_255, Int32.toInt_toInt64]
  have hmin : Int32.minValue.toInt64.toInt = -2147483648 := rfl
  have htop : (Int32.maxValue - Q14.half).toInt64.toInt = 2147475455 := rfl
  simp only [divideAlpha, Int64.lt_iff_toInt_lt, hq, hmin, htop]
  split_ifs with hlow hhigh
  · rw [max_eq_left (by omega)]
    rfl
  · rw [min_eq_left (by omega), max_eq_right (by norm_num)]
    rfl
  · rw [Int64.toInt_toInt32, hq, Int.bmod_eq_of_le (by omega) (by omega)]
    omega

/-- The saturation in the division by alpha never shows in the byte. -/
theorem toNat_toByte_divideAlpha (color : Int32) {a : UInt8} (ha : 0 < a.toNat) :
    ((toByte (divideAlpha color (Int32.ofNat a.toNat))).toNat : ℤ) =
      Exact.nearestByte ((255 * color.toInt).tdiv a.toNat) := by
  have hv := toInt_byte a
  have hq := toInt_divideAlpha color (a := Int32.ofNat a.toNat) (by omega)
  rw [toNat_toByte (by omega), hq, Exact.nearestByte_clamp, hv]

section
variable {t : Taps} (ht : t.mass ≤ 32767)
include ht

theorem toInt_weigh_bytes_lt (image : Array UInt8) (origin : ℕ) (c : Channel) :
    (weigh (fun w i => w * byteAt image (origin + i) c) t).toInt < 8388608 := by
  have hle := abs_le.1 (abs_dot_channel_le ht image origin c)
  rw [toInt_weigh_bytes ht]
  omega

theorem toInt_weigh_premultiplied_lt (image : Array UInt8) (origin : ℕ) (c : Channel) :
    (weigh (fun w i => w * byteAt image (origin + i) alpha * byteAt image (origin + i) c) t
      / 255).toInt < 8388608 := by
  have hle := abs_le.1 (abs_dot_premultiplied_le ht image origin c)
  have hdiv := Int.tdiv_le_tdiv (by norm_num : (0 : ℤ) < 255) hle.2
  have htop : Int.tdiv 2130674175 255 = 8355585 := rfl
  rw [toInt_div_255, toInt_weigh_premultiplied ht]
  omega

theorem toNat_across (image : Array UInt8) (width y : ℕ) (c : Channel) :
    ((across image (y * width) t c).toNat : ℤ) = Exact.sample image width t y c := by
  rw [across, toNat_toSample (toInt_weigh_bytes_lt ht image (y * width) c), toInt_weigh_bytes ht,
    Exact.sample]

theorem toNat_acrossWithAlpha (image : Array UInt8) (width y : ℕ) (c : Channel) :
    ((acrossWithAlpha image (y * width) t c).toNat : ℤ) =
      Exact.sampleWithAlpha image width t y c := by
  rw [acrossWithAlpha, Exact.sampleWithAlpha]
  split_ifs with hc
  · exact toNat_across ht image width y c
  · rw [toNat_toSample (toInt_weigh_premultiplied_lt ht image (y * width) c), toInt_div_255,
      toInt_weigh_premultiplied ht]

theorem toInt_downSum (middle : Array UInt16) (origin : ℕ) (c : Channel) :
    (downSum middle origin t c).toInt =
      Exact.column t (fun y => level middle (origin + y)) c := by
  rw [downSum, toInt_shiftRight_sample, toInt_weigh_samples ht, Exact.column]

theorem abs_toInt_downSum_le (middle : Array UInt16) (origin : ℕ) (c : Channel) :
    |(downSum middle origin t c).toInt| ≤ 16776449 := by
  have hle := abs_le.1 (abs_dot_level_le ht middle origin c)
  rw [toInt_downSum ht, Exact.column]
  exact abs_le.2 ⟨by omega, by omega⟩

theorem toNat_down (middle : Array UInt16) (origin : ℕ) (c : Channel) :
    ((down middle origin t c).toNat : ℤ) =
      Exact.pixel t (fun y => level middle (origin + y)) c := by
  have hle := abs_le.1 (abs_toInt_downSum_le ht middle origin c)
  rw [down, toNat_toByte (by omega), toInt_downSum ht, Exact.pixel]

theorem toNat_downWithAlpha (middle : Array UInt16) (origin : ℕ) (c : Channel) :
    ((downWithAlpha middle origin t c).toNat : ℤ) =
      Exact.pixelWithAlpha t (fun y => level middle (origin + y)) c := by
  have ha := toNat_down ht middle origin alpha
  have hle := abs_le.1 (abs_toInt_downSum_le ht middle origin c)
  have hzero : down middle origin t alpha = 0 ↔ ¬ 0 < (down middle origin t alpha).toNat := by
    rw [← UInt8.toNat_inj]
    simp
  simp only [downWithAlpha, Exact.pixelWithAlpha, ← ha, hzero, ite_not, Nat.cast_pos]
  split_ifs with hc hpos
  · rfl
  · rw [toNat_toByte_divideAlpha _ hpos, toInt_downSum ht]
  · rw [toNat_toByte (by omega), toInt_downSum ht]

theorem toNat_acrossOf (withAlpha : Bool) (image : Array UInt8) (width y : ℕ) (c : Channel) :
    (((if withAlpha then acrossWithAlpha else across) image (y * width) t c).toNat : ℤ) =
      Exact.sampleOf withAlpha image width t y c := by
  cases withAlpha with
  | false =>
    simp only [Exact.sampleOf, Bool.false_eq_true, if_false]
    exact toNat_across ht image width y c
  | true =>
    simp only [Exact.sampleOf, if_true]
    exact toNat_acrossWithAlpha ht image width y c

theorem toNat_downOf (withAlpha : Bool) (middle : Array UInt16) (origin : ℕ) (c : Channel) :
    (((if withAlpha then downWithAlpha else down) middle origin t c).toNat : ℤ) =
      Exact.pixelOf withAlpha t (fun y => level middle (origin + y)) c := by
  cases withAlpha with
  | false =>
    simp only [Exact.pixelOf, Bool.false_eq_true, if_false]
    exact toNat_down ht middle origin c
  | true =>
    simp only [Exact.pixelOf, if_true]
    exact toNat_downWithAlpha ht middle origin c

end

end FixedRaster.Resize
