import Mathlib
import FixedRaster.Hsl
import FixedRaster.Proofs.Words

/-!
# The inverse transform in unbounded numbers

The extreme channels of a color lie equally far from its lightness. The distance is the swing: it
grows and falls by at most one a step of lightness, so both extremes rise with the lightness. A
channel is mixed from the extremes by a slope that only the hue decides, and rises with both.
-/

namespace FixedRaster.Hsl

/-- How far the extreme channels are from the lightness on a 16-bit scale. -/
def swing (l s : ℕ) : ℕ := (min l (65535 - l) * s + 2048) / 4096

/-- How much of the greatest channel there is in a channel at a hue, in parts of 2¹⁶. -/
def slope (hue : UInt16) : ℕ :=
  if lastThird ≤ hue then 0
  else if middle ≤ hue then 6 * (43690 - hue.toNat)
  else if secondSixth ≤ hue then 65536
  else 6 * hue.toNat

def mix (low high slope : ℕ) : ℕ := low + ((high - low) * slope + 32768) / 65536

def lowest (l s : ℕ) : ℕ := (l - swing l s) / 256

def highest (l s : ℕ) : ℕ := (l + swing l s) / 256

section
variable {l l' s : ℕ}

theorem swing_le (hs : s ≤ 4095) : swing l s ≤ min l (65535 - l) := by
  have hmul : min l (65535 - l) * s ≤ min l (65535 - l) * 4095 := Nat.mul_le_mul_left _ hs
  rw [swing]
  omega

theorem swing_succ (hs : s ≤ 4095) : swing l s ≤ swing (l + 1) s + 1 ∧
    swing (l + 1) s ≤ swing l s + 1 := by
  have hup : min (l + 1) (65535 - (l + 1)) * s ≤ (min l (65535 - l) + 1) * s :=
    Nat.mul_le_mul_right _ (by omega)
  have hdown : min l (65535 - l) * s ≤ (min (l + 1) (65535 - (l + 1)) + 1) * s :=
    Nat.mul_le_mul_right _ (by omega)
  rw [Nat.add_mul] at hup hdown
  rw [swing, swing]
  omega

theorem swing_zero (l : ℕ) : swing l 0 = 0 := by
  simp [swing]

theorem extremes_bounds (hs : s ≤ 4095) (hl : l ≤ 65535) :
    lowest l s ≤ highest l s ∧ highest l s ≤ 255 := by
  have hswing := swing_le (l := l) hs
  rw [lowest, highest]
  omega

theorem extremes_mono (hs : s ≤ 4095) (h : l ≤ l') :
    l - swing l s ≤ l' - swing l' s ∧ l + swing l s ≤ l' + swing l' s := by
  induction l', h using Nat.le_induction with
  | base => exact ⟨le_rfl, le_rfl⟩
  | succ k hk ih =>
    have hstep := swing_succ (l := k) hs
    have hle := swing_le (l := k) hs
    have hle' := swing_le (l := k + 1) hs
    omega

end

theorem slope_le (hue : UInt16) : slope hue ≤ 65538 := by
  rw [slope]
  split_ifs with hlast hmiddle hsixth
  · omega
  · have hle : 32767 ≤ hue.toNat := by simpa [middle, UInt16.le_iff_toNat_le] using hmiddle
    omega
  · omega
  · have hlt : hue.toNat < 10922 := by simpa [secondSixth, UInt16.le_iff_toNat_le] using hsixth
    omega

section
variable {low high low' high' k : ℕ}

theorem mix_zero (low high : ℕ) : mix low high 0 = low := by
  rw [mix, Nat.mul_zero]
  omega

theorem mix_self (low k : ℕ) : mix low low k = low := by
  rw [mix, Nat.sub_self, Nat.zero_mul]
  omega

/-- A slope that one step of the circle keeps from full still mixes the greatest channel. -/
theorem mix_full (hk : 65526 ≤ k) (hk' : k ≤ 65538) (hlow : low ≤ high) (hhigh : high ≤ 255) :
    mix low high k = high := by
  obtain ⟨d, rfl⟩ := Nat.exists_eq_add_of_le hlow
  obtain ⟨j, rfl⟩ := Nat.exists_eq_add_of_le hk
  have hextra : d * j ≤ d * 12 := Nat.mul_le_mul_left d (by omega)
  rw [mix, Nat.add_sub_cancel_left, Nat.mul_add]
  omega

theorem mix_eq (hk : k ≤ 65536) (hlow : low ≤ high) :
    mix low high k = (low * (65536 - k) + high * k + 32768) / 65536 := by
  obtain ⟨d, rfl⟩ := Nat.exists_eq_add_of_le hlow
  obtain ⟨j, hj⟩ := Nat.exists_eq_add_of_le hk
  have hrest : 65536 - k = j := by omega
  have hsplit : low * j + (low + d) * k = low * 65536 + d * k := by
    rw [hj]
    ring
  rw [mix, Nat.add_sub_cancel_left, hrest, hsplit]
  omega

theorem mix_mem (hk : k ≤ 65538) (hlow : low ≤ high) (hhigh : high ≤ 255) :
    low ≤ mix low high k ∧ mix low high k ≤ high := by
  refine ⟨Nat.le_add_right .., ?_⟩
  by_cases hfull : 65536 ≤ k
  · exact (mix_full (by omega) hk hlow hhigh).le
  · obtain ⟨d, rfl⟩ := Nat.exists_eq_add_of_le hlow
    have hmul : d * k ≤ d * 65536 := Nat.mul_le_mul_left d (by omega)
    rw [mix, Nat.add_sub_cancel_left]
    omega

theorem mix_mono (hk : k ≤ 65538) (hlow : low ≤ high) (hlow' : low' ≤ high') (hhigh' : high' ≤ 255)
    (hl : low ≤ low') (hh : high ≤ high') : mix low high k ≤ mix low' high' k := by
  by_cases hfull : 65536 ≤ k
  · rw [mix_full (by omega) hk hlow (by omega), mix_full (by omega) hk hlow' hhigh']
    exact hh
  · rw [mix_eq (by omega) hlow, mix_eq (by omega) hlow']
    have hlows : low * (65536 - k) ≤ low' * (65536 - k) := Nat.mul_le_mul_right _ hl
    have hhighs : high * k ≤ high' * k := Nat.mul_le_mul_right _ hh
    exact Nat.div_le_div_right (by omega)

end

section
variable {l s low high : UInt32}

theorem toNat_greatest16 (hl : l.toNat ≤ 65535) (hs : s.toNat ≤ 4095) :
    (greatest16 l s).toNat = l.toNat + swing l.toNat s.toNat := by
  have hmul : l.toNat * s.toNat ≤ 65535 * 4095 := Nat.mul_le_mul hl hs
  have hmul' : (65535 - l.toNat) * s.toNat ≤ 65535 * 4095 := Nat.mul_le_mul (by omega) hs
  have hsplit : l.toNat * (4096 + s.toNat) = l.toNat * 4096 + l.toNat * s.toNat :=
    Nat.mul_add ..
  have hle : l ≤ 0xffff := UInt32.le_iff_toNat_le.2 hl
  have hsub : (0xffff - l).toNat = 65535 - l.toNat := UInt32.toNat_sub_of_le _ _ hle
  rw [greatest16, swing]
  split_ifs with hdark
  · have hdark' : l.toNat ≤ 32767 := by simpa [UInt32.le_iff_toNat_le] using hdark
    simp only [UInt32.toNat_shiftRight, UInt32.toNat_add, UInt32.toNat_mul, UInt32.reduceToNat,
      Nat.reducePow, Nat.mul_mod_mod, Nat.mod_add_mod, Nat.reduceMod, Nat.shiftRight_eq_div_pow]
    rw [min_eq_left (by omega)]
    omega
  · have hdark' : ¬ l.toNat ≤ 32767 := by simpa [UInt32.le_iff_toNat_le] using hdark
    simp only [UInt32.toNat_add, UInt32.toNat_shiftRight, UInt32.toNat_mul, hsub, Nat.reducePow,
      UInt32.reduceToNat, Nat.mod_add_mod, Nat.reduceMod, Nat.shiftRight_eq_div_pow]
    rw [min_eq_right (by omega)]
    omega

theorem toNat_least16 (hl : l.toNat ≤ 65535) (hs : s.toNat ≤ 4095) :
    (least16 l s).toNat = l.toNat - swing l.toNat s.toNat := by
  have hgreatest := toNat_greatest16 hl hs
  have hswing := swing_le (l := l.toNat) hs
  have hdouble : (2 * l).toNat = 2 * l.toNat := by
    simp only [UInt32.toNat_mul, UInt32.reduceToNat, Nat.reducePow]
    omega
  have hle : greatest16 l s ≤ 2 * l := by
    rw [UInt32.le_iff_toNat_le, hgreatest, hdouble]
    omega
  rw [least16, UInt32.toNat_sub_of_le _ _ hle, hgreatest, hdouble]
  omega

theorem toNat_extremes (hl : l.toNat ≤ 65535) (hs : s.toNat ≤ 4095) :
    (least16 l s >>> 8).toNat = lowest l.toNat s.toNat ∧
      (greatest16 l s >>> 8).toNat = highest l.toNat s.toNat := by
  rw [UInt32.toNat_shiftRight, UInt32.toNat_shiftRight, toNat_least16 hl hs,
    toNat_greatest16 hl hs, Nat.shiftRight_eq_div_pow, Nat.shiftRight_eq_div_pow]
  exact ⟨rfl, rfl⟩

theorem toNat_ramp (hlow : low.toNat ≤ high.toNat) (hhigh : high.toNat ≤ 255) (hue : UInt16) :
    (ramp low high hue).toNat = mix low.toNat high.toNat (slope hue) := by
  have hsub : (high - low).toNat = high.toNat - low.toNat :=
    UInt32.toNat_sub_of_le _ _ (UInt32.le_iff_toNat_le.2 hlow)
  have hmem := mix_mem (slope_le hue) hlow hhigh
  have hbyte : mix low.toNat high.toNat (slope hue) % 256 = mix low.toNat high.toNat (slope hue) :=
    Nat.mod_eq_of_lt (by omega)
  rw [← hbyte, ramp, UInt32.toNat_toUInt8]
  congr 1
  have hprod := Nat.mul_le_mul (show high.toNat - low.toNat ≤ 255 by omega) (slope_le hue)
  rw [mix] at hmem ⊢
  rw [slope] at hmem hprod ⊢
  split_ifs at hmem hprod ⊢ with hlast hmiddle hsixth
  · simp only [mul_zero, zero_add, Nat.reduceDiv, add_zero]
  · have hle : hue ≤ lastThird := UInt16.le_of_lt (UInt16.not_le.1 hlast)
    have hdist : (lastThird - hue).toUInt32.toNat = 43690 - hue.toNat :=
      UInt16.toNat_sub_of_le _ _ hle
    have hassoc : (high.toNat - low.toNat) * 6 * (43690 - hue.toNat) =
        (high.toNat - low.toNat) * (6 * (43690 - hue.toNat)) := Nat.mul_assoc ..
    simp only [UInt32.toNat_add, UInt32.toNat_shiftRight, UInt32.toNat_mul, hsub, hdist,
      UInt32.reduceToNat, Nat.reducePow, Nat.mod_mul_mod, hassoc, Nat.mod_add_mod, Nat.reduceMod,
      Nat.shiftRight_eq_div_pow]
    omega
  · omega
  · have hassoc : (high.toNat - low.toNat) * 6 * hue.toNat =
        (high.toNat - low.toNat) * (6 * hue.toNat) := Nat.mul_assoc ..
    simp only [UInt32.toNat_add, UInt32.toNat_shiftRight, UInt32.toNat_mul, hsub,
      UInt16.toNat_toUInt32, UInt32.reduceToNat, Nat.reducePow, Nat.mod_mul_mod, hassoc,
      Nat.mod_add_mod, Nat.reduceMod, Nat.shiftRight_eq_div_pow]
    omega

end

theorem toInt_shiftRight_byte (v : Int32) : (v >>> 8).toInt = v.toInt / 256 := by
  rw [← Int32.toInt_toBitVec, Int32.toBitVec_shiftRight]
  simp [BitVec.toInt_sshiftRight, Int.shiftRight_eq_div_pow]

section
variable {c : Hsl} {l : ℕ}

theorem toNat_toRgb (hl : c.lightness.toInt = l) (hle : l ≤ 65535)
    (hs : c.saturation.toNat ≤ 4095) :
    c.toRgb.1.toNat = mix (lowest l c.saturation.toNat) (highest l c.saturation.toNat)
        (slope (c.hue + third)) ∧
      c.toRgb.2.1.toNat = mix (lowest l c.saturation.toNat) (highest l c.saturation.toNat)
        (slope c.hue) ∧
      c.toRgb.2.2.toNat = mix (lowest l c.saturation.toNat) (highest l c.saturation.toNat)
        (slope (c.hue - third)) := by
  by_cases hgray : c.saturation = 0
  · have hshift := toInt_shiftRight_byte c.lightness
    have hbyte : (c.lightness >>> 8).toUInt32.toUInt8.toNat = l / 256 := by
      have hword := toNat_toUInt32 (v := c.lightness >>> 8) (by omega)
      rw [UInt32.toNat_toUInt8]
      omega
    have hmix : ∀ k, mix (lowest l c.saturation.toNat) (highest l c.saturation.toNat) k =
        l / 256 := by
      intro k
      rw [hgray, lowest, highest, UInt16.toNat_zero, swing_zero, Nat.sub_zero, Nat.add_zero,
        mix_self]
    rw [toRgb_of_saturation_eq_zero hgray, hmix, hmix, hmix]
    exact ⟨hbyte, hbyte, hbyte⟩
  · have hl' : c.lightness.toUInt32.toNat = l := by
      have hword := toNat_toUInt32 (v := c.lightness) (by omega)
      omega
    obtain ⟨hlow, hhigh⟩ := toNat_extremes (l := c.lightness.toUInt32)
      (s := c.saturation.toUInt32) (by omega) hs
    rw [hl', UInt16.toNat_toUInt32] at hlow hhigh
    obtain ⟨hle', hbyte⟩ := extremes_bounds hs hle
    have hramp : ∀ hue : UInt16, (ramp (least16 c.lightness.toUInt32 c.saturation.toUInt32 >>> 8)
        (greatest16 c.lightness.toUInt32 c.saturation.toUInt32 >>> 8) hue).toNat =
          mix (lowest l c.saturation.toNat) (highest l c.saturation.toNat) (slope hue) := by
      intro hue
      rw [toNat_ramp (by rwa [hlow, hhigh]) (by rwa [hhigh]), hlow, hhigh]
    rw [toRgb, if_neg hgray]
    exact ⟨hramp _, hramp _, hramp _⟩

theorem toRgb_mono {hue saturation : UInt16} {lightness lightness' : Int32}
    (hs : saturation.toNat ≤ 4095) (hlow : 0 ≤ lightness.toInt)
    (hle : lightness.toInt ≤ lightness'.toInt) (hhigh : lightness'.toInt ≤ 65535) :
    toRgb ⟨hue, saturation, lightness⟩ ≤ toRgb ⟨hue, saturation, lightness'⟩ := by
  obtain ⟨l, hl⟩ := Int.eq_ofNat_of_zero_le hlow
  obtain ⟨l', hl'⟩ := Int.eq_ofNat_of_zero_le (hlow.trans hle)
  obtain ⟨hr, hg, hb⟩ := toNat_toRgb (c := ⟨hue, saturation, lightness⟩) hl (by omega) hs
  obtain ⟨hr', hg', hb'⟩ := toNat_toRgb (c := ⟨hue, saturation, lightness'⟩) hl' (by omega) hs
  obtain ⟨hspan, -⟩ := extremes_bounds hs (show l ≤ 65535 by omega)
  obtain ⟨hspan', hbyte⟩ := extremes_bounds hs (show l' ≤ 65535 by omega)
  obtain ⟨hleast, hgreatest⟩ := extremes_mono hs (show l ≤ l' by omega)
  have hmix : ∀ hue : UInt16, mix (lowest l saturation.toNat) (highest l saturation.toNat)
      (slope hue) ≤ mix (lowest l' saturation.toNat) (highest l' saturation.toNat) (slope hue) := by
    intro hue
    exact mix_mono (slope_le hue) hspan hspan' hbyte (Nat.div_le_div_right hleast)
      (Nat.div_le_div_right hgreatest)
  refine ⟨?_, ?_, ?_⟩
  · rw [UInt8.le_iff_toNat_le, hr, hr']
    exact hmix _
  · rw [UInt8.le_iff_toNat_le, hg, hg']
    exact hmix _
  · rw [UInt8.le_iff_toNat_le, hb, hb']
    exact hmix _

end

end FixedRaster.Hsl
