import Mathlib
import FixedRaster.Proofs.Unsharp.Response

/-!
# The brightness that a sharpened pixel reaches

The mask moves the brightness of a pixel to a target and then rebuilds the color in bytes. The
brightness of the rebuilt color is off the target by less than one step of a byte. A value scales
its channels by a quotient in Q12, and each of them is off the exact quotient by little more than
the half that rounding costs.
-/

namespace FixedRaster

theorem toNat_lightness (color : UInt8 × UInt8 × UInt8) :
    (ColorModel.hsl.brightness color.1 color.2.1 color.2.2).toNat =
      (leastOf color + greatestOf color) * 257 / 2 := by
  obtain ⟨low, d, -, hleast, hmost, h⟩ := Hsl.exists_encodes color.1 color.2.1 color.2.2
  have hbrightness := toNat_brightness_hsl color.1 color.2.1 color.2.2
  rw [h.lightness_eq] at hbrightness
  rw [leastOf, greatestOf, hleast, hmost]
  omega

theorem toNat_value (color : UInt8 × UInt8 × UInt8) :
    (ColorModel.hsv.brightness color.1 color.2.1 color.2.2).toNat = greatestOf color * 256 :=
  toNat_brightness_hsv color.1 color.2.1 color.2.2

/-- The lightness of extremes that lie equally far from `l` and were cut to bytes. -/
theorem abs_lightness_sub_le {l t : ℕ} (ht : t ≤ l) (hl : l + t ≤ 65535) :
    |((((l - t) / 256 + (l + t) / 256) * 257 / 2 : ℕ) : ℤ) - l| ≤ 255 := by
  rw [abs_le]
  omega

theorem mul_quotient_le {c v t : ℕ} (hc : c * 256 ≤ v) (ht : t ≤ 65280) :
    (c * (t * 4096 / v) + 2048) / 4096 ≤ 255 := by
  have hprod : c * 256 * (t * 4096 / v) ≤ t * 4096 :=
    (Nat.mul_le_mul_right _ hc).trans (Nat.mul_div_le (t * 4096) v)
  have hswap : c * 256 * (t * 4096 / v) = c * (t * 4096 / v) * 256 := by ring
  omega

section
variable {c v t : ℕ} (hv : 0 < v)
include hv

theorem mul_quotient_bounds :
    c * (t * 4096 / v) * v ≤ c * t * 4096 ∧ c * t * 4096 ≤ c * (t * 4096 / v + 1) * v := by
  have hle := Nat.mul_le_mul_left c (Nat.div_mul_le_self (t * 4096) v)
  have hlt := Nat.mul_le_mul_left c (Nat.lt_mul_div_succ (t * 4096) hv).le
  constructor
  · calc
      c * (t * 4096 / v) * v = c * (t * 4096 / v * v) := Nat.mul_assoc ..
      _ ≤ c * (t * 4096) := hle
      _ = c * t * 4096 := (Nat.mul_assoc ..).symm
  · calc
      c * t * 4096 = c * (t * 4096) := Nat.mul_assoc ..
      _ ≤ c * (v * (t * 4096 / v + 1)) := hlt
      _ = c * (t * 4096 / v + 1) * v := by ring

theorem abs_mul_quotient_sub_le (hc : c ≤ 255) :
    |(((c * (t * 4096 / v) + 2048) / 4096 : ℕ) : ℚ) - c * t / v| ≤ 9 / 16 := by
  obtain ⟨hbelow, habove⟩ := mul_quotient_bounds (c := c) (t := t) hv
  have hv' : (0 : ℚ) < v := by exact_mod_cast hv
  generalize t * 4096 / v = g at hbelow habove ⊢
  have hlow : (c : ℚ) * g ≤ c * t / v * 4096 := by
    rw [div_mul_eq_mul_div, le_div_iff₀ hv']
    exact_mod_cast hbelow
  have hhigh : (c : ℚ) * t / v * 4096 ≤ c * g + c := by
    rw [div_mul_eq_mul_div, div_le_iff₀ hv']
    calc
      (c : ℚ) * t * 4096 ≤ c * (g + 1) * v := by exact_mod_cast habove
      _ = (c * g + c) * v := by ring
  have hdiv := Nat.div_add_mod (c * g + 2048) 4096
  have hmod := Nat.mod_lt (c * g + 2048) (show 0 < 4096 by decide)
  generalize (c * g + 2048) / 4096 = x at hdiv ⊢
  have hup : (4096 : ℚ) * x ≤ c * g + 2048 := by
    exact_mod_cast (show 4096 * x ≤ c * g + 2048 by omega)
  have hdown : (c : ℚ) * g + 2048 < 4096 * x + 4096 := by
    exact_mod_cast (show c * g + 2048 < 4096 * x + 4096 by omega)
  have hbyte : (c : ℚ) ≤ 255 := by exact_mod_cast hc
  rw [abs_le]
  constructor <;> linarith

end

theorem abs_value_sub_le {c t : ℕ} (hc : 0 < c) (hbyte : c ≤ 255) :
    |(((c * (t * 4096 / (c * 256)) + 2048) / 4096 * 256 : ℕ) : ℤ) - t| ≤ 255 := by
  obtain ⟨hbelow, habove⟩ := mul_quotient_bounds (c := 1) (t := t) (show 0 < c * 256 by omega)
  generalize t * 4096 / (c * 256) = g at hbelow habove ⊢
  have hlow : 1 * g * (c * 256) = c * g * 256 := by ring
  have hhigh : 1 * (g + 1) * (c * 256) = c * g * 256 + c * 256 := by ring
  rw [abs_le]
  omega

namespace Unsharp.Mask
variable {m : Mask} {p q : Pixel} {contrast : Int32}

theorem lightness_near_target (hm : m.model = .hsl) (p : Pixel) (contrast : Int32) :
    let c := m.boostLightness p contrast
    |((ColorModel.hsl.brightness c.1 c.2.1 c.2.2).toNat : ℤ) - m.target p contrast| ≤ 255 := by
  intro c
  obtain ⟨hlow, hhigh⟩ := m.target_bounds p contrast
  have htop := m.top_bounds
  have hswing := Hsl.swing_le (l := (m.target p contrast).toNat)
    (Hsl.saturation_ofRgb_le p.r p.g p.b)
  obtain ⟨hleast, hmost⟩ := (recolors_boostLightness hm p contrast).extremes
  have hnear := abs_lightness_sub_le (hswing.trans (min_le_left ..)) (by omega)
  rw [Int.toNat_of_nonneg hlow] at hnear
  rw [toNat_lightness, hleast, hmost]
  exact hnear

theorem greatestOf_boostValue (m : Mask) (p : Pixel) (sample : UInt16) (contrast : Int32) :
    greatestOf (m.boostValue p sample contrast) =
      min ((greatestOf (color p) * (m.gain sample contrast).toNat + 2048) / 4096) 255 := by
  have hgain := m.gain_le sample contrast
  have hmono : Monotone fun c : ℕ =>
      min ((c * (m.gain sample contrast).toNat + 2048) / 4096) 255 := by
    intro a b hab
    have hprod := Nat.mul_le_mul_right (m.gain sample contrast).toNat hab
    simp only
    omega
  simp only [greatestOf, boostValue, color, toNat_scaleChannel hgain]
  rw [← hmono.map_max, ← hmono.map_max]

section
variable (hm : m.model = .hsv)
include hm

theorem toNat_brightnessOf (p : Pixel) :
    (m.model.brightnessOf p).toNat = greatestOf (color p) * 256 := by
  rw [hm]
  exact toNat_value (color p)

theorem exists_target (p : Pixel) (contrast : Int32) :
    ∃ t : ℕ, m.target p contrast = t ∧ t ≤ 65280 := by
  obtain ⟨hlow, hhigh⟩ := m.target_bounds p contrast
  have htop : m.top.toInt = 65280 := by
    rw [top, hm]
    rfl
  obtain ⟨t, ht⟩ := Int.eq_ofNat_of_zero_le hlow
  exact ⟨t, ht, by omega⟩

section
variable (hpos : 0 < m.model.brightnessOf p)
include hpos

theorem greatestOf_pos : 0 < greatestOf (color p) := by
  have hvalue := toNat_brightnessOf hm p
  have hpos' := UInt16.lt_iff_toNat_lt.1 hpos
  simp only [UInt16.toNat_zero] at hpos'
  omega

theorem toNat_gain_of_pos {t : ℕ} (ht : m.target p contrast = t) :
    (m.gain (m.model.brightnessOf p) contrast).toNat =
      t * 4096 / (greatestOf (color p) * 256) := by
  have hgreatest := greatestOf_pos hm hpos
  have hquot := m.toNat_gain p contrast
  rw [ht, toNat_brightnessOf hm, max_eq_right (by omega)] at hquot
  exact_mod_cast hquot

theorem scaled_le (contrast : Int32) (k : Primary) :
    (scaled (m.gain (m.model.brightnessOf p) contrast) (k.of (color p))).toNat ≤ 255 := by
  obtain ⟨t, ht, hle⟩ := exists_target hm p contrast
  have hbounds := k.of_bounds (color p)
  rw [toNat_scaled (m.gain_le _ contrast), toNat_gain_of_pos hm hpos ht]
  exact mul_quotient_le (by omega) hle

theorem channel_near_target (contrast : Int32) (k : Primary) :
    |((k.of (m.boostValue p (m.model.brightnessOf p) contrast)).toNat : ℚ) -
        (k.of (color p)).toNat * m.target p contrast / (m.model.brightnessOf p).toNat| ≤
      9 / 16 := by
  obtain ⟨t, ht, -⟩ := exists_target hm p contrast
  have hgain := m.gain_le (m.model.brightnessOf p) contrast
  have hgreatest := greatestOf_pos hm hpos
  have huncut := scaled_le hm hpos contrast k
  rw [toNat_scaled hgain] at huncut
  rw [of_boostValue, toNat_scaleChannel hgain, min_eq_left huncut, toNat_gain_of_pos hm hpos ht, ht,
    toNat_brightnessOf hm]
  exact abs_mul_quotient_sub_le (by omega) (Nat.le_of_lt_succ (k.of (color p)).toNat_lt)

theorem value_near_target (contrast : Int32) :
    let c := m.boostValue p (m.model.brightnessOf p) contrast
    |((ColorModel.hsv.brightness c.1 c.2.1 c.2.2).toNat : ℤ) - m.target p contrast| ≤ 255 := by
  intro c
  obtain ⟨t, ht, hle⟩ := exists_target hm p contrast
  have hgreatest := greatestOf_pos hm hpos
  have hvalue := toNat_brightnessOf hm p
  have hbyte := (m.model.brightnessOf p).toNat_lt
  have huncut := mul_quotient_le (c := greatestOf (color p)) (v := greatestOf (color p) * 256)
    (t := t) le_rfl hle
  rw [toNat_value c, greatestOf_boostValue, toNat_gain_of_pos hm hpos ht, min_eq_left huncut, ht]
  exact abs_value_sub_le hgreatest (by omega)

end

theorem black_near_target (hstrength : 0 ≤ m.strength.toInt)
    (hblack : m.model.brightnessOf p = 0) (blurred : UInt16) :
    let c := m.boostValue p (m.model.brightnessOf p) (m.contrast (m.model.brightnessOf p) blurred)
    |((ColorModel.hsv.brightness c.1 c.2.1 c.2.2).toNat : ℤ) -
      m.target p (m.contrast (m.model.brightnessOf p) blurred)| ≤ 255 := by
  intro c
  have hvalue : (m.model.brightnessOf p).toNat = 0 := congrArg UInt16.toNat hblack
  have hcontrast : (m.contrast (m.model.brightnessOf p) blurred).toInt ≤ 0 := by
    rw [toInt_contrast, hvalue, hm, ColorModel.weight]
    omega
  have htarget : m.target p (m.contrast (m.model.brightnessOf p) blurred) = 0 := by
    have hmono : m.target p (m.contrast (m.model.brightnessOf p) blurred) ≤ m.target p 0 :=
      target_mono rfl p (mul_le_mul_of_nonneg_left hcontrast hstrength)
    have hlow := (m.target_bounds p (m.contrast (m.model.brightnessOf p) blurred)).1
    rw [target_zero, hvalue] at hmono
    omega
  have hgreatest : greatestOf (color p) = 0 := by
    have hmost := toNat_brightnessOf hm p
    omega
  rw [htarget, toNat_value c, greatestOf_boostValue, hgreatest]
  simp

end

/-- A sharpened pixel is as bright as its target to less than one step of a byte. With the value
of a pixel that is not black, each channel is the exact quotient to nine sixteenths, and none is
cut. -/
theorem sharpened_near_target (model : ColorModel) (percent : UInt32) (least : UInt8) {p q : Pixel}
    {blurred : UInt16}
    (h : (ofPercent model percent least).sharpen? p (model.brightnessOf p) blurred = some q) :
    let m := ofPercent model percent least
    let sample := model.brightnessOf p
    let contrast := m.contrast sample blurred
    let target := (m.boosted (Int32.ofNat sample.toNat) contrast).toInt
    |((model.brightnessOf q).toNat : ℤ) - target| ≤ 255 ∧
      (model = .hsv → 0 < sample → ∀ k : Primary,
        |((k.of (color q)).toNat : ℚ) - (k.of (color p)).toNat * target / sample.toNat| ≤ 9 / 16 ∧
        (scaled (m.gain sample contrast) (k.of (color p))).toNat ≤ 255) := by
  intro m sample contrast target
  have hcolor : color q = m.boost p sample contrast := color_of_sharpen? h
  have htarget : target = m.target p contrast := toInt_boosted_value m p contrast
  have hreached : model.brightnessOf q =
      model.brightness (color q).1 (color q).2.1 (color q).2.2 := rfl
  rw [hreached, hcolor, htarget]
  cases model with
  | hsl => exact ⟨lightness_near_target rfl p contrast, nofun⟩
  | hsv =>
    rcases eq_or_ne sample 0 with hblack | hne
    · -- black has no quotient to be scaled by, but its contrast only asks it to be darker
      refine ⟨black_near_target rfl (strength_nonneg .hsv percent least) hblack blurred, ?_⟩
      intro _ hpos
      rw [hblack] at hpos
      exact absurd hpos (by decide)
    · have hpos : 0 < m.model.brightnessOf p := UInt16.pos_iff_ne_zero.2 hne
      refine ⟨value_near_target rfl hpos contrast, ?_⟩
      intro _ _ k
      exact ⟨channel_near_target rfl hpos contrast k, scaled_le rfl hpos contrast k⟩

theorem sharpened_near_target_copper :
    let m := ofPercent .hsv 150 2
    let p : Pixel := ⟨200, 90, 40, 7⟩
    let q : Pixel := ⟨219, 98, 44, 7⟩
    let sample := ColorModel.hsv.brightnessOf p
    let target := (m.boosted (Int32.ofNat sample.toNat) (m.contrast sample 48000)).toInt
    m.sharpen? p sample 48000 = some q ∧ 0 < sample ∧ target = 56000 ∧
      |((ColorModel.hsv.brightnessOf q).toNat : ℤ) - target| ≤ 255 ∧
      ∀ k : Primary,
        |((k.of (color q)).toNat : ℚ) - (k.of (color p)).toNat * target / sample.toNat| ≤
          9 / 16 := by
  intro m p q sample target
  have hsharp : m.sharpen? p sample 48000 = some q := by decide +kernel
  have hpos : 0 < sample := by decide
  obtain ⟨hnear, hchannels⟩ := sharpened_near_target .hsv 150 2 hsharp
  exact ⟨hsharp, hpos, by decide +kernel, hnear, fun k => (hchannels rfl hpos k).1⟩

end Unsharp.Mask
end FixedRaster
