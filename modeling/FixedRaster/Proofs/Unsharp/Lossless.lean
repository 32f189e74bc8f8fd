import Mathlib
import FixedRaster.Proofs.Hsl.Lossless
import FixedRaster.Proofs.Unsharp.Response

/-!
# Sharpening a pixel loses nothing

A strength is any word and the samples are any two, whether they belong to the pixel or not. The
contrast is a small word, its product with the strength fits 64 bits, and what the two saturations
cut off lies beyond the range that the brightness is clamped to. So the brightness stays in the
range that the transforms and the quotient need.
-/

namespace FixedRaster.Lossless
open Unsharp (Mask)

def contrast (m : Mask) (sample blurred : UInt16) : Except Loss Int32 := do
  let difference ← sub (Int32.ofNat sample.toNat) (Int32.ofNat blurred.toNat)
  match m.model with
  | .hsl => mul 2 difference
  | .hsv => return difference

def reaches (m : Mask) (contrast : Int32) : Except Loss Bool := do
  let magnitude ← abs contrast
  return m.threshold ≤ magnitude

def saturateInt32 (v : Int64) : Except Loss Int32 :=
  if v < Int32.minValue.toInt64 then return Int32.minValue
  else if Int32.maxValue.toInt64 < v then return Int32.maxValue
  else cast Int64.toInt32 v

def saturatingAdd (a b : Int32) : Except Loss Int32 := do
  let sum ← add a.toInt64 b.toInt64
  saturateInt32 sum

def scaleQ12 (strength difference : Int32) : Except Loss Int32 := do
  let product ← mul strength.toInt64 difference.toInt64
  let rounded ← add product Q12.half.toInt64
  saturateInt32 (rounded >>> Q12.shift.toInt64)

def boosted (m : Mask) (sample contrast : Int32) : Except Loss Int32 := do
  let moved ← scaleQ12 m.strength contrast
  let sum ← saturatingAdd sample moved
  return clampInt32 0 m.top sum

def boostLightness (m : Mask) (p : Pixel) (contrast : Int32) :
    Except Loss (UInt8 × UInt8 × UInt8) := do
  let c ← ofRgb p.r p.g p.b
  let lightness ← boosted m c.lightness contrast
  toRgb { c with lightness := lightness }

def gain (m : Mask) (value : UInt16) (contrast : Int32) : Except Loss UInt64 := do
  let old := Int32.ofNat value.toNat
  let new ← boosted m old contrast
  let shifted ← shiftLeft new Q12.shift
  let quotient ← div shifted (if old = 0 then 1 else old)
  cast (fun q => q.toInt64.toUInt64) quotient

def scaleChannel (gain : UInt64) (c : UInt8) : Except Loss UInt8 := do
  let product ← mul c.toUInt64 gain
  let scaled ← add product Q12.half.toUInt32.toUInt64
  cast UInt64.toUInt8 (min (scaled >>> Q12.shift.toUInt32.toUInt64) 255)

def boostValue (m : Mask) (p : Pixel) (value : UInt16) (contrast : Int32) :
    Except Loss (UInt8 × UInt8 × UInt8) := do
  let g ← gain m value contrast
  let red ← scaleChannel g p.r
  let green ← scaleChannel g p.g
  let blue ← scaleChannel g p.b
  return (red, green, blue)

def boost (m : Mask) (p : Pixel) (sample : UInt16) (contrast : Int32) :
    Except Loss (UInt8 × UInt8 × UInt8) :=
  match m.model with
  | .hsl => boostLightness m p contrast
  | .hsv => boostValue m p sample contrast

def sharpen? (m : Mask) (p : Pixel) (sample blurred : UInt16) : Except Loss (Option Pixel) := do
  let contrast ← contrast m sample blurred
  let reached ← reaches m contrast
  if reached then
    let color ← boost m p sample contrast
    return some ⟨color.1, color.2.1, color.2.2, p.a⟩
  else
    return none

section
variable (m : Mask)

theorem contrast_eq (sample blurred : UInt16) :
    contrast m sample blurred = pure (m.contrast sample blurred) := by
  have hs := sample.toNat_lt
  have hb := blurred.toNat_lt
  have h2 : (2 : Int32).toInt = 2 := rfl
  obtain ⟨hsub, hdifference⟩ :=
    sub_spec (toInt_half sample) (toInt_half blurred) (by omega) (by omega)
  obtain ⟨hmul, -⟩ := mul_spec h2 hdifference (by omega) (by omega)
  rw [contrast, Mask.contrast, hsub, pure_bind, hmul]
  cases m.model with
  | hsl => rfl
  | hsv => rfl

theorem reaches_eq {contrast : Int32} (h : -2 ^ 31 < contrast.toInt) :
    reaches m contrast = pure (m.reaches contrast) := by
  have habs : abs contrast = pure contrast.abs := by
    refine keep_eq ?_
    change contrast.abs.toInt = |contrast.toInt|
    rw [toInt_abs h, Int.abs_eq_natAbs]
  rw [reaches, habs, pure_bind]
  rfl

theorem saturateInt32_eq (v : Int64) : saturateInt32 v = pure (FixedRaster.saturateInt32 v) := by
  have hmin : Int32.minValue.toInt64.toInt = -2 ^ 31 := rfl
  have hmax : Int32.maxValue.toInt64.toInt = 2 ^ 31 - 1 := rfl
  rw [saturateInt32, FixedRaster.saturateInt32]
  split_ifs with hlow hhigh
  · rfl
  · rfl
  · rw [Int64.lt_iff_toInt_lt, hmin] at hlow
    rw [Int64.lt_iff_toInt_lt, hmax] at hhigh
    refine keep_eq ?_
    change v.toInt32.toInt = v.toInt
    rw [Int64.toInt_toInt32]
    exact Int.bmod_eq_of_le (by omega) (by omega)

theorem saturatingAdd_eq (a b : Int32) :
    saturatingAdd a b = pure (FixedRaster.saturatingAdd a b) := by
  have ha := a.le_toInt
  have ha' := a.toInt_lt
  have hb := b.le_toInt
  have hb' := b.toInt_lt
  obtain ⟨hadd, -⟩ := add_spec_int64 (Int32.toInt_toInt64 a) (Int32.toInt_toInt64 b) (by omega)
    (by omega)
  rw [saturatingAdd, hadd, pure_bind, saturateInt32_eq]
  rfl

theorem scaleQ12_eq (strength difference : Int32) :
    scaleQ12 strength difference = pure (FixedRaster.scaleQ12 strength difference) := by
  obtain ⟨hlow, hhigh⟩ := abs_le.1 (abs_toInt_mul_le strength difference)
  have hhalf : Q12.half.toInt64.toInt = 2048 := rfl
  obtain ⟨hmul, hword⟩ := mul_spec_int64 (Int32.toInt_toInt64 strength)
    (Int32.toInt_toInt64 difference) (by omega) (by omega)
  obtain ⟨hadd, -⟩ := add_spec_int64 hword hhalf (by omega) (by omega)
  simp only [scaleQ12, hmul, hadd, saturateInt32_eq, pure_bind]
  rfl

theorem boosted_eq (sample contrast : Int32) :
    boosted m sample contrast = pure (m.boosted sample contrast) := by
  simp only [boosted, scaleQ12_eq, saturatingAdd_eq, pure_bind]
  rfl

theorem boostLightness_eq (p : Pixel) (contrast : Int32) :
    boostLightness m p contrast = pure (m.boostLightness p contrast) := by
  obtain ⟨hlow, hhigh⟩ := Hsl.lightness_ofRgb_mem p.r p.g p.b
  have htop := m.top_bounds
  have hboosted := m.toInt_boosted contrast hlow hhigh
  simp only [boostLightness, ofRgb_eq, boosted_eq, pure_bind]
  exact toRgb_eq (Hsl.saturation_ofRgb_le p.r p.g p.b) (by simp only; omega) (by simp only; omega)

theorem gain_eq (value : UInt16) (contrast : Int32) :
    gain m value contrast = pure (m.gain value contrast) := by
  obtain ⟨hlow, hhigh⟩ := m.boosted_bounds value contrast
  have hshifted := m.toInt_shifted value contrast
  have hdivisor := Mask.toInt_divisor value
  have hshift : shiftLeft (m.boosted (Int32.ofNat value.toNat) contrast) Q12.shift =
      pure (m.boosted (Int32.ofNat value.toNat) contrast <<< Q12.shift) := keep_eq hshifted
  obtain ⟨hdiv, hquotient⟩ := div_spec hshifted hdivisor (by omega) (by omega)
  have hnonneg := Int.tdiv_nonneg
    (show 0 ≤ (m.boosted (Int32.ofNat value.toNat) contrast).toInt * 4096 by omega)
    (show (0 : ℤ) ≤ max 1 value.toNat by omega)
  simp only [gain, boosted_eq, hshift, hdiv, pure_bind]
  exact cast_long_eq (by omega)

end

section
variable {gain : UInt64} (hgain : gain.toNat ≤ 2 ^ 32)
include hgain

theorem scaleChannel_eq (c : UInt8) :
    scaleChannel gain c = pure (Mask.scaleChannel gain c) := by
  have hbyte := c.toNat_lt
  have hhalf : Q12.half.toUInt32.toUInt64.toNat = 2048 := rfl
  have hproduct := Nat.mul_le_mul (show c.toNat ≤ 255 by omega) hgain
  obtain ⟨hmul, hword⟩ := mul_spec_uint64 (UInt8.toNat_toUInt64 c) (b := gain) rfl (by omega)
  obtain ⟨hadd, -⟩ := add_spec_uint64 hword hhalf (by omega)
  have hcut : cast UInt64.toUInt8 (min (Mask.scaled gain c) 255) =
      pure (min (Mask.scaled gain c) 255).toUInt8 := by
    have hle := Mask.toNat_cut (Mask.scaled gain c)
    refine keep_eq ?_
    change ((min (Mask.scaled gain c) 255).toUInt8.toNat : ℤ) =
      (min (Mask.scaled gain c) 255).toNat
    rw [UInt64.toNat_toUInt8]
    omega
  simp only [scaleChannel, hmul, hadd, pure_bind]
  exact hcut

end

theorem boostValue_eq (m : Mask) (p : Pixel) (value : UInt16) (contrast : Int32) :
    boostValue m p value contrast = pure (m.boostValue p value contrast) := by
  have hscale := scaleChannel_eq (m.gain_le value contrast)
  simp only [boostValue, gain_eq, hscale, pure_bind]
  rfl

theorem boost_eq (m : Mask) (p : Pixel) (sample : UInt16) (contrast : Int32) :
    boost m p sample contrast = pure (m.boost p sample contrast) := by
  rw [boost, Mask.boost]
  cases m.model with
  | hsl => exact boostLightness_eq m p contrast
  | hsv => exact boostValue_eq m p sample contrast

theorem sharpen?_eq (m : Mask) (p : Pixel) (sample blurred : UInt16) :
    sharpen? m p sample blurred = pure (m.sharpen? p sample blurred) := by
  have hcontrast := m.lt_toInt_contrast sample blurred
  simp only [sharpen?, Mask.sharpen?, contrast_eq, reaches_eq m hcontrast, boost_eq, pure_bind]
  split_ifs
  · rfl
  · rfl

end FixedRaster.Lossless

namespace FixedRaster.Unsharp.Mask

/-- No step of a sharpened pixel loses anything, for any mask and samples that need not belong to
the pixel. The brightness is the unbounded sum inside the range of the model, its quotient has no
sign to lose, and the inverse transform has extremes in order for every hue. -/
theorem sharpen_lossless :
    (∀ (m : Mask) (p : Pixel) (sample blurred : UInt16),
      Lossless.sharpen? m p sample blurred = .ok (m.sharpen? p sample blurred)) ∧
    (∀ red green blue : UInt8,
      Lossless.ofRgb red green blue = .ok (Hsl.ofRgb red green blue) ∧
        (Hsl.ofRgb red green blue).saturation ≤ 0xfff) ∧
    (∀ (m : Mask) (sample contrast : Int32), 0 ≤ sample.toInt → sample.toInt ≤ 0xffff →
      (m.boosted sample contrast).toInt = max 0 (min
        (match m.model with
        | .hsl => 0xffff
        | .hsv => 0xff00)
        (sample.toInt + (m.strength.toInt * contrast.toInt + 2048) / 4096))) ∧
    (∀ (m : Mask) (value : UInt16) (contrast : Int32),
      Lossless.gain m value contrast = .ok (m.gain value contrast) ∧
        ((m.gain value contrast).toNat : ℤ) =
          (m.boosted (Int32.ofNat value.toNat) contrast).toInt * 4096 / max 1 value.toNat) ∧
    ∀ c : Hsl, c.saturation ≤ 0xfff → 0 ≤ c.lightness.toInt → c.lightness.toInt ≤ 0xffff →
      let low := Hsl.least16 c.lightness.toUInt32 c.saturation.toUInt32 >>> 8
      let high := Hsl.greatest16 c.lightness.toUInt32 c.saturation.toUInt32 >>> 8
      Lossless.toRgb c = .ok c.toRgb ∧ low.toNat ≤ high.toNat ∧ high.toNat ≤ 255 ∧
        ∀ k : Primary, low.toNat ≤ (k.of c.toRgb).toNat ∧ (k.of c.toRgb).toNat ≤ high.toNat := by
  refine ⟨Lossless.sharpen?_eq, ?_, ?_, ?_, ?_⟩
  · intro red green blue
    exact ⟨Lossless.ofRgb_eq red green blue,
      UInt16.le_iff_toNat_le.2 (Hsl.saturation_ofRgb_le red green blue)⟩
  · intro m sample contrast hlow hhigh
    have htop : m.top.toInt = match m.model with
        | .hsl => 0xffff
        | .hsv => 0xff00 := by
      rw [top]
      cases m.model with
      | hsl => rfl
      | hsv => rfl
    rw [← htop]
    exact m.toInt_boosted contrast hlow hhigh
  · intro m value contrast
    exact ⟨Lossless.gain_eq m value contrast, m.toNat_gain_of value contrast⟩
  · intro c hs hlow hhigh low high
    have hs' : c.saturation.toNat ≤ 4095 := UInt16.le_iff_toNat_le.1 hs
    obtain ⟨hle, hbyte⟩ := Lossless.extremes_ordered hs' hlow hhigh
    exact ⟨Lossless.toRgb_eq hs' hlow hhigh, hle, hbyte,
      Lossless.channel_between hs' hlow hhigh⟩

/-- A plane that claims a value of 256 where it is 65280, the strongest contrast at the greatest
strength, and the greatest saturation at the lightness where its swing is longest. -/
theorem sharpen_lossless_mismatched :
    let m : Mask := ⟨.hsv, 4096, 0⟩
    let strongest : Mask := ⟨.hsl, Int32.maxValue, 0⟩
    let c : Hsl := ⟨0xaaab, 0xfff, 0x7fff⟩
    Lossless.sharpen? m ⟨255, 100, 0, 255⟩ 256 0 = .ok (some ⟨255, 200, 0, 255⟩) ∧
      0 ≤ (65535 : Int32).toInt ∧ (65535 : Int32).toInt ≤ 0xffff ∧
      (strongest.boosted 65535 (-131070)).toInt = 0 ∧
      c.saturation ≤ 0xfff ∧ 0 ≤ c.lightness.toInt ∧ c.lightness.toInt ≤ 0xffff ∧
      Lossless.toRgb c = .ok (0, 0, 255) := by
  intro m strongest c
  obtain ⟨hsharpen, -, hboosted, -, hrgb⟩ := sharpen_lossless
  have hlow : 0 ≤ (65535 : Int32).toInt := by decide
  have hhigh : (65535 : Int32).toInt ≤ 0xffff := by decide
  have hs : c.saturation ≤ 0xfff := by decide
  have hlow' : 0 ≤ c.lightness.toInt := by decide
  have hhigh' : c.lightness.toInt ≤ 0xffff := by decide
  refine ⟨(hsharpen m _ 256 0).trans (by decide), hlow, hhigh, ?_, hs, hlow', hhigh', ?_⟩
  · exact (hboosted strongest 65535 (-131070) hlow hhigh).trans (by decide)
  · exact (hrgb c hs hlow' hhigh').1.trans (by decide)

end FixedRaster.Unsharp.Mask
