import Mathlib
import FixedRaster.Proofs.Hsl.Recoloring
import FixedRaster.Proofs.Unsharp.Compositing

/-!
# How a pixel answers to its blur

A pixel is moved by the contrast that reaches the threshold, or by none. The new brightness is the
old one plus the strengthened contrast, computed without loss and kept inside the range of the
model. Every channel rises with it, and a brightness that stays leaves the pixel as it was. So the
answer is monotone in the blur and in the strength, and an image is its own sharpening where it is
its own blur.
-/

namespace FixedRaster

def ColorModel.weight : ColorModel → ℤ
  | hsl => 2
  | hsv => 1

theorem toNat_brightness_hsl (red green blue : UInt8) :
    ((ColorModel.hsl.brightness red green blue).toNat : ℤ) =
      (Hsl.ofRgb red green blue).lightness.toInt := by
  have hfits : ∀ n ≤ 510, n * 257 % 4294967296 / 2 % 65536 = n * 257 / 2 := by
    intro n hn
    rw [Nat.mod_eq_of_lt (show n * 257 < 4294967296 by omega), Nat.mod_eq_of_lt (by omega)]
  obtain ⟨low, d, hle, hleast, hmost, h⟩ := Hsl.exists_encodes red green blue
  have hmax : ((max (max red green) blue).toUInt32 + (min (min red green) blue).toUInt32).toNat =
      2 * low + d := by
    rw [UInt32.toNat_add, UInt8.toNat_toUInt32, UInt8.toNat_toUInt32, toNat_max, toNat_max,
      toNat_min, toNat_min, hleast, hmost]
    omega
  rw [h.lightness_eq, ColorModel.brightness]
  simp only [UInt32.toNat_toUInt16, UInt32.toNat_shiftRight, UInt32.toNat_mul, hmax,
    UInt32.reduceToNat, Nat.reduceMod, Nat.reducePow, Nat.shiftRight_eq_div_pow]
  rw [hfits _ (by omega)]

theorem toNat_brightness_hsv (red green blue : UInt8) :
    (ColorModel.hsv.brightness red green blue).toNat =
      max (max red.toNat green.toNat) blue.toNat * 256 := by
  have hr := red.toNat_lt
  have hg := green.toNat_lt
  have hb := blue.toNat_lt
  rw [ColorModel.brightness, UInt16.toNat_shiftLeft, UInt8.toNat_toUInt16, toNat_max, toNat_max,
    Nat.shiftLeft_eq]
  simp only [UInt16.reduceToNat, Nat.reduceMod, Nat.reducePow]
  omega

namespace Unsharp.Mask
variable {m m' : Mask} {p : Pixel}

theorem top_bounds (m : Mask) : 0 ≤ m.top.toInt ∧ m.top.toInt ≤ 65535 := by
  rw [top]
  cases m.model with
  | hsl => decide
  | hsv => decide

theorem toInt_boosted (m : Mask) {sample : Int32} (contrast : Int32) (hlow : 0 ≤ sample.toInt)
    (hhigh : sample.toInt ≤ 65535) :
    (m.boosted sample contrast).toInt = max 0 (min m.top.toInt
      (sample.toInt + (m.strength.toInt * contrast.toInt + 2048) / 4096)) := by
  obtain ⟨htop, htop'⟩ := m.top_bounds
  have hzero : (0 : Int32).toInt = 0 := rfl
  rw [boosted, toInt_clampInt32 (by omega), toInt_saturatingAdd, toInt_scaleQ12, hzero]
  omega

theorem toInt_contrast (m : Mask) (sample blurred : UInt16) :
    (m.contrast sample blurred).toInt =
      m.model.weight * ((sample.toNat : ℤ) - blurred.toNat) := by
  have hs := sample.toNat_lt
  have hb := blurred.toNat_lt
  have hsub := toInt_sub_eq (toInt_half sample) (toInt_half blurred) (by omega) (by omega)
  rw [contrast]
  cases m.model with
  | hsl =>
    have hdouble : -2 ^ 31 < 2 * ((sample.toNat : ℤ) - blurred.toNat) ∧
        2 * ((sample.toNat : ℤ) - blurred.toNat) < 2 ^ 31 := by omega
    exact toInt_mul_eq rfl hsub hdouble.1 hdouble.2
  | hsv => exact hsub.trans (one_mul _).symm

theorem lt_toInt_contrast (m : Mask) (sample blurred : UInt16) :
    -2 ^ 31 < (m.contrast sample blurred).toInt := by
  have hs := sample.toNat_lt
  have hb := blurred.toNat_lt
  rw [toInt_contrast]
  cases m.model <;> simp only [ColorModel.weight] <;> omega

theorem reaches_contrast_iff (m : Mask) (sample blurred : UInt16) :
    m.reaches (m.contrast sample blurred) = true ↔
      m.threshold.toInt ≤
        (m.model.weight * ((sample.toNat : ℤ) - blurred.toNat)).natAbs := by
  rw [reaches, decide_eq_true_iff, Int32.le_iff_toInt_le,
    toInt_abs (m.lt_toInt_contrast sample blurred), toInt_contrast]

def acting (m : Mask) (sample blurred : UInt16) : Int32 :=
  if m.reaches (m.contrast sample blurred) then m.contrast sample blurred else 0

/-- The contrast falls as the blur rises; it is passed over only while it is small. -/
theorem acting_antitone (m : Mask) (sample : UInt16) {blurred blurred' : UInt16}
    (h : blurred ≤ blurred') :
    (m.acting sample blurred').toInt ≤ (m.acting sample blurred).toInt := by
  have hle : blurred.toNat ≤ blurred'.toNat := UInt16.le_iff_toNat_le.1 h
  have hzero : (0 : Int32).toInt = 0 := rfl
  have hfall : m.model.weight * ((sample.toNat : ℤ) - blurred'.toNat) ≤
      m.model.weight * ((sample.toNat : ℤ) - blurred.toNat) := by
    cases m.model <;> simp only [ColorModel.weight] <;> omega
  rw [acting, acting]
  simp only [reaches_contrast_iff, apply_ite Int32.toInt, toInt_contrast, hzero]
  split_ifs with hreach' hreach hreach
  · exact hfall
  · omega
  · omega
  · exact le_rfl

theorem contrast_self (m : Mask) (sample : UInt16) : m.contrast sample sample = 0 := by
  rw [← Int32.toInt_inj, toInt_contrast, sub_self, mul_zero]
  rfl

theorem acting_self (m : Mask) (sample : UInt16) : m.acting sample sample = 0 := by
  rw [acting, contrast_self, ite_self]

def color (p : Pixel) : UInt8 × UInt8 × UInt8 := (p.r, p.g, p.b)

theorem color_of_sharpen? {p q : Pixel} {sample blurred : UInt16}
    (h : m.sharpen? p sample blurred = some q) :
    color q = m.boost p sample (m.contrast sample blurred) := by
  simp only [sharpen?, Option.ite_none_right_eq_some, Option.some.injEq] at h
  rw [← h.2]
  rfl

theorem eq_of_color {p q : Pixel} (hcolor : color p = color q) (halpha : p.a = q.a) : p = q := by
  obtain ⟨r, g, b, a⟩ := p
  simp only [color, Prod.mk.injEq] at hcolor halpha
  rw [hcolor.1, hcolor.2.1, hcolor.2.2, halpha]

def against (m : Mask) (p : Pixel) (blurred : UInt16) : Pixel :=
  (m.sharpen? p (m.model.brightnessOf p) blurred).getD p

def target (m : Mask) (p : Pixel) (contrast : Int32) : ℤ :=
  max 0 (min m.top.toInt ((m.model.brightnessOf p).toNat +
    (m.strength.toInt * contrast.toInt + 2048) / 4096))

theorem brightness_le_top (m : Mask) (p : Pixel) :
    ((m.model.brightnessOf p).toNat : ℤ) ≤ m.top.toInt := by
  rw [top, ColorModel.brightnessOf]
  cases m.model with
  | hsl =>
    rw [toNat_brightness_hsl]
    exact (Hsl.lightness_ofRgb_mem p.r p.g p.b).2
  | hsv =>
    have hr := p.r.toNat_lt
    have hg := p.g.toNat_lt
    have hb := p.b.toNat_lt
    rw [toNat_brightness_hsv]
    have htop : valueTop.toInt = 65280 := rfl
    simp only [htop]
    omega

theorem target_bounds (m : Mask) (p : Pixel) (contrast : Int32) :
    0 ≤ m.target p contrast ∧ m.target p contrast ≤ m.top.toInt := by
  have htop := m.top_bounds
  rw [target]
  omega

theorem toInt_boosted_lightness (hm : m.model = .hsl) (p : Pixel) (contrast : Int32) :
    (m.boosted (Hsl.ofRgb p.r p.g p.b).lightness contrast).toInt = m.target p contrast := by
  obtain ⟨hlow, hhigh⟩ := Hsl.lightness_ofRgb_mem p.r p.g p.b
  rw [toInt_boosted m contrast hlow hhigh, target, hm, ColorModel.brightnessOf,
    toNat_brightness_hsl]

theorem recolors_boostLightness (hm : m.model = .hsl) (p : Pixel) (contrast : Int32) :
    Hsl.Recolors
      (Hsl.lowest (m.target p contrast).toNat (Hsl.ofRgb p.r p.g p.b).saturation.toNat)
      (Hsl.highest (m.target p contrast).toNat (Hsl.ofRgb p.r p.g p.b).saturation.toNat)
      (color p) (m.boostLightness p contrast) := by
  obtain ⟨hlow, hhigh⟩ := m.target_bounds p contrast
  have htop := m.top_bounds
  have hboosted := toInt_boosted_lightness hm p contrast
  rw [← Int.toNat_of_nonneg hlow] at hboosted
  exact Hsl.recolors_toRgb p.r p.g p.b hboosted (by omega)

theorem toInt_boosted_value (m : Mask) (p : Pixel) (contrast : Int32) :
    (m.boosted (Int32.ofNat (m.model.brightnessOf p).toNat) contrast).toInt =
      m.target p contrast := by
  have hvalue := (m.model.brightnessOf p).toNat_lt
  have hhalf := toInt_half (m.model.brightnessOf p)
  rw [toInt_boosted m contrast (by omega) (by omega), hhalf, target]

theorem boosted_bounds (m : Mask) (value : UInt16) (contrast : Int32) :
    0 ≤ (m.boosted (Int32.ofNat value.toNat) contrast).toInt ∧
      (m.boosted (Int32.ofNat value.toNat) contrast).toInt ≤ m.top.toInt := by
  have hvalue := value.toNat_lt
  have hhalf := toInt_half value
  have htop := m.top_bounds
  rw [toInt_boosted m contrast (by omega) (by omega)]
  omega

theorem toInt_shifted (m : Mask) (value : UInt16) (contrast : Int32) :
    (m.boosted (Int32.ofNat value.toNat) contrast <<< Q12.shift).toInt =
      (m.boosted (Int32.ofNat value.toNat) contrast).toInt * 4096 := by
  obtain ⟨hlow, hhigh⟩ := m.boosted_bounds value contrast
  have htop := m.top_bounds
  exact toInt_shiftLeft_eq (k := 12) rfl (by decide) (by decide) (by omega) (by omega)

theorem toInt_divisor (value : UInt16) :
    (if Int32.ofNat value.toNat = 0 then 1 else Int32.ofNat value.toNat).toInt =
      max 1 value.toNat := by
  have hvalue := toInt_half value
  have hzero : (0 : Int32).toInt = 0 := rfl
  have hone : (1 : Int32).toInt = 1 := rfl
  simp only [← Int32.toInt_inj, apply_ite Int32.toInt, hvalue, hzero, hone]
  omega

theorem toNat_gain_of (m : Mask) (value : UInt16) (contrast : Int32) :
    ((m.gain value contrast).toNat : ℤ) =
      (m.boosted (Int32.ofNat value.toNat) contrast).toInt * 4096 / max 1 value.toNat := by
  obtain ⟨hlow, hhigh⟩ := m.boosted_bounds value contrast
  have hdiv := toInt_div_eq (m.toInt_shifted value contrast) (toInt_divisor value) (by omega)
  rw [Int.tdiv_eq_ediv_of_nonneg (by omega)] at hdiv
  rw [gain, toNat_toUInt64, hdiv]
  rw [hdiv]
  exact Int.ediv_nonneg (by omega) (by omega)

theorem gain_le (m : Mask) (value : UInt16) (contrast : Int32) :
    (m.gain value contrast).toNat ≤ 2 ^ 32 := by
  obtain ⟨hlow, hhigh⟩ := m.boosted_bounds value contrast
  have htop := m.top_bounds
  have hgain := m.toNat_gain_of value contrast
  have hself := Int.ediv_le_self ((max 1 value.toNat : ℕ) : ℤ)
    (show 0 ≤ (m.boosted (Int32.ofNat value.toNat) contrast).toInt * 4096 by omega)
  omega

theorem toNat_gain (m : Mask) (p : Pixel) (contrast : Int32) :
    ((m.gain (m.model.brightnessOf p) contrast).toNat : ℤ) =
      m.target p contrast * 4096 / max 1 (m.model.brightnessOf p).toNat := by
  rw [toNat_gain_of, toInt_boosted_value]

def scaled (gain : UInt64) (c : UInt8) : UInt64 :=
  (c.toUInt64 * gain + Q12.half.toUInt32.toUInt64) >>> Q12.shift.toUInt32.toUInt64

theorem scaleChannel_eq (gain : UInt64) (c : UInt8) :
    scaleChannel gain c = (min (scaled gain c) 255).toUInt8 := rfl

theorem toNat_scaled {gain : UInt64} (hgain : gain.toNat ≤ 2 ^ 32) (c : UInt8) :
    (scaled gain c).toNat = (c.toNat * gain.toNat + 2048) / 4096 := by
  have hprod := Nat.mul_le_mul (show c.toNat ≤ 255 from Nat.le_of_lt_succ c.toNat_lt) hgain
  have hhalf : Q12.half.toUInt32.toUInt64.toNat = 2048 := rfl
  have hshift : Q12.shift.toUInt32.toUInt64.toNat = 12 := rfl
  simp only [scaled, UInt64.toNat_shiftRight, UInt64.toNat_add, UInt64.toNat_mul,
    UInt8.toNat_toUInt64, hhalf, hshift, Nat.shiftRight_eq_div_pow, Nat.reduceMod, Nat.reducePow]
  omega

theorem toNat_cut (w : UInt64) : (min w 255).toNat = min w.toNat 255 := by
  have hmin : min w 255 = if w ≤ 255 then w else 255 := rfl
  rw [hmin, min_def, apply_ite UInt64.toNat]
  simp only [UInt64.le_iff_toNat_le]
  rfl

theorem toNat_scaleChannel {gain : UInt64} (hgain : gain.toNat ≤ 2 ^ 32) (c : UInt8) :
    (scaleChannel gain c).toNat = min ((c.toNat * gain.toNat + 2048) / 4096) 255 := by
  rw [scaleChannel_eq, UInt64.toNat_toUInt8, toNat_cut, toNat_scaled hgain]
  omega

theorem scaleChannel_mono {gain gain' : UInt64} {c c' : UInt8} (h : gain.toNat ≤ gain'.toNat)
    (hgain : gain'.toNat ≤ 2 ^ 32) (hc : c ≤ c') : scaleChannel gain c ≤ scaleChannel gain' c' := by
  rw [UInt8.le_iff_toNat_le, toNat_scaleChannel (h.trans hgain), toNat_scaleChannel hgain]
  have hprod := Nat.mul_le_mul (UInt8.le_iff_toNat_le.1 hc) h
  omega

theorem of_boostValue (m : Mask) (p : Pixel) (sample : UInt16) (contrast : Int32) (k : Primary) :
    k.of (m.boostValue p sample contrast) =
      scaleChannel (m.gain sample contrast) (k.of (color p)) := by
  cases k <;> rfl

theorem boost_mono (hmodel : m'.model = m.model) {p : Pixel} {contrast contrast' : Int32}
    (h : m.target p contrast ≤ m'.target p contrast') :
    m.boost p (m.model.brightnessOf p) contrast ≤
      m'.boost p (m'.model.brightnessOf p) contrast' := by
  have hlow := (m.target_bounds p contrast).1
  have hhigh := (m'.target_bounds p contrast').2
  have htop := m'.top_bounds
  cases hm : m.model with
  | hsl =>
    have hm' := hmodel.trans hm
    rw [boost, boost, hm, hm']
    apply Hsl.toRgb_mono (Hsl.saturation_ofRgb_le p.r p.g p.b)
    · rwa [toInt_boosted_lightness hm]
    · rwa [toInt_boosted_lightness hm, toInt_boosted_lightness hm']
    · rw [toInt_boosted_lightness hm']
      omega
  | hsv =>
    have hm' := hmodel.trans hm
    have hgain := toNat_gain m p contrast
    have hgain' := toNat_gain m' p contrast'
    have hle : (m.gain (m.model.brightnessOf p) contrast).toNat ≤
        (m'.gain (m'.model.brightnessOf p) contrast').toNat := by
      zify
      rw [hgain, hgain', hmodel]
      exact Int.ediv_le_ediv (by omega) (by omega)
    have hfits := m'.gain_le (m'.model.brightnessOf p) contrast'
    rw [hm, hm'] at hle
    rw [hm'] at hfits
    rw [boost, boost, hm, hm']
    have hchannel : ∀ c : UInt8, scaleChannel (m.gain (ColorModel.hsv.brightnessOf p) contrast) c ≤
        scaleChannel (m'.gain (ColorModel.hsv.brightnessOf p) contrast') c :=
      fun c => scaleChannel_mono hle hfits (UInt8.le_refl c)
    exact ⟨hchannel _, hchannel _, hchannel _⟩

/-- A value that stays scales by one; black, whose value is zero, is scaled by zero. -/
theorem scaleChannel_of_stay {gain : UInt64} {value : ℕ} {c : UInt8}
    (hgain : gain.toNat = value * 256 * 4096 / max 1 (value * 256)) (hc : c.toNat ≤ value) :
    scaleChannel gain c = c := by
  have hbyte := c.toNat_lt
  apply UInt8.toNat_inj.1
  rcases Nat.eq_zero_or_pos value with rfl | hpos
  · have hzero : gain.toNat = 0 := by rw [hgain, zero_mul, zero_mul, Nat.zero_div]
    rw [toNat_scaleChannel (by omega), hzero]
    omega
  · rw [max_eq_right (by omega), Nat.mul_div_cancel_left 4096 (by omega)] at hgain
    rw [toNat_scaleChannel (by omega), hgain]
    omega

theorem boost_of_stay {p : Pixel} {contrast : Int32}
    (h : m.target p contrast = (m.model.brightnessOf p).toNat) :
    m.boost p (m.model.brightnessOf p) contrast = color p := by
  cases hm : m.model with
  | hsl =>
    have hstay : m.boosted (Hsl.ofRgb p.r p.g p.b).lightness contrast =
        (Hsl.ofRgb p.r p.g p.b).lightness := by
      rw [← Int32.toInt_inj, toInt_boosted_lightness hm, h, hm, ColorModel.brightnessOf,
        toNat_brightness_hsl]
    rw [boost, hm]
    simp only [boostLightness, hstay]
    exact Hsl.toRgb_ofRgb p.r p.g p.b
  | hsv =>
    have hvalue := toNat_brightness_hsv p.r p.g p.b
    have hgain := toNat_gain m p contrast
    rw [h, hm, ColorModel.brightnessOf, hvalue] at hgain
    norm_cast at hgain
    rw [boost, hm]
    simp only [boostValue, color, ColorModel.brightnessOf]
    rw [scaleChannel_of_stay hgain (by omega), scaleChannel_of_stay hgain (by omega),
      scaleChannel_of_stay hgain (by omega)]

theorem target_zero (m : Mask) (p : Pixel) : m.target p 0 = (m.model.brightnessOf p).toNat := by
  have htop := m.brightness_le_top p
  rw [target, show (0 : Int32).toInt = 0 from rfl, mul_zero]
  omega

theorem against_eq (m : Mask) (p : Pixel) (blurred : UInt16) :
    color (m.against p blurred) =
      m.boost p (m.model.brightnessOf p) (m.acting (m.model.brightnessOf p) blurred) := by
  rw [against, sharpen?, acting]
  split_ifs with hreach
  · rfl
  · exact (boost_of_stay (m.target_zero p)).symm

theorem alpha_against (m : Mask) (p : Pixel) (blurred : UInt16) :
    (m.against p blurred).a = p.a := by
  rw [against]
  cases h : m.sharpen? p (m.model.brightnessOf p) blurred with
  | none => rfl
  | some q => exact alpha_of_sharpen? h

theorem target_mono (hmodel : m'.model = m.model) (p : Pixel) {v v' : Int32}
    (h : m.strength.toInt * v.toInt ≤ m'.strength.toInt * v'.toInt) :
    m.target p v ≤ m'.target p v' := by
  rw [target, target, top, top, hmodel]
  omega

theorem against_self (m : Mask) (p : Pixel) : m.against p (m.model.brightnessOf p) = p := by
  have hcolor := against_eq m p (m.model.brightnessOf p)
  have halpha := alpha_against m p (m.model.brightnessOf p)
  rw [acting_self, boost_of_stay (m.target_zero p)] at hcolor
  exact eq_of_color hcolor halpha

theorem against_mono (hmodel : m'.model = m.model) (p : Pixel) {blurred blurred' : UInt16}
    (h : m.strength.toInt * (m.acting (m.model.brightnessOf p) blurred).toInt ≤
      m'.strength.toInt * (m'.acting (m'.model.brightnessOf p) blurred').toInt) :
    color (m.against p blurred) ≤ color (m'.against p blurred') := by
  rw [against_eq, against_eq]
  exact boost_mono hmodel (target_mono hmodel p h)

theorem against_further (hmodel : m'.model = m.model) (hthreshold : m'.threshold = m.threshold)
    (hle : m.strength ≤ m'.strength) (p : Pixel) (blurred : UInt16) :
    (blurred ≤ m.model.brightnessOf p →
        color (m.against p blurred) ≤ color (m'.against p blurred)) ∧
      (m.model.brightnessOf p ≤ blurred →
        color (m'.against p blurred) ≤ color (m.against p blurred)) := by
  have hstrength := Int32.le_iff_toInt_le.1 hle
  have hacting : m'.acting = m.acting := by
    cases m
    cases m'
    cases hmodel
    cases hthreshold
    rfl
  have hself : (m.acting (m.model.brightnessOf p) (m.model.brightnessOf p)).toInt = 0 :=
    congrArg Int32.toInt (m.acting_self _)
  constructor
  · intro hdarker
    have hup := acting_antitone m (m.model.brightnessOf p) hdarker
    apply against_mono hmodel
    rw [hmodel, hacting]
    exact mul_le_mul_of_nonneg_right hstrength (hself.symm.trans_le hup)
  · intro hlighter
    have hdown := acting_antitone m (m.model.brightnessOf p) hlighter
    apply against_mono hmodel.symm
    rw [hmodel, hacting]
    exact mul_le_mul_of_nonpos_right hstrength (hdown.trans_eq hself)

theorem against_antitone (hstrength : 0 ≤ m.strength.toInt) (p : Pixel)
    {blurred blurred' : UInt16} (h : blurred ≤ blurred') :
    color (m.against p blurred') ≤ color (m.against p blurred) :=
  against_mono rfl p (mul_le_mul_of_nonneg_left (acting_antitone m _ h) hstrength)

theorem strength_nonneg (model : ColorModel) (percent : UInt32) (least : UInt8) :
    0 ≤ (ofPercent model percent least).strength.toInt := by
  have hfloor : ∀ x : Float, 0 ≤ (Binary.floorInt32 x).toInt := by
    intro x
    rw [Binary.floorInt32, Int32.toInt_ofNat_of_lt (by omega)]
    exact Int.natCast_nonneg _
  exact hfloor _

/-- A pixel answers to its blur in the direction of the contrast: it stays against its own
brightness, no channel rises with the blur, and a greater strength moves every channel at least as
far. -/
theorem against_responds (model : ColorModel) (percent percent' : UInt32) (least : UInt8)
    (p : Pixel) {m m' : Mask} (hm : m = ofPercent model percent least)
    (hm' : m' = ofPercent model percent' least) :
    m.against p (model.brightnessOf p) = p ∧ (∀ blurred, (m.against p blurred).a = p.a) ∧
      (∀ blurred blurred', blurred ≤ blurred' →
        color (m.against p blurred') ≤ color (m.against p blurred)) ∧
      (∀ blurred ≤ model.brightnessOf p, color p ≤ color (m.against p blurred)) ∧
      (∀ blurred ≥ model.brightnessOf p, color (m.against p blurred) ≤ color p) ∧
      (m.strength ≤ m'.strength →
        (∀ blurred ≤ model.brightnessOf p,
          color (m.against p blurred) ≤ color (m'.against p blurred)) ∧
        ∀ blurred ≥ model.brightnessOf p,
          color (m'.against p blurred) ≤ color (m.against p blurred)) := by
  have hmodel : m.model = model := congrArg Mask.model hm
  have hmodel' : m'.model = m.model := (congrArg Mask.model hm').trans hmodel.symm
  have hthreshold : m'.threshold = m.threshold :=
    (congrArg Mask.threshold hm').trans (congrArg Mask.threshold hm).symm
  have hnonneg : 0 ≤ m.strength.toInt := by
    rw [hm]
    exact strength_nonneg model percent least
  have hself := m.against_self p
  rw [hmodel] at hself
  refine ⟨hself, m.alpha_against p, fun _ _ h => against_antitone hnonneg p h, ?_, ?_, ?_⟩
  · intro blurred hle
    have hmono := against_antitone hnonneg p hle
    rwa [hself] at hmono
  · intro blurred hle
    have hmono := against_antitone hnonneg p hle
    rwa [hself] at hmono
  · intro hle
    have hfurther := against_further hmodel' hthreshold hle p
    rw [hmodel] at hfurther
    exact ⟨fun blurred => (hfurther blurred).1, fun blurred => (hfurther blurred).2⟩

theorem against_responds_copper :
    let p : Pixel := ⟨200, 90, 40, 7⟩
    let m := ofPercent .hsl 80 2
    let m' := ofPercent .hsl 300 2
    m.strength ≤ m'.strength ∧ m.against p 30840 = p ∧
      color (m.against p 34000) = (167, 75, 33) ∧ color (m.against p 20000) = (233, 171, 143) ∧
      color (m.against p 34000) ≤ color (m.against p 20000) ∧
      color (m.against p 20000) ≤ color (m'.against p 20000) ∧
      color (m'.against p 34000) ≤ color (m.against p 34000) := by
  intro p m m'
  have hle : m.strength ≤ m'.strength := by decide +kernel
  obtain ⟨hself, -, hmono, -, -, hfurther⟩ := against_responds .hsl 80 300 2 p rfl rfl
  have hsample : ColorModel.hsl.brightnessOf p = 30840 := by decide +kernel
  rw [hsample] at hself hfurther
  obtain ⟨hup, hdown⟩ := hfurther hle
  exact ⟨hle, hself, by decide +kernel, by decide +kernel, hmono 20000 34000 (by decide),
    hup 20000 (by decide), hdown 34000 (by decide)⟩

end Unsharp.Mask
end FixedRaster
