import Mathlib
import FixedRaster.Proofs.Hsl.Recoloring
import FixedRaster.Proofs.Lossless

/-!
# The transforms lose nothing

The forward transform has a spread to divide by wherever it divides, and saturations of 12 bits.
That is what the inverse needs: the swing of such a saturation stays inside the 16-bit scale on
either side of the lightness, so the least channel is not below zero and the greatest one is a byte.
-/

namespace FixedRaster.Lossless

def lightnessOf (greatest least : Int32) : Except Loss Int32 := do
  let sum ← add greatest least
  let scaled ← mul sum 257
  return scaled >>> 1

def spreadTop (greatest least : Int32) : Except Loss Int32 := do
  let lightness ← lightnessOf greatest least
  if lightness ≤ Hsl.darkTop then
    add greatest least
  else
    let most ← sub (2 * 0xff) greatest
    sub most least

def quotient (a b spread : Int32) : Except Loss Int32 := do
  let difference ← sub a b
  let scaled ← mul difference 0xffff
  let sixth ← mul 6 spread
  div scaled sixth

def hueOf (r g b greatest spread : Int32) : Except Loss Int32 :=
  if r = greatest then
    quotient g b spread
  else if g = greatest then do
    let turned ← quotient b r spread
    add 0x5555 turned
  else do
    let turned ← quotient r g spread
    add (2 * 0x5555) turned

def saturation (greatest least spread : Int32) : Except Loss UInt16 := do
  let scaled ← mul spread 0xfff
  let top ← spreadTop greatest least
  let share ← div scaled top
  cast (fun v => v.toUInt32.toUInt16) share

/-- The forward transform. The hue is the one word that is cut: it is taken modulo the circle. -/
def ofRgb (red green blue : UInt8) : Except Loss Hsl := do
  let r := Hsl.channel red
  let g := Hsl.channel green
  let b := Hsl.channel blue
  let greatest := max (max r g) b
  let least := min (min r g) b
  let lightness ← lightnessOf greatest least
  if least = greatest then
    return ⟨0, 0, lightness⟩
  else
    let spread ← sub greatest least
    let hue ← hueOf r g b greatest spread
    let saturation ← saturation greatest least spread
    return ⟨hue.toUInt32.toUInt16, saturation, lightness⟩

def climb (low high way : UInt32) : Except Loss UInt32 := do
  let span ← sub high low
  let sixfold ← mul span 6
  let product ← mul sixfold way
  let rounded ← add product 0x8000
  add low (rounded >>> 16)

def ramp (low high : UInt32) (hue : UInt16) : Except Loss UInt8 :=
  if Hsl.lastThird ≤ hue then
    cast UInt32.toUInt8 low
  else if Hsl.middle ≤ hue then do
    let way ← sub Hsl.lastThird hue
    let v ← climb low high way.toUInt32
    cast UInt32.toUInt8 v
  else if Hsl.secondSixth ≤ hue then
    cast UInt32.toUInt8 high
  else do
    let v ← climb low high hue.toUInt32
    cast UInt32.toUInt8 v

def greatest16 (lightness saturation : UInt32) : Except Loss UInt32 :=
  if lightness ≤ 0x7fff then do
    let factor ← add 0x1000 saturation
    let product ← mul lightness factor
    let rounded ← add product 0x800
    return rounded >>> 12
  else do
    let room ← sub 0xffff lightness
    let product ← mul room saturation
    let rounded ← add product 0x800
    add lightness (rounded >>> 12)

def least16 (lightness saturation : UInt32) : Except Loss UInt32 := do
  let greatest ← greatest16 lightness saturation
  let double ← mul 2 lightness
  sub double greatest

def toRgb (c : Hsl) : Except Loss (UInt8 × UInt8 × UInt8) :=
  if c.saturation = 0 then do
    let v ← cast (fun l => l.toUInt32.toUInt8) (c.lightness >>> 8)
    return (v, v, v)
  else do
    let l ← cast Int32.toUInt32 c.lightness
    let s := c.saturation.toUInt32
    let least ← least16 l s
    let greatest ← greatest16 l s
    let low := least >>> 8
    let high := greatest >>> 8
    let red ← ramp low high (c.hue + Hsl.third)
    let green ← ramp low high c.hue
    let blue ← ramp low high (c.hue - Hsl.third)
    return (red, green, blue)

section
variable {greatest least : Int32} {low d : ℕ} (hg : greatest.toInt = low + d)
  (hl : least.toInt = low) (hhigh : low + d ≤ 255)
include hg hl hhigh

theorem lightnessOf_eq : lightnessOf greatest least = pure (Hsl.lightnessOf greatest least) := by
  have h257 : (257 : Int32).toInt = 257 := rfl
  obtain ⟨hadd, hsum⟩ := add_spec hg hl (by omega) (by omega)
  obtain ⟨hmul, -⟩ := mul_spec hsum h257 (by omega) (by omega)
  simp only [lightnessOf, hadd, hmul, pure_bind]
  rfl

theorem spreadTop_eq : spreadTop greatest least = pure (Hsl.spreadTop greatest least) := by
  have h510 : (2 * 0xff : Int32).toInt = 510 := rfl
  obtain ⟨hadd, -⟩ := add_spec hg hl (by omega) (by omega)
  obtain ⟨hfirst, hmost⟩ := sub_spec h510 hg (by omega) (by omega)
  obtain ⟨hsecond, -⟩ := sub_spec hmost hl (by omega) (by omega)
  simp only [spreadTop, Hsl.spreadTop, lightnessOf_eq hg hl hhigh, hfirst, hadd, hsecond, pure_bind]
  split_ifs
  · rfl
  · rfl

theorem saturation_eq (hd : 0 < d) {spread : Int32} (hspread : spread.toInt = d) :
    saturation greatest least spread =
      pure (spread * 0xfff / Hsl.spreadTop greatest least).toUInt32.toUInt16 := by
  have hfff : (0xfff : Int32).toInt = 4095 := rfl
  have htop := Hsl.toInt_spreadTop hg hl hhigh
  obtain ⟨hmul, hscaled⟩ := mul_spec hspread hfff (by omega) (by omega)
  obtain ⟨hdiv, hshare⟩ := div_spec hscaled htop (by omega) (by split_ifs <;> omega)
  have hword : (spread * 0xfff / Hsl.spreadTop greatest least).toInt =
      (Hsl.saturationOf (2 * low + d) d : ℕ) := hshare.trans (Int.ofNat_tdiv _ _).symm
  have hle := Hsl.saturationOf_le (show d ≤ 2 * low + d by omega) (by omega)
  simp only [saturation, hmul, spreadTop_eq hg hl hhigh, hdiv, pure_bind]
  exact cast_half_eq (by omega) (by omega)

end

section
variable {a b spread : Int32} {d : ℕ} (hspread : spread.toInt = d) (hd : 0 < d) (hd' : d ≤ 255)
include hspread hd hd'

theorem quotient_spec (hab : |a.toInt - b.toInt| ≤ 255) :
    quotient a b spread = pure ((a - b) * 0xffff / (6 * spread)) ∧
      |((a - b) * 0xffff / (6 * spread)).toInt| ≤ 255 * 65535 := by
  rw [abs_le] at hab
  have hffff : (0xffff : Int32).toInt = 65535 := rfl
  have h6 : (6 : Int32).toInt = 6 := rfl
  obtain ⟨hsub, hdifference⟩ := sub_spec (a := a) (b := b) rfl rfl (by omega) (by omega)
  obtain ⟨hmul, hscaled⟩ := mul_spec hdifference hffff (by omega) (by omega)
  obtain ⟨hmul', hsixth⟩ := mul_spec h6 hspread (by omega) (by omega)
  obtain ⟨hdiv, hquot⟩ := div_spec hscaled hsixth (by omega) (by omega)
  constructor
  · simp only [quotient, hsub, hmul, hmul', hdiv, pure_bind]
  · have hle := Int.natAbs_tdiv_le_natAbs ((a.toInt - b.toInt) * 65535) (6 * d)
    rw [hquot, Int.abs_eq_natAbs]
    omega

theorem hueOf_eq {r g b greatest : Int32} (hgb : |g.toInt - b.toInt| ≤ 255)
    (hbr : |b.toInt - r.toInt| ≤ 255) (hrg : |r.toInt - g.toInt| ≤ 255) :
    hueOf r g b greatest spread = pure (Hsl.hueOf r g b greatest spread) := by
  have h5555 : (0x5555 : Int32).toInt = 21845 := rfl
  have haaaa : (2 * 0x5555 : Int32).toInt = 43690 := rfl
  obtain ⟨hfirst, -⟩ := quotient_spec hspread hd hd' hgb
  obtain ⟨hsecond, hle⟩ := quotient_spec hspread hd hd' hbr
  obtain ⟨hthird, hle'⟩ := quotient_spec hspread hd hd' hrg
  rw [abs_le] at hle hle'
  obtain ⟨hadd, -⟩ :=
    add_spec h5555 (b := (b - r) * 0xffff / (6 * spread)) rfl (by omega) (by omega)
  obtain ⟨hadd', -⟩ :=
    add_spec haaaa (b := (r - g) * 0xffff / (6 * spread)) rfl (by omega) (by omega)
  simp only [hueOf, Hsl.hueOf, hfirst, hsecond, hthird, hadd, hadd', pure_bind]
  split_ifs
  · rfl
  · rfl
  · rfl

end

theorem abs_channel_sub_le (a b : UInt8) :
    |(Hsl.channel a).toInt - (Hsl.channel b).toInt| ≤ 255 := by
  have ha : (Hsl.channel a).toInt = a.toNat := toInt_byte a
  have hb : (Hsl.channel b).toInt = b.toNat := toInt_byte b
  have ha' := a.toNat_lt
  have hb' := b.toNat_lt
  rw [ha, hb, abs_le]
  omega

theorem ofRgb_eq (red green blue : UInt8) :
    ofRgb red green blue = pure (Hsl.ofRgb red green blue) := by
  obtain ⟨low, d, hhigh, hleast, hmost, -⟩ := Hsl.exists_encodes red green blue
  have hleast' := Hsl.toInt_least red green blue
  have hmost' := Hsl.toInt_greatest red green blue
  rw [hleast] at hleast'
  rw [hmost, Nat.cast_add] at hmost'
  rw [ofRgb, Hsl.ofRgb]
  generalize max (max (Hsl.channel red) (Hsl.channel green)) (Hsl.channel blue) = greatest at *
  generalize min (min (Hsl.channel red) (Hsl.channel green)) (Hsl.channel blue) = least at *
  simp only [lightnessOf_eq hmost' hleast' hhigh, pure_bind]
  split_ifs with hgray
  · rfl
  · have hd : 0 < d := by
      rw [← Int32.toInt_inj, hleast', hmost'] at hgray
      omega
    obtain ⟨hsub, hspread⟩ := sub_spec hmost' hleast' (by omega) (by omega)
    rw [add_sub_cancel_left] at hspread
    have hhue : hueOf (Hsl.channel red) (Hsl.channel green) (Hsl.channel blue) greatest
        (greatest - least) = pure _ :=
      hueOf_eq hspread hd (by omega) (abs_channel_sub_le ..) (abs_channel_sub_le ..)
        (abs_channel_sub_le ..)
    simp only [hsub, hhue, saturation_eq hmost' hleast' hhigh hd hspread, pure_bind]

section
variable {low high : UInt32} (hlow : low.toNat ≤ high.toNat) (hhigh : high.toNat ≤ 255)
include hlow hhigh

theorem climb_spec {way : UInt32} (hway : way.toNat ≤ 10923) :
    climb low high way = pure (low + (((high - low) * 6 * way + 0x8000) >>> 16)) ∧
      (low + (((high - low) * 6 * way + 0x8000) >>> 16)).toNat ≤ 255 := by
  have h6 : (6 : UInt32).toNat = 6 := rfl
  have h8000 : (0x8000 : UInt32).toNat = 32768 := rfl
  have hmem := Hsl.mix_mem (show 6 * way.toNat ≤ 65538 by omega) hlow hhigh
  have hassoc : (high.toNat - low.toNat) * 6 * way.toNat =
      (high.toNat - low.toNat) * (6 * way.toNat) := Nat.mul_assoc ..
  rw [Hsl.mix, ← hassoc] at hmem
  obtain ⟨hsub, hspan⟩ := sub_spec_uint32 rfl rfl hlow
  obtain ⟨hmul, hsixfold⟩ := mul_spec_uint32 hspan h6 (by omega)
  obtain ⟨hmul', hproduct⟩ := mul_spec_uint32 hsixfold (b := way) rfl (by omega)
  obtain ⟨hadd, hrounded⟩ := add_spec_uint32 hproduct h8000 (by omega)
  have hshift : (((high - low) * 6 * way + 0x8000) >>> 16).toNat =
      ((high.toNat - low.toNat) * 6 * way.toNat + 32768) / 65536 := by
    rw [UInt32.toNat_shiftRight, hrounded]
    exact Nat.shiftRight_eq_div_pow ..
  obtain ⟨hadd', hv⟩ := add_spec_uint32 (a := low) rfl hshift (by omega)
  constructor
  · simp only [climb, hsub, hmul, hmul', hadd, hadd', pure_bind]
  · rw [hv]
    omega

theorem ramp_eq (hue : UInt16) : ramp low high hue = pure (Hsl.ramp low high hue) := by
  rw [ramp, Hsl.ramp]
  split_ifs with hlast hmiddle hsixth
  · exact cast_low_byte_eq (by omega)
  · have hmiddle' : 32767 ≤ hue.toNat := by
      simpa [Hsl.middle, UInt16.le_iff_toNat_le] using hmiddle
    have hle : hue.toNat ≤ Hsl.lastThird.toNat :=
      UInt16.le_iff_toNat_le.1 (UInt16.le_of_lt (UInt16.not_le.1 hlast))
    have hthird : Hsl.lastThird.toNat = 43690 := rfl
    obtain ⟨hsub, hway⟩ := sub_spec_uint16 hle
    have hway' : (Hsl.lastThird - hue).toUInt32.toNat ≤ 10923 := by
      rw [UInt16.toNat_toUInt32]
      omega
    obtain ⟨hclimb, hv⟩ := climb_spec hlow hhigh hway'
    rw [hsub, pure_bind, hclimb, pure_bind, cast_low_byte_eq (by omega)]
  · exact cast_low_byte_eq (by omega)
  · have hlt : hue.toNat < 10922 := by
      simpa [Hsl.secondSixth, UInt16.le_iff_toNat_le] using hsixth
    have hway : hue.toUInt32.toNat ≤ 10923 := by
      rw [UInt16.toNat_toUInt32]
      omega
    obtain ⟨hclimb, hv⟩ := climb_spec hlow hhigh hway
    rw [hclimb, pure_bind, cast_low_byte_eq (by omega)]

end

section
variable {l s : UInt32} (hl : l.toNat ≤ 65535) (hs : s.toNat ≤ 4095)
include hl hs

theorem greatest16_eq : greatest16 l s = pure (Hsl.greatest16 l s) := by
  have h1000 : (0x1000 : UInt32).toNat = 4096 := rfl
  have h800 : (0x800 : UInt32).toNat = 2048 := rfl
  have hffff : (0xffff : UInt32).toNat = 65535 := rfl
  have hmul : l.toNat * (4096 + s.toNat) ≤ 65535 * 8191 := Nat.mul_le_mul hl (by omega)
  have hmul' : (65535 - l.toNat) * s.toNat ≤ 65535 * 4095 := Nat.mul_le_mul (by omega) hs
  rw [greatest16, Hsl.greatest16]
  split_ifs with hdark
  · obtain ⟨hadd, hfactor⟩ := add_spec_uint32 h1000 (b := s) rfl (by omega)
    obtain ⟨hmul, hproduct⟩ := mul_spec_uint32 (a := l) rfl hfactor (by omega)
    obtain ⟨hadd', -⟩ := add_spec_uint32 hproduct h800 (by omega)
    simp only [hadd, hmul, hadd', pure_bind]
  · obtain ⟨hsub, hroom⟩ := sub_spec_uint32 hffff (b := l) rfl hl
    obtain ⟨hmul, hproduct⟩ := mul_spec_uint32 hroom (b := s) rfl (by omega)
    obtain ⟨hadd, hrounded⟩ := add_spec_uint32 hproduct h800 (by omega)
    have hshift : (((0xffff - l) * s + 0x800) >>> 12).toNat =
        ((65535 - l.toNat) * s.toNat + 2048) / 4096 := by
      rw [UInt32.toNat_shiftRight, hrounded]
      exact Nat.shiftRight_eq_div_pow ..
    obtain ⟨hadd', -⟩ := add_spec_uint32 (a := l) rfl hshift (by omega)
    simp only [hsub, hmul, hadd, hadd', pure_bind]

/-- The greatest channel is never above twice the lightness. -/
theorem least16_eq : least16 l s = pure (Hsl.least16 l s) := by
  have h2 : (2 : UInt32).toNat = 2 := rfl
  have hswing := Hsl.swing_le (l := l.toNat) hs
  obtain ⟨hmul, hdouble⟩ := mul_spec_uint32 h2 (b := l) rfl (by omega)
  obtain ⟨hsub, -⟩ := sub_spec_uint32 hdouble (Hsl.toNat_greatest16 hl hs) (by omega)
  simp only [least16, greatest16_eq hl hs, hmul, hsub, pure_bind]
  rfl

end

section
variable {c : Hsl} (hs : c.saturation.toNat ≤ 4095) (hlow : 0 ≤ c.lightness.toInt)
  (hhigh : c.lightness.toInt ≤ 65535)
include hs hlow hhigh

theorem extremes_ordered :
    let low := Hsl.least16 c.lightness.toUInt32 c.saturation.toUInt32 >>> 8
    let high := Hsl.greatest16 c.lightness.toUInt32 c.saturation.toUInt32 >>> 8
    low.toNat ≤ high.toNat ∧ high.toNat ≤ 255 := by
  have hl := toNat_toUInt32 hlow
  obtain ⟨hleast, hgreatest⟩ := Hsl.toNat_extremes (l := c.lightness.toUInt32)
    (s := c.saturation.toUInt32) (by omega) hs
  intro low high
  rw [hleast, hgreatest]
  exact Hsl.extremes_bounds hs (by omega)

theorem toRgb_eq : toRgb c = pure c.toRgb := by
  rw [toRgb, Hsl.toRgb]
  split_ifs with hgray
  · have hshift := Hsl.toInt_shiftRight_byte c.lightness
    rw [cast_byte_eq (by omega) (by omega), pure_bind]
  · have hl := toNat_toUInt32 hlow
    obtain ⟨hle, hbyte⟩ := extremes_ordered hs hlow hhigh
    have hl' : c.lightness.toUInt32.toNat ≤ 65535 := by omega
    have hs' : c.saturation.toUInt32.toNat ≤ 4095 := hs
    have hramp := ramp_eq hle hbyte
    simp only [cast_word_eq hlow, least16_eq hl' hs', greatest16_eq hl' hs', hramp, pure_bind]

/-- A saturation that needs a thirteenth bit takes the least channel below zero. -/
example : toRgb ⟨0, 0x1001, 0x7fff⟩ = .error .wrapped := rfl

theorem channel_between (k : Primary) :
    let low := Hsl.least16 c.lightness.toUInt32 c.saturation.toUInt32 >>> 8
    let high := Hsl.greatest16 c.lightness.toUInt32 c.saturation.toUInt32 >>> 8
    low.toNat ≤ (k.of c.toRgb).toNat ∧ (k.of c.toRgb).toNat ≤ high.toNat := by
  have hl := toNat_toUInt32 hlow
  obtain ⟨hleast, hgreatest⟩ := Hsl.toNat_extremes (l := c.lightness.toUInt32)
    (s := c.saturation.toUInt32) (by omega) hs
  obtain ⟨hle, hbyte⟩ :=
    Hsl.extremes_bounds hs (show c.lightness.toUInt32.toNat ≤ 65535 by omega)
  intro low high
  rw [hleast, hgreatest, Hsl.toNat_of_toRgb hl.symm (by omega) hs k]
  exact Hsl.mix_mem (Hsl.slope_le _) hle hbyte

end

end FixedRaster.Lossless
