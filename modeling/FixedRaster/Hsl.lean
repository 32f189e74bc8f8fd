import FixedRaster.Pixel

/-!
# Hue, saturation and lightness in integers

The hue is a point on a circle of 2¹⁶ steps, the saturation has 12 bits and the lightness 16.
`ofRgb` is the forward transform, with divisions that truncate toward zero; a hue that comes out
negative is taken modulo 2¹⁶. `toRgb` is the inverse: a ramp of six pieces between the least and
the greatest channel, read at the hue and a third of the circle to either side.
-/

namespace FixedRaster

structure Hsl where
  hue : UInt16
  saturation : UInt16
  lightness : Int32
  deriving DecidableEq

namespace Hsl

def third : UInt16 := 0x5555

/-- Where the middle of the circle, its last third and its second sixth begin. -/
def middle : UInt16 := 0x7fff
def lastThird : UInt16 := 0xaaaa
def secondSixth : UInt16 := 0x2aaa

def darkTop : Int32 := 0x7fff

def channel (v : UInt8) : Int32 := Int32.ofNat v.toNat

def lightnessOf (greatest least : Int32) : Int32 := ((greatest + least) * 257) >>> 1

/-- The largest saturation of colors as light as these, which a spread of channels is measured
against. -/
def spreadTop (greatest least : Int32) : Int32 :=
  if lightnessOf greatest least ≤ darkTop then greatest + least else 2 * 0xff - greatest - least

def hueOf (r g b greatest spread : Int32) : Int32 :=
  if r = greatest then (g - b) * 0xffff / (6 * spread)
  else if g = greatest then 0x5555 + (b - r) * 0xffff / (6 * spread)
  else 2 * 0x5555 + (r - g) * 0xffff / (6 * spread)

def ofRgb (red green blue : UInt8) : Hsl :=
  let r := channel red
  let g := channel green
  let b := channel blue
  let greatest := max (max r g) b
  let least := min (min r g) b
  let lightness := lightnessOf greatest least
  if least = greatest then ⟨0, 0, lightness⟩
  else
    let spread := greatest - least
    ⟨(hueOf r g b greatest spread).toUInt32.toUInt16,
      (spread * 0xfff / spreadTop greatest least).toUInt32.toUInt16, lightness⟩

def ramp (low high : UInt32) (hue : UInt16) : UInt8 :=
  UInt32.toUInt8 <|
    if lastThird ≤ hue then low
    else if middle ≤ hue then
      low + (((high - low) * 6 * (lastThird - hue).toUInt32 + 0x8000) >>> 16)
    else if secondSixth ≤ hue then high
    else low + (((high - low) * 6 * hue.toUInt32 + 0x8000) >>> 16)

def greatest16 (lightness saturation : UInt32) : UInt32 :=
  if lightness ≤ 0x7fff then (lightness * (0x1000 + saturation) + 0x800) >>> 12
  else lightness + (((0xffff - lightness) * saturation + 0x800) >>> 12)

def least16 (lightness saturation : UInt32) : UInt32 :=
  2 * lightness - greatest16 lightness saturation

def toRgb (c : Hsl) : UInt8 × UInt8 × UInt8 :=
  if c.saturation = 0 then
    let v := (c.lightness >>> 8).toUInt32.toUInt8
    (v, v, v)
  else
    let l := c.lightness.toUInt32
    let s := c.saturation.toUInt32
    let low := least16 l s >>> 8
    let high := greatest16 l s >>> 8
    (ramp low high (c.hue + third), ramp low high c.hue, ramp low high (c.hue - third))

theorem ofRgb_gray (v : UInt8) :
    ofRgb v v v = ⟨0, 0, lightnessOf (channel v) (channel v)⟩ := by
  have greatest : ∀ x : Int32, max x x = x := fun x => ite_self x
  have least : ∀ x : Int32, min x x = x := fun x => ite_self x
  simp [ofRgb, greatest, least]

theorem toRgb_of_saturation_eq_zero {c : Hsl} (h : c.saturation = 0) :
    c.toRgb = ((c.lightness >>> 8).toUInt32.toUInt8, (c.lightness >>> 8).toUInt32.toUInt8,
      (c.lightness >>> 8).toUInt32.toUInt8) := by
  simp [toRgb, h]

end Hsl

end FixedRaster
