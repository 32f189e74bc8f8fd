import FixedRaster.Binary.Width
import FixedRaster.Brightness
import FixedRaster.FixedPoint

/-!
# The unsharp mask on one pixel

A pixel whose brightness is far enough from the blurred brightness is pushed further away from it.
With HSL the lightness of the pixel is moved and the color rebuilt from it; with HSV the value is
moved, and as that scales all three channels alike, the pixel is multiplied by the quotient.
-/

namespace FixedRaster.Unsharp

/-- A percentage as a Q12 strength. The product and the quotient are rounded to single precision,
and the half is added in double precision. -/
def strengthOfPercent (percent : UInt32) : Int32 :=
  Binary.floorInt32 (Binary.widen (percent.toFloat32 * 4096.0 / 100.0) + 0.5)

/-- The settings of a sharpening: the strength in percent, the radius of the blur in pixels, and the
least difference of brightness, on a scale of 255, that is sharpened. -/
structure Settings where
  percent : UInt32 := 80
  radius : Float32 := 0.6
  least : UInt8 := 2
  model : ColorModel := .hsl

structure Mask where
  model : ColorModel
  strength : Int32
  threshold : Int32
  deriving DecidableEq

namespace Mask

def ofPercent (model : ColorModel) (percent : UInt32) (least : UInt8) : Mask where
  model := model
  strength := strengthOfPercent percent
  threshold :=
    match model with
    | .hsl => Int32.ofNat least.toNat * 257
    | .hsv => Int32.ofNat least.toNat <<< 8

def top (m : Mask) : Int32 :=
  match m.model with
  | .hsl => lightnessTop
  | .hsv => valueTop

def contrast (m : Mask) (sample blurred : UInt16) : Int32 :=
  let d := Int32.ofNat sample.toNat - Int32.ofNat blurred.toNat
  match m.model with
  | .hsl => 2 * d
  | .hsv => d

def reaches (m : Mask) (contrast : Int32) : Bool := m.threshold ≤ contrast.abs

def boosted (m : Mask) (sample contrast : Int32) : Int32 :=
  clampInt32 0 m.top (saturatingAdd sample (scaleQ12 m.strength contrast))

def boostLightness (m : Mask) (p : Pixel) (contrast : Int32) : UInt8 × UInt8 × UInt8 :=
  let c := Hsl.ofRgb p.r p.g p.b
  Hsl.toRgb { c with lightness := m.boosted c.lightness contrast }

/-- The quotient of the new value and the old one in Q12. A value of zero is taken as one: the
color is black and stays black. -/
def gain (m : Mask) (value : UInt16) (contrast : Int32) : UInt64 :=
  let old := Int32.ofNat value.toNat
  let new := m.boosted old contrast
  ((new <<< Q12.shift) / (if old = 0 then 1 else old)).toInt64.toUInt64

def scaleChannel (gain : UInt64) (c : UInt8) : UInt8 :=
  let scaled := c.toUInt64 * gain + Q12.half.toUInt32.toUInt64
  (min (scaled >>> Q12.shift.toUInt32.toUInt64) 255).toUInt8

def boostValue (m : Mask) (p : Pixel) (value : UInt16) (contrast : Int32) :
    UInt8 × UInt8 × UInt8 :=
  let g := m.gain value contrast
  (scaleChannel g p.r, scaleChannel g p.g, scaleChannel g p.b)

def boost (m : Mask) (p : Pixel) (sample : UInt16) (contrast : Int32) : UInt8 × UInt8 × UInt8 :=
  match m.model with
  | .hsl => m.boostLightness p contrast
  | .hsv => m.boostValue p sample contrast

def sharpen? (m : Mask) (p : Pixel) (sample blurred : UInt16) : Option Pixel :=
  let contrast := m.contrast sample blurred
  if m.reaches contrast then
    let color := m.boost p sample contrast
    some ⟨color.1, color.2.1, color.2.2, p.a⟩
  else
    none

theorem sharpen?_eq_none_iff {m : Mask} {p : Pixel} {sample blurred : UInt16} :
    m.sharpen? p sample blurred = none ↔ m.reaches (m.contrast sample blurred) = false := by
  simp [sharpen?]

theorem alpha_of_sharpen? {m : Mask} {p q : Pixel} {sample blurred : UInt16}
    (h : m.sharpen? p sample blurred = some q) : q.a = p.a := by
  simp only [sharpen?, Option.ite_none_right_eq_some, Option.some.injEq] at h
  rw [← h.2]

end Mask

namespace Settings

def isIdle (s : Settings) : Bool := s.percent = 0 || !(0.0 < s.radius)

def mask (s : Settings) : Mask := .ofPercent s.model s.percent s.least

end Settings

end FixedRaster.Unsharp
