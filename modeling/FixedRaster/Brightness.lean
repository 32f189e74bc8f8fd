import FixedRaster.Edit
import FixedRaster.Extent
import FixedRaster.Hsl
import FixedRaster.Splice

/-!
# The brightness plane of an image

Sharpening works on one 16-bit sample a pixel: the HSL lightness or the HSV value of its color.
Alpha takes no part.
-/

namespace FixedRaster

inductive ColorModel where
  | hsl
  | hsv
  deriving DecidableEq, Inhabited

namespace ColorModel

def name : ColorModel → String
  | hsl => "hsl"
  | hsv => "hsv"

def ofName? (name : String) : Except Fault ColorModel :=
  let lower := name.toLower
  if lower = "hsl" ∨ lower = "lightness" then .ok hsl
  else if lower = "hsv" ∨ lower = "value" then .ok hsv
  else .error (.unknownModel name)

def brightness : ColorModel → UInt8 → UInt8 → UInt8 → UInt16
  | hsl, r, g, b =>
    let greatest := (max (max r g) b).toUInt32
    let least := (min (min r g) b).toUInt32
    (((greatest + least) * 257) >>> 1).toUInt16
  | hsv, r, g, b => (max (max r g) b).toUInt16 <<< 8

def brightnessOf (model : ColorModel) (p : Pixel) : UInt16 := model.brightness p.r p.g p.b

end ColorModel

namespace Brightness

def samples (model : ColorModel) (image : Array UInt8) (count : Nat) : Array UInt16 :=
  Array.ofFn (n := count) fun i => model.brightnessOf (Pixel.ofImage image i)

def fill (model : ColorModel) (image : Array UInt8) (width height : UInt32) :
    Edit (Array UInt16) Unit := do
  let e ← Extent.of? width height
  e.coversImage "channel source image" image.size
  e.coversPlane "channel destination plane" (← get).size
  modify (overlay (samples model image e.pixels))

theorem size_samples (model : ColorModel) (image : Array UInt8) (count : Nat) :
    (samples model image count).size = count := by
  simp [samples]

theorem getElem?_samples (model : ColorModel) (image : Array UInt8) {count i : Nat}
    (h : i < count) :
    (samples model image count)[i]? = some (model.brightnessOf (Pixel.ofImage image i)) := by
  simp [samples, h]

end Brightness

end FixedRaster
