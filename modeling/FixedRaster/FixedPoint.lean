/-!
# Fixed-point scales and saturation

Sharpening strengths are 20.12 numbers: a strength of one is `Q12.one`. Kernel weights are 2.14
numbers, and the samples between the two passes of a resize keep seven bits below the byte.
Every narrowing is named here. All shifts round down, so a rounding constant is added first where
the nearest value is wanted.
-/

namespace FixedRaster

namespace Q12

def shift : Int32 := 12
def one : Int32 := 4096
def half : Int32 := 2048

end Q12

namespace Q14

def shift : Int32 := 14
def one : Int32 := 16384
def half : Int32 := 8192

end Q14

/-- The bits that a first-pass sum loses on its way into a 16-bit sample. -/
def sampleShift : Int32 := 7

def lightnessTop : Int32 := 0xffff

def valueTop : Int32 := 0xff00

def clampInt32 (low high v : Int32) : Int32 :=
  if v < low then low else if high < v then high else v

def saturateByte (v : Int32) : UInt8 :=
  if v < 0 then 0 else if 255 < v then 255 else v.toUInt32.toUInt8

def dropNegative (v : Int32) : UInt32 :=
  if 0 ≤ v then v.toUInt32 else 0

def saturateInt32 (v : Int64) : Int32 :=
  if v < Int32.minValue.toInt64 then Int32.minValue
  else if Int32.maxValue.toInt64 < v then Int32.maxValue
  else v.toInt32

def saturatingAdd (a b : Int32) : Int32 := saturateInt32 (a.toInt64 + b.toInt64)

/-- The product of a strength and a difference, rounded to the nearest integer, halves upwards. -/
def scaleQ12 (strength difference : Int32) : Int32 :=
  saturateInt32
    ((strength.toInt64 * difference.toInt64 + Q12.half.toInt64) >>> Q12.shift.toInt64)

end FixedRaster
