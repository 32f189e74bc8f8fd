/-!
# Between single and double precision

Samples of a filtered line and all coefficients are kept in single precision and computed with in
double precision. `narrow` rounds to the nearest single, a tie to the even one; `widen` is exact.
Both go through the value that the bits stand for.
-/

namespace FixedRaster.Binary

open Float.Model

/-- The value rounded to a format; infinities, zeros and "not a number" are in every format. -/
def fit (format : Format) : UnpackedFloat → UnpackedFloat
  | .finite sign mantissa exponent _ => .round format sign mantissa exponent
  | value => value

def ofValue (value : UnpackedFloat) : Float :=
  Float.ofBits (.ofBitVec (UnpackedFloat.pack .binary64 (fit .binary64 value)))

def value (x : Float) : UnpackedFloat := .unpack .binary64 x.toBits.toBitVec

def widen (x : Float32) : Float := ofValue (.unpack .binary32 x.toBits.toBitVec)

def narrow (x : Float) : Float32 :=
  Float32.ofBits (.ofBitVec (UnpackedFloat.pack .binary32 (fit .binary32 (value x))))

def floorInt32 (x : Float) : Int32 :=
  Int32.ofNat (min x.toUInt32.toNat 0x7fffffff)

end FixedRaster.Binary
