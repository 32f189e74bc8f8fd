import FixedRaster.Binary.Exponential

/-!
# Coefficients of the recursive Gaussian

The Gaussian is approximated by a filter of order two in each direction. The causal half has the
input taps `a0` and `a1`, the anticausal half `a2` and `a3`, and both feed back through `b1` and
`b2`. A corner is the gain of one half on a constant line: a line seeded with it starts as
if its first sample had been repeated forever.
-/

namespace FixedRaster.Gaussian

structure Coefficients where
  a0 : Float32
  a1 : Float32
  a2 : Float32
  a3 : Float32
  b1 : Float32
  b2 : Float32
  leftCorner : Float32
  rightCorner : Float32

namespace Coefficients

def leastRadius : Float32 := Float32.ofBits 0x3f000000

/-- What the decay of the filter is in pixels, times the radius. -/
def decayScale : Float := 1.6939718862199047

def ofDecay (a g1 g2 : Float) : Coefficients :=
  let k := (1.0 - g1) * (1.0 - g1) / (1.0 + 2.0 * a * g1 - g2)
  let a1 := k * (a - 1.0) * g1
  let a2 := k * (a + 1.0) * g1
  let a3 := -k * g2
  let b1 := 2.0 * g1
  let b2 := -g2
  { a0 := Binary.narrow k
    a1 := Binary.narrow a1
    a2 := Binary.narrow a2
    a3 := Binary.narrow a3
    b1 := Binary.narrow b1
    b2 := Binary.narrow b2
    leftCorner := Binary.narrow ((k + a1) / (1.0 - b1 - b2))
    rightCorner := Binary.narrow ((a2 + a3) / (1.0 - b1 - b2)) }

def ofRadius (radius : Float32) : Coefficients :=
  let a := decayScale / Binary.widen radius
  ofDecay a (Binary.exp (-a)) (Binary.exp (-2.0 * a))

/-- The coefficients of a blur, or none where the radius asks for no blur: zero, a negative
number or no number at all. Smaller positive radii are raised to `leastRadius`. -/
def ofBlurRadius? (radius : Float32) : Option Coefficients :=
  if 0.0 < radius then
    some (ofRadius (if radius < leastRadius then leastRadius else radius))
  else
    none

def toArray (c : Coefficients) : Array Float32 :=
  #[c.a0, c.a1, c.a2, c.a3, c.b1, c.b2, c.leftCorner, c.rightCorner]

theorem size_toArray (c : Coefficients) : c.toArray.size = 8 := rfl

theorem ofBlurRadius?_eq_none_iff {radius : Float32} :
    ofBlurRadius? radius = none ↔ ¬ 0.0 < radius := by
  unfold ofBlurRadius?
  split <;> simp_all

end Coefficients

end FixedRaster.Gaussian
