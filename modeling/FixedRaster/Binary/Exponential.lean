import FixedRaster.Binary.Width

/-!
# The exponential function

`exp` is computed with integers: the argument is reduced by a multiple of `ln 2` to
`[0, ln 2)`, the series of the exponential is summed on numbers with 256 bits below the point, and
the sum is rounded once. The sum is off by less than `2⁻²³⁰` of its value, and the exponential
of no nonzero double comes that close to the midpoint of two doubles, so the result is
the double nearest to the true value.
-/

namespace FixedRaster.Binary

open Float.Model

def fractionBits : Nat := 256

def one : Nat := 1 <<< fractionBits

/-- The first terms of `ln 2 = Σ 1 / (n · 2ⁿ)`, each rounded down. -/
def lnTwoTerms : Nat → Nat
  | 0 => 0
  | n + 1 => lnTwoTerms n + one / ((n + 1) * (1 <<< (n + 1)))

def lnTwo : Nat := lnTwoTerms 256

/-- The next `count` terms of `Σ rⁿ / n!`, where the first of them is `term` and its successor is
divided by `n`. -/
def seriesFrom (r : Nat) : (count n term : Nat) → Nat
  | 0, _, _ => 0
  | count + 1, n, term =>
    term + seriesFrom r count (n + 1) (term * r / (one * n))

def series (r : Nat) : Nat := seriesFrom r 64 1 one

def toFixed (m : Nat) (e : Int) : Nat :=
  if 0 ≤ e + fractionBits then m <<< (e + fractionBits).toNat
  else m >>> (-(e + fractionBits)).toNat

def expReduced (k : Int) (r : Nat) : UnpackedFloat :=
  .round .binary64 .positive (series r) (k - fractionBits)

def expValue : UnpackedFloat → UnpackedFloat
  | .notANumber => .notANumber
  | .infinity .positive => .infinity .positive
  | .infinity .negative => .zero .positive
  | .zero _ => expReduced 0 0
  | .finite .positive m e _ =>
    if 10 < totalExponent m e then .infinity .positive
    else expReduced (toFixed m e / lnTwo : Nat) (toFixed m e % lnTwo)
  | .finite .negative m e _ =>
    if 10 < totalExponent m e then .zero .positive
    else
      let k := (toFixed m e + lnTwo - 1) / lnTwo
      expReduced (-(k : Int)) (k * lnTwo - toFixed m e)

def exp (x : Float) : Float := ofValue (expValue (value x))

end FixedRaster.Binary
