import FixedRaster.FixedPoint
import FixedRaster.Splice
import FixedRaster.Taps

/-!
# Weighted sums over the taps of a row

A channel is an index into the four samples of a pixel, with alpha last. A pass of a resize sums
weighted samples in 32-bit words, one sum a channel, and narrows the sums to the samples of the next
stage. With alpha, colors are weighted by the alpha of their pixel in the first pass, and
the alpha is divided out again in the second.
-/

namespace FixedRaster.Resize

abbrev Channel := Fin 4

def alpha : Channel := ⟨3, by decide⟩

def weigh (term : Int32 → Nat → Int32) (t : Taps) : Int32 :=
  (t.weights.zipIdx t.start).foldl (fun sum tap => sum + term tap.1.toInt32 tap.2) 0

def byteAt (image : Array UInt8) (i : Nat) (c : Channel) : Int32 :=
  Int32.ofNat (image.getD (i * 4 + c) 0).toNat

def sampleAt (middle : Array UInt16) (i : Nat) (c : Channel) : Int32 :=
  Int32.ofNat (middle.getD (i * 4 + c) 0).toNat

def toSample (sum : Int32) : UInt16 := (dropNegative (sum >>> sampleShift)).toUInt16

def toByte (sum : Int32) : UInt8 := saturateByte ((sum + Q14.half) >>> Q14.shift)

def across (image : Array UInt8) (origin : Nat) (t : Taps) (c : Channel) : UInt16 :=
  toSample (weigh (fun w i => w * byteAt image (origin + i) c) t)

/-- As `across`, with colors weighted by alpha. The product of alpha and color is brought back to
the scale of a byte once a sum and not once a tap. -/
def acrossWithAlpha (image : Array UInt8) (origin : Nat) (t : Taps) (c : Channel) : UInt16 :=
  if c = alpha then across image origin t c
  else
    toSample
      (weigh (fun w i => w * byteAt image (origin + i) alpha * byteAt image (origin + i) c) t / 255)

/-- The second-pass sum over the intermediate pixels from `origin` on, less the bits that the
first pass kept below the byte. -/
def downSum (middle : Array UInt16) (origin : Nat) (t : Taps) (c : Channel) : Int32 :=
  weigh (fun w i => w * sampleAt middle (origin + i) c) t >>> sampleShift

def down (middle : Array UInt16) (origin : Nat) (t : Taps) (c : Channel) : UInt8 :=
  toByte (downSum middle origin t c)

def divideAlpha (color alpha : Int32) : Int32 :=
  let quotient := color.toInt64 * 255 / alpha.toInt64
  let top := Int32.maxValue - Q14.half
  if quotient < Int32.minValue.toInt64 then Int32.minValue
  else if top.toInt64 < quotient then top
  else quotient.toInt32

def downWithAlpha (middle : Array UInt16) (origin : Nat) (t : Taps) (c : Channel) : UInt8 :=
  let a := down middle origin t alpha
  if c = alpha then a
  else
    let color := downSum middle origin t c
    toByte (if a = 0 then color else divideAlpha color (Int32.ofNat a.toNat))

end FixedRaster.Resize
