import FixedRaster.Binary.Width
import FixedRaster.Gaussian.Coefficients
import FixedRaster.Splice

/-!
# The filter on one line

A line is filtered from left to right and from right to left, and the two responses are added.
The causal response passes through single precision on its way; every other step is in double
precision, with the terms added from left to right. The sum is written down a column, so that
a plane of filtered rows comes out transposed.
-/

namespace FixedRaster.Gaussian

open Binary (widen narrow)

structure Half where
  p : Float
  q : Float
  b1 : Float
  b2 : Float

structure Lag where
  input : Float
  output : Float
  earlier : Float

def Half.next (f : Half) (s : Lag) (x : Float) : Float :=
  x * f.p + s.input * f.q + s.output * f.b1 + s.earlier * f.b2

def Lag.push (s : Lag) (x y : Float) : Lag := ⟨x, y, s.output⟩

def Lag.constant (x corner : Float) : Lag := ⟨x, x * corner, x * corner⟩

def Half.causal (f : Half) : Lag → List UInt16 → List Float32
  | _, [] => []
  | s, x :: xs =>
    let y := f.next s x.toFloat
    narrow y :: f.causal (s.push x.toFloat y) xs

/-- The response one sample behind the input: `x` is the sample to the right of the one that is
answered, and the list goes from right to left. -/
def Half.anticausal (f : Half) : Lag → Float → List UInt16 → List Float
  | _, _, [] => []
  | s, x, next :: xs =>
    let z := f.next s x
    z :: f.anticausal (s.push x z) next.toFloat xs

theorem Half.length_causal (f : Half) (s : Lag) (line : List UInt16) :
    (f.causal s line).length = line.length := by
  induction line generalizing s with
  | nil => rfl
  | cons x xs ih => simp [causal, ih]

theorem Half.length_anticausal (f : Half) (s : Lag) (x : Float) (line : List UInt16) :
    (f.anticausal s x line).length = line.length := by
  induction line generalizing s x with
  | nil => rfl
  | cons y ys ih => simp [anticausal, ih]

namespace Coefficients

def forward (c : Coefficients) : Half := ⟨widen c.a0, widen c.a1, widen c.b1, widen c.b2⟩

def backward (c : Coefficients) : Half := ⟨widen c.a2, widen c.a3, widen c.b1, widen c.b2⟩

def causal (c : Coefficients) (line : List UInt16) : List Float32 :=
  match line with
  | [] => []
  | x :: _ => c.forward.causal (.constant x.toFloat (widen c.leftCorner)) line

def anticausal (c : Coefficients) (line : List UInt16) : List Float :=
  match line.reverse with
  | [] => []
  | x :: xs =>
    c.backward.anticausal (.constant x.toFloat (widen c.rightCorner)) x.toFloat (x :: xs)

def blend (y : Float32) (z : Float) : UInt16 := (widen y + z).toUInt16

def response (c : Coefficients) (line : List UInt16) : List Float32 × List UInt16 :=
  let ys := c.causal line
  (ys, List.zipWith blend ys (c.anticausal line).reverse)

theorem length_causal (c : Coefficients) (line : List UInt16) :
    (c.causal line).length = line.length := by
  cases line with
  | nil => rfl
  | cons x xs => exact c.forward.length_causal _ _

theorem length_anticausal (c : Coefficients) (line : List UInt16) :
    (c.anticausal line).length = line.length := by
  have hr : line.reverse.length = line.length := List.length_reverse
  unfold anticausal
  split
  · rename_i h
    rw [← hr, h]
    rfl
  · rename_i x xs h
    rw [Half.length_anticausal, ← h, hr]

theorem length_response (c : Coefficients) (line : List UInt16) :
    (c.response line).2.length = line.length := by
  simp [response, length_causal, length_anticausal]

end Coefficients

/-- Filters one line. The causal response is left in the line buffer and the filtered line in a
column of the output, which has `stride` samples a row. -/
def filterLine? (c : Coefficients) (line : List UInt16) (stride column : Nat) :
    Array Float32 × Array UInt16 → Option (Array Float32 × Array UInt16)
  | (buffer, out) => do
    let (causal, filtered) := c.response line
    let buffer ← putRun? 1 0 causal buffer
    let out ← putRun? stride column filtered out
    return (buffer, out)

end FixedRaster.Gaussian
