import FixedRaster.Unsharp.Mask

/-!
# The unsharp mask on an image

The mask is applied pixel by pixel with the brightness plane and its blur beside the image. It
runs on the image itself or from one image into another; both return the number of pixels that
reached the threshold. A strength of zero sharpens nothing.
-/

namespace FixedRaster.Unsharp

namespace Mask

def sharpenAt? (m : Mask) (p : Pixel) (plane blurred : Array UInt16) (i : Nat) : Option Pixel :=
  m.sharpen? p (plane.getD i 0) (blurred.getD i 0)

def step (m : Mask) (plane blurred : Array UInt16) (state : Array UInt8 × Nat) (i : Nat) :
    Array UInt8 × Nat :=
  match m.sharpenAt? (Pixel.ofImage state.1 i) plane blurred i with
  | some p => (p.put state.1 i, state.2 + 1)
  | none => state

/-- Sharpens pixel `i` of a source into a target; below the threshold the pixel is copied. -/
def stepFrom (m : Mask) (source : Array UInt8) (plane blurred : Array UInt16)
    (state : Array UInt8 × Nat) (i : Nat) : Array UInt8 × Nat :=
  match m.sharpenAt? (Pixel.ofImage source i) plane blurred i with
  | some p => (p.put state.1 i, state.2 + 1)
  | none => ((Pixel.ofImage source i).put state.1 i, state.2)

def run (m : Mask) (plane blurred : Array UInt16) (image : Array UInt8) (count : Nat) :
    Array UInt8 × Nat :=
  (List.range count).foldl (m.step plane blurred) (image, 0)

def runFrom (m : Mask) (source : Array UInt8) (plane blurred : Array UInt16)
    (target : Array UInt8) (count : Nat) : Array UInt8 × Nat :=
  (List.range count).foldl (m.stepFrom source plane blurred) (target, 0)

def covers (e : Extent) (image plane blurred : Nat) : Except Fault Unit := do
  e.coversImage "unsharp image" image
  e.coversPlane "unsharp channel plane" plane
  e.coversPlane "unsharp blurred plane" blurred

def apply (m : Mask) (plane blurred : Array UInt16) (width height : UInt32) :
    Edit (Array UInt8) Nat := do
  let e ← Extent.of? width height
  covers e (← get).size plane.size blurred.size
  if m.strength = 0 then
    return 0
  modifyGet fun image => (m.run plane blurred image e.pixels).swap

def applyFrom (m : Mask) (source : Array UInt8) (plane blurred : Array UInt16)
    (width height : UInt32) : Edit (Array UInt8) Nat := do
  let e ← Extent.of? width height
  covers e source.size plane.size blurred.size
  e.coversImage "unsharp destination image" (← get).size
  if m.strength = 0 then
    modify (overlay (source.extract 0 e.bytes))
    return 0
  modifyGet fun target => (m.runFrom source plane blurred target e.pixels).swap

theorem run_succ (m : Mask) (plane blurred : Array UInt16) (image : Array UInt8) (n : Nat) :
    m.run plane blurred image (n + 1) =
      m.step plane blurred (m.run plane blurred image n) n := by
  simp [run, List.range_succ]

theorem runFrom_succ (m : Mask) (source : Array UInt8) (plane blurred : Array UInt16)
    (target : Array UInt8) (n : Nat) :
    m.runFrom source plane blurred target (n + 1) =
      m.stepFrom source plane blurred (m.runFrom source plane blurred target n) n := by
  simp [runFrom, List.range_succ]

end Mask

end FixedRaster.Unsharp
