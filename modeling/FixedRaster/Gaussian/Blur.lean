import FixedRaster.Edit
import FixedRaster.Extent
import FixedRaster.Gaussian.Line

/-!
# The blur of a plane

The rows of the plane are filtered into the columns of a scratch plane, and the rows of that, which
are the columns of the plane, into the columns of the output: two transpositions that cancel.
A blur takes a scratch plane and a scratch line from its caller; `Scratch` keeps both between blurs
and grows when a plane asks for more.
-/

namespace FixedRaster.Gaussian

structure Scratch where
  plane : Array UInt16
  line : Array Float32

namespace Scratch

def empty : Scratch := ⟨#[], #[]⟩

def fit (s : Scratch) (e : Extent) : Scratch :=
  ⟨grown s.plane e.pixels 0, grown s.line e.longSide 0.0⟩

def ofExtent? (width height : UInt32) : Except Fault Scratch := do
  return empty.fit (← Extent.of? width height)

end Scratch

def row (plane : Array UInt16) (width row : Nat) : List UInt16 :=
  (plane.extract (row * width) ((row + 1) * width)).toList

/-- Filters every row of a plane into a column of the output. -/
def filterRows? (c : Coefficients) (plane : Array UInt16) (width height : Nat)
    (buffers : Array Float32 × Array UInt16) : Option (Array Float32 × Array UInt16) :=
  (List.range height).foldlM
    (fun buffers r => filterLine? c (row plane width r) height r buffers) buffers

def filterPlane? (c : Coefficients) (e : Extent) (plane : Array UInt16)
    (buffers : Array UInt16 × Scratch) : Option (Array UInt16 × Scratch) := do
  let (line, across) ← filterRows? c plane e.width e.height (buffers.2.line, buffers.2.plane)
  let (line, out) ← filterRows? c across e.height e.width (line, buffers.1)
  return (out, ⟨across, line⟩)

def covers (e : Extent) (source : Nat) (buffers : Array UInt16 × Scratch) :
    Except Fault Unit := do
  e.coversPlane "blur source plane" source
  e.coversPlane "blur destination plane" buffers.1.size
  e.coversPlane "blur scratch plane" buffers.2.plane.size
  requireLength "blur scratch line" e.longSide buffers.2.line.size

/-- Blurs a plane into the output and returns the coefficients it used. A radius that asks for no
blur leaves every buffer as it is. -/
def blur (plane : Array UInt16) (width height : UInt32) (radius : Float32) :
    Edit (Array UInt16 × Scratch) (Option Coefficients) := do
  let e ← Extent.of? width height
  covers e plane.size (← get)
  match Coefficients.ofBlurRadius? radius with
  | none => return none
  | some c =>
    Edit.work (filterPlane? c e plane)
    return some c

def blurInPlace (width height : UInt32) (radius : Float32) :
    Edit (Array UInt16 × Scratch) (Option Coefficients) := do
  let e ← Extent.of? width height
  covers e (← get).1.size (← get)
  match Coefficients.ofBlurRadius? radius with
  | none => return none
  | some c =>
    Edit.work fun buffers => filterPlane? c e buffers.1 buffers
    return some c

namespace Scratch

def prepare (width height : UInt32) : Edit (Array UInt16 × Scratch) Unit := do
  let e ← Extent.of? width height
  modify fun (out, s) => (out, s.fit e)

def blur (plane : Array UInt16) (width height : UInt32) (radius : Float32) :
    Edit (Array UInt16 × Scratch) (Option Coefficients) := do
  prepare width height
  Gaussian.blur plane width height radius

def blurInPlace (width height : UInt32) (radius : Float32) :
    Edit (Array UInt16 × Scratch) (Option Coefficients) := do
  prepare width height
  Gaussian.blurInPlace width height radius

theorem size_fit (s : Scratch) (e : Extent) :
    e.pixels ≤ (s.fit e).plane.size ∧ e.longSide ≤ (s.fit e).line.size :=
  ⟨le_size_grown _ _ _, le_size_grown _ _ _⟩

end Scratch

end FixedRaster.Gaussian
