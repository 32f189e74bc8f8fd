import FixedRaster.Gaussian.Blur
import FixedRaster.Memory.Store
import FixedRaster.Resize.Resample
import FixedRaster.Unsharp.Composite

/-!
# The filters on a store

Each call names its buffers by offsets, resolves them to regions, checks that no region it writes
meets another one of the call, and then runs the filter on the pieces. All faults of a bad layout
arise before the first byte is written.
-/

namespace FixedRaster.Memory.Store

open Gaussian (Coefficients)

def filterRows (c : Coefficients) (source target line : Region) (width height : Nat) :
    Edit Store Unit :=
  onPieces #v[target, line] fun parts => do
    let plane ← Element.sample.decodeAll? source.offset (← parts.read? source)
    let out ← Element.sample.decodeAll? target.offset (← get)[0]
    let buffer ← Element.float.decodeAll? line.offset (← get)[1]
    match Gaussian.filterRows? c plane width height (buffer, out) with
    | some (buffer, out) => set #v[Element.sample.encodeAll out, Element.float.encodeAll buffer]
    | none => throw .outOfRange

/-- Blurs the plane at `source` into the plane at `target`, which may be the same. The scratch
plane, the scratch line and, if there was a blur, the coefficients are left at their offsets. -/
def blur (source target scratch line coefficients : Nat) (width height : UInt32)
    (radius : Float32) : Edit Store Unit := do
  let e ← Extent.of? width height
  let s ← get
  let source ← s.region? 2 source e.pixels
  let target ← s.region? 2 target e.pixels
  let scratch ← s.region? 2 scratch e.pixels
  let line ← s.region? 4 line e.longSide
  let coefficients ← s.region? 4 coefficients 8
  checkDisjoint [scratch, line, target, coefficients] []
  checkDisjoint [scratch, line, coefficients] [source]
  match Coefficients.ofBlurRadius? radius with
  | none => return ()
  | some c =>
    onPieces #v[coefficients] fun _ =>
      asElements .float coefficients.offset 0 (set c.toArray)
    filterRows c source scratch line e.width e.height
    filterRows c scratch target line e.height e.width

def extract (model : ColorModel) (source target : Nat) (width height : UInt32) :
    Edit Store Unit := do
  let e ← Extent.of? width height
  let s ← get
  let source ← s.region? 1 source e.bytes
  let target ← s.region? 2 target e.pixels
  onPieces #v[target] fun parts => do
    let image ← parts.read? source
    asElements .sample target.offset 0 (Brightness.fill model image width height)

def sharpen (model : ColorModel) (image target plane blurred : Nat) (width height percent : UInt32)
    (least : UInt8) : Edit Store Nat := do
  let e ← Extent.of? width height
  let s ← get
  let source ← s.region? 1 image e.bytes
  let written ← s.region? 1 target e.bytes
  let plane ← s.region? 2 plane e.pixels
  let blurred ← s.region? 2 blurred e.pixels
  let mask := Unsharp.Mask.ofPercent model percent least
  if image = target then
    onPieces #v[source] fun parts => do
      let samples ← Element.sample.decodeAll? plane.offset (← parts.read? plane)
      let reference ← Element.sample.decodeAll? blurred.offset (← parts.read? blurred)
      (mask.apply samples reference width height).within (·[0]) fun bytes _ => #v[bytes]
  else
    onPieces #v[written] fun parts => do
      let bytes ← parts.read? source
      let samples ← Element.sample.decodeAll? plane.offset (← parts.read? plane)
      let reference ← Element.sample.decodeAll? blurred.offset (← parts.read? blurred)
      (mask.applyFrom bytes samples reference width height).within (·[0]) fun bytes _ => #v[bytes]

def kernel? (bytes : Array UInt8) (offset source count : Nat) : Except Fault Kernel := do
  Kernel.ofPacked? (← Element.weight.decodeAll? offset bytes).toList source count

/-- Resizes the image at `image` over itself. The two kernels are given by offset and number of
weights, and the intermediate image is left at `middle`. -/
def resample (image horizontal horizontalLength vertical verticalLength middle : Nat)
    (sourceWidth sourceHeight targetWidth targetHeight : UInt32) (withAlpha : Bool) :
    Edit Store Unit := do
  let source ← Extent.of? sourceWidth sourceHeight
  let target ← Extent.of? targetWidth targetHeight
  let s ← get
  let read ← s.region? 1 image source.bytes
  let written ← s.region? 1 image target.bytes
  let across ← s.region? 2 horizontal horizontalLength
  let down ← s.region? 2 vertical verticalLength
  let required ← Resize.middleLength sourceHeight targetWidth
  let middle ← s.region? 2 middle required.toNat
  checkDisjoint [middle] [read, across, down]
  checkDisjoint [written] [middle, down]
  let _ ← kernel? (s.view across) across.offset source.width target.width
  let _ ← kernel? (s.view down) down.offset source.height target.height
  onPieces #v[middle] fun parts => do
    let pixels ← parts.read? read
    let kernel ← kernel? (← parts.read? across) across.offset source.width target.width
    asElements .sample middle.offset 0 <| Edit.work fun samples => do
      Resize.firstPass? withAlpha pixels source.width source.height (← kernel.rows?) samples
  onPieces #v[written] fun parts => do
    let samples ← Element.sample.decodeAll? middle.offset (← parts.read? middle)
    let kernel ← kernel? (← parts.read? down) down.offset source.height target.height
    let pass : Edit (Array UInt8) Unit := Edit.work fun bytes => do
      Resize.secondPass? withAlpha samples target.width source.height (← kernel.rows?) bytes
    pass.within (·[0]) fun bytes _ => #v[bytes]

end FixedRaster.Memory.Store
