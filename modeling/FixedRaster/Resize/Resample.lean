import FixedRaster.Edit
import FixedRaster.Extent
import FixedRaster.Kernel
import FixedRaster.Resize.Pass

/-!
# Resizing an image with two kernels

The horizontal kernel has a row for every column of the target and reads source rows; the vertical
kernel has a row for every row of the target and reads source columns. Both are checked
before the first sample is written.
-/

namespace FixedRaster.Resize

structure Canvas where
  target : Array UInt8
  middle : Array UInt16

/-- The samples of the intermediate image. The extents of the two images do not bound them. -/
def middleLength (sourceHeight targetWidth : UInt32) : Except Fault UInt64 := do
  mulWords (← mulWords sourceHeight.toUInt64 targetWidth.toUInt64) 4

def passes? (withAlpha : Bool) (image : Array UInt8) (source target : Extent)
    (horizontal vertical : Kernel) (canvas : Canvas) : Option Canvas := do
  let middle ← firstPass? withAlpha image source.width source.height (← horizontal.rows?)
    canvas.middle
  let bytes ← secondPass? withAlpha middle target.width source.height (← vertical.rows?)
    canvas.target
  return ⟨bytes, middle⟩

def resample (image : Array UInt8) (horizontal vertical : List Int16)
    (sourceWidth sourceHeight targetWidth targetHeight : UInt32) (withAlpha : Bool) :
    Edit Canvas Unit := do
  let source ← Extent.of? sourceWidth sourceHeight
  let target ← Extent.of? targetWidth targetHeight
  source.coversImage "resample source image" image.size
  target.coversImage "resample destination image" (← get).target.size
  let required ← middleLength sourceHeight targetWidth
  requireLength "resample intermediate buffer" required.toNat (← get).middle.size
  let across ← Kernel.ofPacked? horizontal source.width target.width
  let down ← Kernel.ofPacked? vertical source.height target.height
  Edit.work (passes? withAlpha image source target across down)

def resampleGrowing (image : Array UInt8) (horizontal vertical : List Int16)
    (sourceWidth sourceHeight targetWidth targetHeight : UInt32) (withAlpha : Bool) :
    Edit Canvas Unit := do
  let required ← middleLength sourceHeight targetWidth
  modify fun c => { c with middle := grown c.middle required.toNat 0 }
  resample image horizontal vertical sourceWidth sourceHeight targetWidth targetHeight withAlpha

end FixedRaster.Resize
