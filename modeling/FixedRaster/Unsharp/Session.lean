import FixedRaster.Gaussian.Blur
import FixedRaster.Unsharp.Composite

/-!
# Sharpening whole images

A sharpening extracts the brightness of an image, blurs it and applies the mask. A session keeps the
planes in between, so that one session serves images of any sizes one after the other.
-/

namespace FixedRaster.Unsharp

structure Session where
  plane : Array UInt16
  blurred : Array UInt16
  scratch : Gaussian.Scratch

namespace Session

def empty : Session := ⟨#[], #[], .empty⟩

def fit (s : Session) (e : Extent) : Session :=
  if s.plane.size < e.pixels then
    { s with
      plane := resized s.plane e.pixels 0
      blurred := resized s.blurred e.pixels 0 }
  else
    s

def onPlane {α : Type} (count : Nat) (edit : Edit (Array UInt16) α) :
    Edit (Array UInt8 × Session) α :=
  edit.within (fun (_, s) => s.plane.extract 0 count)
    fun plane (image, s) => (image, { s with plane := overlay plane s.plane })

def onBlurred {α : Type} (count : Nat) (edit : Edit (Array UInt16 × Gaussian.Scratch) α) :
    Edit (Array UInt8 × Session) α :=
  edit.within (fun (_, s) => (s.blurred.extract 0 count, s.scratch))
    fun (blurred, scratch) (image, s) =>
      (image, { s with blurred := overlay blurred s.blurred, scratch := scratch })

def onImage {α : Type} (edit : Edit (Array UInt8) α) : Edit (Array UInt8 × Session) α :=
  edit.within Prod.fst fun image (_, s) => (image, s)

/-- Sharpens an image in place and returns the number of pixels that reached the threshold. -/
def sharpen (width height : UInt32) (settings : Settings) :
    Edit (Array UInt8 × Session) Nat := do
  let e ← Extent.of? width height
  e.coversImage "sharpen image" (← get).1.size
  if settings.isIdle then
    return 0
  modify fun (image, s) => (image, s.fit e)
  onPlane e.pixels (Brightness.fill settings.model (← get).1 width height)
  let plane := (← get).2.plane.extract 0 e.pixels
  let _ ← onBlurred e.pixels (Gaussian.Scratch.blur plane width height settings.radius)
  let blurred := (← get).2.blurred.extract 0 e.pixels
  onImage (settings.mask.apply plane blurred width height)

end Session

def sharpen (width height : UInt32) (settings : Settings) : Edit (Array UInt8) Nat :=
  (Session.sharpen width height settings).within (·, Session.empty) fun t _ => t.1

end FixedRaster.Unsharp
