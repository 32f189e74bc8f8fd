import FixedRaster.Memory.Filters
import FixedRaster.Unsharp.Session

/-!
# Calls for a host page

A host hands over whole images and gets new ones back. Its color model is a flag.
-/

namespace FixedRaster.Host

def version : String := "sharpscale 0.1.0"

def modelOf (useHsv : Bool) : ColorModel := if useHsv then .hsv else .hsl

def final {σ α β : Type} (call : Edit σ α) (start : σ) (result : σ → β) : Except Fault β :=
  match call.run start with
  | .ok _ s => .ok (result s)
  | .error f _ => .error f

def sharpened (pixels : Array UInt8) (width height percent : UInt32) (radius : Float32)
    (least : UInt8) (useHsv : Bool) : Except Fault (Array UInt8) :=
  final (Unsharp.sharpen width height ⟨percent, radius, least, modelOf useHsv⟩) pixels id

def resized (pixels : Array UInt8) (sourceWidth sourceHeight targetWidth targetHeight : UInt32)
    (horizontal vertical : List Int16) (withAlpha : Bool) : Except Fault (Array UInt8) :=
  let target := Array.replicate (targetWidth.toNat * targetHeight.toNat * pixelBytes) 0
  final
    (Resize.resampleGrowing pixels horizontal vertical sourceWidth sourceHeight targetWidth
      targetHeight withAlpha)
    ⟨target, #[]⟩ (·.target)

end FixedRaster.Host
