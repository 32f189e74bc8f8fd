import FixedRaster.Resize.Weigh

/-!
# The two passes of a resize

The first pass runs a kernel along the rows of the source and writes its samples transposed; the
second runs a kernel along the rows of that intermediate image, which are the columns of the
source, and writes bytes in the first orientation again. A pass fails where its taps or its output
lie outside of a buffer.
-/

namespace FixedRaster.Resize

/-- Writes pixel `place x y` of the output for every line `y` below `lines` and every row of taps,
numbered `x`. The taps have to stay inside the line. -/
def pass? {α : Type} (lines length : Nat) (rows : List Taps) (place : Nat → Nat → Nat)
    (value : Nat → Taps → Channel → α) (out : Array α) : Option (Array α) :=
  (List.range lines).foldlM
    (fun out line => rows.zipIdx.foldlM
      (fun out row => do
        guard (row.1.stop ≤ length)
        putQuad? out (place row.2 line) (value line row.1)) out) out

def firstPass? (withAlpha : Bool) (image : Array UInt8) (width height : Nat) (rows : List Taps)
    (middle : Array UInt16) : Option (Array UInt16) := do
  guard (width * height * 4 ≤ image.size)
  pass? height width rows (fun x y => x * height + y)
    (fun y => (if withAlpha then acrossWithAlpha else across) image (y * width)) middle

def secondPass? (withAlpha : Bool) (middle : Array UInt16) (width height : Nat)
    (rows : List Taps) (target : Array UInt8) : Option (Array UInt8) := do
  guard (width * height * 4 ≤ middle.size)
  pass? width height rows (fun y x => y * width + x)
    (fun x => (if withAlpha then downWithAlpha else down) middle (x * height)) target

end FixedRaster.Resize
