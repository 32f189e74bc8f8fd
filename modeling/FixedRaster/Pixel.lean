/-!
# Pixels

An image is a run of bytes, four a pixel in the order red, green, blue, alpha. The same order,
from the lowest byte up, makes a pixel a 32-bit word.
-/

namespace FixedRaster

structure Pixel where
  r : UInt8
  g : UInt8
  b : UInt8
  a : UInt8
  deriving DecidableEq, Inhabited

namespace Pixel

def ofWord (w : UInt32) : Pixel :=
  ⟨w.toUInt8, (w >>> 8).toUInt8, (w >>> 16).toUInt8, (w >>> 24).toUInt8⟩

def toWord (p : Pixel) : UInt32 :=
  p.r.toUInt32 ||| p.g.toUInt32 <<< 8 ||| p.b.toUInt32 <<< 16 ||| p.a.toUInt32 <<< 24

def brightest (p : Pixel) : UInt8 := max (max p.r p.g) p.b

def darkest (p : Pixel) : UInt8 := min (min p.r p.g) p.b

/-- Pixel `i` of an image; bytes past the end of the image read as zero. -/
def ofImage (image : Array UInt8) (i : Nat) : Pixel :=
  ⟨image.getD (i * 4) 0, image.getD (i * 4 + 1) 0, image.getD (i * 4 + 2) 0,
    image.getD (i * 4 + 3) 0⟩

def put (p : Pixel) (image : Array UInt8) (i : Nat) : Array UInt8 :=
  (((image.setIfInBounds (i * 4) p.r).setIfInBounds (i * 4 + 1) p.g).setIfInBounds
    (i * 4 + 2) p.b).setIfInBounds (i * 4 + 3) p.a

theorem ofWord_toWord (p : Pixel) : ofWord p.toWord = p := by
  obtain ⟨r, g, b, a⟩ := p
  simp only [ofWord, toWord, mk.injEq]
  refine ⟨?_, ?_, ?_, ?_⟩ <;> apply UInt8.eq_of_toBitVec_eq <;> ext i hi <;>
    simp <;> grind

theorem size_put (p : Pixel) (image : Array UInt8) (i : Nat) :
    (p.put image i).size = image.size := by
  simp [put]

theorem ofImage_put_self (p : Pixel) {image : Array UInt8} {i : Nat} (h : i * 4 + 3 < image.size) :
    ofImage (p.put image i) i = p := by
  have h0 : i * 4 < image.size := by omega
  have h1 : i * 4 + 1 < image.size := by omega
  have h2 : i * 4 + 2 < image.size := by omega
  simp [ofImage, put, h, h0, h1, h2]

theorem ofImage_put_ne (p : Pixel) (image : Array UInt8) {i j : Nat} (h : i ≠ j) :
    ofImage (p.put image i) j = ofImage image j := by
  simp only [ofImage, put, Array.getD_eq_getD_getElem?, Array.getElem?_setIfInBounds]
  grind

end Pixel

end FixedRaster
