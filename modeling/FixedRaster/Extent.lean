import FixedRaster.Fault

/-!
# The size of an image

An extent is a width and a height that are both positive and whose RGBA bytes a 64-bit word can
count, so that no length derived from it wraps.
-/

namespace FixedRaster

def pixelBytes : Nat := 4

def wordLimit : Nat := 18446744073709551616

/-- A product of words. The call breaks off where a word cannot hold it. -/
def mulWords (a b : UInt64) : Except Fault UInt64 :=
  if a.toNat * b.toNat < wordLimit then .ok (a * b) else .error .outOfRange

structure Extent where
  width : Nat
  height : Nat
  width_pos : 0 < width
  height_pos : 0 < height
  bytes_lt : width * height * pixelBytes < wordLimit

namespace Extent

def of? (width height : UInt32) : Except Fault Extent :=
  if h : 0 < width.toNat ∧ 0 < height.toNat ∧
      width.toNat * height.toNat * pixelBytes < wordLimit then
    .ok ⟨width.toNat, height.toNat, h.1, h.2.1, h.2.2⟩
  else
    .error (.badExtent width height)

def pixels (e : Extent) : Nat := e.width * e.height

def bytes (e : Extent) : Nat := e.pixels * pixelBytes

def longSide (e : Extent) : Nat := max e.width e.height

def coversImage (e : Extent) (what : String) (length : Nat) : Except Fault Unit :=
  requireLength what e.bytes length

def coversPlane (e : Extent) (what : String) (length : Nat) : Except Fault Unit :=
  requireLength what e.pixels length

theorem pixels_pos (e : Extent) : 0 < e.pixels := Nat.mul_pos e.width_pos e.height_pos

theorem of?_eq_ok_iff {width height : UInt32} {e : Extent} :
    of? width height = .ok e ↔
      e.width = width.toNat ∧ e.height = height.toNat := by
  unfold of?
  split
  · rename_i h
    constructor
    · intro he
      cases he
      exact ⟨rfl, rfl⟩
    · rintro ⟨hw, hh⟩
      cases e
      subst hw hh
      rfl
  · rename_i h
    constructor
    · intro he
      cases he
    · rintro ⟨hw, hh⟩
      exact absurd ⟨hw ▸ e.width_pos, hh ▸ e.height_pos, hw ▸ hh ▸ e.bytes_lt⟩ h

end Extent

end FixedRaster
