import Mathlib
import FixedRaster.Pixel
import FixedRaster.Proofs.Resize.Sums

/-!
# A resize in unbounded integers

The reference that a resize is measured against. A sample is a row of the horizontal kernel over one
source line, a column sum is a row of the vertical kernel over samples, and a pixel is that sum
rounded to a byte. Nothing here wraps, narrows or saturates except where the rule says so.
-/

namespace FixedRaster
namespace Pixel

def channel (p : Pixel) : Resize.Channel → UInt8 := ![p.r, p.g, p.b, p.a]

theorem channel_ofImage (image : Array UInt8) (i : ℕ) (c : Resize.Channel) :
    (ofImage image i).channel c = image.getD (i * 4 + c) 0 := by
  fin_cases c <;> rfl

theorem eq_of_channel {p q : Pixel} (h : ∀ c, p.channel c = q.channel c) : p = q := by
  obtain ⟨r, g, b, a⟩ := p
  obtain ⟨r', g', b', a'⟩ := q
  have hr : r = r' := h 0
  have hg : g = g' := h 1
  have hb : b = b' := h 2
  have ha : a = a' := h 3
  rw [hr, hg, hb, ha]

end Pixel

namespace Resize.Exact

def channel (image : Array UInt8) (i : ℕ) (c : Channel) : ℤ := (image.getD (i * 4 + c) 0).toNat

/-- The sample that row `t` makes of line `y` of an image of `width` pixels a line. -/
def sample (image : Array UInt8) (width : ℕ) (t : Taps) (y : ℕ) (c : Channel) : ℤ :=
  max 0 (t.dot (fun i => channel image (y * width + i) c) / 128)

def sampleWithAlpha (image : Array UInt8) (width : ℕ) (t : Taps) (y : ℕ) (c : Channel) : ℤ :=
  if c = alpha then sample image width t y c
  else
    max 0 ((t.dot fun i => channel image (y * width + i) alpha *
      channel image (y * width + i) c).tdiv 255 / 128)

/-- The sum of row `t` over the samples of one column, on the scale of a byte times 16384. -/
def column (t : Taps) (samples : ℕ → Channel → ℤ) (c : Channel) : ℤ :=
  t.dot (fun y => samples y c) / 128

def nearestByte (v : ℤ) : ℤ := max 0 (min 255 ((v + 8192) / 16384))

def pixel (t : Taps) (samples : ℕ → Channel → ℤ) (c : Channel) : ℤ :=
  nearestByte (column t samples c)

def pixelWithAlpha (t : Taps) (samples : ℕ → Channel → ℤ) (c : Channel) : ℤ :=
  let a := pixel t samples alpha
  if c = alpha then a
  else if 0 < a then nearestByte ((255 * column t samples c).tdiv a)
  else nearestByte (column t samples c)

def sampleOf (withAlpha : Bool) (image : Array UInt8) (width : ℕ) (t : Taps) (y : ℕ)
    (c : Channel) : ℤ :=
  if withAlpha then sampleWithAlpha image width t y c else sample image width t y c

def pixelOf (withAlpha : Bool) (t : Taps) (samples : ℕ → Channel → ℤ) (c : Channel) : ℤ :=
  if withAlpha then pixelWithAlpha t samples c else pixel t samples c

theorem channel_eq (image : Array UInt8) (i : ℕ) (c : Channel) :
    channel image i c = ((Pixel.ofImage image i).channel c).toNat := by
  rw [channel, Pixel.channel_ofImage]

theorem channel_nonneg (image : Array UInt8) (i : ℕ) (c : Channel) : 0 ≤ channel image i c :=
  Int.natCast_nonneg _

theorem channel_le (image : Array UInt8) (i : ℕ) (c : Channel) : channel image i c ≤ 255 := by
  have h := (image.getD (i * 4 + c) 0).toNat_lt
  rw [channel]
  omega

theorem abs_channel_le (image : Array UInt8) (i : ℕ) (c : Channel) :
    |channel image i c| ≤ (255 : ℕ) :=
  abs_le.2 ⟨by have := channel_nonneg image i c; omega, channel_le image i c⟩

theorem abs_premultiplied_le (image : Array UInt8) (i : ℕ) (c : Channel) :
    |channel image i alpha * channel image i c| ≤ (65025 : ℕ) := by
  rw [abs_mul]
  calc
    _ ≤ (255 : ℤ) * 255 := mul_le_mul (abs_channel_le image i alpha) (abs_channel_le image i c)
      (abs_nonneg _) (by norm_num)
    _ = _ := by norm_num

theorem column_congr {t : Taps} {f g : ℕ → Channel → ℤ} {c : Channel}
    (h : ∀ y, t.start ≤ y → y < t.stop → f y c = g y c) : column t f c = column t g c := by
  simp only [column]
  rw [Taps.dot_congr h]

theorem pixel_congr {t : Taps} {f g : ℕ → Channel → ℤ} {c : Channel}
    (h : ∀ y, t.start ≤ y → y < t.stop → f y c = g y c) : pixel t f c = pixel t g c := by
  simp only [pixel]
  rw [column_congr h]

theorem pixelWithAlpha_congr {t : Taps} {f g : ℕ → Channel → ℤ} {c : Channel}
    (h : ∀ c y, t.start ≤ y → y < t.stop → f y c = g y c) :
    pixelWithAlpha t f c = pixelWithAlpha t g c := by
  simp only [pixelWithAlpha]
  rw [pixel_congr (h alpha), column_congr (h c)]

theorem pixelOf_congr {withAlpha : Bool} {t : Taps} {f g : ℕ → Channel → ℤ} {c : Channel}
    (h : ∀ c y, t.start ≤ y → y < t.stop → f y c = g y c) :
    pixelOf withAlpha t f c = pixelOf withAlpha t g c := by
  cases withAlpha with
  | false => exact pixel_congr (h c)
  | true => exact pixelWithAlpha_congr h

theorem nearestByte_clamp (v : ℤ) :
    nearestByte (max (-2147483648) (min 2147475455 v)) = nearestByte v := by
  simp only [nearestByte]
  omega

end Resize.Exact
end FixedRaster
