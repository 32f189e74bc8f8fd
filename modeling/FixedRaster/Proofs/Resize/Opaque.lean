import Mathlib
import FixedRaster.Proofs.Resize.Resampling

/-!
# Opaque images

The alpha of a resized image does not depend on whether colors are weighted by it. Where every pixel
of the source is opaque the weights cancel in the first pass, and in the second the division by
alpha does nothing to a pixel that is opaque or clear. Kernels whose rows sum to one leave every
pixel opaque, and so the two resizes leave the same image.
-/

open scoped BigOperators
namespace FixedRaster

namespace Taps

def total (t : Taps) : ℤ := (t.weights.map Int16.toInt).sum

theorem dot_const (t : Taps) (v : ℤ) : t.dot (fun _ => v) = t.total * v := by
  have hsum := Fin.sum_univ_fun_getElem t.weights Int16.toInt
  simp only [dot, ← Finset.sum_mul, List.get_eq_getElem, total, ← hsum]

theorem dot_of_total {t : Taps} {f : ℕ → ℤ} {v : ℤ} (h : ∀ i, t.start ≤ i → i < t.stop → f i = v)
    (htotal : t.total = Q14.one.toInt) : t.dot f = 16384 * v := by
  rw [dot_congr h, dot_const, htotal]
  rfl

theorem dot_mul_left (t : Taps) (v : ℤ) (f : ℕ → ℤ) : t.dot (fun i => v * f i) = v * t.dot f := by
  simp only [dot, Finset.mul_sum, mul_left_comm]

end Taps

namespace Resize

/-- The alpha of each of the first `count` pixels is the greatest. -/
def IsOpaque (image : Array UInt8) (count : ℕ) : Prop :=
  ∀ i < count, image[i * 4 + 3]? = some 255

instance (image : Array UInt8) (count : ℕ) : Decidable (IsOpaque image count) :=
  inferInstanceAs (Decidable (∀ i < count, _))

namespace Exact
variable {image : Array UInt8} {width height y : ℕ} {t u : Taps} {samples : ℕ → Channel → ℤ}
  {withAlpha : Bool}

theorem channel_alpha_eq (h : IsOpaque image (width * height)) (ht : t.Fits width)
    (hy : y < height) {i : ℕ} (hi : i < t.stop) : channel image (y * width + i) alpha = 255 := by
  have hstop := ht.stop_le
  have hplace : y * width + i < width * height := by
    rw [Nat.mul_comm width height]
    exact place_lt hy (by omega)
  rw [channel, Array.getD_eq_getD_getElem?]
  exact congrArg (fun b : Option UInt8 => ((b.getD 0).toNat : ℤ)) (h _ hplace)

theorem sampleOf_alpha :
    sampleOf withAlpha image width t y alpha = sample image width t y alpha := by
  cases withAlpha with
  | false => rfl
  | true => exact if_pos rfl

theorem sampleOf_eq_sample (h : IsOpaque image (width * height)) (ht : t.Fits width)
    (hy : y < height) (c : Channel) :
    sampleOf withAlpha image width t y c = sample image width t y c := by
  cases withAlpha with
  | false => rfl
  | true =>
    have hweighted : t.dot (fun i => channel image (y * width + i) alpha *
        channel image (y * width + i) c) =
          255 * t.dot fun i => channel image (y * width + i) c := by
      rw [← Taps.dot_mul_left]
      apply Taps.dot_congr
      intro i _ hi
      rw [channel_alpha_eq h ht hy hi]
    simp only [sampleOf, sampleWithAlpha, sample, hweighted,
      Int.mul_tdiv_cancel_left _ (show (255 : ℤ) ≠ 0 by decide), ite_self]

theorem sample_alpha_of_total (h : IsOpaque image (width * height)) (ht : t.Fits width)
    (hy : y < height) (htotal : t.total = Q14.one.toInt) :
    sample image width t y alpha = 32640 := by
  rw [sample, Taps.dot_of_total (fun i _ hi => channel_alpha_eq h ht hy hi) htotal]
  rfl

theorem pixelOf_alpha : pixelOf withAlpha u samples alpha = pixel u samples alpha := by
  cases withAlpha with
  | false => rfl
  | true => exact if_pos rfl

theorem pixelOf_of_extreme (h : pixel u samples alpha = 0 ∨ pixel u samples alpha = 255)
    (c : Channel) : pixelOf withAlpha u samples c = pixel u samples c := by
  cases withAlpha with
  | false => rfl
  | true =>
    rw [pixelOf, if_pos rfl, pixelWithAlpha]
    split_ifs with hc hpos
    · rw [hc]
    · -- a positive alpha is the greatest one, so the division takes back the factor
      have hfull : pixel u samples alpha = 255 := by omega
      rw [hfull, Int.mul_tdiv_cancel_left _ (by decide), pixel]
    · rw [pixel]

theorem pixel_alpha_of_total (h : ∀ y, u.start ≤ y → y < u.stop → samples y alpha = 32640)
    (htotal : u.total = Q14.one.toInt) : pixel u samples alpha = 255 := by
  rw [pixel, column, Taps.dot_of_total h htotal]
  rfl

theorem pixelOf_alpha_eq (image : Array UInt8) (width : ℕ) (t u : Taps) (withAlpha : Bool) :
    pixelOf withAlpha u (sampleOf withAlpha image width t) alpha =
      pixel u (sample image width t) alpha := by
  rw [pixelOf_alpha]
  exact pixel_congr fun _ _ _ => sampleOf_alpha

theorem pixelOf_eq_pixel (h : IsOpaque image (width * height)) (ht : t.Fits width)
    (hu : u.Fits height) (hextreme : pixel u (sample image width t) alpha = 0 ∨
      pixel u (sample image width t) alpha = 255) (c : Channel) :
    pixelOf withAlpha u (sampleOf withAlpha image width t) c =
      pixel u (sample image width t) c := by
  rw [← pixelOf_of_extreme hextreme]
  apply pixelOf_congr
  intro c' y _ hy
  have hstop := hu.stop_le
  exact sampleOf_eq_sample h ht (by omega) c'

theorem pixel_alpha_eq (h : IsOpaque image (width * height)) (ht : t.Fits width)
    (hu : u.Fits height) (hrow : t.total = Q14.one.toInt) (hcolumn : u.total = Q14.one.toInt) :
    pixel u (sample image width t) alpha = 255 := by
  refine pixel_alpha_of_total ?_ hcolumn
  intro y _ hy
  have hstop := hu.stop_le
  exact sample_alpha_of_total h ht (by omega) hrow

end Exact

section
variable {image : Array UInt8} {rows columns : List Taps} {width height targetWidth x y : ℕ}
  {t u : Taps} {withAlpha withAlpha' : Bool} {before before' after after' : Canvas}
  (h : Resampled rows columns height targetWidth (Exact.sampleOf withAlpha image width)
    (Exact.pixelOf withAlpha) before after)
  (h' : Resampled rows columns height targetWidth (Exact.sampleOf withAlpha' image width)
    (Exact.pixelOf withAlpha') before' after')
include h h'

theorem Resampled.alpha_agrees (hx : rows[x]? = some t) (hy : columns[y]? = some u) :
    after.target[(y * targetWidth + x) * 4 + 3]? =
      after'.target[(y * targetWidth + x) * 4 + 3]? :=
  h.byte_congr h' (c := alpha) hx hy
    ((Exact.pixelOf_alpha_eq ..).trans (Exact.pixelOf_alpha_eq ..).symm)

theorem Resampled.middle_agrees (hrows : ∀ t ∈ rows, t.Fits width)
    (hsource : IsOpaque image (width * height)) {i : ℕ} (hi : i < rows.length * height * 4) :
    after.middle[i]? = after'.middle[i]? := by
  refine h.middle_congr h' ?_ hi
  intro t ht y hy c
  rw [Exact.sampleOf_eq_sample hsource (hrows t ht) hy,
    Exact.sampleOf_eq_sample hsource (hrows t ht) hy]

theorem Resampled.pixel_agrees (hrows : ∀ t ∈ rows, t.Fits width)
    (hcolumns : ∀ u ∈ columns, u.Fits height) (hsource : IsOpaque image (width * height))
    (hx : rows[x]? = some t) (hy : columns[y]? = some u)
    (hextreme : Exact.pixel u (Exact.sample image width t) alpha = 0 ∨
      Exact.pixel u (Exact.sample image width t) alpha = 255) (c : Channel) :
    after.target[(y * targetWidth + x) * 4 + c]? =
      after'.target[(y * targetWidth + x) * 4 + c]? := by
  have ht := hrows t (List.mem_of_getElem? hx)
  have hu := hcolumns u (List.mem_of_getElem? hy)
  apply h.byte_congr h' hx hy
  rw [Exact.pixelOf_eq_pixel hsource ht hu hextreme, Exact.pixelOf_eq_pixel hsource ht hu hextreme]

end

theorem Resampled.extreme_of_alpha {image : Array UInt8} {rows columns : List Taps}
    {width height targetWidth x y : ℕ} {t u : Taps} {withAlpha : Bool} {before after : Canvas}
    (h : Resampled rows columns height targetWidth (Exact.sampleOf withAlpha image width)
      (Exact.pixelOf withAlpha) before after) (hx : rows[x]? = some t) (hy : columns[y]? = some u)
    (hbyte : after.target[(y * targetWidth + x) * 4 + 3]? = some 0 ∨
      after.target[(y * targetWidth + x) * 4 + 3]? = some 255) :
    Exact.pixel u (Exact.sample image width t) alpha = 0 ∨
      Exact.pixel u (Exact.sample image width t) alpha = 255 := by
  obtain ⟨b, hb, hval⟩ := h.target_eq x y t u hx hy alpha
  have hb' : after.target[(y * targetWidth + x) * 4 + 3]? = some b := hb
  rw [Exact.pixelOf_alpha_eq] at hval
  rw [← hval]
  rcases hbyte with hzero | hfull
  · cases hb'.symm.trans hzero
    exact .inl rfl
  · cases hb'.symm.trans hfull
    exact .inr rfl

/-- Weighting colors by alpha changes no alpha. Of an opaque source it changes no sample and no
pixel that is opaque or clear, and where the rows of both kernels sum to one it changes nothing. -/
theorem resample_agrees_withAlpha {image : Array UInt8} {horizontal vertical : List Int16}
    {sourceWidth sourceHeight targetWidth targetHeight : UInt32} {withAlpha : Bool}
    {canvas final : Canvas}
    (hrun : (resample image horizontal vertical sourceWidth sourceHeight targetWidth targetHeight
      withAlpha).run canvas = .ok () final) (withAlpha' : Bool) (other : Canvas)
    (htarget : targetWidth.toNat * targetHeight.toNat * 4 ≤ other.target.size)
    (hmiddle : 4 * sourceHeight.toNat * targetWidth.toNat ≤ other.middle.size) :
    ∃ (final' : Canvas) (rows columns : List Taps),
      (resample image horizontal vertical sourceWidth sourceHeight targetWidth targetHeight
        withAlpha').run other = .ok () final' ∧
      Kernel.Reads horizontal sourceWidth.toNat targetWidth.toNat rows ∧
      Kernel.Reads vertical sourceHeight.toNat targetHeight.toNat columns ∧
      (∀ i < targetWidth.toNat * targetHeight.toNat,
        final'.target[i * 4 + 3]? = final.target[i * 4 + 3]?) ∧
      (IsOpaque image (sourceWidth.toNat * sourceHeight.toNat) →
        (∀ i < 4 * sourceHeight.toNat * targetWidth.toNat,
          final'.middle[i]? = final.middle[i]?) ∧
        (∀ i < targetWidth.toNat * targetHeight.toNat,
          final.target[i * 4 + 3]? = some 0 ∨ final.target[i * 4 + 3]? = some 255 →
            ∀ c < 4, final'.target[i * 4 + c]? = final.target[i * 4 + c]?) ∧
        ((∀ t ∈ rows, t.total = Q14.one.toInt) → (∀ u ∈ columns, u.total = Q14.one.toInt) →
          ∀ i < targetWidth.toNat * targetHeight.toNat * 4,
            final'.target[i]? = final.target[i]?)) := by
  obtain ⟨rows, columns, hrows, -, hcolumns, -, hfirst⟩ := exists_resampled_of_run hrun
  obtain ⟨final', hrun', hsecond⟩ := exists_resampled_again hrun hrows hcolumns withAlpha'
    (image_le_of_run hrun) htarget hmiddle
  obtain ⟨hrlen, hrfit⟩ := hrows.fits
  obtain ⟨hclen, hcfit⟩ := hcolumns.fits
  have hplace : ∀ i < targetWidth.toNat * targetHeight.toNat, ∃ (x y : ℕ) (t u : Taps),
      rows[x]? = some t ∧ columns[y]? = some u ∧ i = y * targetWidth.toNat + x := by
    intro i hi
    rw [Nat.mul_comm, ← hclen] at hi
    obtain ⟨y, hy, x, hx, rfl⟩ := exists_place hi
    rw [← hrlen] at hx
    exact ⟨x, y, rows[x], columns[y], List.getElem?_eq_getElem hx, List.getElem?_eq_getElem hy, rfl⟩
  refine ⟨final', rows, columns, hrun', hrows, hcolumns, ?_, ?_⟩
  · intro i hi
    obtain ⟨x, y, t, u, hx, hy, rfl⟩ := hplace i hi
    exact hsecond.alpha_agrees hfirst hx hy
  intro hsource
  refine ⟨?_, ?_, ?_⟩
  · intro i hi
    refine hsecond.middle_agrees hfirst hrfit hsource (hi.trans_eq ?_)
    rw [hrlen]
    ring
  · intro i hi hbyte c hc
    obtain ⟨x, y, t, u, hx, hy, rfl⟩ := hplace i hi
    have hextreme := hfirst.extreme_of_alpha hx hy hbyte
    exact hsecond.pixel_agrees hfirst hrfit hcfit hsource hx hy hextreme ⟨c, hc⟩
  · intro hrtotal hctotal j hj
    obtain ⟨i, hi, c, hc, rfl⟩ := exists_place hj
    obtain ⟨x, y, t, u, hx, hy, rfl⟩ := hplace i hi
    have ht := List.mem_of_getElem? hx
    have hu := List.mem_of_getElem? hy
    have hfull := Exact.pixel_alpha_eq hsource (hrfit t ht) (hcfit u hu) (hrtotal t ht)
      (hctotal u hu)
    exact hsecond.pixel_agrees hfirst hrfit hcfit hsource hx hy (.inr hfull) ⟨c, hc⟩

def panes : Array UInt8 :=
  #[10, 20, 30, 255, 200, 0, 50, 255, 7, 8, 9, 255,
    1, 2, 3, 255, 50, 60, 70, 255, 90, 91, 92, 255]

def panesAfter : Canvas :=
  ⟨#[150, 32, 67, 255, 87, 40, 55, 255, 1],
    #[31728, 0, 7376, 32640, 6544, 8112, 9680, 32640, 13248, 512, 3776, 32640, 8960, 9664, 10368,
      32640, 5]⟩

theorem resample_agrees_withAlpha_panes :
    let across : List Int16 := [0, 3, -2048, 20480, -2048, 1, 2, 8192, 8192]
    let down : List Int16 := [0, 2, 8192, 8192, 77]
    let other : Canvas := ⟨Array.replicate 8 2, Array.replicate 16 3⟩
    (resample panes across down 3 2 2 1 true).run ⟨Array.replicate 9 1, Array.replicate 17 5⟩ =
        .ok () panesAfter ∧
      IsOpaque panes 6 ∧
      ∃ final, (resample panes across down 3 2 2 1 false).run other = .ok () final ∧
        (∀ i < 16, final.middle[i]? = panesAfter.middle[i]?) ∧
        ∀ i < 8, final.target[i]? = panesAfter.target[i]? := by
  intro across down other
  have hrun : (resample panes across down 3 2 2 1 true).run
      ⟨Array.replicate 9 1, Array.replicate 17 5⟩ = .ok () panesAfter := by
    cbv
  have hsource : IsOpaque panes 6 := by decide
  obtain ⟨final, rows, columns, hrun', hrows, hcolumns, -, hagrees⟩ :=
    resample_agrees_withAlpha hrun false other (by decide) (by decide)
  obtain ⟨hmiddle, -, htarget⟩ := hagrees hsource
  have hrows' : rows = [⟨0, [-2048, 20480, -2048]⟩, ⟨1, [8192, 8192]⟩] :=
    hrows.unique ⟨_, rfl, rfl⟩
  have hcolumns' : columns = [⟨0, [8192, 8192]⟩] := hcolumns.unique ⟨_, rfl, rfl⟩
  have hrtotal : ∀ t ∈ rows, t.total = Q14.one.toInt := by
    rw [hrows']
    decide
  have hctotal : ∀ u ∈ columns, u.total = Q14.one.toInt := by
    rw [hcolumns']
    decide
  exact ⟨hrun, hsource, final, hrun', hmiddle, htarget hrtotal hctotal⟩

end Resize
end FixedRaster
