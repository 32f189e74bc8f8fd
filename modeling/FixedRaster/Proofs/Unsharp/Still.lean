import Mathlib
import FixedRaster.Proofs.Unsharp.Response

/-!
# Images that the mask keeps

Where the mask leaves every pixel as it finds it, an image is its own sharpening, and a target holds
the image in front. That is so where the brightness plane is its own blur: with no difference, only
a threshold of zero is reached, and a pixel is rebuilt as it was.
-/

namespace FixedRaster

theorem Brightness.of_run_fill {model : ColorModel} {image : Array UInt8}
    {before plane : Array UInt16} {width height : UInt32} {e : Extent}
    (he : Extent.of? width height = .ok e)
    (h : (fill model image width height).run before = .ok () plane) :
    e.bytes ≤ image.size ∧ e.pixels ≤ plane.size ∧
      ∀ i < e.pixels, plane[i]? = some (model.brightnessOf (Pixel.ofImage image i)) := by
  have hsize := size_samples model image e.pixels
  rw [fill, Edit.run_check_bind_of_ok he, Edit.run_check_bind_ok_iff] at h
  obtain ⟨⟨⟩, himage, h⟩ := h
  rw [Edit.run_get_bind, Edit.run_check_bind_ok_iff] at h
  obtain ⟨⟨⟩, hplane, h⟩ := h
  have hroom : e.pixels ≤ before.size := requireLength_eq_ok_iff.1 hplane
  have hover : overlay (samples model image e.pixels) before = plane := by
    injection h
  rw [← hover]
  refine ⟨requireLength_eq_ok_iff.1 himage, by rwa [size_overlay (by omega)], ?_⟩
  intro i hi
  rw [getElem?_overlay (by omega), if_pos (by omega), getElem?_samples _ _ hi]

namespace Unsharp.Mask
variable {m : Mask} {source : Array UInt8} {plane blurred : Array UInt16}

theorem Composited.eq_overlay {count : ℕ} {before : Array UInt8} {after : Array UInt8 × ℕ}
    (h : Composited m source plane blurred count before after)
    (hstay : ∀ i < count, m.leaves source plane blurred i = Pixel.ofImage source i)
    (hsource : count * 4 ≤ source.size) (hbefore : count * 4 ≤ before.size) :
    after.1 = overlay (source.extract 0 (count * 4)) before := by
  have hsize : (source.extract 0 (count * 4)).size = count * 4 := size_front hsource
  apply Array.ext_getElem?
  intro j
  rw [getElem?_overlay (by omega), hsize]
  split_ifs with hj
  · obtain ⟨i, hi, k, hk, rfl⟩ := exists_place hj
    rw [Array.getElem?_extract, Nat.zero_add, if_pos (by omega)]
    apply Pixel.getElem?_eq_of_ofImage _ (by omega) _ hk
    · rw [h.size_eq]
      omega
    · rw [h.pixel_eq i hi, hstay i hi]
  · exact h.rest_eq j (by omega)

section
variable {e : Extent} {width height : UInt32}

theorem run_apply_of_stay (he : Extent.of? width height = .ok e) (himage : e.bytes ≤ source.size)
    (hplane : e.pixels ≤ plane.size) (hblurred : e.pixels ≤ blurred.size)
    (hstay : ∀ i < e.pixels, m.leaves source plane blurred i = Pixel.ofImage source i) :
    (m.apply plane blurred width height).run source =
      .ok (if m.strength = 0 then 0 else m.reached source plane blurred e.pixels) source := by
  have hbytes : e.pixels * 4 = e.bytes := rfl
  have hrun : Composited m source plane blurred e.pixels source
      (m.run plane blurred source e.pixels) :=
    run_composited (by omega)
  have hkept := hrun.eq_overlay hstay (by omega) (by omega)
  rw [hbytes, overlay_extract] at hkept
  rw [run_apply he himage hplane hblurred, hkept, hrun.count_eq]
  split_ifs
  · rfl
  · rfl

theorem run_applyFrom_of_stay (he : Extent.of? width height = .ok e)
    (himage : e.bytes ≤ source.size) (hplane : e.pixels ≤ plane.size)
    (hblurred : e.pixels ≤ blurred.size)
    (hstay : ∀ i < e.pixels, m.leaves source plane blurred i = Pixel.ofImage source i)
    {target : Array UInt8} (htarget : e.bytes ≤ target.size) :
    (m.applyFrom source plane blurred width height).run target =
      .ok (if m.strength = 0 then 0 else m.reached source plane blurred e.pixels)
        (overlay (source.extract 0 e.bytes) target) := by
  have hbytes : e.pixels * 4 = e.bytes := rfl
  have hrun : Composited m source plane blurred e.pixels target
      (m.runFrom source plane blurred target e.pixels) :=
    runFrom_composited (by omega)
  have hkept := hrun.eq_overlay hstay (by omega) (by omega)
  rw [hbytes] at hkept
  rw [run_applyFrom he himage hplane hblurred htarget, hkept, hrun.count_eq]
  split_ifs
  · rfl
  · rfl

end

theorem toInt_threshold (model : ColorModel) (percent : UInt32) (least : UInt8) :
    (ofPercent model percent least).threshold.toInt =
      (match model with
        | .hsl => 257
        | .hsv => 256) * least.toNat := by
  have hleast := least.toNat_lt
  have hbyte : (Int32.ofNat least.toNat).toInt = least.toNat :=
    Int32.toInt_ofNat_of_lt (by omega)
  cases model with
  | hsl =>
    have hprod := toInt_mul_eq hbyte (show (257 : Int32).toInt = 257 from rfl) (by omega)
      (by omega)
    exact hprod.trans (mul_comm _ _)
  | hsv =>
    have hshift := toInt_shiftLeft_eq (k := 8) hbyte (by decide)
      (show (8 : Int32).toBitVec.smod 32 = BitVec.ofNat 32 8 by decide) (by omega) (by omega)
    exact hshift.trans (mul_comm _ _)

theorem threshold_nonneg (model : ColorModel) (percent : UInt32) (least : UInt8) :
    0 ≤ (ofPercent model percent least).threshold.toInt := by
  rw [toInt_threshold]
  cases model <;> simp only <;> omega

theorem isSome_sharpen?_self (m : Mask) (p : Pixel) (sample : UInt16) :
    (m.sharpen? p sample sample).isSome = true ↔ m.threshold.toInt ≤ 0 := by
  rw [← Bool.not_eq_false, Option.isSome_eq_false_iff, Option.isNone_iff_eq_none,
    sharpen?_eq_none_iff, Bool.not_eq_false, reaches_contrast_iff, sub_self, mul_zero]
  rfl

section
variable {i : ℕ} (hplane : plane[i]? = some (m.model.brightnessOf (Pixel.ofImage source i)))
  (hblurred : blurred[i]? = plane[i]?)
include hplane hblurred

theorem sharpenAt?_of_unblurred :
    m.sharpenAt? (Pixel.ofImage source i) plane blurred i =
      m.sharpen? (Pixel.ofImage source i) (m.model.brightnessOf (Pixel.ofImage source i))
        (m.model.brightnessOf (Pixel.ofImage source i)) := by
  rw [sharpenAt?, Array.getD_eq_getD_getElem?, Array.getD_eq_getD_getElem?, hblurred, hplane,
    Option.getD_some]

theorem leaves_of_unblurred : m.leaves source plane blurred i = Pixel.ofImage source i := by
  rw [leaves, sharpenAt?_of_unblurred hplane hblurred]
  exact against_self m _

end

theorem reached_of_unblurred {count : ℕ} (h : ∀ i < count,
      plane[i]? = some (m.model.brightnessOf (Pixel.ofImage source i)) ∧ blurred[i]? = plane[i]?) :
    m.reached source plane blurred count = if m.threshold.toInt ≤ 0 then count else 0 := by
  have hreached : ∀ i ∈ List.range count,
      ((m.sharpenAt? (Pixel.ofImage source i) plane blurred i).isSome = true ↔
        m.threshold.toInt ≤ 0) := by
    intro i hi
    obtain ⟨hplane, hblurred⟩ := h i (List.mem_range.1 hi)
    rw [sharpenAt?_of_unblurred hplane hblurred, isSome_sharpen?_self]
  rw [reached]
  split_ifs with hthreshold
  · rw [List.countP_eq_length.2 fun i hi => (hreached i hi).2 hthreshold, List.length_range]
  · exact List.countP_eq_zero.2 fun i hi hsome => hthreshold ((hreached i hi).1 hsome)

/-- A plane that is its own blur sharpens nothing: the image stays, the target holds it in front,
and every pixel is counted exactly if the threshold is zero and the strength is not. -/
theorem apply_of_unblurred (model : ColorModel) (percent : UInt32) (least : UInt8)
    {image : Array UInt8} {before plane blurred : Array UInt16} {width height : UInt32}
    {e : Extent} (he : Extent.of? width height = .ok e)
    (hfill : (Brightness.fill model image width height).run before = .ok () plane)
    (hblurred : ∀ i < e.pixels, blurred[i]? = plane[i]?) :
    let m := ofPercent model percent least
    let count := if m.threshold = 0 ∧ m.strength ≠ 0 then e.pixels else 0
    (m.apply plane blurred width height).run image = .ok count image ∧
      ∀ target : Array UInt8, e.bytes ≤ target.size →
        (m.applyFrom image plane blurred width height).run target =
          .ok count (overlay (image.extract 0 e.bytes) target) := by
  intro m count
  obtain ⟨himage, hplane, hsample⟩ := Brightness.of_run_fill he hfill
  have hroom : e.pixels ≤ blurred.size := by
    by_contra hless
    have hlast := hblurred blurred.size (by omega)
    rw [Array.getElem?_eq_none le_rfl, hsample _ (by omega)] at hlast
    exact absurd hlast (by simp)
  have hstay : ∀ i < e.pixels, m.leaves image plane blurred i = Pixel.ofImage image i :=
    fun i hi => leaves_of_unblurred (hsample i hi) (hblurred i hi)
  have hzero : m.threshold.toInt ≤ 0 ↔ m.threshold = 0 := by
    have hnonneg : 0 ≤ m.threshold.toInt := threshold_nonneg model percent least
    rw [← Int32.toInt_inj, show (0 : Int32).toInt = 0 from rfl]
    omega
  have hcount : (if m.strength = 0 then 0 else m.reached image plane blurred e.pixels) =
      count := by
    rw [reached_of_unblurred fun i hi => ⟨hsample i hi, hblurred i hi⟩]
    simp only [hzero, count, ne_eq]
    split_ifs <;> simp_all
  rw [run_apply_of_stay he himage hplane hroom hstay, hcount]
  refine ⟨rfl, ?_⟩
  intro target htarget
  rw [run_applyFrom_of_stay he himage hplane hroom hstay htarget, hcount]

theorem apply_of_unblurred_album :
    let image : Array UInt8 := #[200, 90, 40, 7, 3, 255, 0, 9, 17, 17, 18, 255, 99]
    let plane : Array UInt16 := #[30840, 32767, 4497]
    let m := ofPercent .hsl 150 0
    (Brightness.fill .hsl image 3 1).run #[0, 0, 0] = .ok () plane ∧
      (m.apply plane (plane.push 5) 3 1).run image = .ok 3 image ∧
      (m.applyFrom image plane (plane.push 5) 3 1).run (Array.replicate 14 1) =
        .ok 3 #[200, 90, 40, 7, 3, 255, 0, 9, 17, 17, 18, 255, 1, 1] := by
  intro image plane m
  let e : Extent := ⟨3, 1, by decide, by decide, by decide⟩
  have he : Extent.of? 3 1 = .ok e := rfl
  have hfill : (Brightness.fill .hsl image 3 1).run #[0, 0, 0] = .ok () plane := by
    rw [Brightness.run_fill he (by decide) rfl]
    exact congrArg (EStateM.Result.ok ()) (by decide +kernel)
  have hfront : ∀ i < e.pixels, (plane.push 5)[i]? = plane[i]? := by decide
  have hcount : m.threshold = 0 ∧ m.strength ≠ 0 := by decide +kernel
  have hover : overlay (image.extract 0 e.bytes) (Array.replicate 14 1) =
      #[200, 90, 40, 7, 3, 255, 0, 9, 17, 17, 18, 255, 1, 1] := by decide +kernel
  obtain ⟨happly, hfrom⟩ := apply_of_unblurred .hsl 150 0 he hfill hfront
  rw [if_pos hcount] at happly hfrom
  have hinto := hfrom (Array.replicate 14 1) (by decide)
  rw [hover] at hinto
  exact ⟨hfill, happly, hinto⟩

end Unsharp.Mask
end FixedRaster
