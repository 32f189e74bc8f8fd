import FixedRaster.Proofs.Gaussian.Flat
import FixedRaster.Proofs.Unsharp.Staging
import FixedRaster.Proofs.Unsharp.Still

/-!
# Flat images

The blur of a flat image is near its brightness, nearer than any threshold from two on, so no pixel
of it is sharpened.
-/

namespace FixedRaster.Unsharp

namespace Mask

theorem sharpen?_of_near {model : ColorModel} {percent : UInt32} {least : UInt8}
    (hleast : 2 ≤ least) (p : Pixel) {sample blurred : UInt16}
    (hnear : |(blurred.toNat : ℤ) - sample.toNat| ≤ 256) :
    (ofPercent model percent least).sharpen? p sample blurred = none := by
  have hthreshold := toInt_threshold model percent least
  have hleast' : 2 ≤ least.toNat := UInt8.le_iff_toNat_le.1 hleast
  have hmodel : (ofPercent model percent least).model = model := rfl
  -- the contrast is at most 512 for lightness and 256 for value, below thresholds of 514 and 512
  rw [abs_le] at hnear
  rw [sharpen?_eq_none_iff, ← Bool.not_eq_true, reaches_contrast_iff, hthreshold, hmodel]
  cases model <;> simp only [ColorModel.weight] <;> omega

section
variable {model : ColorModel} {percent : UInt32} {least : UInt8} {image : Array UInt8}
  {plane blurred : Array UInt16} {e : Extent} {width height : UInt32}

theorem run_apply_of_near (he : Extent.of? width height = .ok e) (himage : e.bytes ≤ image.size)
    (hleast : 2 ≤ least) (hplane : e.pixels ≤ plane.size) (hblurred : e.pixels ≤ blurred.size)
    (hnear : ∀ i < e.pixels,
      |((blurred.getD i 0).toNat : ℤ) - (plane.getD i 0).toNat| ≤ 256) :
    ((ofPercent model percent least).apply plane blurred width height).run image =
      .ok 0 image := by
  have hnone : ∀ i < e.pixels, (ofPercent model percent least).sharpenAt? (Pixel.ofImage image i)
      plane blurred i = none := fun i hi => sharpen?_of_near hleast _ (hnear i hi)
  have hstay : ∀ i < e.pixels, (ofPercent model percent least).leaves image plane blurred i =
      Pixel.ofImage image i := by
    intro i hi
    rw [leaves, hnone i hi, Option.getD_none]
  have hreached : (ofPercent model percent least).reached image plane blurred e.pixels = 0 := by
    refine List.countP_eq_zero.2 fun i hi hsome => ?_
    rw [hnone i (List.mem_range.1 hi)] at hsome
    exact Bool.false_ne_true hsome
  rw [run_apply_of_stay he himage hplane hblurred hstay, hreached, ite_self]

end

end Mask

section
variable {image : Array UInt8} {e : Extent} {width height : UInt32} {settings : Settings}
  {p : Pixel}

theorem run_staged_of_flat (he : Extent.of? width height = .ok e) (himage : e.bytes ≤ image.size)
    (hflat : ∀ i < e.pixels, Pixel.ofImage image i = p) (hleast : 2 ≤ settings.least)
    (hradius : ¬ 240.0 < settings.radius) :
    (staged width height settings).run image = .ok 0 image := by
  cases hidle : settings.isIdle with
  | true => exact run_staged_of_idle he himage hidle
  | false =>
    have hsize := Brightness.size_samples settings.model image e.pixels
    have hplane : ∀ i < e.pixels, (Brightness.samples settings.model image e.pixels)[i]? =
        some (settings.model.brightnessOf p) := by
      intro i hi
      rw [Brightness.getElem?_samples _ _ hi, hflat i hi]
    obtain ⟨c, blurred, scratch, hsome, hblurredsize, hblur, hstaged⟩ :=
      exists_run_staged he hidle hsize
    obtain ⟨e', he', -, -, hblurred⟩ := Gaussian.blurred_of_run hblur
    obtain rfl : e = e' := Except.ok.inj (he.symm.trans he')
    obtain ⟨a, hfollows⟩ := Gaussian.exists_follows hsome hradius
    have hnear := hblurred.near_constant hfollows hsize.ge hplane
    rw [hstaged image himage rfl]
    refine Mask.run_apply_of_near he himage hleast hsize.ge hblurredsize.ge ?_
    intro i hi
    obtain ⟨w, hw, hdiff⟩ := hnear i hi
    rwa [Array.getD_eq_getD_getElem?, Array.getD_eq_getD_getElem?, hw, hplane i hi,
      Option.getD_some, Option.getD_some]

theorem Session.sharpen_of_flat {s : Session} (hs : s.Reachable)
    (he : Extent.of? width height = .ok e) (himage : e.bytes ≤ image.size)
    (hflat : ∀ i < e.pixels, Pixel.ofImage image i = p) (hleast : 2 ≤ settings.least)
    (hradius : ¬ 240.0 < settings.radius) :
    ∃ s', (Session.sharpen width height settings).run (image, s) = .ok 0 (image, s') := by
  have hseen : Edit.seen Prod.fst ((Session.sharpen width height settings).run (image, s)) =
      (staged width height settings).run image := (Session.seen_sharpen_eq_staged hs.balanced).1
  rw [run_staged_of_flat he himage hflat hleast hradius, Edit.seen_eq_ok_iff] at hseen
  obtain ⟨⟨after, s'⟩, hrun, rfl⟩ := hseen
  exact ⟨s', hrun⟩

end

theorem Session.sharpen_of_flat_warm :
    let image : Array UInt8 := #[200, 90, 40, 7, 200, 90, 40, 7, 99]
    let settings : Settings := { percent := 400, radius := 240.0 }
    warm.Reachable ∧ (∀ i < 2, Pixel.ofImage image i = ⟨200, 90, 40, 7⟩) ∧
      2 ≤ settings.least ∧ ¬ 240.0 < settings.radius ∧
      ∃ s', (Session.sharpen 2 1 settings).run (image, warm) = .ok 0 (image, s') := by
  intro image settings
  let e : Extent := ⟨2, 1, by decide, by decide, by decide⟩
  have he : Extent.of? 2 1 = .ok e := rfl
  have hflat : ∀ i < e.pixels, Pixel.ofImage image i = ⟨200, 90, 40, 7⟩ := by decide
  have hradius : ¬ 240.0 < settings.radius := by decide +kernel
  exact ⟨warm_reachable, hflat, by decide, hradius,
    Session.sharpen_of_flat warm_reachable he (by decide) hflat (by decide) hradius⟩

/-- An infinite radius leaves no coefficients that are numbers: the blur is black and the strongest
contrast there is turns a gray pixel white. -/
theorem Session.sharpen_flat_infinite :
    let settings : Settings := { radius := Float32.ofBits 0x7f800000 }
    2 ≤ settings.least ∧
      (Edit.left ((Session.sharpen 1 1 settings).run (#[128, 128, 128, 255], empty))).1 =
        #[255, 255, 255, 255] := by
  intro settings
  refine ⟨by decide, ?_⟩
  decide +kernel

end FixedRaster.Unsharp
