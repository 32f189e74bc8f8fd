import Mathlib
import FixedRaster.Proofs.Unsharp.Staging

/-!
# Alpha takes no part in a sharpening

Two runs are compared, on images that may differ in their alpha bytes and on sessions that may hold
anything. Brightness and boost read the colors of a pixel, so both images have the same brightness
plane, the same blur of it and the same sharpened colors. The mask hands the alpha of each pixel on.
-/

namespace FixedRaster

structure Pixel.SameColor (p q : Pixel) : Prop where
  r_eq : p.r = q.r
  g_eq : p.g = q.g
  b_eq : p.b = q.b

/-- The images agree on every color byte before `stop`, and their alpha bytes are arbitrary. -/
structure SameColors (stop : ℕ) (a b : Array UInt8) : Prop where
  size_eq : a.size = b.size
  color_eq : ∀ j < stop, j % 4 ≠ 3 → a[j]? = b[j]?

structure KeepsAlpha (stop : ℕ) (before after : Array UInt8) : Prop where
  size_eq : after.size = before.size
  alpha_eq : ∀ j, j % 4 = 3 → after[j]? = before[j]?
  behind_eq : ∀ j, stop ≤ j → after[j]? = before[j]?

theorem KeepsAlpha.refl (stop : ℕ) (image : Array UInt8) : KeepsAlpha stop image image :=
  ⟨rfl, fun _ _ => rfl, fun _ _ => rfl⟩

section
variable {a b : Array UInt8} {count i : ℕ}

theorem SameColors.all (h : SameColors a.size a b) (stop : ℕ) : SameColors stop a b := by
  refine ⟨h.size_eq, ?_⟩
  intro j _ hcolor
  by_cases hj : j < a.size
  · exact h.color_eq j hj hcolor
  · have hsize := h.size_eq
    rw [Array.getElem?_eq_none (by omega), Array.getElem?_eq_none (by omega)]

theorem SameColors.pixel (h : SameColors (count * 4) a b) (hi : i < count) :
    (Pixel.ofImage a i).SameColor (Pixel.ofImage b i) := by
  have hchannel : ∀ k < 3, a.getD (i * 4 + k) 0 = b.getD (i * 4 + k) 0 := by
    intro k hk
    rw [Array.getD_eq_getD_getElem?, Array.getD_eq_getD_getElem?,
      h.color_eq (i * 4 + k) (by omega) (by omega)]
  exact ⟨hchannel 0 (by decide), hchannel 1 (by decide), hchannel 2 (by decide)⟩

theorem sameColors_of_pixels (hsize : a.size = b.size) (hcount : count * 4 ≤ a.size)
    (h : ∀ i < count, (Pixel.ofImage a i).SameColor (Pixel.ofImage b i)) :
    SameColors (count * 4) a b := by
  refine ⟨hsize, ?_⟩
  intro j hj hcolor
  obtain ⟨i, hi, k, hk, rfl⟩ := exists_place hj
  have hsame := h i hi
  have hin : i * 4 + 3 < a.size := by omega
  have hin' : i * 4 + 3 < b.size := hsize ▸ hin
  obtain ⟨hr, hg, hblue, -⟩ := Pixel.getElem?_image hin
  obtain ⟨hr', hg', hblue', -⟩ := Pixel.getElem?_image hin'
  interval_cases k
  · exact hr.trans ((congrArg some hsame.r_eq).trans hr'.symm)
  · exact hg.trans ((congrArg some hsame.g_eq).trans hg'.symm)
  · exact hblue.trans ((congrArg some hsame.b_eq).trans hblue'.symm)
  · omega

theorem Pixel.SameColor.brightness_eq {p q : Pixel} (h : p.SameColor q) (model : ColorModel) :
    model.brightnessOf p = model.brightnessOf q := by
  rw [ColorModel.brightnessOf, ColorModel.brightnessOf, h.r_eq, h.g_eq, h.b_eq]

theorem SameColors.samples_eq (h : SameColors (count * 4) a b) (model : ColorModel) :
    Brightness.samples model a count = Brightness.samples model b count := by
  apply eq_of_front (Brightness.size_samples ..) (Brightness.size_samples ..)
  intro i hi
  rw [Brightness.getElem?_samples model a hi, Brightness.getElem?_samples model b hi,
    (h.pixel hi).brightness_eq model]

end

namespace Unsharp.Mask
variable {m : Mask} {p q : Pixel} {plane blurred : Array UInt16}

theorem boost_eq (h : p.SameColor q) (sample : UInt16) (contrast : Int32) :
    m.boost p sample contrast = m.boost q sample contrast := by
  rw [boost, boost, boostLightness, boostLightness, boostValue, boostValue, h.r_eq, h.g_eq, h.b_eq]

/-- Whether a pixel is sharpened does not depend on the pixel, and its new color only on its
color. -/
theorem sharpen?_sameColor (h : p.SameColor q) (sample reference : UInt16) :
    (m.sharpen? p sample reference).isSome = (m.sharpen? q sample reference).isSome ∧
      ((m.sharpen? p sample reference).getD p).SameColor
        ((m.sharpen? q sample reference).getD q) := by
  rw [sharpen?, sharpen?]
  by_cases hreaches : m.reaches (m.contrast sample reference)
  · rw [if_pos hreaches, if_pos hreaches, boost_eq h]
    exact ⟨rfl, rfl, rfl, rfl⟩
  · rw [if_neg hreaches, if_neg hreaches]
    exact ⟨rfl, h⟩

theorem leaves_sameColor {count i : ℕ} {a b : Array UInt8} (h : SameColors (count * 4) a b)
    (hi : i < count) :
    (m.leaves a plane blurred i).SameColor (m.leaves b plane blurred i) :=
  (sharpen?_sameColor (h.pixel hi) _ _).2

theorem reached_eq {count : ℕ} {a b : Array UInt8} (h : SameColors (count * 4) a b) :
    m.reached a plane blurred count = m.reached b plane blurred count := by
  apply List.countP_congr
  intro i hi
  rw [sharpenAt?, sharpenAt?, (sharpen?_sameColor (h.pixel (List.mem_range.1 hi)) _ _).1]

theorem alpha_leaves (m : Mask) (source : Array UInt8) (plane blurred : Array UInt16) (i : ℕ) :
    (m.leaves source plane blurred i).a = (Pixel.ofImage source i).a := by
  rw [leaves]
  cases hs : m.sharpenAt? (Pixel.ofImage source i) plane blurred i with
  | none => rfl
  | some q => exact alpha_of_sharpen? hs

theorem Composited.sameColors {count : ℕ} {a b : Array UInt8} {after after' : Array UInt8 × ℕ}
    (h : Composited m a plane blurred count a after)
    (h' : Composited m b plane blurred count b after') (hcolors : SameColors (count * 4) a b)
    (hcount : count * 4 ≤ a.size) :
    after.2 = after'.2 ∧ SameColors (count * 4) after.1 after'.1 := by
  constructor
  · rw [h.count_eq, h'.count_eq, reached_eq hcolors]
  · apply sameColors_of_pixels
    · rw [h.size_eq, h'.size_eq, hcolors.size_eq]
    · rwa [h.size_eq]
    · intro i hi
      rw [h.pixel_eq i hi, h'.pixel_eq i hi]
      exact leaves_sameColor hcolors hi

theorem Composited.keepsAlpha {count : ℕ} {image : Array UInt8} {after : Array UInt8 × ℕ}
    (h : Composited m image plane blurred count image after) (hcount : count * 4 ≤ image.size) :
    KeepsAlpha (count * 4) image after.1 := by
  refine ⟨h.size_eq, ?_, h.rest_eq⟩
  intro j hj
  by_cases hfront : j < count * 4
  · obtain ⟨i, hi, k, hk, rfl⟩ := exists_place hfront
    obtain rfl : k = 3 := by omega
    have hin : i * 4 + 3 < image.size := by omega
    have hafter := (Pixel.getElem?_image (by rwa [h.size_eq] : i * 4 + 3 < after.1.size)).2.2.2
    rw [hafter, h.pixel_eq i hi, alpha_leaves, (Pixel.getElem?_image hin).2.2.2]
  · exact h.rest_eq j (by omega)

section
variable {e : Extent} {width height : UInt32} {a b : Array UInt8}

theorem apply_sameColors (he : Extent.of? width height = .ok e) (himage : e.bytes ≤ a.size)
    (hplane : e.pixels ≤ plane.size) (hblurred : e.pixels ≤ blurred.size)
    (hcolors : SameColors e.bytes a b) :
    Edit.outcome ((m.apply plane blurred width height).run a) =
        Edit.outcome ((m.apply plane blurred width height).run b) ∧
      SameColors e.bytes (Edit.left ((m.apply plane blurred width height).run a))
        (Edit.left ((m.apply plane blurred width height).run b)) := by
  have himage' : e.bytes ≤ b.size := by rwa [← hcolors.size_eq]
  rw [run_apply he himage hplane hblurred, run_apply he himage' hplane hblurred]
  by_cases hstrength : m.strength = 0
  · rw [if_pos hstrength, if_pos hstrength]
    exact ⟨rfl, hcolors⟩
  · rw [if_neg hstrength, if_neg hstrength]
    obtain ⟨hcount, hleft⟩ :=
      (run_composited himage).sameColors (run_composited himage') hcolors himage
    exact ⟨congrArg Except.ok hcount, hleft⟩

theorem apply_keepsAlpha (he : Extent.of? width height = .ok e) (himage : e.bytes ≤ a.size)
    (hplane : e.pixels ≤ plane.size) (hblurred : e.pixels ≤ blurred.size) :
    KeepsAlpha e.bytes a (Edit.left ((m.apply plane blurred width height).run a)) := by
  rw [run_apply he himage hplane hblurred]
  by_cases hstrength : m.strength = 0
  · rw [if_pos hstrength]
    exact .refl e.bytes a
  · rw [if_neg hstrength]
    exact (run_composited himage).keepsAlpha himage

end

end Unsharp.Mask

namespace Unsharp
variable {a b : Array UInt8} {width height : UInt32}

theorem run_staged_cases (width height : UInt32) (settings : Settings) (size : ℕ) :
    (∃ f, ∀ image : Array UInt8, image.size = size →
      (staged width height settings).run image = .error f image) ∨
    (∀ image : Array UInt8, image.size = size →
      (staged width height settings).run image = .ok 0 image) ∨
    ∃ e, Extent.of? width height = .ok e ∧ e.bytes ≤ size ∧
      ∀ plane : Array UInt16, plane.size = e.pixels → ∃ blurred : Array UInt16,
        blurred.size = e.pixels ∧ ∀ image : Array UInt8, image.size = size →
          Brightness.samples settings.model image e.pixels = plane →
          (staged width height settings).run image =
            (settings.mask.apply plane blurred width height).run image := by
  cases he : Extent.of? width height with
  | error f =>
    refine .inl ⟨f, ?_⟩
    intro image _
    rw [staged, Edit.run_check_bind, he]
  | ok e =>
    cases hcovers : e.coversImage "sharpen image" size with
    | error f =>
      refine .inl ⟨f, ?_⟩
      rintro image rfl
      rw [staged, Edit.run_check_bind_of_ok he, Edit.run_get_bind, Edit.run_check_bind, hcovers]
    | ok _ =>
      have himage : e.bytes ≤ size := requireLength_eq_ok_iff.1 hcovers
      cases hidle : settings.isIdle with
      | true =>
        refine .inr (.inl ?_)
        rintro image rfl
        exact run_staged_of_idle he himage hidle
      | false =>
        refine .inr (.inr ⟨e, rfl, himage, ?_⟩)
        intro plane hplane
        obtain ⟨-, blurred, -, -, hsize, -, hrun⟩ := exists_run_staged he hidle hplane
        refine ⟨blurred, hsize, ?_⟩
        rintro image rfl hsamples
        exact hrun image himage hsamples

theorem staged_sameColors (hcolors : SameColors (width.toNat * height.toNat * 4) a b)
    (settings : Settings) :
    Edit.outcome ((staged width height settings).run a) =
        Edit.outcome ((staged width height settings).run b) ∧
      SameColors (width.toNat * height.toNat * 4)
        (Edit.left ((staged width height settings).run a))
        (Edit.left ((staged width height settings).run b)) := by
  rcases run_staged_cases width height settings a.size with ⟨f, hrun⟩ | hrun | ⟨e, he, himage, h⟩
  · rw [hrun a rfl, hrun b hcolors.size_eq.symm]
    exact ⟨rfl, hcolors⟩
  · rw [hrun a rfl, hrun b hcolors.size_eq.symm]
    exact ⟨rfl, hcolors⟩
  · have hsize := Brightness.size_samples settings.model a e.pixels
    rw [← Extent.bytes_eq he] at hcolors ⊢
    obtain ⟨blurred, hblurred, hrun⟩ := h _ hsize
    rw [hrun a rfl rfl, hrun b hcolors.size_eq.symm (hcolors.samples_eq settings.model).symm]
    exact Mask.apply_sameColors he himage hsize.ge hblurred.ge hcolors

theorem staged_keepsAlpha (width height : UInt32) (settings : Settings) (image : Array UInt8) :
    KeepsAlpha (width.toNat * height.toNat * 4) image
      (Edit.left ((staged width height settings).run image)) := by
  rcases run_staged_cases width height settings image.size with
    ⟨f, hrun⟩ | hrun | ⟨e, he, himage, h⟩
  · rw [hrun image rfl]
    exact .refl _ image
  · rw [hrun image rfl]
    exact .refl _ image
  · have hsize := Brightness.size_samples settings.model image e.pixels
    obtain ⟨blurred, hblurred, hrun⟩ := h _ hsize
    rw [← Extent.bytes_eq he, hrun image rfl rfl]
    exact Mask.apply_keepsAlpha he himage hsize.ge hblurred.ge

namespace Session
variable {s s' : Session}

theorem outcome_sharpen (hs : s.Reachable) (image : Array UInt8) (width height : UInt32)
    (settings : Settings) :
    Edit.outcome ((sharpen width height settings).run (image, s)) =
        Edit.outcome ((staged width height settings).run image) ∧
      (Edit.left ((sharpen width height settings).run (image, s))).1 =
        Edit.left ((staged width height settings).run image) := by
  rw [← (seen_sharpen_eq_staged hs.balanced).1, Edit.outcome_seen, Edit.left_seen]
  exact ⟨rfl, rfl⟩

theorem sharpen_sameColors_front (hs : s.Reachable) (hs' : s'.Reachable)
    (hcolors : SameColors (width.toNat * height.toNat * 4) a b) (settings : Settings) :
    Edit.outcome ((sharpen width height settings).run (a, s)) =
        Edit.outcome ((sharpen width height settings).run (b, s')) ∧
      SameColors (width.toNat * height.toNat * 4)
        (Edit.left ((sharpen width height settings).run (a, s))).1
        (Edit.left ((sharpen width height settings).run (b, s'))).1 := by
  obtain ⟨houtcome, hleft⟩ := outcome_sharpen hs a width height settings
  obtain ⟨houtcome', hleft'⟩ := outcome_sharpen hs' b width height settings
  rw [houtcome, houtcome', hleft, hleft']
  exact staged_sameColors hcolors settings

theorem sharpen_keepsAlpha (hs : s.Reachable) (image : Array UInt8) (width height : UInt32)
    (settings : Settings) :
    KeepsAlpha (width.toNat * height.toNat * 4) image
      (Edit.left ((sharpen width height settings).run (image, s))).1 := by
  rw [(outcome_sharpen hs image width height settings).2]
  exact staged_keepsAlpha width height settings image

/-- Images that differ in alpha only are sharpened to images that differ in alpha only, each with
its own, whatever the two sessions have sharpened before. -/
theorem sharpen_sameColors (hs : s.Reachable) (hs' : s'.Reachable)
    (hcolors : SameColors a.size a b) (width height : UInt32) (settings : Settings) :
    Edit.outcome ((sharpen width height settings).run (a, s)) =
        Edit.outcome ((sharpen width height settings).run (b, s')) ∧
      SameColors a.size (Edit.left ((sharpen width height settings).run (a, s))).1
        (Edit.left ((sharpen width height settings).run (b, s'))).1 ∧
      KeepsAlpha (width.toNat * height.toNat * 4) a
        (Edit.left ((sharpen width height settings).run (a, s))).1 ∧
      KeepsAlpha (width.toNat * height.toNat * 4) b
        (Edit.left ((sharpen width height settings).run (b, s'))).1 := by
  have hkeeps := sharpen_keepsAlpha hs a width height settings
  have hkeeps' := sharpen_keepsAlpha hs' b width height settings
  obtain ⟨houtcome, hfront⟩ :=
    sharpen_sameColors_front hs hs' (hcolors.all (width.toNat * height.toNat * 4)) settings
  refine ⟨houtcome, ⟨hfront.size_eq, ?_⟩, hkeeps, hkeeps'⟩
  intro j hj hcolor
  -- a byte is sharpened alike in both images, or lies behind their pixels and stays
  by_cases hin : j < width.toNat * height.toNat * 4
  · exact hfront.color_eq j hin hcolor
  · rw [hkeeps.behind_eq j (by omega), hkeeps'.behind_eq j (by omega)]
    exact hcolors.color_eq j hj hcolor

def solid : Array UInt8 := #[200, 100, 50, 255, 20, 30, 40, 7, 1, 2]

def sheer : Array UInt8 := #[200, 100, 50, 0, 20, 30, 40, 7, 1, 2]

theorem sharpen_sameColors_sheer :
    empty.Reachable ∧ warm.Reachable ∧ SameColors solid.size solid sheer ∧
    Edit.outcome ((sharpen 2 1 {}).run (solid, empty)) =
      Edit.outcome ((sharpen 2 1 {}).run (sheer, warm)) ∧
    SameColors solid.size (Edit.left ((sharpen 2 1 {}).run (solid, empty))).1
      (Edit.left ((sharpen 2 1 {}).run (sheer, warm))).1 := by
  have hcolors : SameColors solid.size solid sheer := ⟨rfl, by decide⟩
  obtain ⟨houtcome, hleft, -⟩ := sharpen_sameColors .empty warm_reachable hcolors 2 1 {}
  exact ⟨.empty, warm_reachable, hcolors, houtcome, hleft⟩

end Session
end Unsharp
end FixedRaster
