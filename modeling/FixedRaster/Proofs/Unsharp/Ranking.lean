import Mathlib
import FixedRaster.Proofs.Refusals
import FixedRaster.Proofs.Unsharp.Copying

/-!
# The order of the channels

Whatever brightness a pixel is moved to, and by whatever samples, its channels keep their order: the
rebuilt color of a lightness lies between new extremes as the old one did between its own, and a
value scales every channel by one quotient. So channels that are equal stay equal, and gray stays
gray, in every image that a mask is applied to.
-/

namespace FixedRaster
namespace Unsharp.Mask
variable {m : Mask} {p q : Pixel}

def IsGray (p : Pixel) : Prop := p.r = p.g ∧ p.g = p.b

instance : Decidable (IsGray p) :=
  inferInstanceAs (Decidable (_ ∧ _))

structure Ranked (p q : Pixel) : Prop where
  le_of_le : ∀ k k' : Primary,
    k.of (color p) ≤ k'.of (color p) → k.of (color q) ≤ k'.of (color q)
  eq_of_eq : ∀ k k' : Primary,
    k.of (color p) = k'.of (color p) → k.of (color q) = k'.of (color q)
  isGray : IsGray p → IsGray q

theorem ranked_of_le (h : ∀ k k' : Primary,
    k.of (color p) ≤ k'.of (color p) → k.of (color q) ≤ k'.of (color q)) : Ranked p q := by
  have heq : ∀ k k' : Primary,
      k.of (color p) = k'.of (color p) → k.of (color q) = k'.of (color q) := by
    intro k k' hk
    exact UInt8.le_antisymm (h k k' (UInt8.le_of_eq hk)) (h k' k (UInt8.le_of_eq hk.symm))
  exact ⟨h, heq, fun hgray => ⟨heq .red .green hgray.1, heq .green .blue hgray.2⟩⟩

theorem Ranked.refl (p : Pixel) : Ranked p p :=
  ⟨fun _ _ h => h, fun _ _ h => h, fun h => h⟩

theorem boost_of_le (m : Mask) (p : Pixel) (sample : UInt16) (contrast : Int32) {k k' : Primary}
    (hle : k.of (color p) ≤ k'.of (color p)) :
    k.of (m.boost p sample contrast) ≤ k'.of (m.boost p sample contrast) := by
  cases hm : m.model with
  | hsl =>
    rw [boost, hm]
    exact (recolors_boostLightness hm p contrast).of_le hle
  | hsv =>
    rw [boost, hm]
    simp only [of_boostValue]
    exact scaleChannel_mono le_rfl (m.gain_le sample contrast) hle

theorem ranked_of_sharpen? {sample blurred : UInt16} (h : m.sharpen? p sample blurred = some q) :
    Ranked p q := by
  apply ranked_of_le
  intro k k' hle
  rw [color_of_sharpen? h]
  exact boost_of_le m p sample _ hle

section
variable {source before after : Array UInt8} {plane blurred : Array UInt16} {count n i : ℕ}

theorem Applied.ranked (h : Applied m source plane blurred count before after n) (hi : i < count) :
    Ranked (Pixel.ofImage source i) (Pixel.ofImage after i) := by
  by_cases hact : m.Acts plane blurred i
  · exact ranked_of_sharpen? (h.sharpened i hi hact)
  · rw [h.kept i hi hact]
    exact .refl _

theorem Applied.ofImage_behind (h : Applied m source plane blurred count before after n)
    (hi : count ≤ i) : Pixel.ofImage after i = Pixel.ofImage before i :=
  Pixel.ofImage_congr fun _ _ => h.rest_eq _ (by omega)

end

/-- A refused call leaves its image, so this is about every outcome and every pixel. -/
theorem apply_ranked (m : Mask) (plane blurred : Array UInt16) (width height : UInt32)
    (image : Array UInt8) (i : ℕ) :
    Ranked (Pixel.ofImage image i)
      (Pixel.ofImage (Edit.left ((m.apply plane blurred width height).run image)) i) := by
  have hatomic := m.apply_atomic plane blurred width height image
  cases hrun : (m.apply plane blurred width height).run image with
  | error f after =>
    obtain ⟨rfl, -⟩ := hatomic.error_kept f after hrun
    exact .refl _
  | ok n after =>
    obtain ⟨e, he, himage, hplane, hblurred⟩ := hatomic.ok_iff.1 ⟨n, after, hrun⟩
    obtain ⟨n', image', hrun', happlied⟩ :=
      exists_apply_applied (m := m) he himage hplane hblurred
    cases hrun.symm.trans hrun'
    rcases Nat.lt_or_ge i e.pixels with hi | hi
    · exact happlied.ranked hi
    · rw [Edit.left, happlied.ofImage_behind hi]
      exact .refl _

theorem applyFrom_ranked {source target after : Array UInt8} {plane blurred : Array UInt16}
    {width height : UInt32} {n i : ℕ}
    (hrun : (m.applyFrom source plane blurred width height).run target = .ok n after)
    (hi : i < width.toNat * height.toNat) :
    Ranked (Pixel.ofImage source i) (Pixel.ofImage after i) := by
  have hatomic := m.applyFrom_atomic plane blurred width height source target
  obtain ⟨e, he, hsource, hplane, hblurred, htarget⟩ := hatomic.ok_iff.1 ⟨n, after, hrun⟩
  obtain ⟨n', image', hrun', happlied⟩ :=
    exists_applyFrom_applied (m := m) he hsource hplane hblurred htarget
  cases hrun.symm.trans hrun'
  obtain ⟨hwidth, hheight⟩ := Extent.of?_eq_ok_iff.1 he
  rw [← hwidth, ← hheight] at hi
  exact happlied.ranked hi

/-- Sharpening keeps the order of the channels: of a pixel with any samples, of every pixel of an
image whatever the call ends in, and of every pixel of a source that was sharpened into a target. -/
theorem sharpening_ranked (m : Mask) :
    (∀ p q sample blurred, m.sharpen? p sample blurred = some q → Ranked p q) ∧
    (∀ plane blurred width height image i,
      Ranked (Pixel.ofImage image i)
        (Pixel.ofImage (Edit.left ((m.apply plane blurred width height).run image)) i)) ∧
    ∀ source plane blurred width height target n after,
      (m.applyFrom source plane blurred width height).run target = .ok n after →
        ∀ i < width.toNat * height.toNat,
          Ranked (Pixel.ofImage source i) (Pixel.ofImage after i) := by
  refine ⟨?_, m.apply_ranked, ?_⟩
  · intro p q sample blurred h
    exact ranked_of_sharpen? h
  · intro source plane blurred width height target n after hrun i hi
    exact applyFrom_ranked hrun hi

theorem sharpening_ranked_dusk :
    let m := ofPercent .hsl 80 2
    let image : Array UInt8 := #[200, 40, 200, 7, 90, 90, 90, 255, 5]
    let after : Array UInt8 := #[96, 19, 96, 7, 95, 95, 95, 255, 1]
    m.sharpen? ⟨200, 40, 200, 7⟩ 20000 30000 = some ⟨96, 19, 96, 7⟩ ∧
      Ranked ⟨200, 40, 200, 7⟩ ⟨96, 19, 96, 7⟩ ∧
      (m.applyFrom image #[20000, 900] #[30000, 7] 2 1).run (Array.replicate 9 1) = .ok 2 after ∧
      IsGray (Pixel.ofImage image 1) ∧ IsGray (Pixel.ofImage after 1) := by
  intro m image after
  let e : Extent := ⟨2, 1, by decide, by decide, by decide⟩
  have he : Extent.of? 2 1 = .ok e := rfl
  have hsharp : m.sharpen? ⟨200, 40, 200, 7⟩ 20000 30000 = some ⟨96, 19, 96, 7⟩ := by
    decide +kernel
  have hrun : (m.applyFrom image #[20000, 900] #[30000, 7] 2 1).run (Array.replicate 9 1) =
      .ok 2 after := by
    rw [run_applyFrom he (by decide) (by decide) (by decide) (by decide),
      if_neg (show m.strength ≠ 0 by decide +kernel)]
    exact congrArg₂ EStateM.Result.ok (by decide +kernel) (by decide +kernel)
  have hgray : IsGray (Pixel.ofImage image 1) := by decide
  obtain ⟨hpixel, -, hfrom⟩ := sharpening_ranked m
  exact ⟨hsharp, hpixel _ _ _ _ hsharp, hrun, hgray,
    (hfrom _ _ _ _ _ _ _ _ hrun 1 (by decide)).isGray hgray⟩

end Unsharp.Mask
end FixedRaster
