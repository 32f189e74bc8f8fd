import Mathlib
import FixedRaster.Proofs.Unsharp.Response

/-!
# Sharpening in place and into another image

A pixel is sharpened where the strength is not zero and its contrast reaches the threshold, and it
is kept elsewhere. Both calls leave the pixels of the source so, in front of what their buffer held,
and count the sharpened ones. The first reads pixels that it has not written yet, and the second
writes every pixel, also where nothing is sharpened.
-/

namespace FixedRaster

theorem Pixel.ofImage_overlay {source target : Array UInt8} {count i : ℕ} (hi : i < count)
    (hsource : count * 4 ≤ source.size) (htarget : count * 4 ≤ target.size) :
    ofImage (overlay (source.extract 0 (count * 4)) target) i = ofImage source i := by
  have hsize : (source.extract 0 (count * 4)).size = count * 4 := size_front hsource
  calc
    _ = ofImage ((overlay (source.extract 0 (count * 4)) target).extract 0 (count * 4)) i :=
      (ofImage_extract (by omega)).symm
    _ = ofImage (source.extract 0 (count * 4)) i := by rw [extract_overlay hsize htarget]
    _ = ofImage source i := ofImage_extract (by omega)

namespace Unsharp.Mask
variable {m : Mask} {source : Array UInt8} {plane blurred : Array UInt16} {i : ℕ}

def Acts (m : Mask) (plane blurred : Array UInt16) (i : ℕ) : Prop :=
  m.strength ≠ 0 ∧
    m.threshold.toInt ≤ |(m.contrast (plane.getD i 0) (blurred.getD i 0)).toInt|

instance : Decidable (m.Acts plane blurred i) :=
  inferInstanceAs (Decidable (_ ∧ _))

theorem isSome_sharpenAt?_iff (p : Pixel) :
    (m.sharpenAt? p plane blurred i).isSome = true ↔
      m.threshold.toInt ≤ |(m.contrast (plane.getD i 0) (blurred.getD i 0)).toInt| := by
  rw [sharpenAt?, ← Bool.not_eq_false, Option.isSome_eq_false_iff, Option.isNone_iff_eq_none,
    sharpen?_eq_none_iff, Bool.not_eq_false, reaches_contrast_iff, toInt_contrast,
    Int.natCast_natAbs]

structure Applied (m : Mask) (source : Array UInt8) (plane blurred : Array UInt16) (count : ℕ)
    (before after : Array UInt8) (n : ℕ) : Prop where
  size_eq : after.size = before.size
  sharpened : ∀ i < count, m.Acts plane blurred i →
    m.sharpenAt? (Pixel.ofImage source i) plane blurred i = some (Pixel.ofImage after i)
  kept : ∀ i < count, ¬ m.Acts plane blurred i → Pixel.ofImage after i = Pixel.ofImage source i
  rest_eq : ∀ j, count * 4 ≤ j → after[j]? = before[j]?
  count_eq : n = (List.range count).countP fun i => m.Acts plane blurred i

section
variable {count n n' : ℕ} {before before' after after' : Array UInt8}

theorem Composited.applied {state : Array UInt8 × ℕ} (hstrength : m.strength ≠ 0)
    (h : Composited m source plane blurred count before state) :
    Applied m source plane blurred count before state.1 state.2 := by
  have hacts : ∀ i, m.Acts plane blurred i ↔
      (m.sharpenAt? (Pixel.ofImage source i) plane blurred i).isSome = true := by
    intro i
    rw [isSome_sharpenAt?_iff, Acts, and_iff_right hstrength]
  constructor
  case size_eq => exact h.size_eq
  case sharpened =>
    intro i hi hact
    obtain ⟨p, hp⟩ := Option.isSome_iff_exists.1 ((hacts i).1 hact)
    rw [h.pixel_eq i hi, leaves, hp, Option.getD_some]
  case kept =>
    intro i hi hact
    rw [hacts, Option.not_isSome_iff_eq_none] at hact
    rw [h.pixel_eq i hi, leaves, hact, Option.getD_none]
  case rest_eq => exact h.rest_eq
  case count_eq =>
    rw [h.count_eq, reached]
    apply List.countP_congr
    intro i _
    simp [hacts]

theorem applied_of_idle (hstrength : m.strength = 0) (hsize : after.size = before.size)
    (hfront : ∀ i < count, Pixel.ofImage after i = Pixel.ofImage source i)
    (hrest : ∀ j, count * 4 ≤ j → after[j]? = before[j]?) :
    Applied m source plane blurred count before after 0 := by
  refine ⟨hsize, fun _ _ hact => absurd hstrength hact.1, fun i hi _ => hfront i hi, hrest, ?_⟩
  simp [Acts, hstrength]

theorem Applied.agree (h : Applied m source plane blurred count before after n)
    (h' : Applied m source plane blurred count before' after' n') (hsize : count * 4 ≤ before.size)
    (hsize' : count * 4 ≤ before'.size) :
    n = n' ∧ ∀ j < count * 4, after[j]? = after'[j]? := by
  refine ⟨h.count_eq.trans h'.count_eq.symm, ?_⟩
  intro j hj
  obtain ⟨i, hi, k, hk, rfl⟩ := exists_place hj
  have hin := h.size_eq
  have hin' := h'.size_eq
  -- both buffers hold the pixel that the source decides on, whatever they held before
  refine Pixel.getElem?_eq_of_ofImage (by omega) (by omega) ?_ hk
  by_cases hact : m.Acts plane blurred i
  · exact Option.some.inj ((h.sharpened i hi hact).symm.trans (h'.sharpened i hi hact))
  · exact (h.kept i hi hact).trans (h'.kept i hi hact).symm

theorem Applied.alpha_eq (h : Applied m source plane blurred count before after n)
    (hi : i < count) : (Pixel.ofImage after i).a = (Pixel.ofImage source i).a := by
  by_cases hact : m.Acts plane blurred i
  · exact alpha_of_sharpen? (h.sharpened i hi hact)
  · rw [h.kept i hi hact]

theorem Applied.changed_le (h : Applied m source plane blurred count before after n) :
    ((List.range count).countP fun i => Pixel.ofImage after i ≠ Pixel.ofImage source i) ≤ n := by
  rw [h.count_eq]
  apply List.countP_mono_left
  intro i hi hchanged
  by_contra hact
  simp only [decide_eq_true_eq] at hchanged hact
  exact hchanged (h.kept i (List.mem_range.1 hi) hact)

end

section
variable {e : Extent} {width height : UInt32} {target : Array UInt8}
  (he : Extent.of? width height = .ok e) (hsource : e.bytes ≤ source.size)
  (hplane : e.pixels ≤ plane.size) (hblurred : e.pixels ≤ blurred.size)
include he hsource hplane hblurred

theorem exists_apply_applied :
    ∃ n image, (m.apply plane blurred width height).run source = .ok n image ∧
      Applied m source plane blurred e.pixels source image n := by
  rw [run_apply he hsource hplane hblurred]
  by_cases hstrength : m.strength = 0
  · rw [if_pos hstrength]
    exact ⟨0, source, rfl, applied_of_idle hstrength rfl (fun _ _ => rfl) fun _ _ => rfl⟩
  · rw [if_neg hstrength]
    exact ⟨_, _, rfl, (run_composited hsource).applied hstrength⟩

theorem exists_applyFrom_applied (htarget : e.bytes ≤ target.size) :
    ∃ n image, (m.applyFrom source plane blurred width height).run target = .ok n image ∧
      Applied m source plane blurred e.pixels target image n := by
  have hbytes : e.pixels * 4 = e.bytes := rfl
  have hfront : (source.extract 0 e.bytes).size = e.bytes := size_front hsource
  rw [run_applyFrom he hsource hplane hblurred htarget]
  by_cases hstrength : m.strength = 0
  · rw [if_pos hstrength]
    refine ⟨0, _, rfl, applied_of_idle hstrength (size_overlay (by omega)) ?_ ?_⟩
    · intro i hi
      exact Pixel.ofImage_overlay hi hsource htarget
    · intro j hj
      rw [getElem?_overlay (by omega), if_neg (by omega)]
  · rw [if_neg hstrength]
    exact ⟨_, _, rfl, (runFrom_composited htarget).applied hstrength⟩

end

/-- Sharpening in place and into a target leave the same front and the same count: every pixel of
the source is sharpened or kept with its alpha, and nothing behind the front is written. -/
theorem apply_agrees_applyFrom (m : Mask) {plane blurred : Array UInt16} {width height : UInt32}
    {e : Extent} {source target : Array UInt8} (he : Extent.of? width height = .ok e)
    (hsource : e.bytes ≤ source.size) (hplane : e.pixels ≤ plane.size)
    (hblurred : e.pixels ≤ blurred.size) (htarget : e.bytes ≤ target.size) :
    ∃ n image image',
      (m.apply plane blurred width height).run source = .ok n image ∧
      (m.applyFrom source plane blurred width height).run target = .ok n image' ∧
      image.size = source.size ∧ image'.size = target.size ∧
      (∀ j < e.bytes, image'[j]? = image[j]?) ∧
      (∀ j, e.bytes ≤ j → image[j]? = source[j]? ∧ image'[j]? = target[j]?) ∧
      (∀ i < e.pixels,
        (m.Acts plane blurred i → m.sharpen? (Pixel.ofImage source i) (plane.getD i 0)
          (blurred.getD i 0) = some (Pixel.ofImage image i)) ∧
        (¬ m.Acts plane blurred i → Pixel.ofImage image i = Pixel.ofImage source i) ∧
        (Pixel.ofImage image i).a = (Pixel.ofImage source i).a) ∧
      n = ((List.range e.pixels).countP fun i => m.Acts plane blurred i) ∧
      (m.strength = 0 → n = 0) ∧
      ((List.range e.pixels).countP fun i =>
        Pixel.ofImage image i ≠ Pixel.ofImage source i) ≤ n := by
  obtain ⟨n, image, hrun, happlied⟩ :=
    exists_apply_applied (m := m) he hsource hplane hblurred
  obtain ⟨n', image', hrun', happlied'⟩ :=
    exists_applyFrom_applied (m := m) he hsource hplane hblurred htarget
  obtain ⟨rfl, hfront⟩ := happlied'.agree happlied htarget hsource
  refine ⟨n', image, image', hrun, hrun', happlied.size_eq, happlied'.size_eq, hfront, ?_, ?_,
    happlied.count_eq, ?_, happlied.changed_le⟩
  · intro j hj
    exact ⟨happlied.rest_eq j hj, happlied'.rest_eq j hj⟩
  · intro i hi
    exact ⟨happlied.sharpened i hi, happlied.kept i hi, happlied.alpha_eq hi⟩
  · intro hstrength
    rw [happlied.count_eq]
    simp [Acts, hstrength]

theorem apply_agrees_applyFrom_album :
    let source : Array UInt8 := #[200, 90, 40, 7, 3, 255, 0, 9, 17, 17, 18, 255, 99]
    let plane : Array UInt16 := #[30840, 32767, 4497]
    let blurred : Array UInt16 := #[20000, 32900, 9000, 1]
    let m := ofPercent .hsl 150 2
    ∃ image image',
      (m.apply plane blurred 3 1).run source = .ok 2 image ∧
      (m.applyFrom source plane blurred 3 1).run (Array.replicate 14 1) = .ok 2 image' ∧
      image.size = 13 ∧ image'.size = 14 ∧
      (∀ j < 12, image'[j]? = image[j]?) ∧ image[12]? = some 99 ∧ image'[12]? = some 1 ∧
      Pixel.ofImage image 0 = ⟨253, 245, 241, 7⟩ ∧ Pixel.ofImage image 1 = ⟨3, 255, 0, 9⟩ ∧
      Pixel.ofImage image 2 = ⟨0, 0, 0, 255⟩ := by
  intro source plane blurred m
  let e : Extent := ⟨3, 1, by decide, by decide, by decide⟩
  have he : Extent.of? 3 1 = .ok e := rfl
  obtain ⟨n, image, image', hrun, hrun', hsize, hsize', hfront, hrest, hpixel, hcount, -, -⟩ :=
    apply_agrees_applyFrom m he (show e.bytes ≤ source.size by decide)
      (show e.pixels ≤ plane.size by decide) (show e.pixels ≤ blurred.size by decide)
      (show e.bytes ≤ (Array.replicate 14 1).size by decide)
  have htwo : n = 2 := hcount.trans (by decide +kernel)
  have hfirst := (hpixel 0 (by decide)).1 (by decide +kernel)
  have hsecond := (hpixel 1 (by decide)).2.1 (by decide +kernel)
  have hthird := (hpixel 2 (by decide)).1 (by decide +kernel)
  have hsharp : m.sharpen? (Pixel.ofImage source 0) 30840 20000 = some ⟨253, 245, 241, 7⟩ := by
    decide +kernel
  have hdark : m.sharpen? (Pixel.ofImage source 2) 4497 9000 = some ⟨0, 0, 0, 255⟩ := by
    decide +kernel
  rw [htwo] at hrun hrun'
  exact ⟨image, image', hrun, hrun', hsize, hsize', hfront, (hrest 12 (by decide)).1,
    (hrest 12 (by decide)).2, Option.some.inj (hfirst.symm.trans hsharp), hsecond,
    Option.some.inj (hthird.symm.trans hdark)⟩

end Unsharp.Mask
end FixedRaster
