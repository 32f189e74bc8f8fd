import Mathlib
import FixedRaster.Proofs.Gaussian.Reuse
import FixedRaster.Proofs.Resize.Reuse
import FixedRaster.Proofs.Unsharp.Staging

/-!
# Calls on arrays fail before they write

Each call succeeds exactly where its extents are valid, its kernels are well formed and its buffers
are long enough. A call that fails leaves the buffers of its caller as they were; scratch that is
kept between calls may have grown by then. A sharpening checks its image first, and none of its
stages fails behind that check.
-/

namespace FixedRaster

theorem Brightness.fill_atomic (model : ColorModel) (image : Array UInt8) (width height : UInt32)
    (plane : Array UInt16) :
    Edit.Atomic (fill model image width height) plane
      (∃ e, Extent.of? width height = .ok e ∧ e.bytes ≤ image.size ∧ e.pixels ≤ plane.size) := by
  apply Edit.atomic_of_cases
  · rw [fill]
    refine Edit.refused_or_check (fun _ => Extent.ne_outOfRange) fun e he => ?_
    refine Edit.refused_or_check (fun _ => requireLength_ne_outOfRange) fun _ himage => ?_
    refine Edit.refused_or_get ?_
    refine Edit.refused_or_check (fun _ => requireLength_ne_outOfRange) fun _ hplane => ?_
    exact .inr ⟨e, he, requireLength_eq_ok_iff.1 himage, requireLength_eq_ok_iff.1 hplane⟩
  · rintro ⟨e, he, himage, hplane⟩
    exact ⟨(), _, run_fill_overlay he himage hplane⟩

namespace Gaussian
variable (plane : Array UInt16) (width height : UInt32) (radius : Float32)

theorem blur_atomic (buffers : Array UInt16 × Scratch) :
    Edit.Atomic (blur plane width height radius) buffers
      (∃ e, Extent.of? width height = .ok e ∧ e.pixels ≤ plane.size ∧
        e.pixels ≤ buffers.1.size ∧ buffers.2.Holds e) := by
  apply Edit.atomic_of_cases
  · rcases run_blur_cases plane width height radius buffers with hrefused | ⟨e, he, h⟩
    · exact .inl hrefused
    · exact .inr ⟨e, he, h.1, h.2.1, h.2.2.1⟩
  · rintro ⟨e, he, hplane, hout, hholds⟩
    have hrun := run_blur_of_covers radius he (covers_eq_ok_iff.2 ⟨hplane, hout, hholds⟩)
    split at hrun
    · exact ⟨none, buffers, hrun⟩
    · obtain ⟨after, hrun, -⟩ := hrun
      exact ⟨_, after, hrun⟩

theorem blurInPlace_atomic (buffers : Array UInt16 × Scratch) :
    Edit.Atomic (blurInPlace width height radius) buffers
      (∃ e, Extent.of? width height = .ok e ∧ e.pixels ≤ buffers.1.size ∧ buffers.2.Holds e) := by
  have hatomic := blur_atomic buffers.1 width height radius buffers
  simp only [and_self_left] at hatomic
  exact hatomic.of_run_eq (Scratch.run_blurInPlace buffers.1 width height radius buffers.2)

namespace Scratch

/-- Scratch that grows has room for every extent, so its size refuses no blur. -/
theorem blur_atomic (out : Array UInt16) (s : Scratch) :
    Edit.AtomicOn Prod.fst (blur plane width height radius) (out, s)
      (∃ e, Extent.of? width height = .ok e ∧ e.pixels ≤ plane.size ∧ e.pixels ≤ out.size) := by
  obtain ⟨s', hs', hrun⟩ := exists_prepared width height out s
  apply ((Gaussian.blur_atomic plane width height radius (out, s')).on Prod.fst).congr
  · exact congrArg (Edit.seen Prod.fst) (hrun _)
  · rfl
  · constructor
    · rintro ⟨e, he, hplane, hout, -⟩
      exact ⟨e, he, hplane, hout⟩
    · rintro ⟨e, he, hplane, hout⟩
      exact ⟨e, he, hplane, hout, hs' e he⟩

theorem blurInPlace_atomic (out : Array UInt16) (s : Scratch) :
    Edit.AtomicOn Prod.fst (blurInPlace width height radius) (out, s)
      (∃ e, Extent.of? width height = .ok e ∧ e.pixels ≤ out.size) := by
  have hatomic := blur_atomic out width height radius out s
  simp only [and_self] at hatomic
  refine hatomic.congr ?_ rfl Iff.rfl
  obtain ⟨s', -, hrun⟩ := exists_prepared width height out s
  have hprepared : (blurInPlace width height radius).run (out, s) =
      (Gaussian.blurInPlace width height radius).run (out, s') := hrun _
  have hprepared' : (blur out width height radius).run (out, s) =
      (Gaussian.blur out width height radius).run (out, s') := hrun _
  rw [hprepared, hprepared', run_blurInPlace]

end Scratch
end Gaussian

namespace Unsharp.Mask
variable (m : Mask) (plane blurred : Array UInt16) (width height : UInt32)

theorem apply_atomic (image : Array UInt8) :
    Edit.Atomic (m.apply plane blurred width height) image
      (∃ e, Extent.of? width height = .ok e ∧ e.bytes ≤ image.size ∧ e.pixels ≤ plane.size ∧
        e.pixels ≤ blurred.size) := by
  apply Edit.atomic_of_cases
  · rw [apply]
    refine Edit.refused_or_check (fun _ => Extent.ne_outOfRange) fun e he => ?_
    refine Edit.refused_or_get ?_
    refine Edit.refused_or_check (fun _ => covers_ne_outOfRange) fun _ hcovers => ?_
    exact .inr ⟨e, he, covers_eq_ok_iff.1 hcovers⟩
  · rintro ⟨e, he, himage, hplane, hblurred⟩
    exact exists_run_apply he himage hplane hblurred

theorem applyFrom_atomic (source target : Array UInt8) :
    Edit.Atomic (m.applyFrom source plane blurred width height) target
      (∃ e, Extent.of? width height = .ok e ∧ e.bytes ≤ source.size ∧ e.pixels ≤ plane.size ∧
        e.pixels ≤ blurred.size ∧ e.bytes ≤ target.size) := by
  apply Edit.atomic_of_cases
  · rw [applyFrom]
    refine Edit.refused_or_check (fun _ => Extent.ne_outOfRange) fun e he => ?_
    refine Edit.refused_or_check (fun _ => covers_ne_outOfRange) fun _ hcovers => ?_
    refine Edit.refused_or_get ?_
    refine Edit.refused_or_check (fun _ => requireLength_ne_outOfRange) fun _ htarget => ?_
    obtain ⟨himage, hplane, hblurred⟩ := covers_eq_ok_iff.1 hcovers
    exact .inr ⟨e, he, himage, hplane, hblurred, requireLength_eq_ok_iff.1 htarget⟩
  · rintro ⟨e, he, himage, hplane, hblurred, htarget⟩
    rw [run_applyFrom he himage hplane hblurred htarget]
    split_ifs
    · exact ⟨_, _, rfl⟩
    · exact ⟨_, _, rfl⟩

end Unsharp.Mask

namespace Resize
variable (image : Array UInt8) (horizontal vertical : List Int16)
  (sourceWidth : UInt32) {sourceHeight targetWidth : UInt32} (targetHeight : UInt32)

theorem resample_atomic (hroom : 4 * sourceHeight.toNat * targetWidth.toNat < 2 ^ 64)
    (withAlpha : Bool) (canvas : Canvas) :
    Edit.Atomic (resample image horizontal vertical sourceWidth sourceHeight targetWidth
        targetHeight withAlpha) canvas
      (∃ source target across down, Admits image horizontal vertical sourceWidth sourceHeight
        targetWidth targetHeight canvas source target across down) := by
  apply Edit.atomic_of_cases (resample_refused_or_admits _ _ _ _ _ hroom ..)
  rintro ⟨source, target, across, down, hadmits⟩
  obtain ⟨final, -, -, hrun, -⟩ := resample_of_admits hadmits withAlpha
  exact ⟨(), final, hrun⟩

theorem resampleGrowing_atomic (hroom : 4 * sourceHeight.toNat * targetWidth.toNat < 2 ^ 64)
    (withAlpha : Bool) (canvas : Canvas) :
    Edit.AtomicOn Canvas.target (resampleGrowing image horizontal vertical sourceWidth
        sourceHeight targetWidth targetHeight withAlpha) canvas
      (∃ source target across down, Admits image horizontal vertical sourceWidth sourceHeight
        targetWidth targetHeight
        { canvas with
          middle := grown canvas.middle (4 * sourceHeight.toNat * targetWidth.toNat) 0 }
        source target across down) := by
  have hatomic := resample_atomic image horizontal vertical sourceWidth targetHeight hroom withAlpha
    { canvas with middle := grown canvas.middle (4 * sourceHeight.toNat * targetWidth.toNat) 0 }
  refine (hatomic.on Canvas.target).congr ?_ rfl Iff.rfl
  rw [run_resampleGrowing hroom]

end Resize

namespace Unsharp.Session
variable {s : Session} {image : Array UInt8} {width height : UInt32} {settings : Settings}

theorem sharpen_atomic (hs : s.Reachable) (image : Array UInt8) (width height : UInt32)
    (settings : Settings) :
    Edit.AtomicOn Prod.fst (sharpen width height settings) (image, s)
      (∃ e, Extent.of? width height = .ok e ∧ e.bytes ≤ image.size) := by
  apply ((staged_atomic width height settings image).on id).congr
  · rw [Edit.seen_id]
    exact (seen_sharpen_eq_staged hs.balanced).1
  · rfl
  · exact Iff.rfl

theorem sharpen_error_cases (hs : s.Reachable) {f : Fault} {t : Array UInt8 × Session}
    (hrun : (sharpen width height settings).run (image, s) = .error f t) :
    Extent.of? width height = .error f ∨
      ∃ e, Extent.of? width height = .ok e ∧
        e.coversImage "sharpen image" image.size = .error f := by
  cases he : Extent.of? width height with
  | error f' =>
    rw [sharpen, Edit.run_check_bind, he] at hrun
    cases hrun
    exact .inl rfl
  | ok e =>
    cases hcovers : e.coversImage "sharpen image" image.size with
    | error f' =>
      rw [sharpen, Edit.run_check_bind_of_ok he, Edit.run_get_bind, Edit.run_check_bind,
        hcovers] at hrun
      cases hrun
      exact .inr ⟨e, rfl, hcovers⟩
    | ok _ =>
      obtain ⟨n, u, hok⟩ := (sharpen_atomic hs image width height settings).ok_iff.2
        ⟨e, he, requireLength_eq_ok_iff.1 hcovers⟩
      rw [hok] at hrun
      cases hrun

theorem sharpen_error_iff (hs : s.Reachable) :
    (∃ f t, (sharpen width height settings).run (image, s) = .error f t) ↔
      width = 0 ∨ height = 0 ∨ 2 ^ 64 ≤ 4 * width.toNat * height.toNat ∨
        image.size < 4 * width.toNat * height.toNat := by
  rw [(sharpen_atomic hs image width height settings).exists_error_iff, Extent.exists_of?_le_iff]
  simp only [not_and_or, not_ne_iff, not_lt, not_le]

end Unsharp.Session

theorem array_calls_atomic :
    (∀ (model : ColorModel) (image : Array UInt8) (width height : UInt32) (plane : Array UInt16),
      Edit.Atomic (Brightness.fill model image width height) plane
        (∃ e, Extent.of? width height = .ok e ∧ e.bytes ≤ image.size ∧ e.pixels ≤ plane.size)) ∧
    (∀ (plane : Array UInt16) (width height : UInt32) (radius : Float32)
      (buffers : Array UInt16 × Gaussian.Scratch),
      Edit.Atomic (Gaussian.blur plane width height radius) buffers
        (∃ e, Extent.of? width height = .ok e ∧ e.pixels ≤ plane.size ∧
          e.pixels ≤ buffers.1.size ∧ buffers.2.Holds e) ∧
      Edit.Atomic (Gaussian.blurInPlace width height radius) buffers
        (∃ e, Extent.of? width height = .ok e ∧ e.pixels ≤ buffers.1.size ∧ buffers.2.Holds e) ∧
      Edit.AtomicOn Prod.fst (Gaussian.Scratch.blur plane width height radius) buffers
        (∃ e, Extent.of? width height = .ok e ∧ e.pixels ≤ plane.size ∧
          e.pixels ≤ buffers.1.size) ∧
      Edit.AtomicOn Prod.fst (Gaussian.Scratch.blurInPlace width height radius) buffers
        (∃ e, Extent.of? width height = .ok e ∧ e.pixels ≤ buffers.1.size)) ∧
    (∀ (m : Unsharp.Mask) (plane blurred : Array UInt16) (width height : UInt32)
      (source target : Array UInt8),
      Edit.Atomic (m.apply plane blurred width height) target
        (∃ e, Extent.of? width height = .ok e ∧ e.bytes ≤ target.size ∧ e.pixels ≤ plane.size ∧
          e.pixels ≤ blurred.size) ∧
      Edit.Atomic (m.applyFrom source plane blurred width height) target
        (∃ e, Extent.of? width height = .ok e ∧ e.bytes ≤ source.size ∧ e.pixels ≤ plane.size ∧
          e.pixels ≤ blurred.size ∧ e.bytes ≤ target.size)) ∧
    (∀ (image : Array UInt8) (horizontal vertical : List Int16)
      (sourceWidth sourceHeight targetWidth targetHeight : UInt32) (withAlpha : Bool)
      (canvas : Resize.Canvas), 4 * sourceHeight.toNat * targetWidth.toNat < 2 ^ 64 →
      Edit.Atomic (Resize.resample image horizontal vertical sourceWidth sourceHeight targetWidth
          targetHeight withAlpha) canvas
        (∃ source target across down, Resize.Admits image horizontal vertical sourceWidth
          sourceHeight targetWidth targetHeight canvas source target across down) ∧
      Edit.AtomicOn Resize.Canvas.target (Resize.resampleGrowing image horizontal vertical
          sourceWidth sourceHeight targetWidth targetHeight withAlpha) canvas
        (∃ source target across down, Resize.Admits image horizontal vertical sourceWidth
          sourceHeight targetWidth targetHeight
          { canvas with
            middle := grown canvas.middle (4 * sourceHeight.toNat * targetWidth.toNat) 0 }
          source target across down)) ∧
    ∀ (s : Unsharp.Session), s.Reachable → ∀ (image : Array UInt8) (width height : UInt32)
      (settings : Unsharp.Settings),
      Edit.AtomicOn Prod.fst (Unsharp.Session.sharpen width height settings) (image, s)
        (∃ e, Extent.of? width height = .ok e ∧ e.bytes ≤ image.size) ∧
      ((∃ f t, (Unsharp.Session.sharpen width height settings).run (image, s) = .error f t) ↔
        width = 0 ∨ height = 0 ∨ 2 ^ 64 ≤ 4 * width.toNat * height.toNat ∨
          image.size < 4 * width.toNat * height.toNat) ∧
      ∀ f t, (Unsharp.Session.sharpen width height settings).run (image, s) = .error f t →
        Extent.of? width height = .error f ∨ ∃ e, Extent.of? width height = .ok e ∧
          e.coversImage "sharpen image" image.size = .error f := by
  refine ⟨Brightness.fill_atomic, ?_, ?_, ?_, ?_⟩
  · intro plane width height radius buffers
    exact ⟨Gaussian.blur_atomic plane width height radius buffers,
      Gaussian.blurInPlace_atomic width height radius buffers,
      Gaussian.Scratch.blur_atomic plane width height radius buffers.1 buffers.2,
      Gaussian.Scratch.blurInPlace_atomic width height radius buffers.1 buffers.2⟩
  · intro m plane blurred width height source target
    exact ⟨m.apply_atomic plane blurred width height target,
      m.applyFrom_atomic plane blurred width height source target⟩
  · intro image horizontal vertical sourceWidth sourceHeight targetWidth targetHeight withAlpha
      canvas hroom
    exact ⟨Resize.resample_atomic image horizontal vertical sourceWidth targetHeight hroom withAlpha
        canvas,
      Resize.resampleGrowing_atomic image horizontal vertical sourceWidth targetHeight hroom
        withAlpha canvas⟩
  · intro s hs image width height settings
    exact ⟨Unsharp.Session.sharpen_atomic hs image width height settings,
      Unsharp.Session.sharpen_error_iff hs,
      fun f t hrun => Unsharp.Session.sharpen_error_cases hs hrun⟩

theorem array_calls_atomic_short :
    4 * (1 : UInt32).toNat * (1 : UInt32).toNat < 2 ^ 64 ∧ Unsharp.Session.warm.Reachable ∧
    (∃ f, (Resize.resample #[10, 20, 30] [0, 1, 16384] [0, 1, 16384] 1 1 1 1 true).run
      ⟨#[1, 1, 1, 1, 5], #[7, 7, 7, 7]⟩ = .error f ⟨#[1, 1, 1, 1, 5], #[7, 7, 7, 7]⟩) ∧
    ∃ f t, (Unsharp.Session.sharpen 2 2 {}).run (Array.replicate 15 40, .warm) = .error f t ∧
      t.1 = Array.replicate 15 40 := by
  have hroom : 4 * (1 : UInt32).toNat * (1 : UInt32).toNat < 2 ^ 64 := by decide
  obtain ⟨-, -, -, hresize, hsharpen⟩ := array_calls_atomic
  obtain ⟨hresample, -⟩ := hresize #[10, 20, 30] [0, 1, 16384] [0, 1, 16384] 1 1 1 1 true
    ⟨#[1, 1, 1, 1, 5], #[7, 7, 7, 7]⟩ hroom
  obtain ⟨hkept, herror, -⟩ :=
    hsharpen .warm Unsharp.Session.warm_reachable (Array.replicate 15 40) 2 2 {}
  refine ⟨hroom, Unsharp.Session.warm_reachable, ?_, ?_⟩
  · have hshort : ¬ ∃ source target across down, Resize.Admits #[10, 20, 30] [0, 1, 16384]
        [0, 1, 16384] 1 1 1 1 ⟨#[1, 1, 1, 1, 5], #[7, 7, 7, 7]⟩ source target across down := by
      rintro ⟨source, target, across, down, h⟩
      have hlong := Extent.exists_of?_le_iff.1 ⟨source, h.source_eq, h.image_le⟩
      exact absurd hlong (by decide)
    obtain ⟨f, t, hrun⟩ := (hresample.on id).exists_error_iff.2 hshort
    obtain ⟨rfl, -⟩ := hresample.error_kept f t hrun
    exact ⟨f, hrun⟩
  · obtain ⟨f, t, hrun⟩ := herror.2 (by decide)
    exact ⟨f, t, hrun, (hkept.error_kept f t hrun).1⟩

end FixedRaster
