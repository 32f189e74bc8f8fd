import Mathlib
import FixedRaster.Proofs.Gaussian.Reuse
import FixedRaster.Proofs.Serving
import FixedRaster.Proofs.Unsharp.Compositing
import FixedRaster.Unsharp.Session

/-!
# A session sharpens as its stages do

A sharpening fills the brightness plane, blurs it and applies the mask. Each stage writes the whole
front of its plane before the next one reads it. So a session, whose planes still hold earlier
images, answers as the three stages do on zeroed planes of their own.
-/

namespace FixedRaster

def Edit.onOwn {σ τ α : Type} (start : τ) (edit : Edit τ α) : Edit σ τ := fun s =>
  match edit.run start with
  | .ok _ t => .ok t s
  | .error f _ => .error f s

theorem Edit.run_onOwn_bind {σ τ α β : Type} {start t : τ} {edit : Edit τ α} {a : α}
    (h : edit.run start = .ok a t) (k : τ → Edit σ β) (s : σ) :
    (onOwn start edit >>= k).run s = (k t).run s := by
  apply run_bind_of_ok
  change onOwn start edit s = .ok t s
  rw [onOwn, h]

namespace Unsharp
open Gaussian (Scratch Coefficients)

/-- The stages of a sharpening on zeroed planes that hold just the image. -/
def staged (width height : UInt32) (settings : Settings) : Edit (Array UInt8) Nat := do
  let e ← Extent.of? width height
  e.coversImage "sharpen image" (← get).size
  if settings.isIdle then
    return 0
  let zeros := Array.replicate e.pixels 0
  let plane ← Edit.onOwn zeros (Brightness.fill settings.model (← get) width height)
  let (blurred, _) ← Edit.onOwn (zeros, Scratch.zeroed width height)
    (Gaussian.blur plane width height settings.radius)
  settings.mask.apply plane blurred width height

theorem run_staged_of_idle {image : Array UInt8} {e : Extent} {width height : UInt32}
    {settings : Settings} (he : Extent.of? width height = .ok e) (himage : e.bytes ≤ image.size)
    (hidle : settings.isIdle = true) :
    (staged width height settings).run image = .ok 0 image := by
  have hcovers : e.coversImage "sharpen image" image.size = .ok () :=
    requireLength_eq_ok_iff.2 himage
  rw [staged, Edit.run_check_bind_of_ok he, Edit.run_get_bind, Edit.run_check_bind_of_ok hcovers,
    if_pos hidle]
  rfl

theorem run_staged_of_blur {image : Array UInt8} {e : Extent} {width height : UInt32}
    {settings : Settings} {c? : Option Coefficients} {blurred : Array UInt16} {scratch : Scratch}
    (he : Extent.of? width height = .ok e) (himage : e.bytes ≤ image.size)
    (hidle : settings.isIdle = false)
    (hblur : (Gaussian.blur (Brightness.samples settings.model image e.pixels) width height
      settings.radius).run (Array.replicate e.pixels 0, .zeroed width height) =
        .ok c? (blurred, scratch)) :
    (staged width height settings).run image =
      (settings.mask.apply (Brightness.samples settings.model image e.pixels) blurred width
        height).run image := by
  have hcovers : e.coversImage "sharpen image" image.size = .ok () :=
    requireLength_eq_ok_iff.2 himage
  have hfill : (Brightness.fill settings.model image width height).run
      (Array.replicate e.pixels 0) = .ok () (Brightness.samples settings.model image e.pixels) :=
    Brightness.run_fill he himage Array.size_replicate
  rw [staged, Edit.run_check_bind_of_ok he, Edit.run_get_bind, Edit.run_check_bind_of_ok hcovers,
    if_neg (Bool.eq_false_iff.1 hidle), Edit.run_get_bind, Edit.run_onOwn_bind hfill,
    Edit.run_onOwn_bind hblur]

theorem exists_coefficients_of_not_idle {settings : Settings} (h : settings.isIdle = false) :
    ∃ c, Coefficients.ofBlurRadius? settings.radius = some c := by
  cases hradius : Coefficients.ofBlurRadius? settings.radius with
  | some c => exact ⟨c, rfl⟩
  | none =>
    rw [Coefficients.ofBlurRadius?_eq_none_iff] at hradius
    simp [Settings.isIdle, hradius] at h

theorem exists_run_staged {e : Extent} {width height : UInt32} {settings : Settings}
    (he : Extent.of? width height = .ok e) (hidle : settings.isIdle = false)
    {plane : Array UInt16} (hplane : plane.size = e.pixels) :
    ∃ c blurred scratch, Coefficients.ofBlurRadius? settings.radius = some c ∧
      blurred.size = e.pixels ∧
      (Gaussian.blur plane width height settings.radius).run
        (Array.replicate e.pixels 0, .zeroed width height) = .ok (some c) (blurred, scratch) ∧
      ∀ image : Array UInt8, e.bytes ≤ image.size →
        Brightness.samples settings.model image e.pixels = plane →
        (staged width height settings).run image =
          (settings.mask.apply plane blurred width height).run image := by
  obtain ⟨c, hradius⟩ := exists_coefficients_of_not_idle hidle
  have hzeros : (Array.replicate e.pixels (0 : UInt16)).size = e.pixels := Array.size_replicate
  have hholds := Scratch.zeroed_holds he
  obtain ⟨⟨blurred, scratch⟩, hrun, hblurred⟩ : ∃ after,
      (Gaussian.blur plane width height settings.radius).run
        (Array.replicate e.pixels 0, .zeroed width height) = .ok (some c) after ∧
      Gaussian.Blurred c e plane (Array.replicate e.pixels 0, .zeroed width height) after :=
    Gaussian.exists_run_blur he hradius hplane.ge hzeros.ge hholds.1 hholds.2
  refine ⟨c, blurred, scratch, hradius, hblurred.sizes.1.trans hzeros, hrun, ?_⟩
  rintro image himage rfl
  exact run_staged_of_blur he himage hidle hrun

def Session.Balanced (s : Session) : Prop := s.plane.size = s.blurred.size

theorem Session.Balanced.fit {s : Session} (h : s.Balanced) (e : Extent) :
    (s.fit e).Balanced ∧ e.pixels ≤ (s.fit e).plane.size := by
  rw [Session.fit]
  split_ifs with hshort
  · simp only [Balanced, size_resized]
    exact ⟨trivial, le_rfl⟩
  · exact ⟨h, by omega⟩

namespace Session
variable {image : Array UInt8} {s : Session} {e : Extent} {width height : UInt32}
  {settings : Settings}

theorem run_onPlane_fill (model : ColorModel) (he : Extent.of? width height = .ok e)
    (himage : e.bytes ≤ image.size) (hplane : e.pixels ≤ s.plane.size) :
    (onPlane e.pixels (Brightness.fill model image width height)).run (image, s) =
      .ok () (image, { s with
        plane := overlay (Brightness.samples model image e.pixels) s.plane }) :=
  Edit.run_within_ok (Brightness.run_fill he himage (size_front hplane))

theorem exists_run_onBlurred (image : Array UInt8) {plane : Array UInt16} {radius : Float32}
    {c : Coefficients} (he : Extent.of? width height = .ok e)
    (hradius : Coefficients.ofBlurRadius? radius = some c) (hplane : e.pixels ≤ plane.size)
    (hblurred : e.pixels ≤ s.blurred.size) :
    ∃ blurred scratch scratch', blurred.size = e.pixels ∧
      (onBlurred e.pixels (Scratch.blur plane width height radius)).run (image, s) =
        .ok (some c) (image, { s with
          blurred := overlay blurred s.blurred
          scratch := scratch }) ∧
      (Gaussian.blur plane width height radius).run
        (Array.replicate e.pixels 0, .zeroed width height) = .ok (some c) (blurred, scratch') := by
  have hruns : ∀ {out : Array UInt16} {scratch : Scratch}, out.size = e.pixels →
      scratch.Holds e → ∃ after, (Gaussian.blur plane width height radius).run (out, scratch) =
        .ok (some c) after ∧ Gaussian.Blurred c e plane (out, scratch) after :=
    fun hout hholds => Gaussian.exists_run_blur he hradius hplane hout.ge hholds.1 hholds.2
  have hfront : (s.blurred.extract 0 e.pixels).size = e.pixels := size_front hblurred
  have hzeros : (Array.replicate e.pixels (0 : UInt16)).size = e.pixels := Array.size_replicate
  obtain ⟨kept, hkept, hprepared⟩ :=
    Scratch.exists_prepared width height (s.blurred.extract 0 e.pixels) s.scratch
  obtain ⟨⟨blurred, scratch⟩, hrun, hafter⟩ := hruns hfront (hkept e he)
  obtain ⟨⟨blurred', scratch'⟩, hrun', hafter'⟩ := hruns hzeros (Scratch.zeroed_holds he)
  have hsize : blurred.size = e.pixels := hafter.sizes.1.trans hfront
  obtain rfl : blurred = blurred' :=
    eq_of_front hsize (hafter'.sizes.1.trans hzeros) (hafter.front hafter').1
  have hkeptrun : (Scratch.blur plane width height radius).run
      (s.blurred.extract 0 e.pixels, s.scratch) = .ok (some c) (blurred, scratch) :=
    (hprepared _).trans hrun
  exact ⟨blurred, scratch, scratch', hsize, Edit.run_within_ok_iff.2 ⟨_, hkeptrun, rfl⟩, hrun'⟩

theorem exists_run_sharpen (hs : s.Balanced) (he : Extent.of? width height = .ok e)
    (himage : e.bytes ≤ image.size) (hidle : settings.isIdle = false) :
    ∃ n after s', (sharpen width height settings).run (image, s) = .ok n (after, s') ∧
      s'.Balanced ∧ (staged width height settings).run image = .ok n after := by
  have hcovers : e.coversImage "sharpen image" image.size = .ok () :=
    requireLength_eq_ok_iff.2 himage
  have hsamples := Brightness.size_samples settings.model image e.pixels
  -- the planes may be longer than the image, but each stage works on the front of its own
  obtain ⟨hfit, hroom⟩ := hs.fit e
  have hroom' : e.pixels ≤ (s.fit e).blurred.size := hfit ▸ hroom
  obtain ⟨c, hradius⟩ := exists_coefficients_of_not_idle hidle
  have hfill := run_onPlane_fill settings.model he himage hroom
  obtain ⟨blurred, scratch, scratch', hsize, hblur, hblur'⟩ :=
    exists_run_onBlurred image (s := { s.fit e with
      plane := overlay (Brightness.samples settings.model image e.pixels) (s.fit e).plane })
      he hradius hsamples.ge hroom'
  obtain ⟨n, after, happly⟩ :=
    Mask.exists_run_apply (m := settings.mask) he himage hsamples.ge hsize.ge
  refine ⟨n, after, ⟨overlay (Brightness.samples settings.model image e.pixels) (s.fit e).plane,
    overlay blurred (s.fit e).blurred, scratch⟩, ?_, ?_, ?_⟩
  · rw [sharpen, Edit.run_check_bind_of_ok he, Edit.run_get_bind, Edit.run_check_bind_of_ok hcovers,
      if_neg (Bool.eq_false_iff.1 hidle), Edit.run_modify_bind, Edit.run_get_bind,
      Edit.run_bind_of_ok hfill, Edit.run_get_bind, extract_overlay hsamples hroom,
      Edit.run_bind_of_ok hblur, Edit.run_get_bind, extract_overlay hsize hroom']
    exact Edit.run_within_ok happly
  · rw [Balanced, size_overlay (hsamples.le.trans hroom), size_overlay (hsize.le.trans hroom')]
    exact hfit
  · rw [run_staged_of_blur he himage hidle hblur']
    exact happly

theorem seen_sharpen_eq_staged (hs : s.Balanced) :
    Edit.seen Prod.fst ((sharpen width height settings).run (image, s)) =
        (staged width height settings).run image ∧
      (Edit.left ((sharpen width height settings).run (image, s))).2.Balanced := by
  cases he : Extent.of? width height with
  | error f =>
    rw [sharpen, staged, Edit.run_check_bind, Edit.run_check_bind, he]
    exact ⟨rfl, hs⟩
  | ok e =>
    cases hcovers : e.coversImage "sharpen image" image.size with
    | error f =>
      rw [sharpen, staged, Edit.run_check_bind_of_ok he, Edit.run_check_bind_of_ok he,
        Edit.run_get_bind, Edit.run_get_bind, Edit.run_check_bind, Edit.run_check_bind, hcovers]
      exact ⟨rfl, hs⟩
    | ok _ =>
      have himage : e.bytes ≤ image.size := requireLength_eq_ok_iff.1 hcovers
      cases hidle : settings.isIdle with
      | true =>
        rw [run_staged_of_idle he himage hidle, sharpen, Edit.run_check_bind_of_ok he,
          Edit.run_get_bind, Edit.run_check_bind_of_ok hcovers, if_pos hidle]
        exact ⟨rfl, hs⟩
      | false =>
        obtain ⟨n, after, s', hrun, hs', hstaged⟩ := exists_run_sharpen hs he himage hidle
        rw [hrun, hstaged]
        exact ⟨rfl, hs'⟩

/-- What becomes of the empty session by sharpening images, refused calls included. -/
inductive Reachable : Session → Prop
  | empty : Reachable .empty
  | sharpen {s : Session} (image : Array UInt8) (width height : UInt32) (settings : Settings)
      (h : Reachable s) :
      Reachable (Edit.left ((sharpen width height settings).run (image, s))).2

theorem Reachable.balanced {s : Session} (h : s.Reachable) : s.Balanced := by
  induction h with
  | empty => rfl
  | sharpen image width height settings _ ih => exact (seen_sharpen_eq_staged ih).2

def warm : Session := (Edit.left ((sharpen 3 1 {}).run (Array.replicate 12 90, empty))).2

theorem warm_reachable : warm.Reachable := .sharpen _ _ _ _ .empty

structure Request where
  image : Array UInt8
  width : UInt32
  height : UInt32
  settings : Settings

namespace Request

def call (r : Request) : Edit (Array UInt8 × Session) Nat :=
  sharpen r.width r.height r.settings

def onFresh (r : Request) : EStateM.Result Fault (Array UInt8) Nat :=
  (staged r.width r.height r.settings).run r.image

end Request

end Session

theorem staged_atomic (width height : UInt32) (settings : Settings) (image : Array UInt8) :
    Edit.Atomic (staged width height settings) image
      (∃ e, Extent.of? width height = .ok e ∧ e.bytes ≤ image.size) := by
  apply Edit.atomic_of_cases
  · rw [staged]
    refine Edit.refused_or_check (fun f => Extent.ne_outOfRange) fun e he => ?_
    refine Edit.refused_or_get ?_
    refine Edit.refused_or_check (fun f => requireLength_ne_outOfRange) fun _ hcovers => ?_
    exact .inr ⟨e, he, requireLength_eq_ok_iff.1 hcovers⟩
  · rintro ⟨e, he, himage⟩
    cases hidle : settings.isIdle with
    | true => exact ⟨0, image, run_staged_of_idle he himage hidle⟩
    | false =>
      have hempty : Session.empty.Balanced := rfl
      obtain ⟨n, after, -, -, -, hstaged⟩ := Session.exists_run_sharpen hempty he himage hidle
      exact ⟨n, after, hstaged⟩

/-- A session answers every request of a run as the stages do on planes of their own, and its planes
are of one length throughout. -/
theorem serve_session_eq_staged (requests : List Session.Request) :
    (Edit.serve Session.Request.call Session.Request.image requests .empty).1 =
        requests.map Session.Request.onFresh ∧
      (Edit.serve Session.Request.call Session.Request.image requests .empty).2.Balanced ∧
      ∀ r ∈ requests, Edit.Atomic (staged r.width r.height r.settings) r.image
        (∃ e, Extent.of? r.width r.height = .ok e ∧ e.bytes ≤ r.image.size) := by
  have hempty : Session.empty.Balanced := rfl
  have hstep : ∀ r ∈ requests, ∀ s : Session, s.Balanced →
      Edit.seen Prod.fst (r.call.run (r.image, s)) = r.onFresh ∧
        (Edit.left (r.call.run (r.image, s))).2.Balanced :=
    fun r _ s hs => Session.seen_sharpen_eq_staged hs
  obtain ⟨hanswers, hbalanced⟩ := Edit.serve_eq_map hstep hempty
  exact ⟨hanswers, hbalanced, fun r _ => staged_atomic r.width r.height r.settings r.image⟩

end Unsharp
end FixedRaster
