import Mathlib
import FixedRaster.Proofs.Memory.Admission
import FixedRaster.Proofs.Unsharp.Staging

/-!
# Sharpening on a store, call by call

A host writes an image into the store and asks for its brightness plane, the blur of that plane and
the mask. Where the six regions of these calls are granted and share no byte, the image in the
store ends as a session leaves it. The samples that one call encodes are those that the next
one decodes, since no call writes a region that a later one reads.
-/

namespace FixedRaster.Memory
open Element Gaussian
open Unsharp (Session Settings)

structure Places where
  image : ℕ
  plane : ℕ
  blurred : ℕ
  scratch : ℕ
  line : ℕ
  coefficients : ℕ

def Store.pipeline (p : Places) (data : Array UInt8) (width height : UInt32)
    (settings : Settings) : Edit Store ℕ := do
  write p.image data
  extract settings.model p.image p.plane width height
  blur p.plane p.blurred p.scratch p.line p.coefficients width height settings.radius
  sharpen settings.model p.image p.image p.plane p.blurred width height settings.percent
    settings.least

namespace Places
variable {p : Places} {s s' : Store} {length : ℕ} {e : Extent} {width height : UInt32}
  {c : Coefficients} {settings : Settings} {data : Array UInt8}

def regions (p : Places) (length : ℕ) (e : Extent) : List Region :=
  [⟨p.image, length⟩, ⟨p.plane, e.pixels * 2⟩, ⟨p.blurred, e.pixels * 2⟩,
    ⟨p.scratch, e.pixels * 2⟩, ⟨p.line, e.longSide * 4⟩, ⟨p.coefficients, 32⟩]

structure Fits (p : Places) (s : Store) (length : ℕ) (e : Extent) : Prop where
  image_holds : s.Holds 1 p.image length
  plane_holds : s.Holds 2 p.plane e.pixels
  blurred_holds : s.Holds 2 p.blurred e.pixels
  scratch_holds : s.Holds 2 p.scratch e.pixels
  line_holds : s.Holds 4 p.line e.longSide
  coefficients_holds : s.Holds 4 p.coefficients 8
  disjoint : (p.regions length e).Pairwise fun r q => ¬ r.Meets q

theorem Fits.of_frame {regions : List Region} (h : p.Fits s length e)
    (hframe : Frame regions s.bytes s'.bytes) : p.Fits s' length e where
  image_holds := h.image_holds.of_frame hframe
  plane_holds := h.plane_holds.of_frame hframe
  blurred_holds := h.blurred_holds.of_frame hframe
  scratch_holds := h.scratch_holds.of_frame hframe
  line_holds := h.line_holds.of_frame hframe
  coefficients_holds := h.coefficients_holds.of_frame hframe
  disjoint := h.disjoint

/-- Bytes behind the pixels of the image are no concern of the calls. -/
theorem Fits.cut (h : p.Fits s length e) {count : ℕ} (hcount : count ≤ length) :
    p.Fits s count e := by
  refine { h with image_holds := ?_, disjoint := ?_ }
  · obtain ⟨haligned, hlt, hle⟩ := h.image_holds
    exact ⟨haligned, by omega, by omega⟩
  · obtain ⟨himage, hrest⟩ := List.pairwise_cons.1 h.disjoint
    refine List.pairwise_cons.2 ⟨?_, hrest⟩
    intro r hr hmeets
    apply himage r hr
    simp only [Region.Meets, Region.stop] at hmeets ⊢
    omega

theorem Fits.image_le (h : p.Fits s length e) : p.image + length ≤ s.bytes.size := by
  have hle := h.image_holds.stop_le
  rw [Store.size] at hle
  omega

theorem Fits.extractLayout (h : p.Fits s length e) (he : Extent.of? width height = .ok e)
    (hlength : e.bytes ≤ length) : ExtractLayout s p.image p.plane width height e := by
  have hcut := h.cut hlength
  obtain ⟨himage, -⟩ := List.pairwise_cons.1 hcut.disjoint
  exact ⟨he, hcut.image_holds, hcut.plane_holds, mt Region.meets_comm.1 (himage _ (by simp))⟩

theorem Fits.blurLayout (h : p.Fits s length e) (he : Extent.of? width height = .ok e) :
    BlurLayout s p.plane p.blurred p.scratch p.line p.coefficients width height e := by
  have hdisjoint := h.disjoint
  simp only [regions, List.pairwise_cons, List.mem_cons, List.not_mem_nil, or_false,
    forall_eq_or_imp, forall_eq] at hdisjoint
  obtain ⟨-, ⟨-, hps, hpl, hpc⟩, ⟨hbs, hbl, hbc⟩, ⟨hsl, hsc⟩, hlc, -⟩ := hdisjoint
  refine ⟨he, h.plane_holds, h.blurred_holds, h.scratch_holds, h.line_holds,
    h.coefficients_holds, ?_⟩
  exact {
    scratch_line := hsl
    scratch_target := mt Region.meets_comm.1 hbs
    scratch_coefficients := hsc
    line_target := mt Region.meets_comm.1 hbl
    line_coefficients := hlc
    target_coefficients := hbc
    scratch_source := mt Region.meets_comm.1 hps
    line_source := mt Region.meets_comm.1 hpl
    coefficients_source := mt Region.meets_comm.1 hpc }

theorem Fits.sharpenLayout (h : p.Fits s length e) (he : Extent.of? width height = .ok e)
    (hlength : e.bytes ≤ length) :
    SharpenLayout s p.image p.image p.plane p.blurred width height e := by
  have hcut := h.cut hlength
  obtain ⟨himage, -⟩ := List.pairwise_cons.1 hcut.disjoint
  exact ⟨he, hcut.image_holds, hcut.image_holds, hcut.plane_holds, hcut.blurred_holds,
    himage _ (by simp), himage _ (by simp), fun hne => absurd rfl hne⟩

theorem Fits.write (h : p.Fits s data.size e) :
    ∃ s', (Store.write p.image data).run s = .ok () s' ∧
      Frame (p.regions data.size e) s.bytes s'.bytes ∧
      Region.of ⟨p.image, data.size⟩ s'.bytes = data := by
  obtain ⟨hframe, hof⟩ := frame_splice (r := ⟨p.image, data.size⟩) rfl h.image_le
  refine ⟨⟨splice s.bytes p.image data⟩, ?_, hframe.mono (by simp [regions]), hof⟩
  rw [Store.write]
  simp only [Edit.run_get_bind, Edit.run_check_bind, h.image_holds.region?_eq]
  rfl

theorem Fits.extract (h : p.Fits s data.size e) (he : Extent.of? width height = .ok e)
    (hdata : e.bytes ≤ data.size) (hof : Region.of ⟨p.image, data.size⟩ s.bytes = data)
    (model : ColorModel) :
    ∃ s', (Store.extract model p.image p.plane width height).run s = .ok () s' ∧
      Frame (p.regions data.size e) s.bytes s'.bytes ∧
      Region.of ⟨p.image, data.size⟩ s'.bytes = data ∧
      Region.of ⟨p.plane, e.pixels * 2⟩ s'.bytes =
        sample.encodeAll (Brightness.samples model data e.pixels) := by
  obtain ⟨s', hrun, hframe, hplane⟩ := (h.extractLayout he hdata).exists_run model
  obtain ⟨himage, -⟩ := List.pairwise_cons.1 h.disjoint
  have hkept := hframe.of_eq (r := ⟨p.image, data.size⟩)
    (by simpa using mt Region.meets_comm.1 (himage ⟨p.plane, e.pixels * 2⟩ (by simp)))
  rw [Region.of_front s.bytes hdata, hof, Brightness.samples_extract] at hplane
  exact ⟨s', hrun, hframe.mono (by simp [regions]), hkept.trans hof, hplane⟩

theorem Fits.blur (h : p.Fits s data.size e) (he : Extent.of? width height = .ok e)
    (hof : Region.of ⟨p.image, data.size⟩ s.bytes = data) {plane blurred : Array UInt16}
    {scratch : Scratch} {radius : Float32}
    (hplane : Region.of ⟨p.plane, e.pixels * 2⟩ s.bytes = sample.encodeAll plane)
    (hradius : Coefficients.ofBlurRadius? radius = some c)
    (hblur : (Gaussian.blur plane width height radius).run
      (Array.replicate e.pixels 0, .zeroed width height) = .ok (some c) (blurred, scratch)) :
    ∃ s', (Store.blur p.plane p.blurred p.scratch p.line p.coefficients width height radius).run
        s = .ok () s' ∧
      Frame (p.regions data.size e) s.bytes s'.bytes ∧
      Region.of ⟨p.image, data.size⟩ s'.bytes = data ∧
      Region.of ⟨p.plane, e.pixels * 2⟩ s'.bytes = sample.encodeAll plane ∧
      Region.of ⟨p.blurred, e.pixels * 2⟩ s'.bytes = sample.encodeAll blurred := by
  obtain ⟨⟨⟩, s', hrun⟩ := (h.blurLayout he).exists_run radius
  obtain ⟨e', plane', he', hdecode, hholds⟩ := (blur_eq_planes hrun).2 c hradius
  obtain rfl : e = e' := Except.ok.inj (he.symm.trans he')
  rw [hplane, decodeAll?_encodeAll faithful_sample h.plane_holds.aligned] at hdecode
  obtain rfl : plane = plane' := Except.ok.inj hdecode
  -- what the store holds is the blur on any buffers of these lengths, so also on zeroed ones
  obtain ⟨hzeroed, hzeroed'⟩ := Scratch.size_zeroed he
  obtain ⟨buffers, hrun', hblurred, -⟩ :=
    hholds.planes_eq (Array.replicate e.pixels 0, .zeroed width height) Array.size_replicate
      hzeroed hzeroed'
  rw [hblur] at hrun'
  obtain ⟨-, rfl⟩ := EStateM.Result.ok.inj hrun'
  obtain ⟨himage, hrest⟩ := List.pairwise_cons.1 h.disjoint
  obtain ⟨hsource, -⟩ := List.pairwise_cons.1 hrest
  have hframe := hholds.frame.mono (show _ ⊆ [⟨p.blurred, e.pixels * 2⟩,
    ⟨p.scratch, e.pixels * 2⟩, ⟨p.line, e.longSide * 4⟩, ⟨p.coefficients, 32⟩] by simp)
  have hkept := hframe.of_eq fun w hw =>
    mt Region.meets_comm.1 (himage w (List.mem_cons_of_mem _ hw))
  have hkept' := hframe.of_eq fun w hw => mt Region.meets_comm.1 (hsource w hw)
  exact ⟨s', hrun, hframe.mono (by simp [regions]), hkept.trans hof, hkept'.trans hplane, hblurred⟩

theorem Fits.sharpen (h : p.Fits s data.size e) (he : Extent.of? width height = .ok e)
    (hdata : e.bytes ≤ data.size) (hof : Region.of ⟨p.image, data.size⟩ s.bytes = data)
    {plane blurred : Array UInt16} (hsize : plane.size = e.pixels)
    (hsize' : blurred.size = e.pixels)
    (hplane : Region.of ⟨p.plane, e.pixels * 2⟩ s.bytes = sample.encodeAll plane)
    (hblurred : Region.of ⟨p.blurred, e.pixels * 2⟩ s.bytes = sample.encodeAll blurred)
    (settings : Settings) :
    ∃ n s', (Store.sharpen settings.model p.image p.image p.plane p.blurred width height
        settings.percent settings.least).run s = .ok n s' ∧
      Frame (p.regions data.size e) s.bytes s'.bytes ∧
      (settings.mask.apply plane blurred width height).run data =
        .ok n (Region.of ⟨p.image, data.size⟩ s'.bytes) := by
  obtain ⟨s', n, samples, reference, hrun, hsamples, hreference, hframe, hfrom⟩ :=
    (h.sharpenLayout he hdata).exists_run settings.model settings.percent settings.least
  rw [hplane, decodeAll?_encodeAll faithful_sample h.plane_holds.aligned] at hsamples
  rw [hblurred, decodeAll?_encodeAll faithful_sample h.blurred_holds.aligned] at hreference
  obtain rfl : plane = samples := Except.ok.inj hsamples
  obtain rfl : blurred = reference := Except.ok.inj hreference
  have hfront : (data.extract 0 e.bytes).size = e.bytes := size_front (by omega)
  rw [Region.of_front s.bytes hdata, hof] at hfrom
  obtain ⟨n', after, -, happly, hinto⟩ := Unsharp.Mask.exists_apply_eq_applyFrom
    (m := settings.mask) he hfront hsize.ge hsize'.ge
  have heq := (hinto _ hfront).symm.trans (hfrom _ hfront)
  obtain ⟨rfl, rfl⟩ := EStateM.Result.ok.inj heq
  refine ⟨n', s', hrun, ?_, ?_⟩
  · exact (hframe.widen hdata).mono (by simp [regions])
  · rw [hframe.of_front hdata h.image_le, hof]
    exact Unsharp.Mask.run_apply_overlay he hdata hsize.ge hsize'.ge happly

end Places

/-- Where the six regions are granted and disjoint, the calls leave the image in the store as a
session leaves its image, with the same count, and touch nothing outside of the regions. -/
theorem pipeline_eq_session {p : Places} {s : Store} {data : Array UInt8} {e : Extent}
    {width height : UInt32} {settings : Settings} {session : Session}
    (he : Extent.of? width height = .ok e) (hdata : e.bytes ≤ data.size)
    (hfits : p.Fits s data.size e) (hidle : settings.isIdle = false)
    (hsession : session.Reachable) :
    ∃ n s' after session',
      (Store.pipeline p data width height settings).run s = .ok n s' ∧
      (Session.sharpen width height settings).run (data, session) = .ok n (after, session') ∧
      Region.of ⟨p.image, data.size⟩ s'.bytes = after ∧
      Frame (p.regions data.size e) s.bytes s'.bytes := by
  have hsize := Brightness.size_samples settings.model data e.pixels
  obtain ⟨c, blurred, scratch, hradius, hsize', hblur, hstaged⟩ :=
    Unsharp.exists_run_staged he hidle hsize
  -- no call changes the length of the store, so the regions fit before each of them
  obtain ⟨s₁, hwrite, hframe₁, hof₁⟩ := hfits.write
  have hfits₁ := hfits.of_frame hframe₁
  obtain ⟨s₂, hextract, hframe₂, hof₂, hplane₂⟩ := hfits₁.extract he hdata hof₁ settings.model
  have hfits₂ := hfits₁.of_frame hframe₂
  obtain ⟨s₃, hblurs, hframe₃, hof₃, hplane₃, hblurred₃⟩ :=
    hfits₂.blur he hof₂ hplane₂ hradius hblur
  have hfits₃ := hfits₂.of_frame hframe₃
  obtain ⟨n, s₄, hsharpen, hframe₄, happly⟩ :=
    hfits₃.sharpen he hdata hof₃ hsize hsize' hplane₃ hblurred₃ settings
  have hseen : Edit.seen Prod.fst ((Session.sharpen width height settings).run (data, session)) =
      (Unsharp.staged width height settings).run data :=
    (Session.seen_sharpen_eq_staged hsession.balanced).1
  rw [hstaged data hdata rfl, happly] at hseen
  obtain ⟨t, hrun, ht⟩ := Edit.seen_eq_ok_iff.1 hseen
  refine ⟨n, s₄, t.1, t.2, ?_, hrun, ht.symm, ?_⟩
  · rw [Store.pipeline, Edit.run_bind_of_ok hwrite, Edit.run_bind_of_ok hextract,
      Edit.run_bind_of_ok hblurs]
    exact hsharpen
  · exact ((hframe₁.trans hframe₂).trans hframe₃).trans hframe₄

def strip : Array UInt8 := #[200, 100, 50, 255, 20, 30, 40, 7, 5]

def Places.packed : Places := ⟨0, 10, 14, 18, 24, 32⟩

theorem pipeline_eq_session_packed :
    ∃ e, Extent.of? 2 1 = .ok e ∧ e.bytes ≤ strip.size ∧
      Places.packed.Fits ⟨Array.replicate 64 7⟩ strip.size e ∧
      ({} : Settings).isIdle = false ∧ Session.warm.Reachable ∧
      ∃ n s' after session',
        (Store.pipeline .packed strip 2 1 {}).run ⟨Array.replicate 64 7⟩ = .ok n s' ∧
        (Session.sharpen 2 1 {}).run (strip, .warm) = .ok n (after, session') ∧
        Region.of ⟨0, strip.size⟩ s'.bytes = after ∧
        Frame (Places.packed.regions strip.size e) (Array.replicate 64 7) s'.bytes := by
  let e : Extent := ⟨2, 1, by decide, by decide, by decide⟩
  have he : Extent.of? 2 1 = .ok e := Extent.of?_eq_ok_iff.2 ⟨rfl, rfl⟩
  have hdata : e.bytes ≤ strip.size := by decide
  have hfits : Places.packed.Fits ⟨Array.replicate 64 7⟩ strip.size e :=
    ⟨⟨by decide, by decide, by decide⟩, ⟨by decide, by decide, by decide⟩,
      ⟨by decide, by decide, by decide⟩, ⟨by decide, by decide, by decide⟩,
      ⟨by decide, by decide, by decide⟩, ⟨by decide, by decide, by decide⟩, by decide⟩
  have hidle : ({} : Settings).isIdle = false := by decide +kernel
  exact ⟨e, he, hdata, hfits, hidle, Session.warm_reachable,
    pipeline_eq_session he hdata hfits hidle Session.warm_reachable⟩

end FixedRaster.Memory
