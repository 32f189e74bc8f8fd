import Mathlib
import FixedRaster.Proofs.Memory.Blurring
import FixedRaster.Proofs.Memory.Resizing
import FixedRaster.Proofs.Memory.Sharpening

/-!
# Calls on a store fail before they write

Each call succeeds exactly on the layouts of its regions. What comes after the first byte is written
(pieces, reads, elements, kernels) then cannot fail, so a call that fails leaves the store as it
was.
-/

namespace FixedRaster.Memory
open Element Gaussian

variable {c : Coefficients} {s : Store}

theorem write_atomic (s : Store) (offset : ℕ) (data : Array UInt8) :
    Edit.Atomic (Store.write offset data) s (s.Holds 1 offset data.size) := by
  apply Edit.atomic_of_cases
  · rw [Store.write]
    refine Edit.refused_or_get ?_
    exact Store.refused_or_region fun h => .inr h
  · intro h
    rw [Store.write]
    simp only [Edit.run_get_bind, Edit.run_check_bind, h.region?_eq]
    exact ⟨_, _, rfl⟩

structure BlurLayout (s : Store) (source target scratch line coefficients : ℕ)
    (width height : UInt32) (e : Extent) : Prop where
  extent_eq : Extent.of? width height = .ok e
  source_holds : s.Holds 2 source e.pixels
  target_holds : s.Holds 2 target e.pixels
  scratch_holds : s.Holds 2 scratch e.pixels
  line_holds : s.Holds 4 line e.longSide
  coefficients_holds : s.Holds 4 coefficients 8
  apart : Apart ⟨source, e.pixels * 2⟩ ⟨target, e.pixels * 2⟩ ⟨scratch, e.pixels * 2⟩
    ⟨line, e.longSide * 4⟩ ⟨coefficients, 32⟩

theorem blur_refused_or_layout (s : Store) (source target scratch line coefficients : ℕ)
    (width height : UInt32) (radius : Float32) :
    Edit.Refused (Store.blur source target scratch line coefficients width height radius) s ∨
      ∃ e, BlurLayout s source target scratch line coefficients width height e := by
  rw [Store.blur]
  refine Edit.refused_or_check (fun _ => Extent.ne_outOfRange) fun e he => ?_
  refine Edit.refused_or_get ?_
  refine Store.refused_or_region fun hsource => ?_
  refine Store.refused_or_region fun htarget => ?_
  refine Store.refused_or_region fun hscratch => ?_
  refine Store.refused_or_region fun hline => ?_
  refine Store.refused_or_region fun hcoefficients => ?_
  refine Edit.refused_or_check (fun _ => checkDisjoint_ne_outOfRange) fun _ hwrites => ?_
  refine Edit.refused_or_check (fun _ => checkDisjoint_ne_outOfRange) fun _ hreads => ?_
  exact .inr ⟨e, he, hsource, htarget, hscratch, hline, hcoefficients,
    apart_iff.1 ⟨hwrites, hreads⟩⟩

theorem exists_run_filterRows (c : Coefficients) {source target line count long width height : ℕ}
    (hsource : s.Holds 2 source count) (htarget : s.Holds 2 target count)
    (hline : s.Holds 4 line long) (hcount : width * height = count) (hpos : 0 < count)
    (hlong : width ≤ long)
    (htargetline : ¬ Region.Meets ⟨target, count * 2⟩ ⟨line, long * 4⟩)
    (htargetsource : ¬ Region.Meets ⟨target, count * 2⟩ ⟨source, count * 2⟩)
    (hlinesource : ¬ Region.Meets ⟨line, long * 4⟩ ⟨source, count * 2⟩) :
    ∃ s', (Store.filterRows c ⟨source, count * 2⟩ ⟨target, count * 2⟩ ⟨line, long * 4⟩ width
        height).run s = .ok () s' ∧
      Frame [⟨target, count * 2⟩, ⟨line, long * 4⟩] s.bytes s'.bytes := by
  have hwidth : 0 < width := by
    rcases Nat.eq_zero_or_pos width with rfl | hw
    · omega
    · exact hw
  have hsourcein := hsource.within (by omega)
  have htargetin := htarget.within (by omega)
  have hlinein := hline.within (by omega)
  obtain ⟨plane, hplane, hpsize⟩ := exists_samples hsource
  obtain ⟨out, hout, hosize⟩ := exists_samples htarget
  obtain ⟨buffer, hbuffer, hbsize⟩ := exists_elements (e := float) (by decide) hline
  have hbuffer' : float.decodeAll? line (Region.of ⟨line, long * 4⟩ s.bytes) = .ok buffer := hbuffer
  have hcomm := Nat.mul_comm width height
  obtain ⟨⟨buffer', out'⟩, hrows, hfiltered⟩ : ∃ after, filterRows? c plane width height
      (buffer, out) = some after ∧ Filtered c plane width height height (buffer, out) after :=
    exists_filterRows? c (by omega) (by simp only; omega) (by simp only; omega)
  have hbuffersize : buffer'.size = long := hfiltered.line_size.trans hbsize
  have houtsize : out'.size = count := hfiltered.out_size.trans hosize
  have hseparate : Separate s.bytes
      #v[(⟨target, count * 2⟩ : Region), (⟨line, long * 4⟩ : Region)] :=
    ⟨by simpa using htargetline, by simpa using ⟨htargetin, hlinein⟩⟩
  have hpieces : ∃ s', (Store.filterRows c ⟨source, count * 2⟩ ⟨target, count * 2⟩
      ⟨line, long * 4⟩ width height).run s = .ok () s' ∧
      Frame (#v[(⟨target, count * 2⟩ : Region), ⟨line, long * 4⟩]).toList s.bytes s'.bytes ∧
      ∀ i (hi : i < 2), (#v[(⟨target, count * 2⟩ : Region), ⟨line, long * 4⟩])[i].of s'.bytes =
        (#v[sample.encodeAll out', float.encodeAll buffer'])[i] := by
    rw [Store.filterRows]
    apply hseparate.exists_run_onPieces
    · intro p hp
      have hread := hp.read_eq ⟨source, count * 2⟩ hsourcein
        (by simpa using ⟨htargetsource, hlinesource⟩)
      have hpiece : p.pieces[0] = Region.of ⟨target, count * 2⟩ s.bytes := hp.piece_eq 0 _
      have hpiece' : p.pieces[1] = Region.of ⟨line, long * 4⟩ s.bytes := hp.piece_eq 1 _
      simp only [Edit.run_check_bind, Edit.run_get_bind, hread, hpiece, hpiece', hplane, hout,
        hbuffer', hrows]
      rfl
    · intro i hi
      interval_cases i
      · exact (size_encodeAll faithful_sample out').trans (by rw [houtsize]; rfl)
      · exact (size_encodeAll faithful_float buffer').trans (by rw [hbuffersize]; rfl)
  obtain ⟨s', hrun, hframe, -⟩ := hpieces
  exact ⟨s', hrun, hframe⟩

theorem exists_run_writeCoefficients (c : Coefficients) {offset : ℕ} (h : s.Holds 4 offset 8) :
    ∃ s', (Store.onPieces #v[(⟨offset, 32⟩ : Region)] fun _ =>
        asElements float offset 0 (set c.toArray)).run s = .ok () s' ∧
      Frame [⟨offset, 32⟩] s.bytes s'.bytes := by
  obtain ⟨xs, hxs, -⟩ := exists_elements (e := float) (by decide) h
  have hpiece : ∃ s', (Store.onPieces #v[(⟨offset, 32⟩ : Region)] fun _ =>
      asElements float offset 0 (set c.toArray)).run s = .ok () s' ∧
      Frame [⟨offset, 32⟩] s.bytes s'.bytes ∧
      Region.of ⟨offset, 32⟩ s'.bytes = float.encodeAll c.toArray := by
    apply exists_run_onPiece (h.within (by decide))
    · intro p _
      exact run_asElements_of hxs rfl
    · rw [size_encodeAll faithful_float, Coefficients.size_toArray]
      rfl
  obtain ⟨s', hrun, hframe, -⟩ := hpiece
  exact ⟨s', hrun, hframe⟩

theorem BlurLayout.exists_run {source target scratch line coefficients : ℕ}
    {width height : UInt32} {e : Extent}
    (h : BlurLayout s source target scratch line coefficients width height e) (radius : Float32) :
    ∃ a s', (Store.blur source target scratch line coefficients width height radius).run s =
      .ok a s' := by
  have hapart := h.apart
  obtain ⟨hwrites, hreads⟩ := apart_iff.2 hapart
  have hpixels : e.width * e.height = e.pixels := rfl
  have hside : e.longSide = max e.width e.height := rfl
  have hcomm := Nat.mul_comm e.width e.height
  rw [Store.blur]
  simp only [Edit.run_check_bind, Edit.run_get_bind, h.extent_eq, h.source_holds.region?_eq,
    h.target_holds.region?_eq, h.scratch_holds.region?_eq, h.line_holds.region?_eq,
    h.coefficients_holds.region?_eq, hwrites, hreads]
  cases hradius : Coefficients.ofBlurRadius? radius with
  | none => exact ⟨(), s, rfl⟩
  | some c =>
    -- no write changes the length of the store, so it holds the regions before every pass
    obtain ⟨s₁, hrun₁, hframe₁⟩ := exists_run_writeCoefficients c h.coefficients_holds
    obtain ⟨s₂, hrun₂, hframe₂⟩ := exists_run_filterRows c (h.source_holds.of_frame hframe₁)
      (h.scratch_holds.of_frame hframe₁) (h.line_holds.of_frame hframe₁) hpixels e.pixels_pos
      (by omega) hapart.scratch_line hapart.scratch_source hapart.line_source
    obtain ⟨s₃, hrun₃, -⟩ := exists_run_filterRows c
      ((h.scratch_holds.of_frame hframe₁).of_frame hframe₂)
      ((h.target_holds.of_frame hframe₁).of_frame hframe₂)
      ((h.line_holds.of_frame hframe₁).of_frame hframe₂) (hcomm.symm.trans hpixels) e.pixels_pos
      (by omega) (mt Region.meets_comm.1 hapart.line_target)
      (mt Region.meets_comm.1 hapart.scratch_target) (mt Region.meets_comm.1 hapart.scratch_line)
    exact ⟨(), s₃, Edit.run_bind_ok_iff.2 ⟨(), s₁, hrun₁,
      Edit.run_bind_ok_iff.2 ⟨(), s₂, hrun₂, hrun₃⟩⟩⟩

theorem calls_atomic :
    (∀ s : Store, s.size < wordLimit → ∀ size offset count, s.Holds size offset count ↔
      offset % size = 0 ∧ offset + count * size ≤ s.size) ∧
    ∀ s : Store,
      (∀ (offset : ℕ) (data : Array UInt8),
        Edit.Atomic (Store.write offset data) s (s.Holds 1 offset data.size)) ∧
      (∀ (source target scratch line coefficients : ℕ) (width height : UInt32) (radius : Float32),
        Edit.Atomic (Store.blur source target scratch line coefficients width height radius) s
          (∃ e, BlurLayout s source target scratch line coefficients width height e)) ∧
      (∀ (model : ColorModel) (source target : ℕ) (width height : UInt32),
        Edit.Atomic (Store.extract model source target width height) s
          (∃ e, ExtractLayout s source target width height e)) ∧
      (∀ (model : ColorModel) (image target plane blurred : ℕ) (width height percent : UInt32)
        (least : UInt8),
        Edit.Atomic (Store.sharpen model image target plane blurred width height percent least) s
          (∃ e, SharpenLayout s image target plane blurred width height e)) ∧
      ∀ (image horizontal horizontalLength vertical verticalLength middle : ℕ)
        (sourceWidth sourceHeight targetWidth targetHeight : UInt32) (withAlpha : Bool),
        4 * sourceHeight.toNat * targetWidth.toNat < 2 ^ 64 →
        Edit.Atomic (Store.resample image horizontal horizontalLength vertical verticalLength middle
          sourceWidth sourceHeight targetWidth targetHeight withAlpha) s
          (∃ source target across down, ResizeLayout s image horizontal horizontalLength vertical
            verticalLength middle sourceWidth sourceHeight targetWidth targetHeight source target
            across down) := by
  refine ⟨fun s hs size offset count => Store.holds_iff hs, fun s => ⟨write_atomic s, ?_, ?_, ?_,
    ?_⟩⟩
  · intro source target scratch line coefficients width height radius
    apply Edit.atomic_of_cases (blur_refused_or_layout ..)
    rintro ⟨e, h⟩
    exact h.exists_run radius
  · intro model source target width height
    apply Edit.atomic_of_cases (extract_refused_or_layout ..)
    rintro ⟨e, h⟩
    obtain ⟨s', hrun, -⟩ := h.exists_run model
    exact ⟨(), s', hrun⟩
  · intro model image target plane blurred width height percent least
    apply Edit.atomic_of_cases (sharpen_refused_or_layout ..)
    rintro ⟨e, h⟩
    obtain ⟨s', n, -, -, hrun, -⟩ := h.exists_run model percent least
    exact ⟨n, s', hrun⟩
  · intro image horizontal horizontalLength vertical verticalLength middle sourceWidth sourceHeight
      targetWidth targetHeight withAlpha hroom
    exact resample_atomic s image horizontal horizontalLength vertical verticalLength middle
      sourceWidth targetHeight hroom withAlpha

/-- The first layout is granted; in the second the intermediate image begins inside of a kernel. -/
theorem calls_atomic_crowded :
    crowded.size < wordLimit ∧ (crowded.Holds 2 10 3 ↔ 10 % 2 = 0 ∧ 10 + 3 * 2 ≤ crowded.size) ∧
    4 * (1 : UInt32).toNat * (2 : UInt32).toNat < 2 ^ 64 ∧
    (∃ source target across down,
      ResizeLayout crowded 0 4 6 10 3 16 1 1 2 1 source target across down) ∧
    (¬ ∃ source target across down,
      ResizeLayout crowded 0 4 6 10 3 14 1 1 2 1 source target across down) ∧
    ∃ f, f ≠ .outOfRange ∧
      (Store.resample 0 4 6 10 3 14 1 1 2 1 true).run crowded = .error f crowded := by
  have hsize : crowded.size < wordLimit := by decide
  have hroom : 4 * (1 : UInt32).toNat * (2 : UInt32).toNat < 2 ^ 64 := by decide
  have hfinished : Edit.finished ((Store.resample 0 4 6 10 3 16 1 1 2 1 true).run crowded) =
      true := by
    decide +kernel
  have hfailed : Edit.finished ((Store.resample 0 4 6 10 3 14 1 1 2 1 true).run crowded) =
      false := by
    decide +kernel
  have hgranted := (calls_atomic.2 crowded).2.2.2.2 0 4 6 10 3 16 1 1 2 1 true hroom
  have hrefused := (calls_atomic.2 crowded).2.2.2.2 0 4 6 10 3 14 1 1 2 1 true hroom
  have hlayout := hgranted.ok_iff.1 (Edit.exists_ok_of_finished hfinished)
  have hholds := calls_atomic.1 crowded hsize 2 10 3
  cases hrun : (Store.resample 0 4 6 10 3 14 1 1 2 1 true).run crowded with
  | ok a t =>
    rw [hrun] at hfailed
    cases hfailed
  | error f t =>
    obtain ⟨rfl, hf⟩ := hrefused.error_kept f t hrun
    refine ⟨hsize, hholds, hroom, hlayout, ?_, f, hf, rfl⟩
    intro h
    obtain ⟨a, u, hok⟩ := hrefused.ok_iff.2 h
    rw [hrun] at hok
    cases hok

end FixedRaster.Memory
