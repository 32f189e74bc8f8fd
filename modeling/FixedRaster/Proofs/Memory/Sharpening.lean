import Mathlib
import FixedRaster.Memory.Filters
import FixedRaster.Proofs.Memory.Granting
import FixedRaster.Proofs.Unsharp.Compositing

/-!
# Brightness planes and sharpening on a store

The plane that is extracted on a store and the image that is sharpened there are those of arrays.
Sharpening an image over itself works on its own piece, sharpening it elsewhere on two; both
leave what sharpening from the image into a fresh buffer leaves.
-/

namespace FixedRaster.Memory
open Brightness Element

variable {s : Store}

structure ExtractLayout (s : Store) (source target : ℕ) (width height : UInt32) (e : Extent) :
    Prop where
  extent_eq : Extent.of? width height = .ok e
  source_holds : s.Holds 1 source e.bytes
  target_holds : s.Holds 2 target e.pixels
  target_source : ¬ Region.Meets ⟨target, e.pixels * 2⟩ ⟨source, e.bytes⟩

theorem extract_refused_or_layout (s : Store) (model : ColorModel) (source target : ℕ)
    (width height : UInt32) :
    Edit.Refused (Store.extract model source target width height) s ∨
      ∃ e, ExtractLayout s source target width height e := by
  rw [Store.extract]
  refine Edit.refused_or_check (fun _ => Extent.ne_outOfRange) fun e he => ?_
  refine Edit.refused_or_get ?_
  refine Store.refused_or_region fun hsource => ?_
  refine Store.refused_or_region fun htarget => ?_
  rw [Nat.mul_one]
  refine refused_or_onPiece htarget.plane_within fun p hp => ?_
  refine Edit.refused_or_check (fun _ => Partition.read?_ne_outOfRange) fun data hdata => ?_
  exact .inr ⟨e, he, hsource, htarget, hp.read_apart _ _ hdata _ (by simp)⟩

theorem ExtractLayout.exists_run {source target : ℕ} {width height : UInt32} {e : Extent}
    (h : ExtractLayout s source target width height e) (model : ColorModel) :
    ∃ s', (Store.extract model source target width height).run s = .ok () s' ∧
      Frame [⟨target, e.pixels * 2⟩] s.bytes s'.bytes ∧
      Region.of ⟨target, e.pixels * 2⟩ s'.bytes =
        sample.encodeAll (Brightness.samples model (Region.of ⟨source, e.bytes⟩ s.bytes)
          e.pixels) := by
  have hsource := h.source_holds.bytes_within
  have htarget := h.target_holds.plane_within
  obtain ⟨plane, hplane, hsize⟩ := exists_samples h.target_holds
  have hfill : (Brightness.fill model (Region.of ⟨source, e.bytes⟩ s.bytes) width height).run
      plane = .ok () (Brightness.samples model (Region.of ⟨source, e.bytes⟩ s.bytes) e.pixels) :=
    run_fill h.extent_eq (Region.size_of hsource.stop_le).ge hsize
  have hencoded : (sample.encodeAll (Brightness.samples model
      (Region.of ⟨source, e.bytes⟩ s.bytes) e.pixels)).size = e.pixels * 2 := by
    rw [size_encodeAll faithful_sample, Brightness.size_samples]
    rfl
  have hpiece : ∃ s', (Store.onPieces #v[⟨target, e.pixels * 2⟩] fun parts => do
      let image ← parts.read? ⟨source, e.bytes⟩
      asElements .sample target 0 (Brightness.fill model image width height)).run s = .ok () s' ∧
      Frame [⟨target, e.pixels * 2⟩] s.bytes s'.bytes ∧
      Region.of ⟨target, e.pixels * 2⟩ s'.bytes =
        sample.encodeAll (Brightness.samples model (Region.of ⟨source, e.bytes⟩ s.bytes)
          e.pixels) := by
    apply exists_run_onPiece htarget _ hencoded
    intro p hp
    have hread := hp.read_eq ⟨source, e.bytes⟩ hsource (by simpa using h.target_source)
    simp only [Edit.run_check_bind, hread]
    exact run_asElements_of hplane hfill
  obtain ⟨s', hrun, hframe, hof⟩ := hpiece
  refine ⟨s', ?_, hframe, hof⟩
  rw [Store.extract]
  simp only [Edit.run_check_bind, Edit.run_get_bind, h.extent_eq, h.source_holds.region?_eq,
    h.target_holds.region?_eq, Nat.mul_one]
  exact hrun

/-- What a sharpening on a store is granted on. The source and the target are one region or share
no byte. -/
structure SharpenLayout (s : Store) (image target plane blurred : ℕ) (width height : UInt32)
    (e : Extent) : Prop where
  extent_eq : Extent.of? width height = .ok e
  image_holds : s.Holds 1 image e.bytes
  target_holds : s.Holds 1 target e.bytes
  plane_holds : s.Holds 2 plane e.pixels
  blurred_holds : s.Holds 2 blurred e.pixels
  target_plane : ¬ Region.Meets ⟨target, e.bytes⟩ ⟨plane, e.pixels * 2⟩
  target_blurred : ¬ Region.Meets ⟨target, e.bytes⟩ ⟨blurred, e.pixels * 2⟩
  target_image : image ≠ target → ¬ Region.Meets ⟨target, e.bytes⟩ ⟨image, e.bytes⟩

theorem sharpen_refused_or_layout (s : Store) (model : ColorModel)
    (image target plane blurred : ℕ) (width height percent : UInt32) (least : UInt8) :
    Edit.Refused (Store.sharpen model image target plane blurred width height percent least) s ∨
      ∃ e, SharpenLayout s image target plane blurred width height e := by
  rw [Store.sharpen]
  refine Edit.refused_or_check (fun _ => Extent.ne_outOfRange) fun e he => ?_
  refine Edit.refused_or_get ?_
  refine Store.refused_or_region fun himage => ?_
  refine Store.refused_or_region fun htarget => ?_
  refine Store.refused_or_region fun hplane => ?_
  refine Store.refused_or_region fun hblurred => ?_
  rw [Nat.mul_one]
  split_ifs with hsame
  · subst hsame
    refine refused_or_onPiece himage.bytes_within fun p hp => ?_
    refine Edit.refused_or_check (fun _ => Partition.read?_ne_outOfRange) fun data hdata => ?_
    refine Edit.refused_or_check (fun _ => decodeAll?_ne_outOfRange) fun _ _ => ?_
    refine Edit.refused_or_check (fun _ => Partition.read?_ne_outOfRange) fun data' hdata' => ?_
    exact .inr ⟨e, he, himage, htarget, hplane, hblurred,
      hp.read_apart _ _ hdata _ (by simp), hp.read_apart _ _ hdata' _ (by simp),
      fun h => absurd rfl h⟩
  · refine refused_or_onPiece htarget.bytes_within fun p hp => ?_
    refine Edit.refused_or_check (fun _ => Partition.read?_ne_outOfRange) fun bytes hbytes => ?_
    refine Edit.refused_or_check (fun _ => Partition.read?_ne_outOfRange) fun data hdata => ?_
    refine Edit.refused_or_check (fun _ => decodeAll?_ne_outOfRange) fun _ _ => ?_
    refine Edit.refused_or_check (fun _ => Partition.read?_ne_outOfRange) fun data' hdata' => ?_
    exact .inr ⟨e, he, himage, htarget, hplane, hblurred,
      hp.read_apart _ _ hdata _ (by simp), hp.read_apart _ _ hdata' _ (by simp),
      fun _ => hp.read_apart _ _ hbytes _ (by simp)⟩

theorem SharpenLayout.exists_run {image target plane blurred : ℕ} {width height : UInt32}
    {e : Extent} (h : SharpenLayout s image target plane blurred width height e)
    (model : ColorModel) (percent : UInt32) (least : UInt8) :
    ∃ s' n samples reference,
      (Store.sharpen model image target plane blurred width height percent least).run s =
        .ok n s' ∧
      sample.decodeAll? plane (Region.of ⟨plane, e.pixels * 2⟩ s.bytes) = .ok samples ∧
      sample.decodeAll? blurred (Region.of ⟨blurred, e.pixels * 2⟩ s.bytes) = .ok reference ∧
      Frame [⟨target, e.bytes⟩] s.bytes s'.bytes ∧
      ∀ buffer : Array UInt8, buffer.size = e.bytes →
        ((Unsharp.Mask.ofPercent model percent least).applyFrom
          (Region.of ⟨image, e.bytes⟩ s.bytes) samples reference width height).run buffer =
            .ok n (Region.of ⟨target, e.bytes⟩ s'.bytes) := by
  have himage := h.image_holds.bytes_within
  have htarget := h.target_holds.bytes_within
  obtain ⟨samples, hsamples, hsize⟩ := exists_samples h.plane_holds
  obtain ⟨reference, hreference, hsize'⟩ := exists_samples h.blurred_holds
  obtain ⟨n, after, hafter, happly, hfrom⟩ := Unsharp.Mask.exists_apply_eq_applyFrom
    (m := Unsharp.Mask.ofPercent model percent least) h.extent_eq (Region.size_of himage.stop_le)
    hsize.ge hsize'.ge
  have hreads : ∀ p, Granted s.bytes #v[(⟨target, e.bytes⟩ : Region)] p →
      p.read? ⟨plane, e.pixels * 2⟩ = .ok (Region.of ⟨plane, e.pixels * 2⟩ s.bytes) ∧
      p.read? ⟨blurred, e.pixels * 2⟩ = .ok (Region.of ⟨blurred, e.pixels * 2⟩ s.bytes) := by
    intro p hp
    exact ⟨hp.read_eq _ h.plane_holds.plane_within (by simpa using h.target_plane),
      hp.read_eq _ h.blurred_holds.plane_within (by simpa using h.target_blurred)⟩
  have hpiece : ∃ s', (Store.sharpen model image target plane blurred width height percent
      least).run s = .ok n s' ∧ Frame [⟨target, e.bytes⟩] s.bytes s'.bytes ∧
        Region.of ⟨target, e.bytes⟩ s'.bytes = after := by
    rw [Store.sharpen]
    simp only [Edit.run_check_bind, Edit.run_get_bind, h.extent_eq, h.image_holds.region?_eq,
      h.target_holds.region?_eq, h.plane_holds.region?_eq, h.blurred_holds.region?_eq,
      Nat.mul_one]
    split_ifs with hsame
    · subst hsame
      apply exists_run_onPiece himage _ hafter
      intro p hp
      obtain ⟨hread, hread'⟩ := hreads p hp
      simp only [Edit.run_check_bind, hread, hread', hsamples, hreference]
      apply Edit.run_within_ok
      exact happly
    · apply exists_run_onPiece htarget _ hafter
      intro p hp
      obtain ⟨hread, hread'⟩ := hreads p hp
      have hbytes := hp.read_eq _ himage (by simpa using h.target_image hsame)
      simp only [Edit.run_check_bind, hbytes, hread, hread', hsamples, hreference]
      apply Edit.run_within_ok
      exact hfrom _ (Region.size_of htarget.stop_le)
  obtain ⟨s', hrun, hframe, hof⟩ := hpiece
  refine ⟨s', n, samples, reference, hrun, hsamples, hreference, hframe, ?_⟩
  intro buffer hbuffer
  rw [hof]
  exact hfrom buffer hbuffer

theorem brightness_and_sharpen_eq_arrays :
    (∀ (s s' : Store) (model : ColorModel) (source target : ℕ) (width height : UInt32),
      (Store.extract model source target width height).run s = .ok () s' →
      ∃ e, Extent.of? width height = .ok e ∧
        Frame [⟨target, e.pixels * 2⟩] s.bytes s'.bytes ∧
        ∀ plane : Array UInt16, plane.size = e.pixels → ∃ plane',
          (Brightness.fill model (Region.of ⟨source, e.bytes⟩ s.bytes) width height).run plane =
            .ok () plane' ∧
          Region.of ⟨target, e.pixels * 2⟩ s'.bytes = sample.encodeAll plane') ∧
    ∀ (s s' : Store) (model : ColorModel) (image target plane blurred : ℕ)
      (width height percent : UInt32) (least : UInt8) (n : ℕ),
      (Store.sharpen model image target plane blurred width height percent least).run s =
        .ok n s' →
      ∃ e samples reference, Extent.of? width height = .ok e ∧
        sample.decodeAll? plane (Region.of ⟨plane, e.pixels * 2⟩ s.bytes) = .ok samples ∧
        sample.decodeAll? blurred (Region.of ⟨blurred, e.pixels * 2⟩ s.bytes) = .ok reference ∧
        Frame [⟨target, e.bytes⟩] s.bytes s'.bytes ∧
        ∀ buffer : Array UInt8, buffer.size = e.bytes →
          ((Unsharp.Mask.ofPercent model percent least).applyFrom
            (Region.of ⟨image, e.bytes⟩ s.bytes) samples reference width height).run buffer =
              .ok n (Region.of ⟨target, e.bytes⟩ s'.bytes) := by
  constructor
  · intro s s' model source target width height hrun
    rcases extract_refused_or_layout s model source target width height with
      ⟨f, -, hf⟩ | ⟨e, h⟩
    · rw [hrun] at hf
      cases hf
    · obtain ⟨s'', hrun', hframe, hof⟩ := h.exists_run model
      rw [hrun] at hrun'
      cases hrun'
      refine ⟨e, h.extent_eq, hframe, ?_⟩
      intro plane hplane
      exact ⟨_, run_fill h.extent_eq (Region.size_of h.source_holds.bytes_within.stop_le).ge hplane,
        hof⟩
  · intro s s' model image target plane blurred width height percent least n hrun
    rcases sharpen_refused_or_layout s model image target plane blurred width height percent
      least with ⟨f, -, hf⟩ | ⟨e, h⟩
    · rw [hrun] at hf
      cases hf
    · obtain ⟨s'', n', samples, reference, hrun', hsamples, hreference, hframe, hbuffer⟩ :=
        h.exists_run model percent least
      rw [hrun] at hrun'
      cases hrun'
      exact ⟨e, samples, reference, h.extent_eq, hsamples, hreference, hframe, hbuffer⟩

def album : Store :=
  ⟨#[200, 100, 50, 255, 20, 30, 40, 7, 0, 90, 0, 20] ++ Array.replicate 12 3⟩

theorem brightness_and_sharpen_album :
    (∃ s', (Store.extract .hsl 0 8 2 1).run album = .ok () s' ∧
      ∃ e, Extent.of? 2 1 = .ok e ∧ Frame [⟨8, e.pixels * 2⟩] album.bytes s'.bytes ∧
        ∀ plane : Array UInt16, plane.size = e.pixels → ∃ plane',
          (Brightness.fill .hsl (Region.of ⟨0, e.bytes⟩ album.bytes) 2 1).run plane =
            .ok () plane' ∧
          Region.of ⟨8, e.pixels * 2⟩ s'.bytes = sample.encodeAll plane') ∧
    ∀ target ∈ [0, 15], ∃ n s',
      (Store.sharpen .hsv 0 target 8 10 2 1 80 2).run album = .ok n s' ∧
      ∃ e samples reference, Extent.of? 2 1 = .ok e ∧
        sample.decodeAll? 8 (Region.of ⟨8, e.pixels * 2⟩ album.bytes) = .ok samples ∧
        sample.decodeAll? 10 (Region.of ⟨10, e.pixels * 2⟩ album.bytes) = .ok reference ∧
        Frame [⟨target, e.bytes⟩] album.bytes s'.bytes ∧
        ∀ buffer : Array UInt8, buffer.size = e.bytes →
          ((Unsharp.Mask.ofPercent .hsv 80 2).applyFrom (Region.of ⟨0, e.bytes⟩ album.bytes)
            samples reference 2 1).run buffer = .ok n (Region.of ⟨target, e.bytes⟩ s'.bytes) := by
  constructor
  · have hfinished : Edit.finished ((Store.extract .hsl 0 8 2 1).run album) = true := by
      decide +kernel
    obtain ⟨_, s', hrun⟩ := Edit.exists_ok_of_finished hfinished
    exact ⟨s', hrun, brightness_and_sharpen_eq_arrays.1 _ _ _ _ _ _ _ hrun⟩
  · have hfinished : ∀ target ∈ [0, 15], Edit.finished
        ((Store.sharpen .hsv 0 target 8 10 2 1 80 2).run album) = true := by
      decide +kernel
    intro target htarget
    obtain ⟨n, s', hrun⟩ := Edit.exists_ok_of_finished (hfinished target htarget)
    exact ⟨n, s', hrun, brightness_and_sharpen_eq_arrays.2 _ _ _ _ _ _ _ _ _ _ _ _ hrun⟩

end FixedRaster.Memory
