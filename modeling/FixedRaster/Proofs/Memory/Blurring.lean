import Mathlib
import FixedRaster.Memory.Filters
import FixedRaster.Proofs.Gaussian.Passes
import FixedRaster.Proofs.Memory.Carving
import FixedRaster.Proofs.Memory.Elements

/-!
# The blur on a store is the blur of planes

The two passes on a store read and write the regions of the call through their elements. What stands
in the regions afterwards is what the blur of arrays leaves in its buffers, also where the source
and the target are one region or overlap.
-/

namespace FixedRaster.Memory
open Element Gaussian

variable {c : Coefficients} {s s' : Store}

theorem run_filterRows_ok {source target line : Region} {width height : ℕ}
    (hsource : height * width * 2 ≤ source.length) (htarget : width * height * 2 ≤ target.length)
    (hline : width * 4 ≤ line.length)
    (h : (Store.filterRows c source target line width height).run s = .ok () s') :
    ∃ plane buffers after, sample.decodeAll? source.offset (source.of s.bytes) = .ok plane ∧
      float.decodeAll? line.offset (line.of s.bytes) = .ok buffers.1 ∧
      plane.size * 2 = source.length ∧ buffers.1.size * 4 = line.length ∧
      buffers.2.size * 2 = target.length ∧
      Filtered c plane width height height buffers after ∧
      Frame [target, line] s.bytes s'.bytes ∧
      target.of s'.bytes = sample.encodeAll after.2 ∧
      line.of s'.bytes = float.encodeAll after.1 := by
  rw [Store.filterRows] at h
  obtain ⟨p, pieces, hp, hrun, hback⟩ := run_onPieces_ok h
  simp only [Edit.run_check_bind_ok_iff, Edit.run_get_bind] at hrun
  obtain ⟨data, hread, plane, hplane, out, hout, buffer, hbuffer, hrest⟩ := hrun
  obtain ⟨rfl, hstop⟩ := Partition.of_read? hp hread
  have hplanesize := (aligned_of_decodeAll? hplane).2
  have houtsize := (aligned_of_decodeAll? hout).2
  have hbuffersize := (aligned_of_decodeAll? hbuffer).2
  rw [Region.size_of hstop] at hplanesize
  rw [hp.size_piece] at houtsize hbuffersize
  change plane.size * 2 = source.length at hplanesize
  change out.size * 2 = target.length at houtsize
  change buffer.size * 4 = line.length at hbuffersize
  obtain ⟨⟨line', out'⟩, hrows, hfiltered⟩ : ∃ after, filterRows? c plane width height
      (buffer, out) = some after ∧ Filtered c plane width height height (buffer, out) after :=
    exists_filterRows? c (by omega) (by simp only; omega) (by simp only; omega)
  have hline' : line'.size = buffer.size := hfiltered.line_size
  have hout' : out'.size = out.size := hfiltered.out_size
  rw [hrows] at hrest
  cases hrest
  obtain ⟨hframe, hof⟩ := hback (by
    intro i hi
    match i with
    | 0 => exact size_encodeAll_of_decodeAll? faithful_sample hout hout'
    | 1 => exact size_encodeAll_of_decodeAll? faithful_float hbuffer hline')
  rw [hp.piece_eq 1 (by decide)] at hbuffer
  exact ⟨plane, (buffer, out), (line', out'), hplane, hbuffer, hplanesize, hbuffersize, houtsize,
    hfiltered, hframe, hof 0 (by decide), hof 1 (by decide)⟩

theorem run_asElements_ok {α β : Type} {n : ℕ} {e : Element α} {offset : ℕ} {i : Fin n}
    {edit : Edit (Array α) β} {pieces pieces' : Vector (Array UInt8) n} {b : β}
    (h : (asElements e offset i edit).run pieces = .ok b pieces') :
    ∃ xs ys, e.decodeAll? offset (pieces.get i) = .ok xs ∧ edit.run xs = .ok b ys ∧
      pieces'.get i = e.encodeAll ys := by
  rw [asElements] at h
  rw [Edit.run_get_bind, Edit.run_check_bind_ok_iff] at h
  obtain ⟨xs, hdecode, hwithin⟩ := h
  obtain ⟨ys, hrun, hset⟩ := Edit.run_within_ok_iff.1 hwithin
  refine ⟨xs, ys, hdecode, hrun, ?_⟩
  rw [← hset]
  exact Vector.getElem_set_self i.isLt

theorem run_writeCoefficients_ok {r : Region} (hr : r.length = 32)
    (h : (Store.onPieces #v[r] fun _ => asElements float r.offset 0 (set c.toArray)).run s =
      .ok () s') :
    Frame [r] s.bytes s'.bytes ∧ r.of s'.bytes = float.encodeAll c.toArray := by
  obtain ⟨p, pieces, hp, hrun, hback⟩ := run_onPieces_ok h
  obtain ⟨xs, ys, hdecode, hset, hpiece⟩ := run_asElements_ok hrun
  cases hset
  have hcount : xs.size * 4 = r.length :=
    (aligned_of_decodeAll? hdecode).2.trans (hp.size_piece (by decide))
  have hsize : (pieces.get 0).size = (p.pieces.get 0).size := by
    rw [hpiece]
    apply size_encodeAll_of_decodeAll? faithful_float hdecode
    rw [Coefficients.size_toArray]
    omega
  obtain ⟨hframe, hof⟩ := hback (by
    intro i hi
    obtain rfl : i = 0 := by omega
    exact hsize)
  exact ⟨hframe, (hof 0 (by decide)).trans hpiece⟩

/-- The regions that a blur writes share no byte, and only the target may share bytes with the
source. -/
structure Apart (source target scratch line coefficients : Region) : Prop where
  scratch_line : ¬ scratch.Meets line
  scratch_target : ¬ scratch.Meets target
  scratch_coefficients : ¬ scratch.Meets coefficients
  line_target : ¬ line.Meets target
  line_coefficients : ¬ line.Meets coefficients
  target_coefficients : ¬ target.Meets coefficients
  scratch_source : ¬ scratch.Meets source
  line_source : ¬ line.Meets source
  coefficients_source : ¬ coefficients.Meets source

theorem apart_iff {source target scratch line coefficients : Region} :
    checkDisjoint [scratch, line, target, coefficients] [] = .ok () ∧
        checkDisjoint [scratch, line, coefficients] [source] = .ok () ↔
      Apart source target scratch line coefficients := by
  simp only [checkDisjoint_eq_ok_iff, List.pairwise_cons, List.mem_cons, List.not_mem_nil,
    or_false, forall_eq_or_imp, forall_eq, List.Pairwise.nil, and_true, false_imp_iff,
    implies_true]
  constructor
  · rintro ⟨⟨⟨h1, h2, h3⟩, ⟨h4, h5⟩, h6⟩, -, h7, h8, h9⟩
    exact ⟨h1, h2, h3, h4, h5, h6, h7, h8, h9⟩
  · rintro ⟨h1, h2, h3, h4, h5, h6, h7, h8, h9⟩
    exact ⟨⟨⟨h1, h2, h3⟩, ⟨h4, h5⟩, h6⟩, ⟨⟨h1, h3⟩, h5⟩, h7, h8, h9⟩

theorem run_blur_ok {source target scratch line coefficients : ℕ} {width height : UInt32}
    {radius : Float32} (hradius : Coefficients.ofBlurRadius? radius = some c)
    (h : (Store.blur source target scratch line coefficients width height radius).run s =
      .ok () s') :
    ∃ e plane before after, Extent.of? width height = .ok e ∧
      sample.decodeAll? source (Region.of ⟨source, e.pixels * 2⟩ s.bytes) = .ok plane ∧
      plane.size = e.pixels ∧ before.1.size = e.pixels ∧ before.2.plane.size = e.pixels ∧
      before.2.line.size = e.longSide ∧ Blurred c e plane before after ∧
      Region.of ⟨target, e.pixels * 2⟩ s'.bytes = sample.encodeAll after.1 ∧
      Region.of ⟨scratch, e.pixels * 2⟩ s'.bytes = sample.encodeAll after.2.plane ∧
      Region.of ⟨line, e.longSide * 4⟩ s'.bytes = float.encodeAll after.2.line ∧
      Region.of ⟨coefficients, 32⟩ s'.bytes = float.encodeAll c.toArray ∧
      Frame [⟨scratch, e.pixels * 2⟩, ⟨line, e.longSide * 4⟩, ⟨target, e.pixels * 2⟩,
        ⟨coefficients, 32⟩] s.bytes s'.bytes := by
  rw [Store.blur] at h
  simp only [Edit.run_check_bind_ok_iff, Edit.run_get_bind, Store.region?_eq_ok_iff] at h
  obtain ⟨e, he, rs, ⟨-, -, -, rfl⟩, rt, ⟨-, -, -, rfl⟩, rm, ⟨hscratch, -, -, rfl⟩, rl,
    ⟨hline, -, -, rfl⟩, rc, ⟨-, -, -, rfl⟩, _, hwrites, _, hreads, hwork⟩ := h
  have hapart := apart_iff.1 ⟨hwrites, hreads⟩
  have hpixels : e.pixels = e.width * e.height := rfl
  have hside : e.longSide = max e.width e.height := rfl
  have hcomm := Nat.mul_comm e.width e.height
  simp only [hradius] at hwork
  obtain ⟨_, s₁, hcoefficients, hpasses⟩ := Edit.run_bind_ok_iff.1 hwork
  obtain ⟨_, s₂, hfirst, hsecond⟩ := Edit.run_bind_ok_iff.1 hpasses
  obtain ⟨hframe₁, hof₁⟩ := run_writeCoefficients_ok rfl hcoefficients
  obtain ⟨plane, buffers, mid, hplane, -, hpsize, hlsize, hmsize, hfiltered, hframe₂, hmid,
    hmidline⟩ := run_filterRows_ok (by simp only; omega) (by simp only; omega)
      (by simp only; omega) hfirst
  obtain ⟨across, buffers', last, hacross, hbuffer, -, -, htsize, hfiltered', hframe₃, hlast,
    hlastline⟩ := run_filterRows_ok (by simp only; omega) (by simp only; omega)
      (by simp only; omega) hsecond
  -- the second pass decodes what the first one encoded, in the scratch plane and in the line
  rw [hmid, decodeAll?_encodeAll faithful_sample hscratch] at hacross
  rw [hmidline, decodeAll?_encodeAll faithful_float hline] at hbuffer
  obtain ⟨last, out⟩ := last
  obtain ⟨line', out'⟩ := buffers'
  cases hacross
  cases hbuffer
  rw [hframe₁.of_eq (by simpa using hapart.coefficients_source)] at hplane
  have hkeptscratch := hframe₃.of_eq_pair (mt Region.meets_comm.1 hapart.scratch_target)
    (mt Region.meets_comm.1 hapart.scratch_line)
  have hkept₂ := hframe₂.of_eq_pair hapart.scratch_coefficients hapart.line_coefficients
  have hkept₃ := hframe₃.of_eq_pair hapart.target_coefficients hapart.line_coefficients
  simp only at hpsize hlsize hmsize htsize
  refine ⟨e, plane, (out', ⟨buffers.2, buffers.1⟩), (out, ⟨mid.2, last⟩), he, hplane, by omega,
    by simp only; omega, by simp only; omega, by simp only; omega,
    ⟨mid.1, hfiltered, hfiltered'⟩, hlast, hkeptscratch.trans hmid, hlastline,
    hkept₃.trans (hkept₂.trans hof₁), ?_⟩
  exact ((hframe₁.mono (by simp)).trans (hframe₂.mono (by simp))).trans (hframe₃.mono (by simp))

theorem run_blur_none {source target scratch line coefficients : ℕ} {width height : UInt32}
    {radius : Float32} (hradius : Coefficients.ofBlurRadius? radius = none)
    (h : (Store.blur source target scratch line coefficients width height radius).run s =
      .ok () s') : s' = s := by
  rw [Store.blur] at h
  simp only [Edit.run_check_bind_ok_iff, Edit.run_get_bind, hradius] at h
  obtain ⟨_, _, _, _, _, _, _, _, _, _, _, _, _, _, _, _, hdone⟩ := h
  cases hdone
  rfl

/-- What a blur of `plane` leaves in a store, whatever the buffers of the blur of arrays hold. -/
structure HoldsBlur (c : Coefficients) (e : Extent) (plane : Array UInt16)
    (width height : UInt32) (radius : Float32) (target scratch line coefficients : ℕ)
    (before after : Array UInt8) : Prop where
  frame : Frame [⟨scratch, e.pixels * 2⟩, ⟨line, e.longSide * 4⟩, ⟨target, e.pixels * 2⟩,
    ⟨coefficients, 32⟩] before after
  coefficients_eq : Region.of ⟨coefficients, 32⟩ after = float.encodeAll c.toArray
  planes_eq : ∀ buffers : Array UInt16 × Scratch, buffers.1.size = e.pixels →
    buffers.2.plane.size = e.pixels → buffers.2.line.size = e.longSide →
    ∃ buffers', (Gaussian.blur plane width height radius).run buffers = .ok (some c) buffers' ∧
      Region.of ⟨target, e.pixels * 2⟩ after = sample.encodeAll buffers'.1 ∧
      Region.of ⟨scratch, e.pixels * 2⟩ after = sample.encodeAll buffers'.2.plane ∧
      Region.of ⟨line, e.longSide * 4⟩ after = float.encodeAll buffers'.2.line

theorem blur_eq_planes {source target scratch line coefficients : ℕ} {width height : UInt32}
    {radius : Float32}
    (h : (Store.blur source target scratch line coefficients width height radius).run s =
      .ok () s') :
    (Coefficients.ofBlurRadius? radius = none → s' = s) ∧
    ∀ c, Coefficients.ofBlurRadius? radius = some c →
      ∃ e plane, Extent.of? width height = .ok e ∧
        sample.decodeAll? source (Region.of ⟨source, e.pixels * 2⟩ s.bytes) = .ok plane ∧
        HoldsBlur c e plane width height radius target scratch line coefficients s.bytes
          s'.bytes := by
  refine ⟨fun hradius => run_blur_none hradius h, ?_⟩
  intro c hradius
  obtain ⟨e, plane, before, after, he, hplane, hpsize, hout, hscratch, hline, hblurred, htarget,
    hmiddle, hlast, hwritten, hframe⟩ := run_blur_ok hradius h
  refine ⟨e, plane, he, hplane, hframe, hwritten, ?_⟩
  intro buffers hout' hscratch' hline'
  obtain ⟨after', hrun, hblurred'⟩ := exists_run_blur he hradius hpsize.ge hout'.ge hscratch'.ge
    hline'.ge
  rw [← hblurred.eq_of_sizes hblurred' hout hscratch hline hout' hscratch' hline'] at hrun
  exact ⟨after, hrun, htarget, hmiddle, hlast⟩

def overlapping : Store := ⟨Array.replicate 8 7 ++ Array.replicate 52 200⟩

theorem blur_overlapping :
    ∃ s', (Store.blur 0 2 8 12 20 1 2 2.0).run overlapping = .ok () s' ∧
      ∃ c, Coefficients.ofBlurRadius? 2.0 = some c ∧
        ∃ e plane, Extent.of? 1 2 = .ok e ∧
          sample.decodeAll? 0 (Region.of ⟨0, e.pixels * 2⟩ overlapping.bytes) = .ok plane ∧
          HoldsBlur c e plane 1 2 2.0 2 8 12 20 overlapping.bytes s'.bytes := by
  have hfinished : Edit.finished ((Store.blur 0 2 8 12 20 1 2 2.0).run overlapping) = true := by
    decide +kernel
  obtain ⟨_, s', hrun⟩ := Edit.exists_ok_of_finished hfinished
  have hradius : Coefficients.ofBlurRadius? 2.0 = some _ := rfl
  exact ⟨s', hrun, _, hradius, (blur_eq_planes hrun).2 _ hradius⟩

end FixedRaster.Memory
