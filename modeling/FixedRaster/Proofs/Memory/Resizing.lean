import Mathlib
import FixedRaster.Memory.Filters
import FixedRaster.Proofs.Memory.Granting
import FixedRaster.Proofs.Resize.Resampling

/-!
# The resize on a store is the resize of arrays

The result is written over the source, and possibly over the horizontal kernel, once the first pass
has read both; the vertical kernel and the intermediate image stay as they are until the second
pass has read them. So each pass finds in the store what the resize of arrays finds in its arrays.
-/

namespace FixedRaster.Memory
open Element Resize

theorem kernel?_eq_ok_iff {bytes : Array UInt8} {offset source count : ℕ} {k : Kernel} :
    Store.kernel? bytes offset source count = .ok k ↔
      ∃ ws, weight.decodeAll? offset bytes = .ok ws ∧
        Kernel.ofPacked? ws.toList source count = .ok k := by
  rw [Store.kernel?]
  cases weight.decodeAll? offset bytes with
  | error f => simp [bind, Except.bind]
  | ok ws => simp [bind, Except.bind]

theorem kernel?_ne_outOfRange {bytes : Array UInt8} {offset source count : ℕ} {f : Fault}
    (h : Store.kernel? bytes offset source count = .error f) : f ≠ .outOfRange := by
  rw [Store.kernel?] at h
  cases hdecode : weight.decodeAll? offset bytes with
  | error fault =>
    rw [hdecode] at h
    cases h
    exact decodeAll?_ne_outOfRange hdecode
  | ok ws =>
    rw [hdecode] at h
    exact Kernel.ne_outOfRange h

section
variable {s : Store} {read kernel middle target : Region} {source count : ℕ} {k : Kernel}
  {withAlpha : Bool}

theorem exists_run_firstPass {width height : ℕ} {rows : List Taps} {samples samples' : Array UInt16}
    (hread : read.Within s.bytes) (hkernel : kernel.Within s.bytes)
    (hmiddle : middle.Within s.bytes)
    (hapart : ¬ middle.Meets read) (hapart' : ¬ middle.Meets kernel)
    (hk : Store.kernel? (kernel.of s.bytes) kernel.offset source count = .ok k)
    (hrows : k.rows? = some rows)
    (hsamples : sample.decodeAll? middle.offset (middle.of s.bytes) = .ok samples)
    (hpass : firstPass? withAlpha (read.of s.bytes) width height rows samples = some samples')
    (hsize : samples'.size = samples.size) :
    ∃ s', (Store.onPieces #v[middle] fun parts => do
        let pixels ← parts.read? read
        let kernel ← Store.kernel? (← parts.read? kernel) kernel.offset source count
        asElements .sample middle.offset 0 <| Edit.work fun samples => do
          firstPass? withAlpha pixels width height (← kernel.rows?) samples).run s = .ok () s' ∧
      Frame [middle] s.bytes s'.bytes ∧ middle.of s'.bytes = sample.encodeAll samples' := by
  have hbytes := (aligned_of_decodeAll? hsamples).2
  rw [Region.size_of hmiddle.stop_le] at hbytes
  apply exists_run_onPiece hmiddle
  · intro p hp
    have hpixels := hp.read_eq read hread (by simpa using hapart)
    have hweights := hp.read_eq kernel hkernel (by simpa using hapart')
    simp only [Edit.run_check_bind, hpixels, hweights, hk]
    refine run_asElements_of hsamples (Edit.run_work_some ?_)
    simp only [hrows, Option.bind_eq_bind, Option.bind_some, hpass]
  · rw [size_encodeAll faithful_sample, hsize]
    exact hbytes

theorem exists_run_secondPass {width height : ℕ} {columns : List Taps} {samples : Array UInt16}
    {bytes : Array UInt8}
    (hkernel : kernel.Within s.bytes) (hmiddle : middle.Within s.bytes)
    (htarget : target.Within s.bytes)
    (hapart : ¬ target.Meets middle) (hapart' : ¬ target.Meets kernel)
    (hk : Store.kernel? (kernel.of s.bytes) kernel.offset source count = .ok k)
    (hcolumns : k.rows? = some columns)
    (hsamples : sample.decodeAll? middle.offset (middle.of s.bytes) = .ok samples)
    (hpass : secondPass? withAlpha samples width height columns (target.of s.bytes) = some bytes)
    (hsize : bytes.size = target.length) :
    ∃ s', (Store.onPieces #v[target] fun parts => do
        let samples ← sample.decodeAll? middle.offset (← parts.read? middle)
        let kernel ← Store.kernel? (← parts.read? kernel) kernel.offset source count
        let pass : Edit (Array UInt8) Unit := Edit.work fun bytes => do
          secondPass? withAlpha samples width height (← kernel.rows?) bytes
        pass.within (·[0]) fun bytes _ => #v[bytes]).run s = .ok () s' ∧
      Frame [target] s.bytes s'.bytes ∧ target.of s'.bytes = bytes := by
  apply exists_run_onPiece htarget _ hsize
  intro p hp
  have hmid := hp.read_eq middle hmiddle (by simpa using hapart)
  have hweights := hp.read_eq kernel hkernel (by simpa using hapart')
  simp only [Edit.run_check_bind, hmid, hsamples, hweights, hk]
  apply Edit.run_within_ok
  apply Edit.run_work_some
  simp only [hcolumns, Option.bind_eq_bind, Option.bind_some]
  exact hpass

end

/-- What a resize on a store is granted on: extents, regions, two kernels, and an intermediate image
and a result that spare what is read after they are written. -/
structure ResizeLayout (s : Store) (image horizontal horizontalLength vertical verticalLength
    middle : ℕ) (sourceWidth sourceHeight targetWidth targetHeight : UInt32)
    (source target : Extent) (across down : Array Int16) : Prop where
  source_eq : Extent.of? sourceWidth sourceHeight = .ok source
  target_eq : Extent.of? targetWidth targetHeight = .ok target
  image_holds : s.Holds 1 image source.bytes
  target_holds : s.Holds 1 image target.bytes
  horizontal_holds : s.Holds 2 horizontal horizontalLength
  vertical_holds : s.Holds 2 vertical verticalLength
  middle_holds : s.Holds 2 middle (middleCount source target)
  middle_image : ¬ Region.Meets ⟨middle, middleCount source target * 2⟩ ⟨image, source.bytes⟩
  middle_horizontal : ¬ Region.Meets ⟨middle, middleCount source target * 2⟩
    ⟨horizontal, horizontalLength * 2⟩
  middle_vertical : ¬ Region.Meets ⟨middle, middleCount source target * 2⟩
    ⟨vertical, verticalLength * 2⟩
  target_middle : ¬ Region.Meets ⟨image, target.bytes⟩ ⟨middle, middleCount source target * 2⟩
  target_vertical : ¬ Region.Meets ⟨image, target.bytes⟩ ⟨vertical, verticalLength * 2⟩
  across_eq : weight.decodeAll? horizontal (Region.of ⟨horizontal, horizontalLength * 2⟩ s.bytes) =
    .ok across
  down_eq : weight.decodeAll? vertical (Region.of ⟨vertical, verticalLength * 2⟩ s.bytes) = .ok down
  across_accepted : ∃ k, Kernel.ofPacked? across.toList source.width target.width = .ok k
  down_accepted : ∃ k, Kernel.ofPacked? down.toList source.height target.height = .ok k

section
variable {s : Store} {image horizontal horizontalLength vertical verticalLength middle : ℕ}
  {sourceWidth sourceHeight targetWidth targetHeight : UInt32}

theorem resample_refused_or_layout (s : Store)
    (image horizontal horizontalLength vertical verticalLength middle : ℕ)
    {sourceWidth sourceHeight targetWidth targetHeight : UInt32}
    (hroom : 4 * sourceHeight.toNat * targetWidth.toNat < 2 ^ 64) (withAlpha : Bool) :
    Edit.Refused (Store.resample image horizontal horizontalLength vertical verticalLength middle
      sourceWidth sourceHeight targetWidth targetHeight withAlpha) s ∨
    ∃ source target across down, ResizeLayout s image horizontal horizontalLength vertical
      verticalLength middle sourceWidth sourceHeight targetWidth targetHeight source target across
      down := by
  obtain ⟨n, hlength, hn⟩ := exists_middleLength hroom
  rw [Store.resample, hlength]
  refine Edit.refused_or_check (fun _ => Extent.ne_outOfRange) fun source hsource => ?_
  refine Edit.refused_or_check (fun _ => Extent.ne_outOfRange) fun target htarget => ?_
  refine Edit.refused_or_get ?_
  refine Store.refused_or_region fun himage => ?_
  refine Store.refused_or_region fun hspace => ?_
  refine Store.refused_or_region fun hhorizontal => ?_
  refine Store.refused_or_region fun hvertical => ?_
  refine Edit.refused_or_check (by simp) fun _ hword => ?_
  obtain rfl : n = _ := Except.ok.inj hword
  rw [hn, ← middleCount_eq hsource htarget]
  refine Store.refused_or_region fun hsamples => ?_
  refine Edit.refused_or_check (fun _ => checkDisjoint_ne_outOfRange) fun _ hmiddle => ?_
  refine Edit.refused_or_check (fun _ => checkDisjoint_ne_outOfRange) fun _ htarget' => ?_
  refine Edit.refused_or_check (fun _ => kernel?_ne_outOfRange) fun _ hacross => ?_
  refine Edit.refused_or_check (fun _ => kernel?_ne_outOfRange) fun _ hdown => ?_
  obtain ⟨across, hdecode, hfits⟩ := kernel?_eq_ok_iff.1 hacross
  obtain ⟨down, hdecode', hfits'⟩ := kernel?_eq_ok_iff.1 hdown
  have hfree := (checkDisjoint_eq_ok_iff.1 hmiddle).2 _ (List.mem_singleton_self _)
  have hfree' := (checkDisjoint_eq_ok_iff.1 htarget').2 _ (List.mem_singleton_self _)
  simp only [Nat.mul_one, List.mem_cons, List.not_mem_nil, or_false, forall_eq_or_imp,
    forall_eq] at hfree hfree'
  exact .inr ⟨source, target, across, down, hsource, htarget, himage, hspace, hhorizontal,
    hvertical, hsamples, hfree.1, hfree.2.1, hfree.2.2, hfree'.1, hfree'.2, hdecode, hdecode',
    ⟨_, hfits⟩, ⟨_, hfits'⟩⟩

theorem ResizeLayout.disjoint {source target : Extent} {across down : Array Int16}
    (h : ResizeLayout s image horizontal horizontalLength vertical verticalLength middle sourceWidth
      sourceHeight targetWidth targetHeight source target across down) :
    checkDisjoint [⟨middle, middleCount source target * 2⟩]
        [⟨image, source.bytes⟩, ⟨horizontal, horizontalLength * 2⟩,
          ⟨vertical, verticalLength * 2⟩] = .ok () ∧
      checkDisjoint [⟨image, target.bytes⟩]
        [⟨middle, middleCount source target * 2⟩, ⟨vertical, verticalLength * 2⟩] = .ok () := by
  simp only [checkDisjoint_eq_ok_iff, List.pairwise_singleton, List.mem_cons, List.not_mem_nil,
    or_false, forall_eq_or_imp, forall_eq, true_and]
  exact ⟨⟨h.middle_image, h.middle_horizontal, h.middle_vertical⟩, h.target_middle,
    h.target_vertical⟩

theorem ResizeLayout.room {source target : Extent} {across down : Array Int16}
    (h : ResizeLayout s image horizontal horizontalLength vertical verticalLength middle sourceWidth
      sourceHeight targetWidth targetHeight source target across down) :
    4 * sourceHeight.toNat * targetWidth.toNat < 2 ^ 64 := by
  have hlt := h.middle_holds.stop_lt
  rw [middleCount_eq h.source_eq h.target_eq, wordLimit] at hlt
  omega

theorem ResizeLayout.sizes {source target : Extent} {across down : Array Int16}
    (h : ResizeLayout s image horizontal horizontalLength vertical verticalLength middle sourceWidth
      sourceHeight targetWidth targetHeight source target across down) :
    across.size = horizontalLength ∧ down.size = verticalLength := by
  obtain ⟨xs, hxs, hxsize⟩ := exists_weights h.horizontal_holds
  obtain ⟨ys, hys, hysize⟩ := exists_weights h.vertical_holds
  obtain rfl : xs = across := Except.ok.inj (hxs.symm.trans h.across_eq)
  obtain rfl : ys = down := Except.ok.inj (hys.symm.trans h.down_eq)
  exact ⟨hxsize, hysize⟩

theorem ResizeLayout.kernels_pos {source target : Extent} {across down : Array Int16}
    (h : ResizeLayout s image horizontal horizontalLength vertical verticalLength middle sourceWidth
      sourceHeight targetWidth targetHeight source target across down) :
    0 < horizontalLength * 2 ∧ 0 < verticalLength * 2 := by
  obtain ⟨_, hacross⟩ := h.across_accepted
  obtain ⟨_, hdown⟩ := h.down_accepted
  have hrows := Kernel.two_le_of_ofPacked? target.width_pos hacross
  have hcolumns := Kernel.two_le_of_ofPacked? target.height_pos hdown
  obtain ⟨hsize, hsize'⟩ := h.sizes
  rw [Array.length_toList] at hrows hcolumns
  omega

/-- A resize on a store with a layout that is granted is the two passes of the resize of arrays, on
the bytes that the store held before. -/
theorem ResizeLayout.exists_run {source target : Extent} {across down : Array Int16}
    (h : ResizeLayout s image horizontal horizontalLength vertical verticalLength middle sourceWidth
      sourceHeight targetWidth targetHeight source target across down) (withAlpha : Bool) :
    ∃ s' canvas final, (Store.resample image horizontal horizontalLength vertical verticalLength
        middle sourceWidth sourceHeight targetWidth targetHeight withAlpha).run s = .ok () s' ∧
      canvas.target.size = target.bytes ∧ canvas.middle.size = middleCount source target ∧
      (Resize.resample (Region.of ⟨image, source.bytes⟩ s.bytes) across.toList down.toList
        sourceWidth sourceHeight targetWidth targetHeight withAlpha).run canvas = .ok () final ∧
      Region.of ⟨image, target.bytes⟩ s'.bytes = final.target ∧
      Region.of ⟨middle, middleCount source target * 2⟩ s'.bytes =
        sample.encodeAll final.middle ∧
      Frame [⟨image, target.bytes⟩, ⟨middle, middleCount source target * 2⟩] s.bytes s'.bytes := by
  obtain ⟨rowKernel, hrowKernel⟩ := h.across_accepted
  obtain ⟨columnKernel, hcolumnKernel⟩ := h.down_accepted
  obtain ⟨hhpos, hvpos⟩ := h.kernels_pos
  have hcount := middleCount_pos source target
  have himage := h.image_holds.bytes_within
  have htarget := h.target_holds.bytes_within
  have hmiddle := h.middle_holds.within (by omega)
  have hhorizontal := h.horizontal_holds.within hhpos
  have hvertical := h.vertical_holds.within hvpos
  obtain ⟨samples, hsamples, hsize⟩ := exists_samples h.middle_holds
  let pixels := Region.of ⟨image, source.bytes⟩ s.bytes
  let canvas : Canvas := ⟨Region.of ⟨image, target.bytes⟩ s.bytes, samples⟩
  have hadmits : Admits pixels across.toList down.toList sourceWidth sourceHeight targetWidth
      targetHeight canvas source target rowKernel columnKernel := by
    refine ⟨h.source_eq, h.target_eq, ?_, ?_, h.room, ?_, hrowKernel, hcolumnKernel⟩
    · exact (Region.size_of himage.stop_le).ge
    · exact (Region.size_of htarget.stop_le).ge
    · rw [← middleCount_eq h.source_eq h.target_eq]
      exact hsize.ge
  obtain ⟨final, _, _, hpasses, -, -, -, -, -, -, hmid, hout⟩ :=
    passes?_rendered hadmits withAlpha
  obtain ⟨⟨rows, hrows, hfirst⟩, columns, hcolumns, hsecond⟩ := passes?_eq_some_iff.1 hpasses
  have hmidsize : final.middle.size = samples.size := hmid.size_eq
  have houtsize : final.target.size = target.bytes :=
    hout.size_eq.trans (Region.size_of htarget.stop_le)
  have hacross : Store.kernel? (Region.of ⟨horizontal, horizontalLength * 2⟩ s.bytes) horizontal
      source.width target.width = .ok rowKernel :=
    kernel?_eq_ok_iff.2 ⟨across, h.across_eq, hrowKernel⟩
  have hdown : Store.kernel? (Region.of ⟨vertical, verticalLength * 2⟩ s.bytes) vertical
      source.height target.height = .ok columnKernel :=
    kernel?_eq_ok_iff.2 ⟨down, h.down_eq, hcolumnKernel⟩
  obtain ⟨s₁, hrun₁, hframe₁, hmid₁⟩ := exists_run_firstPass himage hhorizontal hmiddle
    h.middle_image h.middle_horizontal hacross hrows hsamples hfirst hmidsize
  -- the first pass has written the intermediate image only
  have hdown₁ := hdown
  rw [← hframe₁.of_eq (by simpa using h.middle_vertical)] at hdown₁
  have hsecond₁ : secondPass? withAlpha final.middle target.width source.height columns
      (Region.of ⟨image, target.bytes⟩ s₁.bytes) = some final.target := by
    rw [hframe₁.of_eq (by simpa using mt Region.meets_comm.1 h.target_middle)]
    exact hsecond
  obtain ⟨s₂, hrun₂, hframe₂, hout₂⟩ := exists_run_secondPass (hvertical.of_frame hframe₁)
    (hmiddle.of_frame hframe₁) (htarget.of_frame hframe₁) h.target_middle h.target_vertical hdown₁
    hcolumns (by rw [hmid₁]; exact decodeAll?_encodeAll faithful_sample h.middle_holds.aligned _)
    hsecond₁ houtsize
  have hfinal : (Resize.resample pixels across.toList down.toList sourceWidth sourceHeight
      targetWidth targetHeight withAlpha).run canvas = .ok () final := by
    rw [run_resample_of_admits hadmits]
    exact Edit.run_work_some hpasses
  refine ⟨s₂, canvas, final, ?_, Region.size_of htarget.stop_le, hsize, hfinal, hout₂, ?_,
    (hframe₁.mono (by simp)).trans (hframe₂.mono (by simp))⟩
  · have hview : Store.kernel? (s.view ⟨horizontal, horizontalLength * 2⟩) horizontal source.width
        target.width = .ok rowKernel := hacross
    have hview' : Store.kernel? (s.view ⟨vertical, verticalLength * 2⟩) vertical source.height
        target.height = .ok columnKernel := hdown
    obtain ⟨n, hlength, hn⟩ := exists_middleLength h.room
    rw [← middleCount_eq h.source_eq h.target_eq] at hn
    rw [Store.resample]
    simp only [Edit.run_check_bind, Edit.run_get_bind, h.source_eq, h.target_eq, hlength, hn,
      h.image_holds.region?_eq, h.target_holds.region?_eq, h.horizontal_holds.region?_eq,
      h.vertical_holds.region?_eq, h.middle_holds.region?_eq, Nat.mul_one, h.disjoint.1,
      h.disjoint.2, hview, hview']
    exact Edit.run_bind_ok_iff.2 ⟨(), s₁, hrun₁, hrun₂⟩
  · rw [hframe₂.of_eq (by simpa using h.target_middle)]
    exact hmid₁

theorem resample_atomic (s : Store)
    (image horizontal horizontalLength vertical verticalLength middle : ℕ) (sourceWidth : UInt32)
    {sourceHeight targetWidth : UInt32} (targetHeight : UInt32)
    (hroom : 4 * sourceHeight.toNat * targetWidth.toNat < 2 ^ 64) (withAlpha : Bool) :
    Edit.Atomic (Store.resample image horizontal horizontalLength vertical verticalLength middle
        sourceWidth sourceHeight targetWidth targetHeight withAlpha) s
      (∃ source target across down, ResizeLayout s image horizontal horizontalLength vertical
        verticalLength middle sourceWidth sourceHeight targetWidth targetHeight source target across
        down) := by
  apply Edit.atomic_of_cases (resample_refused_or_layout s _ _ _ _ _ _ hroom withAlpha)
  rintro ⟨source, target, across, down, h⟩
  obtain ⟨s', -, -, hrun, -⟩ := h.exists_run withAlpha
  exact ⟨(), s', hrun⟩

theorem exists_layout_of_run {s' : Store} {withAlpha : Bool}
    (hrun : (Store.resample image horizontal horizontalLength vertical verticalLength middle
      sourceWidth sourceHeight targetWidth targetHeight withAlpha).run s = .ok () s') :
    ∃ source target across down, ResizeLayout s image horizontal horizontalLength vertical
      verticalLength middle sourceWidth sourceHeight targetWidth targetHeight source target across
      down := by
  have hroom : 4 * sourceHeight.toNat * targetWidth.toNat < 2 ^ 64 := by
    simp only [Store.resample, Edit.run_check_bind_ok_iff, Edit.run_get_bind] at hrun
    obtain ⟨_, -, _, -, _, -, _, -, _, -, _, -, n, hlength, -⟩ := hrun
    exact (middleLength_eq_ok_iff.1 hlength).1
  have hatomic := resample_atomic s image horizontal horizontalLength vertical verticalLength middle
    sourceWidth targetHeight hroom withAlpha
  exact hatomic.ok_iff.1 ⟨(), s', hrun⟩

theorem resample_eq_arrays {s' : Store} {withAlpha : Bool}
    (hrun : (Store.resample image horizontal horizontalLength vertical verticalLength middle
      sourceWidth sourceHeight targetWidth targetHeight withAlpha).run s = .ok () s') :
    ∃ (source target : Extent) (across down : Array Int16),
      Extent.of? sourceWidth sourceHeight = .ok source ∧
      Extent.of? targetWidth targetHeight = .ok target ∧
      weight.decodeAll? horizontal (Region.of ⟨horizontal, horizontalLength * 2⟩ s.bytes) =
        .ok across ∧
      weight.decodeAll? vertical (Region.of ⟨vertical, verticalLength * 2⟩ s.bytes) = .ok down ∧
      across.size = horizontalLength ∧ down.size = verticalLength ∧
      Frame [⟨image, target.bytes⟩, ⟨middle, middleCount source target * 2⟩] s.bytes s'.bytes ∧
      ∀ canvas : Canvas, canvas.target.size = target.bytes →
        canvas.middle.size = middleCount source target →
        ∃ canvas', (Resize.resample (Region.of ⟨image, source.bytes⟩ s.bytes) across.toList
            down.toList sourceWidth sourceHeight targetWidth targetHeight withAlpha).run canvas =
            .ok () canvas' ∧
          Region.of ⟨image, target.bytes⟩ s'.bytes = canvas'.target ∧
          Region.of ⟨middle, middleCount source target * 2⟩ s'.bytes =
            sample.encodeAll canvas'.middle := by
  obtain ⟨source, target, across, down, h⟩ := exists_layout_of_run hrun
  obtain ⟨s'', canvas, final, hrun', hsize, hsize', hfinal, hout, hmid, hframe⟩ :=
    h.exists_run withAlpha
  rw [hrun] at hrun'
  cases hrun'
  obtain ⟨hacross, hdown⟩ := h.sizes
  refine ⟨source, target, across, down, h.source_eq, h.target_eq, h.across_eq, h.down_eq,
    hacross, hdown, hframe, ?_⟩
  intro other htarget hmiddle
  rw [Extent.bytes_eq h.target_eq] at hsize htarget
  rw [middleCount_eq h.source_eq h.target_eq] at hsize' hmiddle
  exact ⟨final, run_eq_of_sizes hfinal hsize hsize' htarget hmiddle, hout, hmid⟩

def crowded : Store :=
  ⟨#[10, 20, 30, 255, 0, 0, 1, 0, 0, 64, 0, 0, 1, 0, 0, 64] ++ Array.replicate 16 9⟩

theorem resample_crowded :
    ∃ s', (Store.resample 0 4 6 10 3 16 1 1 2 1 true).run crowded = .ok () s' ∧
      ∃ (source target : Extent) (across down : Array Int16),
        Extent.of? 1 1 = .ok source ∧ Extent.of? 2 1 = .ok target ∧
        weight.decodeAll? 4 (Region.of ⟨4, 6 * 2⟩ crowded.bytes) = .ok across ∧
        weight.decodeAll? 10 (Region.of ⟨10, 3 * 2⟩ crowded.bytes) = .ok down ∧
        across.size = 6 ∧ down.size = 3 ∧
        Frame [⟨0, target.bytes⟩, ⟨16, middleCount source target * 2⟩] crowded.bytes s'.bytes ∧
        ∀ canvas : Canvas, canvas.target.size = target.bytes →
          canvas.middle.size = middleCount source target →
          ∃ canvas', (Resize.resample (Region.of ⟨0, source.bytes⟩ crowded.bytes) across.toList
              down.toList 1 1 2 1 true).run canvas = .ok () canvas' ∧
            Region.of ⟨0, target.bytes⟩ s'.bytes = canvas'.target ∧
            Region.of ⟨16, middleCount source target * 2⟩ s'.bytes =
              sample.encodeAll canvas'.middle := by
  have hfinished : Edit.finished ((Store.resample 0 4 6 10 3 16 1 1 2 1 true).run crowded) =
      true := by
    decide +kernel
  obtain ⟨_, s', hrun⟩ := Edit.exists_ok_of_finished hfinished
  exact ⟨s', hrun, resample_eq_arrays hrun⟩

end

end FixedRaster.Memory
