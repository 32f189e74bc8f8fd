import Mathlib
import FixedRaster.Proofs.Checks
import FixedRaster.Proofs.Decoding
import FixedRaster.Proofs.Resize.Middle
import FixedRaster.Proofs.Resize.Refinement
import FixedRaster.Proofs.Resize.Writes
/-!
# A resize is its exact reference

A call that passes its checks runs both passes to the end, and then every byte of the target and
every sample of the intermediate image is the one of the unbounded reference.
-/

namespace FixedRaster.Resize

/-- What the checks of a resize establish before the first sample is written. -/
structure Admits (image : Array UInt8) (horizontal vertical : List Int16)
    (sourceWidth sourceHeight targetWidth targetHeight : UInt32) (canvas : Canvas)
    (source target : Extent) (across down : Kernel) : Prop where
  source_eq : Extent.of? sourceWidth sourceHeight = .ok source
  target_eq : Extent.of? targetWidth targetHeight = .ok target
  image_le : source.bytes ≤ image.size
  target_le : target.bytes ≤ canvas.target.size
  room : 4 * sourceHeight.toNat * targetWidth.toNat < 2 ^ 64
  middle_le : 4 * sourceHeight.toNat * targetWidth.toNat ≤ canvas.middle.size
  across_eq : Kernel.ofPacked? horizontal source.width target.width = .ok across
  down_eq : Kernel.ofPacked? vertical source.height target.height = .ok down

section
variable {image : Array UInt8} {horizontal vertical : List Int16}
  {sourceWidth sourceHeight targetWidth targetHeight : UInt32} {canvas : Canvas}

theorem run_resample_of_admits {source target : Extent} {across down : Kernel}
    (h : Admits image horizontal vertical sourceWidth sourceHeight targetWidth targetHeight canvas
      source target across down) (withAlpha : Bool) :
    (resample image horizontal vertical sourceWidth sourceHeight targetWidth targetHeight
      withAlpha).run canvas =
      (Edit.work (passes? withAlpha image source target across down)).run canvas := by
  have himage : requireLength "resample source image" source.bytes image.size = .ok () :=
    requireLength_eq_ok_iff.2 h.image_le
  have htarget : requireLength "resample destination image" target.bytes canvas.target.size =
      .ok () :=
    requireLength_eq_ok_iff.2 h.target_le
  obtain ⟨n, hlength, hn⟩ := exists_middleLength h.room
  have hmiddle : requireLength "resample intermediate buffer" n.toNat canvas.middle.size =
      .ok () :=
    requireLength_eq_ok_iff.2 (hn ▸ h.middle_le)
  simp only [resample, Extent.coversImage, Edit.run_check_bind, Edit.run_get_bind, h.source_eq,
    h.target_eq, himage, htarget, hlength, hmiddle, h.across_eq, h.down_eq]

theorem resample_refused_or_admits (image : Array UInt8) (horizontal vertical : List Int16)
    (sourceWidth : UInt32) {sourceHeight targetWidth : UInt32} (targetHeight : UInt32)
    (hroom : 4 * sourceHeight.toNat * targetWidth.toNat < 2 ^ 64) (withAlpha : Bool)
    (canvas : Canvas) :
    Edit.Refused (resample image horizontal vertical sourceWidth sourceHeight targetWidth
      targetHeight withAlpha) canvas ∨
    ∃ source target across down, Admits image horizontal vertical sourceWidth sourceHeight
      targetWidth targetHeight canvas source target across down := by
  obtain ⟨n, hlength, hn⟩ := exists_middleLength hroom
  rw [resample, hlength]
  refine Edit.refused_or_check (fun _ => Extent.ne_outOfRange) fun source hsource => ?_
  refine Edit.refused_or_check (fun _ => Extent.ne_outOfRange) fun target htarget => ?_
  refine Edit.refused_or_check (fun _ => requireLength_ne_outOfRange) fun _ himage => ?_
  refine Edit.refused_or_get ?_
  refine Edit.refused_or_check (fun _ => requireLength_ne_outOfRange) fun _ hspace => ?_
  refine Edit.refused_or_check (by simp) fun _ hword => ?_
  obtain rfl : n = _ := Except.ok.inj hword
  refine Edit.refused_or_get ?_
  refine Edit.refused_or_check (fun _ => requireLength_ne_outOfRange) fun _ hmiddle => ?_
  refine Edit.refused_or_check (fun _ => Kernel.ne_outOfRange) fun across hacross => ?_
  refine Edit.refused_or_check (fun _ => Kernel.ne_outOfRange) fun down hdown => ?_
  rw [requireLength_eq_ok_iff, hn] at hmiddle
  exact .inr ⟨source, target, across, down, hsource, htarget, requireLength_eq_ok_iff.1 himage,
    requireLength_eq_ok_iff.1 hspace, hroom, hmiddle, hacross, hdown⟩

theorem exists_admits_of_run {withAlpha : Bool} {final : Canvas}
    (hrun : (resample image horizontal vertical sourceWidth sourceHeight targetWidth targetHeight
      withAlpha).run canvas = .ok () final) :
    ∃ source target across down, Admits image horizontal vertical sourceWidth sourceHeight
      targetWidth targetHeight canvas source target across down := by
  simp only [resample, Edit.run_check_bind_ok_iff, Edit.run_get_bind] at hrun
  obtain ⟨source, hsource, target, htarget, _, himage, _, hspace, n, hlength, _, hmiddle, across,
    hacross, down, hdown, -⟩ := hrun
  obtain ⟨hroom, hn⟩ := middleLength_eq_ok_iff.1 hlength
  rw [requireLength_eq_ok_iff, hn] at hmiddle
  exact ⟨source, target, across, down, hsource, htarget, requireLength_eq_ok_iff.1 himage,
    requireLength_eq_ok_iff.1 hspace, hroom, hmiddle, hacross, hdown⟩

theorem run_resampleGrowing (hroom : 4 * sourceHeight.toNat * targetWidth.toNat < 2 ^ 64)
    (withAlpha : Bool) :
    (resampleGrowing image horizontal vertical sourceWidth sourceHeight targetWidth targetHeight
      withAlpha).run canvas =
      (resample image horizontal vertical sourceWidth sourceHeight targetWidth targetHeight
        withAlpha).run { canvas with
          middle := grown canvas.middle (4 * sourceHeight.toNat * targetWidth.toNat) 0 } := by
  obtain ⟨n, hlength, hn⟩ := exists_middleLength hroom
  rw [resampleGrowing, Edit.run_check_bind_of_ok hlength, Edit.run_modify_bind, hn]

theorem passes?_rendered {source target : Extent} {across down : Kernel}
    (h : Admits image horizontal vertical sourceWidth sourceHeight targetWidth targetHeight canvas
      source target across down) (withAlpha : Bool) :
    ∃ (final : Canvas) (rows columns : List Taps),
      passes? withAlpha image source target across down canvas = some final ∧
      across.rows? = some rows ∧ rows.length = target.width ∧
      (∀ t ∈ rows, t.Fits source.width) ∧
      down.rows? = some columns ∧ columns.length = target.height ∧
      (∀ t ∈ columns, t.Fits source.height) ∧
      Rendered rows source.height
        (fun y => (if withAlpha then acrossWithAlpha else Resize.across) image (y * source.width))
        canvas.middle final.middle ∧
      Rendered columns target.width
        (fun x => (if withAlpha then downWithAlpha else Resize.down) final.middle
          (x * source.height))
        canvas.target final.target := by
  obtain ⟨rows, hrows, hrlen, hrfit⟩ := Kernel.exists_rows_of_ofPacked? h.across_eq
  obtain ⟨columns, hcolumns, hclen, hcfit⟩ := Kernel.exists_rows_of_ofPacked? h.down_eq
  have himage : source.width * source.height * 4 ≤ image.size := h.image_le
  have hmiddle : target.width * source.height * 4 ≤ canvas.middle.size := by
    have hcount : target.width * source.height * 4 = middleCount source target := by
      rw [middleCount]
      ring
    rw [hcount, middleCount_eq h.source_eq h.target_eq]
    exact h.middle_le
  have htarget : target.height * target.width * 4 ≤ canvas.target.size := by
    have : target.width * target.height * 4 ≤ canvas.target.size := h.target_le
    rwa [Nat.mul_comm target.height]
  obtain ⟨middle, hfirst, hmid⟩ := pass?_rendered
    (fun y => (if withAlpha then acrossWithAlpha else Resize.across) image (y * source.width))
    (fun t ht => (hrfit t ht).stop_le) (by rw [hrlen]; exact hmiddle)
  obtain ⟨bytes, hsecond, hout⟩ := pass?_rendered
    (fun x => (if withAlpha then downWithAlpha else Resize.down) middle (x * source.height))
    (fun t ht => (hcfit t ht).stop_le) (by rw [hclen]; exact htarget)
  refine ⟨⟨bytes, middle⟩, rows, columns, ?_, hrows, hrlen, hrfit, hcolumns, hclen, hcfit, hmid,
    hout⟩
  have hroom' : target.width * source.height * 4 ≤ middle.size := by
    rw [hmid.size_eq]
    exact hmiddle
  simp only [passes?, firstPass?, secondPass?, hrows, hcolumns, Option.bind_eq_bind,
    Option.bind_some, guard, if_pos himage, if_pos hroom', hfirst, hsecond, Option.pure_def]

end

/-- The front of both buffers of a canvas is made of exact samples and exact pixels, and what lies
behind is as before. -/
structure Resampled (rows columns : List Taps) (height width : ℕ)
    (sample : Taps → ℕ → Channel → ℤ) (pixel : Taps → (ℕ → Channel → ℤ) → Channel → ℤ)
    (before after : Canvas) : Prop where
  middle_eq : ∀ (x : ℕ) (t : Taps), rows[x]? = some t → ∀ y < height, ∀ c : Channel,
    ∃ v, after.middle[(x * height + y) * 4 + c]? = some v ∧ (v.toNat : ℤ) = sample t y c
  target_eq : ∀ (x y : ℕ) (t u : Taps), rows[x]? = some t → columns[y]? = some u →
    ∀ c : Channel, ∃ b, after.target[(y * width + x) * 4 + c]? = some b ∧
      (b.toNat : ℤ) = pixel u (sample t) c
  middle_behind : ∀ i, rows.length * height * 4 ≤ i → after.middle[i]? = before.middle[i]?
  target_behind : ∀ i, columns.length * width * 4 ≤ i → after.target[i]? = before.target[i]?

theorem level_eq_of_rendered {rows : List Taps} {height : ℕ}
    {value : ℕ → Taps → Channel → UInt16} {before after : Array UInt16}
    (h : Rendered rows height value before after) {x y : ℕ} {t : Taps} (hx : rows[x]? = some t)
    (hy : y < height) (c : Channel) :
    level after (x * height + y) c = (value y t c).toNat := by
  rw [level, Array.getD_eq_getD_getElem?, h.pixel_eq x t hx y hy c, Option.getD_some]

theorem resampled_of_rendered {withAlpha : Bool} {image : Array UInt8}
    {rows columns : List Taps} {height width sourceWidth : ℕ} {before after : Canvas}
    (hrows : ∀ t ∈ rows, t.Fits sourceWidth) (hcolumns : ∀ t ∈ columns, t.Fits height)
    (hlength : rows.length = width)
    (hmiddle : Rendered rows height
      (fun y => (if withAlpha then acrossWithAlpha else Resize.across) image (y * sourceWidth))
      before.middle after.middle)
    (htarget : Rendered columns width
      (fun x => (if withAlpha then downWithAlpha else Resize.down) after.middle (x * height))
      before.target after.target) :
    Resampled rows columns height width (Exact.sampleOf withAlpha image sourceWidth)
      (Exact.pixelOf withAlpha) before after := by
  refine ⟨?_, ?_, hmiddle.behind_eq, htarget.behind_eq⟩
  · intro x t hx y hy c
    have ht := hrows t (List.mem_of_getElem? hx)
    exact ⟨_, hmiddle.pixel_eq x t hx y hy c, toNat_acrossOf ht.mass_le withAlpha image _ y c⟩
  · intro x y t u hx hy c
    have ht := hrows t (List.mem_of_getElem? hx)
    have hu := hcolumns u (List.mem_of_getElem? hy)
    have hlt : x < width := hlength ▸ (List.getElem?_eq_some_iff.1 hx).1
    refine ⟨_, htarget.pixel_eq y u hy x hlt c, ?_⟩
    rw [toNat_downOf hu.mass_le]
    apply Exact.pixelOf_congr
    intro c j _ hj
    have hstop := hu.stop_le
    rw [level_eq_of_rendered hmiddle hx (by omega), toNat_acrossOf ht.mass_le]

section
variable {rows columns : List Taps} {height width : ℕ} {sample sample' : Taps → ℕ → Channel → ℤ}
  {pixel pixel' : Taps → (ℕ → Channel → ℤ) → Channel → ℤ} {before after before' after' : Canvas}

theorem Resampled.middle_congr (h : Resampled rows columns height width sample pixel before after)
    (h' : Resampled rows columns height width sample' pixel' before' after')
    (heq : ∀ t ∈ rows, ∀ y < height, ∀ c, sample t y c = sample' t y c) {i : ℕ}
    (hi : i < rows.length * height * 4) : after.middle[i]? = after'.middle[i]? := by
  obtain ⟨x, hx, y, hy, c, rfl⟩ := exists_channel hi
  obtain ⟨v, hv, hval⟩ := h.middle_eq x rows[x] (List.getElem?_eq_getElem hx) y hy c
  obtain ⟨v', hv', hval'⟩ := h'.middle_eq x rows[x] (List.getElem?_eq_getElem hx) y hy c
  have hsame := heq rows[x] (List.getElem_mem hx) y hy c
  have hnat : v = v' := UInt16.toNat_inj.1 (by omega)
  rw [hv, hv', hnat]

theorem Resampled.byte_congr (h : Resampled rows columns height width sample pixel before after)
    (h' : Resampled rows columns height width sample' pixel' before' after') {x y : ℕ}
    {t u : Taps} (hx : rows[x]? = some t) (hy : columns[y]? = some u) {c : Channel}
    (heq : pixel u (sample t) c = pixel' u (sample' t) c) :
    after.target[(y * width + x) * 4 + c]? = after'.target[(y * width + x) * 4 + c]? := by
  obtain ⟨b, hb, hval⟩ := h.target_eq x y t u hx hy c
  obtain ⟨b', hb', hval'⟩ := h'.target_eq x y t u hx hy c
  have hnat : b = b' := UInt8.toNat_inj.1 (by omega)
  rw [hb, hb', hnat]

theorem Resampled.target_front (h : Resampled rows columns height width sample pixel before after)
    (h' : Resampled rows columns height width sample pixel before' after')
    (hlength : rows.length = width) {i : ℕ} (hi : i < columns.length * width * 4) :
    after.target[i]? = after'.target[i]? := by
  obtain ⟨y, hy, x, hx, c, rfl⟩ := exists_channel hi
  rw [← hlength] at hx
  exact h.byte_congr h' (List.getElem?_eq_getElem hx) (List.getElem?_eq_getElem hy) rfl

theorem Resampled.channel_eq (h : Resampled rows columns height width sample pixel before after)
    {x y : ℕ} {t u : Taps} (hx : rows[x]? = some t) (hy : columns[y]? = some u) (c : Channel) :
    (((Pixel.ofImage after.target (y * width + x)).channel c).toNat : ℤ) =
      pixel u (sample t) c := by
  obtain ⟨b, hb, hval⟩ := h.target_eq x y t u hx hy c
  rw [Pixel.channel_ofImage, Array.getD_eq_getD_getElem?, hb, Option.getD_some, hval]

theorem exists_cell (hrows : rows.length = width) (hcolumns : columns.length = height) {i : ℕ}
    (hi : i < width * height) : ∃ (x y : ℕ) (t u : Taps), rows[x]? = some t ∧
      columns[y]? = some u ∧ i = y * width + x := by
  rw [Nat.mul_comm, ← hcolumns] at hi
  obtain ⟨y, hy, x, hx, rfl⟩ := exists_place hi
  rw [← hrows] at hx
  exact ⟨x, y, rows[x], columns[y], List.getElem?_eq_getElem hx, List.getElem?_eq_getElem hy, rfl⟩

end

section
variable {image : Array UInt8} {horizontal vertical : List Int16}
  {sourceWidth sourceHeight targetWidth targetHeight : UInt32} {canvas : Canvas}

theorem resample_of_admits {source target : Extent} {across down : Kernel}
    (h : Admits image horizontal vertical sourceWidth sourceHeight targetWidth targetHeight canvas
      source target across down) (withAlpha : Bool) :
    ∃ (final : Canvas) (rows columns : List Taps),
      (resample image horizontal vertical sourceWidth sourceHeight targetWidth targetHeight
        withAlpha).run canvas = .ok () final ∧
      Kernel.Reads horizontal sourceWidth.toNat targetWidth.toNat rows ∧
      rows.length = targetWidth.toNat ∧
      Kernel.Reads vertical sourceHeight.toNat targetHeight.toNat columns ∧
      columns.length = targetHeight.toNat ∧
      Resampled rows columns sourceHeight.toNat targetWidth.toNat
        (Exact.sampleOf withAlpha image sourceWidth.toNat) (Exact.pixelOf withAlpha) canvas
        final := by
  obtain ⟨hsw, hsh⟩ := Extent.of?_eq_ok_iff.1 h.source_eq
  obtain ⟨htw, hth⟩ := Extent.of?_eq_ok_iff.1 h.target_eq
  obtain ⟨final, rows, columns, hpasses, hrows, hrlen, hrfit, hcolumns, hclen, hcfit, hmiddle,
    htarget⟩ := passes?_rendered h withAlpha
  have hresampled := resampled_of_rendered hrfit hcfit hrlen hmiddle htarget
  have hacross := h.across_eq
  have hdown := h.down_eq
  rw [hsw, htw] at hacross
  rw [hsh, hth] at hdown
  rw [hsh, htw, hsw] at hresampled
  refine ⟨final, rows, columns, ?_, ⟨across, hacross, hrows⟩, hrlen.trans htw,
    ⟨down, hdown, hcolumns⟩, hclen.trans hth, hresampled⟩
  rw [run_resample_of_admits h]
  exact Edit.run_work_some hpasses

theorem exists_resampled_of_run {withAlpha : Bool} {final : Canvas}
    (hrun : (resample image horizontal vertical sourceWidth sourceHeight targetWidth targetHeight
      withAlpha).run canvas = .ok () final) :
    ∃ rows columns : List Taps,
      Kernel.Reads horizontal sourceWidth.toNat targetWidth.toNat rows ∧
      rows.length = targetWidth.toNat ∧
      Kernel.Reads vertical sourceHeight.toNat targetHeight.toNat columns ∧
      columns.length = targetHeight.toNat ∧
      Resampled rows columns sourceHeight.toNat targetWidth.toNat
        (Exact.sampleOf withAlpha image sourceWidth.toNat) (Exact.pixelOf withAlpha) canvas
        final := by
  obtain ⟨source, target, across, down, hadmits⟩ := exists_admits_of_run hrun
  obtain ⟨final', rows, columns, hrun', hresampled⟩ := resample_of_admits hadmits withAlpha
  rw [hrun] at hrun'
  cases hrun'
  exact ⟨rows, columns, hresampled⟩

theorem Admits.of_lengths {source target : Extent} {across down : Kernel} {image' : Array UInt8}
    {other : Canvas}
    (h : Admits image horizontal vertical sourceWidth sourceHeight targetWidth targetHeight canvas
      source target across down)
    (himage : sourceWidth.toNat * sourceHeight.toNat * 4 ≤ image'.size)
    (htarget : targetWidth.toNat * targetHeight.toNat * 4 ≤ other.target.size)
    (hmiddle : 4 * sourceHeight.toNat * targetWidth.toNat ≤ other.middle.size) :
    Admits image' horizontal vertical sourceWidth sourceHeight targetWidth targetHeight other
      source target across down := by
  rw [← Extent.bytes_eq h.source_eq] at himage
  rw [← Extent.bytes_eq h.target_eq] at htarget
  exact ⟨h.source_eq, h.target_eq, himage, htarget, h.room, hmiddle, h.across_eq, h.down_eq⟩

/-- A resize that succeeds does so with either flag on any other image and buffers that are long
enough, and with the same rows. -/
theorem exists_resampled_again {withAlpha : Bool} {final : Canvas}
    (hrun : (resample image horizontal vertical sourceWidth sourceHeight targetWidth targetHeight
      withAlpha).run canvas = .ok () final) {rows columns : List Taps}
    (hrows : Kernel.Reads horizontal sourceWidth.toNat targetWidth.toNat rows)
    (hcolumns : Kernel.Reads vertical sourceHeight.toNat targetHeight.toNat columns)
    (withAlpha' : Bool) {image' : Array UInt8} {other : Canvas}
    (himage : sourceWidth.toNat * sourceHeight.toNat * 4 ≤ image'.size)
    (htarget : targetWidth.toNat * targetHeight.toNat * 4 ≤ other.target.size)
    (hmiddle : 4 * sourceHeight.toNat * targetWidth.toNat ≤ other.middle.size) :
    ∃ final', (resample image' horizontal vertical sourceWidth sourceHeight targetWidth
        targetHeight withAlpha').run other = .ok () final' ∧
      Resampled rows columns sourceHeight.toNat targetWidth.toNat
        (Exact.sampleOf withAlpha' image' sourceWidth.toNat) (Exact.pixelOf withAlpha') other
        final' := by
  obtain ⟨source, target, across, down, hadmits⟩ := exists_admits_of_run hrun
  obtain ⟨final', rows', columns', hrun', hrows', -, hcolumns', -, hresampled⟩ :=
    resample_of_admits (hadmits.of_lengths himage htarget hmiddle) withAlpha'
  rw [hrows'.unique hrows, hcolumns'.unique hcolumns] at hresampled
  exact ⟨final', hrun', hresampled⟩

theorem image_le_of_run {withAlpha : Bool} {final : Canvas}
    (hrun : (resample image horizontal vertical sourceWidth sourceHeight targetWidth targetHeight
      withAlpha).run canvas = .ok () final) :
    sourceWidth.toNat * sourceHeight.toNat * 4 ≤ image.size := by
  obtain ⟨source, target, across, down, hadmits⟩ := exists_admits_of_run hrun
  rw [← Extent.bytes_eq hadmits.source_eq]
  exact hadmits.image_le

theorem resample_front_eq {withAlpha : Bool} {final : Canvas}
    (hrun : (resample image horizontal vertical sourceWidth sourceHeight targetWidth targetHeight
      withAlpha).run canvas = .ok () final) (other : Canvas)
    (htarget : targetWidth.toNat * targetHeight.toNat * 4 ≤ other.target.size)
    (hmiddle : 4 * sourceHeight.toNat * targetWidth.toNat ≤ other.middle.size) :
    ∃ final', (resample image horizontal vertical sourceWidth sourceHeight targetWidth
        targetHeight withAlpha).run other = .ok () final' ∧
      (∀ i < targetWidth.toNat * targetHeight.toNat * 4, final'.target[i]? = final.target[i]?) ∧
      ∀ i < 4 * sourceHeight.toNat * targetWidth.toNat, final'.middle[i]? = final.middle[i]? := by
  have hcount : 4 * sourceHeight.toNat * targetWidth.toNat =
      targetWidth.toNat * sourceHeight.toNat * 4 := by ring
  obtain ⟨rows, columns, hrows, -, hcolumns, -, hfirst⟩ := exists_resampled_of_run hrun
  obtain ⟨final', hrun', hsecond⟩ := exists_resampled_again hrun hrows hcolumns withAlpha
    (image_le_of_run hrun) htarget hmiddle
  refine ⟨final', hrun', ?_, ?_⟩
  · intro i hi
    apply hsecond.target_front hfirst hrows.fits.1
    rwa [hcolumns.fits.1, Nat.mul_comm targetHeight.toNat]
  · intro i hi
    exact hsecond.middle_congr hfirst (fun _ _ _ _ _ => rfl)
      (by rw [hrows.fits.1, ← hcount]; exact hi)

theorem size_of_run {withAlpha : Bool} {final : Canvas}
    (hrun : (resample image horizontal vertical sourceWidth sourceHeight targetWidth targetHeight
      withAlpha).run canvas = .ok () final) :
    final.target.size = canvas.target.size ∧ final.middle.size = canvas.middle.size := by
  obtain ⟨source, target, across, down, hadmits⟩ := exists_admits_of_run hrun
  obtain ⟨final', _, _, hpasses, -, -, -, -, -, -, hmid, hout⟩ :=
    passes?_rendered hadmits withAlpha
  rw [run_resample_of_admits hadmits, Edit.run_work_some hpasses] at hrun
  cases hrun
  exact ⟨hout.size_eq, hmid.size_eq⟩

theorem run_eq_of_sizes {withAlpha : Bool} {final other : Canvas}
    (hrun : (resample image horizontal vertical sourceWidth sourceHeight targetWidth targetHeight
      withAlpha).run canvas = .ok () final)
    (htarget : canvas.target.size = targetWidth.toNat * targetHeight.toNat * 4)
    (hmiddle : canvas.middle.size = 4 * sourceHeight.toNat * targetWidth.toNat)
    (htarget' : other.target.size = targetWidth.toNat * targetHeight.toNat * 4)
    (hmiddle' : other.middle.size = 4 * sourceHeight.toNat * targetWidth.toNat) :
    (resample image horizontal vertical sourceWidth sourceHeight targetWidth targetHeight
      withAlpha).run other = .ok () final := by
  obtain ⟨final', hrun', hfront, hfront'⟩ :=
    resample_front_eq hrun other htarget'.ge hmiddle'.ge
  obtain ⟨hsize, hsize'⟩ := size_of_run hrun
  obtain ⟨hother, hother'⟩ := size_of_run hrun'
  have hbytes : final'.target = final.target :=
    eq_of_front (hother.trans htarget') (hsize.trans htarget) hfront
  have hsamples : final'.middle = final.middle :=
    eq_of_front (hother'.trans hmiddle') (hsize'.trans hmiddle) hfront'
  obtain ⟨bytes, samples⟩ := final'
  simp only at hbytes hsamples
  rw [hrun', hbytes, hsamples]

end

theorem passes?_eq_some_iff {withAlpha : Bool} {pixels : Array UInt8} {source target : Extent}
    {across down : Kernel} {canvas final : Canvas} :
    passes? withAlpha pixels source target across down canvas = some final ↔
      (∃ rows, across.rows? = some rows ∧
        firstPass? withAlpha pixels source.width source.height rows canvas.middle =
          some final.middle) ∧
      ∃ columns, down.rows? = some columns ∧
        secondPass? withAlpha final.middle target.width source.height columns canvas.target =
          some final.target := by
  obtain ⟨bytes, samples⟩ := final
  simp only [passes?, Option.bind_eq_bind, Option.bind_eq_some_iff, Option.pure_def,
    Option.some.injEq, Canvas.mk.injEq]
  constructor
  · rintro ⟨rows, hrows, mid, hfirst, columns, hcolumns, out, hsecond, rfl, rfl⟩
    exact ⟨⟨rows, hrows, hfirst⟩, columns, hcolumns, hsecond⟩
  · rintro ⟨⟨rows, hrows, hfirst⟩, columns, hcolumns, hsecond⟩
    exact ⟨rows, hrows, samples, hfirst, columns, hcolumns, bytes, hsecond, rfl, rfl⟩

end FixedRaster.Resize
