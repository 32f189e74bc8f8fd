import Mathlib
import FixedRaster.Proofs.Checks
import FixedRaster.Proofs.Grid
import FixedRaster.Unsharp.Composite

/-!
# What the mask leaves in an image

After `n` steps the first `n` pixels are those of the source as the mask sharpens them, and the rest
is as before. So the mask on an image, where each step reads what earlier ones left, and the
mask from one image into another end with the same pixels and the same count.
-/

namespace FixedRaster
namespace Pixel

theorem ofImage_congr {a b : Array UInt8} {i : ℕ} (h : ∀ k < 4, a[i * 4 + k]? = b[i * 4 + k]?) :
    ofImage a i = ofImage b i := by
  have h0 : a[i * 4]? = b[i * 4]? := h 0 (by decide)
  simp only [ofImage, Array.getD_eq_getD_getElem?, h0, h 1 (by decide), h 2 (by decide),
    h 3 (by decide)]

theorem ofImage_extract {image : Array UInt8} {i stop : ℕ} (h : i * 4 + 3 < stop) :
    ofImage (image.extract 0 stop) i = ofImage image i := by
  apply ofImage_congr
  intro k hk
  rw [Array.getElem?_extract, Nat.zero_add]
  split_ifs with hin
  · rfl
  · exact (Array.getElem?_eq_none (by omega)).symm

theorem getElem?_put_other (p : Pixel) (image : Array UInt8) {i j : ℕ} (h : j / 4 ≠ i) :
    (p.put image i)[j]? = image[j]? := by
  simp only [put]
  rw [Array.getElem?_setIfInBounds_ne (by omega), Array.getElem?_setIfInBounds_ne (by omega),
    Array.getElem?_setIfInBounds_ne (by omega), Array.getElem?_setIfInBounds_ne (by omega)]

theorem getElem?_image {image : Array UInt8} {i : ℕ} (h : i * 4 + 3 < image.size) :
    image[i * 4]? = some (ofImage image i).r ∧ image[i * 4 + 1]? = some (ofImage image i).g ∧
      image[i * 4 + 2]? = some (ofImage image i).b ∧
      image[i * 4 + 3]? = some (ofImage image i).a := by
  have hchannel : ∀ k < 4, image[i * 4 + k]? = some (image.getD (i * 4 + k) 0) := by
    intro k hk
    have hin : i * 4 + k < image.size := by omega
    rw [Array.getD_eq_getD_getElem?, Array.getElem?_eq_getElem hin, Option.getD_some]
  exact ⟨hchannel 0 (by decide), hchannel 1 (by decide), hchannel 2 (by decide),
    hchannel 3 (by decide)⟩

theorem getElem?_eq_of_ofImage {a b : Array UInt8} {i k : ℕ} (ha : i * 4 + 3 < a.size)
    (hb : i * 4 + 3 < b.size) (h : ofImage a i = ofImage b i) (hk : k < 4) :
    a[i * 4 + k]? = b[i * 4 + k]? := by
  obtain ⟨hr, hg, hblue, halpha⟩ := getElem?_image ha
  obtain ⟨hr', hg', hblue', halpha'⟩ := getElem?_image hb
  interval_cases k
  · exact hr.trans (h ▸ hr'.symm)
  · exact hg.trans (h ▸ hg'.symm)
  · exact hblue.trans (h ▸ hblue'.symm)
  · exact halpha.trans (h ▸ halpha'.symm)

theorem put_ofImage {image : Array UInt8} {i : ℕ} (h : i * 4 + 3 < image.size) :
    (ofImage image i).put image i = image := by
  apply Array.ext_getElem?
  intro j
  by_cases hj : j / 4 = i
  · obtain ⟨k, hk, rfl⟩ : ∃ k < 4, j = i * 4 + k := ⟨j % 4, by omega, by omega⟩
    exact getElem?_eq_of_ofImage (by rw [size_put]; exact h) h (ofImage_put_self _ h) hk
  · exact getElem?_put_other _ _ hj

end Pixel

theorem Brightness.samples_extract (model : ColorModel) (image : Array UInt8) (e : Extent) :
    samples model (image.extract 0 e.bytes) e.pixels = samples model image e.pixels := by
  have hbytes : e.pixels * 4 = e.bytes := rfl
  apply eq_of_front (size_samples ..) (size_samples ..)
  intro i hi
  rw [getElem?_samples _ _ hi, getElem?_samples _ _ hi, Pixel.ofImage_extract (by omega)]

theorem Brightness.run_fill_overlay {model : ColorModel} {image : Array UInt8}
    {width height : UInt32} {e : Extent} (he : Extent.of? width height = .ok e)
    (himage : e.bytes ≤ image.size) {plane : Array UInt16} (hplane : e.pixels ≤ plane.size) :
    (fill model image width height).run plane =
      .ok () (overlay (samples model image e.pixels) plane) := by
  have hcovers : e.coversImage "channel source image" image.size = .ok () :=
    requireLength_eq_ok_iff.2 himage
  have hcovers' : e.coversPlane "channel destination plane" plane.size = .ok () :=
    requireLength_eq_ok_iff.2 hplane
  simp only [fill, Edit.run_check_bind, Edit.run_get_bind, he, hcovers, hcovers']
  rfl

theorem Brightness.run_fill {model : ColorModel} {image : Array UInt8} {width height : UInt32}
    {e : Extent} (he : Extent.of? width height = .ok e) (himage : e.bytes ≤ image.size)
    {plane : Array UInt16} (hplane : plane.size = e.pixels) :
    (fill model image width height).run plane = .ok () (samples model image e.pixels) := by
  have hsamples := size_samples model image e.pixels
  rw [run_fill_overlay he himage hplane.ge]
  exact congrArg (EStateM.Result.ok ()) (overlay_of_size (hsamples.trans hplane.symm))

namespace Unsharp.Mask
variable {m : Mask} {source : Array UInt8} {plane blurred : Array UInt16}

def leaves (m : Mask) (source : Array UInt8) (plane blurred : Array UInt16) (i : ℕ) : Pixel :=
  (m.sharpenAt? (Pixel.ofImage source i) plane blurred i).getD (Pixel.ofImage source i)

def reached (m : Mask) (source : Array UInt8) (plane blurred : Array UInt16) (count : ℕ) : ℕ :=
  (List.range count).countP fun i =>
    (m.sharpenAt? (Pixel.ofImage source i) plane blurred i).isSome

theorem reached_succ (m : Mask) (source : Array UInt8) (plane blurred : Array UInt16) (n : ℕ) :
    m.reached source plane blurred (n + 1) = m.reached source plane blurred n +
      if (m.sharpenAt? (Pixel.ofImage source n) plane blurred n).isSome then 1 else 0 := by
  rw [reached, List.range_succ, List.countP_append, List.countP_singleton]
  rfl

/-- A buffer and a count after the first `count` pixels of the source were sharpened into it. -/
structure Composited (m : Mask) (source : Array UInt8) (plane blurred : Array UInt16) (count : ℕ)
    (before : Array UInt8) (after : Array UInt8 × ℕ) : Prop where
  size_eq : after.1.size = before.size
  pixel_eq : ∀ i < count, Pixel.ofImage after.1 i = m.leaves source plane blurred i
  rest_eq : ∀ j, count * 4 ≤ j → after.1[j]? = before[j]?
  count_eq : after.2 = m.reached source plane blurred count

theorem composited_zero (m : Mask) (source : Array UInt8) (plane blurred : Array UInt16)
    (before : Array UInt8) : Composited m source plane blurred 0 before (before, 0) :=
  ⟨rfl, by simp, fun _ _ => rfl, rfl⟩

theorem Composited.succ {n : ℕ} {before : Array UInt8} {state : Array UInt8 × ℕ}
    (h : Composited m source plane blurred n before state) (hn : n * 4 + 3 < before.size) :
    Composited m source plane blurred (n + 1) before
      ((m.leaves source plane blurred n).put state.1 n,
        m.reached source plane blurred (n + 1)) := by
  have hin : n * 4 + 3 < state.1.size := by rwa [h.size_eq]
  constructor
  case size_eq =>
    simp only [Pixel.size_put]
    exact h.size_eq
  case pixel_eq =>
    intro i hi
    by_cases hin' : i = n
    · rw [hin', Pixel.ofImage_put_self _ hin]
    · rw [Pixel.ofImage_put_ne _ _ (Ne.symm hin')]
      exact h.pixel_eq i (by omega)
  case rest_eq =>
    intro j hj
    have hlow : j / 4 ≠ n := by omega
    simp only [Pixel.getElem?_put_other _ _ hlow]
    exact h.rest_eq j (by omega)
  case count_eq => rfl

/-- A step in place reads the pixel of the source, which no earlier step has written. -/
theorem Composited.step {n : ℕ} {state : Array UInt8 × ℕ}
    (h : Composited m source plane blurred n source state) (hn : n * 4 + 3 < source.size) :
    Composited m source plane blurred (n + 1) source (m.step plane blurred state n) := by
  have hread : Pixel.ofImage state.1 n = Pixel.ofImage source n :=
    Pixel.ofImage_congr fun k _ => h.rest_eq _ (by omega)
  have hnext := h.succ hn
  rw [reached_succ, ← h.count_eq, leaves] at hnext
  rw [Mask.step, hread]
  cases hs : m.sharpenAt? (Pixel.ofImage source n) plane blurred n with
  | some p =>
    rw [hs] at hnext
    exact hnext
  | none =>
    rw [hs] at hnext
    simp only [Option.getD_none, ← hread] at hnext
    rw [Pixel.put_ofImage (by rwa [h.size_eq])] at hnext
    exact hnext

theorem Composited.stepFrom {n : ℕ} {before : Array UInt8} {state : Array UInt8 × ℕ}
    (h : Composited m source plane blurred n before state) (hn : n * 4 + 3 < before.size) :
    Composited m source plane blurred (n + 1) before
      (m.stepFrom source plane blurred state n) := by
  have hnext := h.succ hn
  rw [reached_succ, ← h.count_eq, leaves] at hnext
  rw [Mask.stepFrom]
  cases hs : m.sharpenAt? (Pixel.ofImage source n) plane blurred n with
  | some p =>
    rw [hs] at hnext
    exact hnext
  | none =>
    rw [hs] at hnext
    exact hnext

theorem run_composited {n : ℕ} (h : n * 4 ≤ source.size) :
    Composited m source plane blurred n source (m.run plane blurred source n) := by
  induction n with
  | zero => exact composited_zero m source plane blurred source
  | succ n ih =>
    rw [run_succ]
    exact (ih (by omega)).step (by omega)

theorem runFrom_composited {n : ℕ} {before : Array UInt8} (h : n * 4 ≤ before.size) :
    Composited m source plane blurred n before (m.runFrom source plane blurred before n) := by
  induction n with
  | zero => exact composited_zero m source plane blurred before
  | succ n ih =>
    rw [runFrom_succ]
    exact (ih (by omega)).stepFrom (by omega)

theorem Composited.front {count : ℕ} {before before' : Array UInt8} {after after' : Array UInt8 × ℕ}
    (h : Composited m source plane blurred count before after)
    (h' : Composited m source plane blurred count before' after') (hsize : count * 4 ≤ before.size)
    (hsize' : count * 4 ≤ before'.size) {j : ℕ} (hj : j < count * 4) :
    after.1[j]? = after'.1[j]? := by
  obtain ⟨i, hi, k, hk, rfl⟩ := exists_place hj
  apply Pixel.getElem?_eq_of_ofImage _ _ _ hk
  · rw [h.size_eq]
    omega
  · rw [h'.size_eq]
    omega
  · rw [h.pixel_eq i hi, h'.pixel_eq i hi]

theorem Composited.of_source {count : ℕ} {source' before : Array UInt8} {after : Array UInt8 × ℕ}
    (h : Composited m source plane blurred count before after)
    (hsource : ∀ i < count, Pixel.ofImage source i = Pixel.ofImage source' i) :
    Composited m source' plane blurred count before after := by
  refine ⟨h.size_eq, ?_, h.rest_eq, ?_⟩
  · intro i hi
    rw [h.pixel_eq i hi, leaves, leaves, hsource i hi]
  · rw [h.count_eq]
    apply List.countP_congr
    intro i hi
    rw [hsource i (List.mem_range.1 hi)]

section
variable {e : Extent} {width height : UInt32}

theorem covers_eq_ok_iff {image sample reference : ℕ} :
    covers e image sample reference = .ok () ↔
      e.bytes ≤ image ∧ e.pixels ≤ sample ∧ e.pixels ≤ reference := by
  simp only [covers, Extent.coversImage, Extent.coversPlane, bind_eq_ok_iff, Unique.exists_iff,
    PUnit.default_eq_unit, requireLength_eq_ok_iff]

theorem covers_ne_outOfRange {image sample reference : ℕ} {f : Fault}
    (h : covers e image sample reference = .error f) : f ≠ .outOfRange := by
  simp only [covers, Extent.coversImage, Extent.coversPlane, bind_eq_error_iff] at h
  rcases h with h | ⟨_, -, h | ⟨_, -, h⟩⟩
  · exact requireLength_ne_outOfRange h
  · exact requireLength_ne_outOfRange h
  · exact requireLength_ne_outOfRange h

theorem covers_of_le {image sample reference : ℕ} (himage : e.bytes ≤ image)
    (hplane : e.pixels ≤ sample) (hblurred : e.pixels ≤ reference) :
    covers e image sample reference = .ok () :=
  covers_eq_ok_iff.2 ⟨himage, hplane, hblurred⟩

theorem run_apply (he : Extent.of? width height = .ok e) (himage : e.bytes ≤ source.size)
    (hplane : e.pixels ≤ plane.size) (hblurred : e.pixels ≤ blurred.size) :
    (m.apply plane blurred width height).run source =
      if m.strength = 0 then .ok 0 source
      else .ok (m.run plane blurred source e.pixels).2 (m.run plane blurred source e.pixels).1 := by
  rw [apply]
  simp only [Edit.run_check_bind, Edit.run_get_bind, he, covers_of_le himage hplane hblurred]
  split_ifs
  · rfl
  · rfl

theorem exists_run_apply (he : Extent.of? width height = .ok e) (himage : e.bytes ≤ source.size)
    (hplane : e.pixels ≤ plane.size) (hblurred : e.pixels ≤ blurred.size) :
    ∃ n after, (m.apply plane blurred width height).run source = .ok n after := by
  rw [run_apply he himage hplane hblurred]
  split_ifs
  · exact ⟨_, _, rfl⟩
  · exact ⟨_, _, rfl⟩

theorem run_applyFrom (he : Extent.of? width height = .ok e) (himage : e.bytes ≤ source.size)
    (hplane : e.pixels ≤ plane.size) (hblurred : e.pixels ≤ blurred.size) {target : Array UInt8}
    (htarget : e.bytes ≤ target.size) :
    (m.applyFrom source plane blurred width height).run target =
      if m.strength = 0 then .ok 0 (overlay (source.extract 0 e.bytes) target)
      else .ok (m.runFrom source plane blurred target e.pixels).2
        (m.runFrom source plane blurred target e.pixels).1 := by
  have hcovers : e.coversImage "unsharp destination image" target.size = .ok () :=
    requireLength_eq_ok_iff.2 htarget
  rw [applyFrom]
  simp only [Edit.run_check_bind, Edit.run_get_bind, he, covers_of_le himage hplane hblurred,
    hcovers]
  split_ifs
  · rfl
  · rfl

theorem exists_apply_eq_applyFrom (he : Extent.of? width height = .ok e)
    (himage : source.size = e.bytes) (hplane : e.pixels ≤ plane.size)
    (hblurred : e.pixels ≤ blurred.size) :
    ∃ n after, after.size = e.bytes ∧
      (m.apply plane blurred width height).run source = .ok n after ∧
      ∀ target : Array UInt8, target.size = e.bytes →
        (m.applyFrom source plane blurred width height).run target = .ok n after := by
  have hbytes : e.pixels * 4 = e.bytes := rfl
  rw [run_apply he himage.ge hplane hblurred]
  by_cases hstrength : m.strength = 0
  · refine ⟨0, source, himage, if_pos hstrength, ?_⟩
    intro target htarget
    have hover : overlay (source.extract 0 e.bytes) target = source := by
      rw [← himage, Array.extract_size]
      exact overlay_of_size (himage.trans htarget.symm)
    rw [run_applyFrom he himage.ge hplane hblurred htarget.ge, if_pos hstrength, hover]
  · have hrun : Composited m source plane blurred e.pixels source
        (m.run plane blurred source e.pixels) :=
      run_composited (by omega)
    refine ⟨_, _, hrun.size_eq.trans himage, if_neg hstrength, ?_⟩
    intro target htarget
    have hfrom : Composited m source plane blurred e.pixels target
        (m.runFrom source plane blurred target e.pixels) :=
      runFrom_composited (by omega)
    have heq := eq_of_front (hfrom.size_eq.trans htarget) (hrun.size_eq.trans himage)
      fun j hj => hfrom.front hrun (by omega) (by omega) hj
    rw [run_applyFrom he himage.ge hplane hblurred htarget.ge, if_neg hstrength, heq,
      hfrom.count_eq, hrun.count_eq]

theorem run_apply_overlay (he : Extent.of? width height = .ok e) (himage : e.bytes ≤ source.size)
    (hplane : e.pixels ≤ plane.size) (hblurred : e.pixels ≤ blurred.size) {n : ℕ}
    {after : Array UInt8}
    (h : (m.apply plane blurred width height).run (source.extract 0 e.bytes) = .ok n after) :
    (m.apply plane blurred width height).run source = .ok n (overlay after source) := by
  have hbytes : e.pixels * 4 = e.bytes := rfl
  have hfront : (source.extract 0 e.bytes).size = e.bytes := size_front himage
  rw [run_apply he hfront.ge hplane hblurred] at h
  rw [run_apply he himage hplane hblurred]
  by_cases hstrength : m.strength = 0
  · rw [if_pos hstrength] at h ⊢
    cases h
    rw [overlay_extract]
  · rw [if_neg hstrength] at h ⊢
    obtain ⟨rfl, rfl⟩ := EStateM.Result.ok.inj h
    have hread : ∀ i < e.pixels, Pixel.ofImage (source.extract 0 e.bytes) i =
        Pixel.ofImage source i :=
      fun i hi => Pixel.ofImage_extract (by omega)
    have hrun : Composited m source plane blurred e.pixels source
        (m.run plane blurred source e.pixels) :=
      run_composited (by omega)
    have hcut : Composited m source plane blurred e.pixels (source.extract 0 e.bytes)
        (m.run plane blurred (source.extract 0 e.bytes) e.pixels) :=
      (run_composited (by omega)).of_source hread
    have hover : overlay (m.run plane blurred (source.extract 0 e.bytes) e.pixels).1 source =
        (m.run plane blurred source e.pixels).1 := by
      have hsize := hcut.size_eq.trans hfront
      apply Array.ext_getElem?
      intro j
      rw [getElem?_overlay (by omega), hsize]
      split_ifs with hj
      · exact hcut.front hrun (by omega) (by omega) (by omega)
      · exact (hrun.rest_eq j (by omega)).symm
    rw [hover, hrun.count_eq, hcut.count_eq]

end

end Unsharp.Mask
end FixedRaster
