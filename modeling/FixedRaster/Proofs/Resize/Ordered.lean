import Mathlib
import FixedRaster.Proofs.Resize.Accuracy
import FixedRaster.Proofs.Resize.Middle
import FixedRaster.Proofs.Resize.Uniform

/-!
# Brighter sources

Where no weight is negative, both passes of a resize and all of their roundings keep the order of
their inputs: a source that is nowhere darker is resized to a target that is nowhere darker. Rows
that sum to one leave an area of one value as it is, and so a byte of the target lies between the
least and the greatest byte of its window.
-/

namespace FixedRaster.Resize
open Taps

namespace Exact
variable {image image' : Array UInt8} {width y : ℕ} {t u : Taps}
  {samples samples' : ℕ → Channel → ℤ} {c : Channel} {v : ℤ}

theorem sample_mono (ht : t.Nonneg) (h : ∀ x, t.start ≤ x → x < t.stop →
      channel image (y * width + x) c ≤ channel image' (y * width + x) c) :
    sample image width t y c ≤ sample image' width t y c :=
  max_le_max_left 0 (Int.ediv_le_ediv (by norm_num) (ht.dot_le h))

theorem nearestByte_mono {n n' : ℤ} (h : n ≤ n') : nearestByte n ≤ nearestByte n' := by
  rw [nearestByte, nearestByte]
  omega

theorem pixel_mono (hu : u.Nonneg)
    (h : ∀ y, u.start ≤ y → y < u.stop → samples y c ≤ samples' y c) :
    pixel u samples c ≤ pixel u samples' c :=
  nearestByte_mono (Int.ediv_le_ediv (by norm_num) (hu.dot_le h))

theorem le_sample (ht : t.Nonneg) (htotal : t.total = Q14.one.toInt)
    (h : ∀ x, t.start ≤ x → x < t.stop → v ≤ channel image (y * width + x) c) :
    128 * v ≤ sample image width t y c := by
  have hdot : 16384 * v ≤ t.dot fun x => channel image (y * width + x) c := by
    rw [← dot_of_total (f := fun _ => v) (fun _ _ _ => rfl) htotal]
    exact ht.dot_le h
  rw [sample]
  omega

theorem sample_le (ht : t.Nonneg) (htotal : t.total = Q14.one.toInt) (hv : 0 ≤ v)
    (h : ∀ x, t.start ≤ x → x < t.stop → channel image (y * width + x) c ≤ v) :
    sample image width t y c ≤ 128 * v := by
  have hdot : (t.dot fun x => channel image (y * width + x) c) ≤ 16384 * v := by
    rw [← dot_of_total (f := fun _ => v) (fun _ _ _ => rfl) htotal]
    exact ht.dot_le h
  rw [sample]
  omega

end Exact

/-- Some byte of the channel in the columns of the row `t` and the lines of the row `u`. -/
def InWindow (image : Array UInt8) (width : ℕ) (t u : Taps) (c : Channel) (v : ℤ) : Prop :=
  ∃ y < u.stop, u.start ≤ y ∧ ∃ x < t.stop, t.start ≤ x ∧
    Exact.channel image (y * width + x) c = v

section
variable {image : Array UInt8} {width : ℕ} {t u : Taps} {c : Channel}

theorem start_lt_stop_of_total (htotal : t.total = Q14.one.toInt) : t.start < t.stop := by
  have hne : t.weights ≠ [] := by
    intro hempty
    rw [total, hempty] at htotal
    exact absurd htotal (by decide)
  have hpos := List.length_pos_iff.2 hne
  rw [stop]
  omega

theorem exists_inWindow (ht : t.total = Q14.one.toInt) (hu : u.total = Q14.one.toInt) :
    ∃ v, InWindow image width t u c v :=
  ⟨_, u.start, start_lt_stop_of_total hu, le_rfl, t.start, start_lt_stop_of_total ht, le_rfl, rfl⟩

theorem InWindow.mem_byte {v : ℤ} (h : InWindow image width t u c v) : 0 ≤ v ∧ v ≤ 255 := by
  obtain ⟨y, -, -, x, -, -, rfl⟩ := h
  exact ⟨Exact.channel_nonneg .., Exact.channel_le ..⟩

variable (ht : t.Nonneg) (hu : u.Nonneg) (htotal : t.total = Q14.one.toInt)
  (hutotal : u.total = Q14.one.toInt)
include ht hu htotal hutotal

theorem le_pixel_of_forall {low : ℤ} (h : ∀ v, InWindow image width t u c v → low ≤ v)
    (hlow : 0 ≤ low) : low ≤ Exact.pixel u (Exact.sample image width t) c := by
  obtain ⟨v, hv⟩ : ∃ v, InWindow image width t u c v := exists_inWindow htotal hutotal
  have htop : low ≤ 255 := (h v hv).trans hv.mem_byte.2
  have hsample : ∀ y, u.start ≤ y → y < u.stop → 128 * low ≤ Exact.sample image width t y c :=
    fun y hy hy' => Exact.le_sample ht htotal fun x hx hx' => h _ ⟨y, hy', hy, x, hx', hx, rfl⟩
  calc low = Exact.pixel u (fun _ _ => 128 * low) c :=
        (Exact.pixel_of_total hutotal hlow htop fun _ _ _ => rfl).symm
    _ ≤ Exact.pixel u (Exact.sample image width t) c := Exact.pixel_mono hu hsample

theorem pixel_le_of_forall {high : ℤ} (h : ∀ v, InWindow image width t u c v → v ≤ high)
    (hhigh : high ≤ 255) : Exact.pixel u (Exact.sample image width t) c ≤ high := by
  obtain ⟨v, hv⟩ : ∃ v, InWindow image width t u c v := exists_inWindow htotal hutotal
  have hpos : 0 ≤ high := hv.mem_byte.1.trans (h v hv)
  have hsample : ∀ y, u.start ≤ y → y < u.stop → Exact.sample image width t y c ≤ 128 * high :=
    fun y hy hy' =>
      Exact.sample_le ht htotal hpos fun x hx hx' => h _ ⟨y, hy', hy, x, hx', hx, rfl⟩
  calc Exact.pixel u (Exact.sample image width t) c
      ≤ Exact.pixel u (fun _ _ => 128 * high) c := Exact.pixel_mono hu hsample
    _ = high := Exact.pixel_of_total hutotal hpos hhigh fun _ _ _ => rfl

theorem exists_inWindow_around : ∃ low high, InWindow image width t u c low ∧
    InWindow image width t u c high ∧ low ≤ Exact.pixel u (Exact.sample image width t) c ∧
      Exact.pixel u (Exact.sample image width t) c ≤ high := by
  have hlow : ∃ v, InWindow image width t u c v ∧
      v ≤ Exact.pixel u (Exact.sample image width t) c := by
    by_contra! hall
    have hpos : 0 ≤ Exact.pixel u (Exact.sample image width t) c := le_max_left ..
    have hover := le_pixel_of_forall ht hu htotal hutotal
      (fun v hv => Int.add_one_le_of_lt (hall v hv)) (by omega)
    omega
  have hhigh : ∃ v, InWindow image width t u c v ∧
      Exact.pixel u (Exact.sample image width t) c ≤ v := by
    by_contra! hall
    have htop : Exact.pixel u (Exact.sample image width t) c ≤ 255 := by
      rw [Exact.pixel, Exact.nearestByte]
      omega
    have hunder := pixel_le_of_forall ht hu htotal hutotal
      (fun v hv => Int.le_sub_one_of_lt (hall v hv)) (by omega)
    omega
  obtain ⟨low, hmem, hle⟩ := hlow
  obtain ⟨high, hmem', hle'⟩ := hhigh
  exact ⟨low, high, hmem, hmem', hle, hle'⟩

end

def NowhereAbove (count : ℕ) (image image' : Array UInt8) : Prop :=
  ∀ i < count, image.getD i 0 ≤ image'.getD i 0

section
variable {image image' : Array UInt8} {rows columns : List Taps} {width height targetWidth : ℕ}
  {before after before' after' : Canvas}

theorem NowhereAbove.sample_le {t u : Taps} (h : NowhereAbove (width * height * 4) image image')
    (ht : t.Fits width) (hu : u.Fits height) (hnonneg : t.Nonneg) (c : Channel) {y : ℕ}
    (hy : y < u.stop) :
    Exact.sample image width t y c ≤ Exact.sample image' width t y c := by
  refine Exact.sample_mono hnonneg fun x _ hx => ?_
  have hstop := ht.stop_le
  have hstop' := hu.stop_le
  have hplace : y * width + x < height * width := place_lt (by omega) (by omega)
  rw [Nat.mul_comm height] at hplace
  have hc := c.isLt
  exact Int.ofNat_le.2 (UInt8.le_iff_toNat_le.1 (h _ (by omega)))

theorem NowhereAbove.resampled (h : NowhereAbove (width * height * 4) image image')
    (hresampled : Resampled rows columns height targetWidth (Exact.sampleOf false image width)
      (Exact.pixelOf false) before after)
    (hresampled' : Resampled rows columns height targetWidth (Exact.sampleOf false image' width)
      (Exact.pixelOf false) before' after')
    (hlength : rows.length = targetWidth) (hrows : ∀ t ∈ rows, t.Fits width ∧ t.Nonneg)
    (hcolumns : ∀ u ∈ columns, u.Fits height ∧ u.Nonneg) :
    NowhereAbove (columns.length * targetWidth * 4) after.target after'.target := by
  intro i hi
  obtain ⟨y, hy, x, hx, c, rfl⟩ := exists_channel hi
  rw [← hlength] at hx
  obtain ⟨ht, htnonneg⟩ := hrows rows[x] (List.getElem_mem hx)
  obtain ⟨hu, hunonneg⟩ := hcolumns columns[y] (List.getElem_mem hy)
  have hval := hresampled.channel_eq (List.getElem?_eq_getElem hx) (List.getElem?_eq_getElem hy) c
  have hval' :=
    hresampled'.channel_eq (List.getElem?_eq_getElem hx) (List.getElem?_eq_getElem hy) c
  have hle : Exact.pixel columns[y] (Exact.sample image width rows[x]) c ≤
      Exact.pixel columns[y] (Exact.sample image' width rows[x]) c :=
    Exact.pixel_mono hunonneg fun j _ hj => h.sample_le ht hu htnonneg c hj
  rw [Pixel.channel_ofImage] at hval hval'
  have hnat := (hval.trans_le hle).trans hval'.symm.le
  exact UInt8.le_iff_toNat_le.2 (Int.ofNat_le.1 hnat)

end

section
variable {image : Array UInt8} {horizontal vertical : List Int16}
  {sourceWidth sourceHeight targetWidth targetHeight : UInt32} {canvas final : Canvas}

/-- A plain resize with weights that are not negative keeps the order of sources, and where its
rows sum to one it stays between the least and the greatest byte of each window. -/
theorem resample_ordered
    (hrun : (resample image horizontal vertical sourceWidth sourceHeight targetWidth targetHeight
      false).run canvas = .ok () final) :
    ∃ rows columns : List Taps,
      Kernel.Reads horizontal sourceWidth.toNat targetWidth.toNat rows ∧
      Kernel.Reads vertical sourceHeight.toNat targetHeight.toNat columns ∧
      ((∀ t ∈ rows, t.Nonneg) → (∀ u ∈ columns, u.Nonneg) →
        ∀ (image' : Array UInt8) (other : Canvas),
          sourceWidth.toNat * sourceHeight.toNat * 4 ≤ image'.size →
          targetWidth.toNat * targetHeight.toNat * 4 ≤ other.target.size →
          4 * sourceHeight.toNat * targetWidth.toNat ≤ other.middle.size →
          NowhereAbove (sourceWidth.toNat * sourceHeight.toNat * 4) image image' →
          ∃ final', (resample image' horizontal vertical sourceWidth sourceHeight targetWidth
              targetHeight false).run other = .ok () final' ∧
            NowhereAbove (targetWidth.toNat * targetHeight.toNat * 4) final.target
              final'.target) ∧
      ∀ (x y : ℕ) (t u : Taps), rows[x]? = some t → columns[y]? = some u → t.Nonneg → u.Nonneg →
        t.total = Q14.one.toInt → u.total = Q14.one.toInt → ∀ c : Channel, ∃ low high,
          InWindow image sourceWidth.toNat t u c low ∧
          InWindow image sourceWidth.toNat t u c high ∧
          low ≤ ((Pixel.ofImage final.target (y * targetWidth.toNat + x)).channel c).toNat ∧
          ((Pixel.ofImage final.target (y * targetWidth.toNat + x)).channel c).toNat ≤ high := by
  obtain ⟨rows, columns, hrows, hrlen, hcolumns, hclen, hresampled⟩ := exists_resampled_of_run hrun
  refine ⟨rows, columns, hrows, hcolumns, ?_, ?_⟩
  · intro ht hu image' other himage htarget hmiddle hle
    obtain ⟨final', hrun', hresampled'⟩ :=
      exists_resampled_again hrun hrows hcolumns false himage htarget hmiddle
    have hordered := hle.resampled hresampled hresampled' hrlen
      (fun t hmem => ⟨hrows.fits.2 t hmem, ht t hmem⟩)
      (fun u hmem => ⟨hcolumns.fits.2 u hmem, hu u hmem⟩)
    rw [hclen, Nat.mul_comm targetHeight.toNat] at hordered
    exact ⟨final', hrun', hordered⟩
  · intro x y t u hx hy ht hu htotal hutotal c
    rw [hresampled.channel_eq hx hy c]
    exact exists_inWindow_around ht hu htotal hutotal

end

def slopeLit : Array UInt8 := #[10, 210, 31, 255, 255, 3, 255, 128, 80, 90, 2, 3, 250, 9, 0, 255]

theorem resample_ordered_slope :
    let t : Taps := ⟨0, [5461, 10923]⟩
    let u : Taps := ⟨0, [12480, 3904]⟩
    (resample slope [0, 2, 5461, 10923] [0, 2, 12480, 3904] 2 2 1 1 false).run
        ⟨Array.replicate 4 1, Array.replicate 8 5⟩ =
          .ok () ⟨#[105, 61, 137, 140], #[9898, 8788, 23083, 21802, 24619, 4607, 42, 5589]⟩ ∧
      t.Nonneg ∧ u.Nonneg ∧ t.total = Q14.one.toInt ∧ u.total = Q14.one.toInt ∧
      NowhereAbove 16 slope slopeLit ∧
      (∃ final, (resample slopeLit [0, 2, 5461, 10923] [0, 2, 12480, 3904] 2 2 1 1 false).run
          ⟨Array.replicate 5 1, Array.replicate 9 5⟩ = .ok () final ∧
        NowhereAbove 4 #[105, 61, 137, 140] final.target) ∧
      ∃ low high, InWindow slope 2 t u 0 low ∧ InWindow slope 2 t u 0 high ∧ low ≤ (105 : ℕ) ∧
        (105 : ℕ) ≤ high := by
  intro t u
  have hrun : (resample slope [0, 2, 5461, 10923] [0, 2, 12480, 3904] 2 2 1 1 false).run
      ⟨Array.replicate 4 1, Array.replicate 8 5⟩ =
        .ok () ⟨#[105, 61, 137, 140], #[9898, 8788, 23083, 21802, 24619, 4607, 42, 5589]⟩ := by
    cbv
  have ht : t.Nonneg := by simp [Nonneg, t]
  have hu : u.Nonneg := by simp [Nonneg, u]
  have hle : NowhereAbove 16 slope slopeLit := by
    rw [NowhereAbove]
    decide
  obtain ⟨rows, columns, hrows, hcolumns, hordered, haround⟩ := resample_ordered hrun
  obtain rfl : rows = [t] := hrows.unique ⟨_, rfl, rfl⟩
  obtain rfl : columns = [u] := hcolumns.unique ⟨_, rfl, rfl⟩
  refine ⟨hrun, ht, hu, rfl, rfl, hle, ?_, haround 0 0 t u rfl rfl ht hu rfl rfl 0⟩
  exact hordered (by simpa using ht) (by simpa using hu) slopeLit _ (by decide) (by decide)
    (by decide) hle

end FixedRaster.Resize
