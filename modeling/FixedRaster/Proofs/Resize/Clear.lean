import Mathlib
import FixedRaster.Proofs.Resize.Accuracy
import FixedRaster.Proofs.Resize.Middle

/-!
# Clear pixels

A resize with alpha rounds the sum of alpha and the sums of the colors weighted by it each by
itself, and where the alpha comes out as zero nothing is divided out of the colors. They are zero as
well where their sums round to zero: wherever no weight is negative, as such a sum is then not above
that of alpha, and wherever the whole window is clear. Weights of both signs can make the alphas
cancel and leave the colors.
-/

namespace FixedRaster.Resize
open Taps

def ClearOver (image : Array UInt8) (width : ℕ) (t u : Taps) : Prop :=
  ∀ y < u.stop, u.start ≤ y → ∀ x < t.stop, t.start ≤ x →
    (Pixel.ofImage image (y * width + x)).a = 0

instance (image : Array UInt8) (width : ℕ) (t u : Taps) : Decidable (ClearOver image width t u) :=
  inferInstanceAs (Decidable (∀ y < u.stop, _))

namespace Exact
variable {image : Array UInt8} {width y : ℕ} {t u : Taps} {samples : ℕ → Channel → ℤ} {c : Channel}

theorem nearestByte_eq_zero_iff {n : ℤ} : nearestByte n = 0 ↔ n < 8192 := by
  rw [nearestByte]
  omega

theorem pixelWithAlpha_of_clear (hc : c ≠ alpha) (h : pixel u samples alpha = 0) :
    pixelWithAlpha u samples c = nearestByte (column u samples c) := by
  simp only [pixelWithAlpha, h, if_neg hc, lt_irrefl, if_false]

theorem sampleWithAlpha_of_clear
    (h : ∀ x, t.start ≤ x → x < t.stop → channel image (y * width + x) alpha = 0) (c : Channel) :
    sampleWithAlpha image width t y c = 0 := by
  have hsum : ∀ f : ℕ → ℤ, (∀ x, t.start ≤ x → x < t.stop → f x = 0) → t.dot f = 0 := by
    intro f hf
    rw [dot_congr hf, dot_const, mul_zero]
  rw [sampleWithAlpha]
  split_ifs with hc
  · rw [sample, hsum _ (hc ▸ h)]
    rfl
  · rw [hsum _ fun x hx hx' => by rw [h x hx hx', zero_mul]]
    rfl

theorem pixelWithAlpha_of_zero (h : ∀ c y, u.start ≤ y → y < u.stop → samples y c = 0)
    (c : Channel) : pixelWithAlpha u samples c = 0 := by
  have hcolumn : ∀ c, column u samples c = 0 := by
    intro c
    rw [column, dot_congr (h c), dot_const, mul_zero]
    rfl
  have halpha : pixel u samples alpha = 0 := by
    rw [pixel, hcolumn]
    rfl
  by_cases hc : c = alpha
  · rw [pixelWithAlpha, if_pos hc, halpha]
  · rw [pixelWithAlpha_of_clear hc halpha, hcolumn]
    rfl

end Exact

theorem ClearOver.pixel_eq_zero {image : Array UInt8} {width : ℕ} {t u : Taps}
    (h : ClearOver image width t u) (c : Channel) :
    Exact.pixelWithAlpha u (Exact.sampleWithAlpha image width t) c = 0 := by
  refine Exact.pixelWithAlpha_of_zero (fun c y hy hy' => ?_) c
  refine Exact.sampleWithAlpha_of_clear (fun x hx hx' => ?_) c
  rw [Exact.channel_eq]
  exact Int.natCast_eq_zero.2 (congrArg UInt8.toNat (h y hy' hy x hx' hx))

theorem eq_zero_of_channels {p : Pixel} (h : ∀ c, ((p.channel c).toNat : ℤ) = 0) :
    p = ⟨0, 0, 0, 0⟩ := by
  apply Pixel.eq_of_channel
  intro c
  have hzero : p.channel c = 0 := UInt8.toNat_inj.1 (Int.natCast_eq_zero.1 (h c))
  rw [hzero]
  fin_cases c <;> rfl

section
variable {image : Array UInt8} {horizontal vertical : List Int16}
  {sourceWidth sourceHeight targetWidth targetHeight : UInt32} {canvas final : Canvas}

/-- A pixel that comes out clear has no color exactly where the sums of its colors are below half a
step: under weights that are not negative, and over a clear window under any weights. -/
theorem resample_clear
    (hrun : (resample image horizontal vertical sourceWidth sourceHeight targetWidth targetHeight
      true).run canvas = .ok () final) :
    ∃ rows columns : List Taps,
      Kernel.Reads horizontal sourceWidth.toNat targetWidth.toNat rows ∧
      Kernel.Reads vertical sourceHeight.toNat targetHeight.toNat columns ∧
      ∀ (x y : ℕ) (t u : Taps), rows[x]? = some t → columns[y]? = some u →
        let p := Pixel.ofImage final.target (y * targetWidth.toNat + x)
        (p.a = 0 →
          (∀ c ≠ alpha, p.channel c = 0 ↔
            Exact.column u (Exact.sampleWithAlpha image sourceWidth.toNat t) c < 8192) ∧
          (t.Nonneg → u.Nonneg → p = ⟨0, 0, 0, 0⟩)) ∧
        (ClearOver image sourceWidth.toNat t u → p = ⟨0, 0, 0, 0⟩) := by
  obtain ⟨rows, columns, hrows, -, hcolumns, -, hresampled⟩ := exists_resampled_of_run hrun
  refine ⟨rows, columns, hrows, hcolumns, ?_⟩
  intro x y t u hx hy p
  have hchannel : ∀ c, ((p.channel c).toNat : ℤ) =
      Exact.pixelWithAlpha u (Exact.sampleWithAlpha image sourceWidth.toNat t) c :=
    hresampled.channel_eq hx hy
  have halpha : (p.a.toNat : ℤ) =
      Exact.pixel u (Exact.sampleWithAlpha image sourceWidth.toNat t) alpha :=
    (hresampled.channel_eq hx hy alpha).trans Exact.pixelOf_alpha
  refine ⟨fun hclear => ⟨?_, ?_⟩, ?_⟩
  · intro c hc
    rw [hclear] at halpha
    rw [← Exact.nearestByte_eq_zero_iff, ← Exact.pixelWithAlpha_of_clear hc halpha.symm,
      ← hchannel c, Int.natCast_eq_zero, ← UInt8.toNat_inj]
    rfl
  · intro ht hu
    rw [hclear] at halpha
    exact eq_zero_of_channels fun c =>
      (hchannel c).trans (Exact.color_of_clear ht hu halpha.symm c)
  · intro hwindow
    exact eq_zero_of_channels fun c => (hchannel c).trans (hwindow.pixel_eq_zero c)

end

def halo : Array UInt8 := #[255, 255, 255, 51, 0, 0, 0, 255, 9, 8, 7, 0, 90, 80, 70, 0]

def haloRows : List Int16 := [0, 2, 20480, -4096, 2, 2, 20480, -4096, 0, 1, 20]

def haloAfter : Canvas :=
  ⟨#[64, 64, 64, 0, 0, 0, 0, 0, 0, 0, 0, 0, 1],
    #[8160, 8160, 8160, 0, 0, 0, 0, 0, 7, 7, 7, 7, 5]⟩

theorem run_halo : (resample halo haloRows [0, 1, 16384] 4 1 3 1 true).run
    ⟨Array.replicate 13 1, Array.replicate 13 5⟩ = .ok () haloAfter := by
  cbv

/-- The alphas of the first window cancel, and its colors do not. -/
theorem resample_clear_colored :
    ¬ ∀ (image : Array UInt8) (horizontal vertical : List Int16)
      (sourceWidth sourceHeight targetWidth targetHeight : UInt32) (canvas final : Canvas),
      4 * sourceHeight.toNat * targetWidth.toNat < 2 ^ 64 →
      (resample image horizontal vertical sourceWidth sourceHeight targetWidth targetHeight
        true).run canvas = .ok () final →
      ∀ i < targetWidth.toNat * targetHeight.toNat, (Pixel.ofImage final.target i).a = 0 →
        Pixel.ofImage final.target i = ⟨0, 0, 0, 0⟩ := by
  intro h
  have hcolor := h halo haloRows [0, 1, 16384] 4 1 3 1 _ haloAfter (by decide) run_halo 0
    (by decide) (by decide)
  exact absurd hcolor (by decide)

theorem resample_clear_halo :
    let t : Taps := ⟨0, [20480, -4096]⟩
    let u : Taps := ⟨0, [16384]⟩
    (resample halo haloRows [0, 1, 16384] 4 1 3 1 true).run
        ⟨Array.replicate 13 1, Array.replicate 13 5⟩ = .ok () haloAfter ∧
      (Pixel.ofImage haloAfter.target 0).a = 0 ∧
      ¬ Exact.column u (Exact.sampleWithAlpha halo 4 t) 0 < 8192 ∧
      ClearOver halo 4 ⟨2, [20480, -4096]⟩ u ∧
      Pixel.ofImage haloAfter.target 1 = ⟨0, 0, 0, 0⟩ ∧
      Taps.Nonneg ⟨0, [20]⟩ ∧ u.Nonneg ∧ Pixel.ofImage haloAfter.target 2 = ⟨0, 0, 0, 0⟩ := by
  intro t u
  have hwindow : ClearOver halo 4 ⟨2, [20480, -4096]⟩ u := by decide
  have hfaint : Taps.Nonneg ⟨0, [20]⟩ := by simp [Nonneg]
  have hu : u.Nonneg := by simp [Nonneg, u]
  obtain ⟨rows, columns, hrows, hcolumns, hclear⟩ := resample_clear run_halo
  obtain rfl : rows = [t, ⟨2, [20480, -4096]⟩, ⟨0, [20]⟩] := hrows.unique ⟨_, rfl, rfl⟩
  obtain rfl : columns = [u] := hcolumns.unique ⟨_, rfl, rfl⟩
  obtain ⟨hcolored, -⟩ := (hclear 0 0 t u rfl rfl).1 (by decide)
  exact ⟨run_halo, by decide, mt (hcolored 0 (by decide)).2 (by decide), hwindow,
    (hclear 1 0 _ u rfl rfl).2 hwindow, hfaint, hu,
    ((hclear 2 0 _ u rfl rfl).1 (by decide)).2 hfaint hu⟩

end FixedRaster.Resize
