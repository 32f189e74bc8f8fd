import Mathlib
import FixedRaster.Proofs.Resize.Resampling

/-!
# Resizing agrees with its reference

A resize that succeeds leaves in both buffers what the reference in unbounded integers says, keeps
what lies behind, and does not read what either buffer held. With alpha, the division by the rounded
alpha leaves 32 bits for strong kernels, and even then every byte is the exact one.
-/

namespace FixedRaster.Resize

theorem resample_eq_exact {image : Array UInt8} {horizontal vertical : List Int16}
    {sourceWidth sourceHeight targetWidth targetHeight : UInt32} {canvas final : Canvas}
    (hrun : (resample image horizontal vertical sourceWidth sourceHeight targetWidth targetHeight
      false).run canvas = .ok () final) :
    (∃ rows columns : List Taps,
      Kernel.Reads horizontal sourceWidth.toNat targetWidth.toNat rows ∧
      rows.length = targetWidth.toNat ∧
      Kernel.Reads vertical sourceHeight.toNat targetHeight.toNat columns ∧
      columns.length = targetHeight.toNat ∧
      Resampled rows columns sourceHeight.toNat targetWidth.toNat
        (Exact.sample image sourceWidth.toNat) Exact.pixel canvas final) ∧
    ∀ other : Canvas, targetWidth.toNat * targetHeight.toNat * 4 ≤ other.target.size →
      4 * sourceHeight.toNat * targetWidth.toNat ≤ other.middle.size →
      ∃ final', (resample image horizontal vertical sourceWidth sourceHeight targetWidth
          targetHeight false).run other = .ok () final' ∧
        (∀ i < targetWidth.toNat * targetHeight.toNat * 4,
          final'.target[i]? = final.target[i]?) ∧
        ∀ i < 4 * sourceHeight.toNat * targetWidth.toNat,
          final'.middle[i]? = final.middle[i]? := by
  have hresampled := exists_resampled_of_run hrun
  have hfront := resample_front_eq hrun
  exact ⟨hresampled, hfront⟩

def strip : Array UInt8 :=
  #[10, 20, 30, 255, 200, 0, 50, 255, 7, 8, 9, 100,
    1, 2, 3, 4, 50, 60, 70, 80, 90, 91, 92, 93]

def lobes : List Int16 := [0, 3, -4096, 24575, -4096, 1, 2, 8192, 8192]

def halves : List Int16 := [0, 2, 8192, 8192, 77]

def strips : Canvas := ⟨#[1, 1, 1, 1, 1, 1, 1, 1, 9], Array.replicate 17 5⟩

def stripsAfter : Canvas :=
  ⟨#[174, 33, 73, 195, 87, 40, 55, 132, 9],
    #[37854, 0, 8351, 37598, 6687, 8543, 10399, 12255, 13248, 512, 3776, 22720, 8960, 9664, 10368,
      11072, 5]⟩

theorem resample_strip :
    (resample strip lobes halves 3 2 2 1 false).run strips = .ok () stripsAfter ∧
    ∃ rows columns : List Taps,
      Kernel.Reads lobes (3 : UInt32).toNat (2 : UInt32).toNat rows ∧
      rows.length = (2 : UInt32).toNat ∧
      Kernel.Reads halves (2 : UInt32).toNat (1 : UInt32).toNat columns ∧
      columns.length = (1 : UInt32).toNat ∧
      Resampled rows columns (2 : UInt32).toNat (2 : UInt32).toNat
        (Exact.sample strip (3 : UInt32).toNat) Exact.pixel strips stripsAfter := by
  have hrun : (resample strip lobes halves 3 2 2 1 false).run strips = .ok () stripsAfter := by
    rfl
  have hagrees := resample_eq_exact hrun
  exact ⟨hrun, hagrees.1⟩

theorem resample_alpha_eq_exact {image : Array UInt8} {horizontal vertical : List Int16}
    {sourceWidth sourceHeight targetWidth targetHeight : UInt32} {canvas final : Canvas}
    (hrun : (resample image horizontal vertical sourceWidth sourceHeight targetWidth targetHeight
      true).run canvas = .ok () final) :
    (∃ rows columns : List Taps,
      Kernel.Reads horizontal sourceWidth.toNat targetWidth.toNat rows ∧
      rows.length = targetWidth.toNat ∧
      Kernel.Reads vertical sourceHeight.toNat targetHeight.toNat columns ∧
      columns.length = targetHeight.toNat ∧
      Resampled rows columns sourceHeight.toNat targetWidth.toNat
        (Exact.sampleWithAlpha image sourceWidth.toNat) Exact.pixelWithAlpha canvas final) ∧
    ∀ (color : Int32) (a : UInt8), 0 < a.toNat →
      ((toByte (divideAlpha color (Int32.ofNat a.toNat))).toNat : ℤ) =
        Exact.nearestByte ((255 * color.toInt).tdiv a.toNat) := by
  have hresampled := exists_resampled_of_run hrun
  refine ⟨hresampled, ?_⟩
  intro color a ha
  exact toNat_toByte_divideAlpha color ha

def glow : Array UInt8 := #[255, 255, 255, 255, 0, 0, 0, 255, 255, 255, 255, 255, 0, 0, 0, 255]

def glows : Canvas := ⟨#[7, 7, 7, 7, 7], Array.replicate 9 5⟩

def glowsAfter : Canvas :=
  ⟨#[255, 255, 255, 255, 7], #[48958, 48958, 48958, 32638, 48958, 48958, 48958, 32638, 5]⟩

theorem resample_glow :
    (resample glow [0, 2, 24575, -8192] [0, 2, 32767, 0] 2 2 1 1 true).run glows =
      .ok () glowsAfter ∧
    ∃ rows columns : List Taps,
      Kernel.Reads [0, 2, 24575, -8192] (2 : UInt32).toNat (1 : UInt32).toNat rows ∧
      rows.length = (1 : UInt32).toNat ∧
      Kernel.Reads [0, 2, 32767, 0] (2 : UInt32).toNat (1 : UInt32).toNat columns ∧
      columns.length = (1 : UInt32).toNat ∧
      Resampled rows columns (2 : UInt32).toNat (1 : UInt32).toNat
        (Exact.sampleWithAlpha glow (2 : UInt32).toNat) Exact.pixelWithAlpha glows glowsAfter := by
  have hrun : (resample glow [0, 2, 24575, -8192] [0, 2, 32767, 0] 2 2 1 1 true).run glows =
      .ok () glowsAfter := by
    cbv
  have hagrees := resample_alpha_eq_exact hrun
  exact ⟨hrun, hagrees.1⟩

end FixedRaster.Resize
