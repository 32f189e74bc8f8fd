import Mathlib
import FixedRaster.Proofs.Resize.Opaque

/-!
# How close a resize comes to the exact sums

A target pixel stands for a double sum over its window. The first pass rounds every sample down, and
the second multiplies what was cut off by weights of any sign before it rounds down itself: the mass
of its row keeps all that below a 64th of a step of a byte. The last rounding adds half a step. With
alpha, the division by the rounded alpha enlarges every error by 255 over alpha, and the
premultiplied color, which is what the result stands for, takes that back.
-/

namespace FixedRaster
namespace Taps
variable {t : Taps}

def Nonneg (t : Taps) : Prop := ∀ w ∈ t.weights, 0 ≤ w.toInt

instance (t : Taps) : Decidable t.Nonneg := inferInstanceAs (Decidable (∀ w ∈ t.weights, _))

theorem Nonneg.dot_le (h : t.Nonneg) {f g : ℕ → ℤ}
    (hfg : ∀ i, t.start ≤ i → i < t.stop → f i ≤ g i) : t.dot f ≤ t.dot g := by
  apply Finset.sum_le_sum
  intro k _
  have hk := k.isLt
  exact mul_le_mul_of_nonneg_left (hfg (t.start + k) (by omega) (by unfold stop; omega))
    (h _ (List.get_mem t.weights k))

theorem Nonneg.dot_nonneg (h : t.Nonneg) {f : ℕ → ℤ}
    (hf : ∀ i, t.start ≤ i → i < t.stop → 0 ≤ f i) : 0 ≤ t.dot f := by
  have hzero : t.dot (fun _ => 0) = 0 := by rw [dot_const, mul_zero]
  rw [← hzero]
  exact h.dot_le hf

theorem dot_add (t : Taps) (f g : ℕ → ℤ) : t.dot (fun i => f i + g i) = t.dot f + t.dot g := by
  simp only [dot, mul_add, Finset.sum_add_distrib]

theorem dot_eq_quotients (t : Taps) (f : ℕ → ℤ) (d : ℤ) :
    t.dot f = d * (t.dot fun i => f i / d) + t.dot fun i => f i % d := by
  rw [← dot_mul_left, ← dot_add]
  simp only [Int.mul_ediv_add_emod]

theorem abs_dot_emod_le (t : Taps) (f : ℕ → ℤ) {d : ℕ} (hd : 0 < d) :
    |t.dot fun i => f i % d| ≤ t.mass * (d - 1 : ℕ) := by
  apply abs_dot_le
  intro i
  have hlow := Int.emod_nonneg (f i) (show (d : ℤ) ≠ 0 by omega)
  have hhigh := Int.emod_lt_of_pos (f i) (show (0 : ℤ) < d by omega)
  exact abs_le.2 ⟨by omega, by omega⟩

end Taps

namespace Resize
open Taps

namespace Exact
variable {image : Array UInt8} {width : ℕ} {t u : Taps} {samples : ℕ → Channel → ℤ} {c : Channel}

/-- The sum over the columns of the row `t` and the lines of the row `u` of weight times weight
times `f`. -/
def windowSum (width : ℕ) (t u : Taps) (f : ℕ → ℤ) : ℤ :=
  u.dot fun y => t.dot fun i => f (y * width + i)

def mean (image : Array UInt8) (width : ℕ) (t u : Taps) (c : Channel) : ℚ :=
  windowSum width t u (fun i => channel image i c) / 2 ^ 28

def meanWithAlpha (image : Array UInt8) (width : ℕ) (t u : Taps) (c : Channel) : ℚ :=
  windowSum width t u (fun i => channel image i alpha * channel image i c) / (255 * 2 ^ 28)

/-- Rounding every sample down to a multiple of `d`, and the sum of them once more. -/
theorem abs_dot_sub_column_le {d : ℕ} (hd : 0 < d) (hu : u.mass ≤ 32767) {sums : ℕ → ℤ}
    (h : ∀ y, u.start ≤ y → y < u.stop → samples y c = sums y / d) :
    |u.dot sums - 128 * d * column u samples c| ≤ 32767 * (d - 1 : ℕ) + 127 * d := by
  have hquot := u.dot_eq_quotients sums d
  have hrem := abs_le.1 (u.abs_dot_emod_le sums hd)
  have hcolumn : column u samples c = (u.dot fun y => sums y / d) / 128 := by
    rw [column, dot_congr h]
  generalize (u.dot fun y => sums y / d) = q at hquot hcolumn
  generalize (u.dot fun y => sums y % d) = r at hquot hrem
  have hmass : ((u.mass : ℤ) * (d - 1 : ℕ)) ≤ 32767 * (d - 1 : ℕ) :=
    mul_le_mul_of_nonneg_right (by exact_mod_cast hu) (Int.natCast_nonneg _)
  -- the first summand is what the sum loses, the second what the samples lost before it
  have hsplit : u.dot sums - 128 * d * column u samples c =
      d * (q - 128 * column u samples c) + r := by
    rw [hquot]
    ring
  have hlow : 0 ≤ q - 128 * column u samples c := by omega
  have hhigh : q - 128 * column u samples c ≤ 127 := by omega
  have hprod : 0 ≤ d * (q - 128 * column u samples c) := mul_nonneg (by omega) hlow
  have hprod' : d * (q - 128 * column u samples c) ≤ d * 127 :=
    mul_le_mul_of_nonneg_left hhigh (by omega)
  rw [hsplit]
  exact abs_le.2 ⟨by omega, by omega⟩

theorem abs_saturated_sub_le (a b : ℚ) :
    |max 0 (min 255 a) - max 0 (min 255 b)| ≤ |a - b| := by
  have hmin := abs_min_sub_min_le_max 255 a 255 b
  rw [sub_self, abs_zero, max_eq_right (abs_nonneg (a - b))] at hmin
  have hmax := abs_max_sub_max_le_abs (min 255 a) (min 255 b) 0
  rw [max_comm _ 0, max_comm _ 0] at hmax
  exact hmax.trans hmin

theorem abs_nearestByte_sub_le (n : ℤ) :
    |(nearestByte n : ℚ) - max 0 (min 255 ((n : ℚ) / 16384))| ≤ 1 / 2 := by
  have hlow : (16384 : ℚ) * ((n + 8192) / 16384 : ℤ) ≤ n + 8192 := by
    exact_mod_cast Int.mul_ediv_self_le (by norm_num)
  have hhigh : (n + 8192 : ℚ) < 16384 * ((n + 8192) / 16384 : ℤ) + 16384 := by
    exact_mod_cast Int.lt_mul_ediv_self_add (by norm_num)
  have hround : |(((n + 8192) / 16384 : ℤ) : ℚ) - n / 16384| ≤ 1 / 2 :=
    abs_le.2 ⟨by linarith, by linarith⟩
  rw [nearestByte, Int.cast_max, Int.cast_min]
  exact (abs_saturated_sub_le _ _).trans hround

section
variable (hsums : ∀ y, u.start ≤ y → y < u.stop →
  0 ≤ t.dot fun i => channel image (y * width + i) c)
include hsums

theorem abs_mean_sub_column_le (hu : u.mass ≤ 32767) :
    |mean image width t u c - column u (sample image width t) c / 16384| ≤ 1 / 64 := by
  have hsample : ∀ y, u.start ≤ y → y < u.stop → sample image width t y c =
      (t.dot fun i => channel image (y * width + i) c) / (128 : ℕ) := by
    intro y hy hy'
    exact max_eq_right (Int.ediv_nonneg (hsums y hy hy') (by norm_num))
  have hcut := abs_dot_sub_column_le (by norm_num) hu hsample
  have hcut' : |(windowSum width t u (fun i => channel image i c) : ℚ) -
      16384 * column u (sample image width t) c| ≤ 4177665 := by
    exact_mod_cast hcut
  have hsplit : mean image width t u c - column u (sample image width t) c / 16384 =
      (windowSum width t u (fun i => channel image i c) -
        16384 * column u (sample image width t) c) / 2 ^ 28 := by
    rw [mean]
    ring
  rw [hsplit, abs_div, div_le_iff₀ (by norm_num)]
  exact hcut'.trans (by norm_num)

theorem abs_pixel_sub_mean_le (hu : u.mass ≤ 32767) :
    |(pixel u (sample image width t) c : ℚ) - max 0 (min 255 (mean image width t u c))| ≤
      1 / 2 + 1 / 64 := by
  have hround := abs_nearestByte_sub_le (column u (sample image width t) c)
  have hcut := (abs_saturated_sub_le _ _).trans (abs_mean_sub_column_le hsums hu)
  rw [abs_sub_comm] at hcut
  exact (abs_sub_le _ _ _).trans (add_le_add hround hcut)

end

section
variable (ht : t.Nonneg)
include ht

theorem dot_channel_nonneg (origin : ℕ) (c : Channel) :
    0 ≤ t.dot fun i => channel image (origin + i) c :=
  ht.dot_nonneg fun i _ _ => channel_nonneg image (origin + i) c

theorem sampleWithAlpha_eq_ediv (hc : c ≠ alpha) (y : ℕ) :
    sampleWithAlpha image width t y c =
      (t.dot fun i => channel image (y * width + i) alpha * channel image (y * width + i) c) /
        (32640 : ℕ) := by
  have hdot : 0 ≤ t.dot fun i =>
      channel image (y * width + i) alpha * channel image (y * width + i) c :=
    ht.dot_nonneg fun i _ _ => mul_nonneg (channel_nonneg ..) (channel_nonneg ..)
  rw [sampleWithAlpha, if_neg hc, Int.tdiv_eq_ediv_of_nonneg hdot]
  omega

theorem sampleWithAlpha_le_alpha (y : ℕ) (c : Channel) :
    sampleWithAlpha image width t y c ≤ sampleWithAlpha image width t y alpha := by
  by_cases hc : c = alpha
  · rw [hc]
  · have hle : (t.dot fun i =>
        channel image (y * width + i) alpha * channel image (y * width + i) c) ≤
          255 * t.dot fun i => channel image (y * width + i) alpha := by
      rw [← dot_mul_left]
      refine ht.dot_le fun i _ _ => ?_
      rw [mul_comm (255 : ℤ)]
      exact mul_le_mul_of_nonneg_left (channel_le ..) (channel_nonneg ..)
    have halpha : sampleWithAlpha image width t y alpha =
        max 0 ((t.dot fun i => channel image (y * width + i) alpha) / 128) := if_pos rfl
    rw [sampleWithAlpha_eq_ediv ht hc, halpha]
    omega

theorem column_color_le (hu : u.Nonneg) (c : Channel) :
    column u (sampleWithAlpha image width t) c ≤
      column u (sampleWithAlpha image width t) alpha :=
  Int.ediv_le_ediv (by norm_num) (hu.dot_le fun y _ _ => sampleWithAlpha_le_alpha ht y c)

theorem color_of_clear (hu : u.Nonneg) (hclear : pixel u (sampleWithAlpha image width t) alpha = 0)
    (c : Channel) : pixelWithAlpha u (sampleWithAlpha image width t) c = 0 := by
  have hle : column u (sampleWithAlpha image width t) c ≤
      column u (sampleWithAlpha image width t) alpha := column_color_le ht hu c
  simp only [pixelWithAlpha, hclear, lt_irrefl, if_false]
  split_ifs
  · rfl
  -- the sum of alpha is below half a step, and that of the color is not above it
  · rw [pixel, nearestByte] at hclear
    rw [nearestByte]
    omega

theorem abs_windowSum_sub_column_le (hu : u.mass ≤ 32767) (hc : c ≠ alpha) :
    |windowSum width t u (fun i => channel image i alpha * channel image i c) -
      4177920 * column u (sampleWithAlpha image width t) c| ≤ 1073627393 := by
  have hsample : ∀ y, u.start ≤ y → y < u.stop → sampleWithAlpha image width t y c =
      (t.dot fun i => channel image (y * width + i) alpha * channel image (y * width + i) c) /
        (32640 : ℕ) :=
    fun y _ _ => sampleWithAlpha_eq_ediv ht hc y
  have hcut := abs_dot_sub_column_le (by norm_num) hu hsample
  exact_mod_cast hcut

end

theorem column_color_nonneg (hu : u.Nonneg) (c : Channel) :
    0 ≤ column u (sampleWithAlpha image width t) c := by
  have hsample : ∀ y, 0 ≤ sampleWithAlpha image width t y c := by
    intro y
    rw [sampleWithAlpha]
    split_ifs
    · exact le_max_left _ _
    · exact le_max_left _ _
  exact Int.ediv_nonneg (hu.dot_nonneg fun y _ _ => hsample y) (by norm_num)

theorem abs_divided_sub_le {a n v : ℤ} (ha : 0 < a) (htop : a ≤ 255) (hn : 0 ≤ n)
    (hv : v = nearestByte ((255 * n).tdiv a)) (hlt : v < 255) :
    |16384 * (a * v) - 255 * n| ≤ 8192 * 255 + 255 := by
  rw [Int.tdiv_eq_ediv_of_nonneg (by omega)] at hv
  have hquot : 0 ≤ 255 * n / a := Int.ediv_nonneg (by omega) ha.le
  have hlow : a * (255 * n / a) ≤ 255 * n := Int.mul_ediv_self_le ha.ne'
  have hhigh : 255 * n < a * (255 * n / a) + a := Int.lt_mul_ediv_self_add ha
  generalize 255 * n / a = q at hv hquot hlow hhigh
  have hround : |16384 * v - q| ≤ 8192 := by
    rw [nearestByte] at hv
    exact abs_le.2 ⟨by omega, by omega⟩
  have hscaled : |16384 * (a * v) - a * q| ≤ a * 8192 := by
    have hfactor : 16384 * (a * v) - a * q = a * (16384 * v - q) := by ring
    rw [hfactor, abs_mul, abs_of_pos ha]
    exact mul_le_mul_of_nonneg_left hround ha.le
  obtain ⟨hl, hr⟩ := abs_le.1 hscaled
  exact abs_le.2 ⟨by omega, by omega⟩

theorem abs_premultiplied_sub_mean_le (ht : t.Nonneg) (hu : u.Nonneg) (hmass : u.mass ≤ 32767)
    (hc : c ≠ alpha) {a v : ℤ} (ha : 0 < a)
    (ha_eq : a = pixel u (sampleWithAlpha image width t) alpha)
    (hv : v = pixelWithAlpha u (sampleWithAlpha image width t) c) (hlt : v < 255) :
    |(a * v / 255 : ℚ) - meanWithAlpha image width t u c| ≤ 1 / 2 + 1 / 32 := by
  set n := column u (sampleWithAlpha image width t) c with hn
  set sum := windowSum width t u fun i => channel image i alpha * channel image i c with hsum
  have htop : a ≤ 255 := by
    rw [ha_eq, pixel, nearestByte]
    omega
  have hbyte : v = nearestByte ((255 * n).tdiv a) := by
    simp only [hv, pixelWithAlpha, ← ha_eq, if_neg hc, if_pos ha, hn]
  have hdivided := abs_divided_sub_le ha htop (column_color_nonneg hu c) hbyte hlt
  have hcut : |sum - 4177920 * n| ≤ 1073627393 := abs_windowSum_sub_column_le ht hmass hc
  have hexact : |2 ^ 28 * (a * v) - sum| ≤ 255 * 2 ^ 28 / 2 + 255 * 2 ^ 28 / 32 := by
    obtain ⟨hl, hr⟩ := abs_le.1 hdivided
    obtain ⟨hl', hr'⟩ := abs_le.1 hcut
    exact abs_le.2 ⟨by omega, by omega⟩
  have hexact' : |(2 ^ 28 * (a * v) - sum : ℚ)| ≤ 36364615680 := by
    exact_mod_cast hexact
  have hsplit : (a * v / 255 : ℚ) - meanWithAlpha image width t u c =
      (2 ^ 28 * (a * v) - sum) / (255 * 2 ^ 28) := by
    rw [meanWithAlpha, ← hsum]
    ring
  rw [hsplit, abs_div, div_le_iff₀ (by norm_num)]
  exact hexact'.trans (by norm_num)

end Exact

section
variable {image : Array UInt8} {horizontal vertical : List Int16}
  {sourceWidth sourceHeight targetWidth targetHeight : UInt32} {canvas final : Canvas}

/-- Every byte of a plain resize is the exact sum over its window, saturated to a byte, up to half a
step and a 64th, wherever no sum of the first pass is cut off at zero. -/
theorem resample_near_mean
    (hrun : (resample image horizontal vertical sourceWidth sourceHeight targetWidth targetHeight
      false).run canvas = .ok () final) :
    ∃ rows columns : List Taps,
      Kernel.Reads horizontal sourceWidth.toNat targetWidth.toNat rows ∧
      Kernel.Reads vertical sourceHeight.toNat targetHeight.toNat columns ∧
      ∀ (x y : ℕ) (t u : Taps), rows[x]? = some t → columns[y]? = some u → ∀ c : Channel,
        (t.Nonneg ∨ ∀ j, u.start ≤ j → j < u.stop →
          0 ≤ t.dot fun i => Exact.channel image (j * sourceWidth.toNat + i) c) →
        |(((Pixel.ofImage final.target (y * targetWidth.toNat + x)).channel c).toNat : ℚ) -
          max 0 (min 255 (Exact.mean image sourceWidth.toNat t u c))| ≤ 1 / 2 + 1 / 64 := by
  obtain ⟨rows, columns, hrows, -, hcolumns, -, hresampled⟩ := exists_resampled_of_run hrun
  refine ⟨rows, columns, hrows, hcolumns, ?_⟩
  intro x y t u hx hy c hsums
  have hu := hcolumns.fits.2 u (List.mem_of_getElem? hy)
  have hsums' : ∀ j, u.start ≤ j → j < u.stop →
      0 ≤ t.dot fun i => Exact.channel image (j * sourceWidth.toNat + i) c := by
    rcases hsums with ht | hsums
    · exact fun j _ _ => Exact.dot_channel_nonneg ht _ c
    · exact hsums
  have hbyte : (((Pixel.ofImage final.target (y * targetWidth.toNat + x)).channel c).toNat : ℚ) =
      Exact.pixel u (Exact.sample image sourceWidth.toNat t) c := by
    exact_mod_cast hresampled.channel_eq hx hy c
  rw [hbyte]
  exact Exact.abs_pixel_sub_mean_le hsums' hu.mass_le

def slope : Array UInt8 := #[10, 200, 31, 255, 111, 3, 255, 128, 77, 90, 1, 3, 250, 9, 0, 64]

def slopeAfter : Canvas :=
  ⟨#[49, 77, 225, 202, 1], #[9898, 8788, 23083, 21802, 24619, 4607, 42, 5589, 5]⟩

theorem resample_near_mean_slope :
    let t : Taps := ⟨0, [5461, 10923]⟩
    let u : Taps := ⟨0, [20480, -4096]⟩
    (resample slope [0, 2, 5461, 10923] [0, 2, 20480, -4096] 2 2 1 1 false).run
        ⟨Array.replicate 5 1, Array.replicate 9 5⟩ = .ok () slopeAfter ∧
      t.Nonneg ∧ Exact.mean slope 2 t u 0 = 796017 / 16384 ∧
      |((49 : ℕ) : ℚ) - max 0 (min 255 (Exact.mean slope 2 t u 0))| ≤ 1 / 2 + 1 / 64 := by
  intro t u
  have hrun : (resample slope [0, 2, 5461, 10923] [0, 2, 20480, -4096] 2 2 1 1 false).run
      ⟨Array.replicate 5 1, Array.replicate 9 5⟩ = .ok () slopeAfter := by
    cbv
  have ht : t.Nonneg := by simp [Nonneg, t]
  have hmean : Exact.mean slope 2 t u 0 = 796017 / 16384 := by
    have hsum : Exact.windowSum 2 t u (fun i => Exact.channel slope i 0) = 13041942528 := by
      simp [Exact.windowSum, dot, Fin.sum_univ_succ, Exact.channel, slope, t, u]
    rw [Exact.mean, hsum]
    norm_num
  obtain ⟨rows, columns, hrows, hcolumns, hnear⟩ := resample_near_mean hrun
  obtain rfl : rows = [t] := hrows.unique ⟨_, rfl, rfl⟩
  obtain rfl : columns = [u] := hcolumns.unique ⟨_, rfl, rfl⟩
  exact ⟨hrun, ht, hmean, hnear 0 0 t u rfl rfl 0 (.inl ht)⟩

/-- Under weights that are not negative, the color of a resize with alpha times its alpha is the
exact sum of such products over its window, up to half a step and a 32nd, and where the alpha is
zero the color is. A color of 255 may be one that was saturated. -/
theorem resample_alpha_near_mean
    (hrun : (resample image horizontal vertical sourceWidth sourceHeight targetWidth targetHeight
      true).run canvas = .ok () final) :
    ∃ rows columns : List Taps,
      Kernel.Reads horizontal sourceWidth.toNat targetWidth.toNat rows ∧
      Kernel.Reads vertical sourceHeight.toNat targetHeight.toNat columns ∧
      ∀ (x y : ℕ) (t u : Taps), rows[x]? = some t → columns[y]? = some u → t.Nonneg → u.Nonneg →
        let p := Pixel.ofImage final.target (y * targetWidth.toNat + x)
        ∀ c ≠ alpha, (p.a = 0 → p.channel c = 0) ∧
          (0 < p.a.toNat → (p.channel c).toNat < 255 →
            |(p.a.toNat * (p.channel c).toNat / 255 : ℚ) -
              Exact.meanWithAlpha image sourceWidth.toNat t u c| ≤ 1 / 2 + 1 / 32) := by
  obtain ⟨rows, columns, hrows, -, hcolumns, -, hresampled⟩ := exists_resampled_of_run hrun
  refine ⟨rows, columns, hrows, hcolumns, ?_⟩
  intro x y t u hx hy ht hu p c hc
  have hmass := (hcolumns.fits.2 u (List.mem_of_getElem? hy)).mass_le
  have hcolor : ((p.channel c).toNat : ℤ) =
      Exact.pixelWithAlpha u (Exact.sampleWithAlpha image sourceWidth.toNat t) c :=
    hresampled.channel_eq hx hy c
  have halpha : (p.a.toNat : ℤ) =
      Exact.pixel u (Exact.sampleWithAlpha image sourceWidth.toNat t) alpha :=
    (hresampled.channel_eq hx hy alpha).trans Exact.pixelOf_alpha
  constructor
  · intro hclear
    have hzero : Exact.pixel u (Exact.sampleWithAlpha image sourceWidth.toNat t) alpha = 0 := by
      rw [← halpha, hclear]
      rfl
    have hval := hcolor.trans (Exact.color_of_clear ht hu hzero c)
    exact UInt8.toNat_inj.1 (Nat.cast_eq_zero.1 hval)
  · intro hpos hlt
    have hnear := Exact.abs_premultiplied_sub_mean_le ht hu hmass hc (Nat.cast_pos.2 hpos) halpha
      hcolor (by omega)
    rwa [Int.cast_natCast, Int.cast_natCast] at hnear

def slopeAfterAlpha : Canvas :=
  ⟨#[74, 95, 133, 140, 1], #[5181, 8661, 12245, 21802, 5393, 237, 0, 5589, 5]⟩

theorem resample_alpha_near_mean_slope :
    let t : Taps := ⟨0, [5461, 10923]⟩
    let u : Taps := ⟨0, [12480, 3904]⟩
    (resample slope [0, 2, 5461, 10923] [0, 2, 12480, 3904] 2 2 1 1 true).run
        ⟨Array.replicate 5 1, Array.replicate 9 5⟩ = .ok () slopeAfterAlpha ∧
      t.Nonneg ∧ u.Nonneg ∧ Exact.meanWithAlpha slope 2 t u 0 = 14572036027 / 356515840 ∧
      |((140 : ℕ) * (74 : ℕ) / 255 : ℚ) - Exact.meanWithAlpha slope 2 t u 0| ≤ 1 / 2 + 1 / 32 := by
  intro t u
  have hrun : (resample slope [0, 2, 5461, 10923] [0, 2, 12480, 3904] 2 2 1 1 true).run
      ⟨Array.replicate 5 1, Array.replicate 9 5⟩ = .ok () slopeAfterAlpha := by
    cbv
  have ht : t.Nonneg := by simp [Nonneg, t]
  have hu : u.Nonneg := by simp [Nonneg, u]
  have hmean : Exact.meanWithAlpha slope 2 t u 0 = 14572036027 / 356515840 := by
    have hsum : Exact.windowSum 2 t u (fun i => Exact.channel slope i alpha *
        Exact.channel slope i 0) = 2797830917184 := by
      simp [Exact.windowSum, dot, Fin.sum_univ_succ, Exact.channel, slope, t, u, alpha]
    rw [Exact.meanWithAlpha, hsum]
    norm_num
  obtain ⟨rows, columns, hrows, hcolumns, hnear⟩ := resample_alpha_near_mean hrun
  obtain rfl : rows = [t] := hrows.unique ⟨_, rfl, rfl⟩
  obtain rfl : columns = [u] := hcolumns.unique ⟨_, rfl, rfl⟩
  obtain ⟨-, hcolor⟩ := hnear 0 0 t u rfl rfl ht hu 0 (by decide)
  exact ⟨hrun, ht, hu, hmean, hcolor (by decide) (by decide)⟩

end

end Resize
end FixedRaster
