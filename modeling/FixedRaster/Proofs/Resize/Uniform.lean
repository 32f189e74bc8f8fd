import Mathlib
import FixedRaster.Proofs.Resize.Opaque

/-!
# Areas of one color

A row of taps that sums to one leaves a run of equal inputs as it is, whatever the signs of its
weights: the shifts of both passes then drop zeros only. With alpha, the color is multiplied by it
and divided again, and what the division by 255 cuts off comes back enlarged by 255 over alpha. From
an alpha of 4 on that is less than half a step of a byte.
-/

namespace FixedRaster
open Taps

namespace Resize

def UniformOver (image : Array UInt8) (width : ℕ) (t u : Taps) (p : Pixel) : Prop :=
  ∀ y < u.stop, u.start ≤ y → ∀ x < t.stop, t.start ≤ x →
    Pixel.ofImage image (y * width + x) = p

instance (image : Array UInt8) (width : ℕ) (t u : Taps) (p : Pixel) :
    Decidable (UniformOver image width t u p) :=
  inferInstanceAs (Decidable (∀ y < u.stop, _))

structure Survives (withAlpha : Bool) (p q : Pixel) : Prop where
  of_plain : withAlpha = false → q = p
  a_eq : q.a = p.a
  of_clear : withAlpha = true → p.a = 0 → q = ⟨0, 0, 0, 0⟩
  of_four_le : 4 ≤ p.a.toNat → q = p
  near : 0 < p.a.toNat → ∀ c, (q.channel c).toNat ≤ (p.channel c).toNat ∧
    (p.channel c).toNat ≤ (q.channel c).toNat + 2

namespace Exact
variable {image : Array UInt8} {width y : ℕ} {t u : Taps} {samples : ℕ → Channel → ℤ} {c : Channel}
  {a v s n : ℤ}

theorem nearestByte_of_near (hv : 0 ≤ v) (htop : v ≤ 255) (hlow : 16384 * v - 8192 ≤ n)
    (hhigh : n < 16384 * v + 8192) : nearestByte n = v := by
  rw [nearestByte]
  omega

theorem sample_of_total (htotal : t.total = Q14.one.toInt) (hv : 0 ≤ v)
    (h : ∀ i, t.start ≤ i → i < t.stop → channel image (y * width + i) c = v) :
    sample image width t y c = 128 * v := by
  rw [sample, dot_of_total h htotal]
  omega

theorem sampleWithAlpha_of_total (htotal : t.total = Q14.one.toInt) (hc : c ≠ alpha)
    (ha : 0 ≤ a) (hv : 0 ≤ v)
    (halpha : ∀ i, t.start ≤ i → i < t.stop → channel image (y * width + i) alpha = a)
    (hcolor : ∀ i, t.start ≤ i → i < t.stop → channel image (y * width + i) c = v) :
    sampleWithAlpha image width t y c = 128 * (a * v) / 255 := by
  have hdot : (t.dot fun i => channel image (y * width + i) alpha *
      channel image (y * width + i) c) = 16384 * (a * v) :=
    dot_of_total (fun i hi hi' => by rw [halpha i hi hi', hcolor i hi hi']) htotal
  have hprod : 0 ≤ a * v := mul_nonneg ha hv
  rw [sampleWithAlpha, if_neg hc, hdot, Int.tdiv_eq_ediv_of_nonneg (by omega)]
  omega

theorem column_of_total (htotal : u.total = Q14.one.toInt)
    (h : ∀ y, u.start ≤ y → y < u.stop → samples y c = s) : column u samples c = 128 * s := by
  rw [column, dot_of_total h htotal]
  omega

theorem pixel_of_total (htotal : u.total = Q14.one.toInt) (hv : 0 ≤ v) (htop : v ≤ 255)
    (h : ∀ y, u.start ≤ y → y < u.stop → samples y c = 128 * v) : pixel u samples c = v := by
  rw [pixel, column_of_total htotal h]
  exact nearestByte_of_near hv htop (by omega) (by omega)

/-- What the division by alpha makes of a color that was multiplied by it is never above the color,
and `a` times the shortfall is bounded. -/
theorem divided_bounds (ha : 0 < a) (hv : 0 ≤ v) :
    (255 * (128 * (128 * (a * v) / 255))).tdiv a ≤ 16384 * v ∧
      a * (16384 * v - (255 * (128 * (128 * (a * v) / 255))).tdiv a - 1) < 32512 := by
  have hprod : 0 ≤ a * v := mul_nonneg ha.le hv
  rw [Int.tdiv_eq_ediv_of_nonneg (by omega)]
  set s := 128 * (a * v) / 255 with hs
  set q := 255 * (128 * s) / a with hq
  have hlow : a * q ≤ 255 * (128 * s) := Int.mul_ediv_self_le ha.ne'
  have hhigh : 255 * (128 * s) < a * q + a := Int.lt_mul_ediv_self_add ha
  have hexpand : a * (16384 * v - q - 1) = 16384 * (a * v) - a * q - a := by ring
  constructor
  · apply le_of_mul_le_mul_left _ ha
    calc a * q ≤ 16384 * (a * v) := by omega
      _ = a * (16384 * v) := by ring
  · rw [hexpand]
    omega

theorem nearestByte_divided (ha : 0 < a) (hv : 0 ≤ v) (htop : v ≤ 255) :
    nearestByte ((255 * (128 * (128 * (a * v) / 255))).tdiv a) ≤ v ∧
      v ≤ nearestByte ((255 * (128 * (128 * (a * v) / 255))).tdiv a) + 2 ∧
      (4 ≤ a → nearestByte ((255 * (128 * (128 * (a * v) / 255))).tdiv a) = v) := by
  obtain ⟨hle, hshort⟩ := divided_bounds ha hv
  generalize (255 * (128 * (128 * (a * v) / 255))).tdiv a = q at hle hshort
  -- the shortfall is less than two steps of a byte at alpha 1, less than half a step from 4 on
  have hbound : ∀ k : ℤ, 0 < k → k ≤ a → k * (16384 * v - q - 1) < 32512 := by
    intro k hk hka
    rcases lt_or_ge (16384 * v - q - 1) 0 with hneg | hpos
    · have := mul_neg_of_pos_of_neg hk hneg
      omega
    · exact lt_of_le_of_lt (mul_le_mul_of_nonneg_right hka hpos) hshort
  have hone := hbound 1 (by norm_num) (by omega)
  refine ⟨?_, ?_, ?_⟩
  · rw [nearestByte]
    omega
  · rw [nearestByte]
    omega
  · intro hfour
    have := hbound 4 (by norm_num) hfour
    exact nearestByte_of_near hv htop (by omega) (by omega)

end Exact

section
variable {image : Array UInt8} {width : ℕ} {t u : Taps} {p q : Pixel}

theorem UniformOver.channel_eq (h : UniformOver image width t u p) (c : Channel) {y : ℕ}
    (hy : u.start ≤ y) (hy' : y < u.stop) :
    ∀ i, t.start ≤ i → i < t.stop →
      Exact.channel image (y * width + i) c = (p.channel c).toNat := by
  intro i hi hi'
  rw [Exact.channel_eq, h y hy' hy i hi' hi]

theorem UniformOver.pixel_eq (h : UniformOver image width t u p) (ht : t.total = Q14.one.toInt)
    (hu : u.total = Q14.one.toInt) (c : Channel) :
    Exact.pixel u (Exact.sample image width t) c = (p.channel c).toNat := by
  have hbyte := (p.channel c).toNat_lt
  refine Exact.pixel_of_total hu (by omega) (by omega) fun y hy hy' => ?_
  exact Exact.sample_of_total ht (by omega) (h.channel_eq c hy hy')

theorem UniformOver.pixel_alpha_eq (h : UniformOver image width t u p)
    (ht : t.total = Q14.one.toInt) (hu : u.total = Q14.one.toInt) :
    Exact.pixel u (Exact.sampleWithAlpha image width t) alpha = p.a.toNat :=
  (Exact.pixel_congr fun _ _ _ => if_pos rfl).trans (h.pixel_eq ht hu alpha)

theorem UniformOver.pixelWithAlpha_color (h : UniformOver image width t u p)
    (ht : t.total = Q14.one.toInt) (hu : u.total = Q14.one.toInt) {c : Channel} (hc : c ≠ alpha) :
    Exact.pixelWithAlpha u (Exact.sampleWithAlpha image width t) c =
      if 0 < p.a.toNat then Exact.nearestByte
        ((255 * (128 * (128 * ((p.a.toNat : ℤ) * (p.channel c).toNat) / 255))).tdiv p.a.toNat)
      else 0 := by
  have hcolumn : Exact.column u (Exact.sampleWithAlpha image width t) c =
      128 * (128 * ((p.a.toNat : ℤ) * (p.channel c).toNat) / 255) := by
    refine Exact.column_of_total hu fun y hy hy' => ?_
    exact Exact.sampleWithAlpha_of_total ht hc (by omega) (by omega) (h.channel_eq alpha hy hy')
      (h.channel_eq c hy hy')
  simp only [Exact.pixelWithAlpha, h.pixel_alpha_eq ht hu, if_neg hc, hcolumn,
    Nat.cast_pos]
  split_ifs with hpos
  · rfl
  · have hzero : p.a.toNat = 0 := by omega
    rw [hzero]
    norm_num [Exact.nearestByte]

theorem eq_of_alpha_of_colors (ha : q.a = p.a) (h : ∀ c ≠ alpha, q.channel c = p.channel c) :
    q = p := by
  apply Pixel.eq_of_channel
  intro c
  by_cases hc : c = alpha
  · rw [hc]
    exact ha
  · exact h c hc

theorem survives_of_eq (h : q = p) : Survives false p q := by
  subst h
  constructor
  case of_plain => exact fun _ => rfl
  case a_eq => rfl
  case of_clear => simp
  case of_four_le => exact fun _ => rfl
  case near => exact fun _ c => ⟨le_rfl, Nat.le_add_right _ 2⟩

theorem UniformOver.eq_of_plain (h : UniformOver image width t u p)
    (ht : t.total = Q14.one.toInt) (hu : u.total = Q14.one.toInt)
    (hq : ∀ c, ((q.channel c).toNat : ℤ) = Exact.pixel u (Exact.sample image width t) c) :
    q = p := by
  apply Pixel.eq_of_channel
  intro c
  have hc := hq c
  rw [h.pixel_eq ht hu, Nat.cast_inj] at hc
  exact UInt8.toNat_inj.1 hc

section
variable (h : UniformOver image width t u p) (ht : t.total = Q14.one.toInt)
  (hu : u.total = Q14.one.toInt)
  (hq : ∀ c, ((q.channel c).toNat : ℤ) =
    Exact.pixelWithAlpha u (Exact.sampleWithAlpha image width t) c)
include h ht hu hq

theorem UniformOver.alpha_eq : q.a = p.a := by
  have halpha := Exact.pixelOf_alpha_eq image width t u true
  have hval := ((hq alpha).trans halpha).trans (h.pixel_eq ht hu alpha)
  exact UInt8.toNat_inj.1 (Nat.cast_inj.1 hval)

theorem UniformOver.color_zero (ha : p.a.toNat = 0) {c : Channel} (hc : c ≠ alpha) :
    q.channel c = 0 := by
  have hval := hq c
  rw [h.pixelWithAlpha_color ht hu hc, if_neg (by omega), Nat.cast_eq_zero] at hval
  exact UInt8.toNat_inj.1 hval

theorem UniformOver.color_near (ha : 0 < p.a.toNat) {c : Channel} (hc : c ≠ alpha) :
    (q.channel c).toNat ≤ (p.channel c).toNat ∧
      (p.channel c).toNat ≤ (q.channel c).toNat + 2 ∧
      (4 ≤ p.a.toNat → (q.channel c).toNat = (p.channel c).toNat) := by
  have hbyte := (p.channel c).toNat_lt
  have hval := hq c
  rw [h.pixelWithAlpha_color ht hu hc, if_pos ha] at hval
  have hnear := Exact.nearestByte_divided (a := p.a.toNat) (v := (p.channel c).toNat)
    (by omega) (by omega) (by omega)
  rw [← hval] at hnear
  omega

theorem UniformOver.survives_withAlpha : Survives true p q := by
  have ha := h.alpha_eq ht hu hq
  constructor
  case of_plain => simp
  case a_eq => exact ha
  case of_clear =>
    intro _ hclear
    refine eq_of_alpha_of_colors (ha.trans hclear) fun c hc => ?_
    rw [h.color_zero ht hu hq (congrArg UInt8.toNat hclear) hc]
    fin_cases c <;> rfl
  case of_four_le =>
    intro hfour
    refine eq_of_alpha_of_colors ha fun c hc => ?_
    exact UInt8.toNat_inj.1 ((h.color_near ht hu hq (by omega) hc).2.2 hfour)
  case near =>
    intro hpos c
    by_cases hc : c = alpha
    · have heq : q.channel c = p.channel c := by
        rw [hc]
        exact ha
      rw [heq]
      exact ⟨le_rfl, Nat.le_add_right _ 2⟩
    · obtain ⟨hle, hle', -⟩ := h.color_near ht hu hq hpos hc
      exact ⟨hle, hle'⟩

end

theorem UniformOver.survives {withAlpha : Bool} (h : UniformOver image width t u p)
    (ht : t.total = Q14.one.toInt) (hu : u.total = Q14.one.toInt)
    (hq : ∀ c, ((q.channel c).toNat : ℤ) =
      Exact.pixelOf withAlpha u (Exact.sampleOf withAlpha image width t) c) :
    Survives withAlpha p q := by
  cases withAlpha with
  | false => exact survives_of_eq (h.eq_of_plain ht hu hq)
  | true => exact h.survives_withAlpha ht hu hq

end

theorem uniformOver_of_forall {image : Array UInt8} {width height : ℕ} {t u : Taps} {p : Pixel}
    (ht : t.Fits width) (hu : u.Fits height)
    (h : ∀ i < width * height, Pixel.ofImage image i = p) : UniformOver image width t u p := by
  intro y hy _ x hx _
  have hstop := ht.stop_le
  have hstop' := hu.stop_le
  apply h
  rw [Nat.mul_comm width]
  exact place_lt (by omega) (by omega)

def unit (i : ℕ) : Taps := ⟨i, [Q14.one.toInt16]⟩

theorem total_unit (i : ℕ) : (unit i).total = Q14.one.toInt := rfl

theorem fits_unit {i length : ℕ} (hi : i < length) (h : length ≤ 32768) :
    (unit i).Fits length := by
  have hlength : (unit i).weights.length = 1 := rfl
  have hmass : (unit i).mass = 16384 := rfl
  have hstop : (unit i).stop = i + 1 := rfl
  have hstart : (unit i).start = i := rfl
  exact ⟨by omega, by omega, by omega, by omega⟩

def unitRows (length : ℕ) : List Taps := (List.range length).map unit

theorem getElem?_unitRows {length i : ℕ} {t : Taps} (h : (unitRows length)[i]? = some t) :
    i < length ∧ t = unit i := by
  obtain ⟨hi, rfl⟩ := List.getElem?_eq_some_iff.1 h
  simp only [unitRows, List.length_map, List.length_range] at hi
  simp [unitRows, hi]

theorem packUnit_eq (length : ℕ) : packUnit length = packedRows (unitRows length) := by
  rw [← packAll_eq_packedRows, packUnit, unitRows, List.map_map]
  rfl

theorem reads_packUnit {length : ℕ} (h : length ≤ 32768) :
    Kernel.Reads (packUnit length) length length (unitRows length) := by
  have hlength : (unitRows length).length = length := by
    rw [unitRows, List.length_map, List.length_range]
  have hfits : ∀ t ∈ unitRows length, t.Fits length := by
    intro t ht
    obtain ⟨i, hi⟩ := List.getElem?_of_mem ht
    obtain ⟨hlt, rfl⟩ := getElem?_unitRows hi
    exact fits_unit hlt h
  have hread := unpack?_packedRows hfits []
  rw [List.append_nil, hlength] at hread
  have hkernel : Kernel.ofPacked? (packUnit length) length length =
      .ok ⟨packedRows (unitRows length), length⟩ :=
    Kernel.ofPacked?_eq_ok_iff.2
      ⟨unitRows length, [], hlength, hfits, by rw [packUnit_eq, List.append_nil], rfl⟩
  exact ⟨_, hkernel, hread⟩

theorem uniformOver_unit (image : Array UInt8) (width x y : ℕ) :
    UniformOver image width (unit x) (unit y) (Pixel.ofImage image (y * width + x)) := by
  intro j hj' hj i hi' hi
  have hy : j = y := Nat.le_antisymm (Nat.le_of_lt_succ hj') hj
  have hx : i = x := Nat.le_antisymm (Nat.le_of_lt_succ hi') hi
  rw [hy, hx]

theorem resample_packUnit {width height : UInt32} (hwidth : width.toNat ≤ 32768)
    (hheight : height.toNat ≤ 32768) (hwidth0 : width ≠ 0) (hheight0 : height ≠ 0)
    {image : Array UInt8} {canvas : Canvas} (himage : 4 * width.toNat * height.toNat ≤ image.size)
    (htarget : 4 * width.toNat * height.toNat ≤ canvas.target.size)
    (hmiddle : 4 * width.toNat * height.toNat ≤ canvas.middle.size) (withAlpha : Bool) :
    ∃ final, (resample image (packUnit width.toNat) (packUnit height.toNat) width height width
        height withAlpha).run canvas = .ok () final ∧
      ∀ i < width.toNat * height.toNat,
        Survives withAlpha (Pixel.ofImage image i) (Pixel.ofImage final.target i) := by
  have harea : width.toNat * height.toNat ≤ 32768 * 32768 := Nat.mul_le_mul hwidth hheight
  have hcount : 4 * height.toNat * width.toNat = 4 * (width.toNat * height.toNat) := by ring
  rw [Nat.mul_assoc] at htarget hmiddle
  obtain ⟨e, he, hbytes⟩ := Extent.exists_of?_le_iff.2
    ⟨hwidth0, hheight0, by rw [Nat.mul_assoc]; omega, himage⟩
  obtain ⟨hew, heh⟩ := Extent.of?_eq_ok_iff.1 he
  obtain ⟨across, hacross, hrows⟩ := reads_packUnit hwidth
  obtain ⟨down, hdown, hcolumns⟩ := reads_packUnit hheight
  have hadmits : Admits image (packUnit width.toNat) (packUnit height.toNat) width height width
      height canvas e e across down := by
    refine ⟨he, he, hbytes, ?_, by omega, by omega, by rwa [hew], by rwa [heh]⟩
    rw [Extent.bytes_eq he]
    omega
  obtain ⟨final, rows, columns, hrun, hreads, hrlen, hreads', hclen, hresampled⟩ :=
    resample_of_admits hadmits withAlpha
  obtain rfl : rows = unitRows width.toNat := hreads.unique ⟨across, hacross, hrows⟩
  obtain rfl : columns = unitRows height.toNat := hreads'.unique ⟨down, hdown, hcolumns⟩
  refine ⟨final, hrun, ?_⟩
  intro i hi
  obtain ⟨x, y, t, u, hx, hy, rfl⟩ := exists_cell hrlen hclen hi
  obtain ⟨-, rfl⟩ := getElem?_unitRows hx
  obtain ⟨-, rfl⟩ := getElem?_unitRows hy
  exact (uniformOver_unit image width.toNat x y).survives (total_unit x) (total_unit y)
    (hresampled.channel_eq hx hy)

/-- A resize whose rows sum to one leaves areas of one color as they are: a pixel whose whole window
is of one color, an image of one color and, under the unit kernels, every image. Without alpha
nothing of the pixel is lost, and with alpha nothing from an alpha of 4 on. -/
theorem resample_survives :
    (∀ {image : Array UInt8} {horizontal vertical : List Int16}
      {sourceWidth sourceHeight targetWidth targetHeight : UInt32} {withAlpha : Bool}
      {canvas final : Canvas},
      (resample image horizontal vertical sourceWidth sourceHeight targetWidth targetHeight
        withAlpha).run canvas = .ok () final →
      ∃ rows columns : List Taps,
        Kernel.Reads horizontal sourceWidth.toNat targetWidth.toNat rows ∧
        Kernel.Reads vertical sourceHeight.toNat targetHeight.toNat columns ∧
        (∀ (x y : ℕ) (t u : Taps) (p : Pixel), rows[x]? = some t → columns[y]? = some u →
          t.total = Q14.one.toInt → u.total = Q14.one.toInt →
          UniformOver image sourceWidth.toNat t u p →
          Survives withAlpha p (Pixel.ofImage final.target (y * targetWidth.toNat + x))) ∧
        ((∀ t ∈ rows, t.total = Q14.one.toInt) → (∀ u ∈ columns, u.total = Q14.one.toInt) →
          ∀ p, (∀ i < sourceWidth.toNat * sourceHeight.toNat, Pixel.ofImage image i = p) →
            ∀ i < targetWidth.toNat * targetHeight.toNat,
              Survives withAlpha p (Pixel.ofImage final.target i))) ∧
    (∀ length ≤ 32768, ∃ k, Kernel.ofPacked? (packUnit length) length length = .ok k) ∧
    ∀ width height : UInt32, width.toNat ≤ 32768 → height.toNat ≤ 32768 → width ≠ 0 →
      height ≠ 0 → ∀ (image : Array UInt8) (canvas : Canvas),
      4 * width.toNat * height.toNat ≤ image.size →
      4 * width.toNat * height.toNat ≤ canvas.target.size →
      4 * width.toNat * height.toNat ≤ canvas.middle.size → ∀ withAlpha,
      ∃ final, (resample image (packUnit width.toNat) (packUnit height.toNat) width height width
          height withAlpha).run canvas = .ok () final ∧
        ∀ i < width.toNat * height.toNat,
          Survives withAlpha (Pixel.ofImage image i) (Pixel.ofImage final.target i) := by
  refine ⟨?_, ?_, ?_⟩
  · intro image horizontal vertical sourceWidth sourceHeight targetWidth targetHeight withAlpha
      canvas final hrun
    obtain ⟨rows, columns, hrows, hrlen, hcolumns, hclen, hresampled⟩ :=
      exists_resampled_of_run hrun
    refine ⟨rows, columns, hrows, hcolumns, ?_, ?_⟩
    · intro x y t u p hx hy ht hu huniform
      exact huniform.survives ht hu (hresampled.channel_eq hx hy)
    · intro hrtotal hctotal p hall i hi
      obtain ⟨x, y, t, u, hx, hy, rfl⟩ := exists_cell hrlen hclen hi
      have ht := List.mem_of_getElem? hx
      have hu := List.mem_of_getElem? hy
      have huniform := uniformOver_of_forall (hrows.fits.2 t ht) (hcolumns.fits.2 u hu) hall
      exact huniform.survives (hrtotal t ht) (hctotal u hu) (hresampled.channel_eq hx hy)
  · intro length hlength
    obtain ⟨k, hk, -⟩ := reads_packUnit hlength
    exact ⟨k, hk⟩
  · intro width height hwidth hheight hwidth0 hheight0 image canvas himage htarget hmiddle withAlpha
    exact resample_packUnit hwidth hheight hwidth0 hheight0 himage htarget hmiddle withAlpha

def shade : Array UInt8 :=
  #[200, 90, 33, 1, 200, 90, 33, 1, 200, 90, 33, 1, 1, 2, 3, 4,
    200, 90, 33, 1, 200, 90, 33, 1, 200, 90, 33, 1, 250, 9, 0, 255]

def shadeAfter : Canvas :=
  ⟨#[199, 90, 32, 1, 0, 0, 0, 0, 1],
    #[100, 45, 16, 128, 100, 45, 16, 128, 51, 24, 11, 320, 16050, 598, 8, 16384, 5]⟩

theorem resample_survives_shade :
    let across : List Int16 := [0, 3, -2048, 20480, -2048, 2, 2, 8192, 8192]
    let down : List Int16 := [0, 2, 20480, -4096]
    let plain : Array UInt8 := #[9, 8, 7, 6, 9, 8, 7, 6]
    (resample shade across down 4 2 2 1 true).run ⟨Array.replicate 9 1, Array.replicate 17 5⟩ =
        .ok () shadeAfter ∧
      UniformOver shade 4 ⟨0, [-2048, 20480, -2048]⟩ ⟨0, [20480, -4096]⟩ ⟨200, 90, 33, 1⟩ ∧
      Survives true ⟨200, 90, 33, 1⟩ (Pixel.ofImage shadeAfter.target 0) ∧
      (∃ final, (resample plain down [0, 1, 16384] 2 1 1 1 false).run
        ⟨Array.replicate 4 1, Array.replicate 4 5⟩ = .ok () final ∧
        Pixel.ofImage final.target 0 = ⟨9, 8, 7, 6⟩) ∧
      (∃ k, Kernel.ofPacked? (packUnit 4) 4 4 = .ok k) ∧
      ∃ final, (resample shade (packUnit 4) (packUnit 2) 4 2 4 2 false).run
          ⟨Array.replicate 32 1, Array.replicate 32 5⟩ = .ok () final ∧
        ∀ i < 8, Pixel.ofImage final.target i = Pixel.ofImage shade i := by
  intro across down plain
  obtain ⟨hresized, haccepted, hcopied⟩ := resample_survives
  have hrun : (resample shade across down 4 2 2 1 true).run
      ⟨Array.replicate 9 1, Array.replicate 17 5⟩ = .ok () shadeAfter := by
    cbv
  have huniform : UniformOver shade 4 ⟨0, [-2048, 20480, -2048]⟩ ⟨0, [20480, -4096]⟩
      ⟨200, 90, 33, 1⟩ := by
    decide
  have hplain : (resample plain down [0, 1, 16384] 2 1 1 1 false).run
      ⟨Array.replicate 4 1, Array.replicate 4 5⟩ =
        .ok () ⟨#[9, 8, 7, 6], #[1152, 1024, 896, 768]⟩ := by
    cbv
  refine ⟨hrun, huniform, ?_, ⟨_, hplain, ?_⟩, haccepted 4 (by decide), ?_⟩
  · obtain ⟨rows, columns, hrows, hcolumns, hwindow, -⟩ := hresized hrun
    obtain rfl : rows = [⟨0, [-2048, 20480, -2048]⟩, ⟨2, [8192, 8192]⟩] :=
      hrows.unique ⟨_, rfl, rfl⟩
    obtain rfl : columns = [⟨0, [20480, -4096]⟩] := hcolumns.unique ⟨_, rfl, rfl⟩
    exact hwindow 0 0 _ _ _ rfl rfl (by decide) (by decide) huniform
  · obtain ⟨rows, columns, hrows, hcolumns, -, hall⟩ := hresized hplain
    obtain rfl : rows = [⟨0, [20480, -4096]⟩] := hrows.unique ⟨_, rfl, rfl⟩
    obtain rfl : columns = [⟨0, [16384]⟩] := hcolumns.unique ⟨_, rfl, rfl⟩
    exact (hall (by decide) (by decide) ⟨9, 8, 7, 6⟩ (by decide) 0 (by decide)).of_plain rfl
  · obtain ⟨final, hcopy, hkeeps⟩ := hcopied 4 2 (by decide) (by decide) (by decide) (by decide)
      shade ⟨Array.replicate 32 1, Array.replicate 32 5⟩ (by decide) (by decide) (by decide) false
    exact ⟨final, hcopy, fun i hi => (hkeeps i hi).of_plain rfl⟩

end Resize
end FixedRaster
