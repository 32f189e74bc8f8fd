import Mathlib
import FixedRaster.Proofs.Gaussian.Passes
import FixedRaster.Proofs.Serving

/-!
# A blur filters rows and then columns

The first pass writes row `y` of the filtered plane into column `y` of the scratch plane, so row `x`
of the scratch plane is column `x` of the filtered plane. The second pass filters these columns and
writes them back upright.
-/

namespace FixedRaster.Gaussian

def Coefficients.filtered (c : Coefficients) (line : List UInt16) : List UInt16 :=
  (c.response line).2

theorem Coefficients.length_filtered (c : Coefficients) (line : List UInt16) :
    (c.filtered line).length = line.length := c.length_response line

theorem exists_filterLine?_alone (c : Coefficients) (line : List UInt16)
    {buffers : Array Float32 × Array UInt16} (hbuffer : line.length ≤ buffers.1.size)
    (hout : line.length ≤ buffers.2.size) :
    ∃ after, filterLine? c line 1 0 buffers = some after ∧
      ∀ i < line.length, after.2[i]? = (c.filtered line)[i]? := by
  obtain ⟨after, hfilter, -, -, hcolumn, -⟩ :=
    exists_filterLine? c line Nat.one_pos hbuffer (by omega)
  refine ⟨after, hfilter, ?_⟩
  intro i hi
  have hget := hcolumn i hi
  rwa [Nat.mul_one, Nat.add_zero] at hget

def filteredRow (c : Coefficients) (plane : Array UInt16) (width y : ℕ) : List UInt16 :=
  c.filtered (row plane width y)

/-- Column `x` of the plane whose rows are filtered, from top to bottom. -/
def filteredColumn (c : Coefficients) (plane : Array UInt16) (width height x : ℕ) : List UInt16 :=
  (List.range height).map fun y => (filteredRow c plane width y).getD x 0

structure Separable (c : Coefficients) (plane : Array UInt16) (width height : ℕ)
    (before after : Array UInt16 × Scratch) : Prop where
  out_eq : ∀ x < width, ∀ y < height, ∃ v,
    (c.filtered (filteredColumn c plane width height x))[y]? = some v ∧
      after.1[y * width + x]? = some v
  plane_eq : ∀ x < width, ∀ y < height, ∃ v,
    (filteredRow c plane width y)[x]? = some v ∧ after.2.plane[x * height + y]? = some v
  out_behind : ∀ i, width * height ≤ i → after.1[i]? = before.1[i]?
  plane_behind : ∀ i, width * height ≤ i → after.2.plane[i]? = before.2.plane[i]?
  line_behind : ∀ i, max width height ≤ i → after.2.line[i]? = before.2.line[i]?
  sizes : after.1.size = before.1.size ∧ after.2.plane.size = before.2.plane.size ∧
    after.2.line.size = before.2.line.size

section
variable {c : Coefficients} {plane : Array UInt16} {width height : ℕ}

theorem length_filteredRow {y : ℕ} (hplane : height * width ≤ plane.size) (hy : y < height) :
    (filteredRow c plane width y).length = width := by
  have hstop := Nat.mul_le_mul_right width (show y + 1 ≤ height from hy)
  rw [filteredRow, c.length_filtered, length_row (by omega)]

theorem length_filteredColumn (x : ℕ) :
    (filteredColumn c plane width height x).length = height := by
  rw [filteredColumn, List.length_map, List.length_range]

/-- Row `x` that the first pass leaves is column `x` of the plane whose rows are filtered. -/
theorem Filtered.row_eq {before after : Array Float32 × Array UInt16}
    (h : Filtered c plane width height height before after) (hplane : height * width ≤ plane.size)
    {x : ℕ} (hx : x < width) :
    row after.2 height x = filteredColumn c plane width height x := by
  apply List.ext_getElem?
  intro y
  by_cases hy : y < height
  · have hlength : x < (filteredRow c plane width y).length := by
      rwa [length_filteredRow hplane hy]
    have hcell : after.2[x * height + y]? = (filteredRow c plane width y)[x]? := h.out_eq y hy x hx
    rw [getElem?_row hy, hcell, filteredColumn, List.getElem?_map, List.getElem?_range hy,
      Option.map_some, List.getD_eq_getElem?_getD, List.getElem?_eq_getElem hlength,
      Option.getD_some]
  · have hrow := length_row_le after.2 height x
    have hcolumn : (filteredColumn c plane width height x).length = height :=
      length_filteredColumn x
    rw [List.getElem?_eq_none (by omega), List.getElem?_eq_none (by omega)]

end

section
variable {c : Coefficients} {e : Extent} {plane : Array UInt16}
  {before after : Array UInt16 × Scratch}

theorem Blurred.separable (h : Blurred c e plane before after) (hplane : e.pixels ≤ plane.size) :
    Separable c plane e.width e.height before after := by
  obtain ⟨hbehind, hbehindplane, hbehindline⟩ := h.behind
  have hsizes := h.sizes
  obtain ⟨line, hfirst, hsecond⟩ := h
  have hplane' : e.height * e.width ≤ plane.size := by rwa [Nat.mul_comm]
  refine ⟨?_, ?_, hbehind, hbehindplane, hbehindline, hsizes⟩
  · -- the second pass reads row `x` of the scratch plane and writes it along column `x`
    intro x hx y hy
    have hcell : after.1[y * e.width + x]? = (c.filtered (row after.2.plane e.height x))[y]? :=
      hsecond.out_eq x hx y hy
    have hlength : y < (c.filtered (filteredColumn c plane e.width e.height x)).length := by
      rwa [c.length_filtered, length_filteredColumn]
    rw [hfirst.row_eq hplane' hx] at hcell
    exact ⟨_, List.getElem?_eq_getElem hlength, hcell.trans (List.getElem?_eq_getElem hlength)⟩
  · intro x hx y hy
    have hcell : after.2.plane[x * e.height + y]? = (filteredRow c plane e.width y)[x]? :=
      hfirst.out_eq y hy x hx
    have hlength : x < (filteredRow c plane e.width y).length := by
      rwa [length_filteredRow hplane' hy]
    exact ⟨_, List.getElem?_eq_getElem hlength, hcell.trans (List.getElem?_eq_getElem hlength)⟩

end

theorem blur_separable (plane : Array UInt16) (width height : UInt32) (radius : Float32)
    (before : Array UInt16 × Scratch) :
    (∀ f after, (blur plane width height radius).run before = .error f after →
      f ≠ .outOfRange) ∧
    ∀ c after, (blur plane width height radius).run before = .ok (some c) after →
      (∀ line buffers, line.length ≤ buffers.1.size → line.length ≤ buffers.2.size →
        ∃ buffers', filterLine? c line 1 0 buffers = some buffers' ∧
          ∀ i < line.length, buffers'.2[i]? = (c.filtered line)[i]?) ∧
      Separable c plane width.toNat height.toNat before after ∧
      ∀ other : Array UInt16 × Scratch, width.toNat * height.toNat ≤ other.1.size →
        width.toNat * height.toNat ≤ other.2.plane.size →
        max width.toNat height.toNat ≤ other.2.line.size →
        ∃ after', (blur plane width height radius).run other = .ok (some c) after' ∧
          ∀ i < width.toNat * height.toNat,
            after'.1[i]? = after.1[i]? ∧ after'.2.plane[i]? = after.2.plane[i]? := by
  refine ⟨?_, ?_⟩
  · intro f after hrun
    rcases run_blur_cases plane width height radius before with
      ⟨f', hf', hrefused⟩ | ⟨e, -, -, -, -, hok⟩
    · rw [hrun] at hrefused
      cases hrefused
      exact hf'
    · rw [hrun] at hok
      split at hok
      · cases hok
      · obtain ⟨after', hok, -⟩ := hok
        cases hok
  · intro c after hrun
    obtain ⟨e, he, hradius, hplane, hblurred⟩ := blurred_of_run hrun
    have hseparable := hblurred.separable hplane
    obtain ⟨hwidth, hheight⟩ := Extent.of?_eq_ok_iff.1 he
    have hpixels : e.pixels = width.toNat * height.toNat := by
      rw [Extent.pixels, hwidth, hheight]
    have hside : e.longSide = max width.toNat height.toNat := by
      rw [Extent.longSide, hwidth, hheight]
    refine ⟨fun line buffers => exists_filterLine?_alone c line, hwidth ▸ hheight ▸ hseparable, ?_⟩
    intro other hout hscratch hline
    obtain ⟨after', hrun', hblurred'⟩ := exists_run_blur he hradius hplane (by rwa [hpixels])
      (by rwa [hpixels]) (by rwa [hside])
    obtain ⟨hfront, hfrontplane, -⟩ := hblurred'.front hblurred
    refine ⟨after', hrun', ?_⟩
    intro i hi
    rw [← hpixels] at hi
    exact ⟨hfront i hi, hfrontplane i hi⟩

def spark : Array UInt16 := #[0, 1000, 2000, 3000, 4000, 65535, 9]

def sparkBuffers : Array UInt16 × Scratch :=
  (Array.replicate 8 7, ⟨Array.replicate 7 5, Array.replicate 4 1.0⟩)

theorem blur_separable_spark :
    ∃ c after, (blur spark 3 2 2.0).run sparkBuffers = .ok (some c) after ∧
      after.1 = #[7211, 11588, 17017, 10749, 17272, 25412, 7, 7] ∧
      after.2.plane = #[620, 17341, 999, 27862, 1379, 41051, 5] ∧
      Separable c spark (3 : UInt32).toNat (2 : UInt32).toNat sparkBuffers after := by
  have hout : (Edit.left ((blur spark 3 2 2.0).run sparkBuffers)).1 =
      #[7211, 11588, 17017, 10749, 17272, 25412, 7, 7] := by
    decide +kernel
  have hscratch : (Edit.left ((blur spark 3 2 2.0).run sparkBuffers)).2.plane =
      #[620, 17341, 999, 27862, 1379, 41051, 5] := by
    decide +kernel
  obtain ⟨c, hradius⟩ : ∃ c, Coefficients.ofBlurRadius? 2.0 = some c := ⟨_, rfl⟩
  obtain ⟨after, hrun, -⟩ :=
    @exists_run_blur c ⟨3, 2, by decide, by decide, by decide⟩ spark sparkBuffers 3 2 2.0 rfl
      hradius (by decide) (by decide) (by decide) (by decide)
  rw [hrun] at hout hscratch
  have hseparable := ((blur_separable spark 3 2 2.0 sparkBuffers).2 _ after hrun).2.1
  exact ⟨_, after, hrun, hout, hscratch, hseparable⟩

end FixedRaster.Gaussian
