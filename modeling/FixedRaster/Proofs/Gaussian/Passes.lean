import Mathlib
import FixedRaster.Gaussian.Blur
import FixedRaster.Proofs.Checks
import FixedRaster.Proofs.Grid

/-!
# The two passes of a blur

A pass over the rows of a plane succeeds where its buffers are long enough. It writes the response
to row `r` into column `r` of the output and leaves the last causal response in the line buffer, so
neither buffer is read. A blur is two passes, and what it leaves depends on the plane alone.
-/

namespace FixedRaster.Gaussian

theorem Coefficients.length_fst_response (c : Coefficients) (line : List UInt16) :
    (c.response line).1.length = line.length := c.length_causal line

theorem length_row {plane : Array UInt16} {width r : ℕ} (h : (r + 1) * width ≤ plane.size) :
    (row plane width r).length = width := by
  rw [row]
  rw [Array.length_toList, Array.size_extract, Nat.min_eq_left h, Nat.add_mul, Nat.one_mul,
    Nat.add_sub_cancel_left]

theorem length_row_le (plane : Array UInt16) (width r : ℕ) :
    (row plane width r).length ≤ width := by
  rw [row, Array.length_toList, Array.size_extract, Nat.add_mul, Nat.one_mul]
  omega

theorem getElem?_row {plane : Array UInt16} {width r i : ℕ} (hi : i < width) :
    (row plane width r)[i]? = plane[r * width + i]? := by
  rw [row, Array.getElem?_toList, Array.getElem?_extract, Nat.add_mul, Nat.one_mul]
  by_cases hin : r * width + i < plane.size
  · rw [if_pos (by omega)]
  · rw [if_neg (by omega), Array.getElem?_eq_none (by omega)]

/-- The buffers after a pass over the first `rows` of `height` rows. -/
structure Filtered (c : Coefficients) (plane : Array UInt16) (width height rows : ℕ)
    (before after : Array Float32 × Array UInt16) : Prop where
  line_size : after.1.size = before.1.size
  out_size : after.2.size = before.2.size
  out_eq : ∀ r < rows, ∀ x < width,
    after.2[x * height + r]? = (c.response (row plane width r)).2[x]?
  out_rest : ∀ i, (∀ r < rows, ∀ x < width, i ≠ x * height + r) → after.2[i]? = before.2[i]?
  line_eq : ∀ r, rows = r + 1 → ∀ x < width,
    after.1[x]? = (c.response (row plane width r)).1[x]?
  line_rest : ∀ i, width ≤ i → after.1[i]? = before.1[i]?

section
variable {c : Coefficients} {plane : Array UInt16} {width height : ℕ}

theorem exists_filterLine? (c : Coefficients) (line : List UInt16) {height r : ℕ} (hr : r < height)
    {buffers : Array Float32 × Array UInt16} (hbuffer : line.length ≤ buffers.1.size)
    (hout : line.length * height ≤ buffers.2.size) :
    ∃ after, filterLine? c line height r buffers = some after ∧
      after.1.size = buffers.1.size ∧ after.2.size = buffers.2.size ∧
      (∀ x < line.length, after.2[x * height + r]? = (c.response line).2[x]?) ∧
      (∀ i, (∀ x < line.length, i ≠ x * height + r) → after.2[i]? = buffers.2[i]?) ∧
      (∀ x < line.length, after.1[x]? = (c.response line).1[x]?) ∧
      ∀ i, line.length ≤ i → after.1[i]? = buffers.1[i]? := by
  have hfst := c.length_fst_response line
  have hsnd := c.length_response line
  obtain ⟨buffer, hput⟩ : ∃ ys, putRun? 1 0 (c.response line).1 buffers.1 = some ys := by
    apply exists_putRun?
    intro i hi
    omega
  obtain ⟨out, hput'⟩ : ∃ ys, putRun? height r (c.response line).2 buffers.2 = some ys := by
    apply exists_putRun?
    intro i hi
    have hplace := place_lt (show i < line.length by omega) hr
    omega
  refine ⟨(buffer, out), ?_, size_putRun? hput, size_putRun? hput', ?_, ?_, ?_, ?_⟩
  · obtain ⟨line', out'⟩ := buffers
    simp only [filterLine?, hput, hput', Option.bind_eq_bind, Option.bind_some, pure]
  · intro x hx
    rw [Nat.add_comm]
    exact getElem?_putRun? (by omega) hput' (by omega)
  · intro i hi
    apply getElem?_putRun?_other hput'
    intro x hx
    rw [Nat.add_comm]
    exact hi x (by omega)
  · intro x hx
    have hget := getElem?_putRun? Nat.one_pos hput (i := x) (by omega)
    rwa [Nat.mul_one, Nat.zero_add] at hget
  · intro i hi
    apply getElem?_putRun?_other hput
    intro x hx
    omega

theorem filterRows?_filtered {rows : ℕ} (hrows : rows ≤ height)
    (hplane : height * width ≤ plane.size) {buffers : Array Float32 × Array UInt16}
    (hbuffer : width ≤ buffers.1.size) (hout : width * height ≤ buffers.2.size) :
    ∃ after, (List.range rows).foldlM
        (fun buffers r => filterLine? c (row plane width r) height r buffers) buffers =
          some after ∧
      Filtered c plane width height rows buffers after := by
  induction rows with
  | zero =>
    refine ⟨buffers, rfl, rfl, rfl, ?_, fun _ _ => rfl, ?_, fun _ _ => rfl⟩
    · intro r hr
      omega
    · intro r hr
      omega
  | succ r ih =>
    obtain ⟨mid, hfold, hmid⟩ := ih (by omega)
    have hr : r < height := hrows
    have hlength : (row plane width r).length = width := by
      apply length_row
      have hstop := Nat.mul_le_mul_right width hrows
      omega
    obtain ⟨after, hline, hsize, hsize', hcolumn, hrest, hcausal, hbehind⟩ :=
      exists_filterLine? c (row plane width r) hr
        (by rw [hlength, hmid.line_size]; exact hbuffer)
        (by rw [hlength, hmid.out_size]; exact hout)
    rw [hlength] at hcolumn hrest hcausal hbehind
    refine ⟨after, ?_, hsize.trans hmid.line_size, hsize'.trans hmid.out_size, ?_, ?_, ?_, ?_⟩
    · rw [List.range_succ, List.foldlM_append, hfold, Option.bind_eq_bind, Option.bind_some,
        List.foldlM_cons, hline]
      rfl
    · intro q hq x hx
      by_cases hqr : q = r
      · rw [hqr]
        exact hcolumn x hx
      · rw [hrest, hmid.out_eq q (by omega) x hx]
        intro y hy heq
        exact hqr (place_inj (by omega) (by omega) heq).2
    · intro i hi
      rw [hrest i fun x hx => hi r (by omega) x hx,
        hmid.out_rest i fun q hq x hx => hi q (by omega) x hx]
    · intro q hq x hx
      have hqr : q = r := by omega
      rw [hqr]
      exact hcausal x hx
    · intro i hi
      rw [hbehind i hi, hmid.line_rest i hi]

theorem exists_filterRows? (c : Coefficients) {buffers : Array Float32 × Array UInt16}
    (hplane : height * width ≤ plane.size) (hbuffer : width ≤ buffers.1.size)
    (hout : width * height ≤ buffers.2.size) :
    ∃ after, filterRows? c plane width height buffers = some after ∧
      Filtered c plane width height height buffers after :=
  filterRows?_filtered le_rfl hplane hbuffer hout

variable {before after before' after' : Array Float32 × Array UInt16}

theorem Filtered.out_behind (h : Filtered c plane width height height before after) {i : ℕ}
    (hi : width * height ≤ i) : after.2[i]? = before.2[i]? := by
  apply h.out_rest
  intro r hr x hx
  have hplace := place_lt hx hr
  omega

theorem Filtered.out_front (h : Filtered c plane width height height before after)
    (h' : Filtered c plane width height height before' after') {i : ℕ} (hi : i < width * height) :
    after.2[i]? = after'.2[i]? := by
  obtain ⟨x, hx, r, hr, rfl⟩ := exists_place hi
  rw [h.out_eq r hr x hx, h'.out_eq r hr x hx]

theorem Filtered.line_front (h : Filtered c plane width height height before after)
    (h' : Filtered c plane width height height before' after') (hheight : 0 < height) {i : ℕ}
    (hi : i < width) : after.1[i]? = after'.1[i]? := by
  have hlast : height = height - 1 + 1 := by omega
  rw [h.line_eq _ hlast i hi, h'.line_eq _ hlast i hi]

theorem row_congr {plane plane' : Array UInt16} {r : ℕ}
    (h : ∀ i < (r + 1) * width, plane[i]? = plane'[i]?) :
    row plane width r = row plane' width r := by
  apply List.ext_getElem?
  intro i
  by_cases hi : i < width
  · have hsplit : (r + 1) * width = r * width + width := by rw [Nat.add_mul, Nat.one_mul]
    rw [getElem?_row hi, getElem?_row hi, h _ (by omega)]
  · have hle := length_row_le plane width r
    have hle' := length_row_le plane' width r
    rw [List.getElem?_eq_none (by omega), List.getElem?_eq_none (by omega)]

theorem Filtered.congr_plane (h : Filtered c plane width height height before after)
    {plane' : Array UInt16} (heq : ∀ i < height * width, plane[i]? = plane'[i]?) :
    Filtered c plane' width height height before after := by
  have hrow : ∀ r < height, row plane width r = row plane' width r := by
    intro r hr
    apply row_congr
    intro i hi
    have hstop := Nat.mul_le_mul_right width (show r + 1 ≤ height from hr)
    exact heq i (by omega)
  refine ⟨h.line_size, h.out_size, ?_, h.out_rest, ?_, h.line_rest⟩
  · intro r hr x hx
    rw [← hrow r hr]
    exact h.out_eq r hr x hx
  · intro r hr x hx
    rw [← hrow r (by omega)]
    exact h.line_eq r hr x hx

end

def Blurred (c : Coefficients) (e : Extent) (plane : Array UInt16)
    (before after : Array UInt16 × Scratch) : Prop :=
  ∃ line, Filtered c plane e.width e.height e.height (before.2.line, before.2.plane)
      (line, after.2.plane) ∧
    Filtered c after.2.plane e.height e.width e.width (line, before.1) (after.2.line, after.1)

section
variable {c : Coefficients} {e : Extent} {plane : Array UInt16}
  {before after before' after' : Array UInt16 × Scratch}

theorem Blurred.sizes (h : Blurred c e plane before after) :
    after.1.size = before.1.size ∧ after.2.plane.size = before.2.plane.size ∧
      after.2.line.size = before.2.line.size := by
  obtain ⟨line, hfirst, hsecond⟩ := h
  exact ⟨hsecond.out_size, hfirst.out_size, hsecond.line_size.trans hfirst.line_size⟩

theorem Blurred.behind (h : Blurred c e plane before after) :
    (∀ i, e.pixels ≤ i → after.1[i]? = before.1[i]?) ∧
      (∀ i, e.pixels ≤ i → after.2.plane[i]? = before.2.plane[i]?) ∧
      ∀ i, e.longSide ≤ i → after.2.line[i]? = before.2.line[i]? := by
  obtain ⟨line, hfirst, hsecond⟩ := h
  have hcomm := Nat.mul_comm e.width e.height
  refine ⟨?_, ?_, ?_⟩
  · intro i hi
    exact hsecond.out_behind (by rw [Extent.pixels] at hi; omega)
  · intro i hi
    exact hfirst.out_behind hi
  · intro i hi
    rw [Extent.longSide] at hi
    exact (hsecond.line_rest i (by omega)).trans (hfirst.line_rest i (by omega))

/-- What a blur leaves in front of its buffers does not depend on what they held. -/
theorem Blurred.front (h : Blurred c e plane before after) (h' : Blurred c e plane before' after') :
    (∀ i < e.pixels, after.1[i]? = after'.1[i]?) ∧
      (∀ i < e.pixels, after.2.plane[i]? = after'.2.plane[i]?) ∧
      ∀ i < e.longSide, after.2.line[i]? = after'.2.line[i]? := by
  obtain ⟨line, hfirst, hsecond⟩ := h
  obtain ⟨line', hfirst', hsecond'⟩ := h'
  have hacross : ∀ i < e.width * e.height, after.2.plane[i]? = after'.2.plane[i]? :=
    fun i hi => hfirst.out_front hfirst' hi
  have hsecond := hsecond.congr_plane hacross
  refine ⟨?_, hacross, ?_⟩
  · intro i hi
    apply hsecond.out_front hsecond'
    rwa [Nat.mul_comm]
  · intro i hi
    -- the second pass fills the line up to the height, behind it stands the line of the first
    by_cases hheight : i < e.height
    · exact hsecond.line_front hsecond' e.width_pos hheight
    · have hwidth : i < e.width := by
        rw [Extent.longSide] at hi
        omega
      rw [hsecond.line_rest i (by omega), hsecond'.line_rest i (by omega)]
      exact hfirst.line_front hfirst' e.height_pos hwidth

theorem exists_filterPlane? (c : Coefficients) (hplane : e.pixels ≤ plane.size)
    (hout : e.pixels ≤ before.1.size) (hscratch : e.pixels ≤ before.2.plane.size)
    (hline : e.longSide ≤ before.2.line.size) :
    ∃ after, filterPlane? c e plane before = some after ∧ Blurred c e plane before after := by
  have hcomm := Nat.mul_comm e.width e.height
  simp only [Extent.pixels] at hplane hout hscratch
  rw [Extent.longSide] at hline
  obtain ⟨⟨line, across⟩, hrows, hfirst⟩ : ∃ mid, filterRows? c plane e.width e.height
      (before.2.line, before.2.plane) = some mid ∧ Filtered c plane e.width e.height e.height
        (before.2.line, before.2.plane) mid :=
    exists_filterRows? c (by omega) (by simp only; omega) hscratch
  have hsize : line.size = before.2.line.size := hfirst.line_size
  have hsize' : across.size = before.2.plane.size := hfirst.out_size
  obtain ⟨⟨line', out⟩, hcolumns, hsecond⟩ : ∃ last, filterRows? c across e.height e.width
      (line, before.1) = some last ∧ Filtered c across e.height e.width e.width
        (line, before.1) last :=
    exists_filterRows? c (by omega) (by simp only; omega) (by simp only; omega)
  refine ⟨(out, ⟨across, line'⟩), ?_, line, hfirst, hsecond⟩
  simp only [filterPlane?, hrows, hcolumns, Option.bind_eq_bind, Option.bind_some, pure]

theorem Blurred.eq_of_sizes (h : Blurred c e plane before after)
    (h' : Blurred c e plane before' after') (hout : before.1.size = e.pixels)
    (hplane : before.2.plane.size = e.pixels) (hline : before.2.line.size = e.longSide)
    (hout' : before'.1.size = e.pixels) (hplane' : before'.2.plane.size = e.pixels)
    (hline' : before'.2.line.size = e.longSide) : after = after' := by
  obtain ⟨hsize, hsizeplane, hsizeline⟩ := h.sizes
  obtain ⟨hsize', hsizeplane', hsizeline'⟩ := h'.sizes
  obtain ⟨hfront, hfrontplane, hfrontline⟩ := h.front h'
  obtain ⟨out, ⟨across, line⟩⟩ := after
  obtain ⟨out', ⟨across', line'⟩⟩ := after'
  have heq : out = out' := eq_of_front (hsize.trans hout) (hsize'.trans hout') hfront
  have heqplane : across = across' :=
    eq_of_front (hsizeplane.trans hplane) (hsizeplane'.trans hplane') hfrontplane
  have heqline : line = line' :=
    eq_of_front (hsizeline.trans hline) (hsizeline'.trans hline') hfrontline
  rw [heq, heqplane, heqline]

def Scratch.Holds (s : Scratch) (e : Extent) : Prop :=
  e.pixels ≤ s.plane.size ∧ e.longSide ≤ s.line.size

theorem covers_eq_ok_iff {source : ℕ} {buffers : Array UInt16 × Scratch} :
    covers e source buffers = .ok () ↔
      e.pixels ≤ source ∧ e.pixels ≤ buffers.1.size ∧ buffers.2.Holds e := by
  simp only [covers, Extent.coversPlane, bind_eq_ok_iff, Unique.exists_iff, PUnit.default_eq_unit,
    requireLength_eq_ok_iff, Scratch.Holds]

theorem covers_ne_outOfRange {source : ℕ} {buffers : Array UInt16 × Scratch} {f : Fault}
    (h : covers e source buffers = .error f) : f ≠ .outOfRange := by
  simp only [covers, Extent.coversPlane, bind_eq_error_iff] at h
  rcases h with h | ⟨_, -, h | ⟨_, -, h | ⟨_, -, h⟩⟩⟩
  · exact requireLength_ne_outOfRange h
  · exact requireLength_ne_outOfRange h
  · exact requireLength_ne_outOfRange h
  · exact requireLength_ne_outOfRange h

theorem exists_run_blur {width height : UInt32} {radius : Float32}
    (he : Extent.of? width height = .ok e)
    (hradius : Coefficients.ofBlurRadius? radius = some c) (hplane : e.pixels ≤ plane.size)
    (hout : e.pixels ≤ before.1.size) (hscratch : e.pixels ≤ before.2.plane.size)
    (hline : e.longSide ≤ before.2.line.size) :
    ∃ after, (blur plane width height radius).run before = .ok (some c) after ∧
      Blurred c e plane before after := by
  obtain ⟨after, hfilter, hblurred⟩ := exists_filterPlane? c hplane hout hscratch hline
  have hcovers : covers e plane.size before = .ok () :=
    covers_eq_ok_iff.2 ⟨hplane, hout, hscratch, hline⟩
  refine ⟨after, ?_, hblurred⟩
  simp only [blur, Edit.run_check_bind, Edit.run_get_bind, he, hcovers, hradius]
  exact Edit.run_bind_ok_iff.2 ⟨(), after, Edit.run_work_some hfilter, rfl⟩

theorem run_blur_of_covers {width height : UInt32} (radius : Float32)
    (he : Extent.of? width height = .ok e) (hcovers : covers e plane.size before = .ok ()) :
    match Coefficients.ofBlurRadius? radius with
    | none => (blur plane width height radius).run before = .ok none before
    | some c => ∃ after, (blur plane width height radius).run before = .ok (some c) after ∧
        Blurred c e plane before after := by
  obtain ⟨hplane, hout, hholds⟩ := covers_eq_ok_iff.1 hcovers
  cases hradius : Coefficients.ofBlurRadius? radius with
  | none =>
    simp only [blur, Edit.run_check_bind, Edit.run_get_bind, he, hcovers, hradius]
    rfl
  | some c => exact exists_run_blur he hradius hplane hout hholds.1 hholds.2

theorem run_blur_cases (plane : Array UInt16) (width height : UInt32) (radius : Float32)
    (before : Array UInt16 × Scratch) :
    Edit.Refused (blur plane width height radius) before ∨
      ∃ e, Extent.of? width height = .ok e ∧ e.pixels ≤ plane.size ∧
        e.pixels ≤ before.1.size ∧ before.2.Holds e ∧
        match Coefficients.ofBlurRadius? radius with
        | none => (blur plane width height radius).run before = .ok none before
        | some c => ∃ after, (blur plane width height radius).run before = .ok (some c) after ∧
            Blurred c e plane before after := by
  have hok : ∀ e, Extent.of? width height = .ok e → covers e plane.size before = .ok () →
      e.pixels ≤ plane.size ∧ e.pixels ≤ before.1.size ∧ before.2.Holds e ∧
        match Coefficients.ofBlurRadius? radius with
        | none => (blur plane width height radius).run before = .ok none before
        | some c => ∃ after, (blur plane width height radius).run before = .ok (some c) after ∧
            Blurred c e plane before after := by
    intro e he hcovers
    obtain ⟨hplane, hout, hholds⟩ := covers_eq_ok_iff.1 hcovers
    exact ⟨hplane, hout, hholds, run_blur_of_covers radius he hcovers⟩
  rw [blur]
  refine Edit.refused_or_check (fun _ => Extent.ne_outOfRange) fun e he => ?_
  refine Edit.refused_or_get ?_
  refine Edit.refused_or_check (fun _ => covers_ne_outOfRange) fun _ hcovers => ?_
  exact .inr ⟨e, he, hok e he hcovers⟩

theorem blurred_of_run {width height : UInt32} {radius : Float32}
    (h : (blur plane width height radius).run before = .ok (some c) after) :
    ∃ e, Extent.of? width height = .ok e ∧ Coefficients.ofBlurRadius? radius = some c ∧
      e.pixels ≤ plane.size ∧ Blurred c e plane before after := by
  rcases run_blur_cases plane width height radius before with
    ⟨f, -, hf⟩ | ⟨e, he, hplane, -, -, hrun⟩
  · rw [h] at hf
    cases hf
  · cases hradius : Coefficients.ofBlurRadius? radius with
    | none =>
      rw [hradius, h] at hrun
      cases hrun
    | some c' =>
      rw [hradius] at hrun
      obtain ⟨after', hrun, hblurred⟩ := hrun
      rw [h] at hrun
      cases hrun
      exact ⟨e, he, rfl, hplane, hblurred⟩

end

end FixedRaster.Gaussian
