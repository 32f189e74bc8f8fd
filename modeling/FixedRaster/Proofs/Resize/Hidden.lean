import Mathlib
import FixedRaster.Proofs.Grid
import FixedRaster.Proofs.Resize.Exact
import FixedRaster.Resize.Resample

/-!
# The color of a clear pixel

With alpha, a tap counts a color as often as the alpha of its pixel says. Two runs are compared, on
images that differ in the colors of clear pixels only. Each tap has the same term in both, so the
first pass writes the same samples or fails where the other does, and nothing behind it reads the
source.
-/

namespace FixedRaster

structure Pixel.SameVisible (p q : Pixel) : Prop where
  a_eq : p.a = q.a
  eq_of_ne : p.a ≠ 0 → p = q

instance (p q : Pixel) : Decidable (p.SameVisible q) :=
  decidable_of_iff (p.a = q.a ∧ (p.a ≠ 0 → p = q)) ⟨fun h => ⟨h.1, h.2⟩, fun h => ⟨h.1, h.2⟩⟩

/-- The images have the same length, and differ at most in the colors of clear pixels and in bytes
that make no whole pixel. -/
structure SameVisible (a b : Array UInt8) : Prop where
  size_eq : a.size = b.size
  pixel_eq : ∀ i < a.size / pixelBytes, (Pixel.ofImage a i).SameVisible (Pixel.ofImage b i)

namespace Resize

section
variable {a b : Array UInt8} {i : ℕ}

theorem byteAt_alpha (image : Array UInt8) (i : ℕ) :
    byteAt image i alpha = Int32.ofNat (Pixel.ofImage image i).a.toNat := rfl

theorem byteAt_eq_of_ofImage (h : Pixel.ofImage a i = Pixel.ofImage b i) (c : Channel) :
    byteAt a i c = byteAt b i c := by
  rw [byteAt, byteAt, ← Pixel.channel_ofImage, ← Pixel.channel_ofImage, h]

theorem byteAt_alpha_eq (h : (Pixel.ofImage a i).SameVisible (Pixel.ofImage b i)) :
    byteAt a i alpha = byteAt b i alpha := by
  rw [byteAt_alpha, byteAt_alpha, h.a_eq]

theorem weighted_eq (h : (Pixel.ofImage a i).SameVisible (Pixel.ofImage b i)) (w : Int32)
    (c : Channel) :
    w * byteAt a i alpha * byteAt a i c = w * byteAt b i alpha * byteAt b i c := by
  by_cases hclear : (Pixel.ofImage a i).a = 0
  · have ha : byteAt a i alpha = 0 := by
      rw [byteAt_alpha, hclear]
      rfl
    have hb : byteAt b i alpha = 0 := (byteAt_alpha_eq h).symm.trans ha
    rw [ha, hb]
    simp
  · have hpixel := h.eq_of_ne hclear
    rw [byteAt_eq_of_ofImage hpixel, byteAt_eq_of_ofImage hpixel]

theorem weigh_congr {term term' : Int32 → ℕ → Int32} {t : Taps}
    (h : ∀ w i, t.start ≤ i → i < t.stop → term w i = term' w i) :
    weigh term t = weigh term' t := by
  apply List.foldl_ext
  intro sum tap htap
  obtain ⟨hstart, hstop, -⟩ := List.mem_zipIdx htap
  rw [h tap.1.toInt32 tap.2 hstart hstop]

theorem acrossWithAlpha_eq (h : SameVisible a b) {origin : ℕ} {t : Taps}
    (hin : (origin + t.stop) * 4 ≤ a.size) :
    acrossWithAlpha a origin t = acrossWithAlpha b origin t := by
  have hpixel : ∀ i < t.stop,
      (Pixel.ofImage a (origin + i)).SameVisible (Pixel.ofImage b (origin + i)) := by
    intro i hi
    apply h.pixel_eq
    rw [pixelBytes]
    omega
  funext c
  have hcolor : weigh (fun w i => w * byteAt a (origin + i) alpha * byteAt a (origin + i) c) t =
      weigh (fun w i => w * byteAt b (origin + i) alpha * byteAt b (origin + i) c) t :=
    weigh_congr fun w i _ hi => weighted_eq (hpixel i hi) w c
  have halpha : weigh (fun w i => w * byteAt a (origin + i) alpha) t =
      weigh (fun w i => w * byteAt b (origin + i) alpha) t :=
    weigh_congr fun w i _ hi => by rw [byteAt_alpha_eq (hpixel i hi)]
  rw [acrossWithAlpha, acrossWithAlpha, hcolor]
  split_ifs with hc
  · rw [hc, across, across, halpha]
  · rfl

end

section
variable {α β : Type}

theorem foldlM_ext {step step' : α → β → Option α} {cells : List β}
    (h : ∀ b ∈ cells, ∀ out, step out b = step' out b) (out : α) :
    cells.foldlM step out = cells.foldlM step' out := by
  induction cells generalizing out with
  | nil => rfl
  | cons b cells ih =>
    rw [List.foldlM_cons, List.foldlM_cons, h b (List.mem_cons_self ..)]
    exact congrArg _ (funext fun out' => ih (fun b' hb => h b' (List.mem_cons_of_mem b hb)) out')

theorem pass?_congr {lines length : ℕ} (rows : List Taps) (place : ℕ → ℕ → ℕ)
    {value value' : ℕ → Taps → Channel → α}
    (h : ∀ y < lines, ∀ t : Taps, t.stop ≤ length → value y t = value' y t) (out : Array α) :
    pass? lines length rows place value out = pass? lines length rows place value' out := by
  apply foldlM_ext
  intro y hy out
  apply foldlM_ext
  intro row _ out
  by_cases hstop : row.1.stop ≤ length
  · rw [h y (List.mem_range.1 hy) row.1 hstop]
  · simp [guard, hstop]

end

section
variable {a b : Array UInt8}

theorem firstPass?_eq (h : SameVisible a b) (width height : ℕ) (rows : List Taps)
    (middle : Array UInt16) :
    firstPass? true a width height rows middle = firstPass? true b width height rows middle := by
  by_cases himage : width * height * 4 ≤ a.size
  · have hvalue : ∀ y < height, ∀ t : Taps, t.stop ≤ width →
        acrossWithAlpha a (y * width) t = acrossWithAlpha b (y * width) t := by
      intro y hy t ht
      have hline : y * width + width ≤ height * width := line_stop_le hy
      rw [Nat.mul_comm height] at hline
      exact acrossWithAlpha_eq h (by omega)
    have hpass := pass?_congr rows (fun x y => x * height + y) hvalue middle
    simp only [firstPass?, ← h.size_eq, if_true, hpass]
  · simp [firstPass?, ← h.size_eq, guard, himage]

theorem passes?_eq (h : SameVisible a b) (source target : Extent) (across down : Kernel) :
    passes? true a source target across down = passes? true b source target across down := by
  funext canvas
  simp only [passes?, firstPass?_eq h]

/-- With alpha, the color of a clear pixel shows nowhere: not in whether a resize succeeds, nor in
any sample or byte that it leaves, whatever the kernels and the buffers are. -/
theorem resample_of_sameVisible (h : SameVisible a b) (horizontal vertical : List Int16)
    (sourceWidth sourceHeight targetWidth targetHeight : UInt32) (canvas : Canvas) :
    (resample a horizontal vertical sourceWidth sourceHeight targetWidth targetHeight true).run
        canvas =
      (resample b horizontal vertical sourceWidth sourceHeight targetWidth targetHeight true).run
        canvas := by
  simp only [resample, h.size_eq, passes?_eq h]

def curtain : Array UInt8 := #[200, 10, 0, 255, 0, 255, 0, 0, 90, 80, 70, 128]

def curtainRed : Array UInt8 := #[200, 10, 0, 255, 255, 3, 77, 0, 90, 80, 70, 128]

def curtainAfter : Canvas :=
  ⟨#[216, 0, 0, 223, 145, 45, 35, 64, 1],
    #[24154, 0, 0, 28544, 4645, 1445, 1124, 8176, 5]⟩

theorem resample_of_sameVisible_curtain :
    let across : List Int16 := [0, 3, 16384, 12000, -4096, 0, 3, 2048, 8192, 4096]
    let canvas : Canvas := ⟨Array.replicate 9 1, Array.replicate 9 5⟩
    SameVisible curtain curtainRed ∧ curtain ≠ curtainRed ∧
      (resample curtain across [0, 1, 16384] 3 1 2 1 true).run canvas = .ok () curtainAfter ∧
      (resample curtainRed across [0, 1, 16384] 3 1 2 1 true).run canvas =
        .ok () curtainAfter := by
  intro across canvas
  have hsame : SameVisible curtain curtainRed := ⟨rfl, by decide⟩
  have hrun : (resample curtain across [0, 1, 16384] 3 1 2 1 true).run canvas =
      .ok () curtainAfter := by
    cbv
  have heq := resample_of_sameVisible hsame across [0, 1, 16384] 3 1 2 1 canvas
  exact ⟨hsame, by decide, hrun, heq.symm.trans hrun⟩

end

end Resize
end FixedRaster
