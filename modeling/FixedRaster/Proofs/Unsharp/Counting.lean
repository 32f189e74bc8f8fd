import Mathlib
import FixedRaster.Proofs.Unsharp.Copying
import FixedRaster.Proofs.Unsharp.Staging
import FixedRaster.Proofs.Unsharp.Target

/-!
# What a sharpening counts

A sharpening counts the pixels whose contrast reaches the threshold. Every pixel that changes is
counted, but not every counted pixel changes: black cannot become darker or white lighter, and a
brightness that moves by less than one step of a byte may be rebuilt as the same color. A pixel
stays if its brightness does, and it changes if its brightness moves by a whole step.
-/

namespace FixedRaster.Unsharp
open Gaussian (Scratch Coefficients)

def changed (before after : Array UInt8) (count : ℕ) : ℕ :=
  (List.range count).countP fun i => Pixel.ofImage after i ≠ Pixel.ofImage before i

namespace Mask
variable {m : Mask} {p q : Pixel} {blurred : UInt16}

/-- How far the mask moves the brightness of pixel `i`. -/
def shift (m : Mask) (plane blurred : Array UInt16) (i : ℕ) : ℤ :=
  (m.boosted (Int32.ofNat (plane.getD i 0).toNat)
    (m.contrast (plane.getD i 0) (blurred.getD i 0))).toInt - (plane.getD i 0).toNat

theorem brightness_near_target (hstrength : 0 ≤ m.strength.toInt)
    (h : m.sharpen? p (m.model.brightnessOf p) blurred = some q) :
    |((m.model.brightnessOf q).toNat : ℤ) -
      m.target p (m.contrast (m.model.brightnessOf p) blurred)| ≤ 255 := by
  have hcolor := color_of_sharpen? h
  have hreached : m.model.brightnessOf q =
      m.model.brightness (color q).1 (color q).2.1 (color q).2.2 := rfl
  rw [hreached, hcolor]
  obtain ⟨model, strength, threshold⟩ := m
  cases model with
  | hsl => exact lightness_near_target rfl p _
  | hsv =>
    rcases eq_or_ne (ColorModel.hsv.brightnessOf p) 0 with hblack | hne
    · exact black_near_target rfl hstrength hblack blurred
    · exact value_near_target rfl (UInt16.pos_iff_ne_zero.2 hne) _

section
variable (hsharp : m.sharpen? p (m.model.brightnessOf p) blurred = some q)
include hsharp

theorem eq_of_stay (hstay : m.target p (m.contrast (m.model.brightnessOf p) blurred) =
    (m.model.brightnessOf p).toNat) : q = p :=
  eq_of_color ((color_of_sharpen? hsharp).trans (boost_of_stay hstay)) (alpha_of_sharpen? hsharp)

theorem ne_of_move (hstrength : 0 ≤ m.strength.toInt)
    (hmove : 256 ≤ |m.target p (m.contrast (m.model.brightnessOf p) blurred) -
      (m.model.brightnessOf p).toNat|) : q ≠ p := by
  rintro rfl
  have hnear := brightness_near_target hstrength hsharp
  rw [abs_sub_comm] at hnear
  omega

end

structure Counted (m : Mask) (plane blurred : Array UInt16) (count : ℕ)
    (before after : Array UInt8) (n : ℕ) : Prop where
  count_eq : n = (List.range count).countP fun i => m.Acts plane blurred i
  excess_eq : n = changed before after count + (List.range count).countP fun i =>
    m.Acts plane blurred i ∧ Pixel.ofImage after i = Pixel.ofImage before i
  kept : ∀ i < count, ¬ m.Acts plane blurred i → Pixel.ofImage after i = Pixel.ofImage before i
  stayed : ∀ i < count, m.Acts plane blurred i → m.shift plane blurred i = 0 →
    Pixel.ofImage after i = Pixel.ofImage before i
  moved : ∀ i < count, m.Acts plane blurred i → 256 ≤ |m.shift plane blurred i| →
    Pixel.ofImage after i ≠ Pixel.ofImage before i

section
variable {plane blurred : Array UInt16} {count n : ℕ} {before after : Array UInt8}

theorem Applied.excess_eq (h : Applied m before plane blurred count before after n) :
    n = changed before after count + (List.range count).countP fun i =>
      m.Acts plane blurred i ∧ Pixel.ofImage after i = Pixel.ofImage before i := by
  have hchanged : changed before after count = ((List.range count).filter fun i =>
      Pixel.ofImage after i ≠ Pixel.ofImage before i).countP
        fun i => m.Acts plane blurred i := by
    rw [changed, List.countP_filter]
    apply List.countP_congr
    intro i hi
    have hkept := h.kept i (List.mem_range.1 hi)
    simp only [decide_eq_true_eq, Bool.and_eq_true]
    exact ⟨fun hne => ⟨by_contra fun hact => hne (hkept hact), hne⟩, And.right⟩
  rw [h.count_eq, hchanged, List.countP_eq_countP_filter_add _ _
    fun i => Pixel.ofImage after i ≠ Pixel.ofImage before i]
  congr 1
  rw [List.countP_filter]
  apply List.countP_congr
  simp

theorem Applied.counted (hstrength : 0 ≤ m.strength.toInt)
    (h : Applied m before plane blurred count before after n)
    (hplane : ∀ i < count, plane[i]? = some (m.model.brightnessOf (Pixel.ofImage before i))) :
    Counted m plane blurred count before after n := by
  have hsample : ∀ i < count, plane.getD i 0 = m.model.brightnessOf (Pixel.ofImage before i) := by
    intro i hi
    rw [Array.getD_eq_getD_getElem?, hplane i hi, Option.getD_some]
  have hsharp : ∀ i < count, m.Acts plane blurred i →
      m.sharpen? (Pixel.ofImage before i) (m.model.brightnessOf (Pixel.ofImage before i))
        (blurred.getD i 0) = some (Pixel.ofImage after i) := by
    intro i hi hact
    rw [← hsample i hi]
    exact h.sharpened i hi hact
  have hshift : ∀ i < count, m.shift plane blurred i =
      m.target (Pixel.ofImage before i) (m.contrast (m.model.brightnessOf (Pixel.ofImage before i))
        (blurred.getD i 0)) - (m.model.brightnessOf (Pixel.ofImage before i)).toNat := by
    intro i hi
    rw [shift, hsample i hi, toInt_boosted_value]
  constructor
  case count_eq => exact h.count_eq
  case excess_eq => exact h.excess_eq
  case kept => exact h.kept
  case stayed =>
    intro i hi hact hstay
    rw [hshift i hi, sub_eq_zero] at hstay
    exact eq_of_stay (hsharp i hi hact) hstay
  case moved =>
    intro i hi hact hmove
    rw [hshift i hi] at hmove
    exact ne_of_move (hsharp i hi hact) hstrength hmove

theorem Counted.eq_changed_iff (h : Counted m plane blurred count before after n) :
    n = changed before after count ↔ ∀ i < count, m.Acts plane blurred i →
      Pixel.ofImage after i ≠ Pixel.ofImage before i := by
  rw [h.excess_eq, Nat.add_eq_left, List.countP_eq_zero]
  simp

end

end Mask

theorem changed_self (image : Array UInt8) (count : ℕ) : changed image image count = 0 :=
  List.countP_eq_zero.2 (by simp)

/-- A sharpening counts the pixels that reach the threshold. Those that changed are among them, and
the two numbers agree exactly where every counted pixel has changed. -/
theorem Session.sharpen_counts {image after : Array UInt8} {s s' : Session} {n : ℕ}
    {width height : UInt32} {settings : Settings} (hs : s.Reachable)
    (h : (Session.sharpen width height settings).run (image, s) = .ok n (after, s')) :
    ∃ e, Extent.of? width height = .ok e ∧ changed image after e.pixels ≤ n ∧
      (settings.isIdle = true → n = 0 ∧ after = image) ∧
      (settings.isIdle = false → ∃ c blurred scratch,
        let plane := Brightness.samples settings.model image e.pixels
        (Gaussian.blur plane width height settings.radius).run
            (Array.replicate e.pixels 0, Scratch.zeroed width height) =
          .ok (some c) (blurred, scratch) ∧
        settings.mask.Counted plane blurred e.pixels image after n ∧
        (n = changed image after e.pixels ↔ ∀ i < e.pixels, settings.mask.Acts plane blurred i →
          Pixel.ofImage after i ≠ Pixel.ofImage image i)) := by
  have hstaged : (staged width height settings).run image = .ok n after := by
    rw [← (seen_sharpen_eq_staged hs.balanced).1, h]
    rfl
  obtain ⟨e, he, himage⟩ := (staged_atomic width height settings image).ok_iff.1 ⟨n, after, hstaged⟩
  refine ⟨e, he, ?_⟩
  cases hidle : settings.isIdle with
  | true =>
    rw [run_staged_of_idle he himage hidle] at hstaged
    cases hstaged
    exact ⟨(changed_self image e.pixels).le, fun _ => ⟨rfl, rfl⟩, nofun⟩
  | false =>
    have hsize := Brightness.size_samples settings.model image e.pixels
    obtain ⟨c, blurred, scratch, -, hblurred, hblur, happly⟩ := exists_run_staged he hidle hsize
    obtain ⟨n', after', hrun, happlied⟩ :=
      Mask.exists_apply_applied (m := settings.mask) he himage hsize.ge hblurred.ge
    rw [happly image himage rfl, hrun] at hstaged
    cases hstaged
    have hcounted := happlied.counted
      (Mask.strength_nonneg settings.model settings.percent settings.least)
      fun i hi => Brightness.getElem?_samples settings.model image hi
    exact ⟨happlied.changed_le, nofun, fun _ =>
      ⟨c, blurred, scratch, hblur, hcounted, hcounted.eq_changed_iff⟩⟩

/-- Black beside white: both pixels are asked to move beyond the range. -/
theorem Session.sharpen_counts_unchanged :
    ¬ ∀ (image after : Array UInt8) (width height : UInt32) (settings : Settings)
      (s s' : Session) (n : ℕ), s.Reachable →
      (Session.sharpen width height settings).run (image, s) = .ok n (after, s') →
      n = changed image after (width.toNat * height.toNat) := by
  intro h
  let image : Array UInt8 := #[0, 0, 0, 255, 255, 255, 255, 255]
  have hcount : Edit.outcome ((Session.sharpen 2 1 {}).run (image, empty)) = .ok 2 := by
    decide +kernel
  have himage : (Edit.left ((Session.sharpen 2 1 {}).run (image, empty))).1 = image := by
    decide +kernel
  obtain ⟨⟨after, s'⟩, hrun⟩ := Edit.outcome_eq_ok_iff.1 hcount
  rw [hrun] at himage
  obtain rfl : after = image := himage
  have heq := h _ _ 2 1 {} empty s' 2 .empty hrun
  rw [changed_self] at heq
  exact absurd heq (by decide)

theorem Session.sharpen_counts_ramp :
    let image : Array UInt8 := #[0, 0, 0, 9, 60, 60, 60, 9, 190, 190, 190, 9, 255, 255, 255, 9]
    let after : Array UInt8 := #[0, 0, 0, 9, 39, 39, 39, 9, 209, 209, 209, 9, 255, 255, 255, 9]
    warm.Reachable ∧
    ∃ s', (Session.sharpen 4 1 {}).run (image, warm) = .ok 4 (after, s') ∧
      changed image after 4 = 2 ∧ changed image after 4 ≤ 4 ∧
      ∃ blurred, (({} : Settings).mask).Counted (Brightness.samples .hsl image 4) blurred 4 image
        after 4 := by
  intro image after
  have hcount : Edit.outcome ((Session.sharpen 4 1 {}).run (image, warm)) = .ok 4 := by
    decide +kernel
  have himage : (Edit.left ((Session.sharpen 4 1 {}).run (image, warm))).1 = after := by
    decide +kernel
  obtain ⟨⟨after', s'⟩, hrun⟩ := Edit.outcome_eq_ok_iff.1 hcount
  rw [hrun] at himage
  obtain rfl : after' = after := himage
  obtain ⟨e, he, hle, -, hblurred⟩ := sharpen_counts warm_reachable hrun
  cases he
  obtain ⟨c, blurred, scratch, -, hcounted, -⟩ := hblurred (by decide +kernel)
  exact ⟨warm_reachable, s', hrun, by decide, hle, blurred, hcounted⟩

end FixedRaster.Unsharp
