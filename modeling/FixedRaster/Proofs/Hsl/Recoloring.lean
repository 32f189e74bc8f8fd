import Mathlib
import FixedRaster.Proofs.Hsl.RoundTrip

/-!
# A color at another lightness

A color whose lightness is replaced keeps its hue and its saturation. Its greatest channel then lies
at the top of the new extremes and its least channel at their bottom, whatever they are: a step that
the way on the circle has lost is too short to be seen there.
-/

namespace FixedRaster

inductive Primary where
  | red
  | green
  | blue
  deriving DecidableEq

def Primary.of : Primary → UInt8 × UInt8 × UInt8 → UInt8
  | red, color => color.1
  | green, color => color.2.1
  | blue, color => color.2.2

def leastOf (color : UInt8 × UInt8 × UInt8) : ℕ :=
  min (min color.1.toNat color.2.1.toNat) color.2.2.toNat

def greatestOf (color : UInt8 × UInt8 × UInt8) : ℕ :=
  max (max color.1.toNat color.2.1.toNat) color.2.2.toNat

theorem Primary.of_bounds (k : Primary) (color : UInt8 × UInt8 × UInt8) :
    leastOf color ≤ (k.of color).toNat ∧ (k.of color).toNat ≤ greatestOf color := by
  cases k <;> simp only [Primary.of, leastOf, greatestOf] <;> omega

def Primary.turned : Primary → UInt16 → UInt16
  | red, hue => hue + Hsl.third
  | green, hue => hue
  | blue, hue => hue - Hsl.third

namespace Hsl

theorem turn_zero (d : ℕ) : turn 0 d = 0 := by
  simp [turn]

theorem turn_self {d : ℕ} (hd : 0 < d) : turn d d = 10922 := by
  rw [turn, Nat.mul_comm 6 d, Nat.mul_div_mul_left _ _ hd]

section
variable {low d v : ℕ} {hue : UInt16}

theorem Place.slope_of_least (h : Place low d hue v) (hd : 0 < d) (hv : v = low) :
    slope hue = 0 := by
  cases h with
  | top => omega
  | bottom hfrom => exact slope_eq_zero hfrom
  | @rise w hw hway =>
    obtain rfl : w = 0 := by omega
    rw [turn_zero] at hway
    rw [slope_eq_rise (by omega)]
    omega
  | @fall w hw hway =>
    obtain rfl : w = 0 := by omega
    rw [turn_zero] at hway
    exact slope_eq_zero (by omega)

theorem Place.slope_of_greatest (h : Place low d hue v) (hd : 0 < d) (hv : v = low + d) :
    65526 ≤ slope hue := by
  cases h with
  | top hfrom hto => exact (le_slope hfrom hto).trans' (by decide)
  | bottom => omega
  | @rise w hw hway =>
    obtain rfl : w = d := by omega
    rw [turn_self hd] at hway
    -- one step short of the top the ramp reads 65526, and that is where the bound comes from
    rcases hway with hfull | ⟨-, hshort⟩
    · exact (le_slope (by omega) (by omega)).trans' (by decide)
    · rw [slope_eq_rise (by omega)]
      omega
  | @fall w hw hway =>
    obtain rfl : w = d := by omega
    rw [turn_self hd] at hway
    rw [slope_eq_fall (by omega)]
    omega

end

/-- A channel `v` of a color with extremes `least` and `most` has become `v'`, in a color with
extremes `low` and `high`. -/
structure Recolored (least most low high v v' : ℕ) : Prop where
  low_le : low ≤ v'
  le_high : v' ≤ high
  eq_low : v = least → v' = low
  eq_high : v = most → v' = high

theorem Place.recolored {low d v low' high' : ℕ} {hue : UInt16} (h : Place low d hue v)
    (hd : 0 < d) (hle : low' ≤ high') (hbyte : high' ≤ 255) :
    Recolored low (low + d) low' high' v (mix low' high' (slope hue)) := by
  obtain ⟨hlow, hhigh⟩ := mix_mem (slope_le hue) hle hbyte
  refine ⟨hlow, hhigh, ?_, ?_⟩
  · intro hv
    rw [h.slope_of_least hd hv, mix_zero]
  · intro hv
    exact mix_full (h.slope_of_greatest hd hv) (slope_le hue) hle hbyte

theorem recolored_gray (v low slope : ℕ) : Recolored v v low low v (mix low low slope) := by
  rw [mix_self]
  exact ⟨le_rfl, le_rfl, fun _ => rfl, fun _ => rfl⟩

def Recolors (low high : ℕ) (before after : UInt8 × UInt8 × UInt8) : Prop :=
  ∀ k : Primary, Recolored (leastOf before) (greatestOf before) low high (k.of before).toNat
    (k.of after).toNat

section
variable {low high : ℕ} {before after : UInt8 × UInt8 × UInt8}

theorem Recolors.extremes (h : Recolors low high before after) :
    leastOf after = low ∧ greatestOf after = high := by
  obtain ⟨hr, hr', hrlow, hrhigh⟩ := h .red
  obtain ⟨hg, hg', hglow, hghigh⟩ := h .green
  obtain ⟨hb, hb', hblow, hbhigh⟩ := h .blue
  simp only [Primary.of, leastOf, greatestOf] at *
  omega

theorem Recolors.of_le (h : Recolors low high before after) {k k' : Primary}
    (hle : k.of before ≤ k'.of before) : k.of after ≤ k'.of after := by
  obtain ⟨hr, hr', hrlow, hrhigh⟩ := h .red
  obtain ⟨hg, hg', hglow, hghigh⟩ := h .green
  obtain ⟨hb, hb', hblow, hbhigh⟩ := h .blue
  rw [UInt8.le_iff_toNat_le] at hle ⊢
  cases k <;> cases k' <;> simp only [Primary.of, leastOf, greatestOf] at * <;> omega

end

theorem toNat_of_toRgb {c : Hsl} {l : ℕ} (hl : c.lightness.toInt = l) (hle : l ≤ 65535)
    (hs : c.saturation.toNat ≤ 4095) (k : Primary) :
    (k.of c.toRgb).toNat = mix (lowest l c.saturation.toNat) (highest l c.saturation.toNat)
      (slope (k.turned c.hue)) := by
  obtain ⟨hr, hg, hb⟩ := toNat_toRgb hl hle hs
  cases k with
  | red => exact hr
  | green => exact hg
  | blue => exact hb

theorem place_ofRgb {red green blue : UInt8} {low d : ℕ} (hleast : leastOf (red, green, blue) = low)
    (hmost : greatestOf (red, green, blue) = low + d) (hd : 0 < d) (k : Primary) :
    Place low d (k.turned (ofRgb red green blue).hue) (k.of (red, green, blue)).toNat := by
  have hplaces := places_ofRgb hleast hmost hd
  cases k with
  | red => exact hplaces.red
  | green => exact hplaces.green
  | blue => exact hplaces.blue

theorem recolors_toRgb (red green blue : UInt8) {lightness : Int32} {l : ℕ}
    (hl : lightness.toInt = l) (hle : l ≤ 65535) :
    Recolors (lowest l (ofRgb red green blue).saturation.toNat)
      (highest l (ofRgb red green blue).saturation.toNat) (red, green, blue)
      (toRgb { ofRgb red green blue with lightness := lightness }) := by
  intro k
  have hs := saturation_ofRgb_le red green blue
  obtain ⟨hspan, hbyte⟩ := extremes_bounds hs hle
  have hmix :=
    toNat_of_toRgb (c := { ofRgb red green blue with lightness := lightness }) hl hle hs k
  obtain ⟨low, d, -, hleast, hmost, hencodes⟩ := exists_encodes red green blue
  have hleast' : leastOf (red, green, blue) = low := hleast
  have hmost' : greatestOf (red, green, blue) = low + d := hmost
  rw [hleast', hmost', hmix]
  rcases Nat.eq_zero_or_pos d with rfl | hd
  · -- the saturation of a gray is zero, and then the extremes are one
    have hgray : (ofRgb red green blue).saturation.toNat = 0 := by
      simp [hencodes.saturation_eq, saturationOf]
    have hv : (k.of (red, green, blue)).toNat = low := by
      have hbounds := k.of_bounds (red, green, blue)
      omega
    simp only [hgray, hv, lowest, highest, swing_zero, Nat.sub_zero, Nat.add_zero]
    exact recolored_gray ..
  · exact (place_ofRgb hleast' hmost' hd k).recolored hd hspan hbyte

end Hsl
end FixedRaster
