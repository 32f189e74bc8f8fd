import Mathlib
import FixedRaster.Proofs.Hsl.Ramp

/-!
# Every color comes back

A color that is taken to hue, saturation and lightness and back is the color it was, although every
division on the way rounds. The extreme channels come back because the swing of their lightness and
saturation is off by less than their bytes leave room for, and the third channel because its way on
the circle is.
-/

namespace FixedRaster.Hsl

def saturationOf (sum spread : ℕ) : ℕ := spread * 4095 / (if sum ≤ 255 then sum else 510 - sum)

theorem saturationOf_le {sum spread : ℕ} (h : spread ≤ sum) (h' : sum + spread ≤ 510) :
    saturationOf sum spread ≤ 4095 := by
  apply Nat.div_le_of_le_mul
  exact Nat.mul_le_mul_right 4095 (by split_ifs <;> omega)

/-- The way on the circle from an extreme channel to a channel that is `w` away from it. -/
def turn (w spread : ℕ) : ℕ := w * 65535 / (6 * spread)

section
variable {low high : ℕ}

theorem swing_near {x n d e : ℕ} (hn : 0 < n) (hd : d ≤ n) (hlow : 257 * n ≤ 2 * x + 1)
    (hhigh : 2 * x ≤ 257 * n + e) :
    8192 * ((x * (d * 4095 / n) + 2048) / 4096) ≤ 1052415 * d + 4095 * e + 4096 ∧
      1052415 * d ≤ 8192 * ((x * (d * 4095 / n) + 2048) / 4096) + 257 * n + 7932 := by
  have hdiv := Nat.div_add_mod (d * 4095) n
  have hmod := Nat.mod_lt (d * 4095) hn
  have hq : d * 4095 / n ≤ 4095 := Nat.div_le_of_le_mul (Nat.mul_le_mul_right 4095 hd)
  generalize d * 4095 / n = q at hdiv hq ⊢
  have hup : 2 * x * q ≤ (257 * n + e) * q := Nat.mul_le_mul_right q hhigh
  have hdown : 257 * n * q ≤ (2 * x + 1) * q := Nat.mul_le_mul_right q hlow
  have hextra : e * q ≤ e * 4095 := Nat.mul_le_mul_left _ hq
  rw [Nat.add_mul, Nat.mul_assoc, Nat.mul_assoc] at hup hdown
  omega

theorem bytes_of_near {l t d n e : ℕ} (hd : 0 < d) (hhigh : low + d ≤ 255)
    (hl : 2 * l ≤ 257 * (2 * low + d)) (hl' : 257 * (2 * low + d) ≤ 2 * l + 1)
    (hn : n = 2 * low + d ∧ 2 * low + d ≤ 255 ∧ e = 0 ∨
      n + (2 * low + d) = 510 ∧ 256 ≤ 2 * low + d ∧ e = 1)
    (hup : 8192 * t ≤ 1052415 * d + 4095 * e + 4096)
    (hdown : 1052415 * d ≤ 8192 * t + 257 * n + 7932) :
    (l - t) / 256 = low ∧ (l + t) / 256 = low + d := by
  rcases hn with ⟨rfl, hdark, rfl⟩ | ⟨hn, hlight, rfl⟩
  · exact ⟨Nat.div_eq_of_lt_le (by omega) (by omega), Nat.div_eq_of_lt_le (by omega) (by omega)⟩
  · exact ⟨Nat.div_eq_of_lt_le (by omega) (by omega), Nat.div_eq_of_lt_le (by omega) (by omega)⟩

theorem extremes_eq {d : ℕ} (hhigh : low + d ≤ 255) :
    lowest ((2 * low + d) * 257 / 2) (saturationOf (2 * low + d) d) = low ∧
      highest ((2 * low + d) * 257 / 2) (saturationOf (2 * low + d) d) = low + d := by
  rw [lowest, highest, swing, saturationOf]
  rcases Nat.eq_zero_or_pos d with rfl | hd
  · rw [Nat.zero_mul, Nat.zero_div, Nat.mul_zero]
    omega
  split_ifs with hdark
  · rw [min_eq_left (by omega)]
    obtain ⟨hup, hdown⟩ := swing_near (x := (2 * low + d) * 257 / 2) (n := 2 * low + d) (d := d)
      (e := 0) (by omega) (by omega) (by omega) (by omega)
    exact bytes_of_near hd hhigh (by omega) (by omega) (.inl ⟨rfl, hdark, rfl⟩) hup hdown
  · rw [min_eq_right (by omega)]
    obtain ⟨hup, hdown⟩ := swing_near (x := 65535 - (2 * low + d) * 257 / 2)
      (n := 510 - (2 * low + d)) (d := d) (e := 1) (by omega) (by omega) (by omega) (by omega)
    exact bytes_of_near hd hhigh (by omega) (by omega) (.inr ⟨by omega, by omega, rfl⟩) hup hdown

section
variable {w d : ℕ}

theorem turn_bounds (hd : 0 < d) (hd' : d ≤ 255) (hw : w ≤ d) :
    6 * d * turn w d ≤ w * 65535 ∧ w * 65535 < 6 * d * turn w d + 1536 ∧ turn w d ≤ 10922 ∧
      (turn w d = 10922 → w = d) ∧ (0 < w → 42 ≤ turn w d) := by
  have hdiv := Nat.div_add_mod (w * 65535) (6 * d)
  have hmod := Nat.mod_lt (w * 65535) (show 0 < 6 * d by omega)
  rw [← turn] at hdiv
  have hge : ∀ k, k ≤ turn w d → 6 * d * k ≤ 6 * d * turn w d :=
    fun k hk => Nat.mul_le_mul_left _ hk
  have hle : ∀ k, turn w d ≤ k → 6 * d * turn w d ≤ 6 * d * k :=
    fun k hk => Nat.mul_le_mul_left _ hk
  refine ⟨by omega, by omega, ?_, ?_, ?_⟩
  · by_contra hlt
    have := hge 10923 (by omega)
    omega
  · intro heq
    have := hge 10922 heq.ge
    omega
  · intro hpos
    by_contra hlt
    have := hle 41 (by omega)
    omega

theorem mix_turn {k : ℕ} (hd : 0 < d) (hd' : d ≤ 255) (hw : w ≤ d)
    (hk : k = turn w d ∨ 0 < w ∧ k + 1 = turn w d) : mix low (low + d) (6 * k) = low + w := by
  obtain ⟨hle, hlt, -, -, -⟩ := turn_bounds hd hd' hw
  have hassoc : d * (6 * k) = 6 * d * k := by ring
  rw [mix, Nat.add_sub_cancel_left, hassoc]
  rcases hk with rfl | ⟨-, hk⟩
  · omega
  · rw [← hk, Nat.mul_add] at hle hlt
    omega

end
end

section
variable {hue : UInt16}

theorem slope_eq_rise (h : hue.toNat < 10922) : slope hue = 6 * hue.toNat := by
  have hlast : ¬ lastThird ≤ hue := by simp [lastThird, UInt16.le_iff_toNat_le]; omega
  have hmiddle : ¬ middle ≤ hue := by simp [middle, UInt16.le_iff_toNat_le]; omega
  have hsixth : ¬ secondSixth ≤ hue := by simp [secondSixth, UInt16.le_iff_toNat_le]; omega
  rw [slope, if_neg hlast, if_neg hmiddle, if_neg hsixth]

theorem slope_eq_fall (h : 32767 ≤ hue.toNat) : slope hue = 6 * (43690 - hue.toNat) := by
  have hmiddle : middle ≤ hue := by simpa [middle, UInt16.le_iff_toNat_le]
  rw [slope, if_pos hmiddle]
  split_ifs with hlast
  · have hle : 43690 ≤ hue.toNat := by simpa [lastThird, UInt16.le_iff_toNat_le] using hlast
    omega
  · rfl

theorem le_slope (h : 10922 ≤ hue.toNat) (h' : hue.toNat ≤ 32767) : 65536 ≤ slope hue := by
  by_cases heq : hue.toNat = 32767
  · rw [slope_eq_fall heq.ge, heq]
    decide
  · have hlast : ¬ lastThird ≤ hue := by simp [lastThird, UInt16.le_iff_toNat_le]; omega
    have hmiddle : ¬ middle ≤ hue := by simp [middle, UInt16.le_iff_toNat_le]; omega
    have hsixth : secondSixth ≤ hue := by simpa [secondSixth, UInt16.le_iff_toNat_le]
    rw [slope, if_neg hlast, if_neg hmiddle, if_pos hsixth]

variable {low d w k : ℕ}

theorem mix_top (hhigh : low + d ≤ 255) (h : 10922 ≤ hue.toNat) (h' : hue.toNat ≤ 32767) :
    mix low (low + d) (slope hue) = low + d :=
  mix_full ((le_slope h h').trans' (by decide)) (slope_le hue) (Nat.le_add_right ..) hhigh

theorem slope_eq_zero (h : 43690 ≤ hue.toNat) : slope hue = 0 := by
  rw [slope_eq_fall (by omega)]
  omega

theorem mix_bottom (h : 43690 ≤ hue.toNat) : mix low (low + d) (slope hue) = low := by
  rw [slope_eq_zero h, mix_zero]

theorem mix_rise (hd : 0 < d) (hhigh : low + d ≤ 255) (hw : w ≤ d)
    (hk : k = turn w d ∨ 0 < w ∧ k + 1 = turn w d) (h : hue.toNat = k) :
    mix low (low + d) (slope hue) = low + w := by
  obtain ⟨-, -, hle, hfull, -⟩ := turn_bounds hd (by omega) hw
  by_cases hlast : k = 10922
  · have hw' : w = d := hfull (by omega)
    rw [mix_top hhigh (by omega) (by omega), hw']
  · rw [slope_eq_rise (by omega), h, mix_turn hd (by omega) hw hk]

theorem mix_fall (hd : 0 < d) (hhigh : low + d ≤ 255) (hw : w ≤ d)
    (hk : k = turn w d ∨ 0 < w ∧ k + 1 = turn w d) (h : hue.toNat + k = 43690) :
    mix low (low + d) (slope hue) = low + w := by
  obtain ⟨-, -, hle, -, -⟩ := turn_bounds hd (by omega) hw
  have hk' : 43690 - hue.toNat = k := by omega
  rw [slope_eq_fall (by omega), hk', mix_turn hd (by omega) hw hk]

/-- Where a hue puts a channel of a color whose channels lie between `low` and `low + d`: at the top
of the ramp, at its bottom, or on one of its slopes, as far up as the way of the channel is long. -/
inductive Place (low d : ℕ) (hue : UInt16) : ℕ → Prop
  | top : 10922 ≤ hue.toNat → hue.toNat ≤ 32767 → Place low d hue (low + d)
  | bottom : 43690 ≤ hue.toNat → Place low d hue low
  | rise {w : ℕ} : w ≤ d → (hue.toNat = turn w d ∨ 0 < w ∧ hue.toNat + 1 = turn w d) →
      Place low d hue (low + w)
  | fall {w : ℕ} : w ≤ d →
      (hue.toNat + turn w d = 43690 ∨ 0 < w ∧ hue.toNat + turn w d = 43691) →
      Place low d hue (low + w)

theorem Place.mix_eq {v : ℕ} (h : Place low d hue v) (hd : 0 < d) (hhigh : low + d ≤ 255) :
    mix low (low + d) (slope hue) = v := by
  cases h with
  | top hfrom hto => exact mix_top hhigh hfrom hto
  | bottom hfrom => exact mix_bottom hfrom
  | rise hw hway => exact mix_rise hd hhigh hw hway rfl
  | fall hw hway =>
    obtain ⟨-, -, -, -, hpos⟩ := turn_bounds hd (by omega) hw
    exact mix_fall (k := 43690 - hue.toNat) hd hhigh hw (by omega) (by omega)

structure Places (low d : ℕ) (hue : UInt16) (r g b : ℕ) : Prop where
  red : Place low d (hue + third) r
  green : Place low d hue g
  blue : Place low d (hue - third) b

structure Mixes (low d : ℕ) (hue : UInt16) (r g b : ℕ) : Prop where
  r_eq : mix low (low + d) (slope (hue + third)) = r
  g_eq : mix low (low + d) (slope hue) = g
  b_eq : mix low (low + d) (slope (hue - third)) = b

theorem Places.mixes {r g b : ℕ} (h : Places low d hue r g b) (hd : 0 < d)
    (hhigh : low + d ≤ 255) : Mixes low d hue r g b :=
  ⟨h.red.mix_eq hd hhigh, h.green.mix_eq hd hhigh, h.blue.mix_eq hd hhigh⟩

theorem toNat_add_third (hue : UInt16) : (hue + third).toNat = (hue.toNat + 21845) % 65536 :=
  UInt16.toNat_add hue third

theorem toNat_sub_third (hue : UInt16) : (hue - third).toNat = (hue.toNat + 43691) % 65536 := by
  rw [UInt16.toNat_sub, Nat.add_comm]
  rfl

/-- The half sectors where the middle channel is `w` above the least one and the hue lies ahead of
its greatest channel. -/
theorem places_ahead (hd : 0 < d) (hd' : d ≤ 255) (hw : w ≤ d) :
    (hue.toNat = turn w d → Places low d hue (low + d) (low + w) low) ∧
      (hue.toNat = 21845 + turn w d → Places low d hue low (low + d) (low + w)) ∧
      (hue.toNat = 43690 + turn w d → Places low d hue (low + w) low (low + d)) := by
  obtain ⟨-, -, hle, -, hpos⟩ := turn_bounds hd hd' hw
  have hadd := toNat_add_third hue
  have hsub := toNat_sub_third hue
  refine ⟨fun h => ⟨?_, ?_, ?_⟩, fun h => ⟨?_, ?_, ?_⟩, fun h => ⟨?_, ?_, ?_⟩⟩
  · exact .top (by omega) (by omega)
  · exact .rise hw (.inl h)
  · exact .bottom (by omega)
  · exact .bottom (by omega)
  · exact .top (by omega) (by omega)
  · exact .rise hw (.inl (by omega))
  · -- three thirds are one step short of the circle, and the step is lost on the way
    rcases Nat.eq_zero_or_pos w with rfl | hw0
    · have hzero : turn 0 d = 0 := by rw [turn, Nat.zero_mul, Nat.zero_div]
      exact .bottom (by omega)
    · have hstep := hpos hw0
      exact .rise hw (.inr ⟨hw0, by omega⟩)
  · exact .bottom (by omega)
  · exact .top (by omega) (by omega)

theorem places_behind (hd : 0 < d) (hd' : d ≤ 255) (hw : w ≤ d) (hw0 : 0 < w) :
    (hue.toNat + turn w d = 65536 → Places low d hue (low + d) low (low + w)) ∧
      (hue.toNat + turn w d = 21845 → Places low d hue (low + w) (low + d) low) ∧
      (hue.toNat + turn w d = 43690 → Places low d hue low (low + w) (low + d)) := by
  obtain ⟨-, -, hle, -, hpos⟩ := turn_bounds hd hd' hw
  have hstep := hpos hw0
  have hadd := toNat_add_third hue
  have hsub := toNat_sub_third hue
  refine ⟨fun h => ⟨?_, ?_, ?_⟩, fun h => ⟨?_, ?_, ?_⟩, fun h => ⟨?_, ?_, ?_⟩⟩
  · exact .top (by omega) (by omega)
  · exact .bottom (by omega)
  · exact .fall hw (.inr ⟨hw0, by omega⟩)
  · exact .fall hw (.inl (by omega))
  · exact .top (by omega) (by omega)
  · exact .bottom (by omega)
  · exact .bottom (by omega)
  · exact .fall hw (.inl h)
  · exact .top (by omega) (by omega)

end

section
variable {a b s v : Int32} {w d : ℕ}

theorem toInt_half_of (v : Int32) : (v >>> 1).toInt = v.toInt / 2 := by
  rw [← Int32.toInt_toBitVec, Int32.toBitVec_shiftRight]
  simp [BitVec.toInt_sshiftRight, Int.shiftRight_eq_div_pow]

theorem toInt_lightnessOf {greatest least : Int32} {low d : ℕ} (hg : greatest.toInt = low + d)
    (hl : least.toInt = low) (hhigh : low + d ≤ 255) :
    (lightnessOf greatest least).toInt = ((2 * low + d) * 257 / 2 : ℕ) := by
  have hadd := toInt_add_eq hg hl (by omega) (by omega)
  have hmul := toInt_mul_eq hadd (show (257 : Int32).toInt = 257 from rfl) (by omega) (by omega)
  rw [lightnessOf, toInt_half_of, hmul]
  omega

theorem toInt_spreadTop {greatest least : Int32} {low d : ℕ} (hg : greatest.toInt = low + d)
    (hl : least.toInt = low) (hhigh : low + d ≤ 255) :
    (spreadTop greatest least).toInt =
      (if 2 * low + d ≤ 255 then 2 * low + d else 510 - (2 * low + d) : ℕ) := by
  have hdark : lightnessOf greatest least ≤ darkTop ↔ 2 * low + d ≤ 255 := by
    rw [Int32.le_iff_toInt_le, toInt_lightnessOf hg hl hhigh, show darkTop.toInt = 32767 from rfl]
    omega
  rw [spreadTop]
  simp only [hdark]
  split_ifs with h
  · rw [toInt_add_eq hg hl (by omega) (by omega)]
    omega
  · have hfirst := toInt_sub_eq (show (2 * 0xff : Int32).toInt = 510 from rfl) hg (by omega)
      (by omega)
    rw [toInt_sub_eq hfirst hl (by omega) (by omega)]
    omega

theorem toNat_saturation {greatest least : Int32} {low d : ℕ} (hg : greatest.toInt = low + d)
    (hl : least.toInt = low) (hd : 0 < d) (hhigh : low + d ≤ 255) :
    ((greatest - least) * 0xfff / spreadTop greatest least).toUInt32.toUInt16.toNat =
      saturationOf (2 * low + d) d := by
  have hsub := toInt_sub_eq hg hl (by omega) (by omega)
  have hmul := toInt_mul_eq hsub (show (0xfff : Int32).toInt = 4095 from rfl) (by omega) (by omega)
  have hcast : ((low + d - low) * 4095 : ℤ) = (d * 4095 : ℕ) := by omega
  have hdiv : ((greatest - least) * 0xfff / spreadTop greatest least).toInt =
      (saturationOf (2 * low + d) d : ℕ) := by
    rw [toInt_div_eq hmul (toInt_spreadTop hg hl hhigh) (by omega), hcast]
    exact (Int.ofNat_tdiv _ _).symm
  have hsat := saturationOf_le (show d ≤ 2 * low + d by omega) (by omega)
  have hword := toNat_toUInt16 ((greatest - least) * 0xfff / spreadTop greatest least)
  rw [hdiv] at hword
  omega

theorem toInt_turn (hw : w ≤ 255) (hs : s.toInt = d) (hd : 0 < d) (hd' : d ≤ 255) :
    (a.toInt - b.toInt = w → ((a - b) * 0xffff / (6 * s)).toInt = turn w d) ∧
      (b.toInt - a.toInt = w → ((a - b) * 0xffff / (6 * s)).toInt = -turn w d) := by
  have hden := toInt_mul_eq (show (6 : Int32).toInt = 6 from rfl) hs (by omega) (by omega)
  have hquot : ∀ v : ℤ, a.toInt - b.toInt = v → |v| ≤ 255 →
      ((a - b) * 0xffff / (6 * s)).toInt = (v * 65535).tdiv (6 * d) := by
    intro v hv habs
    obtain ⟨hlow, hhigh⟩ := abs_le.1 habs
    have hsub := toInt_sub_eq (a := a) (b := b) rfl rfl (by omega) (by omega)
    rw [hv] at hsub
    have hmul := toInt_mul_eq hsub (show (0xffff : Int32).toInt = 65535 from rfl) (by omega)
      (by omega)
    exact toInt_div_eq hmul hden (by omega)
  constructor
  · intro h
    rw [hquot w h (abs_le.2 (by omega))]
    exact (Int.ofNat_tdiv (w * 65535) (6 * d)).symm
  · intro h
    rw [hquot (-w) (by omega) (abs_le.2 (by omega)), Int.neg_mul, Int.neg_tdiv]
    exact congrArg Neg.neg (Int.ofNat_tdiv (w * 65535) (6 * d)).symm

theorem toNat_hue (a b : Int32) {n : ℕ} (hv : v.toInt = n) (hn : 21845 ≤ n) (hn' : n ≤ 43690)
    (hw : w ≤ d) (hs : s.toInt = d) (hd : 0 < d) (hd' : d ≤ 255) :
    (a.toInt - b.toInt = w →
        (v + (a - b) * 0xffff / (6 * s)).toUInt32.toUInt16.toNat = n + turn w d) ∧
      (b.toInt - a.toInt = w →
        (v + (a - b) * 0xffff / (6 * s)).toUInt32.toUInt16.toNat + turn w d = n) := by
  obtain ⟨-, -, hle, -, -⟩ := turn_bounds hd hd' hw
  obtain ⟨hahead, hbehind⟩ := toInt_turn (a := a) (b := b) (show w ≤ 255 by omega) hs hd hd'
  have hword := toNat_toUInt16 (v + (a - b) * 0xffff / (6 * s))
  constructor
  · intro h
    rw [toInt_add_eq hv (hahead h) (by omega) (by omega)] at hword
    omega
  · intro h
    rw [toInt_add_eq hv (hbehind h) (by omega) (by omega)] at hword
    omega

end

theorem places_hueOf {r g b greatest spread : Int32} {low d x y z : ℕ} (hr : r.toInt = x)
    (hg : g.toInt = y) (hb : b.toInt = z) (hgreatest : greatest.toInt = low + d)
    (hspread : spread.toInt = d) (hleast : min (min x y) z = low)
    (hmost : max (max x y) z = low + d) (hd : 0 < d) (hhigh : low + d ≤ 255) :
    Places low d (hueOf r g b greatest spread).toUInt32.toUInt16 x y z := by
  have h5555 : (0x5555 : Int32).toInt = 21845 := rfl
  have haaaa : (2 * 0x5555 : Int32).toInt = 43690 := rfl
  have hequal : ∀ {v : Int32} {n : ℕ}, v.toInt = n → (v = greatest ↔ n = low + d) := by
    intro v n hv
    rw [← Int32.toInt_inj, hv, hgreatest]
    omega
  rw [hueOf]
  simp only [hequal hr, hequal hg]
  -- a quotient and its third of the circle make the hue, modulo the circle
  split_ifs with hx hy
  · have hword := toNat_toUInt16 ((g - b) * 0xffff / (6 * spread))
    rcases le_or_gt z y with hzy | hyz
    · obtain ⟨w, rfl⟩ := Nat.exists_eq_add_of_le (show low ≤ y by omega)
      obtain ⟨-, -, hle, -, -⟩ := turn_bounds hd (by omega) (show w ≤ d by omega)
      rw [(toInt_turn (w := w) (by omega) hspread hd (by omega)).1 (by omega)] at hword
      have hz : z = low := by omega
      rw [hx, hz]
      exact (places_ahead hd (by omega) (by omega)).1 (by omega)
    · obtain ⟨w, rfl⟩ := Nat.exists_eq_add_of_le (show low ≤ z by omega)
      obtain ⟨-, -, hle, -, hpos⟩ := turn_bounds hd (by omega) (show w ≤ d by omega)
      have hstep := hpos (by omega)
      rw [(toInt_turn (w := w) (by omega) hspread hd (by omega)).2 (by omega)] at hword
      have hy : y = low := by omega
      rw [hx, hy]
      exact (places_behind hd (by omega) (by omega) (by omega)).1 (by omega)
  · rcases le_or_gt x z with hxz | hzx
    · obtain ⟨w, rfl⟩ := Nat.exists_eq_add_of_le (show low ≤ z by omega)
      obtain ⟨hahead, hbehind⟩ := toNat_hue b r (n := 21845) h5555 (by omega) (by omega)
        (show w ≤ d by omega) hspread hd (by omega)
      have hx' : x = low := by omega
      rw [hx', hy]
      exact (places_ahead hd (by omega) (by omega)).2.1 (hahead (by omega))
    · obtain ⟨w, rfl⟩ := Nat.exists_eq_add_of_le (show low ≤ x by omega)
      obtain ⟨hahead, hbehind⟩ := toNat_hue b r (n := 21845) h5555 (by omega) (by omega)
        (show w ≤ d by omega) hspread hd (by omega)
      have hz : z = low := by omega
      rw [hz, hy]
      exact (places_behind hd (by omega) (by omega) (by omega)).2.1 (hbehind (by omega))
  · have hz : z = low + d := by omega
    rcases le_or_gt y x with hyx | hxy
    · obtain ⟨w, rfl⟩ := Nat.exists_eq_add_of_le (show low ≤ x by omega)
      obtain ⟨hahead, hbehind⟩ := toNat_hue r g (n := 43690) haaaa (by omega) (by omega)
        (show w ≤ d by omega) hspread hd (by omega)
      have hy' : y = low := by omega
      rw [hy', hz]
      exact (places_ahead hd (by omega) (by omega)).2.2 (hahead (by omega))
    · obtain ⟨w, rfl⟩ := Nat.exists_eq_add_of_le (show low ≤ y by omega)
      obtain ⟨hahead, hbehind⟩ := toNat_hue r g (n := 43690) haaaa (by omega) (by omega)
        (show w ≤ d by omega) hspread hd (by omega)
      have hx' : x = low := by omega
      rw [hx', hz]
      exact (places_behind hd (by omega) (by omega) (by omega)).2.2 (hbehind (by omega))

structure Encodes (low d : ℕ) (c : Hsl) (r g b : ℕ) : Prop where
  lightness_eq : c.lightness.toInt = ((2 * low + d) * 257 / 2 : ℕ)
  saturation_eq : c.saturation.toNat = saturationOf (2 * low + d) d
  mixes : Mixes low d c.hue r g b

theorem encodes_gray (v : UInt8) : Encodes v.toNat 0 (ofRgb v v v) v.toNat v.toNat v.toNat := by
  have hv := v.toNat_lt
  have hchannel : (channel v).toInt = v.toNat := toInt_byte v
  rw [ofRgb_gray]
  refine ⟨toInt_lightnessOf (by omega) hchannel (by omega), ?_, mix_self _ _, mix_self _ _,
    mix_self _ _⟩
  rw [saturationOf, Nat.zero_mul, Nat.zero_div]
  rfl

section
variable (red green blue : UInt8)

theorem toInt_greatest : (max (max (channel red) (channel green)) (channel blue)).toInt =
    (max (max red.toNat green.toNat) blue.toNat : ℕ) := by
  have hchannel : ∀ v, (channel v).toInt = v.toNat := toInt_byte
  rw [toInt_max, toInt_max, hchannel, hchannel, hchannel, Nat.cast_max, Nat.cast_max]

theorem toInt_least : (min (min (channel red) (channel green)) (channel blue)).toInt =
    (min (min red.toNat green.toNat) blue.toNat : ℕ) := by
  have hchannel : ∀ v, (channel v).toInt = v.toNat := toInt_byte
  rw [toInt_min, toInt_min, hchannel, hchannel, hchannel, Nat.cast_min, Nat.cast_min]

end

section
variable {red green blue : UInt8} {low d : ℕ}
  (hleast : min (min red.toNat green.toNat) blue.toNat = low)
  (hmost : max (max red.toNat green.toNat) blue.toNat = low + d) (hd : 0 < d)
include hleast hmost hd

theorem exists_ofRgb_eq :
    ∃ greatest least : Int32, greatest.toInt = low + d ∧ least.toInt = low ∧ low + d ≤ 255 ∧
      ofRgb red green blue =
        ⟨(hueOf (channel red) (channel green) (channel blue) greatest
            (greatest - least)).toUInt32.toUInt16,
          ((greatest - least) * 0xfff / spreadTop greatest least).toUInt32.toUInt16,
          lightnessOf greatest least⟩ := by
  have hhigh : low + d ≤ 255 := by
    have hr' := red.toNat_lt
    have hg' := green.toNat_lt
    have hb' := blue.toNat_lt
    omega
  have hgreatest := toInt_greatest red green blue
  have hleast' := toInt_least red green blue
  rw [hmost, Nat.cast_add] at hgreatest
  rw [hleast] at hleast'
  have hne : ¬ min (min (channel red) (channel green)) (channel blue) =
      max (max (channel red) (channel green)) (channel blue) := by
    rw [← Int32.toInt_inj, hleast', hgreatest]
    omega
  exact ⟨_, _, hgreatest, hleast', hhigh, if_neg hne⟩

theorem places_ofRgb :
    Places low d (ofRgb red green blue).hue red.toNat green.toNat blue.toNat := by
  obtain ⟨greatest, least, hgreatest, hleast', hhigh, hcolor⟩ := exists_ofRgb_eq hleast hmost hd
  have hspread := toInt_sub_eq hgreatest hleast' (by omega) (by omega)
  rw [add_sub_cancel_left] at hspread
  rw [hcolor]
  exact places_hueOf (toInt_byte red) (toInt_byte green) (toInt_byte blue) hgreatest hspread hleast
    hmost hd hhigh

theorem encodes_color :
    Encodes low d (ofRgb red green blue) red.toNat green.toNat blue.toNat := by
  obtain ⟨greatest, least, hgreatest, hleast', hhigh, hcolor⟩ := exists_ofRgb_eq hleast hmost hd
  refine ⟨?_, ?_, (places_ofRgb hleast hmost hd).mixes hd hhigh⟩
  · rw [hcolor]
    exact toInt_lightnessOf hgreatest hleast' hhigh
  · rw [hcolor]
    exact toNat_saturation hgreatest hleast' hd hhigh

end

theorem exists_encodes (red green blue : UInt8) :
    ∃ low d, low + d ≤ 255 ∧ min (min red.toNat green.toNat) blue.toNat = low ∧
      max (max red.toNat green.toNat) blue.toNat = low + d ∧
      Encodes low d (ofRgb red green blue) red.toNat green.toNat blue.toNat := by
  by_cases hgray : red = green ∧ green = blue
  · obtain ⟨rfl, rfl⟩ := hgray
    have hv := red.toNat_lt
    exact ⟨red.toNat, 0, by omega, by omega, by omega, encodes_gray red⟩
  · have hr := red.toNat_lt
    have hg := green.toNat_lt
    have hb := blue.toNat_lt
    rw [← UInt8.toNat_inj, ← UInt8.toNat_inj] at hgray
    obtain ⟨d, hd⟩ := Nat.exists_eq_add_of_le (show min (min red.toNat green.toNat) blue.toNat ≤
      max (max red.toNat green.toNat) blue.toNat by omega)
    exact ⟨_, d, by omega, rfl, hd, encodes_color rfl hd (by omega)⟩

theorem saturation_ofRgb_le (red green blue : UInt8) :
    (ofRgb red green blue).saturation.toNat ≤ 4095 := by
  obtain ⟨low, d, hle, -, -, h⟩ := exists_encodes red green blue
  rw [h.saturation_eq]
  exact saturationOf_le (by omega) (by omega)

theorem lightness_ofRgb_mem (red green blue : UInt8) :
    0 ≤ (ofRgb red green blue).lightness.toInt ∧
      (ofRgb red green blue).lightness.toInt ≤ 65535 := by
  obtain ⟨low, d, hle, -, -, h⟩ := exists_encodes red green blue
  rw [h.lightness_eq]
  omega

/-- No color is changed by the way to hue, saturation and lightness and back. -/
theorem toRgb_ofRgb (red green blue : UInt8) :
    (ofRgb red green blue).toRgb = (red, green, blue) := by
  obtain ⟨low, d, hle, -, -, h⟩ := exists_encodes red green blue
  obtain ⟨hr, hg, hb⟩ := toNat_toRgb h.lightness_eq (by omega) (saturation_ofRgb_le red green blue)
  obtain ⟨hlow, hhigh⟩ := extremes_eq hle
  rw [h.saturation_eq, hlow, hhigh] at hr hg hb
  refine Prod.ext ?_ (Prod.ext ?_ ?_)
  · exact UInt8.toNat_inj.1 (hr.trans h.mixes.r_eq)
  · exact UInt8.toNat_inj.1 (hg.trans h.mixes.g_eq)
  · exact UInt8.toNat_inj.1 (hb.trans h.mixes.b_eq)

end FixedRaster.Hsl
