import FixedRaster.Proofs.Gaussian.Precision
import FixedRaster.Proofs.Gaussian.Separable

/-!
# Constant planes under a blur

A half of the filter answers a constant line by its gain times the constant, up to a drift: the
coefficients are rounded, so the response moves to a nearby constant, and every step rounds again.
The drift `e` of a response stays within a bound `E`, and from one pixel to the next no more than
`(1 - g) E` is added to `g e`. So the response of a line of any length stays near the constant.
-/

namespace FixedRaster.Gaussian

open Binary

theorem Half.near_next {f : Half} {s : Lag} {x : Float} {p q b1 b2 u v y z : ℝ}
    (hp : Near f.p p 0) (hq : Near f.q q 0) (hb1 : Near f.b1 b1 0) (hb2 : Near f.b2 b2 0)
    (hx : Near x u 0) (hv : Near s.input v 0) (hy : Near s.output y 0) (hz : Near s.earlier z 0)
    (hp' : |p| ≤ 2) (hq' : |q| ≤ 2) (hb1' : |b1| ≤ 3) (hb2' : |b2| ≤ 2)
    (hu' : |u| ≤ 2 ^ 16) (hv' : |v| ≤ 2 ^ 16) (hy' : |y| ≤ 2 ^ 17) (hz' : |z| ≤ 2 ^ 17) :
    Near (f.next s x) (u * p + v * q + y * b1 + z * b2) grain := by
  have hterm : ∀ {l r : Float} {a b A B : ℝ}, Near l a 0 → Near r b 0 → |a| ≤ A → |b| ≤ B →
      A * B ≤ 2 ^ 19 → Near (l * r) (a * b) (1 / 2 ^ 32) ∧ |a * b| ≤ A * B := by
    intro l r a b A B hl hr ha hb hAB
    exact ⟨(hl.mul hr ha hb (M := 2 ^ 19) (by linarith) (by norm_num)).mono (by norm_num),
      abs_mul_le ha hb⟩
  obtain ⟨h1, hsize1⟩ := hterm hx hp hu' hp' (by norm_num)
  obtain ⟨h2, hsize2⟩ := hterm hv hq hv' hq' (by norm_num)
  obtain ⟨h3, hsize3⟩ := hterm hy hb1 hy' hb1' (by norm_num)
  obtain ⟨h4, hsize4⟩ := hterm hz hb2 hz' hb2' (by norm_num)
  have htwo := abs_add_le (u * p) (v * q)
  have hthree := abs_add_le (u * p + v * q) (y * b1)
  have hfour := abs_add_le (u * p + v * q + y * b1) (z * b2)
  have hsum2 := h1.add h2 (M := 2 ^ 20) (by linarith) (by norm_num)
  have hsum3 := hsum2.add h3 (M := 2 ^ 20) (by linarith) (by norm_num)
  have hsum4 := hsum3.add h4 (M := 2 ^ 20) (by linarith) (by norm_num)
  exact hsum4.mono (by norm_num [grain])

theorem drift_step {X C g E P Q τ β γ p q b1 b2 y z w η : ℝ} (hg : 0 ≤ g) (hX : 0 ≤ X)
    (hC : 0 ≤ C) (hp : |p - P| ≤ τ) (hq : |q - Q| ≤ τ) (hPQ : P + Q = C * ((1 - g) * (1 - g)))
    (hb1 : |b1 - 2 * g| ≤ β) (hb2 : |b2 - -(g * g)| ≤ γ)
    (hy : |y - X * C| ≤ E) (hz : |z - X * C| ≤ E)
    (hyz : |y - X * C - g * (z - X * C)| ≤ (1 - g) * E)
    (hw : |w - (X * p + X * q + y * b1 + z * b2)| ≤ η)
    (hE : X * (τ + τ + (β + γ) * C) + η ≤ ((1 - g) * (1 - g) - (β + γ)) * E) :
    |w - X * C - g * (y - X * C)| ≤ (1 - g) * E ∧ |w - X * C| ≤ E := by
  have hsplit : w - X * C - g * (y - X * C) =
      w - (X * p + X * q + y * b1 + z * b2) + X * (p - P) + X * (q - Q) +
        X * C * (b1 - 2 * g) + X * C * (b2 - -(g * g)) + g * (y - X * C - g * (z - X * C)) +
          (b1 - 2 * g) * (y - X * C) + (b2 - -(g * g)) * (z - X * C) := by
    linear_combination X * hPQ
  have hXC := mul_nonneg hX hC
  have hstep : |w - X * C - g * (y - X * C)| ≤ (1 - g) * E := by
    have hp' := abs_le.1 (abs_mul_le (abs_of_nonneg hX).le hp)
    have hq' := abs_le.1 (abs_mul_le (abs_of_nonneg hX).le hq)
    have hb1' := abs_le.1 (abs_mul_le (abs_of_nonneg hXC).le hb1)
    have hb2' := abs_le.1 (abs_mul_le (abs_of_nonneg hXC).le hb2)
    have hkept := abs_le.1 (abs_mul_le (abs_of_nonneg hg).le hyz)
    have hy' := abs_le.1 (abs_mul_le hb1 hy)
    have hz' := abs_le.1 (abs_mul_le hb2 hz)
    have hw' := abs_le.1 hw
    rw [hsplit, abs_le]
    constructor <;> linarith
  -- `g E` of the last drift and `(1 - g) E` more are at most `E`
  refine ⟨hstep, ?_⟩
  have htri := abs_add_le (w - X * C - g * (y - X * C)) (g * (y - X * C))
  rw [sub_add_cancel, abs_mul, abs_of_nonneg hg] at htri
  have hscale := mul_le_mul_of_nonneg_left hy hg
  linarith

/-- What both feedback coefficients together are off by at most: half a unit in the last place of
each, since one is below two and the other below one. -/
noncomputable def skew : ℝ := 193 / 128 * grain

theorem grain_add_eq_skew : grain + grain / 256 + (grain / 2 + grain / 256) = skew := by
  rw [skew]
  ring

theorem skew_nonneg : 0 ≤ skew := by
  have hpos := grain_pos
  rw [skew]
  positivity

/-- A half with taps near `P` and `Q` and the feedback of a ratio `g`. A response to a constant line
that is off its gain `C` by `E` does not get further off. -/
structure Half.Bounds (f : Half) (g C P Q τ E : ℝ) : Prop where
  ratio_nonneg : 0 ≤ g
  ratio_le : g ≤ 1
  gain_nonneg : 0 ≤ C
  gain_le : C ≤ 1
  p : Near f.p P τ
  q : Near f.q Q τ
  b1 : Near f.b1 (2 * g) (grain + grain / 256)
  b2 : Near f.b2 (-(g * g)) (grain / 2 + grain / 256)
  taps : P + Q = C * ((1 - g) * (1 - g))
  abs_p_le : |P| + τ ≤ 2
  abs_q_le : |Q| + τ ≤ 2
  budget : 65535 * (τ + τ + skew * C) + grain ≤ ((1 - g) * (1 - g) - skew) * E
  drift_le : E ≤ 2 ^ 16

structure Lag.Steady (s : Lag) (x : UInt16) (g C E : ℝ) : Prop where
  input : s.input = x.toFloat
  output : Near s.output (x.toNat * C) E
  earlier : Near s.earlier (x.toNat * C) E
  step : |real (value s.output) - x.toNat * C - g * (real (value s.earlier) - x.toNat * C)| ≤
    (1 - g) * E

section
variable {f : Half} {s : Lag} {x : UInt16} {g C P Q τ E : ℝ}

theorem cast_toNat_le (x : UInt16) : (x.toNat : ℝ) ≤ 65535 := by
  have hlt := x.toNat_lt
  exact_mod_cast (show x.toNat ≤ 65535 by omega)

theorem Half.Bounds.abs_mul_gain_le (h : f.Bounds g C P Q τ E) (x : UInt16) :
    |(x.toNat : ℝ) * C| ≤ 65535 := by
  have hx := cast_toNat_le x
  rw [abs_mul, Nat.abs_cast, abs_of_nonneg h.gain_nonneg]
  exact (mul_le_of_le_one_right (Nat.cast_nonneg _) h.gain_le).trans hx

theorem Half.Bounds.steady_push (h : f.Bounds g C P Q τ E) (hs : s.Steady x g C E) :
    (s.push x.toFloat (f.next s x.toFloat)).Steady x g C E := by
  have hx := near_toFloat x
  have hX := cast_toNat_le x
  have hX0 : (0 : ℝ) ≤ x.toNat := Nat.cast_nonneg _
  have hE := hs.output.nonneg
  have hE' := h.drift_le
  have hgain := h.abs_mul_gain_le x
  have hgrain := grain_pos
  have hgrain' := grain_lt
  have hy := hs.output.abs_le
  have hz := hs.earlier.abs_le
  have hb1 : |2 * g| ≤ 2 := by
    rw [abs_of_nonneg (mul_nonneg zero_le_two h.ratio_nonneg)]
    linarith [h.ratio_le]
  have hb2 : |-(g * g)| ≤ 1 := by
    rw [abs_neg, abs_of_nonneg (mul_nonneg h.ratio_nonneg h.ratio_nonneg)]
    exact mul_le_one₀ h.ratio_le h.ratio_nonneg h.ratio_le
  have hnext := Half.near_next h.p.self h.q.self h.b1.self h.b2.self hx (hs.input ▸ hx)
    hs.output.self hs.earlier.self (h.p.abs_le.trans h.abs_p_le) (h.q.abs_le.trans h.abs_q_le)
    (h.b1.abs_le.trans (by linarith)) (h.b2.abs_le.trans (by linarith))
    (by rw [Nat.abs_cast]; linarith) (by rw [Nat.abs_cast]; linarith) (by linarith) (by linarith)
  have hbudget : x.toNat * (τ + τ + skew * C) + grain ≤ ((1 - g) * (1 - g) - skew) * E := by
    have hτ := h.p.nonneg
    have hC := h.gain_nonneg
    have hskew := skew_nonneg
    have hscale := mul_le_mul_of_nonneg_right hX (show 0 ≤ τ + τ + skew * C by positivity)
    linarith [h.budget]
  rw [← grain_add_eq_skew] at hbudget
  obtain ⟨hstep, hout⟩ := drift_step h.ratio_nonneg hX0 h.gain_nonneg h.p.2 h.q.2 h.taps h.b1.2
    h.b2.2 hs.output.2 hs.earlier.2 hs.step hnext.2 hbudget
  exact ⟨rfl, ⟨hnext.1, hout⟩, hs.output, hstep⟩

theorem Half.Bounds.near_causal (h : f.Bounds g C P Q τ E) {line : List UInt16}
    (hline : ∀ u ∈ line, u = x) (hs : s.Steady x g C E) :
    ∀ y ∈ f.causal s line, Near (widen y) (x.toNat * C) (E + 1 / 2 ^ 6) := by
  induction line generalizing s with
  | nil => exact fun y hy => absurd hy List.not_mem_nil
  | cons u us ih =>
    obtain ⟨rfl, hus⟩ := List.forall_mem_cons.1 hline
    have hnext := h.steady_push hs
    intro y hy
    rcases List.mem_cons.1 hy with rfl | hy
    · have hgain := h.abs_mul_gain_le u
      have hdrift := h.drift_le
      exact (hnext.output.narrow (M := 2 ^ 17) (by linarith) (by norm_num)).mono (by linarith)
    · exact ih hus hnext y hy

theorem Half.Bounds.near_anticausal (h : f.Bounds g C P Q τ E) {line : List UInt16}
    (hline : ∀ u ∈ line, u = x) (hs : s.Steady x g C E) :
    ∀ z ∈ f.anticausal s x.toFloat line, Near z (x.toNat * C) E := by
  induction line generalizing s with
  | nil => exact fun z hz => absurd hz List.not_mem_nil
  | cons u us ih =>
    obtain ⟨rfl, hus⟩ := List.forall_mem_cons.1 hline
    have hnext := h.steady_push hs
    intro z hz
    rcases List.mem_cons.1 hz with rfl | hz
    · exact hnext.output
    · exact ih hus hnext z hz

theorem Half.Bounds.steady_constant (h : f.Bounds g C P Q τ E) (x : UInt16) {corner : Float}
    (hcorner : Near corner C (1 / 2 ^ 17)) (hE : 1 ≤ E) :
    (Lag.constant x.toFloat corner).Steady x g C E := by
  have hseed : Near (x.toFloat * corner) (x.toNat * C) 1 := by
    refine ((near_toFloat x).mul hcorner (A := 65535) (B := 1) (M := 2 ^ 17) ?_ ?_ (by norm_num)
      (by norm_num)).mono (by norm_num)
    · rw [Nat.abs_cast]
      exact cast_toNat_le x
    · rw [abs_of_nonneg h.gain_nonneg]
      exact h.gain_le
  have hnear := hseed.mono hE
  refine ⟨rfl, hnear, hnear, ?_⟩
  have hform : ∀ v : ℝ, v - g * v = (1 - g) * v := fun v => by ring
  have hlost : 0 ≤ 1 - g := sub_nonneg.2 h.ratio_le
  rw [Lag.constant]
  simp only [hform]
  rw [abs_mul, abs_of_nonneg hlost]
  exact mul_le_mul_of_nonneg_left hnear.2 hlost

end

noncomputable def drift (a gain : ℝ) : ℝ :=
  (65535 * (slack a + slack a + skew * gain) + grain) /
    ((1 - ratio a) * (1 - ratio a) - skew) + 1

section
variable {a gain : ℝ}

theorem lack_pos (h : 1 / 143 ≤ 1 - ratio a) : 0 < (1 - ratio a) * (1 - ratio a) - skew := by
  rw [skew]
  nlinarith [grain_lt]

theorem slack_nonneg (h : 1 / 143 ≤ 1 - ratio a) : 0 ≤ slack a := by
  have hpos := grain_pos
  rw [slack]
  exact add_nonneg (mul_nonneg (by linarith) hpos.le) (by positivity)

theorem one_le_drift (h : 1 / 143 ≤ 1 - ratio a) (hgain : 0 ≤ gain) : 1 ≤ drift a gain := by
  have hlack := lack_pos h
  have hslack := slack_nonneg h
  have hpos := grain_pos
  have hskew := skew_nonneg
  exact le_add_of_nonneg_left (by positivity)

theorem drift_budget (h : 1 / 143 ≤ 1 - ratio a) :
    65535 * (slack a + slack a + skew * gain) + grain ≤
      ((1 - ratio a) * (1 - ratio a) - skew) * drift a gain := by
  have hlack := lack_pos h
  rw [drift, mul_add_one, mul_div_cancel₀ _ hlack.ne']
  exact le_add_of_nonneg_right hlack.le

theorem drift_add_le {other : ℝ} (h : 1 / 143 ≤ 1 - ratio a) (hsum : gain + other = 1) :
    drift a gain + drift a other ≤ 126.5 := by
  have hlack := lack_pos h
  have hquotient : (65535 * (slack a + slack a + skew * gain) + grain +
      (65535 * (slack a + slack a + skew * other) + grain)) /
        ((1 - ratio a) * (1 - ratio a) - skew) ≤ 124.5 := by
    -- of the gains only their sum counts, and the rest is least at the largest radius
    rw [div_le_iff₀ hlack, slack, skew, grain]
    nlinarith
  rw [add_div] at hquotient
  rw [drift, drift]
  linarith

end

namespace Coefficients.Follows
variable {c : Coefficients} {a : ℝ}

theorem tap_add_slack_le (h : c.Follows a) {v : ℝ} (hv : |v| ≤ tap a) : |v| + slack a ≤ 2 := by
  have htap := tap_le h.pos
  have hpos := ratio_pos a
  rw [slack, grain]
  linarith

theorem forward_bounds (h : c.Follows a) :
    c.forward.Bounds (ratio a) (leftGain a) (tap a) (tap a * (a - 1) * ratio a) (slack a)
      (drift a (leftGain a)) where
  ratio_nonneg := (ratio_pos a).le
  ratio_le := (ratio_lt_one h.pos).le
  gain_nonneg := leftGain_nonneg h.pos
  gain_le := by linarith [leftGain_add_rightGain h.pos, rightGain_nonneg h.pos]
  p := h.a0
  q := h.a1
  b1 := h.b1
  b2 := h.b2
  taps := tap_add_eq h.pos
  abs_p_le := h.tap_add_slack_le (abs_of_nonneg (tap_nonneg h.pos)).le
  abs_q_le := h.tap_add_slack_le (abs_tap_second_le h.pos)
  budget := drift_budget h.le_lost
  drift_le := by
    linarith [drift_add_le h.le_lost (leftGain_add_rightGain h.pos),
      one_le_drift h.le_lost (rightGain_nonneg h.pos)]

theorem backward_bounds (h : c.Follows a) :
    c.backward.Bounds (ratio a) (rightGain a) (tap a * (a + 1) * ratio a)
      (-(tap a) * (ratio a * ratio a)) (slack a) (drift a (rightGain a)) where
  ratio_nonneg := (ratio_pos a).le
  ratio_le := (ratio_lt_one h.pos).le
  gain_nonneg := rightGain_nonneg h.pos
  gain_le := by linarith [leftGain_add_rightGain h.pos, leftGain_nonneg h.pos]
  p := h.a2
  q := h.a3
  b1 := h.b1
  b2 := h.b2
  taps := by rw [neg_mul, ← sub_eq_add_neg, tap_sub_eq h.pos]
  abs_p_le := h.tap_add_slack_le (abs_tap_third_le h.pos)
  abs_q_le := h.tap_add_slack_le (abs_tap_fourth_le h.pos)
  budget := drift_budget h.le_lost
  drift_le := by
    linarith [drift_add_le h.le_lost (leftGain_add_rightGain h.pos),
      one_le_drift h.le_lost (leftGain_nonneg h.pos)]

theorem near_causal (h : c.Follows a) {line : List UInt16} {x : UInt16}
    (hline : ∀ u ∈ line, u = x) :
    ∀ y ∈ c.causal line,
      Near (widen y) (x.toNat * leftGain a) (drift a (leftGain a) + 1 / 2 ^ 6) := by
  cases line with
  | nil => exact fun y hy => absurd hy List.not_mem_nil
  | cons u us =>
    obtain rfl := hline u List.mem_cons_self
    exact h.forward_bounds.near_causal hline (h.forward_bounds.steady_constant u h.leftCorner
      (one_le_drift h.le_lost (leftGain_nonneg h.pos)))

theorem near_anticausal (h : c.Follows a) {line : List UInt16} {x : UInt16}
    (hline : ∀ u ∈ line, u = x) :
    ∀ z ∈ c.anticausal line, Near z (x.toNat * rightGain a) (drift a (rightGain a)) := by
  have hreverse : ∀ u ∈ line.reverse, u = x := fun u hu => hline u (List.mem_reverse.1 hu)
  rw [anticausal]
  cases hr : line.reverse with
  | nil => exact fun z hz => absurd hz List.not_mem_nil
  | cons u us =>
    rw [hr] at hreverse
    obtain rfl := hreverse u List.mem_cons_self
    exact h.backward_bounds.near_anticausal hreverse (h.backward_bounds.steady_constant u
      h.rightCorner (one_le_drift h.le_lost (rightGain_nonneg h.pos)))

theorem filtered_near (h : c.Follows a) {line : List UInt16} {x : UInt16}
    (hline : ∀ u ∈ line, u = x) :
    ∀ w ∈ c.filtered line, |(w.toNat : ℤ) - x.toNat| ≤ 128 := by
  intro w hw
  obtain ⟨y, z, hy, hz, rfl⟩ : ∃ y z, y ∈ c.causal line ∧ z ∈ (c.anticausal line).reverse ∧
      w = blend y z := by
    rw [filtered, response, ← List.map_uncurry_zip_eq_zipWith, List.mem_map] at hw
    obtain ⟨⟨y, z⟩, hyz, rfl⟩ := hw
    exact ⟨y, z, (List.of_mem_zip hyz).1, (List.of_mem_zip hyz).2, rfl⟩
  have hcausal := h.near_causal hline y hy
  have hanticausal := h.near_anticausal hline z (List.mem_reverse.1 hz)
  have hsum : (x.toNat : ℝ) * leftGain a + x.toNat * rightGain a = x.toNat := by
    rw [← mul_add, leftGain_add_rightGain h.pos, mul_one]
  have hdrift := drift_add_le h.le_lost (leftGain_add_rightGain h.pos)
  have hx := cast_toNat_le x
  have hblend := hcausal.add hanticausal (M := 2 ^ 17) (by
    rw [hsum, Nat.abs_cast]
    linarith) (by norm_num)
  rw [hsum] at hblend
  have hsample := hblend.toUInt16 x
  rw [sub_self, abs_zero] at hsample
  have hreal : |((blend y z).toNat : ℝ) - x.toNat| ≤ 128 := by
    rw [blend]
    linarith
  exact_mod_cast hreal

end Coefficients.Follows

section
variable {c : Coefficients} {e : Extent} {plane : Array UInt16} {v : UInt16} {a : ℝ}

theorem row_eq_replicate (hplane : ∀ i < e.pixels, plane[i]? = some v)
    (hsize : e.pixels ≤ plane.size) {y : ℕ} (hy : y < e.height) :
    row plane e.width y = List.replicate e.width v := by
  have hpixels : e.pixels = e.height * e.width := Nat.mul_comm _ _
  have hstop := Nat.mul_le_mul_right e.width (show y + 1 ≤ e.height from hy)
  have hlength : (row plane e.width y).length = e.width := length_row (by omega)
  refine List.eq_replicate_iff.2 ⟨hlength, ?_⟩
  intro u hu
  obtain ⟨k, hk⟩ := List.mem_iff_getElem?.1 hu
  have hlt : k < e.width := hlength ▸ (List.getElem?_eq_some_iff.1 hk).1
  rw [getElem?_row hlt, hplane _ (by rw [Nat.add_mul] at hstop; omega)] at hk
  exact (Option.some.inj hk).symm

/-- A constant plane is blurred into one that stays near it: each pass moves it by 128 at most. -/
theorem Blurred.near_constant {before after : Array UInt16 × Scratch}
    (h : Blurred c e plane before after) (hc : c.Follows a) (hsize : e.pixels ≤ plane.size)
    (hplane : ∀ i < e.pixels, plane[i]? = some v) :
    ∀ i < e.pixels, ∃ w, after.1[i]? = some w ∧ |(w.toNat : ℤ) - v.toNat| ≤ 256 := by
  have hpixels : e.pixels = e.height * e.width := Nat.mul_comm _ _
  have hseparable := h.separable hsize
  intro i hi
  obtain ⟨y, hy, x, hx, rfl⟩ := exists_place (hpixels ▸ hi)
  obtain ⟨w, hw, hout⟩ := hseparable.out_eq x hx y hy
  -- the rows are filtered alike, so the columns between the passes are constant
  have hrow : ∀ r < e.height, filteredRow c plane e.width r =
      c.filtered (List.replicate e.width v) := fun r hr => by
    rw [filteredRow, row_eq_replicate hplane hsize hr]
  have hlength : x < (c.filtered (List.replicate e.width v)).length := by
    rwa [c.length_filtered, List.length_replicate]
  obtain ⟨u, hu⟩ : ∃ u, (c.filtered (List.replicate e.width v))[x]? = some u :=
    ⟨_, List.getElem?_eq_getElem hlength⟩
  have hcolumn : ∀ t ∈ filteredColumn c plane e.width e.height x, t = u := by
    intro t ht
    obtain ⟨r, hr, rfl⟩ := List.mem_map.1 ht
    rw [hrow r (List.mem_range.1 hr), List.getD_eq_getElem?_getD, hu, Option.getD_some]
  have hfirst := hc.filtered_near (fun t ht => List.eq_of_mem_replicate ht) u
    (List.mem_of_getElem? hu)
  have hsecond := hc.filtered_near hcolumn w (List.mem_of_getElem? hw)
  have htri := abs_sub_le (w.toNat : ℤ) u.toNat v.toNat
  exact ⟨w, hout, by linarith⟩

end

end FixedRaster.Gaussian
