import Mathlib
import FixedRaster.Proofs.Gaussian.Passes

/-!
# The recurrences of the line filter

The causal response `y` of a line and its anticausal response `z` are the sequences that start from
a constant past and answer two samples and two earlier outputs at every place. The line goes on
beyond its ends with its end samples. The filter leaves `y`, rounded to single precision, in the
line buffer and the sum of both in its column. Every step is the same floating-point operation in
the same order, so these are equations and not bounds.
-/

namespace FixedRaster.Gaussian
open Binary (widen narrow)

/-- Sample `n` of a line that goes on with its end samples on both sides. -/
def extended (line : List UInt16) (n : ℤ) : Float :=
  (line.getD (min n (line.length - 1)).toNat 0).toFloat

namespace Coefficients

structure IsCausal (c : Coefficients) (line : List UInt16) (y : ℤ → Float) : Prop where
  past : y (-1) = extended line 0 * widen c.leftCorner ∧
    y (-2) = extended line 0 * widen c.leftCorner
  next : ∀ n : ℕ, n < line.length →
    y n = extended line n * widen c.a0 + extended line (n - 1) * widen c.a1 +
      y (n - 1) * widen c.b1 + y (n - 2) * widen c.b2

structure IsAnticausal (c : Coefficients) (line : List UInt16) (z : ℤ → Float) : Prop where
  past : z line.length = extended line (line.length - 1) * widen c.rightCorner ∧
    z (line.length + 1) = extended line (line.length - 1) * widen c.rightCorner
  next : ∀ n : ℕ, n < line.length →
    z n = extended line (n + 1) * widen c.a2 + extended line (n + 2) * widen c.a3 +
      z (n + 1) * widen c.b1 + z (n + 2) * widen c.b2

end Coefficients

section
variable {line : List UInt16} {n : ℤ} {i : ℕ}

theorem getElem?_toFloat (hi : i < line.length) :
    (line.map UInt16.toFloat)[i]? = some (extended line i) := by
  have hplace : (min (i : ℤ) (line.length - 1)).toNat = i := by omega
  rw [extended, hplace, List.getElem?_map, List.getElem?_eq_getElem hi,
    List.getD_eq_getElem _ _ hi, Option.map_some]

theorem getElem?_reverse_toFloat (hi : i < line.length) :
    (line.reverse.map UInt16.toFloat)[i]? = some (extended line (line.length - 1 - i)) := by
  have hplace : (line.length : ℤ) - 1 - i = ((line.length - 1 - i : ℕ) : ℤ) := by omega
  rw [List.map_reverse, List.getElem?_reverse (by rwa [List.length_map]), List.length_map,
    getElem?_toFloat (by omega), hplace]

theorem extended_before (hne : line ≠ []) (hn : n ≤ 0) : extended line n = extended line 0 := by
  have hpos := List.length_pos_iff.2 hne
  have hplace : (min n (line.length - 1)).toNat = (min 0 ((line.length : ℤ) - 1)).toNat := by
    omega
  rw [extended, hplace, extended]

theorem extended_behind (hn : (line.length : ℤ) - 1 ≤ n) :
    extended line n = extended line (line.length - 1) := by
  rw [extended, min_eq_right hn, extended, min_self]

end

def Half.run (f : Half) : Lag → List Float → List Float
  | _, [] => []
  | s, x :: xs => f.next s x :: f.run (s.push x (f.next s x)) xs

theorem Half.causal_eq_run (f : Half) (s : Lag) (line : List UInt16) :
    f.causal s line = (f.run s (line.map UInt16.toFloat)).map narrow := by
  induction line generalizing s with
  | nil => rfl
  | cons x xs ih => rw [causal, ih, List.map_cons, run, List.map_cons]

/-- The input runs one place ahead of the list, whose last sample is not needed. -/
theorem Half.anticausal_eq_run (f : Half) (s : Lag) (x : Float) (line : List UInt16) :
    f.anticausal s x line = f.run s ((x :: line.map UInt16.toFloat).take line.length) := by
  induction line generalizing s x with
  | nil => rfl
  | cons next xs ih =>
    rw [anticausal, ih, List.length_cons, List.take_succ_cons, run, List.map_cons]

def Half.Answers (f : Half) (u y : ℤ → Float) (k : ℤ) : Prop :=
  y k = u k * f.p + u (k - 1) * f.q + y (k - 1) * f.b1 + y (k - 2) * f.b2

def Lag.reaching (u y : ℤ → Float) (k : ℤ) : Lag := ⟨u (k - 1), y (k - 1), y (k - 2)⟩

section
variable {f : Half} {u y : ℤ → Float} {k : ℤ} {xs : List Float}

theorem Lag.reaching_push : (Lag.reaching u y k).push (u k) (y k) = .reaching u y (k + 1) := by
  have hone : k + 1 - 1 = k := by ring
  have htwo : k + 1 - 2 = k - 1 := by ring
  rw [Lag.reaching, Lag.reaching, Lag.push, hone, htwo]

theorem Half.getElem?_run (hanswers : ∀ i : ℕ, i < xs.length → f.Answers u y (k + i))
    (hinput : ∀ i : ℕ, i < xs.length → xs[i]? = some (u (k + i))) {i : ℕ} (hi : i < xs.length) :
    (f.run (.reaching u y k) xs)[i]? = some (y (k + i)) := by
  -- by induction on the inputs: each step leaves the filter where the next place finds it
  induction xs generalizing k i with
  | nil => exact absurd hi (Nat.not_lt_zero i)
  | cons x xs ih =>
    have hshift : ∀ i : ℕ, k + ((i + 1 : ℕ) : ℤ) = k + 1 + i := fun i => by push_cast; ring
    have hzero : k + ((0 : ℕ) : ℤ) = k := by simp
    have hx : x = u k := hzero ▸ Option.some.inj (hinput 0 (Nat.succ_pos _))
    have hy : f.next (.reaching u y k) (u k) = y k := (hzero ▸ hanswers 0 (Nat.succ_pos _)).symm
    rw [run, hx, hy, Lag.reaching_push]
    cases i with
    | zero => rw [List.getElem?_cons_zero, hzero]
    | succ i =>
      rw [List.getElem?_cons_succ, hshift]
      apply ih _ _ (Nat.lt_of_succ_lt_succ hi)
      · exact fun j hj => hshift j ▸ hanswers (j + 1) (Nat.succ_lt_succ hj)
      · exact fun j hj => hshift j ▸ hinput (j + 1) (Nat.succ_lt_succ hj)

def Half.outputs (f : Half) (u : ℤ → Float) (seed : Float) : ℕ → Float
  | 0 => seed
  | 1 => seed
  | n + 2 => u n * f.p + u (n - 1) * f.q + f.outputs u seed (n + 1) * f.b1 +
      f.outputs u seed n * f.b2

theorem Half.exists_answers (f : Half) (u : ℤ → Float) (seed : Float) :
    ∃ y : ℤ → Float, y (-1) = seed ∧ y (-2) = seed ∧ ∀ n : ℕ, f.Answers u y n := by
  refine ⟨fun k => f.outputs u seed (k + 2).toNat, rfl, rfl, ?_⟩
  intro n
  have htwo : ((n : ℤ) + 2).toNat = n + 2 := by omega
  have hone : ((n : ℤ) - 1 + 2).toNat = n + 1 := by omega
  have hzero : ((n : ℤ) - 2 + 2).toNat = n := by omega
  simp only [Answers, htwo, hone, hzero]
  rfl

end

namespace Coefficients
variable {c : Coefficients} {line : List UInt16} {y z : ℤ → Float}

theorem exists_isCausal (c : Coefficients) (line : List UInt16) : ∃ y, c.IsCausal line y := by
  obtain ⟨y, hone, htwo, hanswers⟩ :=
    c.forward.exists_answers (extended line) (extended line 0 * widen c.leftCorner)
  exact ⟨y, ⟨hone, htwo⟩, fun n _ => hanswers n⟩

theorem isAnticausal_iff :
    c.IsAnticausal line z ↔
      (z line.length = extended line (line.length - 1) * widen c.rightCorner ∧
        z (line.length + 1) = extended line (line.length - 1) * widen c.rightCorner) ∧
      ∀ m : ℕ, m < line.length → c.backward.Answers (fun k => extended line (line.length - k))
        (fun k => z (line.length - 1 - k)) m := by
  have hplaces : ∀ {n m : ℕ}, n + m + 1 = line.length →
      (c.backward.Answers (fun k => extended line (line.length - k))
          (fun k => z (line.length - 1 - k)) m ↔
        z n = extended line (n + 1) * widen c.a2 + extended line (n + 2) * widen c.a3 +
          z (n + 1) * widen c.b1 + z (n + 2) * widen c.b2) := by
    intro n m hlength
    have hself : (line.length : ℤ) - 1 - m = n := by omega
    have hone : (line.length : ℤ) - m = n + 1 := by omega
    have htwo : (line.length : ℤ) - (m - 1) = n + 2 := by omega
    have hnext : (line.length : ℤ) - 1 - (m - 1) = n + 1 := by omega
    have hlast : (line.length : ℤ) - 1 - (m - 2) = n + 2 := by omega
    rw [Half.Answers, hself, hone, htwo, hnext, hlast]
    rfl
  constructor
  · rintro ⟨hpast, hnext⟩
    refine ⟨hpast, fun m hm => (hplaces (n := line.length - 1 - m) (by omega)).2 ?_⟩
    exact hnext _ (by omega)
  · rintro ⟨hpast, hanswers⟩
    refine ⟨hpast, fun n hn => (hplaces (m := line.length - 1 - n) (by omega)).1 ?_⟩
    exact hanswers _ (by omega)

theorem exists_isAnticausal (c : Coefficients) (line : List UInt16) :
    ∃ z, c.IsAnticausal line z := by
  obtain ⟨y, hone, htwo, hanswers⟩ :=
    c.backward.exists_answers (fun k => extended line (line.length - k))
      (extended line (line.length - 1) * widen c.rightCorner)
  have hback : (fun k : ℤ => y (line.length - 1 - (line.length - 1 - k))) = y := by
    funext k
    rw [sub_sub_cancel]
  refine ⟨fun n => y (line.length - 1 - n), isAnticausal_iff.2 ⟨⟨?_, ?_⟩, fun m _ => ?_⟩⟩
  · rwa [show (line.length : ℤ) - 1 - line.length = -1 by omega]
  · rwa [show (line.length : ℤ) - 1 - (line.length + 1) = -2 by omega]
  · rw [hback]
    exact hanswers m

theorem IsCausal.getElem?_causal (h : c.IsCausal line y) {n : ℕ} (hn : n < line.length) :
    (c.causal line)[n]? = some (narrow (y n)) := by
  cases line with
  | nil => exact absurd hn (Nat.not_lt_zero n)
  | cons x xs =>
    have hpos : 0 < (x :: xs).length := Nat.succ_pos _
    have hfirst : x.toFloat = extended (x :: xs) 0 := Option.some.inj (getElem?_toFloat hpos)
    have hlag : Lag.constant x.toFloat (widen c.leftCorner) =
        .reaching (extended (x :: xs)) y 0 := by
      rw [Lag.reaching, zero_sub, zero_sub, h.past.1, h.past.2,
        extended_before (List.cons_ne_nil x xs) (show (-1 : ℤ) ≤ 0 by decide), ← hfirst,
        Lag.constant]
    rw [causal, hlag, Half.causal_eq_run, List.getElem?_map, Half.getElem?_run, Option.map_some,
      zero_add]
    · intro i hi
      rw [zero_add]
      exact h.next i (by rwa [List.length_map] at hi)
    · intro i hi
      rw [zero_add]
      exact getElem?_toFloat (by rwa [List.length_map] at hi)
    · rwa [List.length_map]

theorem IsAnticausal.getElem?_anticausal (h : c.IsAnticausal line z) {m : ℕ}
    (hm : m < line.length) : (c.anticausal line)[m]? = some (z (line.length - 1 - m)) := by
  obtain ⟨⟨hone, htwo⟩, hanswers⟩ := isAnticausal_iff.1 h
  have hlength : line.reverse.length = line.length := List.length_reverse
  rw [anticausal]
  split
  · rename_i hnil
    rw [hnil, List.length_nil] at hlength
    omega
  · rename_i x xs hcons
    have hlast : x.toFloat = extended line (line.length - 1) := by
      have hpos : 0 < line.length := by omega
      have hfirst := getElem?_reverse_toFloat hpos
      rw [hcons, List.map_cons, List.getElem?_cons_zero] at hfirst
      simpa using hfirst
    have hlag : Lag.constant x.toFloat (widen c.rightCorner) =
        .reaching (fun k => extended line (line.length - k))
          (fun k => z (line.length - 1 - k)) 0 := by
      have hseed : (line.length : ℤ) - 1 - (0 - 1) = line.length := by omega
      have hseed' : (line.length : ℤ) - 1 - (0 - 2) = line.length + 1 := by omega
      rw [Lag.reaching, hseed, hseed', hone, htwo, extended_behind (by omega), ← hlast,
        Lag.constant]
    rw [← hcons, hlag, Half.anticausal_eq_run, hlength, Half.getElem?_run, zero_add]
    · intro i hi
      rw [List.length_take] at hi
      rw [zero_add]
      exact hanswers i (by omega)
    · -- the sample at the right end comes first, and then the line from there
      intro i hi
      rw [List.length_take] at hi
      rw [List.getElem?_take_of_lt (by omega)]
      cases i with
      | zero => rw [List.getElem?_cons_zero, extended_behind (by simp), hlast]
      | succ i =>
        have hplace : (line.length : ℤ) - (0 + ((i + 1 : ℕ) : ℤ)) = line.length - 1 - i := by
          omega
        rw [List.getElem?_cons_succ, getElem?_reverse_toFloat (by omega), hplace]
    · rw [List.length_take, List.length_cons, List.length_map, hlength]
      omega

theorem getElem?_response (hy : c.IsCausal line y) (hz : c.IsAnticausal line z) {n : ℕ}
    (hn : n < line.length) :
    (c.response line).1[n]? = some (narrow (y n)) ∧
      (c.response line).2[n]? = some (widen (narrow (y n)) + z n).toUInt16 := by
  have hcausal := hy.getElem?_causal hn
  have hlength := c.length_anticausal line
  have hanticausal : (c.anticausal line).reverse[n]? = some (z n) := by
    have hplace : (line.length : ℤ) - 1 - ((line.length - 1 - n : ℕ) : ℤ) = n := by omega
    rw [List.getElem?_reverse (by omega), hlength, hz.getElem?_anticausal (by omega), hplace]
  refine ⟨hcausal, ?_⟩
  rw [response, List.getElem?_zipWith, hcausal, hanticausal]
  rfl

end Coefficients

/-- Both recurrences have solutions, and for all solutions the filter leaves the causal one in the
line buffer and the sum of both in its column of the output, and writes nothing else. -/
theorem line_answers_recurrences (c : Coefficients) {line : List UInt16} {stride column : ℕ}
    (hcolumn : column < stride) {buffers : Array Float32 × Array UInt16}
    (hbuffer : line.length ≤ buffers.1.size) (hout : line.length * stride ≤ buffers.2.size) :
    (∃ y z, c.IsCausal line y ∧ c.IsAnticausal line z) ∧
    ∀ y z, c.IsCausal line y → c.IsAnticausal line z →
      ∃ after, filterLine? c line stride column buffers = some after ∧
        after.1.size = buffers.1.size ∧ after.2.size = buffers.2.size ∧
        (∀ n < line.length, after.1[n]? = some (narrow (y n)) ∧
          after.2[n * stride + column]? = some (widen (narrow (y n)) + z n).toUInt16) ∧
        (∀ i, line.length ≤ i → after.1[i]? = buffers.1[i]?) ∧
        ∀ i, (∀ n < line.length, i ≠ n * stride + column) → after.2[i]? = buffers.2[i]? := by
  obtain ⟨y, hy⟩ := c.exists_isCausal line
  obtain ⟨z, hz⟩ := c.exists_isAnticausal line
  refine ⟨⟨y, z, hy, hz⟩, ?_⟩
  intro y z hy hz
  obtain ⟨after, hfilter, hsize, hsize', hfiltered, hrest, hcausal, hbehind⟩ :=
    exists_filterLine? c line hcolumn hbuffer hout
  refine ⟨after, hfilter, hsize, hsize', ?_, hbehind, hrest⟩
  intro n hn
  obtain ⟨hfst, hsnd⟩ := c.getElem?_response hy hz hn
  exact ⟨(hcausal n hn).trans hfst, (hfiltered n hn).trans hsnd⟩

theorem line_answers_recurrences_pair :
    let c := Coefficients.ofRadius 2.0
    let line : List UInt16 := [1000, 65535]
    let buffers : Array Float32 × Array UInt16 := (#[9.0, 9.0, 9.0], #[7, 7, 7, 7, 7, 7, 5])
    1 < 3 ∧ line.length ≤ buffers.1.size ∧ line.length * 3 ≤ buffers.2.size ∧
    ∃ y z after, c.IsCausal line y ∧ c.IsAnticausal line z ∧
      filterLine? c line 3 1 buffers = some after ∧
      after.2 = #[7, 26439, 7, 7, 40095, 7, 5] ∧ after.1[2]? = some (9.0 : Float32) ∧
      (widen (narrow (y 0)) + z 0).toUInt16 = 26439 ∧
      (widen (narrow (y 1)) + z 1).toUInt16 = 40095 := by
  intro c line buffers
  have hout : (filterLine? c line 3 1 buffers).map Prod.snd =
      some #[7, 26439, 7, 7, 40095, 7, 5] := by
    decide +kernel
  have hcolumn : 1 < 3 := by decide
  have hbuffer : line.length ≤ buffers.1.size := by decide
  have hroom : line.length * 3 ≤ buffers.2.size := by decide
  obtain ⟨⟨y, z, hy, hz⟩, hfilter⟩ := line_answers_recurrences c hcolumn hbuffer hroom
  obtain ⟨after, hrun, -, -, hwritten, hbehind, -⟩ := hfilter y z hy hz
  rw [hrun] at hout
  have hafter : after.2 = #[7, 26439, 7, 7, 40095, 7, 5] := Option.some.inj hout
  have hfirst := (hwritten 0 (by decide)).2
  have hsecond := (hwritten 1 (by decide)).2
  rw [hafter] at hfirst hsecond
  exact ⟨hcolumn, hbuffer, hroom, y, z, after, hy, hz, hrun, hafter, hbehind 2 (by decide),
    (Option.some.inj hfirst).symm, (Option.some.inj hsecond).symm⟩

end FixedRaster.Gaussian
