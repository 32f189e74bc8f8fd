import Mathlib
import FixedRaster.Kernel
import FixedRaster.Proofs.Words
import FixedRaster.Resize.Weigh

/-!
# Weighted sums in unbounded integers

`Taps.dot` is the sum that a row of taps stands for and `Taps.mass` the sum of the magnitudes of its
weights. The mass times a bound on the inputs bounds every prefix of the sum, so a word sum whose
mass was checked never wraps.
-/

open scoped BigOperators
namespace FixedRaster

def massOf (weights : List Int16) : ℕ := (weights.map fun w => w.toInt.natAbs).sum

theorem massOf_append (ws vs : List Int16) : massOf (ws ++ vs) = massOf ws + massOf vs := by
  simp [massOf]

theorem massOf_take_le (n : ℕ) (ws : List Int16) : massOf (ws.take n) ≤ massOf ws := by
  have h := massOf_append (ws.take n) (ws.drop n)
  rw [List.take_append_drop] at h
  omega

theorem massOf_le_length_mul (ws : List Int16) : massOf ws ≤ ws.length * 32768 := by
  have h : massOf ws ≤ (ws.map fun w => w.toInt.natAbs).length • 32768 := by
    apply List.sum_le_card_nsmul
    intro n hn
    obtain ⟨w, -, rfl⟩ := List.mem_map.1 hn
    have hlo := w.le_toInt
    have hhi := w.toInt_lt
    omega
  simpa using h

theorem toInt_weightOf {ws : List Int16} (h : ws.length ≤ 32767) :
    (weightOf ws).toInt = massOf ws := by
  have hmass := massOf_le_length_mul ws
  have hsum : (ws.map fun w => ((w.toInt.natAbs : ℕ) : ℤ)).sum = massOf ws := by
    simp [massOf, Function.comp_def]
  have hfold := toInt_foldl_add (g := fun w : Int16 => w.toInt32.abs)
    (v := fun w => ((w.toInt.natAbs : ℕ) : ℤ)) ws 0 (fun w _ => toInt_abs_toInt32 w)
    (by simp only [Nat.abs_cast, hsum, Int32.toInt_zero, abs_zero]; omega)
  rw [hsum, Int32.toInt_zero, zero_add] at hfold
  exact hfold

namespace Taps

def mass (t : Taps) : ℕ := massOf t.weights

def dot (t : Taps) (f : ℕ → ℤ) : ℤ :=
  ∑ k : Fin t.weights.length, (t.weights.get k).toInt * f (t.start + k)

def first (t : Taps) (n : ℕ) : Taps := ⟨t.start, t.weights.take n⟩

theorem mass_first_le (t : Taps) (n : ℕ) : (t.first n).mass ≤ t.mass :=
  massOf_take_le n t.weights

theorem sum_zipIdx (ws : List Int16) (start : ℕ) (f : ℕ → ℤ) :
    ((ws.zipIdx start).map fun tap => tap.1.toInt * f tap.2).sum = dot ⟨start, ws⟩ f := by
  induction ws generalizing start with
  | nil => rfl
  | cons w ws ih =>
    rw [List.zipIdx_cons, List.map_cons, List.sum_cons, ih]
    simp only [dot, List.length_cons, Fin.sum_univ_succ]
    simp [Nat.add_comm, Nat.add_left_comm]

theorem dot_congr {t : Taps} {f g : ℕ → ℤ} (h : ∀ i, t.start ≤ i → i < t.stop → f i = g i) :
    t.dot f = t.dot g := by
  apply Finset.sum_congr rfl
  intro k _
  have hk := k.isLt
  rw [h (t.start + k) (by omega) (by unfold stop; omega)]

theorem sum_abs_zipIdx_le (ws : List Int16) (start : ℕ) {f : ℕ → ℤ} {B : ℕ}
    (hf : ∀ i, |f i| ≤ B) :
    ((ws.zipIdx start).map fun tap => |tap.1.toInt * f tap.2|).sum ≤ massOf ws * B := by
  induction ws generalizing start with
  | nil => simp [massOf]
  | cons w ws ih =>
    have hw : |w.toInt * f start| ≤ w.toInt.natAbs * B := by
      rw [abs_mul, Int.natCast_natAbs]
      exact mul_le_mul_of_nonneg_left (hf start) (abs_nonneg _)
    have hm : (massOf (w :: ws) : ℤ) = w.toInt.natAbs + massOf ws := by simp [massOf]
    rw [List.zipIdx_cons, List.map_cons, List.sum_cons, hm, add_mul]
    exact add_le_add hw (ih (start + 1))

theorem abs_dot_le (t : Taps) {f : ℕ → ℤ} {B : ℕ} (hf : ∀ i, |f i| ≤ B) :
    |t.dot f| ≤ t.mass * B := by
  have hsum := Multiset.abs_sum_le_sum_abs
    (s := (((t.weights.zipIdx t.start).map fun tap => tap.1.toInt * f tap.2 : List ℤ) : Multiset ℤ))
  rw [Multiset.sum_coe, sum_zipIdx, Multiset.map_coe, List.map_map, Multiset.sum_coe] at hsum
  exact hsum.trans (sum_abs_zipIdx_le t.weights t.start hf)

end Taps
namespace Resize
open Taps

/-- A word sum whose terms are exact and whose mass leaves room for them is the unbounded sum. -/
theorem toInt_weigh {term : Int32 → ℕ → Int32} {f : ℕ → ℤ} {B : ℕ} (t : Taps)
    (hterm : ∀ (w : Int16) (i : ℕ), (term w.toInt32 i).toInt = w.toInt * f i)
    (hf : ∀ i, |f i| ≤ B) (hmass : t.mass * B < 2 ^ 31) :
    (weigh term t).toInt = t.dot f := by
  have hfit := sum_abs_zipIdx_le t.weights t.start hf
  have hfold := toInt_foldl_add (g := fun tap : Int16 × ℕ => term tap.1.toInt32 tap.2)
    (v := fun tap => tap.1.toInt * f tap.2) (t.weights.zipIdx t.start) 0
    (fun tap _ => hterm tap.1 tap.2)
    (by
      have hcast : ((t.mass * B : ℕ) : ℤ) < 2 ^ 31 := by exact_mod_cast hmass
      push_cast at hcast
      simp only [Int32.toInt_zero, abs_zero, zero_add]
      exact lt_of_le_of_lt hfit hcast)
  rw [sum_zipIdx, Int32.toInt_zero, zero_add] at hfold
  exact hfold

end Resize
end FixedRaster
