import Mathlib
import FixedRaster.Splice

/-!
# Places on a grid

A buffer that is seen as a grid holds row `x` from index `x * lines` on. Distinct cells have
distinct indices, every index before the end of the last row is one of a cell, and a run of writes
at equal distances touches the cells of its run only.
-/

namespace FixedRaster
variable {α : Type}

theorem place_lt {rows lines x y : ℕ} (hx : x < rows) (hy : y < lines) :
    x * lines + y < rows * lines := by
  have h := Nat.mul_le_mul_right lines (show x + 1 ≤ rows from hx)
  rw [Nat.add_mul] at h
  omega

theorem line_stop_le {rows lines x : ℕ} (hx : x < rows) : x * lines + lines ≤ rows * lines := by
  have h := Nat.mul_le_mul_right lines (show x + 1 ≤ rows from hx)
  rwa [Nat.add_mul, Nat.one_mul] at h

theorem place_inj {lines x y x' y' : ℕ} (hy : y < lines) (hy' : y' < lines)
    (h : x * lines + y = x' * lines + y') : x = x' ∧ y = y' := by
  have hx : (x * lines + y) / lines = (x' * lines + y') / lines := by rw [h]
  rw [Nat.mul_comm x, Nat.mul_comm x', Nat.mul_add_div (by omega), Nat.mul_add_div (by omega),
    Nat.div_eq_of_lt hy, Nat.div_eq_of_lt hy'] at hx
  have hxx : x = x' := by omega
  subst hxx
  exact ⟨rfl, by omega⟩

theorem exists_place {rows lines i : ℕ} (h : i < rows * lines) :
    ∃ x < rows, ∃ y < lines, i = x * lines + y := by
  have hlines : 0 < lines := by
    rcases Nat.eq_zero_or_pos lines with hz | hp
    · rw [hz] at h
      omega
    · exact hp
  have hdiv := Nat.div_add_mod i lines
  rw [Nat.mul_comm] at hdiv
  exact ⟨i / lines, Nat.div_lt_of_lt_mul (by rwa [Nat.mul_comm lines]), i % lines,
    Nat.mod_lt _ hlines, hdiv.symm⟩

theorem put?_of_lt {xs : Array α} {i : ℕ} (h : i < xs.size) (v : α) :
    put? xs i v = some (xs.set i v h) :=
  put?_eq_some_iff.2 ⟨h, rfl⟩

theorem exists_putRun? {step start : ℕ} {run : List α} {xs : Array α}
    (h : ∀ i < run.length, start + i * step < xs.size) :
    ∃ ys, putRun? step start run xs = some ys := by
  induction run generalizing start xs with
  | nil => exact ⟨xs, rfl⟩
  | cons v run ih =>
    have hstart : start < xs.size := by simpa using h 0 (by simp)
    have hrest : ∀ i < run.length, start + step + i * step < (xs.set start v hstart).size := by
      intro i hi
      have hnext := h (i + 1) (by simpa using hi)
      rw [Nat.add_mul] at hnext
      rw [Array.size_set]
      omega
    obtain ⟨ys, hys⟩ := ih hrest
    exact ⟨ys, putRun?_cons.2 ⟨_, put?_of_lt hstart v, hys⟩⟩

theorem getElem?_putRun?_other {step start : ℕ} {run : List α} {xs ys : Array α}
    (h : putRun? step start run xs = some ys) {j : ℕ}
    (hj : ∀ i < run.length, j ≠ start + i * step) : ys[j]? = xs[j]? := by
  induction run generalizing start xs with
  | nil =>
    cases h
    rfl
  | cons v run ih =>
    obtain ⟨zs, hput, hrun⟩ := putRun?_cons.1 h
    have hne : start ≠ j := by
      intro heq
      exact hj 0 (by simp) (by simpa using heq.symm)
    rw [ih hrun, getElem?_put? hput, if_neg hne]
    intro i hi heq
    apply hj (i + 1) (by simpa using hi)
    rw [heq, Nat.add_mul]
    omega

theorem eq_of_front {xs ys : Array α} {n : ℕ} (hx : xs.size = n) (hy : ys.size = n)
    (h : ∀ i < n, xs[i]? = ys[i]?) : xs = ys := by
  apply Array.ext_getElem?
  intro i
  by_cases hi : i < n
  · exact h i hi
  · rw [Array.getElem?_eq_none (by omega), Array.getElem?_eq_none (by omega)]

theorem overlay_of_size {run xs : Array α} (h : run.size = xs.size) : overlay run xs = run := by
  apply eq_of_front ((size_overlay h.le).trans h.symm) rfl
  intro i hi
  rw [getElem?_overlay h.le, if_pos hi]

theorem size_front {xs : Array α} {n : ℕ} (h : n ≤ xs.size) : (xs.extract 0 n).size = n := by
  rw [Array.size_extract]
  omega

theorem overlay_extract (xs : Array α) (n : ℕ) : overlay (xs.extract 0 n) xs = xs := by
  have hsize : (xs.extract 0 n).size ≤ xs.size := by
    rw [Array.size_extract]
    omega
  apply Array.ext_getElem?
  intro i
  rw [getElem?_overlay hsize]
  split_ifs with hi
  · rw [Array.getElem?_extract, if_pos (by rw [Array.size_extract] at hi; omega), Nat.zero_add]
  · rfl

theorem extract_overlay {run xs : Array α} {n : ℕ} (hrun : run.size = n) (h : n ≤ xs.size) :
    (overlay run xs).extract 0 n = run := by
  subst hrun
  apply eq_of_front (size_front (by rwa [size_overlay h])) rfl
  intro i hi
  rw [Array.getElem?_extract, size_overlay h, if_pos (by omega), Nat.zero_add, getElem?_overlay h,
    if_pos hi]

end FixedRaster
