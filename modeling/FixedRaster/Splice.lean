/-!
# Writing into part of a buffer

`splice` lays a run of elements over a buffer. `put?` writes one element, `putRun?` a run of them at
equal distances and `putQuad?` the four samples of one pixel; these fail outside the buffer. Each
comes with its value at an arbitrary index: what was written there, or what was there before.
-/

namespace FixedRaster

variable {α : Type}

def splice (xs : Array α) (start : Nat) (run : Array α) : Array α :=
  xs.extract 0 start ++ run ++ xs.extract (start + run.size)

def overlay (run xs : Array α) : Array α := splice xs 0 run

def resized (xs : Array α) (length : Nat) (fill : α) : Array α :=
  xs.extract 0 length ++ Array.replicate (length - xs.size) fill

def grown (xs : Array α) (length : Nat) (fill : α) : Array α :=
  if xs.size < length then resized xs length fill else xs

def put? (xs : Array α) (i : Nat) (v : α) : Option (Array α) :=
  if h : i < xs.size then some (xs.set i v h) else none

/-- Writes a run of elements, the first at `start` and each further one `step` after the last. -/
def putRun? (step : Nat) : (start : Nat) → List α → Array α → Option (Array α)
  | _, [], xs => some xs
  | start, v :: run, xs => do putRun? step (start + step) run (← put? xs start v)

def putQuad? (xs : Array α) (p : Nat) (v : Fin 4 → α) : Option (Array α) := do
  let xs ← put? xs (p * 4) (v 0)
  let xs ← put? xs (p * 4 + 1) (v 1)
  let xs ← put? xs (p * 4 + 2) (v 2)
  put? xs (p * 4 + 3) (v 3)

theorem size_splice {xs run : Array α} {start : Nat} (h : start + run.size ≤ xs.size) :
    (splice xs start run).size = xs.size := by
  simp only [splice, Array.size_append, Array.size_extract]
  omega

theorem getElem?_splice {xs run : Array α} {start : Nat} (h : start + run.size ≤ xs.size)
    (i : Nat) :
    (splice xs start run)[i]? =
      if start ≤ i ∧ i < start + run.size then run[i - start]? else xs[i]? := by
  simp only [splice, Array.getElem?_append, Array.getElem?_extract, Array.size_append,
    Array.size_extract]
  by_cases h1 : i < start
  · rw [if_pos (by omega), if_pos (by omega), if_pos (by omega), if_neg (by omega)]
    simp
  · by_cases h2 : i < start + run.size
    · rw [if_pos (by omega), if_neg (by omega), if_pos (by omega)]
      congr 1
      omega
    · by_cases h3 : i < xs.size
      · rw [if_neg (by omega), if_pos (by omega), if_neg (by omega)]
        congr 1
        omega
      · rw [if_neg (by omega), if_neg (by omega), if_neg (by omega),
          Array.getElem?_eq_none (by omega)]

theorem size_overlay {run xs : Array α} (h : run.size ≤ xs.size) :
    (overlay run xs).size = xs.size :=
  size_splice (by omega)

theorem getElem?_overlay {run xs : Array α} (h : run.size ≤ xs.size) (i : Nat) :
    (overlay run xs)[i]? = if i < run.size then run[i]? else xs[i]? := by
  simp only [overlay, getElem?_splice (show 0 + run.size ≤ xs.size by omega)]
  simp

theorem size_resized (xs : Array α) (length : Nat) (fill : α) :
    (resized xs length fill).size = length := by
  simp only [resized, Array.size_append, Array.size_extract, Array.size_replicate]
  omega

theorem le_size_grown (xs : Array α) (length : Nat) (fill : α) :
    length ≤ (grown xs length fill).size := by
  unfold grown
  split
  · exact Nat.le_of_eq (size_resized xs length fill).symm
  · omega

theorem put?_eq_some_iff {xs ys : Array α} {i : Nat} {v : α} :
    put? xs i v = some ys ↔ ∃ h : i < xs.size, xs.set i v h = ys := by
  unfold put?
  split
  · rename_i h
    simp [h]
  · rename_i h
    simp only [reduceCtorEq, false_iff, not_exists]
    intro hi
    exact absurd hi h

theorem size_put? {xs ys : Array α} {i : Nat} {v : α} (h : put? xs i v = some ys) :
    ys.size = xs.size := by
  obtain ⟨hi, rfl⟩ := put?_eq_some_iff.1 h
  simp

theorem getElem?_put? {xs ys : Array α} {i : Nat} {v : α} (h : put? xs i v = some ys) (j : Nat) :
    ys[j]? = if i = j then some v else xs[j]? := by
  obtain ⟨hi, rfl⟩ := put?_eq_some_iff.1 h
  simp [Array.getElem?_set]

theorem putRun?_cons {step start : Nat} {v : α} {run : List α} {xs ys : Array α} :
    putRun? step start (v :: run) xs = some ys ↔
      ∃ zs, put? xs start v = some zs ∧ putRun? step (start + step) run zs = some ys := by
  simp only [putRun?, bind, Option.bind_eq_some_iff]

theorem size_putRun? {step start : Nat} {run : List α} {xs ys : Array α}
    (h : putRun? step start run xs = some ys) : ys.size = xs.size := by
  induction run generalizing start xs with
  | nil =>
    cases h
    rfl
  | cons v run ih =>
    obtain ⟨zs, hz, h⟩ := putRun?_cons.1 h
    rw [ih h, size_put? hz]

theorem getElem?_putRun?_before {step start : Nat} {run : List α} {xs ys : Array α}
    (hs : 0 < step) (h : putRun? step start run xs = some ys) {i : Nat} (hi : i < start) :
    ys[i]? = xs[i]? := by
  induction run generalizing start xs with
  | nil =>
    cases h
    rfl
  | cons v run ih =>
    obtain ⟨zs, hz, h⟩ := putRun?_cons.1 h
    rw [ih h (by omega), getElem?_put? hz, if_neg (by omega)]

theorem getElem?_putRun? {step start : Nat} {run : List α} {xs ys : Array α} (hs : 0 < step)
    (h : putRun? step start run xs = some ys) {i : Nat} (hi : i < run.length) :
    ys[start + i * step]? = run[i]? := by
  induction run generalizing start xs i with
  | nil => simp at hi
  | cons v run ih =>
    obtain ⟨zs, hz, h⟩ := putRun?_cons.1 h
    cases i with
    | zero =>
      have hkeep : ys[start]? = zs[start]? := getElem?_putRun?_before hs h (by omega)
      simpa [hkeep] using getElem?_put? hz start
    | succ i =>
      have := ih h (i := i) (by simpa using hi)
      rw [List.getElem?_cons_succ, ← this, Nat.succ_mul]
      congr 1
      omega

end FixedRaster
