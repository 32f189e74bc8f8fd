import Mathlib
import FixedRaster.Proofs.Resize.Sums

/-!
# The grammar of packed kernels

A kernel is accepted exactly where its data begin with the packed form of as many rows as it is
asked for, each inside the source line and light enough; these rows are what it is read back as.
-/

namespace FixedRaster
namespace Taps

structure Fits (source : ℕ) (t : Taps) : Prop where
  start_le : t.start ≤ 32767
  length_le : t.weights.length ≤ 32767
  stop_le : t.stop ≤ source
  mass_le : t.mass ≤ 32767

def packed (t : Taps) : List Int16 := pack (Int16.ofNat t.start) t.weights

theorem packed_eq (t : Taps) :
    t.packed = Int16.ofNat t.start :: Int16.ofNat t.weights.length :: t.weights := rfl

theorem length_packed (t : Taps) : t.packed.length = t.weights.length + 2 := rfl

end Taps
open Taps

theorem toNatClampNeg_ofNat {n : ℕ} (h : n ≤ 32767) : (Int16.ofNat n).toNatClampNeg = n :=
  Int16.toNatClampNeg_ofNat_of_lt (by omega)

theorem ofNat_nonneg {n : ℕ} (h : n ≤ 32767) : ¬ Int16.ofNat n < 0 := by
  rw [Int16.lt_iff_toInt_lt, Int16.toInt_ofNat_of_lt (by omega), Int16.toInt_zero]
  omega

theorem heaviestRow_lt_iff {ws : List Int16} (h : ws.length ≤ 32767) :
    heaviestRow < weightOf ws ↔ 32767 < massOf ws := by
  have htop : heaviestRow.toInt = 32767 := rfl
  rw [Int32.lt_iff_toInt_lt, toInt_weightOf h, htop]
  omega

theorem checkRow_packed {source : ℕ} {t : Taps} (ht : t.Fits source) (rest : List Int16) :
    checkRow source (t.packed ++ rest) = .ok t.packed.length := by
  have hstop := ht.stop_le
  have hmass := ht.mass_le
  rw [stop] at hstop
  rw [mass] at hmass
  simp only [packed_eq, List.cons_append, checkRow, toNatClampNeg_ofNat ht.start_le,
    toNatClampNeg_ofNat ht.length_le, List.take_left, if_neg (ofNat_nonneg ht.start_le),
    if_neg (ofNat_nonneg ht.length_le), heaviestRow_lt_iff ht.length_le, List.length_cons]
  rw [if_neg (by omega), if_neg (by omega), if_neg (by omega)]

theorem exists_packed_of_checkRow {source n : ℕ} {data : List Int16}
    (h : checkRow source data = .ok n) :
    ∃ (t : Taps) (rest : List Int16), t.Fits source ∧ data = t.packed ++ rest ∧
      n = t.packed.length := by
  match data with
  | [] => cases h
  | [_] => cases h
  | start :: number :: rest =>
    simp only [checkRow] at h
    split_ifs at h with hstart hnumber hsource hlength hmass
    have hs : 0 ≤ start := by simpa [Int16.lt_iff_toInt_lt, Int16.le_iff_toInt_le] using hstart
    have hn : 0 ≤ number := by simpa [Int16.lt_iff_toInt_lt, Int16.le_iff_toInt_le] using hnumber
    have hslt := start.toNatClampNeg_lt
    have hnlt := number.toNatClampNeg_lt
    have hlen : (rest.take number.toNatClampNeg).length = number.toNatClampNeg := by
      have := List.length_take_le number.toNatClampNeg rest
      omega
    rw [heaviestRow_lt_iff (by omega)] at hmass
    refine ⟨⟨start.toNatClampNeg, rest.take number.toNatClampNeg⟩,
      rest.drop number.toNatClampNeg, ⟨?_, ?_, ?_, ?_⟩, ?_, ?_⟩
    · change start.toNatClampNeg ≤ 32767
      omega
    · change (rest.take number.toNatClampNeg).length ≤ 32767
      omega
    · change start.toNatClampNeg + (rest.take number.toNatClampNeg).length ≤ source
      omega
    · exact Nat.le_of_not_lt hmass
    · simp only [packed_eq, hlen, Int16.ofNat_toNatClampNeg _ hs, Int16.ofNat_toNatClampNeg _ hn,
        List.cons_append, List.take_append_drop]
    · cases h
      simp only [length_packed, hlen]

def packedRows (rows : List Taps) : List Int16 := rows.flatMap packed

theorem packedRows_cons (t : Taps) (rows : List Taps) :
    packedRows (t :: rows) = t.packed ++ packedRows rows := rfl

theorem checkRows_packedRows {source : ℕ} {rows : List Taps} (h : ∀ t ∈ rows, t.Fits source)
    (index : ℕ) (rest : List Int16) :
    checkRows source rows.length index (packedRows rows ++ rest) =
      .ok (packedRows rows).length := by
  induction rows generalizing index with
  | nil => rfl
  | cons t rows ih =>
    have hrow := checkRow_packed (h t (List.mem_cons_self ..)) (packedRows rows ++ rest)
    have hrows := ih (fun u hu => h u (List.mem_cons_of_mem t hu)) (index + 1)
    rw [packedRows_cons, List.append_assoc, List.length_cons, checkRows, hrow]
    simp only [List.drop_left, hrows, List.length_append]
    rfl

theorem exists_rows_of_checkRows {source count index n : ℕ} {data : List Int16}
    (h : checkRows source count index data = .ok n) :
    ∃ (rows : List Taps) (rest : List Int16), rows.length = count ∧ (∀ t ∈ rows, t.Fits source) ∧
      data = packedRows rows ++ rest ∧ n = (packedRows rows).length := by
  induction count generalizing index data n with
  | zero =>
    cases h
    exact ⟨[], data, rfl, by simp, rfl, rfl⟩
  | succ count ih =>
    rw [checkRows] at h
    cases hrow : checkRow source data with
    | error flaw =>
      rw [hrow] at h
      cases h
    | ok length =>
      obtain ⟨t, tail, ht, rfl, rfl⟩ := exists_packed_of_checkRow hrow
      simp only [hrow, List.drop_left] at h
      cases hrows : checkRows source count (index + 1) tail with
      | error fault =>
        rw [hrows] at h
        cases h
      | ok more =>
        rw [hrows] at h
        cases h
        obtain ⟨rows, rest, hlen, hfits, rfl, rfl⟩ := ih hrows
        refine ⟨t :: rows, rest, by rw [List.length_cons, hlen], ?_, ?_, ?_⟩
        · intro u hu
          rcases List.mem_cons.1 hu with rfl | hu
          · exact ht
          · exact hfits u hu
        · rw [packedRows_cons, List.append_assoc]
        · rw [packedRows_cons, List.length_append]

theorem unpack?_packedRows {source : ℕ} {rows : List Taps} (h : ∀ t ∈ rows, t.Fits source)
    (rest : List Int16) : unpack? rows.length (packedRows rows ++ rest) = some rows := by
  induction rows with
  | nil => rfl
  | cons t rows ih =>
    have ht := h t (List.mem_cons_self ..)
    have hrows := ih fun u hu => h u (List.mem_cons_of_mem t hu)
    simp only [packedRows_cons, List.append_assoc, packed_eq, List.cons_append, List.length_cons,
      unpack?, toNatClampNeg_ofNat ht.start_le, toNatClampNeg_ofNat ht.length_le, List.take_left,
      List.drop_left, hrows]
    rw [if_neg]
    · rfl
    · simp [ofNat_nonneg ht.start_le, ofNat_nonneg ht.length_le]

namespace Kernel

theorem ofPacked?_eq_ok_iff {data : List Int16} {source count : ℕ} {k : Kernel} :
    ofPacked? data source count = .ok k ↔
      ∃ (rows : List Taps) (rest : List Int16), rows.length = count ∧
        (∀ t ∈ rows, t.Fits source) ∧ data = packedRows rows ++ rest ∧
        k = ⟨packedRows rows, count⟩ := by
  constructor
  · intro h
    rw [ofPacked?] at h
    cases hc : checkRows source count 0 data with
    | error fault =>
      rw [hc] at h
      cases h
    | ok length =>
      rw [hc] at h
      cases h
      obtain ⟨rows, rest, hlen, hfits, rfl, rfl⟩ := exists_rows_of_checkRows hc
      exact ⟨rows, rest, hlen, hfits, rfl, by rw [List.take_left]⟩
  · rintro ⟨rows, rest, rfl, hfits, rfl, rfl⟩
    rw [ofPacked?, checkRows_packedRows hfits]
    simp only [bind, Except.bind, pure, Except.pure, List.take_left]

theorem two_le_of_ofPacked? {data : List Int16} {source count : ℕ} {k : Kernel}
    (hcount : 0 < count) (h : ofPacked? data source count = .ok k) : 2 ≤ data.length := by
  obtain ⟨rows, rest, hlength, -, rfl, -⟩ := ofPacked?_eq_ok_iff.1 h
  cases rows with
  | nil =>
    rw [List.length_nil] at hlength
    omega
  | cons t rows =>
    rw [packedRows_cons, List.length_append, List.length_append, Taps.length_packed]
    omega

theorem exists_rows_of_ofPacked? {data : List Int16} {source count : ℕ} {k : Kernel}
    (h : ofPacked? data source count = .ok k) :
    ∃ rows : List Taps, k.rows? = some rows ∧ rows.length = count ∧ ∀ t ∈ rows, t.Fits source := by
  obtain ⟨rows, rest, rfl, hfits, -, rfl⟩ := ofPacked?_eq_ok_iff.1 h
  have hread := unpack?_packedRows hfits []
  rw [List.append_nil] at hread
  exact ⟨rows, hread, rfl, hfits⟩

/-- The data are accepted for lines of `source` inputs and read back as these rows. -/
def Reads (data : List Int16) (source count : ℕ) (rows : List Taps) : Prop :=
  ∃ k, ofPacked? data source count = .ok k ∧ k.rows? = some rows

theorem Reads.unique {data : List Int16} {source count : ℕ} {rows rows' : List Taps}
    (h : Reads data source count rows) (h' : Reads data source count rows') : rows = rows' := by
  obtain ⟨k, hk, hrows⟩ := h
  obtain ⟨k', hk', hrows'⟩ := h'
  rw [hk] at hk'
  cases hk'
  rw [hrows] at hrows'
  exact Option.some.inj hrows'

theorem Reads.fits {data : List Int16} {source count : ℕ} {rows : List Taps}
    (h : Reads data source count rows) : rows.length = count ∧ ∀ t ∈ rows, t.Fits source := by
  obtain ⟨k, hk, hrows⟩ := h
  obtain ⟨rows', hrows', hlength, hfits⟩ := exists_rows_of_ofPacked? hk
  rw [hrows] at hrows'
  cases hrows'
  exact ⟨hlength, hfits⟩

end Kernel
end FixedRaster
