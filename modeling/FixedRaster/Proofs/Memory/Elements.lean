import Mathlib
import FixedRaster.Memory.Element

/-!
# Elements survive their bytes

What is encoded at an aligned offset is decoded to the same elements, floats included: a float is
stored as its bits.
-/

namespace FixedRaster.Memory.Element
variable {α : Type}

/-- An element takes its number of bytes and is read back from any bytes that begin with them. -/
structure Faithful (e : Element α) : Prop where
  size_pos : 0 < e.size
  length_encode : ∀ x, (e.encode x).length = e.size
  decode_eq : ∀ x byte, (∀ k < e.size, (e.encode x)[k]? = some (byte k)) → e.decode byte = x

def byteOf {n : ℕ} (x : BitVec n) (s : ℕ) : BitVec n := ((x >>> s).setWidth 8).setWidth n <<< s

theorem getLsbD_byteOf {n : ℕ} (x : BitVec n) (s : ℕ) {i : ℕ} (hi : i < n) :
    (byteOf x s).getLsbD i = (decide (s ≤ i ∧ i < s + 8) && x.getLsbD i) := by
  simp only [byteOf, BitVec.getLsbD_shiftLeft, BitVec.getLsbD_setWidth, BitVec.getLsbD_ushiftRight]
  by_cases hs : s ≤ i
  · have hplace : s + (i - s) = i := by omega
    have hlow : i - s < n := by omega
    have hbyte : i - s < 8 ↔ i < s + 8 := by omega
    simp [hs, hi, hplace, hlow, hbyte]
  · simp [hs, show i < s by omega]

theorem byteOf_zero {n : ℕ} (x : BitVec n) : byteOf x 0 = (x.setWidth 8).setWidth n := by
  simp [byteOf]

theorem word16_bytes (w : UInt16) :
    w.toUInt8.toUInt16 ||| (w >>> 8).toUInt8.toUInt16 <<< 8 = w := by
  apply UInt16.eq_of_toBitVec_eq
  have hbytes : (w.toUInt8.toUInt16 ||| (w >>> 8).toUInt8.toUInt16 <<< 8).toBitVec =
      byteOf w.toBitVec 0 ||| byteOf w.toBitVec 8 := by
    rw [byteOf_zero]
    simp only [UInt16.toBitVec_or, UInt16.toBitVec_shiftLeft, UInt8.toBitVec_toUInt16,
      UInt16.toBitVec_toUInt8, UInt16.toBitVec_shiftRight]
    rfl
  rw [hbytes]
  apply BitVec.eq_of_getLsbD_eq
  intro i hi
  rw [BitVec.getLsbD_or, getLsbD_byteOf _ _ hi, getLsbD_byteOf _ _ hi, ← Bool.and_or_distrib_right,
    ← Bool.decide_or, decide_eq_true (by omega), Bool.true_and]

theorem word32_bytes (w : UInt32) :
    w.toUInt8.toUInt32 ||| (w >>> 8).toUInt8.toUInt32 <<< 8 |||
      (w >>> 16).toUInt8.toUInt32 <<< 16 ||| (w >>> 24).toUInt8.toUInt32 <<< 24 = w := by
  apply UInt32.eq_of_toBitVec_eq
  have hbytes : (w.toUInt8.toUInt32 ||| (w >>> 8).toUInt8.toUInt32 <<< 8 |||
      (w >>> 16).toUInt8.toUInt32 <<< 16 ||| (w >>> 24).toUInt8.toUInt32 <<< 24).toBitVec =
      byteOf w.toBitVec 0 ||| byteOf w.toBitVec 8 ||| byteOf w.toBitVec 16 |||
        byteOf w.toBitVec 24 := by
    rw [byteOf_zero]
    simp only [UInt32.toBitVec_or, UInt32.toBitVec_shiftLeft, UInt8.toBitVec_toUInt32,
      UInt32.toBitVec_toUInt8, UInt32.toBitVec_shiftRight]
    rfl
  rw [hbytes]
  apply BitVec.eq_of_getLsbD_eq
  intro i hi
  simp only [BitVec.getLsbD_or, getLsbD_byteOf _ _ hi, ← Bool.and_or_distrib_right,
    ← Bool.decide_or]
  rw [decide_eq_true (by omega), Bool.true_and]

theorem faithful_sample : sample.Faithful := by
  refine ⟨by decide, fun w => rfl, ?_⟩
  intro w byte h
  have h0 := h 0 (by decide)
  have h1 := h 1 (by decide)
  simp only [sample, bytes16, List.getElem?_cons_zero, List.getElem?_cons_succ,
    Option.some.injEq] at h0 h1
  simp only [sample, word16, ← h0, ← h1]
  exact word16_bytes w

theorem faithful_float : float.Faithful := by
  refine ⟨by decide, fun x => rfl, ?_⟩
  intro x byte h
  have h0 := h 0 (by decide)
  have h1 := h 1 (by decide)
  have h2 := h 2 (by decide)
  have h3 := h 3 (by decide)
  simp only [float, bytes32, List.getElem?_cons_zero, List.getElem?_cons_succ,
    Option.some.injEq] at h0 h1 h2 h3
  simp only [float, word32, ← h0, ← h1, ← h2, ← h3, word32_bytes]
  exact Float32.ofBits_toBits x

theorem aligned_of_decodeAll? {e : Element α} {offset : ℕ} {bytes : Array UInt8} {xs : Array α}
    (h : e.decodeAll? offset bytes = .ok xs) :
    offset % e.size = 0 ∧ xs.size * e.size = bytes.size := by
  have hsize := size_of_decodeAll? h
  rw [decodeAll?] at h
  split_ifs at h with hwhole
  rw [hsize, Nat.div_mul_cancel (Nat.dvd_of_mod_eq_zero hwhole.2)]
  exact ⟨hwhole.1, rfl⟩

section
variable {e : Element α} (he : e.Faithful)
include he

theorem size_encodeAll (xs : Array α) : (e.encodeAll xs).size = xs.size * e.size := by
  simp [encodeAll, List.length_flatMap, he.length_encode]

theorem size_encodeAll_of_decodeAll? {offset : ℕ} {bytes : Array UInt8} {xs ys : Array α}
    (h : e.decodeAll? offset bytes = .ok xs) (hsize : ys.size = xs.size) :
    (e.encodeAll ys).size = bytes.size := by
  rw [size_encodeAll he, hsize]
  exact (aligned_of_decodeAll? h).2

theorem getElem?_flatMap_encode (xs : List α) {i k : ℕ} (hk : k < e.size) :
    (xs.flatMap e.encode)[i * e.size + k]? = xs[i]?.bind fun x => (e.encode x)[k]? := by
  induction xs generalizing i with
  | nil => simp
  | cons x xs ih =>
    have hx := he.length_encode x
    cases i with
    | zero =>
      rw [List.flatMap_cons, Nat.zero_mul, Nat.zero_add, List.getElem?_append_left (by omega)]
      rfl
    | succ i =>
      have hplace : (i + 1) * e.size + k - (e.encode x).length = i * e.size + k := by
        rw [Nat.add_mul, hx]
        omega
      rw [List.flatMap_cons, List.getElem?_append_right (by rw [Nat.add_mul, hx]; omega), hplace,
        ih, List.getElem?_cons_succ]

theorem decodeAll?_encodeAll {offset : ℕ} (hoffset : offset % e.size = 0) (xs : Array α) :
    e.decodeAll? offset (e.encodeAll xs) = .ok xs := by
  have hsize := size_encodeAll he xs
  have hwhole : (e.encodeAll xs).size % e.size = 0 := by
    rw [hsize]
    exact Nat.mul_mod_left ..
  have hcount : (e.encodeAll xs).size / e.size = xs.size := by
    rw [hsize]
    exact Nat.mul_div_cancel _ he.size_pos
  rw [decodeAll?, if_pos ⟨hoffset, hwhole⟩]
  congr 1
  apply Array.ext
  · rw [Array.size_ofFn, hcount]
  · intro i hi hi'
    rw [Array.getElem_ofFn]
    apply he.decode_eq
    intro k hk
    have hx : xs.toList[i]? = some xs[i] := by simp
    have hbyte := getElem?_flatMap_encode he xs.toList (i := i) hk
    rw [hx, Option.bind_some] at hbyte
    have hread : (e.encodeAll xs)[i * e.size + k]? = (e.encode xs[i])[k]? := by
      rw [← hbyte]
      exact List.getElem?_toArray
    rw [Array.getD_eq_getD_getElem?, hread,
      List.getElem?_eq_getElem (by rw [he.length_encode]; exact hk), Option.getD_some]

end

end FixedRaster.Memory.Element
