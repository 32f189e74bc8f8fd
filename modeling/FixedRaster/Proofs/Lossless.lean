import Mathlib
import FixedRaster.Proofs.Words

/-!
# Operations that lose nothing

Words wrap, divide by zero and are cut to narrower words without a sign of it. Here each operation
compares the word it leaves with the unbounded result and stops where they differ. A function that
is written with these operations and never stops is the function that is written with words, and
loses nothing on the way.
-/

namespace FixedRaster

/-- What an operation on words can lose: a result that its word cannot hold, a quotient by zero, or
the bits that a narrower word or one without a sign does not have. -/
inductive Loss where
  | wrapped
  | divisor
  | cut
  deriving DecidableEq

class Word (α : Type) where
  value : α → ℤ

instance : Word Int32 := ⟨Int32.toInt⟩
instance : Word Int64 := ⟨Int64.toInt⟩
instance : Word UInt8 := ⟨fun w => w.toNat⟩
instance : Word UInt16 := ⟨fun w => w.toNat⟩
instance : Word UInt32 := ⟨fun w => w.toNat⟩
instance : Word UInt64 := ⟨fun w => w.toNat⟩

namespace Lossless

section
variable {α β : Type} [Word α] [Word β]

def keep (loss : Loss) (w : α) (v : ℤ) : Except Loss α :=
  if Word.value w = v then .ok w else .error loss

def add [Add α] (a b : α) : Except Loss α :=
  keep .wrapped (a + b) (Word.value a + Word.value b)

def sub [Sub α] (a b : α) : Except Loss α :=
  keep .wrapped (a - b) (Word.value a - Word.value b)

def mul [Mul α] (a b : α) : Except Loss α :=
  keep .wrapped (a * b) (Word.value a * Word.value b)

def div [Div α] (a b : α) : Except Loss α :=
  if Word.value b = 0 then .error .divisor
  else keep .wrapped (a / b) ((Word.value a).tdiv (Word.value b))

def shiftLeft [ShiftLeft α] (a b : α) : Except Loss α :=
  keep .wrapped (a <<< b) (Word.value a * 2 ^ (Word.value b).toNat)

def abs (a : Int32) : Except Loss Int32 := keep .wrapped a.abs |a.toInt|

def cast (f : α → β) (a : α) : Except Loss β := keep .cut (f a) (Word.value a)

theorem keep_eq {loss : Loss} {w : α} {v : ℤ} (h : Word.value w = v) : keep loss w v = pure w :=
  if_pos h

end

/-! Each operation on words of known values, with the value it leaves. -/

section
variable {a b : Int32} {x y : ℤ} (ha : a.toInt = x) (hb : b.toInt = y)
include ha hb

theorem add_spec (hlow : -2 ^ 31 < x + y) (hhigh : x + y < 2 ^ 31) :
    add a b = pure (a + b) ∧ (a + b).toInt = x + y := by
  have hadd := toInt_add_eq ha hb hlow hhigh
  refine ⟨keep_eq ?_, hadd⟩
  change (a + b).toInt = a.toInt + b.toInt
  rw [hadd, ha, hb]

theorem sub_spec (hlow : -2 ^ 31 < x - y) (hhigh : x - y < 2 ^ 31) :
    sub a b = pure (a - b) ∧ (a - b).toInt = x - y := by
  have hsub := toInt_sub_eq ha hb hlow hhigh
  refine ⟨keep_eq ?_, hsub⟩
  change (a - b).toInt = a.toInt - b.toInt
  rw [hsub, ha, hb]

theorem mul_spec (hlow : -2 ^ 31 < x * y) (hhigh : x * y < 2 ^ 31) :
    mul a b = pure (a * b) ∧ (a * b).toInt = x * y := by
  have hmul := toInt_mul_eq ha hb hlow hhigh
  refine ⟨keep_eq ?_, hmul⟩
  change (a * b).toInt = a.toInt * b.toInt
  rw [hmul, ha, hb]

theorem div_spec (hlow : -2 ^ 31 < x) (hy : y ≠ 0) :
    div a b = pure (a / b) ∧ (a / b).toInt = x.tdiv y := by
  have hdiv := toInt_div_eq ha hb hlow
  refine ⟨(if_neg ?_).trans (keep_eq ?_), hdiv⟩
  · change ¬ b.toInt = 0
    rwa [hb]
  · change (a / b).toInt = a.toInt.tdiv b.toInt
    rw [hdiv, ha, hb]

end

section
variable {a b : Int64} {x y : ℤ} (ha : a.toInt = x) (hb : b.toInt = y)
include ha hb

theorem add_spec_int64 (hlow : -2 ^ 63 < x + y) (hhigh : x + y < 2 ^ 63) :
    add a b = pure (a + b) ∧ (a + b).toInt = x + y := by
  have hadd : (a + b).toInt = x + y := by
    rw [Int64.toInt_add, ha, hb]
    exact Int.bmod_eq_of_le (by omega) (by omega)
  refine ⟨keep_eq ?_, hadd⟩
  change (a + b).toInt = a.toInt + b.toInt
  rw [hadd, ha, hb]

theorem mul_spec_int64 (hlow : -2 ^ 63 < x * y) (hhigh : x * y < 2 ^ 63) :
    mul a b = pure (a * b) ∧ (a * b).toInt = x * y := by
  have hmul : (a * b).toInt = x * y := by
    rw [Int64.toInt_mul, ha, hb]
    exact Int.bmod_eq_of_le (by omega) (by omega)
  refine ⟨keep_eq ?_, hmul⟩
  change (a * b).toInt = a.toInt * b.toInt
  rw [hmul, ha, hb]

end

section
variable {a b : UInt32} {x y : ℕ} (ha : a.toNat = x) (hb : b.toNat = y)
include ha hb

theorem add_spec_uint32 (h : x + y < 2 ^ 32) :
    add a b = pure (a + b) ∧ (a + b).toNat = x + y := by
  have hadd : (a + b).toNat = x + y := by rw [UInt32.toNat_add, ha, hb, Nat.mod_eq_of_lt h]
  refine ⟨keep_eq ?_, hadd⟩
  change ((a + b).toNat : ℤ) = a.toNat + b.toNat
  omega

theorem sub_spec_uint32 (h : y ≤ x) :
    sub a b = pure (a - b) ∧ (a - b).toNat = x - y := by
  have hle : b ≤ a := UInt32.le_iff_toNat_le.2 (by omega)
  have hsub : (a - b).toNat = x - y := by rw [UInt32.toNat_sub_of_le _ _ hle, ha, hb]
  refine ⟨keep_eq ?_, hsub⟩
  change ((a - b).toNat : ℤ) = a.toNat - b.toNat
  omega

theorem mul_spec_uint32 (h : x * y < 2 ^ 32) :
    mul a b = pure (a * b) ∧ (a * b).toNat = x * y := by
  have hmul : (a * b).toNat = x * y := by rw [UInt32.toNat_mul, ha, hb, Nat.mod_eq_of_lt h]
  refine ⟨keep_eq ?_, hmul⟩
  change ((a * b).toNat : ℤ) = a.toNat * b.toNat
  rw [hmul, ha, hb, Nat.cast_mul]

end

section
variable {a b : UInt64} {x y : ℕ} (ha : a.toNat = x) (hb : b.toNat = y)
include ha hb

theorem add_spec_uint64 (h : x + y < 2 ^ 64) :
    add a b = pure (a + b) ∧ (a + b).toNat = x + y := by
  have hadd : (a + b).toNat = x + y := by rw [UInt64.toNat_add, ha, hb, Nat.mod_eq_of_lt h]
  refine ⟨keep_eq ?_, hadd⟩
  change ((a + b).toNat : ℤ) = a.toNat + b.toNat
  omega

theorem mul_spec_uint64 (h : x * y < 2 ^ 64) :
    mul a b = pure (a * b) ∧ (a * b).toNat = x * y := by
  have hmul : (a * b).toNat = x * y := by rw [UInt64.toNat_mul, ha, hb, Nat.mod_eq_of_lt h]
  refine ⟨keep_eq ?_, hmul⟩
  change ((a * b).toNat : ℤ) = a.toNat * b.toNat
  rw [hmul, ha, hb, Nat.cast_mul]

end

theorem sub_spec_uint16 {a b : UInt16} (h : b.toNat ≤ a.toNat) :
    sub a b = pure (a - b) ∧ (a - b).toNat = a.toNat - b.toNat := by
  have hsub := UInt16.toNat_sub_of_le _ _ (UInt16.le_iff_toNat_le.2 h)
  refine ⟨keep_eq ?_, hsub⟩
  change ((a - b).toNat : ℤ) = a.toNat - b.toNat
  omega

theorem cast_low_byte_eq {v : UInt32} (h : v.toNat < 2 ^ 8) :
    cast UInt32.toUInt8 v = pure v.toUInt8 := by
  refine keep_eq ?_
  change (v.toUInt8.toNat : ℤ) = v.toNat
  rw [UInt32.toNat_toUInt8, Nat.mod_eq_of_lt h]

/-! The conversions of a signed word that is not negative. -/

section
variable {v : Int32} (hv : 0 ≤ v.toInt)
include hv

theorem cast_word_eq : cast Int32.toUInt32 v = pure v.toUInt32 :=
  keep_eq (toNat_toUInt32 hv)

theorem cast_half_eq (hlt : v.toInt < 2 ^ 16) :
    cast (fun w : Int32 => w.toUInt32.toUInt16) v = pure v.toUInt32.toUInt16 := by
  refine keep_eq ?_
  change (v.toUInt32.toUInt16.toNat : ℤ) = v.toInt
  rw [toNat_toUInt16]
  omega

theorem cast_byte_eq (hlt : v.toInt < 2 ^ 8) :
    cast (fun w : Int32 => w.toUInt32.toUInt8) v = pure v.toUInt32.toUInt8 := by
  have hword := toNat_toUInt32 hv
  refine keep_eq ?_
  change (v.toUInt32.toUInt8.toNat : ℤ) = v.toInt
  rw [UInt32.toNat_toUInt8]
  omega

theorem cast_long_eq :
    cast (fun w : Int32 => w.toInt64.toUInt64) v = pure v.toInt64.toUInt64 :=
  keep_eq (toNat_toUInt64 hv)

end

end Lossless
end FixedRaster
