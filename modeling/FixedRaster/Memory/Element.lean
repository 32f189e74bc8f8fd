import FixedRaster.Fault

/-!
# Numbers in a store

Samples, weights and coefficients lie in a store with their lowest byte first, at offsets that are
multiples of their size.
-/

namespace FixedRaster.Memory

structure Element (α : Type) where
  size : Nat
  encode : α → List UInt8
  decode : (Nat → UInt8) → α

namespace Element

variable {α : Type}

def word16 (byte : Nat → UInt8) : UInt16 :=
  (byte 0).toUInt16 ||| (byte 1).toUInt16 <<< 8

def word32 (byte : Nat → UInt8) : UInt32 :=
  (byte 0).toUInt32 ||| (byte 1).toUInt32 <<< 8 ||| (byte 2).toUInt32 <<< 16 |||
    (byte 3).toUInt32 <<< 24

def bytes16 (w : UInt16) : List UInt8 := [w.toUInt8, (w >>> 8).toUInt8]

def bytes32 (w : UInt32) : List UInt8 :=
  [w.toUInt8, (w >>> 8).toUInt8, (w >>> 16).toUInt8, (w >>> 24).toUInt8]

def sample : Element UInt16 where
  size := 2
  encode := bytes16
  decode := word16

def weight : Element Int16 where
  size := 2
  encode w := bytes16 w.toUInt16
  decode byte := (word16 byte).toInt16

def float : Element Float32 where
  size := 4
  encode x := bytes32 x.toBits
  decode byte := Float32.ofBits (word32 byte)

def encodeAll (e : Element α) (xs : Array α) : Array UInt8 :=
  (xs.toList.flatMap e.encode).toArray

def decodeAll? (e : Element α) (offset : Nat) (bytes : Array UInt8) : Except Fault (Array α) :=
  if offset % e.size = 0 ∧ bytes.size % e.size = 0 then
    .ok (Array.ofFn (n := bytes.size / e.size) fun i =>
      e.decode fun k => bytes.getD (i * e.size + k) 0)
  else
    .error (.misaligned offset e.size)

theorem size_of_decodeAll? {e : Element α} {offset : Nat} {bytes : Array UInt8} {xs : Array α}
    (h : e.decodeAll? offset bytes = .ok xs) : xs.size = bytes.size / e.size := by
  unfold decodeAll? at h
  split at h
  · cases h
    simp
  · cases h

end Element

end FixedRaster.Memory
