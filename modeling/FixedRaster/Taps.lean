import FixedRaster.FixedPoint

/-!
# Weighted taps and their packed form

One output index of a resize reads a run of neighbouring inputs, each with a Q14 weight. Packed,
such a row is its start, the number of its weights and the weights, all 16-bit numbers; a kernel is
packed as the rows of its output indices one after the other.
-/

namespace FixedRaster

structure Taps where
  start : Nat
  weights : List Int16
  deriving DecidableEq

namespace Taps

def stop (t : Taps) : Nat := t.start + t.weights.length

/-- The packed row. The number of weights is stored modulo 2¹⁶. -/
def pack (start : Int16) (weights : List Int16) : List Int16 :=
  start :: Int16.ofNat weights.length :: weights

def packAll (rows : List (Int16 × List Int16)) : List Int16 :=
  rows.flatMap fun row => pack row.1 row.2

def packUnit (length : Nat) : List Int16 :=
  packAll ((List.range length).map fun i => (Int16.ofNat i, [Q14.one.toInt16]))

def unpack? : (count : Nat) → List Int16 → Option (List Taps)
  | 0, _ => some []
  | count + 1, start :: number :: rest =>
    let weights := rest.take number.toNatClampNeg
    if start < 0 ∨ number < 0 ∨ weights.length < number.toNatClampNeg then none
    else do
      let rows ← unpack? count (rest.drop number.toNatClampNeg)
      return ⟨start.toNatClampNeg, weights⟩ :: rows
  | _ + 1, _ => none

theorem packAll_nil : packAll [] = [] := rfl

theorem packAll_cons (row : Int16 × List Int16) (rows : List (Int16 × List Int16)) :
    packAll (row :: rows) = pack row.1 row.2 ++ packAll rows := rfl

theorem length_pack (start : Int16) (weights : List Int16) :
    (pack start weights).length = weights.length + 2 := rfl

end Taps

end FixedRaster
