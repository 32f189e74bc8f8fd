import FixedRaster.Edit
import FixedRaster.Taps

/-!
# Kernels that a resize accepts

Packed data come from outside and are checked before they are used: every row is complete, reads
inside the source line, and its weights are small enough in sum of magnitudes that no sum over
bytes or 16-bit samples leaves 32 bits. Data after the last row are ignored.
-/

namespace FixedRaster

/-- What can be wrong with a packed row, in the order in which it is looked for. -/
inductive RowFlaw where
  | noHeader
  | negativeStart
  | negativeCount
  | pastSource
  | noWeights
  | tooHeavy
  deriving DecidableEq

namespace RowFlaw

def text : RowFlaw → String
  | noHeader => "record header past end of kernel"
  | negativeStart => "negative source shift"
  | negativeCount => "negative tap count"
  | pastSource => "taps read past the source line"
  | noWeights => "weights past end of kernel"
  | tooHeavy => "weights overflow the accumulator"

end RowFlaw

def heaviestRow : Int32 := 32767

def weightOf (weights : List Int16) : Int32 :=
  weights.foldl (fun sum w => sum + w.toInt32.abs) 0

def checkRow (source : Nat) : List Int16 → Except RowFlaw Nat
  | start :: number :: rest =>
    let count := number.toNatClampNeg
    let weights := rest.take count
    if start < 0 then .error .negativeStart
    else if number < 0 then .error .negativeCount
    else if source < start.toNatClampNeg + count then .error .pastSource
    else if weights.length < count then .error .noWeights
    else if heaviestRow < weightOf weights then .error .tooHeavy
    else .ok (count + 2)
  | _ => .error .noHeader

def checkRows (source : Nat) : (count index : Nat) → List Int16 → Except Fault Nat
  | 0, _, _ => .ok 0
  | count + 1, index, data =>
    match checkRow source data with
    | .error flaw => .error (.badRecord index flaw.text)
    | .ok length => do
      let more ← checkRows source count (index + 1) (data.drop length)
      return length + more

structure Kernel where
  packed : List Int16
  count : Nat
  deriving DecidableEq

namespace Kernel

def ofPacked? (data : List Int16) (source count : Nat) : Except Fault Kernel := do
  let length ← checkRows source count 0 data
  return ⟨data.take length, count⟩

def rows? (k : Kernel) : Option (List Taps) := Taps.unpack? k.count k.packed

end Kernel

def wordOf (n : Int16) : Nat := n.toInt64.toUInt64.toNat

/-- A place in packed data from which the rows are read one at a time, without further checks. -/
structure Cursor where
  packed : List Int16
  position : Nat
  deriving DecidableEq

namespace Cursor

def next : Edit Cursor (Option Taps) := fun c =>
  if c.packed.length ≤ c.position then .ok none c
  else
    match c.packed.drop c.position with
    | start :: number :: rest =>
      let length := wordOf number
      if rest.length < length then .error .outOfRange c
      else
        .ok (some ⟨wordOf start, rest.take length⟩)
          { c with position := c.position + 2 + length }
    | _ => .error .outOfRange c

end Cursor

def Kernel.cursor (k : Kernel) : Cursor := ⟨k.packed, 0⟩

end FixedRaster
