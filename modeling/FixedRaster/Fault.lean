/-!
# What a call can report

Every public call checks its arguments before it works on them. A refused argument is one of the
causes below; the wording of all of them is `Fault.message`.
-/

namespace FixedRaster

inductive Fault where
  | badExtent (width height : UInt32)
  | shortBuffer (what : String) (required actual : Nat)
  | badRecord (index : Nat) (reason : String)
  | misaligned (offset align : Nat)
  | overlap
  | unknownModel (name : String)
  /-- The call breaks off: a length has no word, or an index has no element. -/
  | outOfRange
  deriving DecidableEq

namespace Fault

def message : Fault → String
  | badExtent width height => s!"invalid geometry {width}x{height}"
  | shortBuffer what required actual =>
    s!"{what}: expected at least {required} elements, got {actual}"
  | badRecord index reason => s!"filter kernel record {index}: {reason}"
  | misaligned offset align => s!"arena offset {offset} is not {align}-byte aligned"
  | overlap => "arena regions overlap"
  | unknownModel name => s!"unknown color model '{name}'"
  | outOfRange => "index out of range"

end Fault

def requireLength (what : String) (required actual : Nat) : Except Fault Unit :=
  if actual < required then .error (.shortBuffer what required actual) else .ok ()

theorem requireLength_eq_ok_iff {what : String} {required actual : Nat} :
    requireLength what required actual = .ok () ↔ required ≤ actual := by
  unfold requireLength
  split
  · simp; omega
  · simp; omega

end FixedRaster
