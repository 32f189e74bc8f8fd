import FixedRaster.Edit
import FixedRaster.Extent
import FixedRaster.Memory.Partition
import FixedRaster.Memory.Element

/-!
# A byte store addressed by offsets

A host that shares one memory with the filters names every buffer by an offset into it. The store
is made of four-byte words, all zero at first, and only ever grows. Every access names a region, and
a region is built from an offset and a count only where it is aligned and inside the store.
-/

namespace FixedRaster.Memory

structure Store where
  bytes : Array UInt8

namespace Store

def size (s : Store) : Nat := s.bytes.size

def isEmpty (s : Store) : Bool := s.bytes.isEmpty

/-- The bytes of the words that hold `count` bytes. The sum with the rounding constant stops at the
largest word. -/
def capacityFor (count : Nat) : Nat := min (count + 3) (wordLimit - 1) / 4 * 4

def ofCapacity (count : Nat) : Store := ⟨Array.replicate (capacityFor count) 0⟩

def grow (s : Store) (count : Nat) : Store := ⟨grown s.bytes (capacityFor count) 0⟩

def region? (s : Store) (elementSize offset count : Nat) : Except Fault Region :=
  if offset % elementSize ≠ 0 then .error (.misaligned offset elementSize)
  else if wordLimit ≤ count * elementSize + offset then
    .error (outside (wordLimit - 1) s.size)
  else if s.size < count * elementSize + offset then
    .error (outside (count * elementSize + offset) s.size)
  else .ok ⟨offset, count * elementSize⟩

def view (s : Store) (r : Region) : Array UInt8 := s.bytes.extract r.offset r.stop

def read? (s : Store) (offset count : Nat) : Except Fault (Array UInt8) := do
  return s.view (← s.region? 1 offset count)

def write (offset : Nat) (data : Array UInt8) : Edit Store Unit := do
  let r ← (← get).region? 1 offset data.size
  modify fun s => ⟨splice s.bytes r.offset data⟩

def poke (s : Store) (offset : Nat) (byte : UInt8) : Store :=
  ⟨s.bytes.setIfInBounds offset byte⟩

/-- Cuts the regions to write out of the store, runs an edit on the pieces with the gaps at hand,
and puts the pieces back. -/
def onPieces {α : Type} {n : Nat} (writes : Vector Region n)
    (edit : Partition n → Edit (Vector (Array UInt8) n) α) : Edit Store α := do
  let parts ← Partition.ofRegions? (← get).bytes writes
  (edit parts).within (fun _ => parts.pieces) fun pieces s => ⟨putBack s.bytes writes pieces⟩

theorem region?_eq_ok_iff {s : Store} {elementSize offset count : Nat} {r : Region} :
    s.region? elementSize offset count = .ok r ↔
      offset % elementSize = 0 ∧ count * elementSize + offset < wordLimit ∧
        count * elementSize + offset ≤ s.size ∧ r = ⟨offset, count * elementSize⟩ := by
  unfold region?
  split
  · simp_all
  · split
    · simp only [reduceCtorEq, false_iff]
      omega
    · split
      · simp only [reduceCtorEq, false_iff]
        omega
      · simp only [Except.ok.injEq]
        constructor
        · rintro rfl
          exact ⟨by omega, by omega, by omega, rfl⟩
        · rintro ⟨_, _, _, rfl⟩
          rfl

end Store

def asElements {α β : Type} {n : Nat} (e : Element α) (offset : Nat) (i : Fin n)
    (edit : Edit (Array α) β) : Edit (Vector (Array UInt8) n) β := do
  let xs ← e.decodeAll? offset (← get)[i]
  edit.within (fun _ => xs) fun ys pieces => pieces.set i (e.encodeAll ys)

end FixedRaster.Memory
