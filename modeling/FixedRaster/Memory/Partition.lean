import FixedRaster.Memory.Region
import FixedRaster.Splice

/-!
# A store parted into regions and gaps

The regions that a call writes are cut out of the store from the lowest offset up, which leaves a
gap before each of them and one after the last. The pieces are handed out in the order in which
their regions were asked for, and what a call reads has to lie inside one gap.
-/

namespace FixedRaster.Memory

/-- A stretch of the store that no region covers, and where it begins. -/
structure Gap where
  start : Nat
  bytes : Array UInt8
  deriving DecidableEq

structure Partition (n : Nat) where
  pieces : Vector (Array UInt8) n
  gaps : List Gap
  total : Nat

def outside (required actual : Nat) : Fault := .shortBuffer "arena" required actual

def cut? (total : Nat) : List (Region × Nat) → (start : Nat) → (rest : Array UInt8) →
    Except Fault (List (Nat × Array UInt8) × List Gap)
  | [], start, rest => .ok ([], [⟨start, rest⟩])
  | (r, i) :: regions, start, rest =>
    if total < r.stop then .error (outside r.stop total)
    else if r.offset < start then .error .overlap
    else do
      let gap := rest.extract 0 (r.offset - start)
      let piece := rest.extract (r.offset - start) (r.stop - start)
      let (pieces, gaps) ← cut? total regions r.stop (rest.extract (r.stop - start))
      return ((i, piece) :: pieces, ⟨start, gap⟩ :: gaps)

namespace Partition

variable {n : Nat}

def insert (r : Region × Nat) : List (Region × Nat) → List (Region × Nat)
  | [] => [r]
  | s :: regions => if r.1.offset ≤ s.1.offset then r :: s :: regions else s :: insert r regions

def sort (regions : List (Region × Nat)) : List (Region × Nat) := regions.foldr insert []

def order (writes : Vector Region n) : List (Region × Nat) := sort writes.toList.zipIdx

def ofRegions? (bytes : Array UInt8) (writes : Vector Region n) : Except Fault (Partition n) := do
  checkDisjoint writes.toList []
  let (pieces, gaps) ← cut? bytes.size (order writes) 0 bytes
  return {
    pieces := pieces.foldl (fun all piece => all.setIfInBounds piece.1 piece.2)
      (Vector.replicate n #[])
    gaps := gaps
    total := bytes.size }

/-- The bytes of a region that no piece takes a byte of. -/
def read? (p : Partition n) (r : Region) : Except Fault (Array UInt8) :=
  if p.total < r.stop then .error (outside r.stop p.total)
  else
    match p.gaps.find? fun g => decide (g.start ≤ r.offset ∧ r.stop ≤ g.start + g.bytes.size) with
    | some g => .ok (g.bytes.extract (r.offset - g.start) (r.stop - g.start))
    | none => .error .overlap

theorem insert_perm (r : Region × Nat) (regions : List (Region × Nat)) :
    (insert r regions).Perm (r :: regions) := by
  induction regions with
  | nil => exact .refl _
  | cons s regions ih =>
    unfold insert
    split
    · exact .refl _
    · exact (ih.cons s).trans (.swap r s regions)

theorem sort_perm (regions : List (Region × Nat)) : (sort regions).Perm regions := by
  induction regions with
  | nil => exact .refl _
  | cons r regions ih => exact (insert_perm r (sort regions)).trans (ih.cons r)

theorem insert_sorted {r : Region × Nat} {regions : List (Region × Nat)}
    (h : regions.Pairwise fun a b => a.1.offset ≤ b.1.offset) :
    (insert r regions).Pairwise fun a b => a.1.offset ≤ b.1.offset := by
  induction regions with
  | nil => simp [insert]
  | cons s regions ih =>
    rw [List.pairwise_cons] at h
    unfold insert
    split
    · rename_i hr
      refine List.pairwise_cons.2 ⟨fun t ht => ?_, List.pairwise_cons.2 h⟩
      rcases List.mem_cons.1 ht with rfl | ht
      · exact hr
      · exact Nat.le_trans hr (h.1 t ht)
    · rename_i hr
      refine List.pairwise_cons.2 ⟨fun t ht => ?_, ih h.2⟩
      rcases List.mem_cons.1 ((insert_perm r regions).mem_iff.1 ht) with rfl | ht
      · omega
      · exact h.1 t ht

theorem sort_sorted (regions : List (Region × Nat)) :
    (sort regions).Pairwise fun a b => a.1.offset ≤ b.1.offset := by
  induction regions with
  | nil => exact .nil
  | cons r regions ih => exact insert_sorted ih

end Partition

def putBack {n : Nat} (bytes : Array UInt8) (writes : Vector Region n)
    (pieces : Vector (Array UInt8) n) : Array UInt8 :=
  (writes.toList.zip pieces.toList).foldl
    (fun bytes piece => splice bytes piece.1.offset piece.2) bytes

end FixedRaster.Memory
