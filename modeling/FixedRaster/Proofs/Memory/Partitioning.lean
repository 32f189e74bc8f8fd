import Mathlib
import FixedRaster.Proofs.Memory.Granting

/-!
# Partitions are exact

Regions that take bytes are handed out together exactly where all of them lie in the store and no
two share a byte. The cuts are made in the order of the offsets, but each region comes back in its
own place. What is read is served exactly where it lies in the store and shares no byte with a
region handed out, also where it fills a gap or touches an end of the store.
-/

namespace FixedRaster.Memory

def Region.Disjoint (r s : Region) : Prop := ∀ i, ¬ (r.Contains i ∧ s.Contains i)

theorem Region.disjoint_iff_not_meets {r s : Region} : r.Disjoint s ↔ ¬ r.Meets s := by
  rw [meets_iff, not_exists]
  rfl

instance (r s : Region) : Decidable (r.Disjoint s) :=
  decidable_of_iff _ Region.disjoint_iff_not_meets.symm

variable {n : ℕ}

structure Partition.Exact (p : Partition n) (bytes : Array UInt8) (writes : Vector Region n) :
    Prop where
  piece_eq : ∀ i (hi : i < n), p.pieces[i].size = writes[i].length ∧
    p.pieces[i] = bytes.extract writes[i].offset writes[i].stop
  read_ok_iff : ∀ (r : Region) (data : Array UInt8), 0 < r.length →
    (p.read? r = .ok data ↔ r.stop ≤ bytes.size ∧ (∀ w ∈ writes.toList, w.Disjoint r) ∧
      data = bytes.extract r.offset r.stop)
  read_outside : ∀ r : Region, bytes.size < r.stop →
    p.read? r = .error (.shortBuffer "arena" r.stop bytes.size)
  read_overlap : ∀ r : Region, 0 < r.length → r.stop ≤ bytes.size →
    (∃ w ∈ writes.toList, ¬ w.Disjoint r) → p.read? r = .error .overlap

theorem Partition.read?_error {p : Partition n} {r : Region} (hin : r.stop ≤ p.total)
    (h : ∀ data, p.read? r ≠ .ok data) : p.read? r = .error .overlap := by
  rw [read?, if_neg (Nat.not_lt.2 hin)] at h ⊢
  cases hfind : p.gaps.find? fun g => decide (g.start ≤ r.offset ∧
      r.stop ≤ g.start + g.bytes.size) with
  | none => rfl
  | some g =>
    rw [hfind] at h
    exact absurd rfl (h _)

theorem Granted.exact {bytes : Array UInt8} {writes : Vector Region n} {p : Partition n}
    (hp : Granted bytes writes p) : p.Exact bytes writes := by
  have hread : ∀ {r : Region} {data : Array UInt8}, p.read? r = .ok data →
      ∀ w ∈ writes.toList, w.Disjoint r :=
    fun h w hw => Region.disjoint_iff_not_meets.2 (hp.read_apart _ _ h w hw)
  constructor
  case piece_eq => exact fun i hi => ⟨hp.size_piece hi, hp.piece_eq i hi⟩
  case read_ok_iff =>
    intro r data hr
    constructor
    · intro h
      obtain ⟨hdata, hin⟩ := Partition.of_read? hp.toCarved h
      exact ⟨hin, hread h, hdata⟩
    · rintro ⟨hin, hfree, rfl⟩
      exact hp.read_eq r ⟨hr, hin⟩ fun w hw => Region.disjoint_iff_not_meets.1 (hfree w hw)
  case read_outside =>
    intro r hr
    rw [Partition.read?, hp.total_eq, if_pos hr]
    rfl
  case read_overlap =>
    rintro r - hin ⟨w, hw, hshared⟩
    apply Partition.read?_error (hp.total_eq.symm ▸ hin)
    exact fun data h => hshared (hread h w hw)

/-- Disjoint regions of a store are handed out and others are refused. The partition returns each
region's own bytes and reads exactly what is left. -/
theorem partition_exact {bytes : Array UInt8} {writes : Vector Region n}
    (hpos : ∀ w ∈ writes.toList, 0 < w.length) :
    ((∃ p, Partition.ofRegions? bytes writes = .ok p) ↔
      (∀ w ∈ writes.toList, w.stop ≤ bytes.size) ∧ writes.toList.Pairwise Region.Disjoint) ∧
    (∀ p, Partition.ofRegions? bytes writes = .ok p → p.Exact bytes writes) ∧
    ∀ ws rs : List Region, checkDisjoint ws rs = .ok () ↔
      ws.Pairwise Region.Disjoint ∧ ∀ w ∈ ws, ∀ r ∈ rs, w.Disjoint r := by
  have hseparate : ∀ {p}, Partition.ofRegions? bytes writes = .ok p → Separate bytes writes := by
    intro p h
    have hp := Partition.carved_of_ofRegions? h
    refine ⟨hp.disjoint, ?_⟩
    intro w hw
    obtain ⟨i, hi, rfl⟩ := List.mem_iff_getElem.1 hw
    exact ⟨hpos _ hw, hp.inside i (by simpa using hi)⟩
  have hpairwise : ∀ ws : List Region, ws.Pairwise Region.Disjoint ↔
      ws.Pairwise fun w v => ¬ w.Meets v :=
    fun ws => List.Pairwise.iff fun _ _ => Region.disjoint_iff_not_meets
  refine ⟨⟨?_, ?_⟩, ?_, ?_⟩
  · rintro ⟨p, h⟩
    exact ⟨fun w hw => ((hseparate h).within w hw).stop_le,
      (hpairwise _).2 (hseparate h).apart⟩
  · rintro ⟨hin, hapart⟩
    have h : Separate bytes writes :=
      ⟨(hpairwise _).1 hapart, fun w hw => ⟨hpos w hw, hin w hw⟩⟩
    obtain ⟨p, hp, -⟩ := h.exists_granted
    exact ⟨p, hp⟩
  · intro p h
    obtain ⟨q, hq, hgranted⟩ := (hseparate h).exists_granted
    obtain rfl : p = q := Except.ok.inj (h.symm.trans hq)
    exact hgranted.exact
  · intro ws rs
    rw [checkDisjoint_eq_ok_iff, hpairwise]
    simp only [Region.disjoint_iff_not_meets]

theorem partition_exact_ends :
    let bytes : Array UInt8 := #[10, 11, 12, 13, 14, 15, 16, 17]
    let writes : Vector Region 2 := #v[⟨5, 3⟩, ⟨0, 2⟩]
    (∀ w ∈ writes.toList, 0 < w.length) ∧
    ∃ p, Partition.ofRegions? bytes writes = .ok p ∧ p.pieces = #v[#[15, 16, 17], #[10, 11]] ∧
      p.read? ⟨2, 3⟩ = .ok #[12, 13, 14] ∧ p.read? ⟨1, 2⟩ = .error .overlap ∧
      p.read? ⟨7, 2⟩ = .error (.shortBuffer "arena" 9 8) := by
  intro bytes writes
  have hpos : ∀ w ∈ writes.toList, 0 < w.length := by decide
  obtain ⟨hgrant, hexact, -⟩ := @partition_exact 2 bytes writes hpos
  obtain ⟨p, hp⟩ := hgrant.2 ⟨by decide, by decide⟩
  have hp' := hexact p hp
  refine ⟨hpos, p, hp, ?_, ?_, ?_, hp'.read_outside ⟨7, 2⟩ (by decide)⟩
  · ext1 i hi
    rw [(hp'.piece_eq i hi).2]
    interval_cases i
    · rfl
    · rfl
  · exact (hp'.read_ok_iff ⟨2, 3⟩ _ (by decide)).2 ⟨by decide, by decide, by decide⟩
  · exact hp'.read_overlap ⟨1, 2⟩ (by decide) (by decide) ⟨⟨0, 2⟩, by decide, by decide⟩

end FixedRaster.Memory
