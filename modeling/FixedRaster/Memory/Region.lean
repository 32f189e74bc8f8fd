import FixedRaster.Fault

/-!
# Regions of a store

A region is a run of bytes of a store. Two regions meet where they share a byte, so an empty
region meets none. The regions that a call writes have to be disjoint from each other and from all
that it reads; what is only read may coincide.
-/

namespace FixedRaster.Memory

structure Region where
  offset : Nat
  length : Nat
  deriving DecidableEq, Inhabited

namespace Region

def stop (r : Region) : Nat := r.offset + r.length

def Meets (r s : Region) : Prop :=
  0 < r.length ∧ 0 < s.length ∧ r.offset < s.stop ∧ s.offset < r.stop

instance (r s : Region) : Decidable (r.Meets s) := by
  unfold Meets
  infer_instance

def Contains (r : Region) (i : Nat) : Prop := r.offset ≤ i ∧ i < r.stop

theorem meets_iff {r s : Region} : r.Meets s ↔ ∃ i, r.Contains i ∧ s.Contains i := by
  simp only [Meets, Contains, stop]
  constructor
  · intro h
    exact ⟨max r.offset s.offset, by omega⟩
  · rintro ⟨i, h⟩
    omega

theorem meets_comm {r s : Region} : r.Meets s ↔ s.Meets r := by
  simp only [meets_iff, and_comm]

end Region

def checkDisjoint : (writes reads : List Region) → Except Fault Unit
  | [], _ => .ok ()
  | w :: writes, reads =>
    if ∃ r ∈ writes ++ reads, w.Meets r then .error .overlap else checkDisjoint writes reads

theorem checkDisjoint_eq_ok_iff {writes reads : List Region} :
    checkDisjoint writes reads = .ok () ↔
      writes.Pairwise (fun w v => ¬ w.Meets v) ∧ ∀ w ∈ writes, ∀ r ∈ reads, ¬ w.Meets r := by
  induction writes with
  | nil => simp [checkDisjoint]
  | cons w writes ih =>
    unfold checkDisjoint
    split
    · rename_i h
      obtain ⟨r, hr, hm⟩ := h
      rcases List.mem_append.1 hr with hr | hr
      · simp only [reduceCtorEq, List.pairwise_cons, List.mem_cons, forall_eq_or_imp, false_iff]
        exact fun hn => hn.1.1 r hr hm
      · simp only [reduceCtorEq, List.pairwise_cons, List.mem_cons, forall_eq_or_imp, false_iff]
        exact fun hn => hn.2.1 r hr hm
    · rename_i h
      simp only [List.mem_append, not_exists, not_and] at h
      rw [ih]
      simp only [List.pairwise_cons, List.mem_cons, forall_eq_or_imp]
      constructor
      · rintro ⟨h1, h2⟩
        exact ⟨⟨fun v hv => h v (.inl hv), h1⟩, fun r hr => h r (.inr hr), h2⟩
      · rintro ⟨⟨_, h1⟩, _, h2⟩
        exact ⟨h1, h2⟩

end FixedRaster.Memory
