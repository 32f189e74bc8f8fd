import Mathlib
import FixedRaster.Extent
import FixedRaster.Proofs.Memory.Carving
import FixedRaster.Proofs.Memory.Elements

/-!
# Layouts that are granted

Regions that take bytes of a store and share none are always handed out, and every region that meets
none of them is then read from one gap. An edit of such pieces that succeeds on their bytes
therefore succeeds on the store.
-/

namespace FixedRaster.Memory
variable {n : ℕ}

structure Region.Within (r : Region) (bytes : Array UInt8) : Prop where
  pos : 0 < r.length
  stop_le : r.stop ≤ bytes.size

theorem Region.Within.of_frame {r : Region} {regions : List Region} {a b : Array UInt8}
    (hr : r.Within a) (h : Frame regions a b) : r.Within b :=
  ⟨hr.pos, by rw [h.size_eq]; exact hr.stop_le⟩

theorem Region.stop_le_of_not_meets {r q : Region} (hr : 0 < r.length) (hq : 0 < q.length)
    (h : ¬ r.Meets q) (hle : r.offset < q.stop) : r.stop ≤ q.offset := by
  by_contra hlt
  exact h ⟨hr, hq, hle, by omega⟩

theorem exists_cut? {bytes : Array UInt8} {regions : List (Region × ℕ)} {start : ℕ}
    (hsorted : regions.Pairwise fun a b => a.1.offset ≤ b.1.offset)
    (hne : regions.Pairwise fun a b => ¬ a.1.Meets b.1)
    (hin : ∀ r ∈ regions, r.1.Within bytes) (hstart : ∀ r ∈ regions, start ≤ r.1.offset) :
    ∃ pieces gaps, cut? bytes.size regions start (bytes.extract start) = .ok (pieces, gaps) ∧
      ∀ q : Region, q.Within bytes → start ≤ q.offset → (∀ r ∈ regions, ¬ r.1.Meets q) →
        ∃ g ∈ gaps, g.start ≤ q.offset ∧ q.stop ≤ g.start + g.bytes.size := by
  induction regions generalizing start with
  | nil =>
    refine ⟨[], [⟨start, bytes.extract start⟩], rfl, ?_⟩
    intro q hq hle _
    refine ⟨_, List.mem_singleton_self _, hle, ?_⟩
    have hstop := hq.stop_le
    simp only [Array.size_extract]
    omega
  | cons r regions ih =>
    obtain ⟨r, number⟩ := r
    obtain ⟨hbefore, hsorted⟩ := List.pairwise_cons.1 hsorted
    obtain ⟨hhead, hne⟩ := List.pairwise_cons.1 hne
    have hr : r.Within bytes := hin _ (List.mem_cons_self ..)
    have hbehind : ∀ q ∈ regions, r.stop ≤ q.1.offset := by
      intro q hq
      have hqin := hin q (List.mem_cons_of_mem _ hq)
      apply Region.stop_le_of_not_meets hr.pos hqin.pos (hhead q hq)
      have hle : r.offset ≤ q.1.offset := hbefore q hq
      have hpos := hqin.pos
      rw [Region.stop]
      omega
    obtain ⟨pieces, gaps, hcut, hserved⟩ := ih hsorted hne
      (fun q hq => hin q (List.mem_cons_of_mem _ hq)) hbehind
    refine ⟨_, _, cut?_cons_ok_iff.2 ⟨hstart _ (List.mem_cons_self ..), hr.stop_le, pieces, gaps,
      hcut, rfl, rfl⟩, ?_⟩
    intro q hq hle hfree
    by_cases hlow : r.offset < q.stop
    · -- the region lies behind the head, so a later gap serves it
      obtain ⟨g, hg, hgap⟩ := hserved q hq
        (Region.stop_le_of_not_meets hr.pos hq.pos (hfree _ (List.mem_cons_self ..)) hlow)
        (fun p hp => hfree p (List.mem_cons_of_mem _ hp))
      exact ⟨g, List.mem_cons_of_mem _ hg, hgap⟩
    · refine ⟨_, List.mem_cons_self .., hle, ?_⟩
      have hstop := hq.stop_le
      simp only [Array.size_extract]
      omega

theorem cut?_apart {bytes : Array UInt8} {regions : List (Region × ℕ)} {start : ℕ}
    {pieces : List (ℕ × Array UInt8)} {gaps : List Gap}
    (h : cut? bytes.size regions start (bytes.extract start) = .ok (pieces, gaps)) :
    (∀ r ∈ regions, start ≤ r.1.offset) ∧ ∀ g ∈ gaps, start ≤ g.start ∧
      ∀ r ∈ regions, r.1.stop ≤ g.start ∨ g.start + g.bytes.size ≤ r.1.offset := by
  induction regions generalizing start pieces gaps with
  | nil =>
    cases h
    refine ⟨by simp, ?_⟩
    intro g hg
    obtain rfl := List.mem_singleton.1 hg
    exact ⟨le_rfl, by simp⟩
  | cons r regions ih =>
    obtain ⟨r, number⟩ := r
    obtain ⟨hbehind, hin, more, gaps', hmore, -, rfl⟩ := cut?_cons_ok_iff.1 h
    obtain ⟨hregions, hgaps⟩ := ih hmore
    have hle : r.offset ≤ r.stop := Nat.le_add_right ..
    refine ⟨?_, ?_⟩
    · intro q hq
      rcases List.mem_cons.1 hq with rfl | hq
      · exact hbehind
      · exact (hbehind.trans hle).trans (hregions q hq)
    · intro g hg
      rcases List.mem_cons.1 hg with rfl | hg
      · refine ⟨le_rfl, ?_⟩
        intro q hq
        have hlow : r.offset ≤ q.1.offset := by
          rcases List.mem_cons.1 hq with rfl | hq
          · exact le_rfl
          · exact hle.trans (hregions q hq)
        right
        simp only [Array.size_extract]
        omega
      · obtain ⟨hstart, hfree⟩ := hgaps g hg
        refine ⟨(hbehind.trans hle).trans hstart, ?_⟩
        intro q hq
        rcases List.mem_cons.1 hq with rfl | hq
        · exact .inl hstart
        · exact hfree q hq

structure Separate (bytes : Array UInt8) (writes : Vector Region n) : Prop where
  apart : writes.toList.Pairwise fun w v => ¬ w.Meets v
  within : ∀ w ∈ writes.toList, w.Within bytes

theorem Region.Within.separate {w : Region} {bytes : Array UInt8} (hw : w.Within bytes) :
    Separate bytes #v[w] :=
  ⟨by simp, by simpa using hw⟩

/-- A partition that serves exactly the regions of the store that meet none of those it hands
out. -/
structure Granted (bytes : Array UInt8) (writes : Vector Region n) (p : Partition n) : Prop
    extends Carved bytes writes p where
  read_eq : ∀ r : Region, r.Within bytes → (∀ w ∈ writes.toList, ¬ w.Meets r) →
    p.read? r = .ok (r.of bytes)
  read_apart : ∀ (r : Region) (data : Array UInt8), p.read? r = .ok data →
    ∀ w ∈ writes.toList, ¬ w.Meets r

theorem Partition.exists_gap_of_read? {p : Partition n} {r : Region} {data : Array UInt8}
    (h : p.read? r = .ok data) :
    ∃ g ∈ p.gaps, g.start ≤ r.offset ∧ r.stop ≤ g.start + g.bytes.size := by
  rw [read?] at h
  split_ifs at h
  cases hfind : p.gaps.find? fun g => decide (g.start ≤ r.offset ∧
      r.stop ≤ g.start + g.bytes.size) with
  | none =>
    rw [hfind] at h
    cases h
  | some g =>
    have hin := List.find?_some hfind
    simp only [decide_eq_true_eq] at hin
    exact ⟨g, List.mem_of_find?_eq_some hfind, hin⟩

theorem Partition.read?_ne_outOfRange {p : Partition n} {r : Region} {f : Fault}
    (h : p.read? r = .error f) : f ≠ .outOfRange := by
  rw [read?] at h
  split_ifs at h
  · cases h
    simp [outside]
  · split at h
    · cases h
    · cases h
      simp

theorem pairwise_order {writes : Vector Region n}
    (h : writes.toList.Pairwise fun w v => ¬ w.Meets v) :
    (Partition.order writes).Pairwise fun a b => ¬ a.1.Meets b.1 := by
  have hsymm : ∀ {a b : Region × ℕ}, ¬ a.1.Meets b.1 → ¬ b.1.Meets a.1 :=
    fun hab => mt Region.meets_comm.1 hab
  rw [Partition.order, (Partition.sort_perm _).pairwise_iff hsymm]
  have hfst : (writes.toList.zipIdx).map Prod.fst = writes.toList := List.zipIdx_map_fst _ _
  rw [← hfst, List.pairwise_map] at h
  exact h

theorem Separate.exists_granted {bytes : Array UInt8} {writes : Vector Region n}
    (h : Separate bytes writes) :
    ∃ p, Partition.ofRegions? bytes writes = .ok p ∧ Granted bytes writes p := by
  have hmem : ∀ {r : Region × ℕ}, r ∈ Partition.order writes → r.1 ∈ writes.toList := by
    intro r hr
    obtain ⟨hi, hget⟩ := Partition.mem_order.1 (show (r.1, r.2) ∈ Partition.order writes from hr)
    rw [← hget]
    simp
  have hmem' : ∀ {w : Region}, w ∈ writes.toList → ∃ i, (w, i) ∈ Partition.order writes := by
    intro w hw
    obtain ⟨i, hi, rfl⟩ := List.mem_iff_getElem.1 hw
    exact ⟨i, Partition.mem_order.2 ⟨by simpa using hi, by simp⟩⟩
  obtain ⟨pieces, gaps, hcut, hserved⟩ := exists_cut?
    (Partition.sort_sorted writes.toList.zipIdx) (pairwise_order h.apart)
    (fun r hr => h.within _ (hmem hr)) (fun r _ => Nat.zero_le r.1.offset)
  have hcheck : checkDisjoint writes.toList [] = .ok () :=
    checkDisjoint_eq_ok_iff.2 ⟨h.apart, by simp⟩
  have hcut' : cut? bytes.size (Partition.order writes) 0 bytes = .ok (pieces, gaps) := by
    rw [Array.extract_size] at hcut
    exact hcut
  have hgrant : ∃ p, Partition.ofRegions? bytes writes = .ok p ∧ p.gaps = gaps ∧
      p.total = bytes.size := by
    rw [Partition.ofRegions?, hcheck, hcut']
    exact ⟨_, rfl, rfl, rfl⟩
  obtain ⟨p, hp, hgaps, htotal⟩ := hgrant
  refine ⟨p, hp, Partition.carved_of_ofRegions? hp, ?_, ?_⟩
  · intro r hr hfree
    obtain ⟨g, hg, hgap⟩ := hserved r hr (Nat.zero_le _) fun w hw => hfree _ (hmem hw)
    have hread : ∃ data, p.read? r = .ok data := by
      rw [Partition.read?, htotal, if_neg (Nat.not_lt.2 hr.stop_le)]
      cases hfind : p.gaps.find? fun g => decide (g.start ≤ r.offset ∧
          r.stop ≤ g.start + g.bytes.size) with
      | none =>
        rw [hgaps] at hfind
        exact absurd hgap (by simpa using List.find?_eq_none.1 hfind g hg)
      | some g => exact ⟨_, rfl⟩
    obtain ⟨data, hdata⟩ := hread
    rw [hdata, (Partition.of_read? (Partition.carved_of_ofRegions? hp) hdata).1]
  · -- a read comes from one gap, and no gap reaches into a region that is written
    intro r data hread w hw hmeets
    obtain ⟨g, hg, hlow, hhigh⟩ := Partition.exists_gap_of_read? hread
    rw [hgaps] at hg
    obtain ⟨i, hi⟩ := hmem' hw
    have hfree := ((cut?_apart hcut).2 g hg).2 _ hi
    obtain ⟨-, -, hstart, hstop⟩ := hmeets
    simp only at hfree
    omega

theorem Separate.exists_run_onPieces {α : Type} {writes : Vector Region n}
    {edit : Partition n → Edit (Vector (Array UInt8) n) α} {s : Store} {a : α}
    {after : Vector (Array UInt8) n} (h : Separate s.bytes writes)
    (hedit : ∀ p, Granted s.bytes writes p → (edit p).run p.pieces = .ok a after)
    (hsize : ∀ i (hi : i < n), after[i].size = writes[i].length) :
    ∃ s', (Store.onPieces writes edit).run s = .ok a s' ∧
      Frame writes.toList s.bytes s'.bytes ∧
      ∀ i (hi : i < n), writes[i].of s'.bytes = after[i] := by
  obtain ⟨p, hgrant, hp⟩ := h.exists_granted
  refine ⟨⟨putBack s.bytes writes after⟩, ?_, putBack_frame hp.disjoint hsize hp.inside⟩
  rw [Store.onPieces, Edit.run_get_bind, Edit.run_check_bind_ok_iff]
  exact ⟨p, hgrant, Edit.run_within_ok_iff.2 ⟨after, hedit p hp, rfl⟩⟩

theorem exists_run_onPiece {α : Type} {w : Region}
    {edit : Partition 1 → Edit (Vector (Array UInt8) 1) α} {s : Store} {a : α}
    {after : Array UInt8} (hw : w.Within s.bytes)
    (hedit : ∀ p, Granted s.bytes #v[w] p → (edit p).run #v[w.of s.bytes] = .ok a #v[after])
    (hsize : after.size = w.length) :
    ∃ s', (Store.onPieces #v[w] edit).run s = .ok a s' ∧ Frame [w] s.bytes s'.bytes ∧
      w.of s'.bytes = after := by
  have hrun : ∀ p, Granted s.bytes #v[w] p → (edit p).run p.pieces = .ok a #v[after] := by
    intro p hp
    have hpieces : p.pieces = #v[w.of s.bytes] := by
      ext1 i hi
      obtain rfl : i = 0 := by omega
      exact hp.piece_eq 0 hi
    rw [hpieces]
    exact hedit p hp
  obtain ⟨s', hrun, hframe, hof⟩ := hw.separate.exists_run_onPieces hrun (by
    intro i hi
    obtain rfl : i = 0 := by omega
    exact hsize)
  exact ⟨s', hrun, hframe, hof 0 (by decide)⟩

theorem Carved.putBack_pieces {bytes : Array UInt8} {writes : Vector Region n} {p : Partition n}
    (hp : Carved bytes writes p) : putBack bytes writes p.pieces = bytes := by
  obtain ⟨hframe, hof⟩ := putBack_frame hp.disjoint (fun i hi => hp.size_piece hi) hp.inside
  apply Array.ext_getElem?
  intro j
  by_cases hfree : ∀ w ∈ writes.toList, ¬ w.Contains j
  · exact hframe.rest_eq j hfree
  -- a byte of a region is the byte of its piece, which was cut from the same place
  · simp only [not_forall, not_not] at hfree
    obtain ⟨w, hw, hlow, hhigh⟩ := hfree
    obtain ⟨i, hi, rfl⟩ := List.mem_iff_getElem.1 hw
    have hn : i < n := by simpa using hi
    rw [Vector.getElem_toList] at hlow hhigh
    have heq := (hof i hn).trans (hp.piece_eq i hn)
    have hbyte := congrArg (fun bytes : Array UInt8 => bytes[j - writes[i].offset]?) heq
    simp only [Region.getElem?_of] at hbyte
    rw [Region.stop] at hhigh
    rwa [if_pos (by omega), if_pos (by omega), Nat.add_sub_cancel' hlow] at hbyte

theorem refused_or_onPiece {α : Type} {w : Region}
    {edit : Partition 1 → Edit (Vector (Array UInt8) 1) α} {s : Store} {P : Prop}
    (hw : w.Within s.bytes)
    (hedit : ∀ p, Granted s.bytes #v[w] p → Edit.Refused (edit p) p.pieces ∨ P) :
    Edit.Refused (Store.onPieces #v[w] edit) s ∨ P := by
  obtain ⟨p, hgrant, hp⟩ := hw.separate.exists_granted
  rcases hedit p hp with ⟨f, hf, hrun⟩ | hP
  · refine .inl ⟨f, hf, ?_⟩
    have hwithin : (Edit.within (fun _ => p.pieces)
        (fun pieces s => (⟨putBack s.bytes #v[w] pieces⟩ : Store)) (edit p)).run s =
          .error f ⟨putBack s.bytes #v[w] p.pieces⟩ :=
      Edit.run_within_error hrun
    rw [hp.putBack_pieces] at hwithin
    rw [Store.onPieces, Edit.run_get_bind, Edit.run_check_bind, hgrant]
    exact hwithin
  · exact .inr hP

theorem run_asElements_of {α β : Type} {e : Element α} {offset : ℕ} {i : Fin n}
    {edit : Edit (Array α) β} {pieces : Vector (Array UInt8) n} {xs ys : Array α} {b : β}
    (hdecode : e.decodeAll? offset (pieces.get i) = .ok xs) (hedit : edit.run xs = .ok b ys) :
    (asElements e offset i edit).run pieces = .ok b (pieces.set i (e.encodeAll ys) i.isLt) := by
  rw [asElements, Edit.run_get_bind, Edit.run_check_bind_ok_iff]
  exact ⟨xs, hdecode, Edit.run_within_ok hedit⟩

/-- `count` elements of `size` bytes each lie in the store from an aligned offset on, where the end
of the last one can be counted in a word. -/
structure Store.Holds (s : Store) (size offset count : ℕ) : Prop where
  aligned : offset % size = 0
  stop_lt : count * size + offset < wordLimit
  stop_le : count * size + offset ≤ s.size

theorem checkDisjoint_ne_outOfRange {writes reads : List Region} {f : Fault}
    (h : checkDisjoint writes reads = .error f) : f ≠ .outOfRange := by
  induction writes with
  | nil => cases h
  | cons w writes ih =>
    rw [checkDisjoint] at h
    split at h
    · cases h
      simp
    · exact ih h

namespace Store
variable {s : Store} {size offset count : ℕ}

theorem region?_ne_outOfRange {f : Fault} (h : s.region? size offset count = .error f) :
    f ≠ .outOfRange := by
  rw [region?] at h
  split_ifs at h <;> cases h <;> simp [outside]

theorem region?_ok_iff_holds {r : Region} : s.region? size offset count = .ok r ↔
    s.Holds size offset count ∧ r = ⟨offset, count * size⟩ := by
  rw [region?_eq_ok_iff]
  constructor
  · rintro ⟨haligned, hlt, hle, rfl⟩
    exact ⟨⟨haligned, hlt, hle⟩, rfl⟩
  · rintro ⟨⟨haligned, hlt, hle⟩, rfl⟩
    exact ⟨haligned, hlt, hle, rfl⟩

theorem holds_iff (hs : s.size < wordLimit) :
    s.Holds size offset count ↔ offset % size = 0 ∧ offset + count * size ≤ s.size := by
  constructor
  · rintro ⟨haligned, -, hle⟩
    exact ⟨haligned, by omega⟩
  · rintro ⟨haligned, hle⟩
    exact ⟨haligned, by omega, by omega⟩

theorem Holds.of_frame {s' : Store} {regions : List Region} (h : s.Holds size offset count)
    (hframe : Frame regions s.bytes s'.bytes) : s'.Holds size offset count := by
  refine ⟨h.aligned, h.stop_lt, ?_⟩
  have hle := h.stop_le
  rw [Store.size] at hle ⊢
  rwa [hframe.size_eq]

theorem Holds.region?_eq (h : s.Holds size offset count) :
    s.region? size offset count = .ok ⟨offset, count * size⟩ :=
  region?_ok_iff_holds.2 ⟨h, rfl⟩

theorem Holds.within (h : s.Holds size offset count) (hpos : 0 < count * size) :
    Region.Within ⟨offset, count * size⟩ s.bytes := by
  refine ⟨hpos, ?_⟩
  have hle := h.stop_le
  rw [Store.size] at hle
  simp only [Region.stop]
  omega

theorem Holds.bytes_within {e : Extent} (h : s.Holds 1 offset e.bytes) :
    Region.Within ⟨offset, e.bytes⟩ s.bytes := by
  have hpos : 0 < e.bytes := Nat.mul_pos e.pixels_pos (by decide)
  simpa using h.within (by omega)

theorem Holds.plane_within {e : Extent} (h : s.Holds 2 offset e.pixels) :
    Region.Within ⟨offset, e.pixels * 2⟩ s.bytes := by
  have hpos := e.pixels_pos
  exact h.within (by omega)

theorem refused_or_region {α : Type} {k : Region → Edit Store α} {P : Prop}
    (hk : s.Holds size offset count → Edit.Refused (k ⟨offset, count * size⟩) s ∨ P) :
    Edit.Refused (liftM (s.region? size offset count) >>= k : Edit Store α) s ∨ P := by
  refine Edit.refused_or_check (fun _ => region?_ne_outOfRange) fun r hr => ?_
  obtain ⟨hholds, rfl⟩ := region?_ok_iff_holds.1 hr
  exact hk hholds

end Store

namespace Element
variable {α : Type} {e : Element α}

theorem decodeAll?_ne_outOfRange {offset : ℕ} {bytes : Array UInt8} {f : Fault}
    (h : e.decodeAll? offset bytes = .error f) : f ≠ .outOfRange := by
  rw [decodeAll?] at h
  split_ifs at h
  cases h
  simp

theorem exists_decodeAll? {offset : ℕ} {bytes : Array UInt8} (hoffset : offset % e.size = 0)
    (hwhole : bytes.size % e.size = 0) : ∃ xs, e.decodeAll? offset bytes = .ok xs := by
  rw [decodeAll?, if_pos ⟨hoffset, hwhole⟩]
  exact ⟨_, rfl⟩

theorem exists_elements {s : Store} {offset count : ℕ} (he : 0 < e.size)
    (h : s.Holds e.size offset count) :
    ∃ xs, e.decodeAll? offset (Region.of ⟨offset, count * e.size⟩ s.bytes) = .ok xs ∧
      xs.size = count := by
  have hsize : (Region.of ⟨offset, count * e.size⟩ s.bytes).size = count * e.size := by
    apply Region.size_of
    have hle := h.stop_le
    rw [Store.size] at hle
    simp only [Region.stop]
    omega
  obtain ⟨xs, hxs⟩ := exists_decodeAll? (e := e) h.aligned
    (show (Region.of ⟨offset, count * e.size⟩ s.bytes).size % e.size = 0 by
      rw [hsize]; exact Nat.mul_mod_left ..)
  refine ⟨xs, hxs, ?_⟩
  rw [size_of_decodeAll? hxs, hsize]
  exact Nat.mul_div_cancel _ he

theorem exists_samples {s : Store} {offset count : ℕ} (h : s.Holds 2 offset count) :
    ∃ xs, sample.decodeAll? offset (Region.of ⟨offset, count * 2⟩ s.bytes) = .ok xs ∧
      xs.size = count :=
  exists_elements (e := sample) (by decide) h

theorem exists_weights {s : Store} {offset count : ℕ} (h : s.Holds 2 offset count) :
    ∃ xs, weight.decodeAll? offset (Region.of ⟨offset, count * 2⟩ s.bytes) = .ok xs ∧
      xs.size = count :=
  exists_elements (e := weight) (by decide) h

end Element

end FixedRaster.Memory
