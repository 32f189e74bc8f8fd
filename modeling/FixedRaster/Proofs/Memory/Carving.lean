import Mathlib
import FixedRaster.Memory.Store
import FixedRaster.Proofs.Checks

/-!
# What a partition hands out

A partition that is granted hands out the bytes of each region as they are in the store, and serves
what is read from the gaps between them. Pieces that are laid back replace the bytes of their
regions and no others.
-/

namespace FixedRaster.Memory

def Region.of (r : Region) (bytes : Array UInt8) : Array UInt8 := bytes.extract r.offset r.stop

theorem Region.getElem?_of (r : Region) (bytes : Array UInt8) (i : ℕ) :
    (r.of bytes)[i]? = if i < r.length then bytes[r.offset + i]? else none := by
  rw [Region.of, Region.stop]
  rw [Array.getElem?_extract]
  by_cases hi : i < r.length
  · by_cases hin : r.offset + i < bytes.size
    · rw [if_pos (by omega), if_pos hi]
    · rw [if_neg (by omega), if_pos hi, Array.getElem?_eq_none (by omega)]
  · rw [if_neg (by omega), if_neg hi]

theorem Region.size_of {r : Region} {bytes : Array UInt8} (h : r.stop ≤ bytes.size) :
    (r.of bytes).size = r.length := by
  rw [Region.of]
  rw [Array.size_extract]
  simp only [Region.stop] at h ⊢
  omega

theorem Region.of_front (bytes : Array UInt8) {offset count length : ℕ} (h : count ≤ length) :
    Region.of ⟨offset, count⟩ bytes = (Region.of ⟨offset, length⟩ bytes).extract 0 count := by
  have hmin : min (offset + count) (offset + length) = offset + count := by omega
  rw [Region.of, Region.of, Region.stop, Region.stop, Array.extract_extract, hmin, Nat.add_zero]

/-- The stores have one size and agree outside the regions. -/
structure Frame (regions : List Region) (before after : Array UInt8) : Prop where
  size_eq : after.size = before.size
  rest_eq : ∀ i, (∀ r ∈ regions, ¬ r.Contains i) → after[i]? = before[i]?

namespace Frame
variable {regions others : List Region} {a b c : Array UInt8}

theorem refl (regions : List Region) (bytes : Array UInt8) : Frame regions bytes bytes :=
  ⟨rfl, fun _ _ => rfl⟩

theorem trans (h : Frame regions a b) (h' : Frame regions b c) : Frame regions a c := by
  refine ⟨h'.size_eq.trans h.size_eq, ?_⟩
  intro i hi
  exact (h'.rest_eq i hi).trans (h.rest_eq i hi)

theorem mono (h : Frame regions a b) (hsub : regions ⊆ others) : Frame others a b := by
  refine ⟨h.size_eq, ?_⟩
  intro i hi
  exact h.rest_eq i fun r hr => hi r (hsub hr)

theorem of_eq (h : Frame regions a b) {r : Region} (hr : ∀ w ∈ regions, ¬ w.Meets r) :
    r.of b = r.of a := by
  apply Array.ext_getElem?
  intro i
  rw [Region.getElem?_of, Region.getElem?_of]
  by_cases hi : i < r.length
  · rw [if_pos hi, if_pos hi]
    apply h.rest_eq
    intro w hw hcontains
    apply hr w hw
    exact Region.meets_iff.2 ⟨_, hcontains, by unfold Region.Contains Region.stop; omega⟩
  · rw [if_neg hi, if_neg hi]

theorem widen {offset count length : ℕ} (h : Frame [⟨offset, count⟩] a b)
    (hcount : count ≤ length) : Frame [⟨offset, length⟩] a b := by
  refine ⟨h.size_eq, ?_⟩
  intro i hi
  apply h.rest_eq
  simp only [List.mem_singleton, forall_eq, Region.Contains, Region.stop] at hi ⊢
  omega

theorem of_front {offset count length : ℕ} (h : Frame [⟨offset, count⟩] a b)
    (hcount : count ≤ length) (hin : offset + length ≤ a.size) :
    Region.of ⟨offset, length⟩ b =
      overlay (Region.of ⟨offset, count⟩ b) (Region.of ⟨offset, length⟩ a) := by
  have hsize := h.size_eq
  have hlength : (Region.of ⟨offset, length⟩ a).size = length := Region.size_of hin
  have hfront : (Region.of ⟨offset, count⟩ b).size = count :=
    Region.size_of (by simp only [Region.stop]; omega)
  apply Array.ext_getElem?
  intro i
  rw [getElem?_overlay (by omega), hfront, Region.getElem?_of, Region.getElem?_of,
    Region.getElem?_of]
  by_cases hi : i < count
  · rw [if_pos hi, if_pos hi, if_pos (show i < length by omega)]
  · rw [if_neg hi]
    split_ifs with hlong
    · apply h.rest_eq
      simp only [List.mem_singleton, forall_eq, Region.Contains, Region.stop]
      omega
    · rfl

theorem of_eq_pair {w v r : Region} (h : Frame [w, v] a b) (hw : ¬ w.Meets r) (hv : ¬ v.Meets r) :
    r.of b = r.of a := by
  apply h.of_eq
  intro q hq
  rcases List.mem_pair.1 hq with rfl | rfl
  · exact hw
  · exact hv

end Frame

theorem frame_splice {r : Region} {bytes piece : Array UInt8} (hpiece : piece.size = r.length)
    (hr : r.stop ≤ bytes.size) :
    Frame [r] bytes (splice bytes r.offset piece) ∧ r.of (splice bytes r.offset piece) = piece := by
  rw [Region.stop] at hr
  have hfit : r.offset + piece.size ≤ bytes.size := by omega
  refine ⟨⟨size_splice hfit, ?_⟩, ?_⟩
  · intro i hi
    have hout : ¬ r.Contains i := hi r (List.mem_singleton_self r)
    rw [Region.Contains, Region.stop] at hout
    rw [getElem?_splice hfit, if_neg (by omega)]
  · apply Array.ext_getElem?
    intro i
    rw [Region.getElem?_of, getElem?_splice hfit]
    by_cases hi : i < r.length
    · rw [if_pos hi, if_pos (by omega), Nat.add_sub_cancel_left]
    · rw [if_neg hi, Array.getElem?_eq_none (by omega)]

theorem foldl_splice (L : List (Region × Array UInt8)) (bytes : Array UInt8)
    (hne : L.Pairwise fun a b => ¬ a.1.Meets b.1) (hsize : ∀ a ∈ L, a.2.size = a.1.length)
    (hin : ∀ a ∈ L, a.1.stop ≤ bytes.size) :
    Frame (L.map Prod.fst) bytes (L.foldl (fun bytes a => splice bytes a.1.offset a.2) bytes) ∧
      ∀ a ∈ L, a.1.of (L.foldl (fun bytes a => splice bytes a.1.offset a.2) bytes) = a.2 := by
  induction L generalizing bytes with
  | nil => exact ⟨.refl _ _, by simp⟩
  | cons a L ih =>
    obtain ⟨hhead, htail⟩ := List.pairwise_cons.1 hne
    have hmem : a ∈ a :: L := List.mem_cons_self ..
    obtain ⟨hframe, hpiece⟩ := frame_splice (hsize a hmem) (hin a hmem)
    obtain ⟨hrest, hpieces⟩ := ih (splice bytes a.1.offset a.2) htail
      (fun b hb => hsize b (List.mem_cons_of_mem a hb))
      (fun b hb => by rw [hframe.size_eq]; exact hin b (List.mem_cons_of_mem a hb))
    rw [List.foldl_cons, List.map_cons]
    refine ⟨(hframe.mono (by simp)).trans (hrest.mono (by simp)), ?_⟩
    intro b hb
    rcases List.mem_cons.1 hb with rfl | hb
    · rw [hrest.of_eq, hpiece]
      intro w hw
      obtain ⟨v, hv, rfl⟩ := List.mem_map.1 hw
      rw [Region.meets_comm]
      exact hhead v hv
    · exact hpieces b hb

variable {n : ℕ}

theorem putBack_frame {bytes : Array UInt8} {writes : Vector Region n}
    {pieces : Vector (Array UInt8) n}
    (hne : writes.toList.Pairwise fun w v => ¬ w.Meets v)
    (hsize : ∀ i (hi : i < n), pieces[i].size = writes[i].length)
    (hin : ∀ i (hi : i < n), writes[i].stop ≤ bytes.size) :
    Frame writes.toList bytes (putBack bytes writes pieces) ∧
      ∀ i (hi : i < n), writes[i].of (putBack bytes writes pieces) = pieces[i] := by
  have hfst : (writes.toList.zip pieces.toList).map Prod.fst = writes.toList :=
    List.map_fst_zip (by simp)
  have hcell : ∀ a ∈ writes.toList.zip pieces.toList, ∃ i, ∃ hi : i < n,
      a = (writes[i], pieces[i]) := by
    intro a ha
    obtain ⟨i, hi, rfl⟩ := List.mem_iff_getElem.1 ha
    have hn : i < n := by simpa using hi
    exact ⟨i, hn, by simp⟩
  have hfold := foldl_splice (writes.toList.zip pieces.toList) bytes
    (by rw [← hfst, List.pairwise_map] at hne; exact hne)
    (by
      intro a ha
      obtain ⟨i, hi, rfl⟩ := hcell a ha
      exact hsize i hi)
    (by
      intro a ha
      obtain ⟨i, hi, rfl⟩ := hcell a ha
      exact hin i hi)
  rw [hfst] at hfold
  refine ⟨hfold.1, ?_⟩
  intro i hi
  apply hfold.2 (writes[i], pieces[i])
  exact List.mem_iff_getElem.2 ⟨i, by simpa using hi, by simp⟩

/-- What a partition that was granted hands out of a store. -/
structure Carved (bytes : Array UInt8) (writes : Vector Region n) (p : Partition n) : Prop where
  disjoint : writes.toList.Pairwise fun w v => ¬ w.Meets v
  inside : ∀ i (hi : i < n), writes[i].stop ≤ bytes.size
  piece_eq : ∀ i (hi : i < n), p.pieces[i] = writes[i].of bytes
  gap_eq : ∀ g ∈ p.gaps, g.bytes = bytes.extract g.start (g.start + g.bytes.size)
  total_eq : p.total = bytes.size

theorem extract_rest {bytes : Array UInt8} {start i j : ℕ} (hi : start ≤ i) (hij : i ≤ j)
    (hj : j ≤ bytes.size) :
    (bytes.extract start).extract (i - start) (j - start) = bytes.extract i j := by
  rw [Array.extract_extract, Nat.add_sub_cancel' hi, Nat.add_sub_cancel' (hi.trans hij),
    Nat.min_eq_left hj]

theorem cut?_cons_ok_iff {bytes : Array UInt8} {r : Region} {number : ℕ}
    {regions : List (Region × ℕ)} {start : ℕ} {pieces : List (ℕ × Array UInt8)} {gaps : List Gap} :
    cut? bytes.size ((r, number) :: regions) start (bytes.extract start) = .ok (pieces, gaps) ↔
      start ≤ r.offset ∧ r.stop ≤ bytes.size ∧
      ∃ more gaps', cut? bytes.size regions r.stop (bytes.extract r.stop) = .ok (more, gaps') ∧
        pieces = (number, r.of bytes) :: more ∧
        gaps = ⟨start, bytes.extract start r.offset⟩ :: gaps' := by
  rw [cut?]
  by_cases hstop : bytes.size < r.stop
  · rw [if_pos hstop]
    simp [hstop]
  · rw [if_neg hstop]
    by_cases hstart : r.offset < start
    · rw [if_pos hstart]
      simp [hstart]
    · rw [if_neg hstart]
      have hin : r.stop ≤ bytes.size := Nat.le_of_not_lt hstop
      have hbehind : start ≤ r.offset := Nat.le_of_not_lt hstart
      have hle : r.offset ≤ r.stop := Nat.le_add_right ..
      have hsize : (bytes.extract start).size = bytes.size - start := by simp
      have hpiece : (bytes.extract start).extract (r.offset - start) (r.stop - start) =
          r.of bytes :=
        extract_rest hbehind hle hin
      have hgap : (bytes.extract start).extract 0 (r.offset - start) =
          bytes.extract start r.offset := by
        rw [← Nat.sub_self start]
        exact extract_rest le_rfl hbehind (hle.trans hin)
      have hrest : (bytes.extract start).extract (r.stop - start) (bytes.size - start) =
          bytes.extract r.stop :=
        extract_rest (hbehind.trans hle) hin le_rfl
      rw [hsize, hrest, hpiece, hgap]
      cases cut? bytes.size regions r.stop (bytes.extract r.stop) with
      | error f => simp [bind, Except.bind]
      | ok cut =>
        obtain ⟨more, gaps'⟩ := cut
        simp [bind, Except.bind, pure, Except.pure, hbehind, hin, eq_comm]

theorem cut?_bytes {bytes : Array UInt8} {regions : List (Region × ℕ)} {start : ℕ}
    {pieces : List (ℕ × Array UInt8)} {gaps : List Gap}
    (h : cut? bytes.size regions start (bytes.extract start) = .ok (pieces, gaps)) :
    pieces = regions.map (fun r => (r.2, r.1.of bytes)) ∧
      (∀ g ∈ gaps, g.bytes = bytes.extract g.start (g.start + g.bytes.size)) ∧
      ∀ r ∈ regions, r.1.stop ≤ bytes.size := by
  induction regions generalizing start pieces gaps with
  | nil =>
    cases h
    refine ⟨rfl, ?_, by simp⟩
    intro g hg
    obtain rfl := List.mem_singleton.1 hg
    apply Array.ext_getElem?
    intro i
    simp only [Array.getElem?_extract, Array.size_extract]
    congr 1
    exact propext ⟨fun _ => by omega, fun _ => by omega⟩
  | cons r regions ih =>
    obtain ⟨r, number⟩ := r
    obtain ⟨hbehind, hin, more, gaps', hmore, rfl, rfl⟩ := cut?_cons_ok_iff.1 h
    obtain ⟨rfl, hgaps, hall⟩ := ih hmore
    refine ⟨rfl, ?_, ?_⟩
    · intro g hg
      rcases List.mem_cons.1 hg with rfl | hg
      · have hlen : (bytes.extract start r.offset).size = r.offset - start := by
          have hle : r.offset ≤ r.stop := Nat.le_add_right ..
          rw [Array.size_extract]
          omega
        rw [hlen, Nat.add_sub_cancel' hbehind]
      · exact hgaps g hg
    · intro q hq
      rcases List.mem_cons.1 hq with rfl | hq
      · exact hin
      · exact hall q hq

theorem getElem_foldl_set {β : Type} {L : List (ℕ × β)} {all : Vector β n} {i : ℕ} (hi : i < n)
    {v : β} (hL : ∀ p ∈ L, p.1 = i → p.2 = v) (hsome : all[i] = v ∨ ∃ p ∈ L, p.1 = i) :
    (L.foldl (fun all p => all.setIfInBounds p.1 p.2) all)[i] = v := by
  induction L generalizing all with
  | nil =>
    rcases hsome with h | ⟨p, hp, -⟩
    · exact h
    · cases hp
  | cons p L ih =>
    rw [List.foldl_cons]
    apply ih fun q hq => hL q (List.mem_cons_of_mem p hq)
    rw [Vector.getElem_setIfInBounds]
    by_cases hp : p.1 = i
    · rw [if_pos hp]
      exact .inl (hL p (List.mem_cons_self ..) hp)
    · rw [if_neg hp]
      rcases hsome with h | ⟨q, hq, hqi⟩
      · exact .inl h
      · rcases List.mem_cons.1 hq with rfl | hq
        · exact absurd hqi hp
        · exact .inr ⟨q, hq, hqi⟩

namespace Partition

theorem mem_order {writes : Vector Region n} {r : Region} {i : ℕ} :
    (r, i) ∈ order writes ↔ ∃ hi : i < n, writes[i] = r := by
  rw [order]
  rw [(sort_perm _).mem_iff, List.mem_zipIdx_iff_getElem?, List.getElem?_eq_some_iff]
  simp

theorem carved_of_ofRegions? {bytes : Array UInt8} {writes : Vector Region n} {p : Partition n}
    (h : ofRegions? bytes writes = .ok p) : Carved bytes writes p := by
  rw [ofRegions?] at h
  cases hcheck : checkDisjoint writes.toList [] with
  | error f =>
    rw [hcheck] at h
    cases h
  | ok u =>
  cases hcut : cut? bytes.size (order writes) 0 bytes with
  | error f =>
    rw [hcheck, hcut] at h
    cases h
  | ok cut =>
    obtain ⟨pieces, gaps⟩ := cut
    rw [hcheck, hcut] at h
    cases h
    have hcut' : cut? bytes.size (order writes) 0 (bytes.extract 0) = .ok (pieces, gaps) := by
      rw [Array.extract_size]
      exact hcut
    obtain ⟨hpieces, hgaps, hin⟩ := cut?_bytes hcut'
    constructor
    case disjoint => exact (checkDisjoint_eq_ok_iff.1 hcheck).1
    case inside =>
      intro i hi
      exact hin (writes[i], i) (mem_order.2 ⟨hi, rfl⟩)
    case piece_eq =>
      intro i hi
      apply getElem_foldl_set hi
      · intro q hq hqi
        rw [hpieces] at hq
        obtain ⟨⟨r, j⟩, hr, rfl⟩ := List.mem_map.1 hq
        obtain ⟨hj, rfl⟩ := mem_order.1 hr
        simp only at hqi
        subst hqi
        rfl
      · refine .inr ⟨(i, writes[i].of bytes), ?_, rfl⟩
        rw [hpieces]
        exact List.mem_map.2 ⟨(writes[i], i), mem_order.2 ⟨hi, rfl⟩, rfl⟩
    case gap_eq => exact hgaps
    case total_eq => rfl

theorem of_read? {bytes : Array UInt8} {writes : Vector Region n} {p : Partition n} {r : Region}
    {data : Array UInt8} (hp : Carved bytes writes p) (h : p.read? r = .ok data) :
    data = r.of bytes ∧ r.stop ≤ bytes.size := by
  rw [read?] at h
  split_ifs at h with hstop
  cases hfind : p.gaps.find? fun g => decide (g.start ≤ r.offset ∧
      r.stop ≤ g.start + g.bytes.size) with
  | none =>
    rw [hfind] at h
    cases h
  | some g =>
    rw [hfind] at h
    cases h
    have hin := List.find?_some hfind
    simp only [decide_eq_true_eq] at hin
    have hle : r.offset ≤ r.stop := Nat.le_add_right ..
    have htotal := hp.total_eq
    refine ⟨?_, by omega⟩
    rw [hp.gap_eq g (List.mem_of_find?_eq_some hfind), Array.extract_extract,
      Nat.add_sub_cancel' hin.1, Nat.add_sub_cancel' (hin.1.trans hle), Nat.min_eq_left hin.2]
    rfl

end Partition

theorem Carved.size_piece {bytes : Array UInt8} {writes : Vector Region n} {p : Partition n}
    (hp : Carved bytes writes p) {i : ℕ} (hi : i < n) : p.pieces[i].size = writes[i].length := by
  rw [hp.piece_eq i hi]
  exact Region.size_of (hp.inside i hi)

theorem run_onPieces_ok {α : Type} {writes : Vector Region n}
    {edit : Partition n → Edit (Vector (Array UInt8) n) α} {s s' : Store} {a : α}
    (h : (Store.onPieces writes edit).run s = .ok a s') :
    ∃ p pieces, Carved s.bytes writes p ∧ (edit p).run p.pieces = .ok a pieces ∧
      ((∀ i (hi : i < n), pieces[i].size = p.pieces[i].size) →
        Frame writes.toList s.bytes s'.bytes ∧
          ∀ i (hi : i < n), writes[i].of s'.bytes = pieces[i]) := by
  rw [Store.onPieces] at h
  rw [Edit.run_get_bind, Edit.run_check_bind_ok_iff] at h
  obtain ⟨p, hgrant, hwithin⟩ := h
  obtain ⟨pieces, hrun, hput⟩ := Edit.run_within_ok_iff.1 hwithin
  have hp := Partition.carved_of_ofRegions? hgrant
  refine ⟨p, pieces, hp, hrun, ?_⟩
  intro hsize
  rw [← hput]
  apply putBack_frame hp.disjoint _ hp.inside
  intro i hi
  rw [hsize i hi, hp.size_piece hi]

end FixedRaster.Memory
