import Mathlib
import FixedRaster.Proofs.Grammar
import FixedRaster.Proofs.Grid
import FixedRaster.Resize.Pass

/-!
# What a pass writes

A pass writes one pixel for every row of taps and every line. The places are distinct and fill the
front of the buffer, so each pixel keeps the value it is given and what lies behind is not touched.
-/

namespace FixedRaster.Resize
variable {α β : Type}

theorem putQuad?_writes {xs : Array α} {p : ℕ} (v : Channel → α) (h : p * 4 + 3 < xs.size) :
    ∃ ys, putQuad? xs p v = some ys ∧ ys.size = xs.size ∧
      (∀ c : Channel, ys[p * 4 + c]? = some (v c)) ∧ ∀ i, i / 4 ≠ p → ys[i]? = xs[i]? := by
  obtain ⟨ys0, h0⟩ : ∃ ys, put? xs (p * 4) (v 0) = some ys := ⟨_, put?_of_lt (by omega) _⟩
  have s0 := size_put? h0
  obtain ⟨ys1, h1⟩ : ∃ ys, put? ys0 (p * 4 + 1) (v 1) = some ys := ⟨_, put?_of_lt (by omega) _⟩
  have s1 := size_put? h1
  obtain ⟨ys2, h2⟩ : ∃ ys, put? ys1 (p * 4 + 2) (v 2) = some ys := ⟨_, put?_of_lt (by omega) _⟩
  have s2 := size_put? h2
  obtain ⟨ys3, h3⟩ : ∃ ys, put? ys2 (p * 4 + 3) (v 3) = some ys := ⟨_, put?_of_lt (by omega) _⟩
  have s3 := size_put? h3
  have hget (i : ℕ) : ys3[i]? =
      if p * 4 + 3 = i then some (v 3) else if p * 4 + 2 = i then some (v 2)
      else if p * 4 + 1 = i then some (v 1) else if p * 4 = i then some (v 0) else xs[i]? := by
    rw [getElem?_put? h3, getElem?_put? h2, getElem?_put? h1, getElem?_put? h0]
  refine ⟨ys3, ?_, by omega, ?_, ?_⟩
  · simp [putQuad?, h0, h1, h2, h3]
  · intro c
    rw [hget]
    fin_cases c <;> simp
  · intro i hi
    rw [hget, if_neg (by omega), if_neg (by omega), if_neg (by omega), if_neg (by omega)]

theorem foldlM_putQuad? (place : β → ℕ) (value : β → Channel → α)
    (step : Array α → β → Option (Array α)) (cells : List β) (out : Array α)
    (hstep : ∀ b ∈ cells, ∀ out, step out b = putQuad? out (place b) (value b))
    (hne : cells.Pairwise fun a b => place a ≠ place b)
    (hin : ∀ b ∈ cells, place b * 4 + 3 < out.size) :
    ∃ out', cells.foldlM step out = some out' ∧ out'.size = out.size ∧
      (∀ b ∈ cells, ∀ c : Channel, out'[place b * 4 + c]? = some (value b c)) ∧
      ∀ i, (∀ b ∈ cells, i / 4 ≠ place b) → out'[i]? = out[i]? := by
  induction cells generalizing out with
  | nil => exact ⟨out, rfl, rfl, by simp, fun i _ => rfl⟩
  | cons b cells ih =>
    obtain ⟨hhead, htail⟩ := List.pairwise_cons.1 hne
    obtain ⟨mid, hput, hsize, hquad, hkeep⟩ :=
      putQuad?_writes (value b) (hin b (List.mem_cons_self ..))
    obtain ⟨out', hfold, hsize', hcells, hrest⟩ := ih mid
      (fun a ha => hstep a (List.mem_cons_of_mem b ha)) htail
      (fun a ha => by rw [hsize]; exact hin a (List.mem_cons_of_mem b ha))
    refine ⟨out', ?_, hsize'.trans hsize, ?_, ?_⟩
    · rw [List.foldlM_cons, hstep b (List.mem_cons_self ..), hput]
      exact hfold
    · intro a ha c
      rcases List.mem_cons.1 ha with rfl | ha
      · have hc := c.isLt
        rw [hrest _ fun b hb => by have := hhead b hb; omega]
        exact hquad c
      · exact hcells a ha c
    · intro i hi
      rw [hrest i fun a ha => hi a (List.mem_cons_of_mem b ha)]
      exact hkeep i (hi b (List.mem_cons_self ..))

theorem foldlM_product {γ : Type} (as : List β) (bs : List γ) (out : α)
    (step : α → β → γ → Option α) :
    (as ×ˢ bs).foldlM (fun out p => step out p.1 p.2) out =
      as.foldlM (fun out a => bs.foldlM (fun out b => step out a b) out) out := by
  induction as generalizing out with
  | nil => rfl
  | cons a as ih =>
    rw [List.product_cons, List.foldlM_append, List.foldlM_map, List.foldlM_cons]
    simp only [ih]

/-- The front of a buffer holds the value of each row of taps on each line. -/
structure Rendered (rows : List Taps) (lines : ℕ) (value : ℕ → Taps → Channel → α)
    (before after : Array α) : Prop where
  size_eq : after.size = before.size
  pixel_eq : ∀ (x : ℕ) (t : Taps), rows[x]? = some t → ∀ y < lines, ∀ c : Channel,
    after[(x * lines + y) * 4 + c]? = some (value y t c)
  behind_eq : ∀ i, rows.length * lines * 4 ≤ i → after[i]? = before[i]?

theorem exists_channel {rows lines i : ℕ} (h : i < rows * lines * 4) :
    ∃ x < rows, ∃ y < lines, ∃ c : Channel, i = (x * lines + y) * 4 + c := by
  obtain ⟨p, hp, c, hc, rfl⟩ := exists_place h
  obtain ⟨x, hx, y, hy, rfl⟩ := exists_place hp
  exact ⟨x, hx, y, hy, ⟨c, hc⟩, rfl⟩

theorem pass?_rendered {lines length : ℕ} {rows : List Taps} (value : ℕ → Taps → Channel → α)
    {out : Array α} (hfit : ∀ t ∈ rows, t.stop ≤ length)
    (hsize : rows.length * lines * 4 ≤ out.size) :
    ∃ out', pass? lines length rows (fun x y => x * lines + y) value out = some out' ∧
      Rendered rows lines value out out' := by
  let cells := List.range lines ×ˢ rows.zipIdx
  have hmem : ∀ p ∈ cells, p.1 < lines ∧ rows[p.2.2]? = some p.2.1 := by
    intro p hp
    obtain ⟨hl, hr⟩ := List.mem_product.1 hp
    exact ⟨List.mem_range.1 hl, List.mem_zipIdx_iff_getElem?.1 hr⟩
  have hlt : ∀ p ∈ cells, p.2.2 * lines + p.1 < rows.length * lines := by
    intro p hp
    obtain ⟨hl, hr⟩ := hmem p hp
    exact place_lt (List.getElem?_eq_some_iff.1 hr).1 hl
  have hne : cells.Pairwise fun p q => p.2.2 * lines + p.1 ≠ q.2.2 * lines + q.1 := by
    have hnodup : cells.Nodup :=
      List.nodup_range.product (List.Nodup.of_map Prod.snd (List.nodup_zipIdx_map_snd rows))
    refine hnodup.imp_of_mem ?_
    intro p q hp hq hpq heq
    obtain ⟨hl, hr⟩ := hmem p hp
    obtain ⟨hl', hr'⟩ := hmem q hq
    obtain ⟨hx, hy⟩ := place_inj hl hl' heq
    rw [hx, hr'] at hr
    exact hpq (Prod.ext hy (Prod.ext (Option.some.inj hr).symm hx))
  obtain ⟨out', hfold, hsize', hcells, hrest⟩ := foldlM_putQuad?
    (fun p : ℕ × Taps × ℕ => p.2.2 * lines + p.1) (fun p => value p.1 p.2.1)
    (fun out p => do
      guard (p.2.1.stop ≤ length)
      putQuad? out (p.2.2 * lines + p.1) (value p.1 p.2.1))
    cells out
    (by
      intro p hp out
      have hle := hfit p.2.1 (List.mem_of_getElem? (hmem p hp).2)
      simp [hle])
    hne (fun p hp => by have := hlt p hp; omega)
  refine ⟨out', ?_, hsize', ?_, ?_⟩
  · rw [← hfold]
    exact (foldlM_product (List.range lines) rows.zipIdx out _).symm
  · intro x t hx y hy c
    exact hcells (y, t, x)
      (List.mem_product.2 ⟨List.mem_range.2 hy, List.mem_zipIdx_iff_getElem?.2 hx⟩) c
  · intro i hi
    exact hrest i fun p hp => by have := hlt p hp; omega

end FixedRaster.Resize
