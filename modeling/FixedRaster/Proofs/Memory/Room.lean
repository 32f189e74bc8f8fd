import Mathlib
import FixedRaster.Proofs.Memory.Resizing
import FixedRaster.Proofs.Refusals

/-!
# Room for the intermediate image

A resize asks for all the samples that lie between its two passes, or it breaks off before it
writes. It breaks off exactly where their number has no word and the checks before have passed.
Behind all checks no pass runs past a buffer. This holds on arrays and on a store alike.
-/

namespace FixedRaster
variable {sourceWidth sourceHeight targetWidth targetHeight : UInt32} {source target : Extent}
  {withAlpha : Bool}

namespace Resize
variable {image : Array UInt8} {horizontal vertical : List Int16} {canvas after : Canvas}

theorem large_of_run
    (hrun : (resample image horizontal vertical sourceWidth sourceHeight targetWidth targetHeight
      withAlpha).run canvas = .error .outOfRange after) :
    2 ^ 64 ≤ 4 * sourceHeight.toNat * targetWidth.toNat := by
  rw [← not_lt]
  intro hroom
  have hatomic := resample_atomic image horizontal vertical sourceWidth targetHeight hroom withAlpha
    canvas
  exact (hatomic.error_kept _ _ hrun).2 rfl

theorem run_eq_outOfRange_iff (hsource : Extent.of? sourceWidth sourceHeight = .ok source)
    (htarget : Extent.of? targetWidth targetHeight = .ok target) :
    (resample image horizontal vertical sourceWidth sourceHeight targetWidth targetHeight
        withAlpha).run canvas = .error .outOfRange after ↔
      after = canvas ∧ 2 ^ 64 ≤ 4 * sourceHeight.toNat * targetWidth.toNat ∧
        source.bytes ≤ image.size ∧ target.bytes ≤ canvas.target.size := by
  constructor
  · intro hrun
    have hlarge := large_of_run hrun
    simp only [resample, Extent.coversImage] at hrun
    rw [Edit.run_check_bind_of_ok hsource, Edit.run_check_bind_of_ok htarget,
      Edit.run_check_bind_outOfRange_iff fun _ => requireLength_ne_outOfRange] at hrun
    obtain ⟨_, himage, hrun⟩ := hrun
    rw [Edit.run_get_bind,
      Edit.run_check_bind_outOfRange_iff fun _ => requireLength_ne_outOfRange] at hrun
    obtain ⟨_, hspace, hrun⟩ := hrun
    rw [Edit.run_check_bind, middleLength_eq_error_iff.2 ⟨rfl, hlarge⟩] at hrun
    cases hrun
    exact ⟨rfl, hlarge, requireLength_eq_ok_iff.1 himage, requireLength_eq_ok_iff.1 hspace⟩
  · rintro ⟨rfl, hlarge, himage, hspace⟩
    simp only [resample, Extent.coversImage]
    rw [Edit.run_check_bind_of_ok hsource, Edit.run_check_bind_of_ok htarget,
      Edit.run_check_bind_of_ok (requireLength_eq_ok_iff.2 himage), Edit.run_get_bind,
      Edit.run_check_bind_of_ok (requireLength_eq_ok_iff.2 hspace), Edit.run_check_bind,
      middleLength_eq_error_iff.2 ⟨rfl, hlarge⟩]

theorem run_resampleGrowing_eq_outOfRange_iff :
    (resampleGrowing image horizontal vertical sourceWidth sourceHeight targetWidth targetHeight
        withAlpha).run canvas = .error .outOfRange after ↔
      after = canvas ∧ 2 ^ 64 ≤ 4 * sourceHeight.toNat * targetWidth.toNat := by
  rcases lt_or_ge (4 * sourceHeight.toNat * targetWidth.toNat) (2 ^ 64) with hroom | hlarge
  · rw [run_resampleGrowing hroom]
    constructor
    · intro hrun
      exact absurd (large_of_run hrun) (by omega)
    · rintro ⟨-, hlarge⟩
      omega
  · rw [resampleGrowing, Edit.run_check_bind, middleLength_eq_error_iff.2 ⟨rfl, hlarge⟩]
    constructor
    · intro hrun
      cases hrun
      exact ⟨rfl, hlarge⟩
    · rintro ⟨rfl, -⟩
      rfl

end Resize

namespace Memory
open Resize
variable {s s' : Store} {image horizontal horizontalLength vertical verticalLength middle : ℕ}

theorem large_of_run_store
    (hrun : (Store.resample image horizontal horizontalLength vertical verticalLength middle
      sourceWidth sourceHeight targetWidth targetHeight withAlpha).run s =
        .error .outOfRange s') :
    2 ^ 64 ≤ 4 * sourceHeight.toNat * targetWidth.toNat := by
  rw [← not_lt]
  intro hroom
  have hatomic := resample_atomic s image horizontal horizontalLength vertical verticalLength middle
    sourceWidth targetHeight hroom withAlpha
  exact (hatomic.error_kept _ _ hrun).2 rfl

theorem run_store_eq_outOfRange_iff (hsource : Extent.of? sourceWidth sourceHeight = .ok source)
    (htarget : Extent.of? targetWidth targetHeight = .ok target) :
    (Store.resample image horizontal horizontalLength vertical verticalLength middle sourceWidth
        sourceHeight targetWidth targetHeight withAlpha).run s = .error .outOfRange s' ↔
      s' = s ∧ 2 ^ 64 ≤ 4 * sourceHeight.toNat * targetWidth.toNat ∧
        s.Holds 1 image source.bytes ∧ s.Holds 1 image target.bytes ∧
        s.Holds 2 horizontal horizontalLength ∧ s.Holds 2 vertical verticalLength := by
  constructor
  · intro hrun
    have hlarge := large_of_run_store hrun
    rw [Store.resample, Edit.run_check_bind_of_ok hsource, Edit.run_check_bind_of_ok htarget,
      Edit.run_get_bind,
      Edit.run_check_bind_outOfRange_iff fun _ => Store.region?_ne_outOfRange] at hrun
    obtain ⟨_, himage, hrun⟩ := hrun
    rw [Edit.run_check_bind_outOfRange_iff fun _ => Store.region?_ne_outOfRange] at hrun
    obtain ⟨_, hspace, hrun⟩ := hrun
    rw [Edit.run_check_bind_outOfRange_iff fun _ => Store.region?_ne_outOfRange] at hrun
    obtain ⟨_, hacross, hrun⟩ := hrun
    rw [Edit.run_check_bind_outOfRange_iff fun _ => Store.region?_ne_outOfRange] at hrun
    obtain ⟨_, hdown, hrun⟩ := hrun
    rw [Edit.run_check_bind, middleLength_eq_error_iff.2 ⟨rfl, hlarge⟩] at hrun
    cases hrun
    exact ⟨rfl, hlarge, (Store.region?_ok_iff_holds.1 himage).1,
      (Store.region?_ok_iff_holds.1 hspace).1, (Store.region?_ok_iff_holds.1 hacross).1,
      (Store.region?_ok_iff_holds.1 hdown).1⟩
  · rintro ⟨rfl, hlarge, himage, hspace, hacross, hdown⟩
    rw [Store.resample, Edit.run_check_bind_of_ok hsource, Edit.run_check_bind_of_ok htarget,
      Edit.run_get_bind, Edit.run_check_bind_of_ok himage.region?_eq,
      Edit.run_check_bind_of_ok hspace.region?_eq, Edit.run_check_bind_of_ok hacross.region?_eq,
      Edit.run_check_bind_of_ok hdown.region?_eq, Edit.run_check_bind,
      middleLength_eq_error_iff.2 ⟨rfl, hlarge⟩]

/-- Between two images the length of the intermediate image is all its samples wherever a word
counts them, and then a resize that succeeds has them all. Elsewhere the resize breaks off before it
writes, and for no other reason. Only a resize that lowers the height and raises the width can. -/
theorem resize_has_room (hsource : Extent.of? sourceWidth sourceHeight = .ok source)
    (htarget : Extent.of? targetWidth targetHeight = .ok target) :
    (∀ n, middleLength sourceHeight targetWidth = .ok n ↔
      4 * sourceHeight.toNat * targetWidth.toNat < 2 ^ 64 ∧
        n.toNat = 4 * sourceHeight.toNat * targetWidth.toNat) ∧
    (sourceHeight ≤ targetHeight ∨ targetWidth ≤ sourceWidth →
      4 * sourceHeight.toNat * targetWidth.toNat < 2 ^ 64) ∧
    (∀ (image : Array UInt8) (horizontal vertical : List Int16) (withAlpha : Bool)
      (canvas : Canvas),
      (∀ final, (resample image horizontal vertical sourceWidth sourceHeight targetWidth
          targetHeight withAlpha).run canvas = .ok () final →
        4 * sourceHeight.toNat * targetWidth.toNat < 2 ^ 64 ∧
          4 * sourceHeight.toNat * targetWidth.toNat ≤ canvas.middle.size) ∧
      (∀ after, (resample image horizontal vertical sourceWidth sourceHeight targetWidth
          targetHeight withAlpha).run canvas = .error .outOfRange after ↔
        after = canvas ∧ 2 ^ 64 ≤ 4 * sourceHeight.toNat * targetWidth.toNat ∧
          source.bytes ≤ image.size ∧ target.bytes ≤ canvas.target.size) ∧
      ∀ after, (resampleGrowing image horizontal vertical sourceWidth sourceHeight targetWidth
          targetHeight withAlpha).run canvas = .error .outOfRange after ↔
        after = canvas ∧ 2 ^ 64 ≤ 4 * sourceHeight.toNat * targetWidth.toNat) ∧
    ∀ (s : Store) (image horizontal horizontalLength vertical verticalLength middle : ℕ)
      (withAlpha : Bool),
      (∀ s', (Store.resample image horizontal horizontalLength vertical verticalLength middle
          sourceWidth sourceHeight targetWidth targetHeight withAlpha).run s = .ok () s' →
        4 * sourceHeight.toNat * targetWidth.toNat < 2 ^ 64 ∧
          s.Holds 2 middle (4 * sourceHeight.toNat * targetWidth.toNat)) ∧
      ∀ s', (Store.resample image horizontal horizontalLength vertical verticalLength middle
          sourceWidth sourceHeight targetWidth targetHeight withAlpha).run s =
            .error .outOfRange s' ↔
        s' = s ∧ 2 ^ 64 ≤ 4 * sourceHeight.toNat * targetWidth.toNat ∧
          s.Holds 1 image source.bytes ∧ s.Holds 1 image target.bytes ∧
          s.Holds 2 horizontal horizontalLength ∧ s.Holds 2 vertical verticalLength := by
  refine ⟨fun n => middleLength_eq_ok_iff, ?_, ?_, ?_⟩
  · intro hshape
    obtain ⟨hsw, hsh⟩ := Extent.of?_eq_ok_iff.1 hsource
    obtain ⟨htw, hth⟩ := Extent.of?_eq_ok_iff.1 htarget
    rw [UInt32.le_iff_toNat_le, UInt32.le_iff_toNat_le, ← hsw, ← hsh, ← htw, ← hth] at hshape
    rw [← middleCount_eq hsource htarget]
    exact middleCount_lt_of_le hshape
  · intro image horizontal vertical withAlpha canvas
    refine ⟨?_, fun after => run_eq_outOfRange_iff hsource htarget,
      fun after => run_resampleGrowing_eq_outOfRange_iff⟩
    intro final hrun
    obtain ⟨source', target', across, down, hadmits⟩ := exists_admits_of_run hrun
    exact ⟨hadmits.room, hadmits.middle_le⟩
  · intro s image horizontal horizontalLength vertical verticalLength middle withAlpha
    refine ⟨?_, fun s' => run_store_eq_outOfRange_iff hsource htarget⟩
    intro s' hrun
    obtain ⟨source', target', across, down, hlayout⟩ := exists_layout_of_run hrun
    have hholds := hlayout.middle_holds
    rw [middleCount_eq hlayout.source_eq hlayout.target_eq] at hholds
    exact ⟨hlayout.room, hholds⟩

theorem exists_column : ∃ e, Extent.of? 1 2147483648 = .ok e ∧ e.bytes ≤ 8589934592 :=
  Extent.exists_of?_le_iff.2 (by decide)

theorem exists_row : ∃ e, Extent.of? 2147483648 1 = .ok e ∧ e.bytes ≤ 8589934592 :=
  Extent.exists_of?_le_iff.2 (by decide)

/-- A column of 2³¹ pixels and a row of as many are images, and no word counts the 2⁶⁴ samples of
the intermediate image between them. -/
theorem middleLength_has_no_word :
    ¬ ∀ (sourceWidth sourceHeight targetWidth targetHeight : UInt32) (source target : Extent),
      Extent.of? sourceWidth sourceHeight = .ok source →
      Extent.of? targetWidth targetHeight = .ok target →
      ∃ n, middleLength sourceHeight targetWidth = .ok n ∧
        n.toNat = 4 * sourceHeight.toNat * targetWidth.toNat := by
  intro h
  obtain ⟨column, hcolumn, -⟩ := exists_column
  obtain ⟨row, hrow, -⟩ := exists_row
  obtain ⟨n, hn, -⟩ := h _ _ _ _ column row hcolumn hrow
  obtain ⟨hroom, -⟩ := middleLength_eq_ok_iff.1 hn
  exact absurd hroom (by decide)

def tall : Array UInt8 := Array.replicate 8589934592 0

theorem size_tall : tall.size = 8589934592 := Array.size_replicate

theorem resize_has_room_tall :
    ∃ column row, Extent.of? 1 2147483648 = .ok column ∧ Extent.of? 2147483648 1 = .ok row ∧
      (resample tall [] [] 1 2147483648 2147483648 1 true).run ⟨tall, #[]⟩ =
        .error .outOfRange ⟨tall, #[]⟩ ∧
      (Store.resample 0 0 0 0 0 0 1 2147483648 2147483648 1 false).run ⟨tall⟩ =
        .error .outOfRange ⟨tall⟩ ∧
      ∃ n, middleLength 1 1 = .ok n ∧ n.toNat = 4 := by
  obtain ⟨column, hcolumn, hbytes⟩ := exists_column
  obtain ⟨row, hrow, hbytes'⟩ := exists_row
  have hlarge : 2 ^ 64 ≤ 4 * (2147483648 : UInt32).toNat * (2147483648 : UInt32).toNat := by decide
  have hle : ∀ e : Extent, e.bytes ≤ 8589934592 → Store.Holds ⟨tall⟩ 1 0 e.bytes := by
    intro e he
    rw [Store.holds_iff (by rw [Store.size, size_tall]; decide), Store.size, size_tall]
    omega
  have hnone : Store.Holds ⟨tall⟩ 2 0 0 := ⟨rfl, by decide, Nat.zero_le _⟩
  obtain ⟨-, -, harrays, hstore⟩ := resize_has_room hcolumn hrow
  obtain ⟨hlength, -⟩ := resize_has_room hrow hcolumn
  refine ⟨column, row, hcolumn, hrow, ?_, ?_, 4, (hlength 4).2 ⟨by decide, rfl⟩, rfl⟩
  · exact ((harrays tall [] [] true ⟨tall, #[]⟩).2.1 _).2
      ⟨rfl, hlarge, by rwa [size_tall], by rwa [size_tall]⟩
  · exact ((hstore ⟨tall⟩ 0 0 0 0 0 0 false).2 _).2
      ⟨rfl, hlarge, hle column hbytes, hle row hbytes', hnone, hnone⟩

end Memory
end FixedRaster
