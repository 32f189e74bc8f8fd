import Mathlib
import FixedRaster.Proofs.Checks
import FixedRaster.Resize.Resample

/-!
# How long the intermediate image has to be

The intermediate image has the height of the source and the width of the target. A word counts the
bytes of both images, but that does not bound this product: where a tall source becomes a wide
target the length has no word, and a resize breaks off before it writes.
-/

namespace FixedRaster

theorem mulWords_eq_ok_iff {a b c : UInt64} :
    mulWords a b = .ok c ↔ a.toNat * b.toNat < 2 ^ 64 ∧ c.toNat = a.toNat * b.toNat := by
  have hvalue : a.toNat * b.toNat < 2 ^ 64 → (a * b).toNat = a.toNat * b.toNat := by
    intro h
    rw [UInt64.toNat_mul, Nat.mod_eq_of_lt h]
  unfold mulWords wordLimit
  split
  · rename_i h
    rw [Except.ok.injEq, ← UInt64.toNat_inj, hvalue h, eq_comm]
    exact ⟨fun heq => ⟨h, heq⟩, And.right⟩
  · rename_i h
    simp only [reduceCtorEq, false_iff]
    exact fun ⟨hlt, _⟩ => h hlt

theorem mulWords_eq_error {a b : UInt64} {f : Fault} (h : mulWords a b = .error f) :
    f = .outOfRange := by
  unfold mulWords at h
  split_ifs at h
  exact (Except.error.inj h).symm

namespace Resize

/-- The product of a height and a width has a word, so only the factor of the channels can break the
call off. -/
theorem middleLength_eq_ok_iff {height width : UInt32} {n : UInt64} :
    middleLength height width = .ok n ↔
      4 * height.toNat * width.toNat < 2 ^ 64 ∧ n.toNat = 4 * height.toNat * width.toNat := by
  have hpixels : height.toNat * width.toNat < 2 ^ 64 :=
    calc height.toNat * width.toNat < 2 ^ 32 * 2 ^ 32 :=
          Nat.mul_lt_mul'' height.toNat_lt width.toNat_lt
      _ = 2 ^ 64 := by norm_num
  have hcomm : height.toNat * width.toNat * 4 = 4 * height.toNat * width.toNat := by ring
  rw [middleLength, bind_eq_ok_iff]
  simp only [mulWords_eq_ok_iff, UInt32.toNat_toUInt64]
  constructor
  · rintro ⟨m, ⟨-, hm⟩, hlt, hn⟩
    rw [hm] at hlt hn
    rw [← hcomm]
    exact ⟨hlt, hn⟩
  · rintro ⟨hlt, hn⟩
    have hm : (UInt64.ofNat (height.toNat * width.toNat)).toNat = height.toNat * width.toNat :=
      UInt64.toNat_ofNat_of_lt' hpixels
    rw [← hcomm] at hlt hn
    exact ⟨_, ⟨hpixels, hm⟩, by rwa [hm], by rwa [hm]⟩

theorem exists_middleLength {height width : UInt32}
    (hroom : 4 * height.toNat * width.toNat < 2 ^ 64) :
    ∃ n, middleLength height width = .ok n ∧ n.toNat = 4 * height.toNat * width.toNat := by
  have hn : (UInt64.ofNat (4 * height.toNat * width.toNat)).toNat =
      4 * height.toNat * width.toNat := UInt64.toNat_ofNat_of_lt' hroom
  exact ⟨_, middleLength_eq_ok_iff.2 ⟨hroom, hn⟩, hn⟩

theorem middleLength_eq_error_iff {height width : UInt32} {f : Fault} :
    middleLength height width = .error f ↔
      f = .outOfRange ∧ 2 ^ 64 ≤ 4 * height.toNat * width.toNat := by
  rcases lt_or_ge (4 * height.toNat * width.toNat) (2 ^ 64) with hroom | hlarge
  · obtain ⟨n, hn, -⟩ := exists_middleLength hroom
    rw [hn]
    simp only [reduceCtorEq, false_iff]
    omega
  · cases hlength : middleLength height width with
    | ok n => exact absurd (middleLength_eq_ok_iff.1 hlength).1 (by omega)
    | error f' =>
      have hf' : f' = .outOfRange := by
        rw [middleLength, bind_eq_error_iff] at hlength
        rcases hlength with h | ⟨m, -, h⟩
        · exact mulWords_eq_error h
        · exact mulWords_eq_error h
      rw [hf', Except.error.injEq, eq_comm]
      exact ⟨fun h => ⟨h, hlarge⟩, And.left⟩

def middleCount (source target : Extent) : ℕ := 4 * source.height * target.width

theorem middleCount_pos (source target : Extent) : 0 < middleCount source target :=
  Nat.mul_pos (Nat.mul_pos (by decide) source.height_pos) target.width_pos

theorem middleCount_eq {sourceWidth sourceHeight targetWidth targetHeight : UInt32}
    {source target : Extent} (hsource : Extent.of? sourceWidth sourceHeight = .ok source)
    (htarget : Extent.of? targetWidth targetHeight = .ok target) :
    middleCount source target = 4 * sourceHeight.toNat * targetWidth.toNat := by
  rw [middleCount, (Extent.of?_eq_ok_iff.1 hsource).2, (Extent.of?_eq_ok_iff.1 htarget).1]

/-- Only a resize that lowers the height and raises the width can need more samples than the words
of its two images count. -/
theorem middleCount_lt_of_le {source target : Extent}
    (h : source.height ≤ target.height ∨ target.width ≤ source.width) :
    middleCount source target < wordLimit := by
  have hsource : source.width * source.height * 4 < wordLimit := source.bytes_lt
  have htarget : target.width * target.height * 4 < wordLimit := target.bytes_lt
  rw [middleCount]
  rcases h with hheight | hwidth
  · have hle := Nat.mul_le_mul_left target.width hheight
    calc 4 * source.height * target.width = target.width * source.height * 4 := by ring
      _ ≤ target.width * target.height * 4 := Nat.mul_le_mul_right 4 hle
      _ < wordLimit := htarget
  · have hle := Nat.mul_le_mul_right source.height hwidth
    calc 4 * source.height * target.width = target.width * source.height * 4 := by ring
      _ ≤ source.width * source.height * 4 := Nat.mul_le_mul_right 4 hle
      _ < wordLimit := hsource

end Resize
end FixedRaster
