import Mathlib
import FixedRaster.Proofs.Decoding

/-!
# Kernels that are read back as they were packed

A row is packed with the number of its weights modulo 2¹⁶. What is lost of a longer list is found
nowhere in the packed data: the row is read back with as many weights as the number says, and the
others are read as the rows behind it. All rows in front of the first such list, and all of a kernel
without one, are read back as they were packed.
-/

namespace FixedRaster
open Taps

structure Stores (push : Int16 × List Int16) (t : Taps) : Prop where
  start_eq : (t.start : ℤ) = push.1.toInt
  weights_eq : t.weights = push.2

structure StoresFront (push : Int16 × List Int16) (t : Taps) : Prop where
  start_eq : (t.start : ℤ) = push.1.toInt
  weights_eq : t.weights = push.2.take (push.2.length % 65536)

theorem StoresFront.stores {push : Int16 × List Int16} {t : Taps} (h : StoresFront push t)
    (hshort : push.2.length < 65536) : Stores push t := by
  refine ⟨h.start_eq, ?_⟩
  rw [h.weights_eq, Nat.mod_eq_of_lt hshort, List.take_length]

section
variable {source : ℕ} {rest tail : List Int16}

theorem storesFront_of_pack_eq {push : Int16 × List Int16} {t : Taps} (ht : t.Fits source)
    (h : pack push.1 push.2 ++ rest = t.packed ++ tail) : StoresFront push t := by
  have hstart := ht.start_le
  have hlength := ht.length_le
  simp only [pack, packed_eq, List.cons_append, List.cons.injEq] at h
  obtain ⟨hfirst, hnumber, hweights⟩ := h
  have hcount : t.weights.length = push.2.length % 65536 := by
    have hvalue := congrArg Int16.toInt hnumber
    have hsize : Int16.size = 65536 := rfl
    rw [Int16.toInt_ofNat', Int16.toInt_ofNat', hsize, Int.bmod, Int.bmod] at hvalue
    omega
  constructor
  case start_eq => rw [hfirst, Int16.toInt_ofNat_of_lt (by omega)]
  case weights_eq =>
    calc t.weights = (t.weights ++ tail).take t.weights.length := by rw [List.take_left]
      _ = (push.2 ++ rest).take (push.2.length % 65536) := by rw [hweights, hcount]
      _ = push.2.take (push.2.length % 65536) :=
        List.take_append_of_le_length (Nat.mod_le _ _)

theorem stores_of_pack_eq {push : Int16 × List Int16} {t : Taps} (ht : t.Fits source)
    (hshort : push.2.length < 65536) (h : pack push.1 push.2 ++ rest = t.packed ++ tail) :
    Stores push t ∧ rest = tail := by
  have hstores := (storesFront_of_pack_eq ht h).stores hshort
  have hlength : (pack push.1 push.2).length = t.packed.length := by
    rw [length_pack, length_packed, hstores.weights_eq]
  exact ⟨hstores, (List.append_inj h hlength).2⟩

theorem exists_stores_of_packAll_eq {before after : List (Int16 × List Int16)} {rows : List Taps}
    (hfits : ∀ t ∈ rows, t.Fits source) (hlength : before.length ≤ rows.length)
    (hshort : ∀ push ∈ before, push.2.length < 65536)
    (h : packAll (before ++ after) = packedRows rows ++ rest) :
    ∃ front behind, rows = front ++ behind ∧ List.Forall₂ Stores before front ∧
      packAll after = packedRows behind ++ rest := by
  induction before generalizing rows with
  | nil => exact ⟨[], rows, rfl, .nil, h⟩
  | cons push before ih =>
    cases rows with
    | nil => exact absurd hlength (Nat.not_succ_le_zero _)
    | cons t rows =>
      obtain ⟨ht, hfits⟩ := List.forall_mem_cons.1 hfits
      obtain ⟨hpush, hshort⟩ := List.forall_mem_cons.1 hshort
      rw [List.cons_append, packAll_cons, packedRows_cons, List.append_assoc] at h
      obtain ⟨hstores, hmore⟩ := stores_of_pack_eq ht hpush h
      obtain ⟨front, behind, rfl, hfront, hbehind⟩ :=
        ih hfits (Nat.le_of_succ_le_succ hlength) hshort hmore
      exact ⟨t :: front, behind, rfl, .cons hstores hfront, hbehind⟩

end

namespace Kernel

/-- A kernel that was packed here and is accepted is read back as it was packed exactly where no
list has 2¹⁶ weights. Otherwise the first such list is cut, and all in front of it is as it was. -/
theorem packed_read_back {pushes : List (Int16 × List Int16)} {source : ℕ} {k : Kernel}
    (h : ofPacked? (packAll pushes) source pushes.length = .ok k) :
    ∃ rows, k.rows? = some rows ∧ k.cursor.Yields rows ∧
      (List.Forall₂ Stores pushes rows ↔ ∀ push ∈ pushes, push.2.length < 65536) ∧
      ∀ before push after, pushes = before ++ push :: after →
        (∀ other ∈ before, other.2.length < 65536) →
          ∃ front t behind, rows = front ++ t :: behind ∧ List.Forall₂ Stores before front ∧
            StoresFront push t := by
  obtain ⟨rows, rest, hlength, hfits, hdata, rfl⟩ := ofPacked?_eq_ok_iff.1 h
  have hread := unpack?_packedRows hfits []
  rw [List.append_nil, hlength] at hread
  refine ⟨rows, hread, Cursor.yields_packedRows hfits [], ⟨?_, ?_⟩, ?_⟩
  · intro hstores push hpush
    obtain ⟨i, hi, rfl⟩ := List.getElem_of_mem hpush
    have hi' : i < rows.length := hlength ▸ hi
    have hrow : Stores pushes[i] rows[i] := hstores.get hi hi'
    have hshort := (hfits rows[i] (List.getElem_mem hi')).length_le
    rw [hrow.weights_eq] at hshort
    omega
  · intro hshort
    rw [← List.append_nil pushes] at hdata
    obtain ⟨front, behind, rfl, hfront, -⟩ :=
      exists_stores_of_packAll_eq hfits hlength.ge hshort hdata
    rw [List.length_append, hfront.length_eq, Nat.add_eq_left] at hlength
    rwa [List.length_eq_zero_iff.1 hlength, List.append_nil]
  · rintro before push after rfl hshort
    rw [List.length_append, List.length_cons] at hlength
    obtain ⟨front, behind, rfl, hfront, hbehind⟩ :=
      exists_stores_of_packAll_eq hfits (by omega) hshort hdata
    cases behind with
    | nil =>
      rw [List.append_nil, ← hfront.length_eq] at hlength
      omega
    | cons t behind =>
      rw [packAll_cons, packedRows_cons, List.append_assoc] at hbehind
      exact ⟨front, t, behind, rfl, hfront, storesFront_of_pack_eq (hfits t (by simp)) hbehind⟩

def tooLong : Int16 × List Int16 := (0, List.replicate 65536 0)

theorem packAll_tooLong : packAll [tooLong] = packedRows [⟨0, []⟩] ++ List.replicate 65536 0 := by
  have hnumber : Int16.ofNat (List.replicate 65536 (0 : Int16)).length = 0 := by
    rw [List.length_replicate]
    rfl
  simp only [packAll_cons, packAll_nil, List.append_nil, pack, tooLong, hnumber]
  rfl

theorem ofPacked?_tooLong : ofPacked? (packAll [tooLong]) 65536 1 = .ok ⟨[0, 0], 1⟩ := by
  refine ofPacked?_eq_ok_iff.2 ⟨[⟨0, []⟩], List.replicate 65536 0, rfl, ?_, packAll_tooLong, rfl⟩
  rw [List.forall_mem_singleton]
  exact ⟨by decide, by decide, by decide, by decide⟩

/-- A list of 2¹⁶ weights makes a row that is accepted and read back without weights. -/
theorem packed_not_read_back :
    ¬ ∀ (pushes : List (Int16 × List Int16)) (source : ℕ) (k : Kernel),
      ofPacked? (packAll pushes) source pushes.length = .ok k →
        ∃ rows, k.cursor.Yields rows ∧ List.Forall₂ Stores pushes rows := by
  intro h
  obtain ⟨rows, hyields, hstores⟩ := h [tooLong] 65536 _ ofPacked?_tooLong
  cases hstores with
  | cons hrow _ =>
    obtain ⟨c, hnext, -⟩ := hyields
    have hread : Cursor.next.run (cursor ⟨[0, 0], 1⟩) = .ok (some ⟨0, []⟩) ⟨[0, 0], 2⟩ := rfl
    rw [hread] at hnext
    cases hnext
    have hlength := congrArg List.length hrow.weights_eq
    rw [tooLong, List.length_replicate, List.length_nil] at hlength
    omega

theorem packed_read_back_mixed :
    let short : List (Int16 × List Int16) := [(3, [8192, -8192]), (0, [16384])]
    let mixed : List (Int16 × List Int16) := [(3, [8192, -8192]), tooLong]
    ofPacked? (packAll short) 5 2 = .ok ⟨[3, 2, 8192, -8192, 0, 1, 16384], 2⟩ ∧
      List.Forall₂ Stores short [⟨3, [8192, -8192]⟩, ⟨0, [16384]⟩] ∧
      ofPacked? (packAll mixed) 5 2 = .ok ⟨[3, 2, 8192, -8192, 0, 0], 2⟩ ∧
      ¬ List.Forall₂ Stores mixed [⟨3, [8192, -8192]⟩, ⟨0, []⟩] := by
  intro short mixed
  have hshort : ofPacked? (packAll short) 5 2 = .ok ⟨[3, 2, 8192, -8192, 0, 1, 16384], 2⟩ := by
    rfl
  have hmixed : ofPacked? (packAll mixed) 5 2 = .ok ⟨[3, 2, 8192, -8192, 0, 0], 2⟩ := by
    refine ofPacked?_eq_ok_iff.2
      ⟨[⟨3, [8192, -8192]⟩, ⟨0, []⟩], List.replicate 65536 0, rfl, ?_, ?_, rfl⟩
    · rw [List.forall_mem_cons, List.forall_mem_singleton]
      exact ⟨⟨by decide, by decide, by decide, by decide⟩, by decide, by decide, by decide,
        by decide⟩
    · have hfirst : pack 3 [8192, -8192] = Taps.packed ⟨3, [8192, -8192]⟩ := rfl
      rw [packAll_cons, packAll_tooLong, hfirst, packedRows_cons ⟨3, _⟩, List.append_assoc]
  obtain ⟨rows, hrows, -, hiff, -⟩ := packed_read_back hshort
  cases hrows
  obtain ⟨rows, hrows, -, hiff', -⟩ := packed_read_back hmixed
  cases hrows
  refine ⟨hshort, hiff.2 (by decide), hmixed, mt hiff'.1 ?_⟩
  intro hall
  have hlength := hall tooLong (by simp [mixed])
  rw [tooLong, List.length_replicate] at hlength
  omega

end Kernel
end FixedRaster
