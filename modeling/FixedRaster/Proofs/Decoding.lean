import Mathlib
import FixedRaster.Proofs.Grammar

/-!
# Reading packed kernels from untrusted data

A kernel that is refused is refused at its first row that breaks a rule, for the first rule that
this row breaks. A cursor, which checks nothing, reads the rows of an accepted kernel one by one
and ends exactly where the check ended.
-/

namespace FixedRaster
open Taps

namespace RowFlaw

/-- The rule is broken by the row at the head of packed data. -/
def At (source : ℕ) (data : List Int16) : RowFlaw → Prop
  | noHeader => data.length < 2
  | negativeStart => ∃ start ∈ data[0]?, start < 0
  | negativeCount => ∃ number ∈ data[1]?, number < 0
  | pastSource => ∃ start ∈ data[0]?, ∃ number ∈ data[1]?,
      (source : ℤ) < start.toInt + number.toInt
  | noWeights => ∃ number ∈ data[1]?, (data.length : ℤ) < 2 + number.toInt
  | tooHeavy => ∃ number ∈ data[1]?, 32767 < massOf ((data.drop 2).take number.toNatClampNeg)

def rank : RowFlaw → ℕ
  | noHeader => 0
  | negativeStart => 1
  | negativeCount => 2
  | pastSource => 3
  | noWeights => 4
  | tooHeavy => 5

theorem rank_injective : Function.Injective rank := by
  intro flaw flaw' h
  cases flaw <;> cases flaw' <;> first | rfl | cases h

def Kept (source : ℕ) (data : List Int16) (n : ℕ) : Prop :=
  ∀ flaw : RowFlaw, flaw.rank < n → ¬ flaw.At source data

structure FirstAt (source : ℕ) (data : List Int16) (flaw : RowFlaw) : Prop where
  broken : flaw.At source data
  kept : Kept source data flaw.rank

variable {source : ℕ} {data rest : List Int16} {start number : Int16} {flaw flaw' : RowFlaw}

theorem kept_zero : Kept source data 0 := fun _ h => absurd h (Nat.not_lt_zero _)

theorem Kept.succ (h : Kept source data flaw.rank) (hflaw : ¬ flaw.At source data) :
    Kept source data (flaw.rank + 1) := by
  intro other hother
  rcases Nat.lt_succ_iff_lt_or_eq.1 hother with hlt | heq
  · exact h other hlt
  · rwa [rank_injective heq]

theorem FirstAt.unique (h : flaw.FirstAt source data) (h' : flaw'.FirstAt source data) :
    flaw = flaw' := by
  apply rank_injective
  rcases Nat.lt_trichotomy flaw.rank flaw'.rank with hlt | heq | hgt
  · exact absurd h.broken (h'.kept flaw hlt)
  · exact heq
  · exact absurd h'.broken (h.kept flaw' hgt)

theorem not_noHeader_at : ¬ noHeader.At source (start :: number :: rest) := by
  simp [At]

theorem negativeStart_at_iff : negativeStart.At source (start :: number :: rest) ↔ start < 0 := by
  simp [At]

theorem negativeCount_at_iff : negativeCount.At source (start :: number :: rest) ↔ number < 0 := by
  simp [At]

theorem pastSource_at_iff (hstart : ¬ start < 0) (hnumber : ¬ number < 0) :
    pastSource.At source (start :: number :: rest) ↔
      source < start.toNatClampNeg + number.toNatClampNeg := by
  have hstart' := Int16.cast_toNatClampNeg start (Int16.not_lt.1 hstart)
  have hnumber' := Int16.cast_toNatClampNeg number (Int16.not_lt.1 hnumber)
  simp only [At, List.getElem?_cons_zero, List.getElem?_cons_succ, Option.mem_some,
    exists_eq_left', ← hstart', ← hnumber']
  omega

theorem noWeights_at_iff (hnumber : ¬ number < 0) :
    noWeights.At source (start :: number :: rest) ↔
      (rest.take number.toNatClampNeg).length < number.toNatClampNeg := by
  have hnumber' := Int16.cast_toNatClampNeg number (Int16.not_lt.1 hnumber)
  simp only [At, List.getElem?_cons_zero, List.getElem?_cons_succ, Option.mem_some,
    exists_eq_left', ← hnumber', List.length_cons, List.length_take]
  omega

theorem tooHeavy_at_iff : tooHeavy.At source (start :: number :: rest) ↔
    heaviestRow < weightOf (rest.take number.toNatClampNeg) := by
  have hlength := List.length_take_le number.toNatClampNeg rest
  have hsmall := number.toNatClampNeg_lt
  rw [heaviestRow_lt_iff (by omega)]
  simp [At]

theorem firstAt_or_kept {c : Prop} [Decidable c] {next : Except RowFlaw ℕ}
    (hkept : Kept source data flaw.rank) (hc : flaw.At source data ↔ c)
    (h : (if c then .error flaw else next) = .error flaw') :
    flaw'.FirstAt source data ∨
      ¬ c ∧ next = .error flaw' ∧ Kept source data (flaw.rank + 1) := by
  split at h
  next hbroken =>
    cases h
    exact .inl ⟨hc.2 hbroken, hkept⟩
  next hholds => exact .inr ⟨hholds, h, hkept.succ (mt hc.1 hholds)⟩

theorem firstAt_of_checkRow (h : checkRow source data = .error flaw) :
    flaw.FirstAt source data := by
  match data with
  | [] | [_] =>
    cases h
    exact ⟨by simp [At], kept_zero⟩
  | start :: number :: rest =>
    -- the checks come in the order of the ranks, so each one that is passed extends `Kept`
    have hheader : Kept source (start :: number :: rest) negativeStart.rank :=
      kept_zero.succ not_noHeader_at
    rcases firstAt_or_kept hheader negativeStart_at_iff h with hfirst | ⟨hstart, h, hkept⟩
    · exact hfirst
    rcases firstAt_or_kept hkept negativeCount_at_iff h with hfirst | ⟨hnumber, h, hkept⟩
    · exact hfirst
    rcases firstAt_or_kept hkept (pastSource_at_iff hstart hnumber) h with
      hfirst | ⟨-, h, hkept⟩
    · exact hfirst
    rcases firstAt_or_kept hkept (noWeights_at_iff hnumber) h with hfirst | ⟨-, h, hkept⟩
    · exact hfirst
    rcases firstAt_or_kept hkept tooHeavy_at_iff h with hfirst | ⟨-, h, -⟩
    · exact hfirst
    · cases h

theorem not_at_packed {t : Taps} (ht : t.Fits source) (rest : List Int16) (flaw : RowFlaw) :
    ¬ flaw.At source (t.packed ++ rest) := by
  have hstop := ht.stop_le
  have hstart := ofNat_nonneg ht.start_le
  have hnumber := ofNat_nonneg ht.length_le
  have hmass := ht.mass_le
  rw [packed_eq, List.cons_append, List.cons_append]
  cases flaw with
  | noHeader => exact not_noHeader_at
  | negativeStart => exact mt negativeStart_at_iff.1 hstart
  | negativeCount => exact mt negativeCount_at_iff.1 hnumber
  | pastSource =>
    rw [pastSource_at_iff hstart hnumber, toNatClampNeg_ofNat ht.start_le,
      toNatClampNeg_ofNat ht.length_le]
    exact Nat.not_lt.2 hstop
  | noWeights =>
    rw [noWeights_at_iff hnumber, toNatClampNeg_ofNat ht.length_le, List.take_left]
    exact Nat.lt_irrefl _
  | tooHeavy =>
    rw [tooHeavy_at_iff, toNatClampNeg_ofNat ht.length_le, List.take_left,
      heaviestRow_lt_iff ht.length_le]
    exact Nat.not_lt.2 hmass

theorem checkRow_eq_error_iff : checkRow source data = .error flaw ↔ flaw.FirstAt source data := by
  refine ⟨firstAt_of_checkRow, fun hfirst => ?_⟩
  cases hrow : checkRow source data with
  | error flaw' => rw [(firstAt_of_checkRow hrow).unique hfirst]
  | ok n =>
    obtain ⟨t, rest, ht, rfl, -⟩ := exists_packed_of_checkRow hrow
    exact absurd hfirst.broken (not_at_packed ht rest flaw)

end RowFlaw

structure AcceptedAs (source count : ℕ) (data : List Int16) (rows : List Taps) : Prop where
  length_eq : rows.length = count
  fits : ∀ t ∈ rows, t.Fits source
  begins : packedRows rows <+: data

structure RefusedAt (source count : ℕ) (data : List Int16) (rows : List Taps) (flaw : RowFlaw) :
    Prop where
  length_lt : rows.length < count
  fits : ∀ t ∈ rows, t.Fits source
  begins : packedRows rows <+: data
  firstAt : flaw.FirstAt source (data.drop (packedRows rows).length)

section
variable {source count index : ℕ} {data rest : List Int16} {rows : List Taps} {flaw : RowFlaw}
  {f : Fault}

theorem RefusedAt.cons {t : Taps} (ht : t.Fits source) (h : RefusedAt source count rest rows flaw) :
    RefusedAt source (count + 1) (t.packed ++ rest) (t :: rows) flaw := by
  refine ⟨Nat.succ_lt_succ h.length_lt, ?_, ?_, ?_⟩
  · rw [List.forall_mem_cons]
    exact ⟨ht, h.fits⟩
  · rw [packedRows_cons, List.prefix_append_right_inj]
    exact h.begins
  · rw [packedRows_cons, List.length_append, ← List.drop_drop, List.drop_left]
    exact h.firstAt

theorem refusedAt_of_checkRows (h : checkRows source count index data = .error f) :
    ∃ rows flaw, RefusedAt source count data rows flaw ∧
      f = .badRecord (index + rows.length) flaw.text := by
  induction count generalizing index data with
  | zero => cases h
  | succ count ih =>
    rw [checkRows] at h
    cases hrow : checkRow source data with
    | error flaw =>
      rw [hrow] at h
      cases h
      exact ⟨[], flaw, ⟨Nat.succ_pos count, by simp, ⟨data, rfl⟩,
        RowFlaw.firstAt_of_checkRow hrow⟩, rfl⟩
    | ok length =>
      obtain ⟨t, rest, ht, rfl, rfl⟩ := exists_packed_of_checkRow hrow
      simp only [hrow, List.drop_left] at h
      cases hrows : checkRows source count (index + 1) rest with
      | error fault =>
        rw [hrows] at h
        cases h
        obtain ⟨rows, flaw, hrefused, rfl⟩ := ih hrows
        refine ⟨t :: rows, flaw, hrefused.cons ht, ?_⟩
        rw [List.length_cons, Nat.add_right_comm, Nat.add_assoc]
      | ok more =>
        rw [hrows] at h
        cases h

theorem RefusedAt.checkRows_eq (h : RefusedAt source count data rows flaw) (index : ℕ) :
    checkRows source count index data = .error (.badRecord (index + rows.length) flaw.text) := by
  induction rows generalizing count index data with
  | nil =>
    obtain ⟨count, rfl⟩ := Nat.exists_eq_succ_of_ne_zero (Nat.ne_of_gt h.length_lt)
    have hrow : checkRow source data = .error flaw := RowFlaw.checkRow_eq_error_iff.2 h.firstAt
    rw [checkRows, hrow]
    rfl
  | cons t rows ih =>
    obtain ⟨count, rfl⟩ := Nat.exists_eq_succ_of_ne_zero (Nat.ne_zero_of_lt h.length_lt)
    obtain ⟨ht, hfits⟩ := List.forall_mem_cons.1 h.fits
    obtain ⟨rest, rfl⟩ := h.begins
    have hfirst := h.firstAt
    rw [List.drop_left] at hfirst
    have hrows := ih ⟨Nat.lt_of_succ_lt_succ h.length_lt, hfits, List.prefix_append _ rest,
      by rwa [List.drop_left]⟩ (index + 1)
    rw [packedRows_cons, List.append_assoc, checkRows, checkRow_packed ht]
    simp only [List.drop_left, hrows, List.length_cons]
    rw [Nat.add_right_comm, Nat.add_assoc]
    rfl

namespace Kernel

theorem ofPacked?_eq_error_iff : ofPacked? data source count = .error f ↔
    ∃ rows flaw, RefusedAt source count data rows flaw ∧ f = .badRecord rows.length flaw.text := by
  constructor
  · intro h
    rw [ofPacked?] at h
    cases hc : checkRows source count 0 data with
    | error fault =>
      rw [hc] at h
      cases h
      obtain ⟨rows, flaw, hrefused, rfl⟩ := refusedAt_of_checkRows hc
      exact ⟨rows, flaw, hrefused, by rw [Nat.zero_add]⟩
    | ok length =>
      rw [hc] at h
      cases h
  · rintro ⟨rows, flaw, h, rfl⟩
    have hrows := h.checkRows_eq 0
    rw [Nat.zero_add] at hrows
    rw [ofPacked?, hrows]
    rfl

theorem ne_outOfRange (h : ofPacked? data source count = .error f) : f ≠ .outOfRange := by
  obtain ⟨rows, flaw, -, rfl⟩ := ofPacked?_eq_error_iff.1 h
  simp

theorem ofPacked?_eq_of_acceptedAs (h : AcceptedAs source count data rows) :
    ofPacked? data source count = .ok ⟨packedRows rows, count⟩ := by
  obtain ⟨rest, rfl⟩ := h.begins
  exact ofPacked?_eq_ok_iff.2 ⟨rows, rest, h.length_eq, h.fits, rfl, rfl⟩

theorem exists_ok_iff : (∃ k, ofPacked? data source count = .ok k) ↔
    ∃ rows, AcceptedAs source count data rows := by
  constructor
  · rintro ⟨k, hk⟩
    obtain ⟨rows, rest, hlength, hfits, rfl, -⟩ := ofPacked?_eq_ok_iff.1 hk
    exact ⟨rows, hlength, hfits, List.prefix_append _ rest⟩
  · rintro ⟨rows, h⟩
    exact ⟨_, ofPacked?_eq_of_acceptedAs h⟩

end Kernel

theorem RefusedAt.length_le (h : RefusedAt source count data rows flaw) {more : List Taps}
    (hfits : ∀ t ∈ more, t.Fits source) (hbegins : packedRows more <+: data) :
    more.length ≤ rows.length := by
  -- asked for as many rows as `more`, the same data would be accepted and refused
  by_contra hlonger
  have hok := Kernel.ofPacked?_eq_of_acceptedAs ⟨rfl, hfits, hbegins⟩
  have herror := Kernel.ofPacked?_eq_error_iff.2
    ⟨rows, flaw, ⟨Nat.lt_of_not_le hlonger, h.fits, h.begins, h.firstAt⟩, rfl⟩
  rw [hok] at herror
  cases herror

end

namespace Cursor
variable {source : ℕ} {rows : List Taps}

/-- From here on the cursor reads these rows, one after the other, and then the end. -/
def Yields : Cursor → List Taps → Prop
  | c, [] => next.run c = .ok none c
  | c, t :: rows => ∃ c', next.run c = .ok (some t) c' ∧ c'.Yields rows

theorem wordOf_ofNat {n : ℕ} (h : n ≤ 32767) : wordOf (Int16.ofNat n) = n := by
  have hvalue : (Int16.ofNat n).toInt64.toInt = n := by
    rw [Int16.toInt_toInt64, Int16.toInt_ofNat_of_lt (by omega)]
  have hnonneg : 0 ≤ (Int16.ofNat n).toInt64 := by
    rw [Int64.le_iff_toInt_le, hvalue, Int64.toInt_zero]
    omega
  rw [wordOf, Int64.toNat_toUInt64_of_le hnonneg, ← Int64.toNat_toInt, hvalue, Int.toNat_natCast]

theorem run_next_packed {t : Taps} (ht : t.Fits source) (before rest : List Int16) :
    next.run ⟨before ++ (t.packed ++ rest), before.length⟩ =
      .ok (some t) ⟨before ++ (t.packed ++ rest), (before ++ t.packed).length⟩ := by
  have hmore : ¬ (before ++ (t.packed ++ rest)).length ≤ before.length := by
    rw [List.length_append, List.length_append, length_packed]
    omega
  have hweights : ¬ (t.weights ++ rest).length < t.weights.length := by
    rw [List.length_append]
    omega
  have hposition : before.length + 2 + t.weights.length = (before ++ t.packed).length := by
    rw [List.length_append, length_packed]
    omega
  simp only [next, EStateM.run, if_neg hmore, List.drop_left]
  simp only [packed_eq, List.cons_append, wordOf_ofNat ht.start_le, wordOf_ofNat ht.length_le,
    if_neg hweights, List.take_left, hposition]

theorem yields_packedRows (h : ∀ t ∈ rows, t.Fits source) (before : List Int16) :
    Yields ⟨before ++ packedRows rows, before.length⟩ rows := by
  induction rows generalizing before with
  | nil =>
    have hend : (before ++ packedRows []).length ≤ before.length := by simp [packedRows]
    simp only [Yields, next, EStateM.run, if_pos hend]
  | cons t rows ih =>
    obtain ⟨ht, hrows⟩ := List.forall_mem_cons.1 h
    have htail := ih hrows (before ++ t.packed)
    rw [List.append_assoc] at htail
    exact ⟨_, run_next_packed ht before (packedRows rows), htail⟩

end Cursor

theorem packAll_eq_packedRows (rows : List Taps) :
    packAll (rows.map fun t => (Int16.ofNat t.start, t.weights)) = packedRows rows := by
  rw [packAll, packedRows, List.flatMap_map]
  rfl

namespace Kernel

theorem accepts_grammar (data : List Int16) (source count : ℕ) :
    ((∃ k, ofPacked? data source count = .ok k) ↔ ∃ rows, AcceptedAs source count data rows) ∧
    (∀ rows, AcceptedAs source count data rows → ∃ k,
      ofPacked? data source count = .ok k ∧ k.packed = packedRows rows ∧
      k.rows? = some rows ∧ k.cursor.Yields rows ∧
      packAll (rows.map fun t => (Int16.ofNat t.start, t.weights)) = k.packed ∧
      ∀ other, k.packed <+: other → ofPacked? other source count = .ok k) ∧
    ∀ f, ofPacked? data source count = .error f ↔ ∃ rows flaw,
      RefusedAt source count data rows flaw ∧ f = .badRecord rows.length flaw.text ∧
      ∀ more, (∀ t ∈ more, t.Fits source) → packedRows more <+: data →
        more.length ≤ rows.length := by
  refine ⟨exists_ok_iff, ?_, ?_⟩
  · intro rows h
    obtain ⟨rfl, hfits, -⟩ := id h
    have hread := unpack?_packedRows hfits []
    rw [List.append_nil] at hread
    refine ⟨⟨packedRows rows, rows.length⟩, ofPacked?_eq_of_acceptedAs h, rfl, hread,
      Cursor.yields_packedRows hfits [], packAll_eq_packedRows rows, ?_⟩
    intro other hother
    exact ofPacked?_eq_of_acceptedAs ⟨rfl, hfits, hother⟩
  · intro f
    rw [ofPacked?_eq_error_iff]
    constructor
    · rintro ⟨rows, flaw, h, rfl⟩
      exact ⟨rows, flaw, h, rfl, fun more => h.length_le⟩
    · rintro ⟨rows, flaw, h, rfl, -⟩
      exact ⟨rows, flaw, h, rfl⟩

theorem accepts_grammar_halves :
    AcceptedAs 5 2 [0, 2, 8192, 8192, 3, 2, 8192, 8192, 99]
      [⟨0, [8192, 8192]⟩, ⟨3, [8192, 8192]⟩] ∧
    RefusedAt 4 2 [0, 2, 8192, 8192, 3, 2, 8192, 8192, 99] [⟨0, [8192, 8192]⟩] .pastSource ∧
    (∃ k, ofPacked? [0, 2, 8192, 8192, 3, 2, 8192, 8192, 99] 5 2 = .ok k ∧
      k.packed = [0, 2, 8192, 8192, 3, 2, 8192, 8192] ∧
      k.cursor.Yields [⟨0, [8192, 8192]⟩, ⟨3, [8192, 8192]⟩] ∧
      ofPacked? [0, 2, 8192, 8192, 3, 2, 8192, 8192] 5 2 = .ok k) ∧
    ofPacked? [0, 2, 8192, 8192, 3, 2, 8192, 8192, 99] 4 2 =
      .error (.badRecord 1 "taps read past the source line") := by
  have hfits : ∀ source ∈ [4, 5], (⟨0, [8192, 8192]⟩ : Taps).Fits source := by
    intro source hsource
    have hlarge : 2 ≤ source := by
      rcases List.mem_pair.1 hsource with rfl | rfl <;> decide
    exact ⟨by decide, by decide, hlarge, by decide⟩
  have haccepted : AcceptedAs 5 2 [0, 2, 8192, 8192, 3, 2, 8192, 8192, 99]
      [⟨0, [8192, 8192]⟩, ⟨3, [8192, 8192]⟩] := by
    refine ⟨rfl, ?_, [99], by decide⟩
    rw [List.forall_mem_cons, List.forall_mem_singleton]
    exact ⟨hfits 5 (by decide), by decide, by decide, by decide, by decide⟩
  have hrefused : RefusedAt 4 2 [0, 2, 8192, 8192, 3, 2, 8192, 8192, 99] [⟨0, [8192, 8192]⟩]
      .pastSource := by
    refine ⟨by decide, ?_, ⟨[3, 2, 8192, 8192, 99], by decide⟩, ?_⟩
    · rw [List.forall_mem_singleton]
      exact hfits 4 (by decide)
    · exact RowFlaw.firstAt_of_checkRow (by decide)
  obtain ⟨k, hk, hpacked, -, hyields, -, hother⟩ :=
    (accepts_grammar [0, 2, 8192, 8192, 3, 2, 8192, 8192, 99] 5 2).2.1 _ haccepted
  have hfront : k.packed = [0, 2, 8192, 8192, 3, 2, 8192, 8192] := by
    rw [hpacked]
    decide
  refine ⟨haccepted, hrefused, ⟨k, hk, hfront, hyields, hother _ (by rw [hfront])⟩, ?_⟩
  exact ((accepts_grammar _ 4 2).2.2 _).2 ⟨_, _, hrefused, rfl, fun more => hrefused.length_le⟩

end Kernel
end FixedRaster
