import Mathlib
import FixedRaster.Proofs.Memory.Granting
import FixedRaster.Proofs.Serving

/-!
# What a store remembers

A store serves writes, reads and requests to grow. After any run of them it holds at each offset the
byte of the last write that was granted there, and zero where none was. Whether a call is granted
depends on where it ends and on nothing else, and a refused one leaves no trace.
-/

namespace FixedRaster.Memory

inductive Access where
  | write (offset : ℕ) (data : Array UInt8)
  | read (offset count : ℕ)
  | grow (count : ℕ)

namespace Access

def perform : Access → Store → Store
  | write offset data, s => Edit.left ((Store.write offset data).run s)
  | read _ _, s => s
  | grow count, s => s.grow count

def lays? : Access → Store → ℕ → Option UInt8
  | write offset data, s, i =>
    if Edit.finished ((Store.write offset data).run s) ∧ offset ≤ i then data[i - offset]? else none
  | _, _, _ => none

def asks : Access → ℕ
  | grow count => Store.capacityFor count
  | _ => 0

end Access

namespace Store
variable {s : Store} {offset count : ℕ} {data : Array UInt8}

def byteAt (s : Store) (i : ℕ) : UInt8 := s.bytes.getD i 0

def after (s : Store) (calls : List Access) : Store := calls.foldl (fun s call => call.perform s) s

/-- The byte that the last granted write of a run laid at an offset. -/
def lastLaid? : Store → List Access → ℕ → Option UInt8
  | _, [], _ => none
  | s, call :: later, i => (lastLaid? (call.perform s) later i).or (call.lays? s i)

/-- The fault of an access that ends behind the store. An end that no word can hold is reported as
the largest word. -/
def beyond (s : Store) (stop : ℕ) : Fault :=
  outside (if stop < wordLimit then stop else wordLimit - 1) s.size

theorem holds_bytes_iff (hs : s.size < wordLimit) :
    s.Holds 1 offset count ↔ offset + count ≤ s.size := by
  rw [holds_iff hs, Nat.mod_one, Nat.mul_one]
  exact and_iff_right rfl

theorem region?_beyond (h : s.size < offset + count) :
    s.region? 1 offset count = .error (s.beyond (offset + count)) := by
  rw [region?, beyond, if_neg (by omega), Nat.mul_one, Nat.add_comm count]
  by_cases hword : offset + count < wordLimit
  · rw [if_neg (by omega), if_pos h, if_pos hword]
  · rw [if_pos (by omega), if_neg hword]

theorem run_write (hs : s.size < wordLimit) (h : offset + data.size ≤ s.size) :
    (write offset data).run s = .ok () ⟨splice s.bytes offset data⟩ := by
  rw [write, Edit.run_get_bind,
    Edit.run_check_bind_of_ok ((holds_bytes_iff hs).2 h).region?_eq]
  rfl

theorem run_write_beyond (h : s.size < offset + data.size) :
    (write offset data).run s = .error (s.beyond (offset + data.size)) s := by
  rw [write, Edit.run_get_bind, Edit.run_check_bind, region?_beyond h]

theorem read?_eq (hs : s.size < wordLimit) (h : offset + count ≤ s.size) :
    s.read? offset count = .ok (Array.ofFn (n := count) fun i => s.byteAt (offset + i)) := by
  have hregion := ((holds_bytes_iff hs).2 h).region?_eq
  have hview : s.view ⟨offset, count * 1⟩ =
      Array.ofFn (n := count) fun i => s.byteAt (offset + i) := by
    rw [Store.size] at h
    apply Array.ext
    · simp only [view, Region.stop, Array.size_extract, Array.size_ofFn]
      omega
    · intro i hi hi'
      rw [Array.size_ofFn] at hi'
      have hin : offset + i < s.bytes.size := by omega
      simp [view, byteAt, hin]
  rw [read?, hregion, ← hview]
  rfl

theorem read?_beyond (h : s.size < offset + count) :
    s.read? offset count = .error (s.beyond (offset + count)) := by
  rw [read?, region?_beyond h]
  rfl

theorem finished_write_iff (hs : s.size < wordLimit) :
    Edit.finished ((write offset data).run s) = true ↔ offset + data.size ≤ s.size := by
  by_cases h : offset + data.size ≤ s.size
  · rw [run_write hs h]
    exact iff_of_true rfl h
  · rw [run_write_beyond (by omega)]
    exact iff_of_false (by simp [Edit.finished]) h

theorem capacityFor_mod (count : ℕ) : capacityFor count % 4 = 0 := by
  rw [capacityFor]
  omega

theorem capacityFor_lt (count : ℕ) : capacityFor count < wordLimit := by
  simp only [capacityFor, wordLimit]
  omega

theorem le_capacityFor (h : count + 3 < wordLimit) : count ≤ capacityFor count := by
  simp only [capacityFor, wordLimit] at h ⊢
  omega

theorem size_ofCapacity (count : ℕ) : (ofCapacity count).size = capacityFor count :=
  Array.size_replicate

theorem byteAt_ofCapacity (count i : ℕ) : (ofCapacity count).byteAt i = 0 := by
  simp only [byteAt, ofCapacity, Array.getD_eq_getD_getElem?, Array.getElem?_replicate]
  split_ifs <;> rfl

theorem size_grow (s : Store) (count : ℕ) :
    (s.grow count).size = max s.size (capacityFor count) := by
  simp only [Store.size, grow, grown]
  split_ifs with h
  · rw [size_resized]
    omega
  · omega

theorem byteAt_grow (s : Store) (count i : ℕ) : (s.grow count).byteAt i = s.byteAt i := by
  simp only [byteAt, grow, grown]
  split_ifs with h
  · simp only [resized, Array.getD_eq_getD_getElem?, Array.getElem?_append, Array.size_extract,
      Array.getElem?_extract, Array.getElem?_replicate]
    split_ifs <;> grind
  · rfl

structure Sound (s : Store) : Prop where
  mod_eq : s.size % 4 = 0
  size_lt : s.size < wordLimit

theorem ofCapacity_sound (count : ℕ) : (ofCapacity count).Sound := by
  constructor
  · rw [size_ofCapacity, capacityFor_mod]
  · rw [size_ofCapacity]
    exact capacityFor_lt count

theorem asks_mod (call : Access) : call.asks % 4 = 0 := by
  cases call with
  | grow count => exact capacityFor_mod count
  | _ => rfl

theorem asks_lt (call : Access) : call.asks < wordLimit := by
  cases call with
  | grow count => exact capacityFor_lt count
  | _ => exact Nat.two_pow_pos 64

theorem size_perform (hs : s.Sound) (call : Access) :
    (call.perform s).size = max s.size call.asks := by
  cases call with
  | write offset data =>
    have hnone : max s.size (Access.write offset data).asks = s.size := Nat.max_zero s.size
    rw [hnone, Access.perform]
    by_cases h : offset + data.size ≤ s.size
    · rw [run_write hs.size_lt h]
      exact size_splice h
    · rw [run_write_beyond (Nat.lt_of_not_le h)]
      rfl
  | read offset count => exact (Nat.max_zero s.size).symm
  | grow count => exact size_grow s count

theorem Sound.perform (hs : s.Sound) (call : Access) :
    (call.perform s).Sound ∧ s.size ≤ (call.perform s).size := by
  have hmod := hs.mod_eq
  have hlt := hs.size_lt
  have hmod' := asks_mod call
  have hlt' := asks_lt call
  rw [size_perform hs]
  refine ⟨⟨?_, ?_⟩, le_max_left ..⟩
  · rw [size_perform hs]
    omega
  · rw [size_perform hs]
    omega

theorem byteAt_perform (hs : s.Sound) (call : Access) (i : ℕ) :
    (call.perform s).byteAt i = (call.lays? s i).getD (s.byteAt i) := by
  cases call with
  | write offset data =>
    simp only [Access.perform, Access.lays?, finished_write_iff hs.size_lt]
    by_cases h : offset + data.size ≤ s.size
    · rw [run_write hs.size_lt h]
      simp only [Edit.left, byteAt, Array.getD_eq_getD_getElem?, getElem?_splice h]
      by_cases hin : offset ≤ i ∧ i < offset + data.size
      · have hdata : i - offset < data.size := by omega
        rw [if_pos hin, if_pos ⟨h, hin.1⟩, Array.getElem?_eq_getElem hdata]
        rfl
      · rw [if_neg hin]
        split_ifs with hlaid
        · have hnone : data[i - offset]? = none := Array.getElem?_eq_none (by omega)
          rw [hnone]
          rfl
        · rfl
    · rw [run_write_beyond (Nat.lt_of_not_le h), if_neg (fun hlaid => h hlaid.1)]
      rfl
  | read offset count => rfl
  | grow count => exact byteAt_grow s count i

theorem Sound.after (hs : s.Sound) (calls : List Access) :
    (s.after calls).Sound ∧ s.size ≤ (s.after calls).size := by
  induction calls generalizing s with
  | nil => exact ⟨hs, le_rfl⟩
  | cons call later ih =>
    obtain ⟨hnext, hle⟩ := hs.perform call
    obtain ⟨hlast, hle'⟩ := ih hnext
    exact ⟨hlast, hle.trans hle'⟩

theorem byteAt_after (hs : s.Sound) (calls : List Access) (i : ℕ) :
    (s.after calls).byteAt i = (s.lastLaid? calls i).getD (s.byteAt i) := by
  induction calls generalizing s with
  | nil => rfl
  | cons call later ih =>
    have hrun : (s.after (call :: later)).byteAt i = ((call.perform s).after later).byteAt i := rfl
    rw [hrun, ih (hs.perform call).1, byteAt_perform hs, lastLaid?]
    cases lastLaid? (call.perform s) later i <;> rfl

theorem after_append (s : Store) (calls later : List Access) :
    s.after (calls ++ later) = (s.after calls).after later :=
  List.foldl_append

theorem le_size_after (hs : s.Sound) {calls : List Access} (hcall : .grow count ∈ calls)
    (hcount : count + 3 < wordLimit) : count ≤ (s.after calls).size := by
  obtain ⟨calls, later, rfl⟩ := List.append_of_mem hcall
  obtain ⟨hbefore, -⟩ := hs.after calls
  obtain ⟨hgrown, -⟩ := hbefore.perform (.grow count)
  rw [after_append]
  refine le_trans ?_ (hgrown.after later).2
  rw [size_perform hbefore]
  exact (le_capacityFor hcount).trans (le_max_right ..)

structure Serves (s : Store) (byte : ℕ → UInt8) : Prop where
  write_iff : ∀ offset data,
    (∃ t, (write offset data).run s = .ok () t) ↔ offset + data.size ≤ s.size
  read_iff : ∀ offset count,
    (∃ bytes, s.read? offset count = .ok bytes) ↔ offset + count ≤ s.size
  write_beyond : ∀ offset data, s.size < offset + data.size →
    (write offset data).run s = .error (s.beyond (offset + data.size)) s
  read_beyond : ∀ offset count, s.size < offset + count →
    s.read? offset count = .error (s.beyond (offset + count))
  read_eq : ∀ offset count bytes, s.read? offset count = .ok bytes →
    bytes = Array.ofFn (n := count) fun i => byte (offset + i)

theorem Sound.serves (hs : s.Sound) : s.Serves s.byteAt where
  write_iff offset data := by
    rw [← finished_write_iff hs.size_lt]
    cases (write offset data).run s <;> simp [Edit.finished]
  read_iff offset count := by
    constructor
    · rintro ⟨bytes, hread⟩
      by_contra hle
      rw [read?_beyond (by omega)] at hread
      cases hread
    · intro hle
      exact ⟨_, read?_eq hs.size_lt hle⟩
  write_beyond offset data := run_write_beyond
  read_beyond offset count := read?_beyond
  read_eq offset count bytes hread := by
    by_cases hle : offset + count ≤ s.size
    · rw [read?_eq hs.size_lt hle] at hread
      exact (Except.ok.inj hread).symm
    · rw [read?_beyond (by omega)] at hread
      cases hread

/-- A store serves every run of calls as a row of bytes that starts as zeros, grows by whole words
and remembers the last write that was granted. -/
theorem ofCapacity_serves {capacity : ℕ} {calls : List Access}
    (hcapacity : capacity + 3 < wordLimit)
    (hgrow : ∀ count, .grow count ∈ calls → count + 3 < wordLimit) :
    ((ofCapacity capacity).after calls).size % 4 = 0 ∧
      capacity ≤ ((ofCapacity capacity).after calls).size ∧
      (∀ count, .grow count ∈ calls → count ≤ ((ofCapacity capacity).after calls).size) ∧
      (∀ n, ((ofCapacity capacity).after (calls.take n)).size ≤
        ((ofCapacity capacity).after calls).size) ∧
      ((ofCapacity capacity).after calls).Serves
        fun i => ((ofCapacity capacity).lastLaid? calls i).getD 0 := by
  have hstart := ofCapacity_sound capacity
  obtain ⟨hsound, hle⟩ := hstart.after calls
  have hbytes : ((ofCapacity capacity).after calls).byteAt =
      fun i => ((ofCapacity capacity).lastLaid? calls i).getD 0 := by
    funext i
    rw [byteAt_after hstart, byteAt_ofCapacity]
  refine ⟨hsound.mod_eq, ?_, ?_, ?_, hbytes ▸ hsound.serves⟩
  · rw [size_ofCapacity] at hle
    exact (le_capacityFor hcapacity).trans hle
  · intro count hcall
    exact le_size_after hstart hcall (hgrow count hcall)
  · intro n
    have hsplit : ((ofCapacity capacity).after (calls.take n)).after (calls.drop n) =
        (ofCapacity capacity).after calls := by
      rw [← after_append, List.take_append_drop]
    rw [← hsplit]
    exact ((hstart.after (calls.take n)).1.after (calls.drop n)).2

def interleaved : List Access :=
  [.write 3 #[1, 2, 3], .write 7 #[9, 9], .write 18446744073709551615 #[5], .grow 9, .read 2 5,
    .write 4 #[7]]

theorem ofCapacity_serves_interleaved :
    5 + 3 < wordLimit ∧ (∀ count, .grow count ∈ interleaved → count + 3 < wordLimit) ∧
      ((ofCapacity 5).after interleaved).size = 12 ∧
      ((ofCapacity 5).after interleaved).read? 2 7 = .ok #[0, 1, 7, 3, 0, 0, 0] ∧
      ((ofCapacity 5).after interleaved).read? 18446744073709551615 2 =
        .error (outside 18446744073709551615 12) := by
  have hcapacity : 5 + 3 < wordLimit := by decide
  have hgrow : ∀ count, .grow count ∈ interleaved → count + 3 < wordLimit := by
    simp [interleaved, wordLimit]
  have hsize : ((ofCapacity 5).after interleaved).size = 12 := by decide +kernel
  obtain ⟨-, -, -, -, hserves⟩ := ofCapacity_serves hcapacity hgrow
  obtain ⟨bytes, hread⟩ := (hserves.read_iff 2 7).2 (by rw [hsize]; decide)
  have hbytes : bytes = #[0, 1, 7, 3, 0, 0, 0] := by
    rw [hserves.read_eq 2 7 bytes hread]
    decide +kernel
  have hbeyond := hserves.read_beyond 18446744073709551615 2 (by rw [hsize]; decide)
  refine ⟨hcapacity, hgrow, hsize, hbytes ▸ hread, ?_⟩
  rw [hbeyond, beyond, hsize]
  rfl

end Store
end FixedRaster.Memory
