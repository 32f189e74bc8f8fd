import Mathlib
import FixedRaster.Edit
import FixedRaster.Extent

/-!
# The steps of a call

A check that is passed hands its value on, and one that is not ends the call with the buffers as
they are. A call that succeeds has run each of its steps. No check of an argument reports that a
call breaks off: that is left to lengths without a word and to the work behind the checks.
-/

namespace FixedRaster
namespace Edit
variable {σ τ α β : Type}

theorem run_check_bind (c : Except Fault α) (k : α → Edit σ β) (s : σ) :
    (liftM c >>= k : Edit σ β).run s =
      match c with
      | .ok a => (k a).run s
      | .error f => .error f s := by
  cases c <;> rfl

theorem run_get_bind (k : σ → Edit σ β) (s : σ) :
    ((get : Edit σ σ) >>= k).run s = (k s).run s := rfl

theorem run_modify_bind (f : σ → σ) (k : PUnit → Edit σ β) (s : σ) :
    ((modify f : Edit σ PUnit) >>= k).run s = (k ⟨⟩).run (f s) := rfl

theorem run_bind_of_ok {e : Edit σ α} {k : α → Edit σ β} {s t : σ} {a : α}
    (h : e.run s = .ok a t) : (e >>= k).run s = (k a).run t := by
  simp only [EStateM.run, bind, EStateM.bind] at h ⊢
  rw [h]

theorem run_check_bind_of_ok {c : Except Fault α} {a : α} (h : c = .ok a) (k : α → Edit σ β)
    (s : σ) : (liftM c >>= k : Edit σ β).run s = (k a).run s := by
  rw [h]
  rfl

theorem run_bind_ok_iff {e : Edit σ α} {k : α → Edit σ β} {s t : σ} {b : β} :
    (e >>= k).run s = .ok b t ↔ ∃ a u, e.run s = .ok a u ∧ (k a).run u = .ok b t := by
  cases he : e.run s with
  | ok a u =>
    rw [run_bind_of_ok he]
    simp
  | error f u =>
    have hbind : (e >>= k).run s = .error f u := by
      simp only [EStateM.run, bind, EStateM.bind] at he ⊢
      rw [he]
    rw [hbind]
    simp

theorem run_check_bind_ok_iff {c : Except Fault α} {k : α → Edit σ β} {s t : σ} {b : β} :
    (liftM c >>= k : Edit σ β).run s = .ok b t ↔ ∃ a, c = .ok a ∧ (k a).run s = .ok b t := by
  rw [run_check_bind]
  cases c <;> simp

theorem run_check_bind_outOfRange_iff {c : Except Fault α} {k : α → Edit σ β} {s t : σ}
    (hfault : ∀ f, c = .error f → f ≠ .outOfRange) :
    (liftM c >>= k : Edit σ β).run s = .error .outOfRange t ↔
      ∃ a, c = .ok a ∧ (k a).run s = .error .outOfRange t := by
  rw [run_check_bind]
  cases c with
  | ok a => simp
  | error f => simpa using fun h => absurd h (hfault f rfl)

theorem run_within_ok_iff {part : σ → τ} {put : τ → σ → σ} {e : Edit τ α} {s t : σ} {a : α} :
    (within part put e).run s = .ok a t ↔ ∃ u, e.run (part s) = .ok a u ∧ put u s = t := by
  cases he : e.run (part s) with
  | ok a u =>
    rw [run_within_ok he]
    simp
  | error f u =>
    rw [run_within_error he]
    simp

def Refused (call : Edit σ α) (s : σ) : Prop := ∃ f, f ≠ .outOfRange ∧ call.run s = .error f s

theorem refused_or_check {c : Except Fault α} {k : α → Edit σ β} {s : σ} {P : Prop}
    (hfault : ∀ f, c = .error f → f ≠ .outOfRange)
    (hk : ∀ a, c = .ok a → Refused (k a) s ∨ P) : Refused (liftM c >>= k : Edit σ β) s ∨ P := by
  cases hc : c with
  | error f => exact .inl ⟨f, hfault f hc, rfl⟩
  | ok a => exact hk a hc

theorem refused_or_get {k : σ → Edit σ β} {s : σ} {P : Prop} (hk : Refused (k s) s ∨ P) :
    Refused ((get : Edit σ σ) >>= k) s ∨ P := hk

/-- The call succeeds exactly where the condition holds, and a fault has written nothing. -/
structure Atomic (call : Edit σ α) (s : σ) (accepted : Prop) : Prop where
  ok_iff : (∃ a t, call.run s = .ok a t) ↔ accepted
  error_kept : ∀ f t, call.run s = .error f t → t = s ∧ f ≠ .outOfRange

theorem atomic_of_cases {call : Edit σ α} {s : σ} {accepted : Prop}
    (hcases : Refused call s ∨ accepted) (hok : accepted → ∃ a t, call.run s = .ok a t) :
    Atomic call s accepted := by
  rcases hcases with ⟨f, hf, hrun⟩ | haccepted
  · refine ⟨⟨?_, hok⟩, ?_⟩
    · rintro ⟨a, t, hok⟩
      rw [hrun] at hok
      cases hok
    · intro f' t hrun'
      rw [hrun] at hrun'
      cases hrun'
      exact ⟨rfl, hf⟩
  · obtain ⟨a, t, hrun⟩ := hok haccepted
    refine ⟨⟨fun _ => haccepted, hok⟩, ?_⟩
    intro f' t' hrun'
    rw [hrun] at hrun'
    cases hrun'

theorem Atomic.of_run_eq {call call' : Edit σ α} {s : σ} {accepted : Prop}
    (h : Atomic call' s accepted) (hrun : call.run s = call'.run s) : Atomic call s accepted := by
  constructor
  case ok_iff =>
    rw [hrun]
    exact h.ok_iff
  case error_kept =>
    rw [hrun]
    exact h.error_kept

def finished : EStateM.Result Fault σ α → Bool
  | .ok _ _ => true
  | .error _ _ => false

theorem exists_ok_of_finished {r : EStateM.Result Fault σ α} (h : finished r = true) :
    ∃ a t, r = .ok a t := by
  cases r with
  | ok a t => exact ⟨a, t, rfl⟩
  | error f t => cases h

end Edit

section
variable {α β : Type} {c : Except Fault α} {k : α → Except Fault β}

theorem bind_eq_ok_iff {b : β} : c >>= k = .ok b ↔ ∃ a, c = .ok a ∧ k a = .ok b := by
  cases c <;> simp [bind, Except.bind]

theorem bind_eq_error_iff {f : Fault} :
    c >>= k = .error f ↔ c = .error f ∨ ∃ a, c = .ok a ∧ k a = .error f := by
  cases c <;> simp [bind, Except.bind]

end

theorem Extent.of?_eq_error {width height : UInt32} {f : Fault}
    (h : Extent.of? width height = .error f) : f = .badExtent width height := by
  rw [Extent.of?] at h
  split_ifs at h
  exact (Except.error.inj h).symm

theorem Extent.ne_outOfRange {width height : UInt32} {f : Fault}
    (h : Extent.of? width height = .error f) : f ≠ .outOfRange := by
  rw [Extent.of?_eq_error h]
  simp

theorem Extent.bytes_eq {width height : UInt32} {e : Extent} (h : Extent.of? width height = .ok e) :
    e.bytes = width.toNat * height.toNat * 4 := by
  obtain ⟨hwidth, hheight⟩ := of?_eq_ok_iff.1 h
  rw [bytes, pixels, hwidth, hheight, pixelBytes]

theorem Extent.exists_of?_le_iff {width height : UInt32} {length : ℕ} :
    (∃ e, Extent.of? width height = .ok e ∧ e.bytes ≤ length) ↔
      width ≠ 0 ∧ height ≠ 0 ∧ 4 * width.toNat * height.toNat < 2 ^ 64 ∧
        4 * width.toNat * height.toNat ≤ length := by
  have hcount : width.toNat * height.toNat * 4 = 4 * width.toNat * height.toNat := by ring
  have hpos : ∀ side : UInt32, 0 < side.toNat ↔ side ≠ 0 := by
    intro side
    rw [Nat.pos_iff_ne_zero, ne_eq, ne_eq, ← UInt32.toNat_inj, UInt32.toNat_zero]
  constructor
  · rintro ⟨e, he, hle⟩
    obtain ⟨hwidth, hheight⟩ := of?_eq_ok_iff.1 he
    have hlt : e.bytes < 2 ^ 64 := e.bytes_lt
    rw [bytes_eq he, hcount] at hle hlt
    exact ⟨(hpos width).1 (hwidth ▸ e.width_pos), (hpos height).1 (hheight ▸ e.height_pos), hlt,
      hle⟩
  · rintro ⟨hwidth, hheight, hlt, hle⟩
    rw [← hcount] at hlt hle
    exact ⟨⟨width.toNat, height.toNat, (hpos width).2 hwidth, (hpos height).2 hheight, hlt⟩,
      of?_eq_ok_iff.2 ⟨rfl, rfl⟩, hle⟩

theorem requireLength_eq_error {what : String} {required actual : ℕ} {f : Fault}
    (h : requireLength what required actual = .error f) :
    f = .shortBuffer what required actual := by
  rw [requireLength] at h
  split_ifs at h
  exact (Except.error.inj h).symm

theorem requireLength_ne_outOfRange {what : String} {required actual : ℕ} {f : Fault}
    (h : requireLength what required actual = .error f) : f ≠ .outOfRange := by
  rw [requireLength_eq_error h]
  simp

end FixedRaster
