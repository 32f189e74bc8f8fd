import FixedRaster.Fault

/-!
# Calls that edit buffers

A call takes the buffers it may write as its state and returns a value or a fault together with
the buffers as it leaves them. A fault therefore says what was written before it arose, and
"nothing was written" is a statement about calls and not a property of their type.
-/

namespace FixedRaster

abbrev Edit (σ α : Type) := EStateM Fault σ α

namespace Edit

variable {σ τ α β : Type}

def check (c : Except Fault α) : Edit σ α := fun s =>
  match c with
  | .ok a => .ok a s
  | .error f => .error f s

instance : MonadLift (Except Fault) (EStateM Fault σ) where
  monadLift c := check c

/-- Work without a result stands for an index past a buffer. What it had written up to there is left
out: every call makes sure before its work that there is a result. -/
def work (step : σ → Option σ) : Edit σ Unit := fun s =>
  match step s with
  | some t => .ok () t
  | none => .error .outOfRange s

def within (part : σ → τ) (put : τ → σ → σ) (e : Edit τ α) : Edit σ α := fun s =>
  match e.run (part s) with
  | .ok a t => .ok a (put t s)
  | .error f t => .error f (put t s)

@[simp]
theorem run_liftM_ok (a : α) (s : σ) :
    (liftM (Except.ok a : Except Fault α) : Edit σ α).run s = .ok a s := rfl

@[simp]
theorem run_liftM_error (f : Fault) (s : σ) :
    (liftM (Except.error f : Except Fault α) : Edit σ α).run s = .error f s := rfl

theorem run_work_some {step : σ → Option σ} {s t : σ} (h : step s = some t) :
    (work step).run s = .ok () t := by
  simp [work, EStateM.run, h]

theorem run_work_none {step : σ → Option σ} {s : σ} (h : step s = none) :
    (work step).run s = .error .outOfRange s := by
  simp [work, EStateM.run, h]

theorem run_within_ok {part : σ → τ} {put : τ → σ → σ} {e : Edit τ α} {s : σ} {t : τ} {a : α}
    (h : e.run (part s) = .ok a t) : (within part put e).run s = .ok a (put t s) := by
  simp only [within, EStateM.run] at h ⊢
  rw [h]

theorem run_within_error {part : σ → τ} {put : τ → σ → σ} {e : Edit τ α} {s : σ} {t : τ}
    {f : Fault} (h : e.run (part s) = .error f t) :
    (within part put e).run s = .error f (put t s) := by
  simp only [within, EStateM.run] at h ⊢
  rw [h]

end Edit

end FixedRaster
