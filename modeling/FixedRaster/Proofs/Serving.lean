import Mathlib
import FixedRaster.Proofs.Checks

/-!
# Calls on kept buffers

Some buffers of a call belong to its caller, and others to an owner who keeps them for the next
call. A caller sees the outcome of its call and its own buffers. If a call answers its request
whatever is kept, and keeps what the next call needs, then every call of a run answers its request.
-/

namespace FixedRaster
namespace Edit
variable {σ τ υ κ ρ α β : Type}

def outcome : EStateM.Result Fault σ α → Except Fault α
  | .ok a _ => .ok a
  | .error f _ => .error f

def left : EStateM.Result Fault σ α → σ
  | .ok _ s => s
  | .error _ s => s

/-- The result of a call for someone who sees a part of its buffers. -/
def seen (view : σ → τ) : EStateM.Result Fault σ α → EStateM.Result Fault τ α
  | .ok a s => .ok a (view s)
  | .error f s => .error f (view s)

theorem seen_id (r : EStateM.Result Fault σ α) : seen id r = r := by
  cases r <;> rfl

theorem outcome_seen (view : σ → τ) (r : EStateM.Result Fault σ α) :
    outcome (seen view r) = outcome r := by
  cases r <;> rfl

theorem left_seen (view : σ → τ) (r : EStateM.Result Fault σ α) :
    left (seen view r) = view (left r) := by
  cases r <;> rfl

theorem seen_eq_ok_iff {view : σ → τ} {r : EStateM.Result Fault σ α} {a : α} {t : τ} :
    seen view r = .ok a t ↔ ∃ s, r = .ok a s ∧ view s = t := by
  cases r <;> simp [seen, and_assoc]

theorem outcome_eq_ok_iff {r : EStateM.Result Fault σ α} {a : α} :
    outcome r = .ok a ↔ ∃ s, r = .ok a s := by
  cases r <;> simp [outcome]

theorem seen_check_bind {view : σ → υ} {view' : τ → υ} {c : Except Fault α} {k : α → Edit σ β}
    {k' : α → Edit τ β} {s : σ} {t : τ} (hview : view s = view' t)
    (hk : ∀ a, c = .ok a → seen view ((k a).run s) = seen view' ((k' a).run t)) :
    seen view ((liftM c >>= k : Edit σ β).run s) =
      seen view' ((liftM c >>= k' : Edit τ β).run t) := by
  cases hc : c with
  | ok a => exact hk a hc
  | error f => exact congrArg (EStateM.Result.error f) hview

theorem outcome_check_bind_ne {c : Except Fault α} {k : α → Edit σ β} {s : σ} {f : Fault}
    (hc : c ≠ .error f) (hk : ∀ a, c = .ok a → outcome ((k a).run s) ≠ .error f) :
    outcome ((liftM c >>= k : Edit σ β).run s) ≠ .error f := by
  cases hok : c with
  | ok a => exact hk a hok
  | error g =>
    rw [hok] at hc
    exact fun h => hc (congrArg Except.error (Except.error.inj h))

theorem seen_within {part : σ → τ} {put : τ → σ → σ} {view : σ → υ} {view' : τ → υ}
    {e : Edit τ α} {s : σ} (hview : ∀ t, view (put t s) = view' t) :
    seen view ((within part put e).run s) = seen view' (e.run (part s)) := by
  cases he : e.run (part s) with
  | ok a t => rw [run_within_ok he, seen, seen, hview]
  | error f t => rw [run_within_error he, seen, seen, hview]

theorem exists_seen_ok_iff {view : σ → τ} {r : EStateM.Result Fault σ α} :
    (∃ a t, seen view r = .ok a t) ↔ ∃ a s, r = .ok a s := by
  cases r <;> simp [seen]

/-- The call succeeds exactly where the condition holds, and a fault has written nothing that the
view shows. -/
structure AtomicOn (view : σ → τ) (call : Edit σ α) (s : σ) (accepted : Prop) : Prop where
  ok_iff : (∃ a t, call.run s = .ok a t) ↔ accepted
  error_kept : ∀ f t, call.run s = .error f t → view t = view s ∧ f ≠ .outOfRange

theorem AtomicOn.exists_error_iff {view : σ → τ} {call : Edit σ α} {s : σ} {accepted : Prop}
    (h : AtomicOn view call s accepted) :
    (∃ f t, call.run s = .error f t) ↔ ¬ accepted := by
  rw [← h.ok_iff]
  cases call.run s <;> simp

theorem Atomic.on {call : Edit σ α} {s : σ} {accepted : Prop} (h : Atomic call s accepted)
    (view : σ → τ) : AtomicOn view call s accepted := by
  refine ⟨h.ok_iff, ?_⟩
  intro f t hrun
  obtain ⟨hkept, hf⟩ := h.error_kept f t hrun
  exact ⟨congrArg view hkept, hf⟩

theorem AtomicOn.congr {view : σ → υ} {view' : τ → υ} {call : Edit σ α} {call' : Edit τ α} {s : σ}
    {t : τ} {accepted accepted' : Prop} (h : AtomicOn view' call' t accepted')
    (hseen : seen view (call.run s) = seen view' (call'.run t)) (hview : view s = view' t)
    (hiff : accepted' ↔ accepted) : AtomicOn view call s accepted := by
  constructor
  case ok_iff =>
    have hok : (∃ a u, seen view (call.run s) = .ok a u) ↔ ∃ a u, call.run s = .ok a u :=
      exists_seen_ok_iff
    rw [← hok, hseen, exists_seen_ok_iff, h.ok_iff, hiff]
  case error_kept =>
    intro f u hrun
    rw [hrun] at hseen
    cases hrun' : call'.run t with
    | ok a u' =>
      rw [hrun'] at hseen
      cases hseen
    | error f' u' =>
      rw [hrun'] at hseen
      obtain ⟨rfl, heq⟩ := EStateM.Result.error.inj hseen
      obtain ⟨hkept, hf⟩ := h.error_kept f u' hrun'
      exact ⟨heq.trans (hkept.trans hview.symm), hf⟩

def serve (call : ρ → Edit (σ × κ) α) (buffers : ρ → σ) :
    List ρ → κ → List (EStateM.Result Fault σ α) × κ
  | [], k => ([], k)
  | r :: requests, k =>
    let result := (call r).run (buffers r, k)
    let rest := serve call buffers requests (left result).2
    (seen Prod.fst result :: rest.1, rest.2)

section
variable {call : ρ → Edit (σ × κ) α} {buffers : ρ → σ} {requests : List ρ} {Fit : κ → Prop}

theorem serve_forall₂ (Answered : ρ → EStateM.Result Fault σ α → Prop)
    (hstep : ∀ r ∈ requests, ∀ k, Fit k →
      Answered r (seen Prod.fst ((call r).run (buffers r, k))) ∧
        Fit (left ((call r).run (buffers r, k))).2)
    {k : κ} (hk : Fit k) :
    List.Forall₂ Answered requests (serve call buffers requests k).1 ∧
      Fit (serve call buffers requests k).2 := by
  -- by induction on the requests: every call leaves something fit for the next one
  induction requests generalizing k with
  | nil => exact ⟨.nil, hk⟩
  | cons r requests ih =>
    obtain ⟨hanswer, hkept⟩ := hstep r (List.mem_cons_self ..) k hk
    obtain ⟨hrest, hlast⟩ := ih (fun q hq => hstep q (List.mem_cons_of_mem r hq)) hkept
    exact ⟨.cons hanswer hrest, hlast⟩

theorem serve_eq_map {answer : ρ → EStateM.Result Fault σ α}
    (hstep : ∀ r ∈ requests, ∀ k, Fit k →
      seen Prod.fst ((call r).run (buffers r, k)) = answer r ∧
        Fit (left ((call r).run (buffers r, k))).2)
    {k : κ} (hk : Fit k) :
    (serve call buffers requests k).1 = requests.map answer ∧
      Fit (serve call buffers requests k).2 := by
  obtain ⟨hanswers, hlast⟩ := serve_forall₂ (fun r a => a = answer r) hstep hk
  refine ⟨?_, hlast⟩
  have hmap : List.Forall₂ (fun a b => a = b) (serve call buffers requests k).1
      (requests.map answer) :=
    List.forall₂_map_right_iff.2 hanswers.flip
  rwa [List.forall₂_eq_eq_eq] at hmap

end

end Edit
end FixedRaster
