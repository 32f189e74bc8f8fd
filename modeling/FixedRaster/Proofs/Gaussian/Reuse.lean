import Mathlib
import FixedRaster.Proofs.Gaussian.Passes
import FixedRaster.Proofs.Serving

/-!
# Blurs on kept scratch

Scratch that holds the extent of a plane serves a blur as well as any other. As it grows before each
blur, every blur of a run answers as on zeroed scratch of its own, and a blur of a plane in its
place as one of a copy of it.
-/

namespace FixedRaster.Gaussian

section
variable {plane : Array UInt16} {width height : UInt32} {radius : Float32}

theorem covers_of_holds {e : Extent} {s : Scratch} (hs : s.Holds e) (source : ℕ)
    (out : Array UInt16) :
    covers e source (out, s) =
      (do
        e.coversPlane "blur source plane" source
        e.coversPlane "blur destination plane" out.size) := by
  simp only [covers, Extent.coversPlane, requireLength_eq_ok_iff.2 hs.1,
    requireLength_eq_ok_iff.2 hs.2]
  cases requireLength "blur source plane" e.pixels source with
  | error f => rfl
  | ok _ => cases requireLength "blur destination plane" e.pixels out.size <;> rfl

theorem covers_self {e : Extent} {s s' : Scratch} (hs : s.Holds e) (hs' : s'.Holds e)
    {out : Array UInt16} (hout : e.pixels ≤ out.size) :
    covers e plane.size (plane, s) = covers e plane.size (out, s') := by
  rw [covers_of_holds hs, covers_of_holds hs']
  cases hplane : e.coversPlane "blur source plane" plane.size with
  | error f => rfl
  | ok _ =>
    have hroom : e.pixels ≤ plane.size := requireLength_eq_ok_iff.1 hplane
    have htarget : e.coversPlane "blur destination plane" plane.size = .ok () :=
      requireLength_eq_ok_iff.2 hroom
    have htarget' : e.coversPlane "blur destination plane" out.size = .ok () :=
      requireLength_eq_ok_iff.2 hout
    rw [htarget, htarget']

theorem seen_blur_congr {τ : Type} {view : Array UInt16 × Scratch → τ}
    {before before' : Array UInt16 × Scratch} (hview : view before = view before')
    (hcovers : ∀ e, Extent.of? width height = .ok e →
      covers e plane.size before = covers e plane.size before')
    (hleft : ∀ c e after after', Blurred c e plane before after →
      Blurred c e plane before' after' → view after = view after') :
    Edit.seen view ((blur plane width height radius).run before) =
      Edit.seen view ((blur plane width height radius).run before') := by
  rw [blur]
  refine Edit.seen_check_bind hview fun e he => ?_
  rw [Edit.run_get_bind, Edit.run_get_bind, ← hcovers e he]
  refine Edit.seen_check_bind hview fun _ hok => ?_
  cases Coefficients.ofBlurRadius? radius with
  | none => exact congrArg (EStateM.Result.ok none) hview
  | some c =>
    obtain ⟨hplane, hout, hholds⟩ := covers_eq_ok_iff.1 hok
    obtain ⟨-, hout', hholds'⟩ := covers_eq_ok_iff.1 ((hcovers e he).symm.trans hok)
    obtain ⟨after, hwork, hblurred⟩ := exists_filterPlane? c hplane hout hholds.1 hholds.2
    obtain ⟨after', hwork', hblurred'⟩ := exists_filterPlane? c hplane hout' hholds'.1 hholds'.2
    have hdone : ∀ {buffers buffers'}, filterPlane? c e plane buffers = some buffers' →
        (do
          Edit.work (filterPlane? c e plane)
          return some c : Edit (Array UInt16 × Scratch) (Option Coefficients)).run buffers =
        .ok (some c) buffers' :=
      fun h => Edit.run_bind_ok_iff.2 ⟨(), _, Edit.run_work_some h, rfl⟩
    refine (congrArg (Edit.seen view) (hdone hwork)).trans ?_
    refine Eq.trans ?_ (congrArg (Edit.seen view) (hdone hwork')).symm
    exact congrArg (EStateM.Result.ok (some c)) (hleft c e after after' hblurred hblurred')

theorem seen_blur_eq {s s' : Scratch} (out : Array UInt16)
    (hs : ∀ e, Extent.of? width height = .ok e → s.Holds e)
    (hs' : ∀ e, Extent.of? width height = .ok e → s'.Holds e) :
    Edit.seen Prod.fst ((blur plane width height radius).run (out, s)) =
      Edit.seen Prod.fst ((blur plane width height radius).run (out, s')) := by
  refine seen_blur_congr ?_ ?_ ?_
  · rfl
  · intro e he
    rw [covers_of_holds (hs e he), covers_of_holds (hs' e he)]
  · intro c e after after' hblurred hblurred'
    apply Array.ext_getElem?
    intro i
    by_cases hi : i < e.pixels
    · exact (hblurred.front hblurred').1 i hi
    · rw [hblurred.behind.1 i (by omega), hblurred'.behind.1 i (by omega)]

theorem outcome_blur_self {s s' : Scratch} {out : Array UInt16}
    (hs : ∀ e, Extent.of? width height = .ok e → s.Holds e)
    (hs' : ∀ e, Extent.of? width height = .ok e → s'.Holds e)
    (hout : width.toNat * height.toNat ≤ out.size) :
    Edit.outcome ((blur plane width height radius).run (plane, s)) =
      Edit.outcome ((blur plane width height radius).run (out, s')) := by
  have hseen : Edit.seen (fun _ => ()) ((blur plane width height radius).run (plane, s)) =
      Edit.seen (fun _ => ()) ((blur plane width height radius).run (out, s')) := by
    refine seen_blur_congr ?_ ?_ ?_
    · rfl
    · intro e he
      obtain ⟨hwidth, hheight⟩ := Extent.of?_eq_ok_iff.1 he
      exact covers_self (hs e he) (hs' e he) (by rw [Extent.pixels, hwidth, hheight]; exact hout)
    · intros
      rfl
  rw [← Edit.outcome_seen fun _ => (), hseen, Edit.outcome_seen]

theorem left_blur {before : Array UInt16 × Scratch}
    (h : ∀ c, Edit.outcome ((blur plane width height radius).run before) ≠ .ok (some c)) :
    Edit.left ((blur plane width height radius).run before) = before := by
  rcases run_blur_cases plane width height radius before with ⟨f, -, hf⟩ | ⟨e, -, -, -, -, hrun⟩
  · rw [hf]
    rfl
  · split at hrun
    · rw [hrun]
      rfl
    · rename_i c _
      obtain ⟨after, hrun, -⟩ := hrun
      rw [hrun] at h
      exact absurd rfl (h c)

end

namespace Scratch

def zeroed (width height : UInt32) : Scratch :=
  ⟨Array.replicate (width.toNat * height.toNat) 0,
    Array.replicate (max width.toNat height.toNat) 0.0⟩

theorem size_zeroed {width height : UInt32} {e : Extent} (he : Extent.of? width height = .ok e) :
    (zeroed width height).plane.size = e.pixels ∧ (zeroed width height).line.size = e.longSide := by
  obtain ⟨hwidth, hheight⟩ := Extent.of?_eq_ok_iff.1 he
  simp only [zeroed, Extent.pixels, Extent.longSide, Array.size_replicate, hwidth, hheight]
  exact ⟨trivial, trivial⟩

theorem zeroed_holds {width height : UInt32} {e : Extent}
    (he : Extent.of? width height = .ok e) : (zeroed width height).Holds e :=
  ⟨(size_zeroed he).1.ge, (size_zeroed he).2.ge⟩

theorem fit_holds (s : Scratch) (e : Extent) : (s.fit e).Holds e := s.size_fit e

theorem exists_prepared (width height : UInt32) (out : Array UInt16) (s : Scratch) :
    ∃ s' : Scratch, (∀ e, Extent.of? width height = .ok e → s'.Holds e) ∧
      ∀ {β : Type} (k : Extent → Edit (Array UInt16 × Scratch) β),
        (prepare width height >>= fun _ => liftM (Extent.of? width height) >>= k).run (out, s) =
          (liftM (Extent.of? width height) >>= k : Edit _ β).run (out, s') := by
  cases he : Extent.of? width height with
  | error f =>
    refine ⟨s, ?_, ?_⟩
    · intro e he'
      cases he'
    · intro β k
      simp only [prepare, he]
      rfl
  | ok e =>
    refine ⟨s.fit e, ?_, ?_⟩
    · intro e' he'
      cases he'
      exact s.fit_holds e
    · intro β k
      simp only [prepare, he]
      rfl

theorem run_blurInPlace (plane : Array UInt16) (width height : UInt32) (radius : Float32)
    (s : Scratch) :
    (Gaussian.blurInPlace width height radius).run (plane, s) =
      (Gaussian.blur plane width height radius).run (plane, s) := by
  simp only [Gaussian.blurInPlace, Gaussian.blur, Edit.run_check_bind, Edit.run_get_bind]
  cases Extent.of? width height with
  | error f => rfl
  | ok e =>
    dsimp only
    cases covers e plane.size (plane, s) with
    | error f => rfl
    | ok _ =>
      dsimp only
      cases Coefficients.ofBlurRadius? radius with
      | none => rfl
      | some c => rfl

end Scratch

structure Request where
  plane : Array UInt16
  target? : Option (Array UInt16)
  width : UInt32
  height : UInt32
  radius : Float32

abbrev Answer := EStateM.Result Fault (Array UInt16) (Option Coefficients)

namespace Request

def target (r : Request) : Array UInt16 := r.target?.getD r.plane

def call (r : Request) : Edit (Array UInt16 × Scratch) (Option Coefficients) :=
  match r.target? with
  | some _ => Scratch.blur r.plane r.width r.height r.radius
  | none => Scratch.blurInPlace r.width r.height r.radius

def onZeroed (r : Request) (target : Array UInt16) : Answer :=
  Edit.seen Prod.fst
    ((blur r.plane r.width r.height r.radius).run (target, .zeroed r.width r.height))

/-- A blur in place ends as the blur of a copy does, and leaves in front of the plane what that one
leaves in front of its target. -/
structure AgreesWith (r : Request) (copied answer : Answer) : Prop where
  outcome_eq : Edit.outcome answer = Edit.outcome copied
  front_eq : ∀ c, Edit.outcome answer = .ok (some c) → ∀ i < r.width.toNat * r.height.toNat,
    (Edit.left answer)[i]? = (Edit.left copied)[i]?
  behind_eq : ∀ i, r.width.toNat * r.height.toNat ≤ i → (Edit.left answer)[i]? = r.plane[i]?
  size_eq : (Edit.left answer).size = r.plane.size

structure Answered (r : Request) (answer : Answer) : Prop where
  into_eq : ∀ target, r.target? = some target → answer = r.onZeroed target
  inPlace_agrees : r.target? = none → ∀ target : Array UInt16,
    r.width.toNat * r.height.toNat ≤ target.size → r.AgreesWith (r.onZeroed target) answer
  untouched : (∀ c, Edit.outcome answer ≠ .ok (some c)) → Edit.left answer = r.target

variable {r : Request} {s : Scratch}

theorem exists_run_call (r : Request) (s : Scratch) :
    ∃ s' : Scratch, (∀ e, Extent.of? r.width r.height = .ok e → s'.Holds e) ∧
      r.call.run (r.target, s) = (blur r.plane r.width r.height r.radius).run (r.target, s') := by
  obtain ⟨s', hs', hrun⟩ := Scratch.exists_prepared r.width r.height r.target s
  refine ⟨s', hs', ?_⟩
  obtain ⟨plane, target?, width, height, radius⟩ := r
  cases target? with
  | some target => exact hrun _
  | none => exact (hrun _).trans (Scratch.run_blurInPlace plane width height radius s')

theorem agreesWith_onZeroed (hs : ∀ e, Extent.of? r.width r.height = .ok e → s.Holds e)
    {target : Array UInt16} (htarget : r.width.toNat * r.height.toNat ≤ target.size) :
    r.AgreesWith (r.onZeroed target)
      (Edit.seen Prod.fst ((blur r.plane r.width r.height r.radius).run (r.plane, s))) := by
  have houtcome : Edit.outcome ((blur r.plane r.width r.height r.radius).run (r.plane, s)) =
      Edit.outcome ((blur r.plane r.width r.height r.radius).run
        (target, .zeroed r.width r.height)) :=
    outcome_blur_self hs (fun e he => Scratch.zeroed_holds he) htarget
  by_cases hblurs : ∃ c,
      Edit.outcome ((blur r.plane r.width r.height r.radius).run (r.plane, s)) = .ok (some c)
  · obtain ⟨c, hc⟩ := hblurs
    obtain ⟨after, hrun⟩ := Edit.outcome_eq_ok_iff.1 hc
    obtain ⟨after', hrun'⟩ := Edit.outcome_eq_ok_iff.1 (houtcome.symm.trans hc)
    obtain ⟨e, he, -, -, hblurred⟩ := blurred_of_run hrun
    obtain ⟨e', he', -, -, hblurred'⟩ := blurred_of_run hrun'
    obtain rfl : e = e' := Except.ok.inj (he.symm.trans he')
    obtain ⟨hwidth, hheight⟩ := Extent.of?_eq_ok_iff.1 he
    have hpixels : e.pixels = r.width.toNat * r.height.toNat := by
      rw [Extent.pixels, hwidth, hheight]
    rw [onZeroed, hrun, hrun']
    refine ⟨rfl, ?_, ?_, hblurred.sizes.1⟩
    · intro c' _ i hi
      exact (hblurred.front hblurred').1 i (by rwa [hpixels])
    · intro i hi
      exact hblurred.behind.1 i (by rwa [hpixels])
  · -- neither blur comes to write, so both leave what they got
    have hleft : Edit.left ((blur r.plane r.width r.height r.radius).run (r.plane, s)) =
        (r.plane, s) :=
      left_blur fun c hc => hblurs ⟨c, hc⟩
    refine ⟨?_, ?_, ?_, ?_⟩
    · rw [onZeroed, Edit.outcome_seen, Edit.outcome_seen, houtcome]
    · intro c hc
      rw [Edit.outcome_seen] at hc
      exact absurd ⟨c, hc⟩ hblurs
    · intro i _
      rw [Edit.left_seen, hleft]
    · rw [Edit.left_seen, hleft]

theorem answered (r : Request) (s : Scratch) :
    r.Answered (Edit.seen Prod.fst (r.call.run (r.target, s))) := by
  obtain ⟨s', hs', hrun⟩ := r.exists_run_call s
  rw [hrun]
  refine ⟨?_, ?_, ?_⟩
  · intro target htarget
    have hself : r.target = target := by rw [Request.target, htarget, Option.getD_some]
    rw [hself]
    exact seen_blur_eq target hs' fun e he => Scratch.zeroed_holds he
  · intro hnone target htarget
    have hself : r.target = r.plane := by rw [Request.target, hnone, Option.getD_none]
    rw [hself]
    exact agreesWith_onZeroed hs' htarget
  · intro hoff
    rw [Edit.left_seen, left_blur fun c => by simpa only [Edit.outcome_seen] using hoff c]

end Request

/-- Kept scratch answers every request of a run as zeroed scratch of the right size does, whatever
it held at first. -/
theorem serve_blurs_answered (requests : List Request) (s : Scratch) :
    List.Forall₂ Request.Answered requests
      (Edit.serve Request.call Request.target requests s).1 := by
  have hstep : ∀ r ∈ requests, ∀ s : Scratch, True →
      r.Answered (Edit.seen Prod.fst (r.call.run (r.target, s))) ∧ True :=
    fun r _ s _ => ⟨r.answered s, trivial⟩
  exact (Edit.serve_forall₂ Request.Answered hstep trivial).1

end FixedRaster.Gaussian
