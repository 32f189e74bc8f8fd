import Mathlib
import FixedRaster.Proofs.Resize.Resampling
import FixedRaster.Proofs.Serving

/-!
# Resizes on a kept intermediate image

The intermediate image only grows, and a resize writes each of its samples before it reads it. So
every resize of a run answers as on a zeroed intermediate image of its own, and none is refused for
lack of intermediate samples.
-/

namespace FixedRaster.Resize

structure Request where
  image : Array UInt8
  target : Array UInt8
  horizontal : List Int16
  vertical : List Int16
  sourceWidth : UInt32
  sourceHeight : UInt32
  targetWidth : UInt32
  targetHeight : UInt32
  withAlpha : Bool

namespace Request

def call (r : Request) : Edit (Array UInt8 × Array UInt16) Unit :=
  (resampleGrowing r.image r.horizontal r.vertical r.sourceWidth r.sourceHeight r.targetWidth
    r.targetHeight r.withAlpha).within
    (fun buffers => ⟨buffers.1, buffers.2⟩) fun canvas _ => (canvas.target, canvas.middle)

def onZeroed (r : Request) : EStateM.Result Fault (Array UInt8) Unit :=
  Edit.seen Canvas.target
    ((resample r.image r.horizontal r.vertical r.sourceWidth r.sourceHeight r.targetWidth
      r.targetHeight r.withAlpha).run
      ⟨r.target, Array.replicate (4 * r.sourceHeight.toNat * r.targetWidth.toNat) 0⟩)

end Request

section
variable {image : Array UInt8} {horizontal vertical : List Int16}
  {sourceWidth sourceHeight targetWidth targetHeight : UInt32} {canvas other : Canvas}

theorem seen_resample_of_admits {source target : Extent} {across down : Kernel}
    (h : Admits image horizontal vertical sourceWidth sourceHeight targetWidth targetHeight canvas
      source target across down)
    (h' : Admits image horizontal vertical sourceWidth sourceHeight targetWidth targetHeight other
      source target across down) (withAlpha : Bool) (htarget : canvas.target = other.target) :
    Edit.seen Canvas.target ((resample image horizontal vertical sourceWidth sourceHeight
        targetWidth targetHeight withAlpha).run canvas) =
      Edit.seen Canvas.target ((resample image horizontal vertical sourceWidth sourceHeight
        targetWidth targetHeight withAlpha).run other) := by
  obtain ⟨final, rows, columns, hrun, hrows, hrlen, hcolumns, -, hresampled⟩ :=
    resample_of_admits h withAlpha
  obtain ⟨final', rows', columns', hrun', hrows', -, hcolumns', -, hresampled'⟩ :=
    resample_of_admits h' withAlpha
  rw [hrows'.unique hrows, hcolumns'.unique hcolumns] at hresampled'
  have hbytes : final.target = final'.target := by
    apply Array.ext_getElem?
    intro i
    by_cases hi : i < columns.length * targetWidth.toNat * 4
    · exact hresampled.target_front hresampled' hrlen hi
    · rw [hresampled.target_behind i (by omega), hresampled'.target_behind i (by omega), htarget]
  rw [hrun, hrun']
  exact congrArg (EStateM.Result.ok ()) hbytes

theorem seen_resample_eq (hroom : 4 * sourceHeight.toNat * targetWidth.toNat < 2 ^ 64)
    (withAlpha : Bool)
    (hmiddle : 4 * sourceHeight.toNat * targetWidth.toNat ≤ canvas.middle.size)
    (hmiddle' : 4 * sourceHeight.toNat * targetWidth.toNat ≤ other.middle.size)
    (htarget : canvas.target = other.target) :
    Edit.seen Canvas.target ((resample image horizontal vertical sourceWidth sourceHeight
        targetWidth targetHeight withAlpha).run canvas) =
      Edit.seen Canvas.target ((resample image horizontal vertical sourceWidth sourceHeight
        targetWidth targetHeight withAlpha).run other) := by
  obtain ⟨n, hlength, hn⟩ := exists_middleLength hroom
  have hpass : requireLength "resample intermediate buffer" n.toNat canvas.middle.size = .ok () :=
    requireLength_eq_ok_iff.2 (hn ▸ hmiddle)
  have hpass' : requireLength "resample intermediate buffer" n.toNat other.middle.size = .ok () :=
    requireLength_eq_ok_iff.2 (hn ▸ hmiddle')
  rw [resample, hlength]
  refine Edit.seen_check_bind htarget fun source hsource => ?_
  refine Edit.seen_check_bind htarget fun target hextent => ?_
  refine Edit.seen_check_bind htarget fun _ himage => ?_
  rw [Edit.run_get_bind, Edit.run_get_bind, ← htarget]
  refine Edit.seen_check_bind htarget fun _ hspace => ?_
  refine Edit.seen_check_bind htarget fun _ hword => ?_
  obtain rfl : n = _ := Except.ok.inj hword
  rw [Edit.run_get_bind, Edit.run_get_bind, hpass, hpass']
  refine Edit.seen_check_bind htarget fun _ _ => ?_
  refine Edit.seen_check_bind htarget fun across hacross => ?_
  refine Edit.seen_check_bind htarget fun down hdown => ?_
  have hadmits : Admits image horizontal vertical sourceWidth sourceHeight targetWidth
      targetHeight canvas source target across down :=
    ⟨hsource, hextent, requireLength_eq_ok_iff.1 himage, requireLength_eq_ok_iff.1 hspace,
      hroom, hmiddle, hacross, hdown⟩
  have hadmits' : Admits image horizontal vertical sourceWidth sourceHeight targetWidth
      targetHeight other source target across down :=
    ⟨hsource, hextent, requireLength_eq_ok_iff.1 himage, htarget ▸ hadmits.target_le, hroom,
      hmiddle', hacross, hdown⟩
  rw [← run_resample_of_admits hadmits, ← run_resample_of_admits hadmits']
  exact seen_resample_of_admits hadmits hadmits' withAlpha htarget

theorem outcome_resample_ne_shortBuffer (withAlpha : Bool)
    (hmiddle : 4 * sourceHeight.toNat * targetWidth.toNat ≤ canvas.middle.size)
    (required actual : ℕ) :
    Edit.outcome ((resample image horizontal vertical sourceWidth sourceHeight targetWidth
      targetHeight withAlpha).run canvas) ≠
        .error (.shortBuffer "resample intermediate buffer" required actual) := by
  have hextent : ∀ width height : UInt32, Extent.of? width height ≠
      .error (.shortBuffer "resample intermediate buffer" required actual) := by
    intro width height h
    have heq := Extent.of?_eq_error h
    simp at heq
  have hother : ∀ {what : String} {count length : ℕ}, what ≠ "resample intermediate buffer" →
      requireLength what count length ≠
        .error (.shortBuffer "resample intermediate buffer" required actual) := by
    intro what count length hwhat h
    have heq := requireLength_eq_error h
    simp only [Fault.shortBuffer.injEq] at heq
    exact hwhat heq.1.symm
  have hlength : middleLength sourceHeight targetWidth ≠
      .error (.shortBuffer "resample intermediate buffer" required actual) := by
    intro h
    obtain ⟨heq, -⟩ := middleLength_eq_error_iff.1 h
    simp at heq
  have hkernel : ∀ data source count, Kernel.ofPacked? data source count ≠
      .error (.shortBuffer "resample intermediate buffer" required actual) := by
    intro data source count h
    obtain ⟨rows, flaw, -, heq⟩ := Kernel.ofPacked?_eq_error_iff.1 h
    simp at heq
  rw [resample]
  refine Edit.outcome_check_bind_ne (hextent _ _) fun source _ => ?_
  refine Edit.outcome_check_bind_ne (hextent _ _) fun target _ => ?_
  refine Edit.outcome_check_bind_ne (hother (by decide)) fun _ _ => ?_
  rw [Edit.run_get_bind]
  refine Edit.outcome_check_bind_ne (hother (by decide)) fun _ _ => ?_
  refine Edit.outcome_check_bind_ne hlength fun n hn => ?_
  rw [← (middleLength_eq_ok_iff.1 hn).2] at hmiddle
  rw [Edit.run_get_bind, requireLength_eq_ok_iff.2 hmiddle]
  refine Edit.outcome_check_bind_ne (by simp) fun _ _ => ?_
  refine Edit.outcome_check_bind_ne (hkernel _ _ _) fun across _ => ?_
  refine Edit.outcome_check_bind_ne (hkernel _ _ _) fun down _ => ?_
  cases hwork : passes? withAlpha image source target across down canvas with
  | none =>
    rw [Edit.run_work_none hwork]
    simp [Edit.outcome]
  | some final =>
    rw [Edit.run_work_some hwork]
    simp [Edit.outcome]

end

namespace Request
variable {r : Request}

theorem seen_call_eq_onZeroed (hroom : 4 * r.sourceHeight.toNat * r.targetWidth.toNat < 2 ^ 64)
    (middle : Array UInt16) :
    Edit.seen Prod.fst (r.call.run (r.target, middle)) = r.onZeroed := by
  have hgrown : Edit.seen Prod.fst (r.call.run (r.target, middle)) =
      Edit.seen Canvas.target ((resampleGrowing r.image r.horizontal r.vertical r.sourceWidth
        r.sourceHeight r.targetWidth r.targetHeight r.withAlpha).run ⟨r.target, middle⟩) :=
    Edit.seen_within fun _ => rfl
  rw [hgrown, run_resampleGrowing hroom]
  exact seen_resample_eq hroom r.withAlpha (le_size_grown _ _ _) (by simp) rfl

end Request

/-- A kept intermediate image answers every request of a run as a zeroed one of the right length
does, whatever it held at first. -/
theorem serve_resizes_eq_onZeroed (requests : List Request) (middle : Array UInt16)
    (hroom : ∀ r ∈ requests, 4 * r.sourceHeight.toNat * r.targetWidth.toNat < 2 ^ 64) :
    (Edit.serve Request.call Request.target requests middle).1 =
        requests.map Request.onZeroed ∧
      ∀ answer ∈ (Edit.serve Request.call Request.target requests middle).1,
        ∀ required actual, Edit.outcome answer ≠
          .error (.shortBuffer "resample intermediate buffer" required actual) := by
  have hstep : ∀ r ∈ requests, ∀ middle : Array UInt16, True →
      Edit.seen Prod.fst (r.call.run (r.target, middle)) = r.onZeroed ∧ True :=
    fun r hr middle _ => ⟨Request.seen_call_eq_onZeroed (hroom r hr) middle, trivial⟩
  have hanswers : (Edit.serve Request.call Request.target requests middle).1 =
      requests.map Request.onZeroed :=
    (Edit.serve_eq_map hstep trivial).1
  refine ⟨hanswers, ?_⟩
  intro answer hanswer required actual
  rw [hanswers] at hanswer
  obtain ⟨r, -, rfl⟩ := List.mem_map.1 hanswer
  rw [Request.onZeroed, Edit.outcome_seen]
  exact outcome_resample_ne_shortBuffer r.withAlpha (by simp) required actual

def shrinking : List Request :=
  [⟨#[10, 20, 30, 255, 200, 0, 50, 255, 7, 8, 9, 100, 1, 2, 3, 4], #[1, 1, 1, 1, 9],
      [0, 2, 8192, 8192], [0, 2, 8192, 8192], 2, 2, 1, 1, false⟩,
    ⟨#[10, 20, 30], #[1, 1, 1, 1], [0, 1, 16384], [0, 1, 16384], 1, 1, 1, 1, true⟩,
    ⟨#[10, 20, 30, 255, 200, 0, 50, 0], #[1, 1, 1, 1], [0, 2, 8192, 8192], [0, 1, 16384], 2, 1, 1,
      1, true⟩]

theorem serve_resizes_shrinking :
    (∀ r ∈ shrinking, 4 * r.sourceHeight.toNat * r.targetWidth.toNat < 2 ^ 64) ∧
    (Edit.serve Request.call Request.target shrinking #[7, 7, 7]).1 =
      [.ok () #[55, 8, 23, 154, 9], .error (.shortBuffer "resample source image" 4 3) #[1, 1, 1, 1],
        .ok () #[10, 20, 30, 128]] ∧
    (Edit.serve Request.call Request.target shrinking #[7, 7, 7]).1 =
      shrinking.map Request.onZeroed := by
  have hroom : ∀ r ∈ shrinking, 4 * r.sourceHeight.toNat * r.targetWidth.toNat < 2 ^ 64 := by
    decide
  refine ⟨hroom, ?_, (serve_resizes_eq_onZeroed shrinking #[7, 7, 7] hroom).1⟩
  cbv

end FixedRaster.Resize
