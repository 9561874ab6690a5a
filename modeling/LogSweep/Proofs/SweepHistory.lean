import LogSweep.Proofs.SweepStep

/-!
# The segments of a sweep as its history

The segments of a state are the text that was read, in order.  Each of them was
cut off in an earlier state, which had the segments before it and no others,
and a run never changes a segment again.
-/

namespace LogSweep

open Byte Bytes

/-- The text of a list of segments. -/
def segmentsText (segments : List Segment) : Bytes :=
  segments.flatMap Segment.bytes

@[simp] theorem segmentsText_nil : segmentsText [] = [] :=
  rfl

@[simp] theorem segmentsText_cons (segment : Segment) (rest : List Segment) :
    segmentsText (segment :: rest) = segment.bytes ++ segmentsText rest :=
  rfl

@[simp] theorem segmentsText_append (first second : List Segment) :
    segmentsText (first ++ second) = segmentsText first ++ segmentsText second :=
  List.flatMap_append

theorem Segment.length_bytes_pos (segment : Segment) :
    0 < segment.bytes.length := by
  simp [Segment.bytes]

namespace SweepState

section

variable {src : Bytes} {state : SweepState} {rest : Bytes}

theorem Reaches.segmentsText_eq (hreach : Reaches src state rest) :
    segmentsText state.segments.toList = src.take state.offset := by
  induction hreach with
  | start => simp [initial]
  | @step state b tail kind more hreach hnext hcut ih =>
      obtain ⟨hrest, -⟩ := hreach.drop_offset
      rw [push_segments, push_offset, length_bytes_of_cut hcut,
        Array.toList_push, segmentsText_append, ih, List.take_add, hrest]
      simp [Segment.bytes]

theorem Reaches.offset_eq (hreach : Reaches src state rest) :
    state.offset = (segmentsText state.segments.toList).length := by
  rw [hreach.segmentsText_eq, List.length_take,
    Nat.min_eq_left hreach.drop_offset.2]

theorem Reaches.src_eq (hreach : Reaches src state rest) :
    src = segmentsText state.segments.toList ++ rest := by
  rw [hreach.segmentsText_eq, ← hreach.drop_offset.1, List.take_append_drop]

/-- Every segment was cut off in the state that had the segments before it. -/
theorem Reaches.cut_at (hreach : Reaches src state rest)
    {before after : List Segment} {segment : Segment}
    (hsegments : state.segments.toList = before ++ segment :: after) :
    ∃ earlier b tail more, Reaches src earlier (b :: tail) ∧
      earlier.segments.toList = before ∧
      segment = ⟨segment.kind, b, tail.take more⟩ ∧
      NextSegment src earlier b tail segment.kind more ∧
      checkCut tail more = .ok () := by
  induction hreach generalizing after with
  | start => simp [initial] at hsegments
  | @step state b tail kind more hreach hnext hcut ih =>
      rw [toList_push_segments] at hsegments
      rcases List.eq_nil_or_concat after with rfl | ⟨after, last, rfl⟩
      · obtain ⟨hbefore, hsegment⟩ :=
          List.append_inj' hsegments (by simp)
        simp only [List.cons.injEq, and_true] at hsegment
        subst hsegment
        exact ⟨state, b, tail, more, hreach, hbefore, rfl,
          hreach.nextSegment hnext, hcut⟩
      · have hearlier : state.segments.toList = before ++ segment :: after := by
          rw [List.concat_eq_append, ← List.cons_append,
            ← List.append_assoc] at hsegments
          exact (List.append_inj' hsegments (by simp)).1
        exact ih hearlier

theorem segments_prefix_of_run {table : ParenTable} {final : SweepState}
    (hrun : run table state rest = .ok final) :
    state.segments.toList <+: final.segments.toList := by
  induction hlength : rest.length using Nat.strong_induction_on
    generalizing state rest with
  | _ length ih =>
      cases rest with
      | nil =>
          rw [run] at hrun
          cases hrun
          exact List.prefix_refl _
      | cons b tail =>
          rw [run] at hrun
          cases hnext : state.next table b tail with
          | error fault =>
              simp [hnext, bind, Except.bind] at hrun
          | ok decided =>
              obtain ⟨kind, more⟩ := decided
              cases hcut : checkCut tail more with
              | error fault =>
                  simp [hnext, hcut, bind, Except.bind] at hrun
              | ok =>
                  simp only [hnext, hcut, bind, Except.bind] at hrun
                  have hshorter : (tail.drop more).length < length := by
                    rw [← hlength, List.length_drop, List.length_cons]
                    omega
                  have hprefix := ih _ hshorter hrun rfl
                  rw [toList_push_segments] at hprefix
                  exact (List.prefix_append _ _).trans hprefix

theorem Reaches.segments_prefix_of_sweep {final : SweepState}
    (hreach : Reaches src state rest) (hsweep : sweep src = .ok final) :
    state.segments.toList <+: final.segments.toList :=
  segments_prefix_of_run (hreach.run_eq.trans hsweep)

/-- A step ends up in the segments of the whole sweep. -/
theorem Reaches.exists_later_of_step {final : SweepState} {b : UInt8} {tail : Bytes}
    {kind : Segment.Kind} {more : Nat} (hreach : Reaches src state (b :: tail))
    (hsweep : sweep src = .ok final)
    (hnext : state.next (.ofText src) b tail = .ok (kind, more))
    (hcut : tail.checkCut more = .ok ()) :
    ∃ later, final.segments.toList =
      state.segments.toList ++ ⟨kind, b, tail.take more⟩ :: later := by
  obtain ⟨later, hlater⟩ := (hreach.step hnext hcut).segments_prefix_of_sweep hsweep
  refine ⟨later, ?_⟩
  rw [← hlater, toList_push_segments, List.append_assoc]
  rfl

end

end SweepState
end LogSweep
