import LogSweep.Proofs.SweepHistory

/-!
# What is left of the segments

The output of a sweep is the text of the segments that survive.  A deleted
statement does not, and white space does not if only white space and deleted
statements follow it up to one that ends its line.  Whether white space
survives depends on what comes after it, so the last of it is still undecided
while the sweep runs: taken as gone it leaves the output up to the last token
or comment, taken as left it leaves all of the output.
-/

namespace LogSweep

open Byte Bytes

/-- Whether white space before these segments goes with a deleted statement;
`atEnd` tells if none of them decides that. -/
def goesWithStatement (atEnd : Bool) : List Segment → Bool
  | [] => atEnd
  | segment :: rest =>
    match segment.kind with
    | .space => goesWithStatement atEnd rest
    | .removed _ endsLine _ => endsLine || goesWithStatement atEnd rest
    | _ => false

/-- Whether a segment is left out, given the segments after it. -/
def Segment.isDropped (segment : Segment) (atEnd : Bool)
    (following : List Segment) : Bool :=
  match segment.kind with
  | .removed _ _ _ => true
  | .space => goesWithStatement atEnd following
  | _ => false

/-- Whether a segment is copied, whatever comes after it. -/
def Segment.isCopied (segment : Segment) : Bool :=
  match segment.kind with
  | .space | .removed _ _ _ => false
  | _ => true

/-- What the kind of a segment says about its bytes. -/
structure Segment.FitsKind (segment : Segment) : Prop where
  space : segment.kind = .space → ∀ b ∈ segment.bytes, isWhitespace b = true
  punctuation : segment.kind = .punctuation → segment.others = []
  word : (segment.kind = .word ∨ ∃ call obstacle, segment.kind = .kept call obstacle) →
    ∀ b ∈ segment.bytes, isWord b = true

/-- The segments that are left. -/
def surviving (atEnd : Bool) : List Segment → List Segment
  | [] => []
  | segment :: rest =>
    if segment.isDropped atEnd rest then surviving atEnd rest
    else segment :: surviving atEnd rest

/-! ## More segments -/

theorem goesWithStatement_append (atEnd : Bool) (first second : List Segment) :
    goesWithStatement atEnd (first ++ second) =
      goesWithStatement (goesWithStatement atEnd second) first := by
  induction first with
  | nil => rfl
  | cons segment first ih =>
      simp only [List.cons_append, goesWithStatement, ih]

theorem Segment.isDropped_append (segment : Segment) (atEnd : Bool)
    (first second : List Segment) :
    segment.isDropped atEnd (first ++ second) =
      segment.isDropped (goesWithStatement atEnd second) first := by
  simp only [Segment.isDropped, goesWithStatement_append]

/-- Later segments decide about the white space at the end of earlier ones, and
about nothing else. -/
theorem surviving_append (atEnd : Bool) (first second : List Segment) :
    surviving atEnd (first ++ second) =
      surviving (goesWithStatement atEnd second) first ++
        surviving atEnd second := by
  induction first with
  | nil => rfl
  | cons segment first ih =>
      rw [List.cons_append, surviving, surviving, segment.isDropped_append, ih]
      split_ifs <;> simp

theorem Segment.kind_cases (segment : Segment) :
    segment.isCopied = true ∨ segment.kind = .space ∨
      ∃ call endsLine terminator, segment.kind = .removed call endsLine terminator := by
  unfold isCopied
  cases segment.kind <;> simp

section

variable {segment : Segment}

theorem surviving_concat_of_isCopied (hcopied : segment.isCopied = true) (atEnd : Bool)
    (segments : List Segment) :
    surviving atEnd (segments ++ [segment]) = surviving false segments ++ [segment] := by
  unfold Segment.isCopied at hcopied
  rw [surviving_append]
  cases hkind : segment.kind <;>
    simp_all [surviving, goesWithStatement, Segment.isDropped]

theorem surviving_concat_of_space (hkind : segment.kind = .space) (atEnd : Bool)
    (segments : List Segment) :
    surviving atEnd (segments ++ [segment]) =
      surviving atEnd segments ++ if atEnd then [] else [segment] := by
  rw [surviving_append]
  cases atEnd <;> simp [surviving, goesWithStatement, Segment.isDropped, hkind]

theorem surviving_concat_of_removed {call : Call} {endsLine : Bool} {terminator : Nat}
    (hkind : segment.kind = .removed call endsLine terminator) (atEnd : Bool)
    (segments : List Segment) :
    surviving atEnd (segments ++ [segment]) = surviving (endsLine || atEnd) segments := by
  rw [surviving_append]
  simp [surviving, goesWithStatement, Segment.isDropped, hkind]

end

namespace SweepState

/-- What has been written, said by the segments. -/
structure WritesSurviving (state : SweepState) : Prop where
  written :
    state.written.toList = segmentsText (surviving true state.segments.toList)
  output : state.output = segmentsText (surviving false state.segments.toList)

section

variable {state : SweepState} {segment : Segment}

theorem push_of_isCopied (hcopied : segment.isCopied = true) (hfits : segment.FitsKind)
    (state : SweepState) :
    (state.push segment).written.toList = state.output ++ segment.bytes ∧
      (state.push segment).pending = [] := by
  unfold Segment.isCopied at hcopied
  unfold SweepState.push emit
  cases hkind : segment.kind with
  | space => simp [hkind] at hcopied
  | removed call endsLine terminator => simp [hkind] at hcopied
  | punctuation =>
      have hbytes : segment.bytes = [segment.first] := by
        rw [Segment.bytes, hfits.punctuation hkind]
      simp [hbytes, writePunctuation, writeToken, write, SweepState.output]
  | comment => simp [writeComment, write, SweepState.output]
  | literal => simp [writeToken, write, SweepState.output]
  | word => simp [writeToken, write, SweepState.output]
  | kept call obstacle => simp [writeToken, write, SweepState.output]

theorem output_push_of_isCopied (hcopied : segment.isCopied = true)
    (hfits : segment.FitsKind) (state : SweepState) :
    (state.push segment).output = state.output ++ segment.bytes := by
  rcases push_of_isCopied hcopied hfits state with ⟨hwritten, hpending⟩
  rw [SweepState.output, hwritten, hpending, List.append_nil]

theorem WritesSurviving.push (hwrites : state.WritesSurviving) (hfits : segment.FitsKind) :
    (state.push segment).WritesSurviving := by
  have hoff := hwrites.output
  rcases segment.kind_cases with hcopied | hkind | ⟨call, endsLine, terminator, hkind⟩
  · constructor <;>
      rw [toList_push_segments, surviving_concat_of_isCopied hcopied, segmentsText_append, ← hoff]
    · rw [(push_of_isCopied hcopied hfits state).1]
      simp
    · rw [output_push_of_isCopied hcopied hfits]
      simp
  · -- new white space is as undecided as that before it
    constructor <;> rw [toList_push_segments, surviving_concat_of_space hkind]
    · simpa [SweepState.push, emit, hkind] using hwrites.written
    · rw [segmentsText_append, ← hoff]
      simp [SweepState.push, emit, hkind, SweepState.output]
  · constructor <;> rw [toList_push_segments, surviving_concat_of_removed hkind]
    · rw [Bool.or_true]
      cases endsLine <;> simpa [SweepState.push, emit, hkind] using hwrites.written
    · cases endsLine with
      | true =>
          -- all undecided white space is gone
          simpa [SweepState.push, emit, hkind, SweepState.output] using hwrites.written
      | false => simpa [SweepState.push, emit, hkind, SweepState.output] using hoff

theorem NextSegment.fitsKind {src tail : Bytes} {b : UInt8} {kind : Segment.Kind}
    {more : Nat} (hsegment : NextSegment src state b tail kind more) :
    (Segment.mk kind b (tail.take more)).FitsKind := by
  constructor
  · rintro rfl
    cases hsegment with
    | space hspace => exact forall_mem_run hspace tail
  · rintro rfl
    cases hsegment with
    | punctuation => rfl
  · rintro (rfl | ⟨call, obstacle, rfl⟩)
    · cases hsegment with
      | word hb => exact forall_mem_run hb tail
    · cases hsegment with
      | unclosed hb => exact forall_mem_run hb tail
      | refused hb => exact forall_mem_run hb tail

end

/-- The output is the text of the surviving segments. -/
theorem Reaches.writesSurviving {src : Bytes} {state : SweepState}
    {rest : Bytes} (hreach : Reaches src state rest) :
    state.WritesSurviving := by
  induction hreach with
  | start => exact ⟨rfl, rfl⟩
  | step hreach hnext _ ih => exact ih.push (hreach.nextSegment hnext).fitsKind

end SweepState
end LogSweep
