import LogSweep.Proofs.SweepStep

/-!
# The code tokens that a sweep leaves

Segments of code that stay are tokens; white space, comments and deleted
statements are none.  The last code byte of a state is that of its last token.
-/

namespace LogSweep

open Byte Bytes

namespace Segment

/-- Whether it is code that stays. -/
def isToken (segment : Segment) : Bool :=
  match segment.kind with
  | .literal | .punctuation | .word | .kept _ _ => true
  | .space | .comment | .removed _ _ _ => false

/-- The last code byte after a token, where a finished literal counts as
`valueByte`. -/
def lastCode (segment : Segment) : UInt8 :=
  match segment.kind with
  | .literal => valueByte
  | .punctuation => segment.first
  | _ => segment.last

end Segment

/-- The code tokens among these segments. -/
def codeTokens (segments : List Segment) : List Segment :=
  segments.filter Segment.isToken

/-- The last code byte of these segments. -/
def lastCode? (segments : List Segment) : Option UInt8 :=
  (codeTokens segments).getLast?.map Segment.lastCode

/-- The first code byte of these segments. -/
def firstCode? (segments : List Segment) : Option UInt8 :=
  (codeTokens segments).head?.map Segment.first

theorem codeTokens_append (first second : List Segment) :
    codeTokens (first ++ second) = codeTokens first ++ codeTokens second :=
  List.filter_append ..

theorem codeTokens_concat_of_isToken {segment : Segment}
    (htoken : segment.isToken = true) (segments : List Segment) :
    codeTokens (segments ++ [segment]) = codeTokens segments ++ [segment] := by
  rw [codeTokens_append]
  simp [codeTokens, htoken]

theorem codeTokens_concat_of_not_isToken {segment : Segment}
    (htoken : segment.isToken = false) (segments : List Segment) :
    codeTokens (segments ++ [segment]) = codeTokens segments := by
  rw [codeTokens_append]
  simp [codeTokens, htoken]

theorem lastCode?_concat_of_isToken {segment : Segment}
    (htoken : segment.isToken = true) (segments : List Segment) :
    lastCode? (segments ++ [segment]) = some segment.lastCode := by
  rw [lastCode?, codeTokens_concat_of_isToken htoken]
  simp

theorem lastCode?_concat_of_not_isToken {segment : Segment}
    (htoken : segment.isToken = false) (segments : List Segment) :
    lastCode? (segments ++ [segment]) = lastCode? segments := by
  rw [lastCode?, lastCode?, codeTokens_concat_of_not_isToken htoken]

namespace SweepState

/-- The code tokens written so far. -/
def tokens (state : SweepState) : List Segment :=
  codeTokens state.segments.toList

theorem tokens_push_of_isToken {segment : Segment}
    (htoken : segment.isToken = true) (state : SweepState) :
    (state.push segment).tokens = state.tokens ++ [segment] := by
  rw [tokens, toList_push_segments, codeTokens_concat_of_isToken htoken]
  rfl

theorem tokens_push_of_not_isToken {segment : Segment}
    (htoken : segment.isToken = false) (state : SweepState) :
    (state.push segment).tokens = state.tokens := by
  rw [tokens, toList_push_segments, codeTokens_concat_of_not_isToken htoken]
  rfl

/-- A segment that is no token leaves what is known about the last token. -/
theorem push_of_not_isToken {segment : Segment}
    (htoken : segment.isToken = false) (state : SweepState) :
    (state.push segment).last = state.last ∧
      (state.push segment).role = state.role ∧
      (state.push segment).heads = state.heads := by
  unfold push emit
  unfold Segment.isToken at htoken
  cases hkind : segment.kind with
  | removed call endsLine terminator => cases endsLine <;> simp
  | space => simp
  | comment => simp [writeComment, write]
  | literal => simp [hkind] at htoken
  | punctuation => simp [hkind] at htoken
  | word => simp [hkind] at htoken
  | kept call obstacle => simp [hkind] at htoken

theorem last_push_of_isToken {src tail : Bytes} {state : SweepState}
    {b : UInt8} {kind : Segment.Kind} {more : Nat}
    (hsegment : NextSegment src state b tail kind more)
    (htoken : (Segment.mk kind b (tail.take more)).isToken = true) :
    (state.push ⟨kind, b, tail.take more⟩).last =
      some (Segment.mk kind b (tail.take more)).lastCode := by
  cases hsegment with
  | space => simp [Segment.isToken] at htoken
  | comment => simp [Segment.isToken] at htoken
  | removed => simp [Segment.isToken] at htoken
  | literal => rfl
  | punctuation => rfl
  | word => rfl
  | unclosed => rfl
  | refused => rfl

/-- The last code byte of a state is that of its last token. -/
theorem Reaches.last_eq {src : Bytes} {state : SweepState} {rest : Bytes}
    (hreach : Reaches src state rest) :
    state.last = lastCode? state.segments.toList := by
  induction hreach with
  | start => rfl
  | @step state b tail kind more hreach hnext _ ih =>
      rw [toList_push_segments]
      cases htoken : (Segment.mk kind b (tail.take more)).isToken with
      | true =>
          rw [lastCode?_concat_of_isToken htoken]
          exact last_push_of_isToken (hreach.nextSegment hnext) htoken
      | false =>
          rw [lastCode?_concat_of_not_isToken htoken,
            (push_of_not_isToken htoken state).1, ih]

end SweepState
end LogSweep
