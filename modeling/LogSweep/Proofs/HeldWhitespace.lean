import LogSweep.Proofs.OpenParentheses
import Mathlib.Data.List.DropRight

/-!
# The white space at the end of the output

White space is written at once, but a statement that goes with its line takes
back what is behind the last token or comment, and with it the line feeds that
counted since the last token.  So a state marks where that white space starts,
and whether a line feed stands after the last token both up to there and in all
of the output.  The marks never part from the output, whatever is copied or
deleted, and however often in a row.
-/

namespace LogSweep

open Byte Bytes

/-! ## The last token among segments -/

/-- The segments up to the last token. -/
def upToToken (segments : List Segment) : List Segment :=
  segments.rdropWhile (!·.isToken)

/-- The segments after the last token. -/
def afterToken (segments : List Segment) : List Segment :=
  segments.rtakeWhile (!·.isToken)

theorem upToToken_append_afterToken (segments : List Segment) :
    upToToken segments ++ afterToken segments = segments :=
  List.rdropWhile_append_rtakeWhile

section

variable {segment : Segment}

theorem upToToken_concat_of_isToken (htoken : segment.isToken = true)
    (segments : List Segment) :
    upToToken (segments ++ [segment]) = segments ++ [segment] :=
  List.rdropWhile_concat_neg _ _ _ (by simp [htoken])

theorem upToToken_concat_of_not_isToken (htoken : segment.isToken = false)
    (segments : List Segment) :
    upToToken (segments ++ [segment]) = upToToken segments :=
  List.rdropWhile_concat_pos _ _ _ (by simp [htoken])

theorem afterToken_concat_of_isToken (htoken : segment.isToken = true)
    (segments : List Segment) : afterToken (segments ++ [segment]) = [] :=
  List.rtakeWhile_concat_neg _ _ _ (by simp [htoken])

theorem afterToken_concat_of_not_isToken (htoken : segment.isToken = false)
    (segments : List Segment) :
    afterToken (segments ++ [segment]) = afterToken segments ++ [segment] :=
  List.rtakeWhile_concat_pos _ _ _ (by simp [htoken])

theorem Segment.isCopied_of_isToken (htoken : segment.isToken = true) :
    segment.isCopied = true := by
  unfold isToken at htoken
  unfold isCopied
  cases hkind : segment.kind <;> simp_all

theorem Segment.isToken_or_eq_comment (hcopied : segment.isCopied = true) :
    segment.isToken = true ∨ segment.kind = .comment := by
  unfold isCopied at hcopied
  unfold isToken
  cases hkind : segment.kind <;> simp_all

end

theorem getLast?_upToToken (segments : List Segment) :
    (upToToken segments).getLast? = (codeTokens segments).getLast? := by
  induction segments using List.reverseRecOn with
  | nil => rfl
  | append_singleton segments segment ih =>
      cases htoken : segment.isToken with
      | true =>
          rw [upToToken_concat_of_isToken htoken, codeTokens_concat_of_isToken htoken]
          simp
      | false =>
          rw [upToToken_concat_of_not_isToken htoken,
            codeTokens_concat_of_not_isToken htoken, ih]

/-- Undecided white space is behind the last token. -/
theorem upToToken_surviving (atEnd : Bool) (segments : List Segment) :
    upToToken (surviving atEnd segments) = upToToken (surviving true segments) := by
  induction segments using List.reverseRecOn generalizing atEnd with
  | nil => rfl
  | append_singleton segments segment ih =>
      rcases segment.kind_cases with hcopied | hkind | ⟨call, endsLine, terminator, hkind⟩
      · rw [surviving_concat_of_isCopied hcopied, surviving_concat_of_isCopied hcopied]
      · have htoken : segment.isToken = false := by simp [Segment.isToken, hkind]
        rw [surviving_concat_of_space hkind, surviving_concat_of_space hkind, if_pos rfl,
          List.append_nil]
        cases atEnd with
        | true => simp
        | false => rw [if_neg (by simp), upToToken_concat_of_not_isToken htoken, ih]
      · rw [surviving_concat_of_removed hkind, surviving_concat_of_removed hkind, ih,
          Bool.or_true]

/-- Undecided white space taken as gone, the last copied segment is the last. -/
theorem getLast?_surviving_true (segments : List Segment) :
    (surviving true segments).getLast? =
      (segments.filter Segment.isCopied).getLast? := by
  induction segments using List.reverseRecOn with
  | nil => rfl
  | append_singleton segments segment ih =>
      rw [List.filter_append]
      rcases segment.kind_cases with hcopied | hkind | ⟨call, endsLine, terminator, hkind⟩
      · rw [surviving_concat_of_isCopied hcopied]
        simp [hcopied]
      · have hcopied : segment.isCopied = false := by simp [Segment.isCopied, hkind]
        rw [surviving_concat_of_space hkind]
        simpa [hcopied] using ih
      · have hcopied : segment.isCopied = false := by simp [Segment.isCopied, hkind]
        rw [surviving_concat_of_removed hkind, Bool.or_true]
        simpa [hcopied] using ih

/-- The bytes end with those of the segment, or are none if there is none. -/
def EndsWith (bytes : Bytes) : Option Segment → Prop
  | none => bytes = []
  | some segment => segment.bytes <:+ bytes

theorem endsWith_segmentsText (segments : List Segment) :
    EndsWith (segmentsText segments) segments.getLast? := by
  rcases List.eq_nil_or_concat segments with rfl | ⟨before, segment, rfl⟩
  · rfl
  · rw [List.concat_eq_append, List.getLast?_concat, segmentsText_append]
    exact ⟨segmentsText before, by simp⟩

/-! ## The places in the output -/

namespace SweepState

/-- Where the white space at the end of the output starts. -/
def spaceStart (state : SweepState) : Nat :=
  state.written.size

/-- The output up to its last token. -/
def code (state : SweepState) : Bytes :=
  segmentsText (upToToken (surviving false state.segments.toList))

/-- Where the last token of the output ends. -/
def tokenEnd (state : SweepState) : Nat :=
  state.code.length

/-- The marks of a state fit its output: behind the last token or comment stands
only white space, and a line feed stands behind the last token if they say so. -/
structure HoldsWhitespace (state : SweepState) : Prop extends WritesSurviving state where
  spaceStart_le : state.spaceStart ≤ state.output.length
  isWhitespace_of_mem : ∀ b ∈ state.output.drop state.spaceStart, isWhitespace b = true
  endsWith_copied : EndsWith (state.output.take state.spaceStart)
    (state.segments.toList.filter Segment.isCopied).getLast?
  tokenEnd_le : state.tokenEnd ≤ state.spaceStart
  endsWith_token : EndsWith (state.output.take state.tokenEnd) state.tokens.getLast?
  onNewLine_iff : state.onNewLine = true ↔ newline ∈ state.output.drop state.tokenEnd
  writtenNewline_iff : state.writtenNewline = true ↔
    newline ∈ (state.output.take state.spaceStart).drop state.tokenEnd

section

variable {state : SweepState} {segment : Segment}

theorem take_spaceStart_output (state : SweepState) :
    state.output.take state.spaceStart = state.written.toList := by
  rw [SweepState.output, spaceStart, ← Array.length_toList, List.take_left]

theorem drop_spaceStart_output (state : SweepState) :
    state.output.drop state.spaceStart = state.pending := by
  rw [SweepState.output, spaceStart, ← Array.length_toList, List.drop_left]

theorem WritesSurviving.written_eq (hwrites : state.WritesSurviving) :
    state.written.toList = state.code ++
      segmentsText (afterToken (surviving true state.segments.toList)) := by
  rw [hwrites.written, code, upToToken_surviving, ← segmentsText_append,
    upToToken_append_afterToken]

theorem WritesSurviving.output_eq (hwrites : state.WritesSurviving) :
    state.output = state.code ++
      segmentsText (afterToken (surviving false state.segments.toList)) := by
  rw [hwrites.output, code, ← segmentsText_append, upToToken_append_afterToken]

theorem WritesSurviving.take_tokenEnd_output (hwrites : state.WritesSurviving) :
    state.output.take state.tokenEnd = state.code := by
  rw [hwrites.output_eq, tokenEnd, List.take_left]

theorem WritesSurviving.drop_tokenEnd_output (hwrites : state.WritesSurviving) :
    state.output.drop state.tokenEnd =
      segmentsText (afterToken (surviving false state.segments.toList)) := by
  rw [hwrites.output_eq, tokenEnd, List.drop_left]

theorem WritesSurviving.drop_tokenEnd_written (hwrites : state.WritesSurviving) :
    state.written.toList.drop state.tokenEnd =
      segmentsText (afterToken (surviving true state.segments.toList)) := by
  rw [hwrites.written_eq, tokenEnd, List.drop_left]

theorem WritesSurviving.tokenEnd_le (hwrites : state.WritesSurviving) :
    state.tokenEnd ≤ state.spaceStart := by
  rw [spaceStart, ← Array.length_toList, hwrites.written_eq, tokenEnd, List.length_append]
  exact Nat.le_add_right _ _

/-- All but two of these facts follow from the segments. -/
theorem WritesSurviving.holdsWhitespace (hwrites : state.WritesSurviving)
    (hspaces : ∀ b ∈ state.pending, isWhitespace b = true)
    (hnewline : state.writtenNewline = true ↔
      newline ∈ segmentsText (afterToken (surviving true state.segments.toList))) :
    state.HoldsWhitespace where
  toWritesSurviving := hwrites
  spaceStart_le := by
    rw [SweepState.output, spaceStart, List.length_append, Array.length_toList]
    exact Nat.le_add_right _ _
  isWhitespace_of_mem := by rwa [drop_spaceStart_output]
  endsWith_copied := by
    rw [take_spaceStart_output, hwrites.written, ← getLast?_surviving_true]
    exact endsWith_segmentsText _
  tokenEnd_le := hwrites.tokenEnd_le
  endsWith_token := by
    rw [hwrites.take_tokenEnd_output, tokens,
      ← codeTokens_surviving false state.segments.toList, ← getLast?_upToToken]
    exact endsWith_segmentsText _
  onNewLine_iff := by
    have hle : state.tokenEnd ≤ state.written.toList.length := hwrites.tokenEnd_le
    rw [onNewLine, Bool.or_eq_true, hnewline, List.contains_iff_mem, SweepState.output,
      List.drop_append_of_le_length hle, hwrites.drop_tokenEnd_written, List.mem_append]
  writtenNewline_iff := by
    rw [take_spaceStart_output, hwrites.drop_tokenEnd_written, hnewline]

/-! ## What a segment changes -/

theorem initial_holdsWhitespace : initial.HoldsWhitespace :=
  WritesSurviving.holdsWhitespace ⟨rfl, rfl⟩ (by simp [initial])
    (by simp [initial, surviving, afterToken])

theorem code_push_of_isToken (hwrites : state.WritesSurviving)
    (htoken : segment.isToken = true) :
    (state.push segment).code = state.output ++ segment.bytes := by
  rw [code, toList_push_segments,
    surviving_concat_of_isCopied (Segment.isCopied_of_isToken htoken),
    upToToken_concat_of_isToken htoken, segmentsText_append, ← hwrites.output]
  simp

theorem code_push_of_not_isToken (htoken : segment.isToken = false)
    (state : SweepState) : (state.push segment).code = state.code := by
  unfold code
  rw [toList_push_segments]
  rcases segment.kind_cases with hcopied | hkind | ⟨call, endsLine, terminator, hkind⟩
  · rw [surviving_concat_of_isCopied hcopied, upToToken_concat_of_not_isToken htoken]
  · rw [surviving_concat_of_space hkind, if_neg (by simp),
      upToToken_concat_of_not_isToken htoken]
  · rw [surviving_concat_of_removed hkind, upToToken_surviving,
      upToToken_surviving false]

theorem push_writtenNewline_of_isToken (htoken : segment.isToken = true)
    (state : SweepState) : (state.push segment).writtenNewline = false := by
  unfold Segment.isToken at htoken
  cases hkind : segment.kind <;>
    simp_all [SweepState.push, emit, writePunctuation, writeToken]

theorem push_writtenNewline_of_comment (hkind : segment.kind = .comment)
    (state : SweepState) : (state.push segment).writtenNewline =
      (state.onNewLine || segment.bytes.contains newline) := by
  simp [SweepState.push, emit, hkind, writeComment]

theorem HoldsWhitespace.forall_pending (hholds : state.HoldsWhitespace) :
    ∀ b ∈ state.pending, isWhitespace b = true := by
  rw [← drop_spaceStart_output]
  exact hholds.isWhitespace_of_mem

theorem HoldsWhitespace.newline_mem_iff (hholds : state.HoldsWhitespace) :
    state.writtenNewline = true ↔
      newline ∈ segmentsText (afterToken (surviving true state.segments.toList)) := by
  rw [hholds.writtenNewline_iff, take_spaceStart_output, hholds.drop_tokenEnd_written]

theorem HoldsWhitespace.forall_pending_push (hholds : state.HoldsWhitespace)
    (hfits : segment.FitsKind) : ∀ b ∈ (state.push segment).pending, isWhitespace b = true := by
  rcases segment.kind_cases with hcopied | hkind | ⟨call, endsLine, terminator, hkind⟩
  · rw [(push_of_isCopied hcopied hfits state).2]
    simp
  · intro b hb
    have hmem : b ∈ state.pending ++ segment.bytes := by
      simpa [SweepState.push, emit, hkind] using hb
    rcases List.mem_append.mp hmem with hb | hb
    · exact hholds.forall_pending b hb
    · exact hfits.space hkind b hb
  · cases endsLine with
    | true => simp [SweepState.push, emit, hkind]
    | false => simpa [SweepState.push, emit, hkind] using hholds.forall_pending

theorem HoldsWhitespace.newline_mem_push_iff (hholds : state.HoldsWhitespace) :
    (state.push segment).writtenNewline = true ↔
      newline ∈ segmentsText (afterToken
        (surviving true (state.segments.toList ++ [segment]))) := by
  rcases segment.kind_cases with hcopied | hkind | ⟨call, endsLine, terminator, hkind⟩
  · rw [surviving_concat_of_isCopied hcopied]
    rcases Segment.isToken_or_eq_comment hcopied with htoken | hkind
    · rw [afterToken_concat_of_isToken htoken, push_writtenNewline_of_isToken htoken]
      simp
    · -- the line feeds that were undecided stay with those of the comment
      have htoken : segment.isToken = false := by simp [Segment.isToken, hkind]
      rw [afterToken_concat_of_not_isToken htoken, push_writtenNewline_of_comment hkind,
        Bool.or_eq_true, hholds.onNewLine_iff, hholds.drop_tokenEnd_output,
        List.contains_iff_mem, segmentsText_append, List.mem_append]
      simp
  · rw [surviving_concat_of_space hkind, if_pos rfl, List.append_nil, ← hholds.newline_mem_iff]
    simp [SweepState.push, emit, hkind]
  · rw [surviving_concat_of_removed hkind, Bool.or_true, ← hholds.newline_mem_iff]
    cases endsLine <;> simp [SweepState.push, emit, hkind]

/-- Whatever the segment, the marks fit what it leaves. -/
theorem HoldsWhitespace.push (hholds : state.HoldsWhitespace) (hfits : segment.FitsKind) :
    (state.push segment).HoldsWhitespace := by
  apply (hholds.toWritesSurviving.push hfits).holdsWhitespace
  · exact hholds.forall_pending_push hfits
  · rw [toList_push_segments]
    exact hholds.newline_mem_push_iff

/-- In every state of a sweep the marks fit the output. -/
theorem Reaches.holdsWhitespace {src rest : Bytes} (hreach : Reaches src state rest) :
    state.HoldsWhitespace := by
  induction hreach with
  | start => exact initial_holdsWhitespace
  | step hreach hnext _ ih => exact ih.push (hreach.nextSegment hnext).fitsKind

end

end SweepState

/-! ## The marks beside the output -/

/-- An output and its marks: where the white space at its end starts, and
whether a line feed stands after its last token, in all of it and up to there. -/
structure OutputMarks where
  output : Bytes
  spaceStart : Nat
  onNewLine : Bool
  writtenNewline : Bool
  deriving DecidableEq, Repr

namespace OutputMarks

/-- Behind what is copied no white space is undecided. -/
def copy (marks : OutputMarks) (bytes : Bytes) (onNewLine : Bool) : OutputMarks :=
  ⟨marks.output ++ bytes, (marks.output ++ bytes).length, onNewLine, onNewLine⟩

/-- Takes in a segment.  A statement that goes with its line cuts the output back
to the white space, and takes the line feeds in it out of the account. -/
def push (marks : OutputMarks) (segment : Segment) : OutputMarks :=
  match segment.kind with
  | .space =>
    { marks with
      output := marks.output ++ segment.bytes
      onNewLine := marks.onNewLine || segment.bytes.contains newline }
  | .comment =>
    marks.copy segment.bytes (marks.onNewLine || segment.bytes.contains newline)
  | .literal | .punctuation | .word | .kept _ _ => marks.copy segment.bytes false
  | .removed _ endsLine _ =>
    if endsLine then
      { marks with
        output := marks.output.take marks.spaceStart
        onNewLine := marks.writtenNewline }
    else marks

theorem push_of_isToken {segment : Segment} (htoken : segment.isToken = true)
    (marks : OutputMarks) : marks.push segment = marks.copy segment.bytes false := by
  unfold Segment.isToken at htoken
  unfold push
  cases hkind : segment.kind <;> simp_all

end OutputMarks

namespace SweepState

def marks (state : SweepState) : OutputMarks :=
  ⟨state.output, state.spaceStart, state.onNewLine, state.writtenNewline⟩

section

variable {state : SweepState} {segment : Segment}

theorem marks_push_of_isCopied (hcopied : segment.isCopied = true)
    (hfits : segment.FitsKind) (state : SweepState) :
    (state.push segment).marks =
      state.marks.copy segment.bytes (state.push segment).writtenNewline := by
  rcases push_of_isCopied hcopied hfits state with ⟨hwritten, hpending⟩
  have houtput := output_push_of_isCopied hcopied hfits state
  have hstart : (state.push segment).spaceStart = (state.output ++ segment.bytes).length := by
    rw [spaceStart, ← Array.length_toList, hwritten]
  have hline : (state.push segment).onNewLine = (state.push segment).writtenNewline := by
    simp [onNewLine, hpending]
  simp only [marks, OutputMarks.copy, houtput, hstart, hline]

/-- A state changes its marks as if each were kept for itself. -/
theorem marks_push (hfits : segment.FitsKind) (state : SweepState) :
    (state.push segment).marks = state.marks.push segment := by
  rcases segment.kind_cases with hcopied | hkind | ⟨call, endsLine, terminator, hkind⟩
  · rw [marks_push_of_isCopied hcopied hfits]
    rcases Segment.isToken_or_eq_comment hcopied with htoken | hkind
    · rw [push_writtenNewline_of_isToken htoken, OutputMarks.push_of_isToken htoken]
    · rw [push_writtenNewline_of_comment hkind, OutputMarks.push, hkind]
      rfl
  · simp [marks, OutputMarks.push, SweepState.push, emit, hkind, SweepState.output, spaceStart,
      onNewLine, Bool.or_assoc]
  · cases endsLine <;>
      simp [marks, OutputMarks.push, SweepState.push, emit, hkind, SweepState.output, spaceStart,
        onNewLine]

theorem HoldsWhitespace.foldl_push {segments : List Segment} (hholds : state.HoldsWhitespace)
    (hfits : ∀ segment ∈ segments, segment.FitsKind) :
    (segments.foldl SweepState.push state).HoldsWhitespace ∧
      (segments.foldl SweepState.push state).marks =
        segments.foldl OutputMarks.push state.marks := by
  induction segments generalizing state with
  | nil => exact ⟨hholds, rfl⟩
  | cons segment segments ih =>
      rcases List.forall_mem_cons.mp hfits with ⟨hsegment, hfits⟩
      rw [List.foldl_cons, List.foldl_cons, ← marks_push hsegment]
      exact ih (hholds.push hsegment) hfits

end

end SweepState

open SweepState

/-- In every state of a sweep the marks fit the output, and they still do after
any further segments, deleted statements in a row among them.  The marks of a
state are those that are kept beside the output and cut back with it. -/
theorem sweep_marks_fit_output :
    (∀ src state rest, Reaches src state rest → state.HoldsWhitespace) ∧
      ∀ (state : SweepState) (segments : List Segment), state.HoldsWhitespace →
        (∀ segment ∈ segments, segment.FitsKind) →
        (segments.foldl push state).HoldsWhitespace ∧
          (segments.foldl push state).marks =
            segments.foldl OutputMarks.push state.marks := by
  constructor
  · intro src state rest hreach
    exact hreach.holdsWhitespace
  · intro state segments hholds hfits
    exact hholds.foldl_push hfits

/-- Two calls go, one with its line and one without; the line feed of the comment
behind them counts. -/
theorem sweep_marks_fit_output_two_calls :
    ∃ state, Reaches (ofString "x;\n  console.log(1)\n  console.log(2); /*\n*/ ") state [] ∧
      state.marks = ⟨ofString "x;\n  /*\n*/ ", 10, true, true⟩ ∧ state.tokenEnd = 2 ∧
      state.HoldsWhitespace ∧
      ([⟨.removed ⟨.log, 40, 5⟩ true 0, 99, []⟩, ⟨.removed ⟨.log, 60, 6⟩ true 0, 99, []⟩].foldl
        push state).HoldsWhitespace := by
  rcases exists_sweepText "x;\n  console.log(1)\n  console.log(2); /*\n*/ " with
    ⟨state, report, hsweep, hreach, -⟩
  have hstate : (sweep (ofString "x;\n  console.log(1)\n  console.log(2); /*\n*/ ")).map
      (fun state => (state.marks, state.tokenEnd)) =
        .ok (⟨ofString "x;\n  /*\n*/ ", 10, true, true⟩, 2) := by
    decide +kernel
  rw [hsweep] at hstate
  simp only [Except.map, Except.ok.injEq, Prod.mk.injEq] at hstate
  have hholds := sweep_marks_fit_output.1 _ _ _ hreach
  refine ⟨state, hreach, hstate.1, hstate.2, hholds,
    (sweep_marks_fit_output.2 _ _ hholds ?_).1⟩
  intro segment hsegment
  rcases List.mem_pair.mp hsegment with rfl | rfl <;> constructor <;> simp

end LogSweep
