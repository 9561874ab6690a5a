import LogSweep.Proofs.CheckedCalls
import LogSweep.Proofs.HeldWhitespace

/-!
# One step by offsets

A cursor matches a state of the sweep if it stands at the same offset, has written
the same and knows the same of its last token.  From a cursor that matches a state
the step meets no fault, and it leads to one that matches the state behind the next
segment, if that is no white space.
-/

namespace LogSweep

open Byte Bytes SweepState

namespace SweepState

def findings (state : SweepState) : List Finding :=
  state.segments.toList.filterMap Segment.finding?

theorem findings_push (state : SweepState) (segment : Segment) :
    (state.push segment).findings = state.findings ++ segment.finding?.toList := by
  rw [findings, toList_push_segments, List.filterMap_append]
  cases hfinding : segment.finding? <;> simp [findings, hfinding]

end SweepState

namespace Cursor

/-- The cursor stands where the state does, and both have written the same.  What
it counted of the lines lies behind it. -/
structure Stands (src : Bytes) (cursor : Cursor) (state : SweepState) : Prop where
  pos : cursor.pos = state.offset
  output : cursor.output = state.output
  last : cursor.last = state.last
  role : cursor.role = state.role
  onNewLine : cursor.onNewLine = state.onNewLine
  heads : cursor.heads = state.heads
  spaceStart : cursor.spaceStart = state.written.size
  newLineBefore : cursor.newLineBefore = state.writtenNewline
  countedTo_le : cursor.countedTo ≤ cursor.pos
  newlines : cursor.newlines = (src.take cursor.countedTo).count newline

/-- Both have found the same too. -/
structure Matches (src : Bytes) (cursor : Cursor) (state : SweepState) : Prop
    extends Stands src cursor state where
  findings : cursor.findings = state.findings

theorem initial_matches (src : Bytes) : initial.Matches src .initial := by
  constructor
  · constructor <;> rfl
  · rfl

section

variable {src : Bytes} {cursor : Cursor} {state : SweepState} {b : UInt8} {tail : Bytes}
  {segment : Segment}

/-! ## Copying -/

/-- The cursor stands where the state does and has written the same, but of the
last token it knows already what the state will know behind the next segment. -/
structure IsReadyFor (src : Bytes) (cursor : Cursor) (state : SweepState) (segment : Segment) :
    Prop where
  pos : cursor.pos = state.offset
  output : cursor.output = state.output
  last : cursor.last = (state.push segment).last
  role : cursor.role = (state.push segment).role
  onNewLine : cursor.onNewLine = (state.push segment).writtenNewline
  heads : cursor.heads = (state.push segment).heads
  countedTo_le : cursor.countedTo ≤ cursor.pos
  newlines : cursor.newlines = (src.take cursor.countedTo).count newline
  findings : cursor.findings = (state.push segment).findings

/-- A step that meets no fault leads to a cursor that matches the state, with lines
counted up to `counted`. -/
def GoesTo (src : Bytes) (state : SweepState) (counted : Nat) (moved : Except Fault Cursor) :
    Prop :=
  ∃ next, moved = .ok next ∧ next.Matches src state ∧ next.countedTo = counted

theorem copyTo_of_cutOut {stop : Nat} {part : Bytes}
    (hpart : src.cutOut cursor.pos stop = .ok part) :
    cursor.copyTo src stop =
      .ok { cursor with
        pos := stop
        output := cursor.output ++ part
        spaceStart := (cursor.output ++ part).length
        newLineBefore := cursor.onNewLine } := by
  rw [copyTo, hpart]
  rfl

/-- A copied segment takes the cursor to the state behind it. -/
theorem IsReadyFor.goesTo (hready : cursor.IsReadyFor src state segment)
    (hcopied : segment.isCopied = true) (hfits : segment.FitsKind)
    (hpart : src.cutOut state.offset (state.offset + segment.bytes.length) =
      .ok segment.bytes) :
    GoesTo src (state.push segment) cursor.countedTo
      (cursor.copyTo src (state.offset + segment.bytes.length)) := by
  rcases push_of_isCopied hcopied hfits state with ⟨hwritten, hpending⟩
  rw [← hready.pos] at hpart ⊢
  refine ⟨_, copyTo_of_cutOut hpart, ⟨?_, hready.findings⟩, rfl⟩
  constructor
  · rw [push_offset, hready.pos]
  · rw [output_push_of_isCopied hcopied hfits, hready.output]
  · exact hready.last
  · exact hready.role
  · rw [SweepState.onNewLine, hpending]
    simpa using hready.onNewLine
  · exact hready.heads
  · rw [← Array.length_toList, hwritten, hready.output]
  · exact hready.onNewLine
  · exact hready.countedTo_le.trans (Nat.le_add_right _ _)
  · exact hready.newlines

theorem Stands.isReadyFor_literal (hstands : cursor.Stands src state)
    (hfindings : cursor.findings = state.findings) (b : UInt8) (others : Bytes) :
    { cursor with last := some valueByte, role := .plain, onNewLine := false }.IsReadyFor src
      state ⟨.literal, b, others⟩ where
  pos := hstands.pos
  output := hstands.output
  last := rfl
  role := rfl
  onNewLine := rfl
  heads := hstands.heads
  countedTo_le := hstands.countedTo_le
  newlines := hstands.newlines
  findings := by
    rw [findings_push]
    simpa [Segment.finding?] using hfindings

theorem Stands.isReadyFor_comment (hstands : cursor.Stands src state)
    (hfindings : cursor.findings = state.findings) (b : UInt8) (others : Bytes) :
    { cursor with onNewLine := cursor.onNewLine || (b :: others).contains newline }.IsReadyFor
      src state ⟨.comment, b, others⟩ where
  pos := hstands.pos
  output := hstands.output
  last := hstands.last
  role := hstands.role
  onNewLine := by rw [hstands.onNewLine]; rfl
  heads := hstands.heads
  countedTo_le := hstands.countedTo_le
  newlines := hstands.newlines
  findings := by
    rw [findings_push]
    simpa [Segment.finding?] using hfindings

theorem Stands.doublesSign_eq (hstands : cursor.Stands src state)
    (hpending : ∀ c ∈ state.pending, isWhitespace c = true) (b : UInt8) :
    cursor.doublesSign b = state.doublesSign b := by
  rw [doublesSign, SweepState.doublesSign, hstands.last, hstands.output, SweepState.output,
    Bool.and_assoc (_ && _)]
  cases hsign : (b == plus || b == minus) with
  | false => rw [Bool.false_and, Bool.false_and, Bool.false_and]
  | true =>
      rcases List.eq_nil_or_concat state.pending with hnone | ⟨before, c, hheld⟩
      · simp [hnone, Array.getLast?_toList]
      · -- behind white space the last byte of the output is no sign
        have hspace : isWhitespace c = true := hpending c (by simp [hheld])
        have hne : c ≠ b := by
          rintro rfl
          rcases isWhitespace_cases hspace with rfl | rfl | rfl | rfl | rfl <;> cases hsign
        have hlast : (some c == some b) = false := by simpa using hne
        have hsome : (before ++ [c]).isEmpty = false := by simp
        rw [hheld, List.concat_eq_append, ← List.append_assoc, List.getLast?_concat, hlast, hsome,
          Bool.and_false, Bool.false_and, Bool.and_false]

theorem Stands.isReadyFor_punctuation (hstands : cursor.Stands src state)
    (hfindings : cursor.findings = state.findings)
    (hpending : ∀ c ∈ state.pending, isWhitespace c = true) (b : UInt8) :
    { cursor with
      last := some b
      role :=
        if b = closeParen ∧ cursor.heads.head? = some true then .beforeBody
        else if cursor.doublesSign b then .increment
        else .plain
      onNewLine := false
      heads :=
        if b = openParen then (cursor.role == Role.headKeyword) :: cursor.heads
        else if b = closeParen then cursor.heads.tail
        else cursor.heads }.IsReadyFor src state ⟨.punctuation, b, []⟩ where
  pos := hstands.pos
  output := hstands.output
  last := rfl
  role := by
    rw [hstands.heads, hstands.doublesSign_eq hpending]
    rfl
  onNewLine := rfl
  heads := by
    rw [hstands.heads, hstands.role]
    rfl
  countedTo_le := hstands.countedTo_le
  newlines := hstands.newlines
  findings := by
    rw [findings_push]
    simpa [Segment.finding?] using hfindings

theorem Stands.isReadyFor_word (hstands : cursor.Stands src state)
    (hkind : segment.kind = .word ∨ ∃ call obstacle, segment.kind = .kept call obstacle)
    (hfindings : cursor.findings = (state.push segment).findings) :
    { cursor with
      last := some segment.last, role := .ofWord segment.bytes, onNewLine := false }.IsReadyFor
      src state segment := by
  constructor
  · exact hstands.pos
  · exact hstands.output
  · rcases hkind with hkind | ⟨call, obstacle, hkind⟩ <;>
      simp [SweepState.push, emit, hkind, writeToken]
  · rcases hkind with hkind | ⟨call, obstacle, hkind⟩ <;>
      simp [SweepState.push, emit, hkind, writeToken]
  · rcases hkind with hkind | ⟨call, obstacle, hkind⟩ <;>
      simp [SweepState.push, emit, hkind, writeToken]
  · rcases hkind with hkind | ⟨call, obstacle, hkind⟩ <;>
      simpa [SweepState.push, emit, hkind, writeToken, write] using hstands.heads
  · exact hstands.countedTo_le
  · exact hstands.newlines
  · exact hfindings

/-! ## What stands at the cursor -/

theorem step_of_drop (table : ParenTable) (hrest : src.drop cursor.pos = b :: tail) :
    cursor.step src table =
      match Literal.opened? cursor.last b tail with
      | some literal =>
        if literal.kind.isValue then
          cursor.copyToken src (cursor.pos + literal.length) valueByte .plain
        else cursor.copyComment src (cursor.pos + literal.length)
      | none =>
        if isWhitespace b then .ok (cursor.copySpace b)
        else if isWord b then
          cursor.takeWord src table (cursor.pos + (runLength isWord tail + 1))
        else cursor.copyPunctuation src b := by
  rw [step, literalAt?_of_drop hrest, byteAt_of_drop hrest]
  cases hopened : Literal.opened? cursor.last b tail with
  | some literal => rfl
  | none =>
      simp only [bind, Except.bind, Option.map_none]
      split_ifs with hspace hword
      · rfl
      · rw [wordEnd, runEnd_of_le (lt_length_of_drop hrest).le, hrest, runLength,
          List.takeWhile_cons_of_pos hword]
        rfl
      · rfl

theorem step_of_isWord (table : ParenTable) (hrest : src.drop cursor.pos = b :: tail)
    (hword : isWord b = true) :
    cursor.step src table =
      cursor.takeWord src table (cursor.pos + (runLength isWord tail + 1)) := by
  have hspace : isWhitespace b ≠ true := by
    intro hspace
    simp [isWord_of_isWhitespace hspace] at hword
  rw [step_of_drop table hrest, opened?_eq_none_of_isWord hword]
  simp only [if_neg hspace, if_pos hword]

/-! ## Words -/

theorem getElem?_last_of_take {more : Nat} (hmore : more ≤ tail.length) (b : UInt8) :
    (b :: tail)[more]? = some ((tail.take more).getLastD b) := by
  have hlast : ((b :: tail).take (more + 1)).getLast? = (b :: tail)[more]? := by
    rw [List.getLast?_take, if_neg (Nat.succ_ne_zero more), Nat.add_sub_cancel,
      List.getElem?_eq_getElem (Nat.lt_succ_of_le hmore)]
    rfl
  rw [← hlast, List.take_succ_cons, List.getLast?_cons, List.getLastD_eq_getLast?]

theorem slice_of_drop {i more : Nat} (hrest : src.drop i = b :: tail)
    (hmore : more ≤ tail.length) :
    src.slice i (i + (more + 1)) = .ok (b :: tail.take more) := by
  have hlength := congrArg List.length hrest
  rw [List.length_drop, List.length_cons] at hlength
  rw [slice_of_le (Nat.le_add_right _ _) (by omega), hrest, Nat.add_sub_cancel_left,
    List.take_succ_cons]

theorem copyWord_of_drop {more : Nat} (hrest : src.drop cursor.pos = b :: tail)
    (hmore : more ≤ tail.length) :
    cursor.copyWord src (cursor.pos + (more + 1)) =
      cursor.copyToken src (cursor.pos + (more + 1)) ((tail.take more).getLastD b)
        (.ofWord (b :: tail.take more)) := by
  have hback : distance 1 (cursor.pos + (more + 1)) = .ok (cursor.pos + more) := by
    rw [distance, if_pos (by omega)]
    rfl
  have hlast : src.byteAt (cursor.pos + more) = .ok ((tail.take more).getLastD b) := by
    rw [byteAt, ← List.getElem?_drop, hrest, getElem?_last_of_take hmore]
  rw [copyWord, hback]
  simp only [bind, Except.bind, hlast, slice_of_drop hrest hmore]

theorem takeWord_of_drop {text : String} {more : Nat} (table : ParenTable)
    (hrest : (ofString text).drop cursor.pos = b :: tail) (hmore : more ≤ tail.length) :
    cursor.takeWord (ofString text) table (cursor.pos + (more + 1)) =
      if b :: tail.take more = ofString receiver ∧ cursor.last ≠ some dot then
        match calledMethod? (tail.drop more) with
        | none => cursor.copyWord (ofString text) (cursor.pos + (more + 1))
        | some (method, before) =>
          table.closingOf (cursor.pos + (more + 1) + before)
              ((ofString text).drop (cursor.pos + (more + 1) + before)) >>= fun closing =>
            cursor.takeCall (ofString text) method closing (cursor.pos + (more + 1))
      else cursor.copyWord (ofString text) (cursor.pos + (more + 1)) := by
  have hstop : (ofString text).drop (cursor.pos + (more + 1)) = tail.drop more := by
    rw [← List.drop_drop, hrest, List.drop_succ_cons]
  rw [takeWord, slice_of_drop hrest hmore, calledAt?_eq ⟨text, rfl⟩, hstop]
  simp only [bind, Except.bind]
  cases calledMethod? (tail.drop more) with
  | none => rfl
  | some called =>
      rcases called with ⟨method, before⟩
      simp only
      cases table.closingOf (cursor.pos + (more + 1) + before)
        ((ofString text).drop (cursor.pos + (more + 1) + before)) <;> rfl

/-! ## Calls -/

theorem Stands.countLines_eq (hstands : cursor.Stands src state) (hle : cursor.pos ≤ src.length) :
    cursor.countLines src cursor.pos =
      .ok { cursor with
        countedTo := cursor.pos, newlines := (src.take cursor.pos).count newline } := by
  have hcount : cursor.newlines +
      ((src.drop cursor.countedTo).take (cursor.pos - cursor.countedTo)).count newline =
        (src.take cursor.pos).count newline := by
    rw [hstands.newlines, ← List.count_append, ← List.take_add,
      Nat.add_sub_cancel' hstands.countedTo_le]
  rw [countLines, slice_of_le hstands.countedTo_le hle, ← hcount]
  rfl

/-- The cursor with the lines counted up to where it stands. -/
def countedHere (src : Bytes) (cursor : Cursor) : Cursor :=
  { cursor with countedTo := cursor.pos, newlines := (src.take cursor.pos).count newline }

theorem Stands.countedHere (hstands : cursor.Stands src state) :
    (cursor.countedHere src).Stands src state :=
  { hstands with countedTo_le := le_rfl, newlines := rfl }

theorem Stands.note (hstands : cursor.Stands src state) (finding : Finding) :
    (cursor.note finding).Stands src state :=
  { hstands with }

theorem Stands.judgeClosed_eq (hstands : cursor.Stands src state) {closing : Nat}
    (hlt : closing < src.length) :
    (cursor.countedHere src).judgeClosed src (some closing) =
      .ok ((LogSweep.judge state.last state.role state.onNewLine
        (src.drop (closing + 1))).map (·.endBehind closing)) := by
  rw [judgeClosed, judge_eq _ hlt, ← hstands.last, ← hstands.role, ← hstands.onNewLine]
  rfl

theorem Stands.takeCall_eq {rest : Bytes} (hstands : cursor.Stands src state)
    (hreach : Reaches src state rest) (method : Method) (closing : Option Nat) (stop : Nat) :
    cursor.takeCall src method closing stop =
      ((cursor.countedHere src).judgeClosed src closing >>= fun
        | .ok statement => do
          return (← (cursor.countedHere src).leaveOut src statement).note
            (.removed (state.callHere method))
        | .error obstacle =>
          ((cursor.countedHere src).note (.kept (state.callHere method) obstacle)).copyWord src
            stop) := by
  have hcall : (⟨method, cursor.pos, (src.take cursor.pos).count newline + 1⟩ : Call) =
      state.callHere method := by
    rw [callHere, hreach.line_eq, hstands.pos]
  rw [takeCall, hstands.countLines_eq (hstands.pos ▸ hreach.drop_offset.2), ← hcall]
  rfl

theorem Stands.leaveOut_eq {rest : Bytes} {ending : Ending} {closing : Nat}
    (hstands : cursor.Stands src state) (htext : state.ReadsText rest)
    (hstop : closing + 1 + ending.length ≤ src.length) :
    cursor.leaveOut src (ending.endBehind closing) =
      .ok { cursor with
        pos := closing + 1 + ending.length +
          state.terminatorAfter ending (src.drop (closing + 1))
        output := if ending.endsLine then state.written.toList else state.output
        onNewLine := if ending.endsLine then state.writtenNewline else state.onNewLine } := by
  rw [leaveOut, terminatorAfter, Ending.endBehind]
  cases hline : ending.endsLine with
  | false =>
      rw [if_neg Bool.false_ne_true, if_neg (by simp), ← hstands.output, ← hstands.onNewLine]
      rfl
  | true =>
      have hcut : cursor.output.truncate cursor.spaceStart = .ok state.written.toList := by
        rw [hstands.output, hstands.spaceStart, truncate_of_checkCut htext.checkCut_output,
          SweepState.output, ← Array.length_toList, List.take_left]
      rw [if_pos rfl, hcut, suffixFrom_of_le hstop, hstands.newLineBefore, List.drop_drop]
      cases hnone : state.written.isEmpty with
      | true => simp [bind, Except.bind, hnone]; rfl
      | false => simp [bind, Except.bind, hnone]; rfl

end

/-! ## From state to state -/

section

variable {text : String} {cursor : Cursor} {state : SweepState} {b : UInt8} {tail : Bytes}
  {kind : Segment.Kind} {more : Nat} {method : Method} {opening : Nat}
  (hreach : Reaches (ofString text) state (b :: tail))

include hreach

/-- The next segment can be cut out of the text. -/
theorem cutOut_of_nextSegment (hsegment : NextSegment (ofString text) state b tail kind more) :
    (ofString text).cutOut state.offset
        (state.offset + (Segment.mk kind b (tail.take more)).bytes.length) =
      .ok (Segment.mk kind b (tail.take more)).bytes := by
  have hrest := hreach.drop_offset.1
  have hcut := hreach.readsText.checkCut hrest hsegment
  have hnext := (Reaches.step hreach (hsegment.next_eq hrest) hcut).standsSafely.cut
  rw [push_offset] at hnext
  rw [cutOut_of_checkCut (Nat.le_add_right _ _) hreach.standsSafely.cut hnext,
    Nat.add_sub_cancel_left, hrest, length_bytes_of_cut hcut, List.take_succ_cons]
  rfl

/-- A segment that the cursor is ready for is copied. -/
theorem IsReadyFor.goesTo_next
    (hready : cursor.IsReadyFor (ofString text) state ⟨kind, b, tail.take more⟩)
    (hsegment : NextSegment (ofString text) state b tail kind more)
    (hcopied : (Segment.mk kind b (tail.take more)).isCopied = true) :
    GoesTo (ofString text) (state.push ⟨kind, b, tail.take more⟩) cursor.countedTo
      (cursor.copyTo (ofString text) (cursor.pos + (more + 1))) := by
  have hcut := hreach.readsText.checkCut hreach.drop_offset.1 hsegment
  have hgoes := hready.goesTo hcopied hsegment.fitsKind (cutOut_of_nextSegment hreach hsegment)
  rwa [length_bytes_of_cut hcut, ← hready.pos] at hgoes

theorem Stands.goesTo_word (hstands : cursor.Stands (ofString text) state)
    (hkind : kind = .word ∨ ∃ call obstacle, kind = .kept call obstacle)
    (hsegment : NextSegment (ofString text) state b tail kind more)
    (hfindings : cursor.findings = (state.push ⟨kind, b, tail.take more⟩).findings) :
    GoesTo (ofString text) (state.push ⟨kind, b, tail.take more⟩) cursor.countedTo
      (cursor.copyWord (ofString text) (cursor.pos + (more + 1))) := by
  have hrest := hreach.drop_offset.1
  have hmore := (checkCut_eq_ok_iff.mp (hreach.readsText.checkCut hrest hsegment)).1
  have hcopied : (Segment.mk kind b (tail.take more)).isCopied = true := by
    rcases hkind with rfl | ⟨call, obstacle, rfl⟩ <;> rfl
  rw [copyWord_of_drop (hstands.pos ▸ hrest) hmore]
  exact (hstands.isReadyFor_word hkind hfindings).goesTo_next hreach hsegment hcopied

/-- Noted as kept, the receiver of a call is copied as a word. -/
theorem Matches.goesTo_kept {obstacle : Obstacle} (hmatches : cursor.Matches (ofString text) state)
    (hsegment : NextSegment (ofString text) state b tail
      (.kept (state.callHere method) obstacle) more) :
    GoesTo (ofString text) (state.push ⟨.kept (state.callHere method) obstacle, b, tail.take more⟩)
      cursor.pos
      (((cursor.countedHere (ofString text)).note
        (.kept (state.callHere method) obstacle)).copyWord (ofString text)
          (cursor.pos + (more + 1))) := by
  refine (hmatches.toStands.countedHere.note _).goesTo_word hreach (.inr ⟨_, _, rfl⟩) hsegment ?_
  rw [findings_push, ← hmatches.findings]
  rfl

/-- A deleted statement is left out, with the white space in front of it if it ends
its line. -/
theorem Matches.goesTo_removed {closing : Nat} {ending : Ending}
    (hmatches : cursor.Matches (ofString text) state)
    (hfound : closingFrom (ofString text) opening openParen closeParen = .found closing)
    (hle : state.offset ≤ closing)
    (hjudge : LogSweep.judge state.last state.role state.onNewLine
      ((ofString text).drop (closing + 1)) = .ok ending)
    (hsegment : NextSegment (ofString text) state b tail
      (.removed (state.callHere method) ending.endsLine
        (state.terminatorAfter ending ((ofString text).drop (closing + 1)))) more)
    (hmore : more = closing - state.offset + ending.length +
      state.terminatorAfter ending ((ofString text).drop (closing + 1))) :
    GoesTo (ofString text)
      (state.push ⟨.removed (state.callHere method) ending.endsLine
        (state.terminatorAfter ending ((ofString text).drop (closing + 1))), b, tail.take more⟩)
      cursor.pos
      ((cursor.countedHere (ofString text)).leaveOut (ofString text)
          (ending.endBehind closing) >>= fun left =>
        .ok (left.note (.removed (state.callHere method)))) := by
  have hcut := hreach.readsText.checkCut hreach.drop_offset.1 hsegment
  have hclosing := (List.getElem?_eq_some_iff.mp (closingFrom_found hfound).2).1
  have hstop : closing + 1 + ending.length ≤ (ofString text).length := by
    rcases judge_eq_ok_iff.mp hjudge with ⟨-, -, -, rfl⟩
    rcases exists_readsEnding hclosing with ⟨blanks, stop, -, hstop, hle⟩
    omega
  have hpos : closing + 1 + ending.length +
      state.terminatorAfter ending ((ofString text).drop (closing + 1)) =
        state.offset + (more + 1) := by
    omega
  rw [hmatches.toStands.countedHere.leaveOut_eq hreach.readsText hstop]
  refine ⟨_, rfl, ⟨?_, ?_⟩, rfl⟩
  · constructor
    · rw [push_offset, length_bytes_of_cut hcut, ← hpos]
      rfl
    · cases hline : ending.endsLine <;>
        simp [Cursor.note, SweepState.push, emit, SweepState.output]
    · cases hline : ending.endsLine <;> exact hmatches.last
    · cases hline : ending.endsLine <;> exact hmatches.role
    · cases hline : ending.endsLine <;>
        simp [Cursor.note, SweepState.push, emit, SweepState.onNewLine]
    · cases hline : ending.endsLine <;> exact hmatches.heads
    · cases hline : ending.endsLine <;> exact hmatches.spaceStart
    · cases hline : ending.endsLine <;> exact hmatches.newLineBefore
    · show cursor.pos ≤ _
      rw [hmatches.pos]
      show state.offset ≤ closing + 1 + ending.length + _
      omega
    · rfl
  · rw [findings_push, ← hmatches.findings]
    rfl

/-! ## A whole step -/

/-- The word that a call starts with is the receiver, and the call is read as the
state meets it. -/
theorem Stands.takeWord_of_meetsCall (hstands : cursor.Stands (ofString text) state)
    (hcall : state.MeetsCall (b :: tail) method opening) {partner : Option Nat}
    (hsearch : closingFrom (ofString text) opening openParen closeParen =
      Closing.ofPartner partner) :
    cursor.takeWord (ofString text) (.ofText (ofString text))
        (cursor.pos + (runLength isWord tail + 1)) =
      cursor.takeCall (ofString text) method partner
        (cursor.pos + (runLength isWord tail + 1)) := by
  have hrest := hreach.drop_offset.1
  rcases receiver_of_meetsCall hcall with ⟨hword, -, before, hcalled, hopening, -⟩
  have htable := hcall.closingOf_eq hrest hsearch
  rw [hcall.drop_opening hrest] at htable
  have hplace : cursor.pos + (runLength isWord tail + 1) + before = opening := by
    rw [hstands.pos, hopening]
    omega
  rw [takeWord_of_drop _ (hstands.pos ▸ hrest) (runLength_le_length isWord tail),
    if_pos ⟨hword, hstands.last ▸ hcall.notMember⟩, hcalled]
  simp only [hplace, htable]
  rfl

theorem Stands.takeWord_of_forall_not_meetsCall (hstands : cursor.Stands (ofString text) state)
    (hnone : ∀ method opening, ¬ state.MeetsCall (b :: tail) method opening)
    (table : ParenTable) :
    cursor.takeWord (ofString text) table (cursor.pos + (runLength isWord tail + 1)) =
      cursor.copyWord (ofString text) (cursor.pos + (runLength isWord tail + 1)) := by
  rw [takeWord_of_drop _ (hstands.pos ▸ hreach.drop_offset.1) (runLength_le_length isWord tail)]
  split_ifs with hreceiver
  · cases hcalled : calledMethod? (tail.drop (runLength isWord tail)) with
    | none => rfl
    | some called =>
        rcases called with ⟨method, before⟩
        have hcall := meetsCall_of_calledMethod? hreceiver.1 (hstands.last ▸ hreceiver.2) hcalled
        exact absurd hcall (hnone _ _)
  · rfl

/-- From a cursor that matches a state, the step meets no fault and goes to the state
behind the next segment, unless that is white space. -/
theorem Matches.exists_step (hmatches : cursor.Matches (ofString text) state)
    (hsegment : NextSegment (ofString text) state b tail kind more) (hspace : kind ≠ .space) :
    ∃ counted, (counted = cursor.countedTo ∨ counted = cursor.pos) ∧
      GoesTo (ofString text) (state.push ⟨kind, b, tail.take more⟩) counted
        (cursor.step (ofString text) (.ofText (ofString text))) := by
  have hrest := hreach.drop_offset.1
  have hstands := hmatches.toStands
  have hplace : (ofString text).drop cursor.pos = b :: tail := hstands.pos ▸ hrest
  cases hsegment with
  | @literal literal hopened hvalue =>
      refine ⟨_, .inl rfl, ?_⟩
      rw [step_of_drop _ hplace, hmatches.last, hopened]
      simp only [if_pos hvalue]
      rw [copyToken, Literal.length]
      exact (hstands.isReadyFor_literal hmatches.findings b _).goesTo_next hreach
        (.literal hopened hvalue) rfl
  | @comment literal hopened hvalue =>
      have hmore := (Literal.opened?_asciiCut hopened).le_length
      refine ⟨_, .inl rfl, ?_⟩
      rw [step_of_drop _ hplace, hmatches.last, hopened]
      simp only [hvalue, Bool.false_eq_true, if_false]
      rw [copyComment, Literal.length, slice_of_drop hplace hmore]
      exact (hstands.isReadyFor_comment hmatches.findings b _).goesTo_next hreach
        (.comment hopened hvalue) rfl
  | space => exact absurd rfl hspace
  | punctuation hopened hblank hword =>
      have hpending := hreach.readsText.pending
      refine ⟨_, .inl rfl, ?_⟩
      rw [step_of_drop _ hplace, hmatches.last, hopened]
      simp only [hblank, hword, Bool.false_eq_true, if_false]
      rw [copyPunctuation, copyToken]
      exact (hstands.isReadyFor_punctuation hmatches.findings hpending b).goesTo_next hreach
        (.punctuation hopened hblank hword) rfl
  | word hword hnone =>
      refine ⟨_, .inl rfl, ?_⟩
      rw [step_of_isWord _ hplace hword, hstands.takeWord_of_forall_not_meetsCall hreach hnone]
      refine hstands.goesTo_word hreach (.inl rfl) (.word hword hnone) ?_
      rw [findings_push, hmatches.findings]
      simp [Segment.finding?]
  | unclosed hword hcall hsearch =>
      have hpartner : closingFrom (ofString text) _ openParen closeParen =
        Closing.ofPartner none := hsearch
      refine ⟨_, .inr rfl, ?_⟩
      rw [step_of_isWord _ hplace hword, hstands.takeWord_of_meetsCall hreach hcall hpartner,
        hstands.takeCall_eq hreach]
      exact hmatches.goesTo_kept hreach (.unclosed hword hcall hsearch)
  | @refused method opening closing obstacle hword hcall hfound hjudge =>
      have hclosing := (List.getElem?_eq_some_iff.mp (closingFrom_found hfound).2).1
      have hpartner : closingFrom (ofString text) _ openParen closeParen =
        Closing.ofPartner (some closing) := hfound
      refine ⟨_, .inr rfl, ?_⟩
      rw [step_of_isWord _ hplace hword, hstands.takeWord_of_meetsCall hreach hcall hpartner,
        hstands.takeCall_eq hreach, hstands.judgeClosed_eq hclosing, hjudge]
      exact hmatches.goesTo_kept hreach (.refused hword hcall hfound hjudge)
  | @removed method opening closing ending hword hcall hfound hjudge =>
      rcases closingFrom_found hfound with ⟨hle, hbyte⟩
      have hclosing := (List.getElem?_eq_some_iff.mp hbyte).1
      have hpartner : closingFrom (ofString text) _ openParen closeParen =
        Closing.ofPartner (some closing) := hfound
      refine ⟨_, .inr rfl, ?_⟩
      rw [step_of_isWord _ hplace hword, hstands.takeWord_of_meetsCall hreach hcall hpartner,
        hstands.takeCall_eq hreach, hstands.judgeClosed_eq hclosing, hjudge]
      exact hmatches.goesTo_removed hreach hfound (hcall.offset_lt.le.trans hle) hjudge
        (.removed hword hcall hfound hjudge) rfl

end

end Cursor

end LogSweep
