import LogSweep.Cleanup
import LogSweep.Proofs.SweepStep

/-!
# A sweep meets no fault

The invariant is that what remains is a text, that the output up to its last
token is one too, and that only white space is held back.  Each segment ends
where a character starts, so it can be cut off and written; its start is the
only offset that a call is looked up by, and starts only grow.
-/

namespace LogSweep

open Byte Bytes

namespace SweepState

/-- The calls found so far, in order. -/
def calls (state : SweepState) : List Call :=
  (state.segments.toList.filterMap Segment.finding?).map Finding.call

/-- What a sweep keeps true about texts. -/
structure ReadsText (state : SweepState) (rest : Bytes) : Prop where
  rest : IsText rest
  written : IsText state.written.toList
  pending : ∀ b ∈ state.pending, isWhitespace b = true

theorem initial_readsText (text : String) :
    initial.ReadsText (ofString text) where
  rest := ⟨text, rfl⟩
  written := isText_nil
  pending := by simp [initial]

section

variable {state : SweepState} {rest : Bytes}

theorem ReadsText.pending_isText (htext : state.ReadsText rest) :
    IsText state.pending :=
  isText_of_ascii (fun b hb => ascii_of_isWhitespace (htext.pending b hb))

theorem ReadsText.output_isText (htext : state.ReadsText rest) :
    IsText state.output :=
  htext.written.append htext.pending_isText

/-- The output can be cut where its last run of white space begins. -/
theorem ReadsText.checkCut_output (htext : state.ReadsText rest) :
    state.output.checkCut state.written.size = .ok () := by
  rw [checkCut_eq_ok_iff, output, ← Array.length_toList]
  constructor
  · simp
  · rw [List.drop_left]
    exact htext.pending_isText.startsCharacter

theorem ReadsText.checkCut {src tail : Bytes} {b : UInt8}
    {kind : Segment.Kind} {more : Nat}
    (htext : state.ReadsText (b :: tail))
    (hrest : src.drop state.offset = b :: tail)
    (hsegment : NextSegment src state b tail kind more) :
    tail.checkCut more = .ok () := by
  have hcut := hsegment.asciiCut hrest
  rw [checkCut_eq_ok_iff]
  constructor
  · simpa using hcut.le_length
  · have hwhole : IsText ([] ++ b :: tail) := by simpa using htext.rest
    simpa using hcut.startsCharacter hwhole

theorem write_written (state : SweepState) (bytes : Bytes) :
    (state.write bytes).written.toList =
      state.written.toList ++ state.pending ++ bytes := by
  simp [write]

theorem ReadsText.write (htext : state.ReadsText rest) {bytes beyond : Bytes}
    (hbytes : IsText bytes) (hbeyond : IsText beyond) :
    (state.write bytes).ReadsText beyond where
  rest := hbeyond
  written := by
    rw [write_written]
    exact (htext.written.append htext.pending_isText).append hbytes
  pending := by simp [SweepState.write]

theorem ReadsText.push {src tail : Bytes} {b : UInt8} {kind : Segment.Kind}
    {more : Nat}
    (htext : state.ReadsText (b :: tail))
    (hsegment : NextSegment src state b tail kind more)
    (hcut : tail.checkCut more = .ok ()) :
    (state.push ⟨kind, b, tail.take more⟩).ReadsText (tail.drop more) := by
  have hstarts := (checkCut_eq_ok_iff.mp hcut).2
  have hsplit : IsText ((b :: tail.take more) ++ tail.drop more) := by
    simpa using htext.rest
  obtain ⟨hbytes, hbeyond⟩ := hsplit.cut hstarts
  have hwritten := htext.write hbytes hbeyond
  have hunwritten : ReadsText state (tail.drop more) :=
    ⟨hbeyond, htext.written, htext.pending⟩
  cases hsegment with
  | literal => exact ⟨hbeyond, hwritten.written, hwritten.pending⟩
  | comment => exact ⟨hbeyond, hwritten.written, hwritten.pending⟩
  | punctuation => exact ⟨hbeyond, hwritten.written, hwritten.pending⟩
  | word => exact ⟨hbeyond, hwritten.written, hwritten.pending⟩
  | unclosed => exact ⟨hbeyond, hwritten.written, hwritten.pending⟩
  | refused => exact ⟨hbeyond, hwritten.written, hwritten.pending⟩
  | space hspace =>
      refine ⟨hbeyond, htext.written, fun c hc => ?_⟩
      rcases List.mem_append.mp hc with hheld | hnew
      · exact htext.pending c hheld
      · exact forall_mem_run hspace tail c hnew
  | @removed method opening closing ending =>
      refine ⟨hbeyond, ?_, ?_⟩
      · cases hline : ending.endsLine <;>
          simpa [SweepState.push, emit, hline] using htext.written
      · cases hline : ending.endsLine with
        | true => simp [SweepState.push, emit]
        | false => simpa [SweepState.push, emit] using htext.pending

end

theorem Reaches.readsText {text : String} {state : SweepState} {rest : Bytes}
    (hreach : Reaches (ofString text) state rest) : state.ReadsText rest := by
  induction hreach with
  | start => exact initial_readsText text
  | step hreach hnext hcut ih => exact ih.push (hreach.nextSegment hnext) hcut

/-! ## Calls in order -/

/-- The calls found so far start at growing offsets, all of them behind. -/
structure CallsInOrder (state : SweepState) : Prop where
  increasing : (state.calls.map Call.start).Pairwise (· < ·)
  behind : ∀ call ∈ state.calls, call.start < state.offset

theorem calls_push (state : SweepState) (segment : Segment) :
    (state.push segment).calls =
      state.calls ++ segment.finding?.toList.map Finding.call := by
  cases hfinding : segment.finding? <;>
    simp [calls, List.filterMap_append, hfinding]

theorem NextSegment.finding? {src tail : Bytes} {state : SweepState}
    {b : UInt8} {kind : Segment.Kind} {more : Nat} {finding : Finding}
    (hsegment : NextSegment src state b tail kind more)
    (hfinding : (Segment.mk kind b (tail.take more)).finding? = some finding) :
    finding.call.start = state.offset := by
  cases hsegment <;> simp [Segment.finding?] at hfinding <;>
    subst hfinding <;> rfl

theorem Reaches.callsInOrder {src : Bytes} {state : SweepState} {rest : Bytes}
    (hreach : Reaches src state rest) : state.CallsInOrder := by
  induction hreach with
  | start => exact ⟨by simp [calls, initial], by simp [calls, initial]⟩
  | @step state b tail kind more hreach hnext hcut ih =>
      have hgrows : state.offset <
          (state.push ⟨kind, b, tail.take more⟩).offset := by
        rw [push_offset, length_bytes_of_cut hcut]
        omega
      cases hfinding : (Segment.mk kind b (tail.take more)).finding? with
      | none =>
          constructor
          · simpa [calls_push, hfinding] using ih.increasing
          · intro call hcall
            rw [calls_push, hfinding] at hcall
            exact (ih.behind call (by simpa using hcall)).trans hgrows
      | some finding =>
          have hstart := (hreach.nextSegment hnext).finding? hfinding
          constructor
          · rw [calls_push, hfinding, List.map_append, List.pairwise_append]
            refine ⟨ih.increasing, by simp, ?_⟩
            intro earlier hearlier later hlater
            obtain ⟨call, hcall, rfl⟩ := List.mem_map.mp hearlier
            have hlater : later = finding.call.start := by simpa using hlater
            rw [hlater, hstart]
            exact ih.behind call hcall
          · intro call hcall
            rw [calls_push, hfinding, List.mem_append] at hcall
            rcases hcall with hearlier | hnew
            · exact (ih.behind call hearlier).trans hgrows
            · have hcall : call = finding.call := by simpa using hnew
              rw [hcall, hstart]
              exact hgrows

/-- The line that a call is reported on counts the line feeds before it. -/
theorem Reaches.line_eq {src : Bytes} {state : SweepState} {rest : Bytes}
    (hreach : Reaches src state rest) :
    state.line = (src.take state.offset).count newline + 1 := by
  induction hreach with
  | start => simp [initial]
  | @step state b tail kind more hreach hnext hcut ih =>
      obtain ⟨hrest, hle⟩ := hreach.drop_offset
      rw [push_line, push_offset, length_bytes_of_cut hcut, ih,
        List.take_add, hrest, List.take_succ_cons, List.count_append]
      simp only [Segment.bytes]
      omega

/-! ## The whole run -/

theorem Reaches.exists_final {text : String} {state : SweepState}
    {rest : Bytes} (hreach : Reaches (ofString text) state rest) :
    ∃ final, sweep (ofString text) = .ok final ∧
      Reaches (ofString text) final [] := by
  induction hlength : rest.length using Nat.strong_induction_on
    generalizing state rest with
  | _ length ih =>
      cases rest with
      | nil =>
          refine ⟨state, ?_, hreach⟩
          rw [← hreach.run_eq, run]
          rfl
      | cons b tail =>
          obtain ⟨kind, more, hnext, hsegment⟩ :=
            exists_nextSegment hreach.drop_offset.1
          have hcut := hreach.readsText.checkCut hreach.drop_offset.1 hsegment
          refine ih (tail.drop more).length ?_ (.step hreach hnext hcut) rfl
          rw [← hlength, List.length_drop, List.length_cons]
          omega

theorem ReadsText.exists_report {state : SweepState} {rest : Bytes}
    (htext : state.ReadsText rest) :
    ∃ report, state.report = .ok report ∧
      ofString report.text = state.output ∧
      report.findings = state.segments.toList.filterMap Segment.finding? := by
  obtain ⟨text, hdecode⟩ := htext.output_isText
  refine ⟨⟨text, state.segments.toList.filterMap Segment.finding?⟩, ?_,
    hdecode, rfl⟩
  rw [report, decode?_eq_some_iff.mpr hdecode]

/-- The sweep of a text ends, and its report is read off the last state. -/
theorem exists_sweepText (text : String) :
    ∃ final report, sweep (ofString text) = .ok final ∧
      Reaches (ofString text) final [] ∧
      sweepText text = .ok report ∧
      ofString report.text = final.output ∧
      report.findings = final.segments.toList.filterMap Segment.finding? := by
  obtain ⟨final, hsweep, hreach⟩ := Reaches.start.exists_final
  obtain ⟨report, hreport, htext, hfindings⟩ := hreach.readsText.exists_report
  refine ⟨final, report, hsweep, hreach, ?_, htext, hfindings⟩
  rw [sweepText, hsweep]
  exact hreport

/-! ## Every operation of every step -/

/-- In this state every offset into the text and into the output is in range
and falls between two characters: that of the sweep itself, that at which the
output would be cut back, and those at which lines were counted. -/
structure StandsSafely (src : Bytes) (state : SweepState) (rest : Bytes) :
    Prop where
  suffix : src.suffixFrom state.offset = .ok rest
  cut : src.checkCut state.offset = .ok ()
  truncation : state.output.checkCut state.written.size = .ok ()
  line : state.line = (src.take state.offset).count newline + 1
  queries : (state.calls.map Call.start).Pairwise (· < ·)
  queriesBehind : ∀ call ∈ state.calls, call.start < state.offset

/-- The offsets at which the name of a method is read, behind the dot: it is
the text from `start` to `stop`, and white space follows up to `next`. -/
structure ReadsName (src : Bytes) (start stop next : Nat) : Prop where
  inOrder : start ≤ stop
  cutBefore : src.checkCut start = .ok ()
  word : src.wordEnd start = .ok stop
  cutAfter : src.checkCut stop = .ok ()
  spaced : src.whitespaceEnd stop = .ok next

/-- The offsets at which the ending behind the parenthesis at `closing` is
read: the blanks end at `blanks`, and the statement at `stop`, behind a
semicolon and further blanks if there are any. -/
structure ReadsEnding (src : Bytes) (closing blanks stop : Nat) : Prop where
  spaced : src.blankEnd (closing + 1) = .ok blanks
  terminated :
    src[blanks]? = some semicolon → src.blankEnd (blanks + 1) = .ok stop
  unterminated : src[blanks]? ≠ some semicolon → stop = blanks

/-- From this state the sweep goes on without a fault.  It decides the next
segment and cuts it off, which takes it forward.  Behind the receiver and a
dot, a name and the white space after it are read at offsets in range, and the
name is cut out between two characters.  Where that makes a call, counting
never meets a parenthesis too many.  Behind the parenthesis that it finds, the
ending is read at offsets in range too, and so is what comes after it; there is
a byte to look at unless the line ends. -/
structure StepsSafely (src : Bytes) (state : SweepState) (b : UInt8)
    (tail : Bytes) : Prop where
  advance :
    ∃ kind more, state.next (.ofText src) b tail = .ok (kind, more) ∧
      tail.checkCut more = .ok () ∧
      src.checkCut (state.offset + (more + 1)) = .ok () ∧
      (state.push ⟨kind, b, tail.take more⟩).offset =
        state.offset + (more + 1)
  naming :
    ∀ named, b :: tail = ofString receiver ++ dot :: named →
      ∃ stop next,
        ReadsName src (state.offset + (ofString receiver).length + 1) stop
          next ∧
        ∀ method opening, state.MeetsCall (b :: tail) method opening →
          next = opening
  counting :
    ∀ method opening, state.MeetsCall (b :: tail) method opening →
      closingFrom src opening openParen closeParen ≠ .unopened
  lookahead :
    ∀ method opening closing, state.MeetsCall (b :: tail) method opening →
      closingFrom src opening openParen closeParen = .found closing →
      distance state.offset closing = .ok (closing - state.offset) ∧
      ∃ after blanks stop next,
        src.suffixFrom (closing + 1) = .ok after ∧
        ReadsEnding src closing blanks stop ∧
        stop = closing + 1 + (Ending.read after).length ∧
        src.whitespaceEnd stop = .ok next ∧
        opensCommentAt src stop = .ok (opensComment (src.drop stop)) ∧
        opensCommentAt src next = .ok (opensComment (src.drop next)) ∧
        ((Ending.read after).endsLine = false →
          ∃ c beyond, src.suffixFrom stop = .ok (c :: beyond))

theorem Reaches.standsSafely {text : String} {state : SweepState}
    {rest : Bytes} (hreach : Reaches (ofString text) state rest) :
    StandsSafely (ofString text) state rest := by
  obtain ⟨hrest, hle⟩ := hreach.drop_offset
  have htext := hreach.readsText
  have horder := hreach.callsInOrder
  refine ⟨?_, ?_, htext.checkCut_output, hreach.line_eq, horder.increasing,
    horder.behind⟩
  · rw [← hrest]
    exact suffixFrom_of_le hle
  · rw [checkCut_eq_ok_iff, hrest]
    exact ⟨hle, htext.rest.startsCharacter⟩

theorem opensCommentAt_of_le {src : Bytes} {start : Nat}
    (hle : start ≤ src.length) :
    opensCommentAt src start = .ok (opensComment (src.drop start)) := by
  rw [opensCommentAt, suffixFrom_of_le hle]
  rfl

/-- The name of a method that is called is read as a whole word, and then the
white space up to the parenthesis. -/
theorem MeetsCall.naming {src : Bytes} {state : SweepState} {b : UInt8}
    {tail : Bytes} {method : Method} {opening : Nat}
    (hrest : src.drop state.offset = b :: tail)
    (hcall : state.MeetsCall (b :: tail) method opening) :
    src.wordEnd (state.offset + (ofString receiver).length + 1) =
        .ok (state.offset + (ofString receiver).length + 1 +
          (ofString method.name).length) ∧
      src.whitespaceEnd (state.offset + (ofString receiver).length + 1 +
        (ofString method.name).length) = .ok opening := by
  obtain ⟨gap, after, hgap, hspelled, hopening⟩ := hcall.spelled
  have hbound := congrArg List.length hrest
  rw [hspelled, List.length_drop] at hbound
  simp only [List.length_append, List.length_cons] at hbound hopening
  have hname : src.drop (state.offset + (ofString receiver).length + 1) =
      ofString method.name ++ (gap ++ openParen :: after) := by
    rw [← List.drop_drop, ← List.drop_drop, hrest, hspelled, List.drop_left]
    simp
  have hword : runLength isWord
      (ofString method.name ++ (gap ++ openParen :: after)) =
        (ofString method.name).length := by
    rw [runLength, takeWhile_isWord_name method after hgap]
  have hspace : src.drop (state.offset + (ofString receiver).length + 1 +
      (ofString method.name).length) = gap ++ openParen :: after := by
    rw [← List.drop_drop, hname, List.drop_left]
  constructor
  · rw [wordEnd, runEnd_of_le (by omega), hname, hword]
  · rw [whitespaceEnd, runEnd_of_le (by omega), hspace, runLength,
      takeWhile_append_of_stop hgap (by decide), hopening]
    congr 1
    omega

theorem Reaches.exists_readsName {text : String} {state : SweepState}
    {rest named : Bytes} (hreach : Reaches (ofString text) state rest)
    (hnamed : rest = ofString receiver ++ dot :: named) :
    ∃ stop next, ReadsName (ofString text)
      (state.offset + (ofString receiver).length + 1) stop next := by
  obtain ⟨hrest, hle⟩ := hreach.drop_offset
  rw [hnamed] at hrest
  set start := state.offset + (ofString receiver).length with hstart
  have hlength := congrArg List.length hrest
  simp only [List.length_drop, List.length_append, List.length_cons] at hlength
  have hdot : (ofString text).drop start = dot :: named := by
    rw [hstart, ← List.drop_drop, hrest, List.drop_left]
  have hname : (ofString text).drop (start + 1) = named := by
    rw [← List.drop_drop, hdot]
    rfl
  have htext : IsText (ofString text) := ⟨text, rfl⟩
  have hbefore : AsciiCut (ofString text) (start + 1) :=
    AsciiCut.of_drop (by omega) (hdot ▸ .after (by decide))
  have hafter : AsciiCut (ofString text)
      (start + 1 + runLength isWord named) :=
    AsciiCut.of_drop (by omega)
      (hname ▸ asciiCut_runLength isWord_false_ascii named)
  obtain ⟨next, hspaced⟩ : ∃ next, (ofString text).whitespaceEnd
      (start + 1 + runLength isWord named) = .ok next :=
    ⟨_, runEnd_of_le hafter.le_length⟩
  refine ⟨start + 1 + runLength isWord named, next, by omega,
    hbefore.checkCut htext, ?_, hafter.checkCut htext, hspaced⟩
  rw [wordEnd, runEnd_of_le (by omega), hname]

theorem exists_readsEnding {src : Bytes} {closing : Nat}
    (hlt : closing < src.length) :
    ∃ blanks stop, ReadsEnding src closing blanks stop ∧
      stop = closing + 1 + (Ending.read (src.drop (closing + 1))).length ∧
      stop ≤ src.length := by
  set after := src.drop (closing + 1) with hafter
  have hlength : after.length = src.length - (closing + 1) := by
    rw [hafter, List.length_drop]
  have hget : ∀ skipped, src[closing + 1 + skipped]? = after[skipped]? := by
    intro skipped
    rw [hafter, List.getElem?_drop]
  have hblanks : src.blankEnd (closing + 1) =
      .ok (closing + 1 + runLength isBlank after) :=
    runEnd_of_le hlt
  have hblanksLe := runLength_le_length isBlank after
  have hhead : after[runLength isBlank after]? =
      (after.drop (runLength isBlank after)).head? := by
    rw [List.head?_drop]
  rcases Ending.read_length after with
    ⟨further, hdrop, hread⟩ | ⟨hnone, hread⟩
  · have hfurther : src.drop (closing + 1 + runLength isBlank after + 1) =
        further := by
      rw [← List.drop_drop, ← List.drop_drop, ← hafter, hdrop]
      rfl
    have hlt' : runLength isBlank after < after.length := by
      have := congrArg List.length hdrop
      rw [List.length_drop, List.length_cons] at this
      omega
    have hmore := runLength_le_length isBlank further
    have hfurtherLength := congrArg List.length hfurther
    rw [List.length_drop] at hfurtherLength
    refine ⟨closing + 1 + runLength isBlank after,
      closing + 1 + (Ending.read after).length, ⟨hblanks, ?_, ?_⟩, rfl, ?_⟩
    · intro _
      rw [blankEnd, runEnd_of_le (by omega), hfurther, hread]
      congr 1
      omega
    · intro hno
      rw [hget, hhead, hdrop] at hno
      exact absurd rfl hno
    · omega
  · refine ⟨closing + 1 + runLength isBlank after,
      closing + 1 + (Ending.read after).length, ⟨hblanks, ?_, ?_⟩, rfl, ?_⟩
    · intro hsemicolon
      rw [hget, hhead] at hsemicolon
      exact absurd hsemicolon hnone
    · intro _
      rw [hread]
    · omega

theorem exists_next_of_not_endsLine {after : Bytes}
    (hline : (Ending.read after).endsLine = false) :
    ∃ c beyond, after.drop (Ending.read after).length = c :: beyond := by
  obtain ⟨spelled, further, hafter, -, hlength, hends⟩ :=
    Ending.read_spelled after
  cases further with
  | nil =>
      rw [hends] at hline
      simp [atLineEnd] at hline
  | cons c beyond =>
      refine ⟨c, beyond, ?_⟩
      rw [hlength]
      conv => lhs; rw [hafter]
      rw [List.drop_left]

theorem Reaches.stepsSafely {text : String} {state : SweepState} {b : UInt8}
    {tail : Bytes} (hreach : Reaches (ofString text) state (b :: tail)) :
    StepsSafely (ofString text) state b tail := by
  have hrest := hreach.drop_offset.1
  constructor
  · obtain ⟨kind, more, hnext, hsegment⟩ := exists_nextSegment hrest
    have hcut := hreach.readsText.checkCut hrest hsegment
    have hoffset :
        (state.push ⟨kind, b, tail.take more⟩).offset =
          state.offset + (more + 1) := by
      rw [push_offset, length_bytes_of_cut hcut]
    refine ⟨kind, more, hnext, hcut, ?_, hoffset⟩
    rw [← hoffset]
    exact (Reaches.step hreach hnext hcut).standsSafely.cut
  · intro named hnamed
    obtain ⟨stop, next, hreads⟩ :=
      hreach.exists_readsName hnamed
    refine ⟨stop, next, hreads, fun method opening hcall => ?_⟩
    obtain ⟨hword, hspace⟩ := hcall.naming hrest
    obtain rfl := Except.ok.inj (hreads.word.symm.trans hword)
    exact Except.ok.inj (hreads.spaced.symm.trans hspace)
  · intro method opening hcall
    obtain ⟨partner, -, hsearch⟩ := hcall.closingOf hrest
    rw [hsearch]
    exact Closing.ofPartner_ne_unopened partner
  · intro method opening closing hcall hfound
    obtain ⟨hle, hbyte⟩ := closingFrom_found hfound
    have hlt := (List.getElem?_eq_some_iff.mp hbyte).1
    obtain ⟨blanks, stop, hreads, hstop, hstopLe⟩ := exists_readsEnding hlt
    refine ⟨?_, _, blanks, stop, _, suffixFrom_of_le hlt, hreads, hstop,
      runEnd_of_le hstopLe, opensCommentAt_of_le hstopLe,
      opensCommentAt_of_le (runEnd_le_length hstopLe), ?_⟩
    · rw [distance, if_pos (hcall.offset_lt.le.trans hle)]
    · intro hline
      obtain ⟨c, beyond, hdrop⟩ := exists_next_of_not_endsLine hline
      refine ⟨c, beyond, ?_⟩
      rw [suffixFrom_of_le hstopLe, ← hdrop, List.drop_drop, hstop]

end SweepState
end LogSweep
