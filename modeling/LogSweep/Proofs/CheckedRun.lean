import LogSweep.Proofs.CheckedSteps

/-!
# A sweep by offsets meets no fault

The cursor follows the states of the sweep: it matches one of them, or has copied
the first bytes of the white space behind it.  So the whole run ends as the sweep
does, with the same report, and no access that it makes on the way fails.
-/

namespace LogSweep

open Byte Bytes SweepState

namespace SweepState

/-- The state behind some white space, all of a run of it or its first bytes. -/
def takeSpace (state : SweepState) : Bytes → SweepState
  | [] => state
  | b :: others => state.push ⟨.space, b, others⟩

section

variable {held rest : Bytes} {state : SweepState}

@[simp] theorem takeSpace_offset (state : SweepState) (held : Bytes) :
    (state.takeSpace held).offset = state.offset + held.length := by
  cases held with
  | nil => rfl
  | cons b others => exact push_offset state _

@[simp] theorem takeSpace_written (state : SweepState) (held : Bytes) :
    (state.takeSpace held).written = state.written := by
  cases held <;> rfl

@[simp] theorem takeSpace_pending (state : SweepState) (held : Bytes) :
    (state.takeSpace held).pending = state.pending ++ held := by
  cases held with
  | nil => exact (List.append_nil _).symm
  | cons b others => rfl

@[simp] theorem takeSpace_writtenNewline (state : SweepState) (held : Bytes) :
    (state.takeSpace held).writtenNewline = state.writtenNewline := by
  cases held <;> rfl

@[simp] theorem takeSpace_last (state : SweepState) (held : Bytes) :
    (state.takeSpace held).last = state.last := by
  cases held <;> rfl

@[simp] theorem takeSpace_role (state : SweepState) (held : Bytes) :
    (state.takeSpace held).role = state.role := by
  cases held <;> rfl

@[simp] theorem takeSpace_heads (state : SweepState) (held : Bytes) :
    (state.takeSpace held).heads = state.heads := by
  cases held <;> rfl

@[simp] theorem takeSpace_findings (state : SweepState) (held : Bytes) :
    (state.takeSpace held).findings = state.findings := by
  cases held with
  | nil => rfl
  | cons b others =>
      rw [takeSpace, findings_push]
      exact List.append_nil _

@[simp] theorem takeSpace_output (state : SweepState) (held : Bytes) :
    (state.takeSpace held).output = state.output ++ held := by
  rw [SweepState.output, takeSpace_written, takeSpace_pending, ← List.append_assoc]
  rfl

@[simp] theorem takeSpace_onNewLine (state : SweepState) (held : Bytes) :
    (state.takeSpace held).onNewLine = (state.onNewLine || held.contains newline) := by
  rw [SweepState.onNewLine, takeSpace_writtenNewline, takeSpace_pending, List.contains_append,
    ← Bool.or_assoc]
  rfl

theorem ReadsText.takeSpace (htext : state.ReadsText (held ++ rest))
    (hspaces : ∀ b ∈ held, isWhitespace b = true) : (state.takeSpace held).ReadsText rest where
  rest := by
    rcases List.eq_nil_or_concat held with rfl | ⟨before, c, rfl⟩
    · exact htext.rest
    · have hc : c < 0x80 := ascii_of_isWhitespace (hspaces c (by simp))
      have hwhole : IsText (before ++ c :: rest) := by simpa using htext.rest
      exact (htext.rest.cut (hwhole.startsCharacter_after_ascii hc)).2
  written := by
    rw [takeSpace_written]
    exact htext.written
  pending := by
    intro b hb
    rw [takeSpace_pending, List.mem_append] at hb
    exact hb.elim (htext.pending b) (hspaces b)

/-- White space that goes no further is the next segment. -/
theorem Reaches.takeSpace {text : String}
    (hreach : Reaches (ofString text) state (held ++ rest))
    (hspaces : ∀ b ∈ held, isWhitespace b = true)
    (hstops : ∀ b ∈ rest.head?, isWhitespace b = false) :
    Reaches (ofString text) (state.takeSpace held) rest := by
  cases held with
  | nil => exact hreach
  | cons b others =>
      rw [List.cons_append] at hreach
      rcases List.forall_mem_cons.mp hspaces with ⟨hb, hothers⟩
      have hrest : rest.takeWhile isWhitespace = [] := by
        cases rest with
        | nil => rfl
        | cons c beyond => rw [List.takeWhile_cons_of_neg (by simp [hstops c rfl])]
      have hrun : runLength isWhitespace (others ++ rest) = others.length := by
        rw [runLength, List.takeWhile_append_of_pos hothers, hrest, List.append_nil]
      have hsegment := @NextSegment.space (ofString text) state b (others ++ rest) hb
      have hdrop := hreach.drop_offset.1
      have hnext := Reaches.step hreach (hsegment.next_eq hdrop)
        (hreach.readsText.checkCut hdrop hsegment)
      rw [hrun, List.take_left, List.drop_left] at hnext
      exact hnext

end

end SweepState

namespace Cursor

/-- The cursor matches a state of the sweep, or one behind the first bytes of the
white space there. -/
structure Follows (src : Bytes) (cursor : Cursor) (state : SweepState) (held rest : Bytes) :
    Prop where
  reaches : Reaches src state (held ++ rest)
  spaces : ∀ b ∈ held, isWhitespace b = true
  fits : cursor.Matches src (state.takeSpace held)

theorem initial_follows (text : String) :
    initial.Follows (ofString text) .initial [] (ofString text) :=
  ⟨.start, by simp, initial_matches _⟩

theorem Matches.copySpace {src held : Bytes} {cursor : Cursor} {state : SweepState}
    (hmatches : cursor.Matches src (state.takeSpace held)) (b : UInt8) :
    (cursor.copySpace b).Matches src (state.takeSpace (held ++ [b])) := by
  constructor
  · constructor
    · simp [Cursor.copySpace, hmatches.pos, Nat.add_assoc]
    · simp [Cursor.copySpace, hmatches.output]
    · simp [Cursor.copySpace, hmatches.last]
    · simp [Cursor.copySpace, hmatches.role]
    · rw [takeSpace_onNewLine, List.contains_append, ← Bool.or_assoc, ← takeSpace_onNewLine,
        ← hmatches.onNewLine, List.contains_cons, List.contains_nil, Bool.or_false, Bool.beq_comm]
      rfl
    · simp [Cursor.copySpace, hmatches.heads]
    · simp [Cursor.copySpace, hmatches.spaceStart]
    · simp [Cursor.copySpace, hmatches.newLineBefore]
    · exact hmatches.countedTo_le.trans (Nat.le_succ _)
    · exact hmatches.newlines
  · simp [Cursor.copySpace, hmatches.findings]

section

variable {text : String} {cursor : Cursor} {state : SweepState} {held rest : Bytes}

theorem Follows.drop_pos (hfollows : cursor.Follows (ofString text) state held rest) :
    (ofString text).drop cursor.pos = rest := by
  rw [hfollows.fits.pos, takeSpace_offset, ← List.drop_drop, hfollows.reaches.drop_offset.1,
    List.drop_left]

theorem Follows.readsText (hfollows : cursor.Follows (ofString text) state held rest) :
    (state.takeSpace held).ReadsText rest :=
  hfollows.reaches.readsText.takeSpace hfollows.spaces

/-- Each step meets no fault, goes forward and follows the sweep on. -/
theorem Follows.exists_step {b : UInt8} {tail : Bytes}
    (hfollows : cursor.Follows (ofString text) state held (b :: tail)) :
    ∃ next state' held' rest',
      cursor.step (ofString text) (.ofText (ofString text)) = .ok next ∧
        next.Follows (ofString text) state' held' rest' ∧ cursor.pos < next.pos ∧
        (next.countedTo = cursor.countedTo ∨ next.countedTo = cursor.pos) := by
  have hrest := hfollows.drop_pos
  by_cases hspace : isWhitespace b = true
  · refine ⟨cursor.copySpace b, state, held ++ [b], tail, ?_, ⟨?_, ?_, ?_⟩, Nat.lt_succ_self _,
      .inl rfl⟩
    · rw [step_of_drop _ hrest, opened?_eq_none_of_isWhitespace hspace]
      simp only [if_pos hspace]
    · rw [List.append_assoc]
      exact hfollows.reaches
    · intro c hc
      rcases List.mem_append.mp hc with hc | hc
      · exact hfollows.spaces c hc
      · rw [List.mem_singleton.mp hc, hspace]
    · exact hfollows.fits.copySpace b
  · have hreach := hfollows.reaches.takeSpace hfollows.spaces (by simpa using hspace)
    rcases exists_nextSegment hreach.drop_offset.1 with ⟨kind, more, hnext, hsegment⟩
    have hcut := hreach.readsText.checkCut hreach.drop_offset.1 hsegment
    have hkind : kind ≠ .space := by
      rintro rfl
      cases hsegment with
      | space hb => exact hspace hb
    obtain ⟨counted, hcounted, next, hstep, hmatches, rfl⟩ :=
      hfollows.fits.exists_step hreach hsegment hkind
    refine ⟨next, _, [], tail.drop more, hstep, ⟨.step hreach hnext hcut, by simp, hmatches⟩, ?_,
      hcounted⟩
    rw [hmatches.pos, hfollows.fits.pos, push_offset]
    exact Nat.lt_add_of_pos_right (Segment.length_bytes_pos _)

/-- The run ends where the sweep does. -/
theorem Follows.exists_run (hfollows : cursor.Follows (ofString text) state held rest) :
    ∃ final last, cursor.run (ofString text) (.ofText (ofString text)) = .ok final ∧
      Reaches (ofString text) last [] ∧ final.Matches (ofString text) last := by
  induction hleft : (ofString text).length - cursor.pos using Nat.strong_induction_on
    generalizing cursor state held rest with
  | _ left ih =>
      have hrest := hfollows.drop_pos
      cases rest with
      | nil =>
          have hreach := hfollows.reaches.takeSpace hfollows.spaces (by simp)
          refine ⟨cursor, _, ?_, hreach, hfollows.fits⟩
          rw [run, if_neg (Nat.not_lt.mpr (List.drop_eq_nil_iff.mp hrest))]
          rfl
      | cons b tail =>
          have hlt := lt_length_of_drop hrest
          rcases hfollows.exists_step with ⟨next, state', held', rest', hstep, hnext, hgrows, -⟩
          rcases ih _ (by omega) hnext rfl with ⟨final, last, hrun, hlast⟩
          refine ⟨final, last, ?_, hlast⟩
          rw [run, if_pos hlt, hstep]
          simp only [bind, Except.bind, if_pos hgrows, hrun]

end

/-! ## The cursors of a run -/

/-- The cursors that a run over the text passes through. -/
inductive Visits (src : Bytes) : Cursor → Prop where
  | start : Visits src .initial
  | step {cursor next : Cursor} :
      Visits src cursor →
      cursor.pos < src.length →
      cursor.step src (.ofText src) = .ok next →
      Visits src next

/-- The cursor stands between two characters of the text, the output would be cut
back between two of its own, and lines were counted no further than the cursor. -/
structure StandsSafely (src : Bytes) (cursor : Cursor) : Prop where
  pos : IsBoundary src cursor.pos
  spaceStart : IsBoundary cursor.output cursor.spaceStart
  counted : cursor.countedTo ≤ cursor.pos

/-- The next step meets no fault and moves the cursor forward.  If it counts lines,
it does so from where it had counted before up to where the cursor stood. -/
def StepsSafely (src : Bytes) (cursor : Cursor) : Prop :=
  ∃ next, cursor.step src (.ofText src) = .ok next ∧ cursor.pos < next.pos ∧
    cursor.countedTo ≤ next.countedTo ∧ next.countedTo ≤ cursor.pos

section

variable {text : String} {cursor : Cursor} {state : SweepState} {held rest : Bytes}

theorem Follows.standsSafely (hfollows : cursor.Follows (ofString text) state held rest) :
    cursor.StandsSafely (ofString text) := by
  have htext := hfollows.readsText
  have hsrc : IsText (ofString text) := ⟨text, rfl⟩
  have hrest := hfollows.drop_pos
  have hle : cursor.pos ≤ (ofString text).length := by
    have hlength := congrArg List.length hfollows.reaches.drop_offset.1
    have hoffset := hfollows.reaches.drop_offset.2
    rw [List.length_drop, List.length_append] at hlength
    rw [hfollows.fits.pos, takeSpace_offset]
    omega
  constructor
  · rw [isBoundary_iff_checkCut hsrc, checkCut_eq_ok_iff, hrest]
    exact ⟨hle, htext.rest.startsCharacter⟩
  · rw [hfollows.fits.output, hfollows.fits.spaceStart,
      isBoundary_iff_checkCut htext.output_isText]
    exact htext.checkCut_output
  · exact hfollows.fits.countedTo_le

theorem Follows.stepsSafely (hfollows : cursor.Follows (ofString text) state held rest)
    (hlt : cursor.pos < (ofString text).length) : cursor.StepsSafely (ofString text) := by
  have hle := hfollows.fits.countedTo_le
  cases rest with
  | nil => exact absurd hlt (Nat.not_lt.mpr (List.drop_eq_nil_iff.mp hfollows.drop_pos))
  | cons b tail =>
      rcases hfollows.exists_step with ⟨next, _, _, _, hstep, -, hgrows, hcounted⟩
      refine ⟨next, hstep, hgrows, ?_⟩
      rcases hcounted with hcounted | hcounted
      · rw [hcounted]
        exact ⟨le_rfl, hle⟩
      · rw [hcounted]
        exact ⟨hle, le_rfl⟩

theorem Visits.exists_follows (hvisits : Visits (ofString text) cursor) :
    ∃ state held rest, cursor.Follows (ofString text) state held rest := by
  induction hvisits with
  | start => exact ⟨_, _, _, initial_follows text⟩
  | @step cursor next _ hlt hstep ih =>
      rcases ih with ⟨state, held, rest, hfollows⟩
      cases rest with
      | nil => exact absurd hlt (Nat.not_lt.mpr (List.drop_eq_nil_iff.mp hfollows.drop_pos))
      | cons b tail =>
          rcases hfollows.exists_step with ⟨next', state', held', rest', hstep', hnext, -⟩
          obtain rfl : next' = next := Except.ok.inj (hstep'.symm.trans hstep)
          exact ⟨state', held', rest', hnext⟩

end

end Cursor

open Cursor

/-- With all accesses checked, the report on a text is the same. -/
theorem checkedSweepText_eq (text : String) : checkedSweepText text = sweepText text := by
  rcases (initial_follows text).exists_run with ⟨final, last, hrun, hreach, hmatches⟩
  have hsweep : sweep (ofString text) = .ok last := by
    rw [← hreach.run_eq, SweepState.run]
    rfl
  rw [checkedSweepText, parenTable_eq, sweepText, hsweep]
  simp only [bind, Except.bind, hrun]
  rw [Cursor.report, SweepState.report, hmatches.output, hmatches.findings]
  rfl

theorem checkedCleanUp_eq (text : String) : checkedCleanUp text = cleanUp text := by
  rw [checkedCleanUp, cleanUp, checkedSweepText_eq]

/-- Sweeping and cleaning up a text always give a report, and so they do with every
access checked: no byte that is looked up, no part that is cut out, no output that
is cut back and no difference is missing.  Each cursor on the way stands safely and
goes on safely until the end.  No state that a sweep reaches, and no step that it
takes from there, meets a fault. -/
theorem sweep_never_faults (text : String) :
    (∃ report, checkedSweepText text = .ok report ∧ sweepText text = .ok report) ∧
      (∃ report, checkedCleanUp text = .ok report ∧ cleanUp text = .ok report) ∧
      (ofString text).parenTable = .ok (.ofText (ofString text)) ∧
      (∀ cursor, Visits (ofString text) cursor →
        cursor.StandsSafely (ofString text) ∧
          (cursor.pos < (ofString text).length → cursor.StepsSafely (ofString text))) ∧
      ∀ state rest, Reaches (ofString text) state rest →
        SweepState.StandsSafely (ofString text) state rest ∧
          ∀ b tail, rest = b :: tail →
            SweepState.StepsSafely (ofString text) state b tail := by
  rcases exists_sweepText text with ⟨final, report, -, -, hreport, -⟩
  have hcleanUp : ∃ report, cleanUp text = .ok report := by
    rw [cleanUp, hreport]
    exact ⟨_, rfl⟩
  rcases hcleanUp with ⟨cleaned, hcleaned⟩
  refine ⟨⟨report, ?_, hreport⟩, ⟨cleaned, ?_, hcleaned⟩, parenTable_eq _, ?_, ?_⟩
  · rw [checkedSweepText_eq, hreport]
  · rw [checkedCleanUp_eq, hcleaned]
  · intro cursor hvisits
    rcases hvisits.exists_follows with ⟨state, held, rest, hfollows⟩
    exact ⟨hfollows.standsSafely, hfollows.stepsSafely⟩
  · intro state rest hreach
    refine ⟨hreach.standsSafely, ?_⟩
    rintro b tail rfl
    exact hreach.stepsSafely

/-- An escape before a character of two bytes, in a call at the start.  The cursor
goes over the whole statement in one step. -/
theorem sweep_never_faults_escaped_character :
    ∃ src, src = ofString "console.log ('\\é'); // `" ∧
      (∃ next, Cursor.initial.step src (.ofText src) = .ok next ∧ next.pos = 21 ∧
        next.StandsSafely src ∧ next.StepsSafely src) ∧
      Reaches src .initial src ∧
      SweepState.initial.MeetsCall src .log 12 ∧
      closingFrom src 12 openParen closeParen = .found 18 ∧
      ∃ b tail, src = b :: tail ∧ SweepState.StandsSafely src .initial src ∧
        SweepState.StepsSafely src .initial b tail ∧
        distance 0 18 = .ok 18 := by
  rcases sweep_never_faults "console.log ('\\é'); // `" with ⟨-, -, -, hcursors, hstates⟩
  rcases hstates .initial _ .start with ⟨hstands, hsteps⟩
  have hstep := hsteps _ _ rfl
  have hcall :
      SweepState.initial.MeetsCall (ofString "console.log ('\\é'); // `") .log 12 :=
    ⟨by decide, [space], (ofString "console.log ('\\é'); // `").drop 13,
      by decide +kernel, by decide +kernel, by decide +kernel⟩
  have hfound : closingFrom (ofString "console.log ('\\é'); // `") 12
      openParen closeParen = .found 18 := by
    decide +kernel
  obtain ⟨next, hnext, hpos⟩ : ∃ next,
      Cursor.initial.step (ofString "console.log ('\\é'); // `")
        (.ofText (ofString "console.log ('\\é'); // `")) = .ok next ∧ next.pos = 21 :=
    ⟨⟨21, [], none, .plain, false, [], 0, false, 0, 0, [.removed ⟨.log, 0, 1⟩]⟩,
      by decide +kernel, rfl⟩
  rcases hcursors next (.step .start (by decide +kernel) hnext) with ⟨hnextStands, hnextSteps⟩
  have hmore : next.pos < (ofString "console.log ('\\é'); // `").length := by
    rw [hpos]
    decide +kernel
  exact ⟨_, rfl, ⟨next, hnext, hpos, hnextStands, hnextSteps hmore⟩, .start, hcall, hfound, _, _,
    rfl, hstands, hstep, (hstep.lookahead .log 12 18 hcall hfound).1⟩

end LogSweep
