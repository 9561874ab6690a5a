import LogSweep.Proofs.DeletedCall
import LogSweep.Proofs.SweepContinuation
import LogSweep.Proofs.TrailingSweep

/-!
# Sweeping two texts one behind the other

Where the last statement of a text ends with a semicolon and a line feed, and
nothing that it opened is left open, the text behind cannot change how the first
is swept, and the first tells the sweep nothing about the text behind.  So the
report on the two is the one report and then the other.
-/

namespace LogSweep

open Byte Bytes

namespace SweepState

section

variable {state : SweepState} {more : Bytes}

/-! ## The seam -/

/-- The state behind a semicolon and a line feed. -/
def endLine (state : SweepState) : SweepState :=
  (state.push ⟨.punctuation, semicolon, []⟩).push ⟨.space, newline, []⟩

theorem Reaches.endLine {src : Bytes}
    (hreach : Reaches src state (semicolon :: newline :: more))
    (hspace : runLength isWhitespace more = 0) (hstarts : startsCharacter more = true) :
    Reaches src state.endLine more := by
  have hmark : NextSegment src state semicolon (newline :: more) .punctuation 0 :=
    .punctuation rfl rfl rfl
  have hbehind := hreach.step (hmark.next_eq hreach.drop_offset.1) rfl
  have hline : NextSegment src (state.push ⟨.punctuation, semicolon, []⟩) newline more
      .space 0 := hspace ▸ .space rfl
  refine hbehind.step (hline.next_eq hbehind.drop_offset.1) ?_
  rw [checkCut_eq_ok_iff]
  exact ⟨Nat.zero_le _, hstarts⟩

/-- Behind the semicolon the sweep knows what it knows at the start of a text. -/
theorem Reaches.trails_endLine {src : Bytes} (hreach : Reaches src state [semicolon, newline])
    (hheads : state.endLine.heads = []) :
    Trails src state.endLine initial state.endLine := by
  have hfinal := hreach.endLine rfl rfl
  obtain ⟨hdrop, hle⟩ := hfinal.drop_offset
  have hoffset : state.endLine.offset = src.length :=
    Nat.le_antisymm hle (List.drop_eq_nil_iff.mp hdrop)
  exact {
    output := (List.append_nil _).symm
    last := rfl
    role := rfl
    heads := hheads
    pending := fun hwritten => absurd rfl hwritten
    writtenNewline := fun hlast => absurd rfl hlast
    begun := fun hlast => absurd rfl hlast
    segments := (List.append_nil _).symm
    offset := hoffset
    line := by
      rw [hfinal.line_eq, hoffset, List.take_length, Nat.add_comm]
      rfl }

end

end SweepState

/-! ## Reports -/

open SweepState

/-- A text whose last statement ends with it: with a semicolon that its sweep
reads as code, and a line feed.  The output leaves no parenthesis open, and
every call that was kept has its closing one. -/
structure IsClosedPiece (text : String) : Prop where
  semicolon : ∃ state, Reaches (ofString text) state [semicolon, newline]
  heads : ∃ final, sweep (ofString text) = .ok final ∧ final.heads = []
  closesCalls :
    ∀ report, sweepText text = .ok report → ∀ call, (call, .unclosed) ∉ report.kept

/-- A text that starts with a byte other than white space, which is not the
start of a deleted statement. -/
structure StartsPiece (text : String) : Prop where
  first : ∃ b tail, ofString text = b :: tail ∧ isWhitespace b = false
  stays :
    ∀ report, sweepText text = .ok report → ∀ call ∈ report.removed, call.start ≠ 0

section

variable {text : String}

theorem IsClosedPiece.exists_seam (hclosed : IsClosedPiece text) :
    ∃ state, Reaches (ofString text) state [Byte.semicolon, newline] ∧
      sweep (ofString text) = .ok state.endLine ∧ state.endLine.heads = [] ∧
      state.ClosesCalls := by
  obtain ⟨state, hreach⟩ := hclosed.semicolon
  have hfinal := hreach.endLine rfl rfl
  have hsweep : sweep (ofString text) = .ok state.endLine := by
    rw [← hfinal.run_eq, run]
    rfl
  obtain ⟨final, hsweep', hheads⟩ := hclosed.heads
  obtain rfl := Except.ok.inj (hsweep.symm.trans hsweep')
  refine ⟨state, hreach, hsweep, hheads, ?_⟩
  intro segment hmem call hkind
  obtain ⟨final, report, hsweep', -, hreport, -, hfindings⟩ := exists_sweepText text
  obtain rfl := Except.ok.inj (hsweep.symm.trans hsweep')
  obtain ⟨later, hlater⟩ := hreach.segments_prefix_of_sweep hsweep
  obtain ⟨before, after, hsplit⟩ := List.append_of_mem hmem
  rw [hsplit, List.append_assoc] at hlater
  exact hclosed.closesCalls report hreport call
    (mem_kept_of_segment hfindings hlater.symm hkind)

theorem StartsPiece.startsWriting (hstarts : StartsPiece text) :
    StartsWriting (ofString text) := by
  obtain ⟨c, others, hfirst, hspace⟩ := hstarts.first
  intro b tail kind count hsrc hsegment
  obtain ⟨rfl, rfl⟩ := List.cons.inj (hfirst.symm.trans hsrc)
  cases hsegment with
  | space hwhite => simp [hwhite] at hspace
  | literal => trivial
  | comment => trivial
  | punctuation => trivial
  | word => trivial
  | unclosed => trivial
  | refused => trivial
  | removed hb hcall hfound hjudge =>
      -- the statement would be among those that the report names as removed
      obtain ⟨final, report, hsweep, -, hreport, -, hfindings⟩ := exists_sweepText text
      have hreach : Reaches (ofString text) initial (c :: others) :=
        hfirst ▸ .start
      obtain ⟨later, hlater⟩ :=
        hreach.exists_later hsweep (.removed hb hcall hfound hjudge)
      have hremoved := (mem_removed_iff hfindings).mpr ⟨_, _, _, hlater, _, _, rfl⟩
      exact hstarts.stays report hreport _ hremoved rfl

end

theorem filterMap_removed?_behind (front : Bytes) (findings : List Finding) :
    (findings.map (Finding.behind front)).filterMap Finding.removed? =
      (findings.filterMap Finding.removed?).map (Call.behind front) := by
  rw [List.filterMap_map, List.map_filterMap]
  congr 1
  funext finding
  cases finding <;> rfl

theorem filterMap_kept?_behind (front : Bytes) (findings : List Finding) :
    (findings.map (Finding.behind front)).filterMap Finding.kept? =
      (findings.filterMap Finding.kept?).map (Prod.map (Call.behind front) id) := by
  rw [List.filterMap_map, List.map_filterMap]
  congr 1
  funext finding
  cases finding <;> rfl

/-- The findings of the joined sweep are those of the first text, and behind
them those of the second. -/
theorem SweepState.Trails.findings {front : Bytes} {before state joined : SweepState}
    (htrails : Trails front before state joined) :
    joined.segments.toList.filterMap Segment.finding? =
      before.segments.toList.filterMap Segment.finding? ++
        (state.segments.toList.filterMap Segment.finding?).map (Finding.behind front) := by
  rw [htrails.segments, List.filterMap_append, List.filterMap_map, List.map_filterMap]
  congr 2
  funext segment
  exact segment.finding?_behind front

/-- Sweeping is local to closed pieces of code: the sweep of two such texts, one
behind the other, writes what the sweep of each of them writes, and finds the
calls that they find, those of the second on the lines behind the first. -/
theorem sweepText_append {first second : String} (hclosed : IsClosedPiece first)
    (hstarts : StartsPiece second) :
    ∃ report₁ report₂ report,
      sweepText first = .ok report₁ ∧ sweepText second = .ok report₂ ∧
      sweepText (first ++ second) = .ok report ∧
      report.text = report₁.text ++ report₂.text ∧
      report.removed =
        report₁.removed ++ report₂.removed.map (Call.behind (ofString first)) ∧
      report.kept =
        report₁.kept ++
          report₂.kept.map (Prod.map (Call.behind (ofString first)) id) := by
  obtain ⟨state, hreach, hsweep, hheads, hcalls⟩ := hclosed.exists_seam
  obtain ⟨final₁, report₁, hsweep₁, -, hreport₁, htext₁, hfindings₁⟩ :=
    exists_sweepText first
  obtain rfl := Except.ok.inj (hsweep.symm.trans hsweep₁)
  obtain ⟨final₂, report₂, -, hreach₂, hreport₂, htext₂, hfindings₂⟩ :=
    exists_sweepText second
  obtain ⟨final, report, hsweep', -, hreport, htext, hfindings⟩ :=
    exists_sweepText (first ++ second)
  have hspace : runLength isWhitespace (ofString second) = 0 := by
    obtain ⟨b, tail, hsecond, hb⟩ := hstarts.first
    simp [hsecond, runLength, hb]
  have hseam : Reaches (ofString first ++ ofString second) state.endLine
      (ofString second) :=
    (hreach.append (List.suffix_refl _) hcalls _).endLine hspace
      (IsText.startsCharacter ⟨second, rfl⟩)
  obtain ⟨joined, hjoined, htrails⟩ := hreach₂.behind hseam
    (hreach.trails_endLine hheads) hstarts.startsWriting
  have hjoinedSweep := hjoined.run_eq
  rw [← ofString_append, hsweep', run] at hjoinedSweep
  obtain rfl := Except.ok.inj hjoinedSweep
  refine ⟨report₁, report₂, report, hreport₁, hreport₂, hreport, ?_, ?_, ?_⟩
  · refine ofString_injective ?_
    rw [htext, ofString_append, htext₁, htext₂, htrails.output]
  · rw [Report.removed, hfindings, htrails.findings, List.filterMap_append,
      filterMap_removed?_behind, ← hfindings₁, ← hfindings₂]
    rfl
  · rw [Report.kept, hfindings, htrails.findings, List.filterMap_append,
      filterMap_kept?_behind, ← hfindings₁, ← hfindings₂]
    rfl

/-- The first call of a text is deleted with its line, one of the text behind is
kept, and another one is deleted there. -/
theorem sweepText_append_three_calls :
    ∃ first second,
      first = "console.log(1);\na();\n" ∧
      second = "b = console.log(2);\nconsole.log(3);\n" ∧
      IsClosedPiece first ∧ StartsPiece second ∧
      ∃ report, sweepText (first ++ second) = .ok report ∧
        report.text = "a();\n" ++ "b = console.log(2);\n" ∧
        report.removed = [⟨.log, 0, 1⟩, ⟨.log, 41, 4⟩] ∧
        report.kept = [(⟨.log, 25, 3⟩, .midExpression)] := by
  have hreport₁ : sweepText "console.log(1);\na();\n" =
      .ok ⟨"a();\n", [.removed ⟨.log, 0, 1⟩]⟩ := by
    decide +kernel
  have hreport₂ : sweepText "b = console.log(2);\nconsole.log(3);\n" =
      .ok ⟨"b = console.log(2);\n",
        [.kept ⟨.log, 4, 1⟩ .midExpression, .removed ⟨.log, 20, 2⟩]⟩ := by
    decide +kernel
  have hclosed : IsClosedPiece "console.log(1);\na();\n" := by
    have hcall := @Reaches.step _ .initial 99
      ((ofString "console.log(1);\na();\n").drop 1)
      (.removed ⟨.log, 0, 1⟩ true 1) 15 .start (by decide +kernel) (by decide +kernel)
    have hword := @Reaches.step _ _ 97
      ((ofString "console.log(1);\na();\n").drop 17)
      .word 0 hcall (by decide +kernel) (by decide +kernel)
    have hopen := @Reaches.step _ _ openParen
      ((ofString "console.log(1);\na();\n").drop 18)
      .punctuation 0 hword (by decide +kernel) (by decide +kernel)
    have hclose := @Reaches.step _ _ closeParen
      ((ofString "console.log(1);\na();\n").drop 19)
      .punctuation 0 hopen (by decide +kernel) (by decide +kernel)
    have hheads : (sweep (ofString "console.log(1);\na();\n")).map SweepState.heads =
        .ok [] := by
      decide +kernel
    obtain ⟨final, -, hsweep, -⟩ := exists_sweepText "console.log(1);\na();\n"
    rw [hsweep] at hheads
    refine ⟨⟨_, hclose⟩, ⟨final, hsweep, Except.ok.inj hheads⟩, ?_⟩
    rintro report hreport call hkept
    obtain rfl := Except.ok.inj (hreport₁.symm.trans hreport)
    simp [Report.kept, Finding.kept?] at hkept
  have hstarts : StartsPiece "b = console.log(2);\nconsole.log(3);\n" := by
    refine ⟨⟨98, (ofString "b = console.log(2);\nconsole.log(3);\n").drop 1,
      by decide +kernel, by decide⟩, ?_⟩
    rintro report hreport call hremoved
    obtain rfl := Except.ok.inj (hreport₂.symm.trans hreport)
    obtain rfl : call = ⟨.log, 20, 2⟩ := by
      simpa [Report.removed, Finding.removed?, eq_comm] using hremoved
    decide
  obtain ⟨report₁, report₂, report, hfirst, hsecond, hreport, htext, hremoved, hkept⟩ :=
    sweepText_append hclosed hstarts
  obtain rfl := Except.ok.inj (hreport₁.symm.trans hfirst)
  obtain rfl := Except.ok.inj (hreport₂.symm.trans hsecond)
  refine ⟨_, _, rfl, rfl, hclosed, hstarts, report, hreport, htext, ?_, ?_⟩
  · rw [hremoved]
    decide +kernel
  · rw [hkept]
    decide +kernel

end LogSweep
