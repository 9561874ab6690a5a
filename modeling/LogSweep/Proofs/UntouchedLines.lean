import LogSweep.Proofs.CleaningTwice
import LogSweep.Proofs.PlacedLines
import LogSweep.Proofs.StatementJoin

/-!
# Lines that hold no byte of a deleted statement

Some bytes of a text belong to statements that are taken out of it, and with
these goes white space.  The other lines are still there, white space at their
ends apart: a run of white space that goes leads to a statement, and what is
left behind that starts with a line end.  A line terminator that goes has
nothing left in front of it.
-/

namespace LogSweep

open Byte Bytes SweepState

/-! ## The segments of a sweep -/

/-- The byte at the offset `x` belongs to one of the statements. -/
def isCovered (statements : List DeletedStatement) (x : Nat) : Bool :=
  statements.any fun statement =>
    decide (statement.call.start ≤ x ∧ x < statement.stop)

theorem isCovered_iff {statements : List DeletedStatement} {x : Nat} :
    isCovered statements x = true ↔ ∃ statement ∈ statements, statement.Covers x := by
  simp [isCovered, DeletedStatement.Covers]

/-- The length of the line terminator that goes with a deleted statement. -/
def Segment.terminator (segment : Segment) : Nat :=
  match segment.kind with
  | .removed _ _ terminator => terminator
  | _ => 0

/-- The bytes of the segments behind `before`, with their offsets. -/
def placesAfter (before after : List Segment) : List (UInt8 × Nat) :=
  (segmentsText after).zipIdx (segmentsText before).length

theorem placesAfter_cons (before : List Segment) (segment : Segment)
    (after : List Segment) :
    placesAfter before (segment :: after) =
      segment.bytes.zipIdx (segmentsText before).length ++
        placesAfter (before ++ [segment]) after := by
  simp [placesAfter, List.zipIdx_append]

theorem snd_of_mem_getLast?_zipIdx {bytes : Bytes} {start : Nat} {place : UInt8 × Nat}
    (hplace : place ∈ (bytes.zipIdx start).getLast?) :
    place.2 + 1 = start + bytes.length := by
  rw [Option.mem_def, List.getLast?_eq_getElem?, List.getElem?_zipIdx,
    Option.map_eq_some_iff] at hplace
  obtain ⟨b, hb, rfl⟩ := hplace
  have hlt := (List.getElem?_eq_some_iff.mp hb).1
  rw [List.length_zipIdx] at hlt ⊢
  simp only
  omega

/-- What is left of the last segments of a text. -/
def leftOf (after : List Segment) : Bytes :=
  segmentsText (surviving false after)

/-! ## Where a deleted statement starts and ends -/

theorem SpellsEnding.isLineBreak_eq_false {spelled : Bytes} {b : UInt8}
    (hspelled : SpellsEnding spelled) (hb : b ∈ spelled) : isLineBreak b = false := by
  have hblank : ∀ {c : UInt8}, isBlank c = true → isLineBreak c = false := by
    intro c hc
    rcases isBlank_cases hc with rfl | rfl <;> decide
  rcases hspelled with hall | ⟨blanks, more, rfl, hblanks, hmore⟩
  · exact hblank (hall b hb)
  · rcases List.mem_append.mp hb with hb | hb
    · exact hblank (hblanks b hb)
    · rcases List.mem_cons.mp hb with rfl | hb
      · decide
      · exact hblank (hmore b hb)

/-- The last byte of a deleted statement is its parenthesis, its semicolon or a
blank. -/
theorem DeletedStatement.Spelled.isLineBreak_last {src : Bytes}
    {statement : DeletedStatement} {opening closing x : Nat} {b : UInt8}
    (hspelled : statement.Spelled src opening closing) (hx : x + 1 = statement.stop)
    (hb : src[x]? = some b) : isLineBreak b = false := by
  obtain ⟨spelled, beyond, hafter, hended, hstop⟩ := hspelled.ending
  rcases List.eq_nil_or_concat spelled with rfl | ⟨init, last, rfl⟩
  · obtain rfl : x = closing := by simpa [hstop] using hx
    obtain rfl := Option.some.inj (hb.symm.trans hspelled.closingByte)
    decide
  · rw [List.concat_eq_append] at hafter hended hstop
    have hplace : x = closing + 1 + init.length := by
      rw [List.length_append, List.length_singleton] at hstop
      omega
    rw [hplace, ← List.getElem?_drop, hafter, List.append_assoc,
      List.getElem?_append_right le_rfl, Nat.sub_self] at hb
    obtain rfl : last = b := by simpa using hb
    exact hended.isLineBreak_eq_false (by simp)

namespace SweepState

section

variable {text : String} {final : SweepState} {before after : List Segment}
  {segment : Segment}

/-- The byte at an offset of a segment. -/
theorem segmentAt_of_mem_zipIdx {place : UInt8 × Nat}
    (hsplit : final.segments.toList = before ++ segment :: after)
    (hplace : place ∈ segment.bytes.zipIdx (segmentsText before).length) :
    SegmentAt final.segments.toList place.2 before segment after := by
  obtain ⟨hle, hlt, -⟩ := List.mem_zipIdx hplace
  exact ⟨hsplit, hle, by omega⟩

/-- The bytes of a segment, with their offsets, are bytes of the text. -/
theorem getElem?_of_mem_zipIdx {src : Bytes} {segments : List Segment}
    {place : UInt8 × Nat} (hsrc : src = segmentsText segments)
    (hsplit : segments = before ++ segment :: after)
    (hplace : place ∈ segment.bytes.zipIdx (segmentsText before).length) :
    src[place.2]? = some place.1 := by
  obtain ⟨hle, hbyte⟩ := List.mk_mem_zipIdx_iff_le_and_getElem?_sub.mp hplace
  have hlt := (List.getElem?_eq_some_iff.mp hbyte).1
  rw [hsrc, hsplit, segmentsText_append, segmentsText_cons,
    List.getElem?_append_right hle, List.getElem?_append_left hlt, hbyte]

theorem NextSegment.kind_eq_space {src tail : Bytes} {state : SweepState} {b : UInt8}
    {kind : Segment.Kind} {more : Nat}
    (hsegment : NextSegment src state b tail kind more) (hb : isWhitespace b = true) :
    kind = .space := by
  have hopened := opened?_eq_none_of_isWhitespace hb state.last tail
  have hword := isWord_of_isWhitespace hb
  cases hsegment <;> simp_all

/-- The segment behind a statement that ends its line starts with a line end. -/
theorem Reaches.starts_at_line_end {src : Bytes} {statement : DeletedStatement}
    {next : Segment} (hreach : Reaches src final [])
    (hsplit : final.segments.toList = before ++ next :: after)
    (hends : statement.EndsLine src)
    (hstop : statement.stop = (segmentsText before).length) :
    isLineBreak next.first = true ∧ next.kind = .space := by
  have hsrc : src = segmentsText final.segments.toList := by
    simpa using hreach.src_eq
  have hbyte : src[statement.stop]? = some next.first := by
    rw [hsrc, hsplit, hstop, segmentsText_append, segmentsText_cons,
      List.getElem?_append_right le_rfl, Nat.sub_self]
    rfl
  have hbreak : isLineBreak next.first = true :=
    isLineBreak_eq_true_iff.mpr (hends _ hbyte)
  refine ⟨hbreak, ?_⟩
  obtain ⟨earlier, b, tail, more, -, -, hcut, hnext, -⟩ := hreach.cut_at hsplit
  refine hnext.kind_eq_space ?_
  have hb : b = next.first := by rw [hcut]
  rcases isLineBreak_eq_true_iff.mp hbreak with hfirst | hfirst <;>
    rw [hb, hfirst] <;> decide

theorem Reaches.stop_eq_of_terminator_eq_zero {src : Bytes} {statement : DeletedStatement}
    (hreach : Reaches src final [])
    (hsplit : final.segments.toList = before ++ segment :: after)
    (hstatement : segment.statement? = some statement)
    (hplain : segment.terminator = 0) :
    statement.stop = (segmentsText (before ++ [segment])).length := by
  have hstart := (hreach.deletesStatement hsplit hstatement).start_eq
  obtain ⟨call, endsLine, terminator, hkind, rfl⟩ :=
    Segment.exists_kind_of_statement? hstatement
  have hnone : terminator = 0 := by simpa [Segment.terminator, hkind] using hplain
  simp only at hstart
  simp [hnone, hstart]

/-- The bytes of a segment that is a deleted statement and no more. -/
theorem Reaches.isCovered_of_mem {src : Bytes} {statement : DeletedStatement}
    (hreach : Reaches src final [])
    (hsplit : final.segments.toList = before ++ segment :: after)
    (hstatement : segment.statement? = some statement)
    (hplain : segment.terminator = 0) :
    ∀ place ∈ segment.bytes.zipIdx (segmentsText before).length,
      isCovered (deletedStatements final.segments.toList) place.2 = true := by
  intro place hplace
  have hat := segmentAt_of_mem_zipIdx hsplit hplace
  have hstop := hreach.stop_eq_of_terminator_eq_zero hsplit hstatement hplain
  rw [segmentsText_append, List.length_append, segmentsText_cons, segmentsText_nil,
    List.append_nil] at hstop
  rw [isCovered_iff, hreach.covered_iff hat]
  exact ⟨statement, hstatement, hstop ▸ hat.lt_stop⟩

theorem Reaches.isLineBreak_head {src : Bytes} {statement : DeletedStatement}
    (hreach : Reaches src final [])
    (hsplit : final.segments.toList = before ++ segment :: after)
    (hstatement : segment.statement? = some statement) :
    ∀ place ∈ (segment.bytes.zipIdx (segmentsText before).length).head?,
      isLineBreak place.1 = false := by
  intro place hplace
  obtain rfl : (segment.first, (segmentsText before).length) = place :=
    Option.some.inj hplace
  obtain ⟨call, endsLine, terminator, hkind, -⟩ :=
    Segment.exists_kind_of_statement? hstatement
  obtain ⟨earlier, b, tail, more, -, -, hcut, hnext, -⟩ := hreach.cut_at hsplit
  rw [hkind] at hnext
  have hb : b = segment.first := by rw [hcut]
  cases hnext with
  | removed hword => exact isLineBreak_eq_false_of_isWord (hb ▸ hword)

theorem Reaches.isLineBreak_getLast {src : Bytes} {statement : DeletedStatement}
    (hreach : Reaches src final [])
    (hsplit : final.segments.toList = before ++ segment :: after)
    (hstatement : segment.statement? = some statement)
    (hplain : segment.terminator = 0) :
    ∀ place ∈ (segment.bytes.zipIdx (segmentsText before).length).getLast?,
      isLineBreak place.1 = false := by
  intro place hplace
  have hbyte := getElem?_of_mem_zipIdx (by simpa using hreach.src_eq) hsplit
    (List.mem_of_getLast? hplace)
  have hstop := hreach.stop_eq_of_terminator_eq_zero hsplit hstatement hplain
  obtain ⟨opening, closing, hspelled⟩ := (hreach.deletesStatement hsplit hstatement).spelled
  refine hspelled.isLineBreak_last ?_ hbyte
  rw [hstop, snd_of_mem_getLast?_zipIdx hplace]
  simp

/-- What is left behind white space that goes starts with a line end. -/
theorem Reaches.atLineEnd_leftOf {src : Bytes} (hreach : Reaches src final [])
    (hsplit : final.segments.toList = before ++ after)
    (hplain : ∀ s ∈ after, s.terminator = 0)
    (hgoes : goesWithStatement false after = true) :
    atLineEnd (leftOf after) = true := by
  induction after generalizing before with
  | nil => simp [goesWithStatement] at hgoes
  | cons segment after ih =>
      have hsplit' : final.segments.toList = (before ++ [segment]) ++ after := by
        simpa using hsplit
      have hlater := ih hsplit' fun s hs => hplain s (List.mem_cons_of_mem segment hs)
      rw [goesWithStatement_cons, Bool.or_eq_true, Bool.and_eq_true] at hgoes
      rcases hgoes with hends | ⟨hloose, hgoes⟩
      · obtain ⟨statement, hstatement⟩ := Segment.exists_statement?_of_endsLine hends
        have hleft : leftOf (segment :: after) = leftOf after := by
          rw [leftOf, surviving,
            if_pos (Segment.isDropped_of_statement? hstatement false after), leftOf]
        rw [hleft]
        cases after with
        | nil => rfl
        | cons next later =>
            have hstop := hreach.stop_eq_of_terminator_eq_zero hsplit hstatement
              (hplain segment List.mem_cons_self)
            have hline := (hreach.deletesStatement hsplit hstatement).endsLine_iff.mp hends
            obtain ⟨hbreak, hkind⟩ := hreach.starts_at_line_end hsplit' hline hstop
            -- a line end that goes too is white space in front of another such statement
            cases hnext : goesWithStatement false later with
            | true =>
                refine hlater ?_
                rw [goesWithStatement_cons, hnext]
                simp [Segment.isLoose, hkind]
            | false =>
                have hstays : next.isDropped false later ≠ true := by
                  simp [Segment.isDropped_of_kind_space hkind, hnext]
                rw [leftOf, surviving, if_neg hstays, segmentsText_cons]
                exact hbreak
      · have hdropped : segment.isDropped false after = true := by
          rcases Segment.isLoose_iff.mp hloose with hkind | ⟨statement, hstatement⟩
          · rw [Segment.isDropped_of_kind_space hkind, hgoes]
          · exact Segment.isDropped_of_statement? hstatement false after
        rw [leftOf, surviving, if_pos hdropped]
        exact hlater hgoes

/-- Where no line terminator goes, the end of a text keeps its lines. -/
theorem Reaches.keepsLines {src : Bytes} (hreach : Reaches src final [])
    (hsplit : final.segments.toList = before ++ after)
    (hplain : ∀ s ∈ after, s.terminator = 0) :
    KeepsLines (isCovered (deletedStatements final.segments.toList))
      (placesAfter before after) (leftOf after) := by
  induction after generalizing before with
  | nil => exact KeepsLines.nil _
  | cons segment after ih =>
      have hsplit' : final.segments.toList = (before ++ [segment]) ++ after := by
        simpa using hsplit
      have hplain' : ∀ s ∈ after, s.terminator = 0 :=
        fun s hs => hplain s (List.mem_cons_of_mem segment hs)
      have hlater := ih hsplit' hplain'
      rw [placesAfter_cons, leftOf, surviving]
      split_ifs with hdropped
      · rcases Segment.isLoose_iff.mp (Segment.isLoose_of_isDropped hdropped) with
          hkind | ⟨statement, hstatement⟩
        · rw [Segment.isDropped_of_kind_space hkind] at hdropped
          have hspaces := hreach.isWhitespace_of_spaces
            (show final.segments.toList = before ++ ([segment] ++ after) from hsplit)
            (by simpa using hkind)
          exact hlater.dropSpaces (hreach.atLineEnd_leftOf hsplit' hplain' hdropped)
            (by simpa using hspaces) _
        · have hnone := hplain segment List.mem_cons_self
          exact hlater.dropStatement (hreach.isCovered_of_mem hsplit hstatement hnone)
            (hreach.isLineBreak_head hsplit hstatement)
            (hreach.isLineBreak_getLast hsplit hstatement hnone)
      · exact hlater.keepAll segment.bytes _

/-- A line terminator goes only where nothing is left in front of it. -/
theorem Reaches.surviving_eq_nil_of_terminator {src : Bytes}
    (hreach : Reaches src final [])
    (hsplit : final.segments.toList = before ++ segment :: after)
    (hterminator : segment.terminator ≠ 0) :
    ∃ statement, segment.statement? = some statement ∧ segment.endsLine = true ∧
      surviving true before = [] ∧
      statement.stop < (segmentsText before).length + segment.bytes.length := by
  have hsome : ∃ statement, segment.statement? = some statement := by
    unfold Segment.terminator at hterminator
    unfold Segment.statement?
    cases hkind : segment.kind <;> simp [hkind] at hterminator ⊢
  obtain ⟨statement, hstatement⟩ := hsome
  have hdeletes := hreach.deletesStatement hsplit hstatement
  have hlength := hdeletes.stop_eq
  have hstop : statement.stop < (segmentsText before).length + segment.bytes.length := by
    have hpos := segment.length_bytes_pos
    have hstart := hdeletes.start_eq
    obtain ⟨call, endsLine, terminator, hkind, rfl⟩ :=
      Segment.exists_kind_of_statement? hstatement
    have hsome : terminator ≠ 0 := by simpa [Segment.terminator, hkind] using hterminator
    simp only at hstart ⊢
    omega
  split_ifs at hlength with hgoes
  · exact ⟨statement, hstatement, hgoes.1, hgoes.2, hstop⟩
  · omega

theorem Reaches.getElem?_of_mem_placesAfter {src : Bytes} {place : UInt8 × Nat}
    (hreach : Reaches src final [])
    (hsplit : final.segments.toList = before ++ segment :: after)
    (hplace : place ∈ placesAfter [] (before ++ [segment])) :
    place.2 < (segmentsText before).length + segment.bytes.length ∧
      src[place.2]? = some place.1 := by
  obtain ⟨-, hbyte⟩ := List.mk_mem_zipIdx_iff_le_and_getElem?_sub.mp hplace
  have hlt := (List.getElem?_eq_some_iff.mp hbyte).1
  have hsrc : src = segmentsText (before ++ [segment]) ++ segmentsText after := by
    have hwhole := hreach.src_eq
    rw [hsplit] at hwhole
    simpa using hwhole
  rw [segmentsText_nil, List.length_nil, Nat.sub_zero] at hbyte hlt
  constructor
  · simpa using hlt
  · rw [hsrc, List.getElem?_append_left hlt, hbyte]

theorem IsTerminatorAt.isLineBreak {src : Bytes} {stop x : Nat} {b : UInt8}
    (hterminator : IsTerminatorAt src stop x) (hb : src[x]? = some b) :
    isLineBreak b = true := by
  rw [isLineBreak_eq_true_iff]
  rcases hterminator with ⟨hfeed, rfl⟩ | ⟨hreturn, hfeed, rfl | rfl⟩
  · exact Or.inl (Option.some.inj (hb.symm.trans hfeed))
  · exact Or.inr (Option.some.inj (hb.symm.trans hreturn))
  · exact Or.inl (Option.some.inj (hb.symm.trans hfeed))

/-- Up to a line terminator that goes, every byte belongs to a statement or is
white space. -/
theorem Reaches.gone_of_terminator (hreach : Reaches (ofString text) final [])
    (hsweep : sweep (ofString text) = .ok final)
    (hsplit : final.segments.toList = before ++ segment :: after)
    (hterminator : segment.terminator ≠ 0) :
    ∀ place ∈ placesAfter [] (before ++ [segment]),
      isCovered (deletedStatements final.segments.toList) place.2 = true ∨
        isWhitespace place.1 = true := by
  obtain ⟨statement, hstatement, hends, hnone, -⟩ :=
    hreach.surviving_eq_nil_of_terminator hsplit hterminator
  have hfront := (surviving_eq_nil_iff_forall_mem after hends).mp hnone
  rw [← hsplit] at hfront
  intro place hplace
  obtain ⟨hlt, hbyte⟩ := hreach.getElem?_of_mem_placesAfter hsplit hplace
  have hmem : place.2 ∈ deletedOffsets final.segments.toList := by
    by_cases hinside : place.2 < (segmentsText before).length
    · exact hfront place.2 hinside
    · have hdeletes := hreach.deletesStatement hsplit hstatement
      exact hdeletes.mem_deletedOffsets hsplit hstatement
        (hdeletes.start_eq.le.trans (Nat.not_lt.mp hinside)) hlt
  cases hcovered : isCovered (deletedStatements final.segments.toList) place.2 with
  | true => exact Or.inl rfl
  | false =>
      have hothers : ∀ statement ∈ deletedStatements final.segments.toList,
          ¬ statement.Covers place.2 := by
        intro statement hmem hcovers
        simp [isCovered_iff.mpr ⟨statement, hmem, hcovers⟩] at hcovered
      obtain ⟨b, hb, hspace⟩ := (hreach.deletion hsweep).others place.2 hmem hothers
      obtain rfl := Option.some.inj (hb.symm.trans hbyte)
      exact Or.inr hspace

/-- A line terminator that goes takes all lines up to it along, and what is left
starts behind it. -/
theorem Reaches.losesFirstLine (hreach : Reaches (ofString text) final [])
    (hsweep : sweep (ofString text) = .ok final)
    (hsplit : final.segments.toList = before ++ segment :: after)
    (hterminator : segment.terminator ≠ 0)
    (hplain : ∀ s ∈ after, s.terminator = 0) :
    LosesFirstLine (isCovered (deletedStatements final.segments.toList))
      (placesAfter [] final.segments.toList) (leftOf final.segments.toList) := by
  obtain ⟨statement, hstatement, hends, hnone, hstop⟩ :=
    hreach.surviving_eq_nil_of_terminator hsplit hterminator
  have hleft : leftOf final.segments.toList = leftOf after := by
    have hgoes : goesWithStatement false (segment :: after) = true := by
      rw [goesWithStatement_cons, hends, Bool.true_or]
    rw [leftOf, hsplit, surviving_append, hgoes, hnone, surviving,
      if_pos (Segment.isDropped_of_statement? hstatement false after)]
    rfl
  have hplaces : placesAfter [] final.segments.toList =
      placesAfter [] (before ++ [segment]) ++ placesAfter (before ++ [segment]) after := by
    rw [hsplit]
    simp [placesAfter, List.zipIdx_append]
  have hgone := hreach.gone_of_terminator hsweep hsplit hterminator
  have hkeeps := hreach.keepsLines
    (show final.segments.toList = (before ++ [segment]) ++ after by simpa using hsplit)
    hplain
  rw [hplaces, hleft]
  -- the last byte that goes is a line end
  rcases List.eq_nil_or_concat (placesAfter [] (before ++ [segment])) with
    hnil | ⟨init, last, hinit⟩
  · have hlength := congrArg List.length hnil
    have hpos := segment.length_bytes_pos
    simp only [placesAfter, List.length_zipIdx, segmentsText_append, segmentsText_cons,
      segmentsText_nil, List.append_nil, List.length_append, List.length_nil] at hlength
    omega
  · rw [List.concat_eq_append] at hinit
    have hlast : last ∈ placesAfter [] (before ++ [segment]) := by simp [hinit]
    obtain ⟨hlt, hbyte⟩ := hreach.getElem?_of_mem_placesAfter hsplit hlast
    have hplace : last.2 + 1 = (segmentsText before).length + segment.bytes.length := by
      have hfound := snd_of_mem_getLast?_zipIdx
        (show last ∈ (placesAfter [] (before ++ [segment])).getLast? by simp [hinit])
      simpa using hfound
    have hbreak : isLineBreak last.1 = true := by
      obtain ⟨-, -, hends⟩ := (hreach.deletesStatement hsplit hstatement).terminator_of_stop_le
        (show statement.stop ≤ last.2 by omega) hlt
      exact IsTerminatorAt.isLineBreak hends hbyte
    rw [hinit] at hgone ⊢
    rw [List.append_assoc, List.singleton_append]
    exact (hkeeps.losesFirstLine hbreak last.2).dropAll
      fun place hplace => hgone place (List.mem_append_left _ hplace)

/-- The lines that stay are lines of the output. -/
theorem Reaches.stayingLines_sublist (hreach : Reaches (ofString text) final [])
    (hsweep : sweep (ofString text) = .ok final) :
    (stayingLines (isCovered (deletedStatements final.segments.toList))
      (placedLines (ofString text).zipIdx)).Sublist
        (final.output.cutLines.map trimEnd) := by
  have hplaces : placesAfter [] final.segments.toList = (ofString text).zipIdx := by
    rw [placesAfter, ← show ofString text = segmentsText final.segments.toList by
      simpa using hreach.src_eq]
    rfl
  have hleft : leftOf final.segments.toList = final.output :=
    hreach.writesSurviving.output.symm
  rw [← hplaces, ← hleft]
  cases hlast : final.segments.toList.reverse.find? (fun s => s.terminator ≠ 0) with
  | none =>
      rw [List.find?_eq_none] at hlast
      have hkeeps := hreach.keepsLines (List.nil_append _).symm
        (fun s hs => by simpa using hlast s (List.mem_reverse.mpr hs))
      exact hkeeps.sublist
  | some segment =>
      obtain ⟨hterminator, later, earlier, hsplit, hplain⟩ :=
        List.find?_eq_some_iff_append.mp hlast
      have hsegments : final.segments.toList =
          earlier.reverse ++ segment :: later.reverse := by
        rw [← List.reverse_reverse final.segments.toList, hsplit]
        simp
      exact (hreach.losesFirstLine hsweep hsegments (by simpa using hterminator)
        (fun s hs => by simpa using hplain s (List.mem_reverse.mp hs))).sublist

/-- A deleted statement reaches from its receiver to where the ending stops that
was read behind its parenthesis. -/
theorem Reaches.exists_deletesCall_of_mem {src rest : Bytes} {statement : DeletedStatement}
    (hreach : Reaches src final rest)
    (hmem : statement ∈ deletedStatements final.segments.toList) :
    ∃ state met opening closing ending,
      DeletesCall src state met statement.call opening closing ending ∧
        statement.stop = closing + 1 + ending.length := by
  obtain ⟨before, segment, after, hsplit, hstatement, hdeletes⟩ :=
    hreach.exists_deletesStatement hmem
  obtain ⟨call, endsLine, terminator, hkind, rfl⟩ :=
    Segment.exists_kind_of_statement? hstatement
  obtain ⟨state, b, tail, more, hearlier, hbefore, hsegment, hnext, hcut⟩ :=
    hreach.cut_at hsplit
  have hlength : segment.bytes.length = more + 1 := by
    rw [hsegment]
    exact length_bytes_of_cut hcut
  rw [hkind] at hnext
  cases hnext with
  | @removed method opening closing ending hword hcall hfound hjudge =>
      have hle := (closingFrom_found hfound).1
      have hlt := hcall.offset_lt
      refine ⟨state, b :: tail, opening, closing, ending,
        ⟨hearlier, rfl, hcall, hfound, hjudge⟩, ?_⟩
      simp only [callHere, hlength]
      omega

end

end SweepState

theorem not_isBlankText_of_mem_stayingLines {hit : Nat → Bool} {lines : List PlacedLine}
    {line : Bytes} (hline : line ∈ stayingLines hit lines) :
    line.isBlankText = false := by
  obtain ⟨placed, hplaced, rfl⟩ := List.mem_map.mp hline
  have hstays := (List.mem_filter.mp hplaced).2
  rw [PlacedLine.stays, Bool.and_eq_true, Bool.not_eq_true'] at hstays
  rw [isBlankText_trimEnd]
  exact hstays.2

/-- Cut at line feeds and carriage returns, every line of the text that is not
blank and holds no byte of a deleted statement is a line of the text cleaned up,
ASCII white space at its end apart, and these lines are in their order. -/
theorem cleanUp_keeps_untouched_lines (text : String) :
    ∃ report statements, cleanUp text = .ok report ∧
      statements.map DeletedStatement.call = report.removed ∧
      (∀ statement ∈ statements, ∃ state rest opening closing ending,
        DeletesCall (ofString text) state rest statement.call opening closing ending ∧
          statement.stop = closing + 1 + ending.length) ∧
      (stayingLines (isCovered statements) (placedLines (ofString text).zipIdx)).Sublist
        ((ofString report.text).cutLines.map trimEnd) := by
  obtain ⟨final, swept, hsweep, hreach, hswept, htext, hfindings⟩ := exists_sweepText text
  obtain ⟨swept', hswept', hcleaned, -⟩ := exists_cleanUp text
  obtain rfl := Except.ok.inj (hswept.symm.trans hswept')
  refine ⟨_, deletedStatements final.segments.toList, hcleaned, ?_,
    fun statement hmem => hreach.exists_deletesCall_of_mem hmem, ?_⟩
  · rw [map_call_deletedStatements, Report.removed, hfindings]
  · have hsublist := (hreach.stayingLines_sublist hsweep).filter (!isBlankText ·)
    rw [← htext] at hsublist
    have hall : ∀ line ∈ stayingLines (isCovered (deletedStatements final.segments.toList))
        (placedLines (ofString text).zipIdx), (!line.isBlankText) = true := by
      intro line hline
      rw [not_isBlankText_of_mem_stayingLines hline]
      rfl
    have htrimmed : (fun line => !isBlankText line) ∘ trimEnd =
        fun line => !isBlankText line := by
      funext line
      exact congrArg _ (isBlankText_trimEnd line)
    rw [List.filter_eq_self.mpr hall, List.filter_map, htrimmed,
      ← filter_cutLines_squeezeBlankLines] at hsublist
    exact hsublist.trans (List.filter_sublist.map trimEnd)

end LogSweep
