import LogSweep.Proofs.CodeTokens
import LogSweep.Proofs.StatementDeletion
import LogSweep.Proofs.ValueUse

/-!
# Statements around deleted calls

Where only its line ends a statement, the code behind a deleted call may go on
with it.  The look ahead behind the call rules that out, as far as it goes: the
last call deleted in front of that code saw it, unless a semicolon ended the
call or a comment came first.
-/

namespace LogSweep

open Byte Bytes SweepState

/-- The code before leaves a statement that its line has to end, and the code
after goes on with it. -/
def JoinsStatements (before after : List Segment) : Prop :=
  ∃ last next, lastCode? before = some last ∧ last ≠ semicolon ∧
    last ≠ openBrace ∧ last ≠ closeBrace ∧ firstCode? after = some next ∧
      (isConnective next = true ∨ next = backtick)

/-- Behind a call a semicolon or a comment comes first. -/
def HidesNext (after : Bytes) : Prop :=
  IsTerminated after ∨ opensComment (after.dropWhile isWhitespace) = true

/-- The last call that is deleted in front of the next token has a semicolon or
a comment behind it. -/
def NextIsHidden (src : Bytes) (segments : List Segment) : Prop :=
  ∃ earlier last call between token later,
    segments = earlier ++ last :: (between ++ token :: later) ∧
      last.Deletes call ∧ token.isToken = true ∧
      (∀ s ∈ earlier, s.isToken = false) ∧
      (∀ s ∈ between, s.kind = .space ∨ s.kind = .comment) ∧
      ∃ state rest opening closing ending,
        DeletesCall src state rest call opening closing ending ∧
        HidesNext (src.drop (closing + 1))

/-- What a semicolon or a comment hides has no say in whether a call is
deleted. -/
theorem HidesNext.exists_settlesEnding {after : Bytes}
    (hhides : HidesNext after) :
    ∃ front further, after = front ++ further ∧ SettlesEnding front := by
  rcases hhides with ⟨blanks, further, rfl, hblanks⟩ | hcomment
  · exact ⟨blanks ++ [semicolon], further, by simp, .semicolon hblanks⟩
  · have hsplit := List.takeWhile_append_dropWhile (p := isWhitespace) (l := after)
    generalize after.dropWhile isWhitespace = comment at hcomment hsplit
    match comment, hcomment with
    | first :: second :: further, hcomment =>
        have hbytes : first = slash ∧ (second = slash ∨ second = star) := by
          simpa [opensComment] using hcomment
        obtain ⟨rfl, hsecond⟩ := hbytes
        exact ⟨after.takeWhile isWhitespace ++ [slash, second], further,
          by simpa using hsplit.symm,
          .comment (fun b hb => List.mem_takeWhile_imp hb) hsecond⟩

/-! ## What stands behind a deleted call -/

theorem opensComment_of_opened? {prev : Option UInt8} {b : UInt8}
    {tail : Bytes} {literal : Literal}
    (hopened : Literal.opened? prev b tail = some literal)
    (hvalue : literal.kind.isValue = false) :
    opensComment (b :: tail) = true := by
  rw [Literal.opened?] at hopened
  split_ifs at hopened with hbacktick
  · simp only [Option.some.injEq] at hopened
    subst literal
    simp [Literal.Kind.isValue] at hvalue
  · rw [Literal.plain?] at hopened
    split_ifs at hopened with hquote hslash
    · simp only [Option.some.injEq] at hopened
      subst literal
      simp [Literal.Kind.isValue] at hvalue
    · cases tail with
      | nil => simp [Literal.bySlash?] at hopened
      | cons next rest =>
          rw [Literal.bySlash?] at hopened
          split_ifs at hopened with hline hblock hregex
          · simp [opensComment, hslash, hline]
          · simp [opensComment, hslash, hblock]
          · obtain ⟨total, -, rfl⟩ := Option.map_eq_some_iff.mp hopened
            simp [Literal.Kind.isValue] at hvalue

theorem isWhitespace_eq_false_of_opened? {prev : Option UInt8} {b : UInt8}
    {tail : Bytes} {literal : Literal}
    (hopened : Literal.opened? prev b tail = some literal) :
    isWhitespace b = false := by
  by_contra hspace
  rw [opened?_eq_none_of_isWhitespace (by simpa using hspace)] at hopened
  simp at hopened

namespace SweepState

section

variable {src : Bytes} {final : SweepState} {before after : List Segment}
  {segment : Segment} {call : Call}

/-- A segment with the rest of the text behind it, as the sweep met it. -/
theorem Reaches.exists_met (hreach : Reaches src final [])
    (hsplit : final.segments.toList = before ++ segment :: after) :
    ∃ state tail more,
      NextSegment src state segment.first tail segment.kind more ∧
      segment.bytes = segment.first :: tail.take more ∧
      segment.first :: tail = segment.bytes ++ segmentsText after := by
  obtain ⟨state, b, tail, more, hearlier, hbefore, hsegment, hnext, -⟩ :=
    hreach.cut_at hsplit
  have htext : src = segmentsText before ++
      (segment.bytes ++ segmentsText after) := by
    rw [hreach.src_eq, hsplit]
    simp
  have hrest := hearlier.drop_offset.1
  rw [hearlier.offset_eq, hbefore, htext, List.drop_left] at hrest
  have hfirst : segment.first = b := by rw [hsegment]
  have hbytes : segment.bytes = b :: tail.take more := by rw [hsegment]; rfl
  subst hfirst
  exact ⟨state, tail, more, hnext, hbytes, hrest.symm⟩

/-- The text behind the parenthesis of a deleted call: its ending, perhaps the
line terminator, and the segments that follow. -/
theorem Reaches.text_behind_call (hreach : Reaches src final [])
    (hsplit : final.segments.toList = before ++ segment :: after)
    (hdeletes : segment.Deletes call) :
    ∃ state rest opening closing ending ended terminator,
      DeletesCall src state rest call opening closing ending ∧
      src.drop (closing + 1) =
        ended ++ (terminator ++ segmentsText after) ∧
      SpellsEnding ended ∧ ∀ b ∈ terminator, isWhitespace b = true := by
  obtain ⟨state, rest, opening, closing, ending, hcall, hbefore, hlength⟩ :=
    hreach.exists_deletesCall hsplit hdeletes
  obtain ⟨ended, terminator, beyond, hafter, hended, hendedLength, -,
    hterminator, hcases⟩ := ending_spelled hcall.judged
  have hle := (closingFrom_found hcall.closed).1
  have hlt := hcall.meets.offset_lt
  have htext : src = segmentsText (before ++ [segment]) ++
      segmentsText after := by
    rw [hreach.src_eq, hsplit]
    simp
  have hbeyond : src.drop (segmentsText (before ++ [segment])).length =
      beyond := by
    have hstop : (segmentsText (before ++ [segment])).length =
        closing + 1 + (ended.length + terminator.length) := by
      have hoffset := hcall.reaches.offset_eq
      rw [hbefore] at hoffset
      simp only [segmentsText_append, segmentsText_cons, segmentsText_nil,
        List.length_append, List.length_nil, hlength]
      omega
    rw [hstop, ← List.drop_drop, hafter, ← List.append_assoc,
      ← List.length_append, List.drop_left]
  have hfollowing : beyond = segmentsText after := by
    rw [← hbeyond]
    conv => lhs; rw [htext]
    exact List.drop_left
  exact ⟨state, rest, opening, closing, ending, ended, terminator, hcall,
    hfollowing ▸ hafter, hended, isWhitespace_of_mem_terminator hcases⟩

theorem Reaches.isWhitespace_of_spaces (hreach : Reaches src final [])
    {spaces : List Segment}
    (hsplit : final.segments.toList = before ++ (spaces ++ after))
    (hspaces : ∀ s ∈ spaces, s.kind = .space) :
    ∀ b ∈ segmentsText spaces, isWhitespace b = true := by
  induction spaces generalizing before with
  | nil => simp
  | cons space spaces ih =>
      intro b hb
      rw [segmentsText_cons, List.mem_append] at hb
      rcases hb with hb | hb
      · obtain ⟨state, tail, more, hnext, hbytes, -⟩ :=
          hreach.exists_met hsplit
        rw [hspaces space (by simp)] at hnext
        rw [hbytes] at hb
        exact (hnext.whitespace_iff (by simp) (by simp) hb).mpr rfl
      · exact ih (by simpa using hsplit : final.segments.toList =
          (before ++ [space]) ++ (spaces ++ after))
          (fun s hs => hspaces s (by simp [hs])) b hb

/-- Where a comment starts, so does its segment. -/
theorem Reaches.opensComment_of_comment (hreach : Reaches src final [])
    (hsplit : final.segments.toList = before ++ segment :: after)
    (hkind : segment.kind = .comment) :
    isWhitespace segment.first = false ∧
      opensComment (segment.bytes ++ segmentsText after) = true := by
  obtain ⟨state, tail, more, hnext, -, htext⟩ := hreach.exists_met hsplit
  rw [hkind] at hnext
  cases hnext with
  | comment hopened hvalue =>
      exact ⟨isWhitespace_eq_false_of_opened? hopened,
        htext ▸ opensComment_of_opened? hopened hvalue⟩

theorem Reaches.isWhitespace_of_isToken (hreach : Reaches src final [])
    (hsplit : final.segments.toList = before ++ segment :: after)
    (htoken : segment.isToken = true) : isWhitespace segment.first = false := by
  obtain ⟨state, tail, more, hnext, -, -⟩ := hreach.exists_met hsplit
  have hword : isWord segment.first = true →
      isWhitespace segment.first = false := by
    intro hword
    by_contra hspace
    rw [isWord_of_isWhitespace (by simpa using hspace)] at hword
    simp at hword
  rw [Segment.isToken] at htoken
  generalize segment.kind = kind at hnext htoken
  cases hnext with
  | literal hopened => exact isWhitespace_eq_false_of_opened? hopened
  | comment hopened => exact isWhitespace_eq_false_of_opened? hopened
  | space => simp at htoken
  | punctuation _ hspace _ => exact hspace
  | word hb => exact hword hb
  | unclosed hb => exact hword hb
  | refused hb => exact hword hb
  | removed hb => exact hword hb

/-- The first code or comment behind a deleted call: a token that goes on with
an expression is hidden. -/
theorem Reaches.next_of_deletes (hreach : Reaches src final [])
    {spaces later : List Segment} {next : Segment}
    (hsplit : final.segments.toList =
      before ++ segment :: (spaces ++ next :: later))
    (hdeletes : segment.Deletes call)
    (hspaces : ∀ s ∈ spaces, s.kind = .space)
    (hnext : next.kind = .comment ∨ next.isToken = true) :
    ∃ state rest opening closing ending,
      DeletesCall src state rest call opening closing ending ∧
      (HidesNext (src.drop (closing + 1)) ∨
        next.isToken = true ∧ isConnective next.first = false ∧
          next.first ≠ backtick) := by
  obtain ⟨state, rest, opening, closing, ending, ended, terminator, hcall,
    hbehind, hended, hterminator⟩ := hreach.text_behind_call hsplit hdeletes
  refine ⟨state, rest, opening, closing, ending, hcall, ?_⟩
  have hafterCall : final.segments.toList =
      (before ++ [segment]) ++ (spaces ++ next :: later) := by
    simpa using hsplit
  have hbeforeNext : final.segments.toList =
      (before ++ segment :: spaces) ++ next :: later := by
    simpa using hsplit
  have hspace := hreach.isWhitespace_of_spaces hafterCall hspaces
  rcases hended with hblank | ⟨blanks, more, rfl, hblanks, -⟩
  · set gap := ended ++ (terminator ++ segmentsText spaces) with hgapText
    have hgap : ∀ b ∈ gap, isWhitespace b = true := by
      intro b hb
      simp only [hgapText, List.mem_append] at hb
      rcases hb with hb | hb | hb
      · exact isWhitespace_of_isBlank (hblank b hb)
      · exact hterminator b hb
      · exact hspace b hb
    have htext : src.drop (closing + 1) =
        gap ++ next.first :: (next.others ++ segmentsText later) := by
      rw [hbehind, hgapText]
      simp [Segment.bytes]
    have hskipped : isWhitespace next.first = false →
        (src.drop (closing + 1)).dropWhile isWhitespace =
          next.first :: (next.others ++ segmentsText later) := by
      intro hfirst
      rw [htext, List.dropWhile_append_of_pos hgap,
        List.dropWhile_cons_of_neg (by simp [hfirst])]
    by_cases hterminated : IsTerminated (src.drop (closing + 1))
    · exact Or.inl (Or.inl hterminated)
    · rcases hnext with hcomment | htoken
      · obtain ⟨hfirst, hopens⟩ :=
          hreach.opensComment_of_comment hbeforeNext hcomment
        exact Or.inl (Or.inr ((hskipped hfirst).symm ▸ hopens))
      · have hfirst := hreach.isWhitespace_of_isToken hbeforeNext htoken
        cases hopens : opensComment
            (next.first :: (next.others ++ segmentsText later)) with
        | true => exact Or.inl (Or.inr ((hskipped hfirst).symm ▸ hopens))
        | false =>
            obtain ⟨-, -, hcomplete, -⟩ := judge_eq_ok_iff.mp hcall.judged
            rw [htext] at hcomplete hterminated
            have hends := Ending.next_of_complete hcomplete hterminated hgap
              hfirst hopens
            exact Or.inr ⟨htoken, hends.1, hends.2.1⟩
  · refine Or.inl (Or.inl ⟨blanks, more ++ (terminator ++
      segmentsText (spaces ++ next :: later)), ?_, hblanks⟩)
    rw [hbehind]
    simp

end

end SweepState

/-! ## The last deleted call before a token -/

theorem Segment.kind_of_not_isToken {segment : Segment}
    (htoken : segment.isToken = false)
    (hstays : ∀ call, ¬ segment.Deletes call) :
    segment.kind = .space ∨ segment.kind = .comment := by
  rw [isToken] at htoken
  cases hkind : segment.kind with
  | space => exact Or.inl rfl
  | comment => exact Or.inr rfl
  | removed call endsLine terminator =>
      exact absurd ⟨endsLine, terminator, hkind⟩ (hstays call)
  | literal => simp [hkind] at htoken
  | punctuation => simp [hkind] at htoken
  | word => simp [hkind] at htoken
  | kept call obstacle => simp [hkind] at htoken

theorem exists_last_deleted {segment : Segment} {call : Call}
    (hdeletes : segment.Deletes call) {others : List Segment}
    (hothers : ∀ s ∈ others, s.isToken = false) :
    ∃ earlier last call between, segment :: others = earlier ++ last :: between ∧
      last.Deletes call ∧ (∀ s ∈ earlier, s.isToken = false) ∧
      ∀ s ∈ between, s.kind = .space ∨ s.kind = .comment := by
  have hsegment : segment.isToken = false := by
    obtain ⟨endsLine, terminator, hkind⟩ := hdeletes
    simp [Segment.isToken, hkind]
  induction others using List.reverseRecOn with
  | nil => exact ⟨[], segment, call, [], rfl, hdeletes, by simp, by simp⟩
  | append_singleton others final ih =>
      have hearlier : ∀ s ∈ others, s.isToken = false :=
        fun s hs => hothers s (by simp [hs])
      by_cases hfinal : ∃ other, final.Deletes other
      · obtain ⟨other, hother⟩ := hfinal
        refine ⟨segment :: others, final, other, [], rfl, hother, ?_, by simp⟩
        simpa [hsegment] using hearlier
      · simp only [not_exists] at hfinal
        obtain ⟨earlier, last, call, between, hsplit, hlast, hnone, hbetween⟩ :=
          ih hearlier
        refine ⟨earlier, last, call, between ++ [final], ?_, hlast, hnone, ?_⟩
        · rw [← List.cons_append, hsplit]
          simp
        · intro s hs
          rcases List.mem_append.mp hs with hs | hs
          · exact hbetween s hs
          · rw [List.mem_singleton.mp hs]
            exact Segment.kind_of_not_isToken (hothers final (by simp)) hfinal

theorem exists_first_token {segments : List Segment} {b : UInt8}
    (hfirst : firstCode? segments = some b) :
    ∃ others token later, segments = others ++ token :: later ∧
      (∀ s ∈ others, s.isToken = false) ∧ token.isToken = true ∧
        token.first = b := by
  obtain ⟨token, hhead, hb⟩ := Option.map_eq_some_iff.mp hfirst
  rw [codeTokens, List.head?_filter, List.find?_eq_some_iff_append] at hhead
  obtain ⟨htoken, others, later, hsplit, hothers⟩ := hhead
  exact ⟨others, token, later, hsplit, by simpa using hothers, htoken, hb⟩

theorem exists_first_comment_or_all_spaces {between : List Segment}
    (hbetween : ∀ s ∈ between, s.kind = .space ∨ s.kind = .comment)
    (token : Segment) (later : List Segment) :
    ∃ spaces next others, between ++ token :: later = spaces ++ next :: others ∧
      (∀ s ∈ spaces, s.kind = .space) ∧
      (next.kind = .comment ∨ next = token) := by
  induction between with
  | nil => exact ⟨[], token, later, rfl, by simp, Or.inr rfl⟩
  | cons first between ih =>
      rcases hbetween first (by simp) with hspace | hcomment
      · obtain ⟨spaces, next, others, hsplit, hspaces, hnext⟩ :=
          ih (fun s hs => hbetween s (by simp [hs]))
        refine ⟨first :: spaces, next, others, ?_, ?_, hnext⟩
        · rw [List.cons_append, hsplit]
          rfl
        · simpa [hspace] using hspaces
      · exact ⟨[], first, between ++ token :: later, rfl, by simp,
          Or.inl hcomment⟩

theorem nextIsHidden_of_joinsStatements {src : Bytes} {final : SweepState}
    (hreach : Reaches src final []) {before after : List Segment}
    {segment : Segment} {call : Call}
    (hsplit : final.segments.toList = before ++ segment :: after)
    (hdeletes : segment.Deletes call) (hjoins : JoinsStatements before after) :
    NextIsHidden src (segment :: after) := by
  obtain ⟨-, b, -, -, -, -, hfirst, hcontinues⟩ := hjoins
  obtain ⟨others, token, later, rfl, hothers, htoken, rfl⟩ :=
    exists_first_token hfirst
  obtain ⟨earlier, last, lastCall, between, hlast, hlastDeletes, hearlier,
    hbetween⟩ := exists_last_deleted hdeletes hothers
  obtain ⟨spaces, next, beyond, hnext, hspaces, hcases⟩ :=
    exists_first_comment_or_all_spaces hbetween token later
  have hwhole : segment :: (others ++ token :: later) =
      earlier ++ last :: (between ++ token :: later) := by
    rw [← List.cons_append, hlast]
    simp
  have hlastSplit : final.segments.toList =
      (before ++ earlier) ++ last :: (spaces ++ next :: beyond) := by
    rw [hsplit, hwhole, hnext]
    simp
  have hkind : next.kind = .comment ∨ next.isToken = true := by
    rcases hcases with hcomment | rfl
    · exact Or.inl hcomment
    · exact Or.inr htoken
  obtain ⟨state, rest, opening, closing, ending, hcall, hhides⟩ :=
    hreach.next_of_deletes hlastSplit hlastDeletes hspaces hkind
  refine ⟨earlier, last, lastCall, between, token, later, hwhole, hlastDeletes,
    htoken, hearlier, hbetween, state, rest, opening, closing, ending, hcall, ?_⟩
  rcases hhides with hhides | ⟨hstays, hconnective, hbacktick⟩
  · exact hhides
  · exfalso
    rcases hcases with hcomment | rfl
    · simp [Segment.isToken, hcomment] at hstays
    · rcases hcontinues with hcontinues | hcontinues
      · simp [hconnective] at hcontinues
      · exact hbacktick hcontinues

theorem DeletesCall.judged_whatever_follows {src : Bytes} {state : SweepState}
    {rest : Bytes} {call : Call} {opening closing : Nat} {ending : Ending}
    (hcall : DeletesCall src state rest call opening closing ending)
    (hhides : HidesNext (src.drop (closing + 1))) :
    ∃ front further, src.drop (closing + 1) = front ++ further ∧
      SettlesEnding front ∧
      ∀ other, ∃ ending, judge state.last state.role state.onNewLine
        (front ++ other) = .ok ending := by
  obtain ⟨front, further, hsplit, hsettles⟩ := hhides.exists_settlesEnding
  refine ⟨front, further, hsplit, hsettles, fun other => ?_⟩
  rw [hsettles.judge_iff other further, ← hsplit]
  exact ⟨ending, hcall.judged⟩

/-- A deleted call joins the statements around it only if the last call deleted
before the next token has a semicolon or a comment behind it.  Such a call is
deleted whatever stands behind the semicolon or the start of the comment; in all
other cases the code that follows does not go on with the statement before. -/
theorem sweepText_joins_statements_only_if_hidden (text : String) :
    ∃ report final, sweepText text = .ok report ∧
      sweep (ofString text) = .ok final ∧
      (∀ call ∈ report.removed,
        ∃ state rest opening closing ending segment after,
          DeletesCall (ofString text) state rest call opening closing ending ∧
          final.segments.toList = state.segments.toList ++ segment :: after ∧
          segment.Deletes call ∧
          state.last = lastCode? state.segments.toList ∧
          (JoinsStatements state.segments.toList after →
            NextIsHidden (ofString text) (segment :: after))) ∧
      ∀ state rest call opening closing ending,
        DeletesCall (ofString text) state rest call opening closing ending →
        HidesNext ((ofString text).drop (closing + 1)) →
        ∃ front further,
          (ofString text).drop (closing + 1) = front ++ further ∧
          SettlesEnding front ∧
          ∀ other, ∃ ending, judge state.last state.role state.onNewLine
            (front ++ other) = .ok ending := by
  obtain ⟨final, report, hsweep, hreach, hreport, -, hfindings⟩ :=
    exists_sweepText text
  refine ⟨report, final, hreport, hsweep, fun call hmem => ?_,
    fun state rest call opening closing ending hcall hhides =>
      hcall.judged_whatever_follows hhides⟩
  obtain ⟨before, segment, after, hsplit, hdeletes⟩ :=
    (mem_removed_iff hfindings).mp hmem
  obtain ⟨state, rest, opening, closing, ending, hcall, rfl, -⟩ :=
    hreach.exists_deletesCall hsplit hdeletes
  exact ⟨state, rest, opening, closing, ending, segment, after, hcall, hsplit,
    hdeletes, hcall.reaches.last_eq,
    nextIsHidden_of_joinsStatements hreach hsplit hdeletes⟩

/-- A semicolon hides the array pattern on the next line, which then is read as
an index into the value of the line before. -/
theorem sweepText_joins_statements :
    ∃ final before segment after,
      sweepText "a = b\nconsole.log(a);\n[...c] = d\n" =
        .ok ⟨"a = b\n[...c] = d\n", [.removed ⟨.log, 6, 2⟩]⟩ ∧
      sweep (ofString "a = b\nconsole.log(a);\n[...c] = d\n") = .ok final ∧
      final.segments.toList = before ++ segment :: after ∧
      segment.Deletes ⟨.log, 6, 2⟩ ∧ JoinsStatements before after := by
  obtain ⟨final, -, hsweep, -⟩ :=
    exists_sweepText "a = b\nconsole.log(a);\n[...c] = d\n"
  have hparts : (sweep (ofString "a = b\nconsole.log(a);\n[...c] = d\n")).map
      (fun final => (final.segments.toList[6]?.map Segment.kind,
        lastCode? (final.segments.toList.take 6),
        firstCode? (final.segments.toList.drop 7))) =
      .ok (some (.removed ⟨.log, 6, 2⟩ true 0), some 98, some openBracket) := by
    decide +kernel
  rw [hsweep] at hparts
  simp only [Except.map, Except.ok.injEq, Prod.mk.injEq] at hparts
  obtain ⟨hkind, hlast, hfirst⟩ := hparts
  obtain ⟨segment, hget, hkind⟩ := Option.map_eq_some_iff.mp hkind
  obtain ⟨hlt, hsegment⟩ := List.getElem?_eq_some_iff.mp hget
  refine ⟨final, final.segments.toList.take 6, segment,
    final.segments.toList.drop 7, by decide +kernel, hsweep, ?_,
    ⟨true, 0, hkind⟩, 98, openBracket, hlast, by decide, by decide, by decide,
    hfirst, by decide⟩
  rw [← hsegment, ← List.drop_eq_getElem_cons hlt, List.take_append_drop]

end LogSweep
