import Mathlib.Data.List.DropRight
import LogSweep.Proofs.BlankRuns
import LogSweep.Proofs.CarriageReturn
import LogSweep.Proofs.SqueezedLiterals

/-!
# Blank lines with carriage returns

A carriage return is the last character of the line that the line feed behind it
ends, and being white space it makes no line less blank.  So the same lines are
dropped with it as without.  What can come apart is a pair of the two: the last
line of a text has no line feed, and where that line is dropped, so is the line
feed of the one left in front of it, whose carriage return stays.  This happens
to the first line of the blank lines at the end of a text, if there are two of
these or more, and to no other.
-/

namespace LogSweep

/-! ## Lines with a carriage return -/

/-- The line with a carriage return behind it. -/
def withReturn (line : List Char) : List Char := line ++ ['\r']

theorem newline_notMem_withReturn {line : List Char} (hline : '\n' ∉ line) :
    '\n' ∉ withReturn line := by
  unfold withReturn
  rw [List.mem_append, List.mem_singleton, not_or]
  exact ⟨hline, by decide⟩

theorem isBlankLine_withReturn (line : List Char) :
    isBlankLine (withReturn line) = isBlankLine line := by
  have hspace : isUnicodeSpace '\r' = true := by decide
  unfold withReturn isBlankLine
  rw [List.all_append, List.all_cons, List.all_nil, hspace, Bool.and_true, Bool.and_true]

theorem joinLines_map_withReturn (lines : List (List Char)) (last : List Char) :
    joinLines ((lines ++ [last]).map withReturn) =
      joinLines (lines.map withReturn ++ [last]) ++ ['\r'] := by
  have hjoin := joinLines_append_line (lines.map withReturn) last ['\r'] []
  rw [joinLines_singleton] at hjoin
  rw [List.map_append, List.map_singleton]
  exact hjoin

theorem flatMap_crlf_eq_self {line : List Char} (hline : '\n' ∉ line) :
    line.flatMap (fun c => if c = '\n' then ['\r', '\n'] else [c]) = line := by
  induction line with
  | nil => rfl
  | cons c line ih =>
      rw [List.mem_cons, not_or] at hline
      rw [List.flatMap_cons, if_neg (Ne.symm hline.1), ih hline.2, List.singleton_append]

theorem crlfText_joinLines {lines : List (List Char)} {last : List Char}
    (hlines : ∀ line ∈ lines, '\n' ∉ line) (hlast : '\n' ∉ last) :
    crlfText (.ofList (joinLines (lines ++ [last]))) =
      .ofList (joinLines (lines.map withReturn ++ [last])) := by
  unfold crlfText
  rw [String.toList_ofList]
  congr 1
  induction lines with
  | nil => rw [List.map_nil, List.nil_append, joinLines_singleton, flatMap_crlf_eq_self hlast]
  | cons line lines ih =>
      rcases List.forall_mem_cons.mp hlines with ⟨hline, hothers⟩
      rw [List.map_cons, List.cons_append, List.cons_append,
        joinLines_cons_of_ne_nil _ (by simp), joinLines_cons_of_ne_nil _ (by simp),
        List.flatMap_append, List.flatMap_cons, flatMap_crlf_eq_self hline, ih hothers,
        if_pos rfl]
      simp [withReturn]

/-! ## The last lines -/

/-- The blank lines at the end of a text. -/
def blankLinesAtEnd (text : String) : List (List Char) :=
  (splitLines text.toList).rtakeWhile isBlankLine

theorem linesAfter_append (before rest : List (List Char)) :
    linesAfter false (before ++ rest) =
      linesAfter false before ++ linesAfter (before.getLast?.any isBlankLine) rest := by
  -- from the back, where the last line of `before` is at hand
  induction before using List.reverseRecOn generalizing rest with
  | nil => rfl
  | append_singleton before line ih =>
      rw [List.append_assoc, ih, ih [line], List.append_assoc, List.getLast?_concat,
        Option.any_some, List.singleton_append, linesAfter, linesAfter, linesAfter]
      split_ifs <;> rfl

theorem linesAfter_map {change : List Char → List Char}
    (hchange : ∀ line, isBlankLine (change line) = isBlankLine line)
    (afterBlank : Bool) (lines : List (List Char)) :
    linesAfter afterBlank (lines.map change) = (linesAfter afterBlank lines).map change := by
  induction lines generalizing afterBlank with
  | nil => rfl
  | cons line lines ih =>
      rw [List.map_cons, linesAfter, linesAfter, hchange, ih]
      split_ifs <;> rfl

theorem one_lt_length_rtakeWhile_concat_iff {before : List (List Char)} {last : List Char} :
    1 < ((before ++ [last]).rtakeWhile isBlankLine).length ↔
      (isBlankLine last && before.getLast?.any isBlankLine) = true := by
  rw [List.rtakeWhile_concat]
  split_ifs with hlast
  · rw [hlast, Bool.true_and, List.length_append, List.length_singleton, Nat.lt_add_left_iff_pos,
      List.length_pos_iff, ne_eq, List.rtakeWhile_eq_nil_iff]
    rcases List.eq_nil_or_concat before with rfl | ⟨before, line, rfl⟩
    · simp
    · simp
  · simp [hlast]

/-- Of the blank lines at the end only the first is left. -/
theorem linesAfter_of_rtakeWhile {lines : List (List Char)} {line : List Char}
    {others : List (List Char)} (hrun : lines.rtakeWhile isBlankLine = line :: others) :
    linesAfter false lines =
      linesAfter false (lines.rdropWhile isBlankLine) ++ [line] := by
  have hblank : ∀ other ∈ line :: others, isBlankLine other = true := by
    intro other hother
    rw [← hrun] at hother
    exact List.mem_rtakeWhile_imp hother
  have hfront : (lines.rdropWhile isBlankLine).getLast?.any isBlankLine = false := by
    by_cases hnone : lines.rdropWhile isBlankLine = []
    · rw [hnone]
      rfl
    · rw [List.getLast?_eq_some_getLast hnone, Option.any_some]
      exact Bool.eq_false_of_not_eq_true (List.rdropWhile_last_not isBlankLine lines hnone)
  have hrest := linesAfter_append_of_blank (List.forall_mem_cons.mp hblank).2 []
  rw [List.append_nil] at hrest
  have hlines := linesAfter_append (lines.rdropWhile isBlankLine) (line :: others)
  rw [← hrun, List.rdropWhile_append_rtakeWhile, hrun, hfront, linesAfter, Bool.and_false,
    hblank line List.mem_cons_self, hrest] at hlines
  exact hlines

/-- The lines of a text, of which only the last is not ended by a line feed. -/
structure HasLines (text : String) (before : List (List Char)) (last : List Char) : Prop where
  lines : splitLines text.toList = before ++ [last]
  before_notMem : ∀ line ∈ before, '\n' ∉ line
  last_notMem : '\n' ∉ last

theorem exists_hasLines (text : String) : ∃ before last, HasLines text before last := by
  rcases List.eq_nil_or_concat (splitLines text.toList) with hnone | ⟨before, last, hlines⟩
  · exact absurd hnone (splitLines_ne_nil text.toList)
  · rw [List.concat_eq_append] at hlines
    have hfeed : ∀ line ∈ before ++ [last], '\n' ∉ line := by
      intro line hline
      rw [← hlines] at hline
      exact newline_not_mem_of_mem_splitLines hline
    rw [List.forall_mem_append, List.forall_mem_singleton] at hfeed
    exact ⟨before, last, hlines, hfeed.1, hfeed.2⟩

section

variable {text : String} {before : List (List Char)} {last : List Char}
  (hlines : HasLines text before last)

include hlines

theorem HasLines.crlf : HasLines (crlfText text) (before.map withReturn) last := by
  have hbefore : ∀ line ∈ before.map withReturn, '\n' ∉ line := by
    intro line hline
    rcases List.mem_map.mp hline with ⟨first, hfirst, rfl⟩
    exact newline_notMem_withReturn (hlines.before_notMem first hfirst)
  have htext : text = .ofList (joinLines (before ++ [last])) := by
    rw [← hlines.lines, joinLines_splitLines, String.ofList_toList]
  refine ⟨?_, hbefore, hlines.last_notMem⟩
  rw [htext, crlfText_joinLines hlines.before_notMem hlines.last_notMem, String.toList_ofList]
  apply splitLines_joinLines
  · rw [List.forall_mem_append, List.forall_mem_singleton]
    exact ⟨hbefore, hlines.last_notMem⟩
  · simp

theorem HasLines.left_notMem : ∀ line ∈ linesAfter false before, '\n' ∉ line :=
  fun line hline => hlines.before_notMem line ((linesAfter_sublist false before).subset hline)

theorem HasLines.linesAfter_eq :
    linesAfter false (splitLines text.toList) =
      if 1 < (blankLinesAtEnd text).length then linesAfter false before
      else linesAfter false before ++ [last] := by
  unfold blankLinesAtEnd
  simp only [hlines.lines, one_lt_length_rtakeWhile_concat_iff]
  rw [linesAfter_append, linesAfter]
  split_ifs
  · rw [linesAfter, List.append_nil]
  · rw [linesAfter]

theorem HasLines.squeezeBlankLines_of_not_dropped
    (hstays : ¬ 1 < (blankLinesAtEnd text).length) :
    squeezeBlankLines text = .ofList (joinLines (linesAfter false before ++ [last])) := by
  rw [squeezeBlankLines, dropRepeatedBlanks_eq_linesAfter, hlines.linesAfter_eq, if_neg hstays]

theorem HasLines.squeezeBlankLines_of_dropped (hdropped : 1 < (blankLinesAtEnd text).length) :
    squeezeBlankLines text = .ofList (joinLines (linesAfter false before)) := by
  rw [squeezeBlankLines, dropRepeatedBlanks_eq_linesAfter, hlines.linesAfter_eq, if_pos hdropped]

/-- Where the last line is dropped, the first of the blank lines at the end is the last
one left. -/
theorem HasLines.exists_left_concat (hdropped : 1 < (blankLinesAtEnd text).length) :
    ∃ kept line next others, blankLinesAtEnd text = line :: next :: others ∧
      linesAfter false before = kept ++ [line] := by
  have hleft := hlines.linesAfter_eq
  rw [if_pos hdropped] at hleft
  match hrun : blankLinesAtEnd text, hdropped with
  | line :: next :: others, _ =>
      rw [linesAfter_of_rtakeWhile hrun] at hleft
      exact ⟨_, line, next, others, rfl, hleft.symm⟩

theorem HasLines.one_lt_length_crlf :
    1 < (blankLinesAtEnd (crlfText text)).length ↔ 1 < (blankLinesAtEnd text).length := by
  have hblank : (before.map withReturn).getLast?.any isBlankLine =
      before.getLast?.any isBlankLine := by
    rw [List.getLast?_map, Option.any_map]
    exact congrArg (before.getLast?.any ·) (funext isBlankLine_withReturn)
  unfold blankLinesAtEnd
  rw [hlines.lines, hlines.crlf.lines, one_lt_length_rtakeWhile_concat_iff,
    one_lt_length_rtakeWhile_concat_iff, hblank]

end

/-- With a carriage return before every line feed a text is squeezed alike, but of two
or more blank lines at its end the one that is left keeps its carriage return. -/
theorem squeezeBlankLines_crlfText_eq (text : String) :
    squeezeBlankLines (crlfText text) =
      if 1 < (blankLinesAtEnd text).length then (crlfText (squeezeBlankLines text)).push '\r'
      else crlfText (squeezeBlankLines text) := by
  rcases exists_hasLines text with ⟨before, last, hlines⟩
  have hmap := linesAfter_map isBlankLine_withReturn false before
  have hleft := hlines.left_notMem
  split_ifs with hdropped
  · have hdropped' := hlines.one_lt_length_crlf.mpr hdropped
    rw [hlines.squeezeBlankLines_of_dropped hdropped,
      hlines.crlf.squeezeBlankLines_of_dropped hdropped', hmap]
    -- the line that is left last has lost its line feed, but not what stands before that
    rcases hlines.exists_left_concat hdropped with ⟨kept, line, next, others, -, hkept⟩
    rw [hkept, List.forall_mem_append, List.forall_mem_singleton] at hleft
    rw [hkept, joinLines_map_withReturn, crlfText_joinLines hleft.1 hleft.2]
    apply String.toList_injective
    rw [String.toList_push, String.toList_ofList, String.toList_ofList]
  · have hstays' := mt hlines.one_lt_length_crlf.mp hdropped
    rw [hlines.squeezeBlankLines_of_not_dropped hdropped,
      hlines.crlf.squeezeBlankLines_of_not_dropped hstays', hmap,
      crlfText_joinLines hleft hlines.last_notMem]

/-! ## Pairs -/

/-- Behind every carriage return stands a line feed. -/
def ReturnsPaired (text : List Char) : Prop :=
  ∀ before after, text = before ++ '\r' :: after → after.head? = some '\n'

theorem returnsPaired_nil : ReturnsPaired [] := by
  intro before after hsplit
  simp at hsplit

theorem returnsPaired_cons {c : Char} {text : List Char} :
    ReturnsPaired (c :: text) ↔ (c = '\r' → text.head? = some '\n') ∧ ReturnsPaired text := by
  constructor
  · intro hpaired
    refine ⟨?_, ?_⟩
    · rintro rfl
      exact hpaired [] text rfl
    · rintro before after rfl
      exact hpaired (c :: before) after rfl
  · rintro ⟨hfirst, hpaired⟩ before after hsplit
    cases before with
    | nil =>
        rcases List.cons.inj hsplit with ⟨hc, rfl⟩
        exact hfirst hc
    | cons d before => exact hpaired before after (List.cons.inj hsplit).2

theorem returnsPaired_iff_notMem {line : List Char} (hline : '\n' ∉ line) :
    ReturnsPaired line ↔ '\r' ∉ line := by
  induction line with
  | nil => simp [returnsPaired_nil]
  | cons c line ih =>
      rw [List.mem_cons, not_or] at hline
      have hnext : line.head? ≠ some '\n' := fun hhead => hline.2 (List.mem_of_mem_head? hhead)
      rw [returnsPaired_cons, ih hline.2, List.mem_cons, not_or, imp_iff_not hnext,
        @eq_comm _ c]

theorem returnsPaired_append_newline {line : List Char} (hline : '\n' ∉ line)
    (rest : List Char) :
    ReturnsPaired (line ++ '\n' :: rest) ↔ '\r' ∉ line.dropLast ∧ ReturnsPaired rest := by
  induction line with
  | nil => simp [returnsPaired_cons]
  | cons c line ih =>
      rw [List.mem_cons, not_or] at hline
      rw [List.cons_append, returnsPaired_cons, ih hline.2]
      cases line with
      | nil => simp
      | cons d line =>
          have hd : d ≠ '\n' := fun hd => hline.2 (hd ▸ List.mem_cons_self)
          simp [hd, and_assoc, eq_comm]

theorem returnsPaired_joinLines_iff {lines : List (List Char)} {last : List Char}
    (hlines : ∀ line ∈ lines, '\n' ∉ line) (hlast : '\n' ∉ last) :
    ReturnsPaired (joinLines (lines ++ [last])) ↔
      (∀ line ∈ lines, '\r' ∉ line.dropLast) ∧ '\r' ∉ last := by
  induction lines with
  | nil =>
      rw [List.nil_append, joinLines_singleton, returnsPaired_iff_notMem hlast]
      simp
  | cons line lines ih =>
      rcases List.forall_mem_cons.mp hlines with ⟨hline, hothers⟩
      rw [List.cons_append, joinLines_cons_of_ne_nil _ (by simp),
        returnsPaired_append_newline hline, ih hothers, List.forall_mem_cons, and_assoc]

theorem returnsPaired_toList_iff {text : String} {before : List (List Char)} {last : List Char}
    (hlines : HasLines text before last) :
    ReturnsPaired text.toList ↔ (∀ line ∈ before, '\r' ∉ line.dropLast) ∧ '\r' ∉ last := by
  rw [← returnsPaired_joinLines_iff hlines.before_notMem hlines.last_notMem, ← hlines.lines,
    joinLines_splitLines]

instance : DecidablePred ReturnsPaired := fun text =>
  decidable_of_iff
    ((∀ line ∈ (splitLines text).dropLast, '\r' ∉ line.dropLast) ∧
      ∀ line ∈ (splitLines text).getLast?, '\r' ∉ line) (by
    rcases exists_hasLines (.ofList text) with ⟨before, last, hlines⟩
    have hpaired := returnsPaired_toList_iff hlines
    have hsplit := hlines.lines
    rw [String.toList_ofList] at hpaired hsplit
    rw [hpaired, hsplit, List.dropLast_concat, List.getLast?_concat]
    simp)

/-- What squeezing leaves of a text in which every carriage return is paired is so too,
unless of two or more blank lines at its end the first has one. -/
theorem returnsPaired_squeezeBlankLines_iff {text : String}
    (hpaired : ReturnsPaired text.toList) :
    ReturnsPaired (squeezeBlankLines text).toList ↔
      ∀ line next others, blankLinesAtEnd text = line :: next :: others → '\r' ∉ line := by
  rcases exists_hasLines text with ⟨before, last, hlines⟩
  rcases (returnsPaired_toList_iff hlines).mp hpaired with ⟨hbefore, hlast⟩
  have hsubset := (linesAfter_sublist false before).subset
  have hleft := hlines.left_notMem
  by_cases hdropped : 1 < (blankLinesAtEnd text).length
  · rcases hlines.exists_left_concat hdropped with ⟨kept, line, next, others, hrun, hkept⟩
    rw [hkept, List.forall_mem_append, List.forall_mem_singleton] at hleft
    have hinner : ∀ line ∈ kept, '\r' ∉ line.dropLast := fun line hline =>
      hbefore line (hsubset (hkept ▸ List.mem_append_left _ hline))
    rw [hlines.squeezeBlankLines_of_dropped hdropped, String.toList_ofList, hkept,
      returnsPaired_joinLines_iff hleft.1 hleft.2, hrun]
    constructor
    · rintro ⟨-, hline⟩ first second more hsame
      rw [← (List.cons.inj hsame).1]
      exact hline
    · intro hline
      exact ⟨hinner, hline line next others rfl⟩
  · rw [hlines.squeezeBlankLines_of_not_dropped hdropped, String.toList_ofList,
      returnsPaired_joinLines_iff hleft hlines.last_notMem]
    constructor
    · intro _ line next others hrun
      rw [hrun] at hdropped
      simp at hdropped
    · intro _
      exact ⟨fun line hline => hbefore line (hsubset hline), hlast⟩

/-- To squeeze a text with a carriage return put before every line feed is to squeeze the
text and then put them in, unless it ends in two or more blank lines; then a carriage
return is left over.  And where carriage returns stand in some lines only, each with its
line feed, one loses it just when of two or more blank lines at the end the first has one. -/
theorem squeezeBlankLines_crlfText (text : String) :
    (squeezeBlankLines (crlfText text) =
      if 1 < (blankLinesAtEnd text).length then (crlfText (squeezeBlankLines text)).push '\r'
      else crlfText (squeezeBlankLines text)) ∧
    (ReturnsPaired text.toList →
      (ReturnsPaired (squeezeBlankLines text).toList ↔
        ∀ line next others, blankLinesAtEnd text = line :: next :: others → '\r' ∉ line)) :=
  ⟨squeezeBlankLines_crlfText_eq text, returnsPaired_squeezeBlankLines_iff⟩

/-- A run of blank lines in front of another line, and an end of one blank line. -/
theorem squeezeBlankLines_crlfText_inner_run :
    ReturnsPaired "a\r\n\r\n \nb\n".toList ∧
      squeezeBlankLines "a\r\n\r\n \nb\n" = "a\r\n\r\nb\n" ∧
      ReturnsPaired (squeezeBlankLines "a\r\n\r\n \nb\n").toList := by
  have hpaired : ReturnsPaired "a\r\n\r\n \nb\n".toList := by decide +kernel
  have hend : blankLinesAtEnd "a\r\n\r\n \nb\n" = [[]] := by decide +kernel
  refine ⟨hpaired, by decide +kernel, ?_⟩
  apply ((squeezeBlankLines_crlfText "a\r\n\r\n \nb\n").2 hpaired).mpr
  intro line next others hrun
  rw [hend] at hrun
  cases hrun

/-- Two blank lines at the end. -/
theorem squeezeBlankLines_crlfText_ne :
    '\r' ∉ "a\n\n".toList ∧
      squeezeBlankLines (crlfText "a\n\n") = "a\r\n\r" ∧
      crlfText (squeezeBlankLines "a\n\n") = "a\r\n" ∧
      squeezeBlankLines (crlfText "a\n\n") ≠ crlfText (squeezeBlankLines "a\n\n") ∧
      ReturnsPaired "a\r\n\r\n".toList ∧
      ¬ ReturnsPaired (squeezeBlankLines "a\r\n\r\n").toList := by
  decide +kernel

end LogSweep
