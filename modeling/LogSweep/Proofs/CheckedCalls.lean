import LogSweep.CheckedSweep
import LogSweep.Proofs.CheckedBrackets
import LogSweep.Proofs.SweepTotality

/-!
# Calls and statements by offsets

What is read by offsets behind a receiver and behind a closing parenthesis is what
`calledMethod?`, the table and `Ending.read` say about the rest of the text.  The
name of a method is cut out between ASCII bytes, and where a line has not ended
there is a byte to look at.
-/

namespace LogSweep

open Byte Bytes SweepState

namespace Bytes

section

variable {src : Bytes} {start : Nat}

theorem lineEndsAt_eq (src : Bytes) (i : Nat) : src.lineEndsAt i = atLineEnd (src.drop i) := by
  rw [lineEndsAt, ← List.head?_drop]
  cases src.drop i <;> rfl

/-! ## Behind a receiver -/

/-- The name behind a dot is cut out as a whole word. -/
theorem cutOut_name {named : Bytes} (htext : IsText src) (hrest : src.drop start = dot :: named) :
    src.wordEnd (start + 1) = .ok (start + 1 + runLength isWord named) ∧
      src.cutOut (start + 1) (start + 1 + runLength isWord named) =
        .ok (named.takeWhile isWord) ∧
      start + 1 + runLength isWord named ≤ src.length := by
  have hlt := lt_length_of_drop hrest
  rcases drop_eq_cons_iff.mp hrest with ⟨-, hnamed⟩
  have hbefore : AsciiCut src (start + 1) :=
    AsciiCut.of_drop hlt.le (hrest ▸ .after (by decide))
  have hafter : AsciiCut src (start + 1 + runLength isWord named) :=
    AsciiCut.of_drop hlt (hnamed ▸ asciiCut_runLength isWord_false_ascii named)
  refine ⟨?_, ?_, hafter.le_length⟩
  · rw [wordEnd, runEnd_of_le hlt, hnamed]
  · rw [cutOut_of_checkCut (Nat.le_add_right _ _) (hbefore.checkCut htext)
      (hafter.checkCut htext), hnamed, Nat.add_sub_cancel_left, take_runLength]

theorem calledMethod?_dot (named : Bytes) :
    calledMethod? (dot :: named) =
      if (named.drop (runLength isWord named + runLength isWhitespace
          (named.drop (runLength isWord named)))).head? = some openParen then
        (Method.ofBytes? (named.takeWhile isWord)).map (·, runLength isWord named +
          runLength isWhitespace (named.drop (runLength isWord named)) + 1)
      else none := by
  rw [calledMethod?]
  simp only [true_and]
  rfl

/-- Behind a receiver the same call is read, and its closing parenthesis is looked
up or searched for at the same place. -/
theorem calledAt?_eq (htext : IsText src) (table : ParenTable) (start : Nat) :
    src.calledAt? table start =
      match calledMethod? (src.drop start) with
      | none => .ok none
      | some (method, before) =>
        (table.closingOf (start + before) (src.drop (start + before))).map fun closing =>
          some (method, closing) := by
  cases hrest : src.drop start with
  | nil =>
      have hnone := List.getElem?_eq_none (List.drop_eq_nil_iff.mp hrest)
      rw [calledAt?, hnone]
      rfl
  | cons b named =>
      rw [calledAt?, (drop_eq_cons_iff.mp hrest).1]
      by_cases hdot : b = dot
      · subst b
        rcases cutOut_name htext hrest with ⟨hword, hname, hle⟩
        rcases drop_eq_cons_iff.mp hrest with ⟨-, hnamed⟩
        have hspace := @runEnd_of_le isWhitespace src _ hle
        rw [← List.drop_drop, hnamed] at hspace
        rw [calledMethod?_dot]
        set before := runLength isWord named +
          runLength isWhitespace (named.drop (runLength isWord named)) with hbefore
        have hopening : start + 1 + runLength isWord named +
            runLength isWhitespace (named.drop (runLength isWord named)) =
              start + (before + 1) := by
          omega
        have hhead : src[start + (before + 1)]? = (named.drop before).head? := by
          rw [List.head?_drop, ← hnamed, List.getElem?_drop]
          congr 1
          omega
        rw [if_pos rfl, hword]
        simp only [bind, Except.bind, hname, whitespaceEnd, hspace, hopening, hhead]
        cases Method.ofBytes? (named.takeWhile isWord) with
        | none => rw [Option.map_none, ite_self]; rfl
        | some method =>
            by_cases hparen : (named.drop before).head? = some openParen
            · simp only [if_pos hparen, Option.map_some, ParenTable.closingOf_eq]
              cases table.get? (start + (before + 1)) with
              | some closing => rfl
              | none => rfl
            · simp only [if_neg hparen]
              rfl
      · rw [if_neg (by simpa using hdot), calledMethod?, if_neg (fun h => hdot h.1)]
        rfl

end

end Bytes

/-! ## Behind a closing parenthesis -/

/-- Where the statement ends that has this ending behind the parenthesis at
`closing`. -/
def Ending.endBehind (ending : Ending) (closing : Nat) : StatementEnd :=
  ⟨closing + 1 + ending.length, ending.endsLine⟩

namespace Bytes

section

variable {src : Bytes} {closing : Nat}

/-- Behind the end of a line, the next is read from its first byte on that is not
white space. -/
theorem goesOnBehind_eq {i : Nat} (hle : i ≤ src.length) :
    src.goesOnBehind i = .ok (continuesLine ((src.drop i).dropWhile isWhitespace)) := by
  have hnext := @runEnd_le_length isWhitespace src i hle
  have hrest : src.drop (i + runLength isWhitespace (src.drop i)) =
      (src.drop i).dropWhile isWhitespace := by
    rw [← List.drop_drop, drop_runLength]
  rw [goesOnBehind, whitespaceEnd, runEnd_of_le hle]
  simp only [bind, Except.bind, opensCommentAt_of_le hnext]
  rw [← List.head?_drop, hrest]
  cases (src.drop i).dropWhile isWhitespace with
  | nil => rfl
  | cons b after =>
      simp only [List.head?_cons, continuesLine]
      cases isConnective b || b == backtick <;> rfl

theorem endsBeforeAt_eq {i : Nat} {b : UInt8} {tail : Bytes} (hrest : src.drop i = b :: tail) :
    src.endsBeforeAt i = .ok (endsBefore (b :: tail)) := by
  rw [endsBeforeAt, byteAt_of_drop hrest, opensCommentAt_of_le (lt_length_of_drop hrest).le,
    hrest, endsBefore]
  simp only [bind, Except.bind]
  split_ifs with hbrace
  · subst b
    rfl
  · have hhead : ((b :: tail).head? == some closeBrace) = false := by simpa using hbrace
    rw [hhead, Bool.false_or]

/-- The statement behind a closing parenthesis ends as its ending says, and it is
none if the ending is not complete. -/
theorem statementEnd?_eq (hlt : closing < src.length) :
    src.statementEnd? closing =
      .ok (if (Ending.read (src.drop (closing + 1))).complete then
        some ((Ending.read (src.drop (closing + 1))).endBehind closing) else none) := by
  set after := src.drop (closing + 1) with hafter
  set blanks := closing + 1 + runLength isBlank after with hblanks
  have hle : blanks ≤ src.length := runEnd_le_length hlt
  have hrest : src.drop blanks = after.drop (runLength isBlank after) := by
    rw [hblanks, ← List.drop_drop]
  have hblankEnd : src.blankEnd (closing + 1) = .ok blanks := runEnd_of_le hlt
  rw [statementEnd?, hblankEnd, Ending.read]
  simp only [bind, Except.bind, lineEndsAt_eq, goesOnBehind_eq hle, ← hrest]
  cases hdrop : src.drop blanks with
  | nil =>
      have hnone := List.getElem?_eq_none (List.drop_eq_nil_iff.mp hdrop)
      rw [hnone, if_neg (by simp)]
      rfl
  | cons b further =>
      rcases drop_eq_cons_iff.mp hdrop with ⟨hbyte, hfurther⟩
      simp only [hbyte, Option.some.injEq, endsBeforeAt_eq hdrop]
      by_cases hsemicolon : b = semicolon
      · have hstop : src.blankEnd (blanks + 1) =
            .ok (blanks + 1 + runLength isBlank further) := by
          rw [blankEnd, runEnd_of_le (lt_length_of_drop hdrop), hfurther]
        have hbehind : src.drop (blanks + 1 + runLength isBlank further) =
            further.drop (runLength isBlank further) := by
          rw [← List.drop_drop, hfurther]
        have hlength : blanks + 1 + runLength isBlank further =
            closing + 1 + (runLength isBlank after + 1 + runLength isBlank further) := by
          omega
        rw [if_pos hsemicolon, if_pos hsemicolon, hstop]
        simp only [if_true, Ending.endBehind, hbehind]
        rw [hlength]
        rfl
      · rw [if_neg hsemicolon, if_neg hsemicolon]
        cases atLineEnd (b :: further) with
        | true => cases continuesLine ((b :: further).dropWhile isWhitespace) <;> rfl
        | false => cases endsBefore (b :: further) <;> rfl

end

end Bytes

/-! ## The decision about a call -/

/-- A call is judged as by the rest of the text behind its parenthesis. -/
theorem Cursor.judge_eq {src : Bytes} {closing : Nat} (cursor : Cursor)
    (hlt : closing < src.length) :
    cursor.judge src closing =
      .ok ((LogSweep.judge cursor.last cursor.role cursor.onNewLine
        (src.drop (closing + 1))).map (·.endBehind closing)) := by
  rw [Cursor.judge, statementEnd?_eq hlt]
  unfold LogSweep.judge
  split_ifs with hbody hstart hcomplete hincomplete hincomplete
  · rfl
  · rfl
  · simp [hcomplete] at hincomplete
  · rfl
  · rfl
  · simp [hcomplete] at hincomplete

end LogSweep
