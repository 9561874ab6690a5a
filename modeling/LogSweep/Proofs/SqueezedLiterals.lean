import LogSweep.Proofs.CleaningTwice
import LogSweep.Proofs.LiteralNewlines

/-!
# Squeezing leaves literals in place

Squeezing blank lines knows lines, not literals.  Yet a literal starts with a
character that is no white space, so its first line is never dropped, and what
becomes of the rest depends on nothing in front of it.  A line of a string or
regex that goes on ends with a backslash, so no such line is blank, and the last
one comes right after one that is not: none is dropped.  The lines of a template
may be blank, and of these the repeated ones go, just as if the template stood
alone.
-/

namespace LogSweep

open Byte Bytes SweepState

/-! ## Squeezing from the middle of a line -/

/-- Squeezes what follows on a line that comes after one that is not blank;
`solid` tells if the line holds more than white space already. -/
def squeezeFrom (solid : Bool) (text : List Char) : List Char :=
  match splitLines text with
  | [] => []
  | line :: rest => joinLines (line :: linesAfter (!solid && isBlankLine line) rest)

theorem squeezeFrom_eq {text line : List Char} {rest : List (List Char)}
    (hlines : splitLines text = line :: rest) (solid : Bool) :
    squeezeFrom solid text =
      joinLines (line :: linesAfter (!solid && isBlankLine line) rest) := by
  rw [squeezeFrom, hlines]

theorem exists_splitLines (text : List Char) :
    ∃ line rest, splitLines text = line :: rest :=
  List.exists_cons_of_ne_nil (splitLines_ne_nil text)

theorem toList_squeezeBlankLines (text : String) :
    (squeezeBlankLines text).toList = squeezeFrom false text.toList := by
  obtain ⟨line, rest, hlines⟩ := exists_splitLines text.toList
  rw [squeezeBlankLines, String.toList_ofList, dropRepeatedBlanks_eq_linesAfter,
    squeezeFrom_eq hlines, hlines, linesAfter, if_neg (by simp)]
  rfl

theorem squeezeFrom_nil (solid : Bool) : squeezeFrom solid [] = [] :=
  rfl

theorem splitLines_cons_of_ne {c : Char} (hc : c ≠ '\n') {text line : List Char}
    {rest : List (List Char)} (hlines : splitLines text = line :: rest) :
    splitLines (c :: text) = (c :: line) :: rest := by
  rw [splitLines_cons, hlines, addToLines, if_neg hc]

theorem splitLines_newline (text : List Char) :
    splitLines ('\n' :: text) = [] :: splitLines text :=
  rfl

theorem joinLines_singleton (line : List Char) : joinLines [line] = line := by
  simp [joinLines]

theorem joinLines_append_first (front line : List Char) (rest : List (List Char)) :
    joinLines ((front ++ line) :: rest) = front ++ joinLines (line :: rest) := by
  cases rest with
  | nil => rw [joinLines_singleton, joinLines_singleton]
  | cons next rest =>
      rw [joinLines_cons_of_ne_nil _ (List.cons_ne_nil next rest),
        joinLines_cons_of_ne_nil _ (List.cons_ne_nil next rest), List.append_assoc]

/-- A character that ends no line stays. -/
theorem squeezeFrom_cons {c : Char} (hc : c ≠ '\n') (solid : Bool) (text : List Char) :
    squeezeFrom solid (c :: text) =
      c :: squeezeFrom (solid || !isUnicodeSpace c) text := by
  obtain ⟨line, rest, hlines⟩ := exists_splitLines text
  have hblank : (!solid && isBlankLine (c :: line)) =
      (!(solid || !isUnicodeSpace c) && isBlankLine line) := by
    cases solid <;> simp [isBlankLine]
  rw [squeezeFrom_eq (splitLines_cons_of_ne hc hlines), squeezeFrom_eq hlines, hblank]
  exact joinLines_append_first [c] line _

/-- So does the end of a line that is not blank. -/
theorem squeezeFrom_newline (text : List Char) :
    squeezeFrom true ('\n' :: text) = '\n' :: squeezeFrom false text := by
  obtain ⟨line, rest, hlines⟩ := exists_splitLines text
  rw [squeezeFrom_eq (splitLines_newline text), squeezeFrom_eq hlines, hlines, linesAfter,
    if_neg (by simp), joinLines_cons_of_ne_nil _ (List.cons_ne_nil _ _)]
  rfl

/-! ## In front of and behind a character that is no white space -/

/-- The lines of a text, cut in one of them. -/
theorem exists_splitLines_append (before : List Char) (c : Char) (hc : c ≠ '\n') :
    ∃ lines front, ∀ {after line : List Char} {rest : List (List Char)},
      splitLines after = line :: rest →
        splitLines (before ++ c :: after) = lines ++ (front ++ c :: line) :: rest := by
  induction before with
  | nil => exact ⟨[], [], splitLines_cons_of_ne hc⟩
  | cons d before ih =>
      obtain ⟨lines, front, hlines⟩ := ih
      by_cases hd : d = '\n'
      · refine ⟨[] :: lines, front, fun hafter => ?_⟩
        rw [hd, List.cons_append, splitLines_newline, hlines hafter]
        rfl
      · cases lines with
        | nil =>
            refine ⟨[], d :: front, fun hafter => ?_⟩
            exact splitLines_cons_of_ne hd (hlines hafter)
        | cons first lines =>
            refine ⟨(d :: first) :: lines, front, fun hafter => ?_⟩
            exact splitLines_cons_of_ne hd (hlines hafter)

theorem linesAfter_append_of_solid {line : List Char} (hline : isBlankLine line = false)
    (afterBlank : Bool) (lines rest : List (List Char)) :
    linesAfter afterBlank (lines ++ line :: rest) =
      linesAfter afterBlank lines ++ line :: linesAfter false rest := by
  induction lines generalizing afterBlank with
  | nil => simp [linesAfter, hline]
  | cons first lines ih =>
      rw [List.cons_append, linesAfter, linesAfter, ih]
      split_ifs <;> rfl

theorem joinLines_append_line (lines : List (List Char)) (front line : List Char)
    (rest : List (List Char)) :
    joinLines (lines ++ (front ++ line) :: rest) =
      joinLines (lines ++ [front]) ++ joinLines (line :: rest) := by
  induction lines with
  | nil =>
      rw [List.nil_append, List.nil_append, joinLines_singleton, joinLines_append_first]
  | cons first lines ih =>
      rw [List.cons_append, List.cons_append, joinLines_cons_of_ne_nil _ (by simp),
        joinLines_cons_of_ne_nil _ (by simp), ih, List.append_assoc, List.cons_append]

/-- A character that is no white space stays, and cuts what is squeezed in two:
what comes in front of it does not depend on what follows. -/
theorem exists_squeezeFrom_append {c : Char} (hc : isUnicodeSpace c = false)
    (solid : Bool) (before : List Char) :
    ∃ front, ∀ after, squeezeFrom solid (before ++ c :: after) =
      front ++ c :: squeezeFrom true after := by
  have hnewline : c ≠ '\n' := by
    rintro rfl
    exact absurd hc (by decide)
  obtain ⟨lines, front, hlines⟩ := exists_splitLines_append before c hnewline
  have hsolid : ∀ line, isBlankLine (front ++ c :: line) = false := by
    intro line
    simp [isBlankLine, hc]
  have hfirst : ∀ (line : List Char) (rest : List (List Char)),
      joinLines ((c :: line) :: rest) = c :: joinLines (line :: rest) :=
    fun line rest => joinLines_append_first [c] line rest
  cases lines with
  | nil =>
      refine ⟨front, fun after => ?_⟩
      obtain ⟨line, rest, hafter⟩ := exists_splitLines after
      rw [squeezeFrom_eq (hlines hafter), hsolid, squeezeFrom_eq hafter,
        joinLines_append_first, hfirst, Bool.and_false, Bool.not_true, Bool.false_and]
  | cons first lines =>
      refine ⟨joinLines (first :: linesAfter (!solid && isBlankLine first) lines ++ [front]),
        fun after => ?_⟩
      obtain ⟨line, rest, hafter⟩ := exists_splitLines after
      have hwhole := hlines hafter
      rw [List.cons_append] at hwhole
      rw [squeezeFrom_eq hwhole, squeezeFrom_eq hafter,
        linesAfter_append_of_solid (hsolid line), ← List.cons_append,
        joinLines_append_line, hfirst, Bool.not_true, Bool.false_and]

/-! ## Literals -/

/-- Line feeds come right behind a backslash. -/
def EscapesNewlineChars (text : List Char) : Prop :=
  List.IsChain (fun before c => c = '\n' → before = '\\') text

/-- What goes on behind a line feed only after a backslash is left as it is. -/
theorem exists_squeezeFrom_escaped {prev : Char} {text : List Char}
    (hescaped : EscapesNewlineChars (prev :: text)) {solid : Bool}
    (hsolid : prev = '\\' → solid = true) :
    ∃ later, ∀ after, squeezeFrom solid (text ++ after) = text ++ squeezeFrom later after := by
  induction text generalizing prev solid with
  | nil => exact ⟨solid, fun _ => rfl⟩
  | cons c text ih =>
      obtain ⟨hc, htext⟩ := List.isChain_cons_cons.mp hescaped
      by_cases hnewline : c = '\n'
      · rw [hnewline] at htext ⊢
        rw [hsolid (hc hnewline)]
        obtain ⟨later, hlater⟩ := ih htext (show '\n' = '\\' → false = true by decide)
        refine ⟨later, fun after => ?_⟩
        rw [List.cons_append, squeezeFrom_newline, hlater, List.cons_append]
      · obtain ⟨later, hlater⟩ := ih htext
          (show c = '\\' → (solid || !isUnicodeSpace c) = true by
            rintro rfl
            rw [show isUnicodeSpace '\\' = false by decide]
            simp)
        refine ⟨later, fun after => ?_⟩
        rw [List.cons_append, squeezeFrom_cons hnewline, hlater, List.cons_append]

/-- Wherever the piece stands in a text, squeezing leaves `left` of it. -/
def LeavesAlways (piece left : List Char) : Prop :=
  ∀ solid before, ∃ front later, ∀ after,
    squeezeFrom solid (before ++ (piece ++ after)) = front ++ (left ++ squeezeFrom later after)

theorem leavesAlways_of_escaped {first : Char} {others : List Char}
    (hfirst : isUnicodeSpace first = false)
    (hescaped : EscapesNewlineChars (first :: others)) :
    LeavesAlways (first :: others) (first :: others) := by
  intro solid before
  obtain ⟨front, hfront⟩ := exists_squeezeFrom_append hfirst solid before
  obtain ⟨later, hlater⟩ := exists_squeezeFrom_escaped hescaped
    (show first = '\\' → true = true from fun _ => rfl)
  refine ⟨front, later, fun after => ?_⟩
  rw [List.cons_append, hfront, hlater, List.cons_append]

theorem squeezeFrom_cons_solid {first : Char} (hfirst : isUnicodeSpace first = false)
    (solid : Bool) (text : List Char) :
    squeezeFrom solid (first :: text) = first :: squeezeFrom true text := by
  have hnewline : first ≠ '\n' := by
    rintro rfl
    exact absurd hfirst (by decide)
  rw [squeezeFrom_cons hnewline, hfirst, Bool.not_false, Bool.or_true]

/-- What stands at the end of a text is squeezed as if it stood alone. -/
theorem exists_squeezeFrom_last {first : Char} (hfirst : isUnicodeSpace first = false)
    (solid : Bool) (before others : List Char) :
    ∃ front, squeezeFrom solid (before ++ first :: others) =
      front ++ squeezeFrom false (first :: others) := by
  obtain ⟨front, hfront⟩ := exists_squeezeFrom_append hfirst solid before
  exact ⟨front, by rw [hfront, squeezeFrom_cons_solid hfirst]⟩

theorem leavesAlways_of_closed {first last : Char} {others : List Char}
    (hfirst : isUnicodeSpace first = false) (hlast : isUnicodeSpace last = false) :
    LeavesAlways (first :: (others ++ [last]))
      (squeezeFrom false (first :: (others ++ [last]))) := by
  intro solid before
  obtain ⟨front, hfront⟩ := exists_squeezeFrom_append hfirst solid before
  obtain ⟨inner, hinner⟩ := exists_squeezeFrom_append hlast true others
  refine ⟨front, true, fun after => ?_⟩
  rw [squeezeFrom_cons_solid hfirst, hinner, List.cons_append, hfront, List.append_assoc,
    List.singleton_append, hinner, squeezeFrom_nil]
  simp

end LogSweep
