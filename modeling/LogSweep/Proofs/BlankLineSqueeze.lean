import LogSweep.BlankLine
import LogSweep.Proofs.CharacterBoundary

/-!
# Squeezing blank lines

Cutting a text into lines and joining them again are inverse to each other, so
what squeezing does to a text is what it does to its lines.  Those it leaves
are some of the lines in order, and squeezing them again drops none.
-/

namespace LogSweep

/-! ## Lines -/

theorem splitLines_cons (c : Char) (text : List Char) :
    splitLines (c :: text) = addToLines c (splitLines text) :=
  rfl

theorem splitLines_eq_splitOn (text : List Char) :
    splitLines text = text.splitOn '\n' := by
  induction text with
  | nil => rfl
  | cons c text ih =>
      have hlines := List.splitOn_ne_nil '\n' text
      rw [splitLines_cons, ih, List.splitOn_cons_eq_if_modifyHead]
      by_cases hc : c = '\n'
      · simp [addToLines, hc]
      · cases hsplit : text.splitOn '\n' with
        | nil => exact absurd hsplit hlines
        | cons line lines => simp [addToLines, hc]

theorem splitLines_ne_nil (text : List Char) : splitLines text ≠ [] := by
  rw [splitLines_eq_splitOn]
  exact List.splitOn_ne_nil '\n' text

theorem joinLines_splitLines (text : List Char) :
    joinLines (splitLines text) = text := by
  rw [joinLines, splitLines_eq_splitOn]
  exact List.intercalate_splitOn '\n'

theorem splitLines_joinLines {lines : List (List Char)}
    (hlines : ∀ line ∈ lines, '\n' ∉ line) (hsome : lines ≠ []) :
    splitLines (joinLines lines) = lines := by
  rw [joinLines, splitLines_eq_splitOn]
  exact List.splitOn_intercalate '\n' hlines hsome

theorem newline_not_mem_of_mem_splitLines {text line : List Char}
    (hline : line ∈ splitLines text) : '\n' ∉ line := by
  induction text generalizing line with
  | nil =>
      have hempty : line = [] := by simpa [splitLines] using hline
      simp [hempty]
  | cons c text ih =>
      rw [splitLines_cons] at hline
      unfold addToLines at hline
      split_ifs at hline with hc
      · rcases List.mem_cons.mp hline with rfl | hline
        · simp
        · exact ih hline
      · cases hsplit : splitLines text with
        | nil => exact absurd hsplit (splitLines_ne_nil text)
        | cons first lines =>
            rw [hsplit] at hline ih
            rcases List.mem_cons.mp hline with rfl | hline
            · intro hmem
              rcases List.mem_cons.mp hmem with hnew | hmem
              · exact hc hnew.symm
              · exact ih List.mem_cons_self hmem
            · exact ih (List.mem_cons_of_mem first hline)

theorem joinLines_cons_of_ne_nil {lines : List (List Char)}
    (line : List Char) (hsome : lines ≠ []) :
    joinLines (line :: lines) = line ++ '\n' :: joinLines lines := by
  rw [joinLines, List.intercalate_cons_of_ne_nil hsome, List.append_assoc]
  rfl

theorem joinLines_sublist {lines others : List (List Char)}
    (hsublist : lines.Sublist others) :
    (joinLines lines).Sublist (joinLines others) := by
  induction hsublist with
  | slnil => exact List.Sublist.refl _
  | @cons lines others line hsublist ih =>
      by_cases hnone : others = []
      · rw [hnone, List.sublist_nil] at hsublist
        simp [hsublist, joinLines]
      · rw [joinLines_cons_of_ne_nil line hnone]
        exact ih.trans ((List.sublist_cons_self _ _).trans
          (List.sublist_append_right _ _))
  | @cons_cons lines others line hsublist ih =>
      by_cases hnone : lines = []
      · by_cases hothers : others = []
        · rw [hnone, hothers]
        · rw [hnone, joinLines_cons_of_ne_nil line hothers, joinLines,
            List.intercalate_singleton]
          exact List.sublist_append_left _ _
      · have hothers : others ≠ [] := by
          rintro rfl
          exact hnone (List.sublist_nil.mp hsublist)
        rw [joinLines_cons_of_ne_nil line hnone,
          joinLines_cons_of_ne_nil line hothers]
        exact (List.Sublist.refl line).append (ih.cons_cons '\n')

/-! ## Blank lines -/

/-- What is left of lines that follow a line, blank or not. -/
def linesAfter (afterBlank : Bool) : List (List Char) → List (List Char)
  | [] => []
  | line :: rest =>
    if isBlankLine line && afterBlank then linesAfter (isBlankLine line) rest
    else line :: linesAfter (isBlankLine line) rest

theorem dropRepeatedBlanks_eq_linesAfter (lines : List (List Char)) :
    dropRepeatedBlanks lines = linesAfter false lines := by
  have hzip : ∀ afterBlank,
      (lines.zip (afterBlank :: lines.map isBlankLine)).filterMap
        (fun place =>
          if isBlankLine place.1 && place.2 then none else some place.1) =
        linesAfter afterBlank lines := by
    induction lines with
    | nil => simp [linesAfter]
    | cons line lines ih =>
        intro afterBlank
        rw [List.map_cons, List.zip_cons_cons, List.filterMap_cons, ih,
          linesAfter]
        by_cases hdropped : (isBlankLine line && afterBlank) = true
        · simp only [if_pos hdropped]
        · simp only [if_neg hdropped]
  exact hzip false

theorem linesAfter_sublist (afterBlank : Bool) (lines : List (List Char)) :
    (linesAfter afterBlank lines).Sublist lines := by
  induction lines generalizing afterBlank with
  | nil => exact List.Sublist.refl _
  | cons line lines ih =>
      rw [linesAfter]
      split_ifs
      · exact (ih _).cons line
      · exact (ih _).cons_cons line

theorem linesAfter_linesAfter (afterBlank : Bool) (lines : List (List Char)) :
    linesAfter afterBlank (linesAfter afterBlank lines) =
      linesAfter afterBlank lines := by
  induction lines generalizing afterBlank with
  | nil => rfl
  | cons line lines ih =>
      rw [linesAfter]
      split_ifs with hdropped
      · -- the line that is dropped is blank, and so is the one before it
        rw [Bool.and_eq_true] at hdropped
        rw [hdropped.1, hdropped.2]
        exact ih true
      · rw [linesAfter, if_neg hdropped, ih]

/-- Lines of which no two in a row are blank are all left. -/
theorem linesAfter_eq_self {afterBlank : Bool} {lines : List (List Char)}
    (hfirst : afterBlank = true → ∀ line ∈ lines.head?, isBlankLine line = false)
    (hlines : ∀ before line next after, lines = before ++ line :: next :: after →
      isBlankLine line = true → isBlankLine next = false) :
    linesAfter afterBlank lines = lines := by
  induction lines generalizing afterBlank with
  | nil => rfl
  | cons line lines ih =>
      have hstays : (isBlankLine line && afterBlank) = false := by
        cases hafter : afterBlank with
        | true => rw [hfirst hafter line rfl, Bool.false_and]
        | false => rw [Bool.and_false]
      have hrest : linesAfter (isBlankLine line) lines = lines := by
        apply ih
        · intro hblank next hnext
          obtain ⟨after, rfl⟩ := List.head?_eq_some_iff.mp hnext
          exact hlines [] line next after rfl hblank
        · intro before first next after hsplit
          exact hlines (line :: before) first next after (by rw [hsplit]; rfl)
      rw [linesAfter, if_neg (by simp [hstays]), hrest]

/-- A blank line right after a blank line is dropped, whatever is in front of
them. -/
theorem length_linesAfter_lt {line next : List Char} (hblank : isBlankLine line = true)
    (hnext : isBlankLine next = true) (before after : List (List Char))
    (afterBlank : Bool) :
    (linesAfter afterBlank (before ++ line :: next :: after)).length <
      (before ++ line :: next :: after).length := by
  induction before generalizing afterBlank with
  | nil =>
      have hle := (linesAfter_sublist true after).length_le
      simp only [List.nil_append, linesAfter, hblank, hnext, Bool.and_true, if_true]
      split_ifs <;> simp only [List.length_cons] <;> omega
  | cons first before ih =>
      have hrest := ih (isBlankLine first)
      rw [List.cons_append, linesAfter]
      split_ifs <;> simp only [List.length_cons] <;> omega

theorem linesAfter_false_ne_nil {lines : List (List Char)}
    (hsome : lines ≠ []) : linesAfter false lines ≠ [] := by
  cases lines with
  | nil => exact absurd rfl hsome
  | cons line lines => simp [linesAfter]

/-! ## Texts -/

theorem splitLines_squeezeBlankLines (text : String) :
    splitLines (squeezeBlankLines text).toList =
      linesAfter false (splitLines text.toList) := by
  rw [squeezeBlankLines, String.toList_ofList,
    dropRepeatedBlanks_eq_linesAfter]
  apply splitLines_joinLines
  · intro line hline
    exact newline_not_mem_of_mem_splitLines
      ((linesAfter_sublist false _).subset hline)
  · exact linesAfter_false_ne_nil (splitLines_ne_nil text.toList)

/-- Two lines in a row are blank. -/
def RepeatsBlankLine (text : String) : Prop :=
  ∃ before line next after, splitLines text.toList = before ++ line :: next :: after ∧
    isBlankLine line = true ∧ isBlankLine next = true

theorem squeezeBlankLines_eq_self {text : String} (hnever : ¬ RepeatsBlankLine text) :
    squeezeBlankLines text = text := by
  have hlines : linesAfter false (splitLines text.toList) = splitLines text.toList := by
    apply linesAfter_eq_self
    · simp
    · intro before line next after hsplit hblank
      by_contra hnext
      exact hnever ⟨before, line, next, after, hsplit, hblank, by simpa using hnext⟩
  rw [squeezeBlankLines, dropRepeatedBlanks_eq_linesAfter, hlines, joinLines_splitLines,
    String.ofList_toList]

/-- Only a text that repeats no blank line is left as it is. -/
theorem squeezeBlankLines_eq_self_iff {text : String} :
    squeezeBlankLines text = text ↔ ¬ RepeatsBlankLine text := by
  constructor
  · intro hsame hrepeats
    rcases hrepeats with ⟨before, line, next, after, hsplit, hblank, hnext⟩
    have hlines := splitLines_squeezeBlankLines text
    have hshorter := length_linesAfter_lt hblank hnext before after false
    rw [hsame, hsplit] at hlines
    rw [← hlines] at hshorter
    exact lt_irrefl _ hshorter
  · exact squeezeBlankLines_eq_self

theorem squeezeBlankLines_squeezeBlankLines (text : String) :
    squeezeBlankLines (squeezeBlankLines text) = squeezeBlankLines text := by
  rw [squeezeBlankLines, splitLines_squeezeBlankLines,
    dropRepeatedBlanks_eq_linesAfter, linesAfter_linesAfter,
    ← dropRepeatedBlanks_eq_linesAfter]
  rfl

theorem toList_squeezeBlankLines_sublist (text : String) :
    (squeezeBlankLines text).toList.Sublist text.toList := by
  rw [squeezeBlankLines, String.toList_ofList, dropRepeatedBlanks_eq_linesAfter]
  have hlines := joinLines_sublist (linesAfter_sublist false (splitLines text.toList))
  rwa [joinLines_splitLines] at hlines

theorem ofString_squeezeBlankLines_sublist (text : String) :
    (Bytes.ofString (squeezeBlankLines text)).Sublist (Bytes.ofString text) := by
  rw [Bytes.ofString_eq_flatMap, Bytes.ofString_eq_flatMap]
  exact (toList_squeezeBlankLines_sublist text).flatMap _

theorem length_squeezeBlankLines_le (text : String) :
    (Bytes.ofString (squeezeBlankLines text)).length ≤
      (Bytes.ofString text).length :=
  (ofString_squeezeBlankLines_sublist text).length_le

theorem length_squeezeBlankLines_lt_iff {text : String} :
    (Bytes.ofString (squeezeBlankLines text)).length < (Bytes.ofString text).length ↔
      RepeatsBlankLine text := by
  have hsublist := ofString_squeezeBlankLines_sublist text
  have hsame : (Bytes.ofString (squeezeBlankLines text)).length =
      (Bytes.ofString text).length ↔ squeezeBlankLines text = text := by
    constructor
    · intro hlength
      exact Bytes.ofString_injective (hsublist.eq_of_length hlength)
    · intro htext
      rw [htext]
  have hle := hsublist.length_le
  rw [← not_iff_not, not_lt, ← squeezeBlankLines_eq_self_iff, ← hsame]
  omega

end LogSweep
