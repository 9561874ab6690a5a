import Mathlib.Data.List.SplitBy
import LogSweep.Proofs.CleaningTwice

/-!
# Runs of blank lines

Lines fall into runs: blank lines that follow each other are one run, and every
other line is one by itself.  Squeezing leaves the first line of each run.  So no
two lines in a row are blank afterwards, and the lines that are not blank are as
before.
-/

namespace LogSweep

/-- The lines cut into runs, each of them a single line or blank lines only.  The
runs of blank lines are as long as can be: no two of them touch. -/
structure IsCutIntoRuns (lines : List (List Char)) (runs : List (List (List Char))) : Prop where
  flatten : runs.flatten = lines
  nonempty : [] ∉ runs
  uniform : ∀ run ∈ runs, (∃ line, run = [line]) ∨ ∀ line ∈ run, isBlankLine line = true
  apart :
    runs.IsChain fun run next =>
      ¬ ((∀ line ∈ run, isBlankLine line = true) ∧ ∀ line ∈ next, isBlankLine line = true)

/-! ## Cutting -/

/-- Both lines are blank. -/
def areBlank (line next : List Char) : Bool := isBlankLine line && isBlankLine next

theorem forall_isBlankLine_of_isChain {line next : List Char} {others : List (List Char)}
    (hchain : (line :: next :: others).IsChain fun line next => areBlank line next = true) :
    ∀ other ∈ line :: next :: others, isBlankLine other = true := by
  induction others generalizing line next with
  | nil =>
      have hblank := (List.isChain_cons_cons.mp hchain).1
      unfold areBlank at hblank
      rw [Bool.and_eq_true] at hblank
      intro other hother
      rcases List.mem_pair.mp hother with rfl | rfl
      · exact hblank.1
      · exact hblank.2
  | cons further others ih =>
      rcases List.isChain_cons_cons.mp hchain with ⟨hblank, hothers⟩
      unfold areBlank at hblank
      rw [Bool.and_eq_true] at hblank
      intro other hother
      rcases List.mem_cons.mp hother with rfl | hother
      · exact hblank.1
      · exact ih hothers other hother

theorem isCutIntoRuns_splitBy (lines : List (List Char)) :
    IsCutIntoRuns lines (lines.splitBy areBlank) := by
  constructor
  · exact List.flatten_splitBy areBlank lines
  · exact List.nil_notMem_splitBy areBlank lines
  · intro run hrun
    have hchain := List.isChain_of_mem_splitBy hrun
    match run, List.ne_nil_of_mem_splitBy hrun, hchain with
    | [line], _, _ => exact Or.inl ⟨line, rfl⟩
    | line :: next :: others, _, hchain =>
        exact Or.inr (forall_isBlankLine_of_isChain hchain)
  · apply (List.isChain_getLast_head_splitBy areBlank lines).imp
    rintro run next ⟨hrun, hnext, hapart⟩ ⟨hblank, hblank'⟩
    unfold areBlank at hapart
    rw [hblank _ (List.getLast_mem hrun), hblank' _ (List.head_mem hnext)] at hapart
    cases hapart

section

variable {lines run : List (List Char)} {runs : List (List (List Char))}
  (hcut : IsCutIntoRuns lines (run :: runs))

include hcut

theorem IsCutIntoRuns.later : IsCutIntoRuns runs.flatten runs := by
  constructor
  · rfl
  · exact fun hmem => hcut.nonempty (List.mem_cons_of_mem run hmem)
  · exact fun other hother => hcut.uniform other (List.mem_cons_of_mem run hother)
  · exact hcut.apart.tail

theorem IsCutIntoRuns.forall_isBlankLine {first : List Char}
    (hfirst : run.head? = some first) (hblank : isBlankLine first = true) :
    ∀ line ∈ run, isBlankLine line = true := by
  rcases hcut.uniform run List.mem_cons_self with ⟨only, rfl⟩ | hrun
  · intro line hline
    rw [List.mem_singleton.mp hline, Option.some.inj hfirst, hblank]
  · exact hrun

/-- Behind a run of blank lines comes a line that is not blank. -/
theorem IsCutIntoRuns.head_later (hrun : ∀ line ∈ run, isBlankLine line = true) :
    ∀ line ∈ runs.flatten.head?, isBlankLine line = false := by
  intro line hline
  cases runs with
  | nil => cases hline
  | cons next runs =>
      have hlater := hcut.later
      cases next with
      | nil => exact absurd List.mem_cons_self hlater.nonempty
      | cons first more =>
          rw [List.flatten_cons, List.cons_append, List.head?_cons, Option.mem_some_iff] at hline
          subst hline
          by_contra hblank
          rw [Bool.not_eq_false] at hblank
          exact (List.isChain_cons_cons.mp hcut.apart).1
            ⟨hrun, hlater.forall_isBlankLine rfl hblank⟩

end

/-! ## What is left of runs -/

theorem linesAfter_append_of_blank {run : List (List Char)}
    (hrun : ∀ line ∈ run, isBlankLine line = true) (lines : List (List Char)) :
    linesAfter true (run ++ lines) = linesAfter true lines := by
  induction run with
  | nil => rfl
  | cons line run ih =>
      rcases List.forall_mem_cons.mp hrun with ⟨hline, hothers⟩
      rw [List.cons_append, linesAfter, hline]
      exact ih hothers

theorem linesAfter_true_of_head {lines : List (List Char)}
    (hhead : ∀ line ∈ lines.head?, isBlankLine line = false) :
    linesAfter true lines = linesAfter false lines := by
  cases lines with
  | nil => rfl
  | cons line lines =>
      rw [linesAfter, linesAfter, hhead line rfl, Bool.false_and, Bool.false_and]

theorem linesAfter_eq_filterMap_head? {lines : List (List Char)}
    {runs : List (List (List Char))} (hcut : IsCutIntoRuns lines runs) :
    linesAfter false lines = runs.filterMap List.head? := by
  induction runs generalizing lines with
  | nil =>
      rw [← hcut.flatten]
      rfl
  | cons run runs ih =>
      have hlater := ih hcut.later
      cases run with
      | nil => exact absurd List.mem_cons_self hcut.nonempty
      | cons line more =>
          -- what comes behind the run starts afresh, as its first line is not blank
          have hbehind : linesAfter (isBlankLine line) (more ++ runs.flatten) =
              linesAfter false runs.flatten := by
            cases hblank : isBlankLine line with
            | true =>
                have hrun := hcut.forall_isBlankLine rfl hblank
                rw [linesAfter_append_of_blank (List.forall_mem_cons.mp hrun).2,
                  linesAfter_true_of_head (hcut.head_later hrun)]
            | false =>
                rcases hcut.uniform _ List.mem_cons_self with ⟨only, honly⟩ | hrun
                · rw [(List.cons.inj honly).2, List.nil_append]
                · rw [hrun line List.mem_cons_self] at hblank
                  cases hblank
          rw [← hcut.flatten, List.flatten_cons, List.cons_append, linesAfter, Bool.and_false,
            hbehind, hlater]
          rfl

theorem filter_linesAfter (afterBlank : Bool) (lines : List (List Char)) :
    (linesAfter afterBlank lines).filter (!isBlankLine ·) = lines.filter (!isBlankLine ·) := by
  induction lines generalizing afterBlank with
  | nil => rfl
  | cons line lines ih =>
      rw [linesAfter]
      split_ifs with hdropped
      · have hblank := (Bool.and_eq_true_iff.mp hdropped).1
        rw [ih, List.filter_cons_of_neg (by simp [hblank])]
      · rw [List.filter_cons, List.filter_cons, ih]

theorem not_repeatsBlankLine_squeezeBlankLines (text : String) :
    ¬ RepeatsBlankLine (squeezeBlankLines text) :=
  squeezeBlankLines_eq_self_iff.mp (squeezeBlankLines_squeezeBlankLines text)

/-- Squeezing leaves of each run of blank lines the first and every other line,
all as they are.  So it leaves no two blank lines in a row, nothing for a second
squeezing to drop, and neither does cleaning up. -/
theorem squeezeBlankLines_leaves_first_of_run (text : String) :
    (∃ runs, IsCutIntoRuns (text.toList.splitOn '\n') runs ∧
      (squeezeBlankLines text).toList.splitOn '\n' = runs.filterMap List.head?) ∧
    ¬ RepeatsBlankLine (squeezeBlankLines text) ∧
    ((squeezeBlankLines text).toList.splitOn '\n').filter (!isBlankLine ·) =
      (text.toList.splitOn '\n').filter (!isBlankLine ·) ∧
    squeezeBlankLines (squeezeBlankLines text) = squeezeBlankLines text ∧
    ∃ report, cleanUp text = .ok report ∧ ¬ RepeatsBlankLine report.text := by
  have hlines := splitLines_squeezeBlankLines text
  rw [splitLines_eq_splitOn, splitLines_eq_splitOn] at hlines
  refine ⟨⟨_, isCutIntoRuns_splitBy (text.toList.splitOn '\n'), ?_⟩,
    not_repeatsBlankLine_squeezeBlankLines text, ?_, squeezeBlankLines_squeezeBlankLines text, ?_⟩
  · rw [hlines]
    exact linesAfter_eq_filterMap_head? (isCutIntoRuns_splitBy _)
  · rw [hlines, filter_linesAfter]
  · rcases exists_cleanUp text with ⟨swept, -, hreport, -⟩
    exact ⟨_, hreport, not_repeatsBlankLine_squeezeBlankLines swept.text⟩

end LogSweep
