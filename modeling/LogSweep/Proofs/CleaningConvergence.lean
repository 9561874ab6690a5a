import LogSweep.Proofs.CleaningTwice

/-!
# Cleaning up again and again

A text stays as it is exactly if it holds no statement to delete and repeats no
blank line.  Every other text loses at least one byte each time it is cleaned
up, so there are at most as many rounds that change something as it has bytes.
-/

namespace LogSweep

open Bytes

/-- What is left of a text after the last of these reports on it. -/
def textAfter (text : String) (reports : List Report) : String :=
  (reports.map Report.text).getLastD text

theorem textAfter_cons (text : String) (report : Report) (reports : List Report) :
    textAfter text (report :: reports) = textAfter report.text reports := by
  unfold textAfter
  rw [List.map_cons, List.getLastD_cons]

theorem cleanUpTimes_succ {text : String} {report : Report} {reports : List Report}
    {times : Nat} (hreport : cleanUp text = .ok report)
    (hlater : cleanUpTimes times report.text = .ok reports) :
    cleanUpTimes (times + 1) text = .ok (report :: reports) := by
  unfold cleanUpTimes
  rw [hreport]
  simp only [bind, Except.bind]
  rw [hlater]
  rfl

/-- Each round leaves the text as it is or makes it shorter. -/
theorem exists_cleanUp_eq_or_lt (text : String) :
    ∃ report, cleanUp text = .ok report ∧ cleanText text = .ok report.text ∧
      (report.text = text ∨
        (ofString report.text).length < (ofString text).length) := by
  obtain ⟨swept, hswept, hreport, hcleaned⟩ := exists_cleanUp text
  refine ⟨_, hreport, hcleaned, ?_⟩
  by_cases hstays : swept.removed = [] ∧ ¬ RepeatsBlankLine text
  · exact Or.inl ((squeezed_eq_iff hswept).mpr hstays)
  · exact Or.inr ((length_squeezed_lt_iff hswept).mpr hstays)

theorem exists_cleanUpTimes_fixed (text : String) :
    ∃ times ≤ (ofString text).length, ∃ reports,
      cleanUpTimes times text = .ok reports ∧
        cleanText (textAfter text reports) = .ok (textAfter text reports) := by
  induction hlength : (ofString text).length using Nat.strong_induction_on
    generalizing text with
  | _ length ih =>
      obtain ⟨report, hreport, hcleaned, hsame | hshorter⟩ :=
        exists_cleanUp_eq_or_lt text
      · rw [hsame] at hcleaned
        exact ⟨0, Nat.zero_le _, [], rfl, hcleaned⟩
      · rw [hlength] at hshorter
        obtain ⟨times, htimes, reports, hreports, hfixed⟩ :=
          ih _ hshorter report.text rfl
        refine ⟨times + 1, by omega, report :: reports,
          cleanUpTimes_succ hreport hreports, ?_⟩
        rw [textAfter_cons]
        exact hfixed

/-- Cleaning up leaves a text as it is if and only if no call is removed from
it and no two lines in a row are blank; otherwise it gets shorter.  So cleaning
up a text again and again comes to one that stays, in at most as many rounds as
the text has bytes. -/
theorem cleanText_converges (text : String) :
    ∃ swept cleaned, sweepText text = .ok swept ∧ cleanText text = .ok cleaned ∧
      (cleaned = text ↔ swept.removed = [] ∧ ¬ RepeatsBlankLine text) ∧
      ((ofString cleaned).length < (ofString text).length ↔
        ¬ (swept.removed = [] ∧ ¬ RepeatsBlankLine text)) ∧
      ∃ times ≤ (ofString text).length, ∃ reports,
        cleanUpTimes times text = .ok reports ∧
          cleanText (textAfter text reports) = .ok (textAfter text reports) := by
  obtain ⟨swept, hswept, -, hcleaned⟩ := exists_cleanUp text
  exact ⟨swept, _, hswept, hcleaned, squeezed_eq_iff hswept,
    length_squeezed_lt_iff hswept, exists_cleanUpTimes_fixed text⟩

end LogSweep
