import LogSweep.BlankLine
import LogSweep.Sweep

/-!
# Cleaning up a text

Deleting calls can leave blank lines behind.  Cleaning up deletes the calls and
then squeezes the blank lines.
-/

namespace LogSweep

/-- Deletes the logging calls of a text that are statements of their own, and
squeezes its blank lines. -/
def cleanUp (text : String) : Except Fault Report := do
  let report ← sweepText text
  return { report with text := squeezeBlankLines report.text }

/-- What remains of a text that is cleaned up. -/
def cleanText (text : String) : Except Fault String :=
  return (← cleanUp text).text

/-- The reports of cleaning up a text again and again. -/
def cleanUpTimes : Nat → String → Except Fault (List Report)
  | 0, _ => return []
  | times + 1, text => do
    let report ← cleanUp text
    return report :: (← cleanUpTimes times report.text)

end LogSweep
