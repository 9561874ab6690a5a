import LogSweep.Call

/-!
# Reports

What became of each logging call of a text, in the order of the text, beside
the text that is left.
-/

namespace LogSweep

/-- Why a call was left in place. -/
inductive Obstacle where
  /-- Its parenthesis is never closed. -/
  | unclosed
  /-- It does not start a statement. -/
  | midExpression
  /-- What follows uses its value. -/
  | valueUsed
  /-- It is the whole body of a control-flow statement without braces. -/
  | soleBody
  deriving DecidableEq, Repr

def Obstacle.message : Obstacle → String
  | .unclosed => "unbalanced parentheses"
  | .midExpression => "not at the start of a statement"
  | .valueUsed => "result is used by the following expression"
  | .soleBody => "only statement of a control-flow body"

inductive Finding where
  | removed (call : Call)
  | kept (call : Call) (obstacle : Obstacle)
  deriving DecidableEq, Repr

namespace Finding

def call : Finding → Call
  | .removed call => call
  | .kept call _ => call

def removed? : Finding → Option Call
  | .removed call => some call
  | .kept .. => none

def kept? : Finding → Option (Call × Obstacle)
  | .removed _ => none
  | .kept call obstacle => some (call, obstacle)

/-- The log record of a finding: its level, then its message. -/
def record : Finding → String
  | .removed call => s!"DEBUG Removing {call.method.display} on line {call.line}"
  | .kept call obstacle =>
    s!"WARN Keeping {call.method.display} on line {call.line}: {obstacle.message}"

end Finding

/-- A swept text and what was found in it. -/
structure Report where
  text : String
  findings : List Finding
  deriving DecidableEq, Repr

namespace Report

def removed (report : Report) : List Call :=
  report.findings.filterMap Finding.removed?

def kept (report : Report) : List (Call × Obstacle) :=
  report.findings.filterMap Finding.kept?

def log (report : Report) : List String :=
  report.findings.map Finding.record

end Report
end LogSweep
