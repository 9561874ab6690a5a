import LogSweep.Bracket
import LogSweep.SweepState

/-!
# Sweeping a text

A sweep reads a text once and deletes the logging calls that are statements of
their own.  Each step decides from the state and the rest of the text what the
next segment is, checks that it can be cut off, and takes it in.
-/

namespace LogSweep

open Byte

/-- The length of the line terminator here. -/
def terminatorLength : Bytes → Nat
  | [] => 0
  | b :: rest =>
    if b = newline then 1
    else if b = carriageReturn ∧ rest.head? = some newline then 2
    else 0

namespace SweepState

/-- Decides about the call that starts here, once the parenthesis at `closing`
is known to close it.  A deleted call takes its line terminator along only if
nothing was written before it. -/
def nextCall (state : SweepState) (call : Call) (word closing : Nat) (rest : Bytes) :
    Except Fault (Segment.Kind × Nat) := do
  let close ← distance state.offset closing
  let after ← rest.suffixFrom (close + 1)
  match judge state.last state.role state.onNewLine after with
  | .error obstacle => return (.kept call obstacle, word)
  | .ok ending =>
    let terminator :=
      if ending.endsLine ∧ state.written.isEmpty then
        terminatorLength (after.drop ending.length)
      else 0
    return (.removed call ending.endsLine terminator, close + ending.length + terminator)

/-- The segment that starts with the word byte `b`: its kind, and the number of
its bytes after `b`. -/
def nextWord (state : SweepState) (table : ParenTable) (b : UInt8) (tail : Bytes) :
    Except Fault (Segment.Kind × Nat) :=
  let more := Bytes.runLength isWord tail
  let after := tail.drop more
  if b :: tail.take more = Bytes.ofString receiver ∧ state.last ≠ some dot then
    match calledMethod? after with
    | none => return (.word, more)
    | some (method, before) => do
      let call : Call := ⟨method, state.offset, state.line⟩
      match ← table.closingOf (state.offset + more + 1 + before) (after.drop before) with
      | none => return (.kept call .unclosed, more)
      | some closing => state.nextCall call more closing (b :: tail)
  else return (.word, more)

/-- The segment that starts with the byte `b`: its kind, and the number of its
bytes after `b`. -/
def next (state : SweepState) (table : ParenTable) (b : UInt8) (tail : Bytes) :
    Except Fault (Segment.Kind × Nat) :=
  match Literal.opened? state.last b tail with
  | some literal =>
    return (if literal.kind.isValue then .literal else .comment, literal.more)
  | none =>
    if isWhitespace b then return (.space, Bytes.runLength isWhitespace tail)
    else if isWord b then state.nextWord table b tail
    else return (.punctuation, 0)

/-- Sweeps the rest of a text. -/
def run (table : ParenTable) (state : SweepState) : Bytes → Except Fault SweepState
  | [] => return state
  | b :: tail => do
    let (kind, more) ← state.next table b tail
    Bytes.checkCut tail more
    run table (state.push ⟨kind, b, tail.take more⟩) (tail.drop more)
termination_by rest => rest.length
decreasing_by simp only [List.length_cons, List.length_drop]; omega

end SweepState

/-- The state at the end of a text. -/
def sweep (src : Bytes) : Except Fault SweepState :=
  SweepState.run (.ofText src) .initial src

/-- Deletes every logging call that is a statement of its own. -/
def sweepText (text : String) : Except Fault Report := do
  (← sweep (Bytes.ofString text)).report

end LogSweep
