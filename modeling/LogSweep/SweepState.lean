import LogSweep.Statement

/-!
# Segments and the state of a sweep

A sweep cuts a text into segments, from left to right, and loses none of them:
the text is its segments in order.  What has been written follows from the
segments alone.  White space is held back until the next token or comment,
since a statement that is deleted with its line takes the white space before it
along.
-/

namespace LogSweep

open Byte

inductive Segment.Kind where
  | space
  | comment
  | literal
  /-- A single byte of code that belongs to no word. -/
  | punctuation
  | word
  /-- The receiver of a call that stays. -/
  | kept (call : Call) (obstacle : Obstacle)
  /-- A deleted call, with the line terminator after it as its last
  `terminator` bytes. -/
  | removed (call : Call) (endsLine : Bool) (terminator : Nat)
  deriving DecidableEq, Repr

/-- A piece of the text, never empty. -/
structure Segment where
  kind : Segment.Kind
  first : UInt8
  others : Bytes
  deriving DecidableEq, Repr

namespace Segment

def bytes (segment : Segment) : Bytes := segment.first :: segment.others

/-- The last byte of a segment. -/
def last (segment : Segment) : UInt8 := segment.others.getLastD segment.first

def finding? (segment : Segment) : Option Finding :=
  match segment.kind with
  | .removed call _ _ => some (.removed call)
  | .kept call obstacle => some (.kept call obstacle)
  | _ => none

end Segment

structure SweepState where
  /-- The segments so far. -/
  segments : Array Segment
  /-- The number of bytes read. -/
  offset : Nat
  /-- The line of the next byte, counted from 1. -/
  line : Nat
  /-- The output up to its last token or comment. -/
  written : Array UInt8
  /-- The white space held back since then. -/
  pending : Bytes
  /-- Whether a line feed was written since the last code token. -/
  writtenNewline : Bool
  /-- The last byte of the last code token written. -/
  last : Option UInt8
  /-- The role of that token. -/
  role : Role
  /-- The parentheses that the output leaves open, innermost first: true for
  those of a control-flow head. -/
  heads : List Bool
  deriving DecidableEq, Repr

namespace SweepState

/-- The state in which a sweep starts. -/
def initial : SweepState where
  segments := #[]
  offset := 0
  line := 1
  written := #[]
  pending := []
  writtenNewline := false
  last := none
  role := .plain
  heads := []

/-- Everything written, the white space at the end included. -/
def output (state : SweepState) : Bytes := state.written.toList ++ state.pending

/-- Whether the output has a line feed after its last code token. -/
def onNewLine (state : SweepState) : Bool :=
  state.writtenNewline || state.pending.contains newline

/-- Writes bytes after the white space held back. -/
def write (state : SweepState) (bytes : Bytes) : SweepState :=
  { state with written := state.written ++ state.pending ++ bytes, pending := [] }

/-- Writes a comment, which is no token: it only adds to the line feeds since
the last one. -/
def writeComment (state : SweepState) (bytes : Bytes) : SweepState :=
  let writtenNewline := state.onNewLine || bytes.contains newline
  { state.write bytes with writtenNewline }

/-- Writes a code token. -/
def writeToken (state : SweepState) (bytes : Bytes) (last : UInt8) (role : Role) :
    SweepState :=
  { state.write bytes with writtenNewline := false, last := some last, role }

/-- Whether the byte is a sign right after the same sign. -/
def doublesSign (state : SweepState) (b : UInt8) : Bool :=
  (b == plus || b == minus) && state.last == some b && state.pending.isEmpty &&
    state.written.back? == some b

/-- The role of a byte of code that belongs to no word. -/
def punctuationRole (state : SweepState) (b : UInt8) : Role :=
  if b = closeParen ∧ state.heads.head? = some true then .beforeBody
  else if state.doublesSign b then .increment
  else .plain

/-- The open parentheses after a byte of code.  One that closes nothing changes
nothing. -/
def headsAfter (state : SweepState) (b : UInt8) : List Bool :=
  if b = openParen then (state.role == .headKeyword) :: state.heads
  else if b = closeParen then state.heads.tail
  else state.heads

/-- Writes a byte of code that belongs to no word. -/
def writePunctuation (state : SweepState) (b : UInt8) : SweepState :=
  let role := state.punctuationRole b
  let heads := state.headsAfter b
  { state.writeToken [b] b role with heads }

/-- Writes a segment, or leaves it out. -/
def emit (state : SweepState) (segment : Segment) : SweepState :=
  match segment.kind with
  | .space => { state with pending := state.pending ++ segment.bytes }
  | .comment => state.writeComment segment.bytes
  | .literal => state.writeToken segment.bytes valueByte .plain
  | .punctuation => state.writePunctuation segment.first
  | .word | .kept _ _ =>
    state.writeToken segment.bytes segment.last (.ofWord segment.bytes)
  | .removed _ endsLine _ => if endsLine then { state with pending := [] } else state

/-- Takes in the next segment of the text. -/
def push (state : SweepState) (segment : Segment) : SweepState :=
  let state := state.emit segment
  { state with
    segments := state.segments.push segment
    offset := state.offset + segment.bytes.length
    line := state.line + segment.bytes.count newline }

/-- The report on the text read. -/
def report (state : SweepState) : Except Fault Report :=
  match Bytes.decode? state.output with
  | some text => .ok ⟨text, state.segments.toList.filterMap Segment.finding?⟩
  | none => .error .splitCharacter

end SweepState
end LogSweep
