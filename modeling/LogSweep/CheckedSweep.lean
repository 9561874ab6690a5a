import LogSweep.CheckedScan
import LogSweep.Cleanup

/-!
# Sweeping by offsets

The sweep once more, with an offset into the text, the output as it grows and is
cut back, and marks into both.  White space is copied byte by byte.  Every byte
is looked up, every part cut out and every length taken off where it may not be
there; what is missing is a `Fault`, and so is a step that does not move forward.
-/

namespace LogSweep

open Byte

structure Cursor where
  /-- The offset of the next byte. -/
  pos : Nat
  output : Bytes
  /-- The last byte of the last code token in the output. -/
  last : Option UInt8
  /-- The role of that token. -/
  role : Role
  /-- Whether a line feed was written since that token. -/
  onNewLine : Bool
  /-- The parentheses that the output leaves open, innermost first: true for
  those of a control-flow head. -/
  heads : List Bool
  /-- The length of the output where the white space at its end begins. -/
  spaceStart : Nat
  /-- Whether a line feed stands between the last token and that place. -/
  newLineBefore : Bool
  /-- The offset up to which line feeds were counted. -/
  countedTo : Nat
  /-- The number of line feeds up to there. -/
  newlines : Nat
  findings : List Finding
  deriving DecidableEq, Repr

/-- The method that is called behind a receiver which ends at `start`, and the
offset of the parenthesis that closes the call, if any does. -/
def Bytes.calledAt? (src : Bytes) (table : ParenTable) (start : Nat) :
    Except Fault (Option (Method × Option Nat)) := do
  if src[start]? = some dot then
    let nameEnd ← src.wordEnd (start + 1)
    match Method.ofBytes? (← src.cutOut (start + 1) nameEnd) with
    | none => return none
    | some method =>
      let opening ← src.whitespaceEnd nameEnd
      if src[opening]? = some openParen then
        match table.get? opening with
        | some closing => return some (method, closing)
        | none => return some (method, ← src.closingAt? opening openParen closeParen)
      else return none
  else return none

/-- The end of a statement, and whether its line ends there. -/
structure StatementEnd where
  stop : Nat
  endsLine : Bool
  deriving DecidableEq, Repr

/-- Whether the line ends at an offset. -/
def Bytes.lineEndsAt (src : Bytes) (i : Nat) : Bool :=
  match src[i]? with
  | none => true
  | some b => b == newline || b == carriageReturn

/-- Whether the expression before `i`, where its line ends, goes on behind that. -/
def Bytes.goesOnBehind (src : Bytes) (i : Nat) : Except Fault Bool := do
  let next ← src.whitespaceEnd i
  match src[next]? with
  | none => return false
  | some b =>
    if isConnective b || b == backtick then return !(← opensCommentAt src next)
    else return false

/-- Whether a statement can end before what stands at `i` on its line. -/
def Bytes.endsBeforeAt (src : Bytes) (i : Nat) : Except Fault Bool := do
  if (← src.byteAt i) = closeBrace then return true
  else opensCommentAt src i

/-- The end of the statement that is a call with its parenthesis closed at
`closing`; none if what follows uses its value. -/
def Bytes.statementEnd? (src : Bytes) (closing : Nat) : Except Fault (Option StatementEnd) := do
  let blanks ← src.blankEnd (closing + 1)
  if src[blanks]? = some semicolon then
    let stop ← src.blankEnd (blanks + 1)
    return some ⟨stop, src.lineEndsAt stop⟩
  else if src.lineEndsAt blanks then
    return if ← src.goesOnBehind blanks then none else some ⟨blanks, true⟩
  else
    return if ← src.endsBeforeAt blanks then some ⟨blanks, false⟩ else none

namespace Cursor

def initial : Cursor where
  pos := 0
  output := []
  last := none
  role := .plain
  onNewLine := false
  heads := []
  spaceStart := 0
  newLineBefore := false
  countedTo := 0
  newlines := 0
  findings := []

/-- Whether the byte is a sign right after the same sign. -/
def doublesSign (cursor : Cursor) (b : UInt8) : Bool :=
  (b == plus || b == minus) && cursor.last == some b && cursor.output.getLast? == some b

section

variable (src : Bytes) (table : ParenTable) (cursor : Cursor)

/-- Copies the text up to an offset. -/
def copyTo (stop : Nat) : Except Fault Cursor := do
  let part ← src.cutOut cursor.pos stop
  let output := cursor.output ++ part
  return { cursor with
    pos := stop, output, spaceStart := output.length, newLineBefore := cursor.onNewLine }

/-- Copies a code token up to an offset. -/
def copyToken (stop : Nat) (last : UInt8) (role : Role) : Except Fault Cursor :=
  { cursor with last := some last, role, onNewLine := false }.copyTo src stop

/-- Copies a comment, with the line feeds in it. -/
def copyComment (stop : Nat) : Except Fault Cursor := do
  let part ← src.slice cursor.pos stop
  { cursor with onNewLine := cursor.onNewLine || part.contains newline }.copyTo src stop

/-- Copies a byte of white space. -/
def copySpace (b : UInt8) : Cursor :=
  { cursor with
    pos := cursor.pos + 1
    output := cursor.output ++ [b]
    onNewLine := cursor.onNewLine || b == newline }

/-- Copies a byte of code that belongs to no word. -/
def copyPunctuation (b : UInt8) : Except Fault Cursor :=
  let role :=
    if b = closeParen ∧ cursor.heads.head? = some true then .beforeBody
    else if cursor.doublesSign b then .increment
    else .plain
  let heads :=
    if b = openParen then (cursor.role == .headKeyword) :: cursor.heads
    else if b = closeParen then cursor.heads.tail
    else cursor.heads
  { cursor with heads }.copyToken src (cursor.pos + 1) b role

/-- Copies a word that ends at `stop`. -/
def copyWord (stop : Nat) : Except Fault Cursor := do
  let back ← distance 1 stop
  let last ← src.byteAt back
  let word ← src.slice cursor.pos stop
  cursor.copyToken src stop last (.ofWord word)

/-- Counts the line feeds up to an offset, and so its line. -/
def countLines (start : Nat) : Except Fault Cursor := do
  let between ← src.slice cursor.countedTo start
  return { cursor with
    countedTo := start, newlines := cursor.newlines + between.count newline }

/-- The end of the call closed at `closing` as a statement of its own, or why it is
none. -/
def judge (closing : Nat) : Except Fault (Except Obstacle StatementEnd) := do
  if cursor.role = .beforeBody then return .error .soleBody
  else if !startsStatement cursor.last cursor.role cursor.onNewLine then
    return .error .midExpression
  else
    match ← src.statementEnd? closing with
    | none => return .error .valueUsed
    | some statement => return .ok statement

/-- The same, if the parenthesis of the call is closed at all. -/
def judgeClosed : Option Nat → Except Fault (Except Obstacle StatementEnd)
  | none => return .error .unclosed
  | some closing => cursor.judge src closing

/-- Leaves a statement out.  One that ends its line takes along the white space in
front of it, and its line terminator too if nothing is left of the output. -/
def leaveOut (statement : StatementEnd) : Except Fault Cursor := do
  if statement.endsLine then
    let output ← cursor.output.truncate cursor.spaceStart
    let terminator ←
      if output.isEmpty then pure (terminatorLength (← src.suffixFrom statement.stop))
      else pure 0
    return { cursor with
      pos := statement.stop + terminator, output, onNewLine := cursor.newLineBefore }
  else return { cursor with pos := statement.stop }

/-- Notes what becomes of a call. -/
def note (finding : Finding) : Cursor :=
  { cursor with findings := cursor.findings ++ [finding] }

/-- Takes in the call whose receiver ends at `stop`. -/
def takeCall (method : Method) (closing : Option Nat) (stop : Nat) : Except Fault Cursor := do
  let counted ← cursor.countLines src cursor.pos
  let call : Call := ⟨method, cursor.pos, counted.newlines + 1⟩
  match ← counted.judgeClosed src closing with
  | .ok statement => return (← counted.leaveOut src statement).note (.removed call)
  | .error obstacle => (counted.note (.kept call obstacle)).copyWord src stop

/-- Takes in the word that ends at `stop`. -/
def takeWord (stop : Nat) : Except Fault Cursor := do
  let word ← src.slice cursor.pos stop
  if word = Bytes.ofString receiver ∧ cursor.last ≠ some dot then
    match ← src.calledAt? table stop with
    | none => cursor.copyWord src stop
    | some (method, closing) => cursor.takeCall src method closing stop
  else cursor.copyWord src stop

/-- Takes in what stands at the cursor. -/
def step : Except Fault Cursor := do
  match ← src.literalAt? cursor.pos cursor.last with
  | some span =>
    if span.kind.isValue then cursor.copyToken src span.stop valueByte .plain
    else cursor.copyComment src span.stop
  | none =>
    let b ← src.byteAt cursor.pos
    if isWhitespace b then return cursor.copySpace b
    else if isWord b then cursor.takeWord src table (← src.wordEnd cursor.pos)
    else cursor.copyPunctuation src b

end

/-- Goes on to the end of the text. -/
def run (src : Bytes) (table : ParenTable) (cursor : Cursor) : Except Fault Cursor := do
  if cursor.pos < src.length then
    let next ← cursor.step src table
    if cursor.pos < next.pos then next.run src table else .error .outOfRange
  else return cursor
termination_by src.length - cursor.pos

/-- The report on the text read. -/
def report (cursor : Cursor) : Except Fault Report :=
  match Bytes.decode? cursor.output with
  | some text => .ok ⟨text, cursor.findings⟩
  | none => .error .splitCharacter

end Cursor

/-- Deletes every logging call that is a statement of its own, with all accesses
checked. -/
def checkedSweepText (text : String) : Except Fault Report := do
  let src := Bytes.ofString text
  let table ← src.parenTable
  (← Cursor.initial.run src table).report

/-- Cleans up a text, with all accesses checked. -/
def checkedCleanUp (text : String) : Except Fault Report := do
  let report ← checkedSweepText text
  return { report with text := squeezeBlankLines report.text }

end LogSweep
