import LogSweep.Literal
import LogSweep.Report

/-!
# Statements

A call may be deleted if it is a statement of its own.  What stands before it
tells whether it starts one, and what follows its closing parenthesis whether
it also ends one.
-/

namespace LogSweep

open Byte

/-- What the last code token means for a statement after it. -/
inductive Role where
  | plain
  /-- It is a `++` or `--`. -/
  | increment
  /-- It is a word that a control-flow head in parentheses follows. -/
  | headKeyword
  /-- It completes the head of a control-flow statement; the body comes next. -/
  | beforeBody
  deriving DecidableEq, Repr

/-- The words that a head in parentheses follows. -/
def headKeywords : List Bytes := ["if", "for", "while", "with"].map Bytes.ofString

/-- The words that a body follows at once. -/
def bodyKeywords : List Bytes := ["else", "do"].map Bytes.ofString

def Role.ofWord (word : Bytes) : Role :=
  if word ∈ headKeywords then .headKeyword
  else if word ∈ bodyKeywords then .beforeBody
  else .plain

/-- Whether a statement can start after the code byte `last`, which ends a token
of the given role. -/
def startsStatement (last : Option UInt8) (role : Role) (onNewLine : Bool) : Bool :=
  match last with
  | none => true
  | some b =>
    b == semicolon || b == openBrace || b == closeBrace ||
      (onNewLine && (role == .increment || !isConnective b))

/-- What follows the closing parenthesis of a call. -/
structure Ending where
  /-- The number of bytes that belong to the statement: blanks, and a semicolon
  with the blanks after it. -/
  length : Nat
  /-- Whether nothing but these stands on the line. -/
  endsLine : Bool
  /-- Whether the statement ends there. -/
  complete : Bool
  deriving DecidableEq, Repr

/-- Whether the line ends here. -/
def atLineEnd : Bytes → Bool
  | [] => true
  | b :: _ => b == newline || b == carriageReturn

/-- Whether a line that starts here would continue an expression before it. -/
def continuesLine : Bytes → Bool
  | [] => false
  | b :: rest => (isConnective b || b == backtick) && !opensComment (b :: rest)

/-- Whether a statement can end before what stands here on its line. -/
def endsBefore (rest : Bytes) : Bool :=
  rest.head? == some closeBrace || opensComment rest

/-- Reads the ending after a closing parenthesis.  Without a semicolon the
statement may go on, on its own line or on the next that is not empty. -/
def Ending.read (rest : Bytes) : Ending :=
  let blanks := Bytes.runLength isBlank rest
  match rest.drop blanks with
  | [] => ⟨blanks, true, true⟩
  | b :: after =>
    if b = semicolon then
      let more := Bytes.runLength isBlank after
      ⟨blanks + 1 + more, atLineEnd (after.drop more), true⟩
    else if atLineEnd (b :: after) then
      ⟨blanks, true, !continuesLine ((b :: after).dropWhile isWhitespace)⟩
    else ⟨blanks, false, endsBefore (b :: after)⟩

/-- The ending of a call that is a statement of its own, or why it is none. -/
def judge (last : Option UInt8) (role : Role) (onNewLine : Bool) (rest : Bytes) :
    Except Obstacle Ending :=
  if role = .beforeBody then .error .soleBody
  else if !startsStatement last role onNewLine then .error .midExpression
  else if !(Ending.read rest).complete then .error .valueUsed
  else .ok (Ending.read rest)

end LogSweep
