import LogSweep.Offset

/-!
# Strings, regexes and comments

The parts of a text that are not code, template literals apart.  Each scanner
gets the bytes after the one that opens the literal and counts how many of them
belong to it, so a literal is its kind and that count.

A `/` opens a regex only where no value stands before it.  What stands before
is told by the last code byte, white space and comments left aside; a finished
literal counts as the byte `valueByte`.
-/

namespace LogSweep

open Byte

inductive Literal.Kind where
  | string
  | template
  | regex
  | lineComment
  | blockComment
  deriving DecidableEq, Repr

/-- Whether a literal of this kind is a value; comments are none. -/
def Literal.Kind.isValue : Literal.Kind → Bool
  | .string | .template | .regex => true
  | .lineComment | .blockComment => false

structure Literal where
  kind : Literal.Kind
  /-- The number of its bytes after the first. -/
  more : Nat
  deriving DecidableEq, Repr

/-- The number of bytes of a literal. -/
def Literal.length (literal : Literal) : Nat := literal.more + 1

/-- The byte that stands for a finished string, template or regex as the last
code byte.  Like every value, it is followed by a division. -/
def valueByte : UInt8 := doubleQuote

/-- The last code byte after a literal, given the one before it. -/
def Literal.lastCode (literal : Literal) (prev : Option UInt8) : Option UInt8 :=
  if literal.kind.isValue then some valueByte else prev

/-- The last code byte after a byte of code, given the one before it. -/
def lastCodeAfter (b : UInt8) (prev : Option UInt8) : Option UInt8 :=
  if isWhitespace b then prev else some b

/-- Whether a `/` after this code byte can open a regex: no value ends with it. -/
def admitsRegex : Option UInt8 → Bool
  | none => true
  | some b => isConnective b || b == openBrace || b == closeBrace || b == semicolon

/-- Counts the bytes of a string up to and with its closing quote.  An unclosed
string ends before the line feed, or with the text. -/
def stringTail (quote : UInt8) (escaped : Bool) (read : Nat) : Bytes → Nat
  | [] => read
  | b :: rest =>
    if escaped then stringTail quote false (read + 1) rest
    else if b = backslash then stringTail quote true (read + 1) rest
    else if b = newline then read
    else if b = quote then read + 1
    else stringTail quote false (read + 1) rest

/-- Counts the bytes of a regex up to and with its flags; none if its line ends
first.  A `/` inside a class `[…]` does not close it. -/
def regexTail? (inClass escaped : Bool) (read : Nat) : Bytes → Option Nat
  | [] => none
  | b :: rest =>
    if escaped then regexTail? inClass false (read + 1) rest
    else if b = backslash then regexTail? inClass true (read + 1) rest
    else if b = newline ∨ b = carriageReturn then none
    else if b = slash ∧ inClass = false then some (read + 1 + Bytes.runLength isWord rest)
    else regexTail? (b == openBracket || (inClass && b != closeBracket)) false (read + 1) rest

/-- Counts the bytes of a comment up to and with its closing `*/`, or all of
them. -/
def blockCommentTail (read : Nat) : Bytes → Nat
  | [] => read
  | b :: rest =>
    if b = star ∧ rest.head? = some slash then read + 2
    else blockCommentTail (read + 1) rest

/-- The comment or regex that a `/` opens. -/
def Literal.bySlash? (prev : Option UInt8) (tail : Bytes) : Option Literal :=
  match tail with
  | [] => none
  | b :: rest =>
    if b = slash then some ⟨.lineComment, Bytes.runLength (· != newline) tail⟩
    else if b = star then some ⟨.blockComment, blockCommentTail 1 rest⟩
    else if admitsRegex prev then (regexTail? false false 0 tail).map (⟨.regex, ·⟩)
    else none

/-- The string, regex or comment that the byte `b` opens after the code byte
`prev`. -/
def Literal.plain? (prev : Option UInt8) (b : UInt8) (tail : Bytes) : Option Literal :=
  if b = singleQuote ∨ b = doubleQuote then some ⟨.string, stringTail b false 0 tail⟩
  else if b = slash then Literal.bySlash? prev tail
  else none

/-- Whether a comment starts here. -/
def opensComment : Bytes → Bool
  | b :: next :: _ => b == slash && (next == slash || next == star)
  | _ => false

/-- Whether a comment starts at an offset. -/
def opensCommentAt (src : Bytes) (start : Nat) : Except Fault Bool := do
  return opensComment (← src.suffixFrom start)

end LogSweep
