import LogSweep.Bracket

/-!
# Scanning by offsets

The scanners once more, as they go over the whole text with an offset that they
move forward, an escape by two bytes.  Here no access is taken for granted.  A
byte is looked up at an offset, a part is cut out between two, and a count of
open brackets goes down by one; each of these is a `Fault` where it cannot be
done.  So is an offset that does not move forward, with which a loop would never
end.
-/

namespace LogSweep

open Byte

/-- One bracket less is open. -/
def closeOne : Nat → Except Fault Nat
  | 0 => .error .unopened
  | depth + 1 => .ok depth

/-- A literal or comment that starts at a known offset, and the offset at which it
ends. -/
structure LiteralSpan where
  kind : Literal.Kind
  stop : Nat
  deriving DecidableEq, Repr

/-- The last code byte after a literal, given the one before it. -/
def LiteralSpan.lastCode (span : LiteralSpan) (prev : Option UInt8) : Option UInt8 :=
  if span.kind.isValue then some valueByte else prev

/-- An open level of a template: text, or a substitution with the braces opened in
it. -/
inductive TemplateLevel where
  | text
  | code (braces : Nat)
  deriving DecidableEq, Repr

/-- The levels after a byte of code in a substitution, given the levels around
it. -/
def TemplateLevel.afterCode (braces : Nat) (around : List TemplateLevel) (b : UInt8) :
    Except Fault (List TemplateLevel) := do
  if b = openBrace then return .code (braces + 1) :: around
  else if b = closeBrace then
    if 0 < braces then return .code (← closeOne braces) :: around
    else return around
  else return .code braces :: around

namespace Bytes

/-! ## Bytes and parts -/

def byteAt (src : Bytes) (i : Nat) : Except Fault UInt8 :=
  match src[i]? with
  | some b => .ok b
  | none => .error .outOfRange

/-- The bytes from one offset up to another. -/
def slice (src : Bytes) (start stop : Nat) : Except Fault Bytes := do
  let length ← distance start stop
  let rest ← src.suffixFrom start
  let _ ← rest.suffixFrom length
  return rest.take length

/-- The part of a text from one offset up to another, neither of them inside a
character. -/
def cutOut (text : Bytes) (start stop : Nat) : Except Fault Bytes := do
  text.checkCut start
  text.checkCut stop
  text.slice start stop

/-- The text without what stands behind its first `length` bytes, if it has as
many. -/
def truncate (text : Bytes) (length : Nat) : Except Fault Bytes := do
  if length ≤ text.length then
    text.checkCut length
    return text.take length
  else return text

/-! ## Literals -/

/-- Reads a string from `i` on. -/
def stringFrom (src : Bytes) (quote : UInt8) (i : Nat) : Except Fault Nat := do
  if i < src.length then
    let b ← src.byteAt i
    if b = backslash then src.stringFrom quote (i + 2)
    else if b = newline then return i
    else if b = quote then return i + 1
    else src.stringFrom quote (i + 1)
  else return src.length
termination_by src.length - i

/-- The offset at which the string that starts at `start` ends. -/
def stringEnd (src : Bytes) (start : Nat) : Except Fault Nat := do
  let quote ← src.byteAt start
  src.stringFrom quote (start + 1)

/-- Reads a regex from `i` on, up to and with its flags; none if its line ends
first. -/
def regexFrom? (src : Bytes) (inClass : Bool) (i : Nat) : Except Fault (Option Nat) := do
  if i < src.length then
    let b ← src.byteAt i
    if b = backslash then src.regexFrom? inClass (i + 2)
    else if b = newline ∨ b = carriageReturn then return none
    else if b = slash ∧ inClass = false then return some (← src.wordEnd (i + 1))
    else src.regexFrom? (b == openBracket || (inClass && b != closeBracket)) (i + 1)
  else return none
termination_by src.length - i

/-- The offset at which the line comment that starts at `start` ends. -/
def lineCommentEnd (src : Bytes) (start : Nat) : Except Fault Nat :=
  src.runEnd (· != newline) start

/-- The offset at which the comment that starts at `start` with a slash and a star
ends. -/
def blockCommentEnd (src : Bytes) (start : Nat) : Except Fault Nat := do
  let rest ← src.suffixFrom (start + 2)
  return start + 2 + blockCommentTail 0 rest

/-- The comment or regex that the `/` at `start` opens. -/
def slashAt? (src : Bytes) (start : Nat) (prev : Option UInt8) :
    Except Fault (Option LiteralSpan) := do
  if src[start + 1]? = some slash then
    return some ⟨.lineComment, ← src.lineCommentEnd start⟩
  else if src[start + 1]? = some star then
    return some ⟨.blockComment, ← src.blockCommentEnd start⟩
  else if admitsRegex prev then
    return (← src.regexFrom? false (start + 1)).map (⟨.regex, ·⟩)
  else return none

/-- The string, regex or comment that starts at `start` after the code byte
`prev`. -/
def plainAt? (src : Bytes) (start : Nat) (prev : Option UInt8) :
    Except Fault (Option LiteralSpan) := do
  match src[start]? with
  | none => return none
  | some b =>
    if b = singleQuote ∨ b = doubleQuote then return some ⟨.string, ← src.stringEnd start⟩
    else if b = slash then src.slashAt? start prev
    else return none

/-- Reads a template from `i` on, at the levels that are open there, the innermost
first.  An escape may step over the end of the text. -/
def templateFrom (src : Bytes) (levels : List TemplateLevel) (prev : Option UInt8) (i : Nat) :
    Except Fault Nat := do
  match levels with
  | [] => return min i src.length
  | level :: around =>
    if i < src.length then
      let b ← src.byteAt i
      match level with
      | .text =>
        if b = backslash then src.templateFrom levels prev (i + 2)
        else if b = backtick then src.templateFrom around (some valueByte) (i + 1)
        else if b = dollar ∧ src[i + 1]? = some openBrace then
          src.templateFrom (.code 0 :: levels) (some openBrace) (i + 2)
        else src.templateFrom levels prev (i + 1)
      | .code braces =>
        if b = backtick then src.templateFrom (.text :: levels) prev (i + 1)
        else
          match ← src.plainAt? i prev with
          | some span =>
            if i < span.stop then src.templateFrom levels (span.lastCode prev) span.stop
            else .error .outOfRange
          | none =>
            let after ← TemplateLevel.afterCode braces around b
            src.templateFrom after (lastCodeAfter b prev) (i + 1)
    else return min i src.length
termination_by src.length - i

/-- The literal or comment that starts at `start` after the code byte `prev`; none
if a byte of code is there, or the end of the text. -/
def literalAt? (src : Bytes) (start : Nat) (prev : Option UInt8) :
    Except Fault (Option LiteralSpan) := do
  if src[start]? = some backtick then
    return some ⟨.template, ← src.templateFrom [.text] none (start + 1)⟩
  else src.plainAt? start prev

/-! ## Brackets -/

/-- Appends the code bytes from `i` on to those found before. -/
def codeUpFrom (src : Bytes) (prev : Option UInt8) (i : Nat) (found : Array CodeByte) :
    Except Fault (Array CodeByte) := do
  if i < src.length then
    match ← src.literalAt? i prev with
    | some span =>
      if i < span.stop then src.codeUpFrom (span.lastCode prev) span.stop found
      else .error .outOfRange
    | none =>
      let b ← src.byteAt i
      src.codeUpFrom (lastCodeAfter b prev) (i + 1) (found.push ⟨i, b⟩)
  else return found
termination_by src.length - i

/-- Pairs the parentheses of the text. -/
def parenTable (src : Bytes) : Except Fault ParenTable := do
  let code ← src.codeUpFrom none 0 #[]
  return .ofList (code.toList.foldr Pairing.add ⟨[], []⟩).pairs

/-- Counts brackets from `i` on until the outermost one is closed; none if the
text ends first. -/
def closingUpFrom? (src : Bytes) (opening closing : UInt8) (depth : Nat) (prev : Option UInt8)
    (i : Nat) : Except Fault (Option Nat) := do
  if i < src.length then
    match ← src.literalAt? i prev with
    | some span =>
      if i < span.stop then
        src.closingUpFrom? opening closing depth (span.lastCode prev) span.stop
      else .error .outOfRange
    | none =>
      let b ← src.byteAt i
      if b = opening then
        src.closingUpFrom? opening closing (depth + 1) (lastCodeAfter b prev) (i + 1)
      else if b = closing then
        match ← closeOne depth with
        | 0 => return some i
        | depth => src.closingUpFrom? opening closing depth (lastCodeAfter b prev) (i + 1)
      else src.closingUpFrom? opening closing depth (lastCodeAfter b prev) (i + 1)
  else return none
termination_by src.length - i

/-- Finds the bracket that closes the one at `start`. -/
def closingAt? (src : Bytes) (start : Nat) (opening closing : UInt8) :
    Except Fault (Option Nat) :=
  src.closingUpFrom? opening closing 0 none start

end Bytes
end LogSweep
