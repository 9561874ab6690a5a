import LogSweep.Literal

/-!
# Template literals

The text of a template is interrupted by substitutions `${…}`, which hold code,
and so again strings, comments and templates.  One loop reads all levels.  It
knows the innermost level and, for each substitution that encloses it, how many
braces are open there, so nesting of any depth needs no more than a list.
-/

namespace LogSweep

open Byte

/-- What the innermost level of a template is reading. -/
inductive TemplateMode where
  | text
  /-- Text, after a backslash. -/
  | escape
  /-- A substitution, with the braces opened since and its last code byte. -/
  | code (braces : Nat) (prev : Option UInt8)
  deriving DecidableEq, Repr

/-- The level around a template that closes: the substitution that holds it, in
which it is a value. -/
def TemplateMode.resume (braces : Nat) : TemplateMode :=
  .code braces (some valueByte)

/-- The level after a byte of code in a substitution. -/
def TemplateMode.afterCode (braces : Nat) (prev : Option UInt8) (b : UInt8) : TemplateMode :=
  if b = openBrace then .code (braces + 1) (some b)
  else if b = closeBrace then
    match braces with
    | 0 => .text
    | braces + 1 => .code braces (some b)
  else .code braces (lastCodeAfter b prev)

/-- Counts the bytes of a template up to and with its closing backtick, or all
of them; `outer` holds the open braces of the enclosing substitutions. -/
def templateTail (mode : TemplateMode) (outer : List Nat) (read : Nat) : Bytes → Nat
  | [] => read
  | b :: tail =>
    match mode with
    | .escape => templateTail .text outer (read + 1) tail
    | .text =>
      if b = backslash then templateTail .escape outer (read + 1) tail
      else if b = backtick then
        match outer with
        | [] => read + 1
        | braces :: outer => templateTail (.resume braces) outer (read + 1) tail
      else if b = dollar ∧ tail.head? = some openBrace then
        templateTail (.code 0 (some openBrace)) outer (read + 2) (tail.drop 1)
      else templateTail .text outer (read + 1) tail
    | .code braces prev =>
      if b = backtick then templateTail .text (braces :: outer) (read + 1) tail
      else
        match Literal.plain? prev b tail with
        | some literal =>
          templateTail (.code braces (literal.lastCode prev)) outer (read + literal.length)
            (tail.drop literal.more)
        | none => templateTail (.afterCode braces prev b) outer (read + 1) tail
termination_by rest => rest.length
decreasing_by all_goals simp only [List.length_cons, List.length_drop]; omega

/-- The literal or comment that the byte `b` opens after the code byte `prev`;
none if it is code. -/
def Literal.opened? (prev : Option UInt8) (b : UInt8) (tail : Bytes) : Option Literal :=
  if b = backtick then some ⟨.template, templateTail .text [] 0 tail⟩
  else Literal.plain? prev b tail

/-- The literal or comment that starts at an offset; none past the end. -/
def Literal.openedAt? (src : Bytes) (start : Nat) (prev : Option UInt8) : Option Literal :=
  match src.drop start with
  | [] => none
  | b :: tail => Literal.opened? prev b tail

end LogSweep
