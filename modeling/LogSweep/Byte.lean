/-!
# Bytes of program text

Program text is read as its UTF-8 bytes.  Every byte that the scanners look for
is ASCII, and the bytes of a longer character are all at least `0x80`, so a
scanner that stops only beside ASCII bytes never cuts a character in two.
-/

namespace LogSweep

/-- A text, or what remains of one, as its UTF-8 bytes. -/
abbrev Bytes := List UInt8

namespace Bytes

/-- Texts are the same if their bytes are. -/
instance : LawfulBEq Bytes := inferInstanceAs (LawfulBEq (List UInt8))

/-- The UTF-8 bytes of a text. -/
def ofString (text : String) : Bytes := text.toByteArray.data.toList

/-- The text with these bytes, if they are valid UTF-8. -/
def decode? (bytes : Bytes) : Option String :=
  String.fromUTF8? ⟨bytes.toArray⟩

/-- Whether a character starts here; one does at the end of the text too. -/
def startsCharacter : Bytes → Bool
  | [] => true
  | b :: _ => b < 0x80 || 0xC0 ≤ b

/-- The length of the leading run of bytes of one class. -/
def runLength (inClass : UInt8 → Bool) (rest : Bytes) : Nat :=
  (rest.takeWhile inClass).length

end Bytes

namespace Byte

abbrev tab : UInt8 := 9
abbrev newline : UInt8 := 10
abbrev formFeed : UInt8 := 12
abbrev carriageReturn : UInt8 := 13
abbrev space : UInt8 := 32
abbrev doubleQuote : UInt8 := 34
abbrev dollar : UInt8 := 36
abbrev singleQuote : UInt8 := 39
abbrev openParen : UInt8 := 40
abbrev closeParen : UInt8 := 41
abbrev star : UInt8 := 42
abbrev plus : UInt8 := 43
abbrev minus : UInt8 := 45
abbrev dot : UInt8 := 46
abbrev slash : UInt8 := 47
abbrev semicolon : UInt8 := 59
abbrev openBracket : UInt8 := 91
abbrev backslash : UInt8 := 92
abbrev closeBracket : UInt8 := 93
abbrev underscore : UInt8 := 95
abbrev backtick : UInt8 := 96
abbrev openBrace : UInt8 := 123
abbrev closeBrace : UInt8 := 125

/-- ASCII white space: space, tab, line feed, form feed and carriage return. -/
def isWhitespace (b : UInt8) : Bool :=
  b == space || b == tab || b == newline || b == formFeed || b == carriageReturn

/-- White space that cannot end a line by itself: space and tab. -/
def isBlank (b : UInt8) : Bool :=
  b == space || b == tab

/-- Bytes of words, which are names, keywords and numbers.  All bytes from `0x80`
on count, so that a name with letters beyond ASCII is one run. -/
def isWord (b : UInt8) : Bool :=
  (Char.ofUInt8 b).isAlphanum || b == underscore || b == dollar || 0x80 ≤ b

/-- Operators, opening brackets, separators and the member access.  An expression
is still open after one of these, and goes on before one. -/
def isConnective (b : UInt8) : Bool :=
  match Char.ofUInt8 b with
  | '(' | '[' | ',' | '=' | ':' | '?' | '&' | '|' | '+' | '-' | '*' | '/' | '%' | '!' | '~'
  | '^' | '<' | '>' | '.' => true
  | _ => false

end Byte
end LogSweep
