import LogSweep.CharTable

/-!
# Quoted paths

Messages show a path between double quotes.  Quotes and backslashes in it stand
behind a backslash, the usual control characters have a letter, and any other
character that would not show is given by its code point.
-/

namespace LogSweep

/-- A code point in lower-case hexadecimal. -/
def codePointText (c : Char) : List Char :=
  ['\\', 'u', '{'] ++ Nat.toDigits 16 c.toNat ++ ['}']

/-- A character as a quoted path shows it. -/
def quotedChar (c : Char) : List Char :=
  match c with
  | '"' => ['\\', '"']
  | '\\' => ['\\', '\\']
  | '\n' => ['\\', 'n']
  | '\r' => ['\\', 'r']
  | '\t' => ['\\', 't']
  | '\x00' => ['\\', '0']
  | c => if isHidden c then codePointText c else [c]

/-- A path between double quotes. -/
def quotedPath (path : String) : String :=
  String.ofList ('"' :: path.toList.flatMap quotedChar ++ ['"'])

end LogSweep
