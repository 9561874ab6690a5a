import LogSweep.CharTable

/-!
# Blank lines

Lines are what lies between line feeds, so a text that ends with one has an
empty last line, and a carriage return belongs to the line before it.  Of each
run of blank lines only the first stays, as it is.
-/

namespace LogSweep

/-- Puts a character in front of a text that is cut into lines. -/
def addToLines (c : Char) (lines : List (List Char)) : List (List Char) :=
  if c = '\n' then [] :: lines
  else
    match lines with
    | [] => [[c]]
    | line :: rest => (c :: line) :: rest

/-- The lines of a text. -/
def splitLines (text : List Char) : List (List Char) :=
  text.foldr addToLines [[]]

/-- The text with these lines. -/
def joinLines (lines : List (List Char)) : List Char :=
  List.intercalate ['\n'] lines

def isBlankLine (line : List Char) : Bool := line.all isUnicodeSpace

/-- Drops each blank line that comes right after a blank line. -/
def dropRepeatedBlanks (lines : List (List Char)) : List (List Char) :=
  (lines.zip (false :: lines.map isBlankLine)).filterMap fun (line, afterBlank) =>
    if isBlankLine line && afterBlank then none else some line

/-- Leaves the first line of every run of blank lines. -/
def squeezeBlankLines (text : String) : String :=
  String.ofList (joinLines (dropRepeatedBlanks (splitLines text.toList)))

end LogSweep
