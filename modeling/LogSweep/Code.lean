import LogSweep.Template

/-!
# Code bytes

The bytes of a text that lie outside all literals and comments, in order and
with their offsets.  Brackets are matched among them.
-/

namespace LogSweep

/-- A byte of code and its offset. -/
structure CodeByte where
  offset : Nat
  byte : UInt8
  deriving DecidableEq, Repr

/-- Appends the code bytes of the rest of a text, which starts at `offset` after
the code byte `prev`. -/
def codeFrom (prev : Option UInt8) (offset : Nat) (found : Array CodeByte) :
    Bytes → Array CodeByte
  | [] => found
  | b :: tail =>
    match Literal.opened? prev b tail with
    | some literal =>
      codeFrom (literal.lastCode prev) (offset + literal.length) found (tail.drop literal.more)
    | none => codeFrom (lastCodeAfter b prev) (offset + 1) (found.push ⟨offset, b⟩) tail
termination_by rest => rest.length
decreasing_by all_goals simp only [List.length_cons, List.length_drop]; omega

/-- The code bytes of the rest of a text, which starts at `offset`, read as if
nothing stood before it. -/
def codeBytes (offset : Nat) (rest : Bytes) : List CodeByte :=
  (codeFrom none offset #[] rest).toList

end LogSweep
