import LogSweep.Byte

/-!
# Offsets into a text

An offset counts the bytes before it.  Reading from an offset past the end of
the text, or cutting the text inside a character, is a `Fault`: a slip in the
program's own arithmetic, never a property of the input.  Functions that take
offsets return the fault instead of reading something else.
-/

namespace LogSweep

/-- A slip that a correct scan does not make. -/
inductive Fault where
  /-- The text was read from an offset past its end, or backwards. -/
  | outOfRange
  /-- The text was cut inside a character. -/
  | splitCharacter
  /-- A closing bracket was counted while none was open. -/
  | unopened
  deriving DecidableEq, Repr

/-- The distance from an offset to one that is not before it. -/
def distance (start stop : Nat) : Except Fault Nat :=
  if start ≤ stop then .ok (stop - start) else .error .outOfRange

namespace Bytes

/-- What remains of the text from an offset on. -/
def suffixFrom : Bytes → Nat → Except Fault Bytes
  | rest, 0 => .ok rest
  | [], _ + 1 => .error .outOfRange
  | _ :: rest, start + 1 => suffixFrom rest start

/-- Checks that the first `count` bytes can be cut off: there are as many, and
a character ends with the last of them. -/
def checkCut (rest : Bytes) (count : Nat) : Except Fault Unit := do
  let after ← rest.suffixFrom count
  if startsCharacter after then .ok () else .error .splitCharacter

/-- The offset at which the run of one class that starts at `start` ends. -/
def runEnd (inClass : UInt8 → Bool) (src : Bytes) (start : Nat) : Except Fault Nat := do
  let rest ← src.suffixFrom start
  return start + runLength inClass rest

/-- The offset at which the word that starts at `start` ends. -/
def wordEnd (src : Bytes) (start : Nat) : Except Fault Nat :=
  src.runEnd Byte.isWord start

/-- The offset of the first byte from `start` on that is not white space. -/
def whitespaceEnd (src : Bytes) (start : Nat) : Except Fault Nat :=
  src.runEnd Byte.isWhitespace start

/-- The offset of the first byte from `start` on that is neither a space nor a
tab. -/
def blankEnd (src : Bytes) (start : Nat) : Except Fault Nat :=
  src.runEnd Byte.isBlank start

end Bytes
end LogSweep
