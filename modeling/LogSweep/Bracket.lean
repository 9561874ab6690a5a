import Std.Data.TreeMap
import LogSweep.Code

/-!
# Matching brackets

Two ways to find the bracket that closes another, both among code bytes only.
`closingFrom` counts from one opening bracket; `Pairing.ofText` pairs all
parentheses of a text in one pass.  The pass runs from the end: the closing
parentheses that still wait for a partner are then a stack whose top belongs to
the next opening parenthesis met.
-/

namespace LogSweep

open Byte

/-- What a search for a closing bracket ends with. -/
inductive Closing where
  | found (offset : Nat)
  /-- The text ends first. -/
  | unclosed
  /-- A closing bracket came while none was open. -/
  | unopened
  deriving DecidableEq, Repr

/-- Counts brackets until the outermost one is closed.  A byte that is both
kinds counts as opening. -/
def closingIn (opening closing : UInt8) (depth : Nat) : List CodeByte → Closing
  | [] => .unclosed
  | c :: rest =>
    if c.byte = opening then closingIn opening closing (depth + 1) rest
    else if c.byte = closing then
      match depth with
      | 0 => .unopened
      | 1 => .found c.offset
      | depth + 2 => closingIn opening closing (depth + 1) rest
    else closingIn opening closing depth rest

/-- Finds the bracket that closes the one at `start`. -/
def closingFrom (src : Bytes) (start : Nat) (opening closing : UInt8) : Closing :=
  closingIn opening closing 0 (codeBytes start (src.drop start))

/-- The parentheses of the end of a text. -/
structure Pairing where
  /-- The offsets of the closing ones without a partner, in order. -/
  closers : List Nat
  /-- The offset of each opening one with that of its partner, in order. -/
  pairs : List (Nat × Option Nat)
  deriving DecidableEq, Repr

/-- Takes in the code byte before those paired so far. -/
def Pairing.add (c : CodeByte) (pairing : Pairing) : Pairing :=
  if c.byte = openParen then
    ⟨pairing.closers.tail, (c.offset, pairing.closers.head?) :: pairing.pairs⟩
  else if c.byte = closeParen then ⟨c.offset :: pairing.closers, pairing.pairs⟩
  else pairing

/-- The parentheses of a text. -/
def Pairing.ofText (src : Bytes) : Pairing :=
  (codeBytes 0 src).foldr Pairing.add ⟨[], []⟩

/-- The pairs of a text, to be looked up by the opening parenthesis. -/
abbrev ParenTable := Std.TreeMap Nat (Option Nat)

def ParenTable.ofText (src : Bytes) : ParenTable :=
  .ofList (Pairing.ofText src).pairs

/-- The offset that closes the parenthesis with which `rest` starts, looked up
or else searched for. -/
def ParenTable.closingOf (table : ParenTable) (opening : Nat) (rest : Bytes) :
    Except Fault (Option Nat) :=
  match table.get? opening with
  | some closing => .ok closing
  | none =>
    match closingIn openParen closeParen 0 (codeBytes opening rest) with
    | .found closing => .ok (some closing)
    | .unclosed => .ok none
    | .unopened => .error .unopened

end LogSweep
