import LogSweep.Offset

/-!
# Logging calls

A logging call is the receiver `console`, a dot, one of five method names and a
parenthesis, with white space allowed only before the parenthesis.
-/

namespace LogSweep

open Byte

inductive Method where
  | log
  | warn
  | error
  | info
  | debug
  deriving DecidableEq, Repr

/-- The object whose methods log. -/
def receiver : String := "console"

namespace Method

def all : List Method := [.log, .warn, .error, .info, .debug]

def name : Method → String
  | .log => "log"
  | .warn => "warn"
  | .error => "error"
  | .info => "info"
  | .debug => "debug"

def ofName? (name : String) : Option Method :=
  all.find? fun method => method.name == name

/-- The method whose name has these bytes. -/
def ofBytes? (bytes : Bytes) : Option Method :=
  all.find? fun method => Bytes.ofString method.name == bytes

/-- The method as it is called, with its receiver. -/
def display (method : Method) : String :=
  receiver ++ "." ++ method.name

end Method

/-- A logging call of a text. -/
structure Call where
  method : Method
  /-- The offset of its receiver. -/
  start : Nat
  /-- The line of its receiver, counted from 1. -/
  line : Nat
  deriving DecidableEq, Repr

/-- The method that the text after a receiver calls, and the number of bytes
before its opening parenthesis. -/
def calledMethod? : Bytes → Option (Method × Nat)
  | [] => none
  | b :: rest =>
    let name := rest.takeWhile isWord
    let gap := (rest.drop name.length).takeWhile isWhitespace
    let before := name.length + gap.length
    if b = dot ∧ (rest.drop before).head? = some openParen then
      (Method.ofBytes? name).map (·, before + 1)
    else none

end LogSweep
