import LogSweep.FileStore

/-!
# The command line

The command cleans up one file.  Its arguments are read from left to right and
the first that decides wins: a request for help or the version is answered at
once, and an argument that makes no sense ends the reading there.
-/

namespace LogSweep

/-- What a single argument is, as long as options are still allowed. -/
inductive Argument where
  | path (path : String)
  /-- All arguments after this one are paths. -/
  | onlyPaths
  | shortHelp
  | longHelp
  | version
  | invalid
  deriving DecidableEq, Repr

/-- An argument that must be a path. -/
def Argument.ofPath (text : String) : Argument :=
  if text = "" then .invalid else .path text

/-- Reads an argument.  In a cluster of short options the first decides, since
none of them leaves anything to do for the next. -/
def Argument.read (text : String) : Argument :=
  if text = "--" then .onlyPaths
  else if text = "--help" then .longHelp
  else if text = "--version" then .version
  else
    match text.toList with
    | '-' :: 'h' :: _ => .shortHelp
    | '-' :: 'V' :: _ => .version
    | '-' :: _ :: _ => .invalid
    | _ => .ofPath text

/-- What the arguments ask for. -/
inductive Command where
  | cleanUp (path : String)
  | shortHelp
  | longHelp
  | version
  | invalid
  deriving DecidableEq, Repr

/-- Reads the arguments after those that gave `path?`. -/
def Command.read (path? : Option String) (onlyPaths : Bool) : List String → Command
  | [] =>
    match path? with
    | some path => .cleanUp path
    | none => .invalid
  | text :: rest =>
    match if onlyPaths then Argument.ofPath text else Argument.read text with
    | .path path => if path?.isSome then .invalid else Command.read (some path) onlyPaths rest
    | .onlyPaths => Command.read path? true rest
    | .shortHelp => .shortHelp
    | .longHelp => .longHelp
    | .version => .version
    | .invalid => .invalid

/-- The command that a list of arguments gives. -/
def Command.ofArguments (arguments : List String) : Command :=
  Command.read none false arguments

def versionText : String := "console-strip 0.0.0\n"

def usageText : String := "Usage: console-strip <FILE_PATH>\n"

def summaryText : String :=
  "Remove `console.log`, `console.warn`, `console.error`, `console.info` and " ++
    "`console.debug` statements from a file, overwriting it in place"

def shortHelpText : String :=
  summaryText ++ "\n\n" ++ usageText ++ "\n" ++
    "Arguments:\n" ++
    "  <FILE_PATH>  The file to rewrite\n\n" ++
    "Options:\n" ++
    "  -h, --help     Print help (see more with '--help')\n" ++
    "  -V, --version  Print version\n"

def longHelpText : String :=
  summaryText ++ ".\n\n" ++
    "Runs of blank lines left behind are collapsed into a single blank line. " ++
    "No backup of the original file is made.\n\n" ++
    usageText ++ "\n" ++
    "Arguments:\n" ++
    "  <FILE_PATH>\n" ++
    "          The file to rewrite\n\n" ++
    "Options:\n" ++
    "  -h, --help\n" ++
    "          Print help (see a summary with '-h')\n\n" ++
    "  -V, --version\n" ++
    "          Print version\n"

/-- How a program ends: its exit code and what it printed. -/
structure Outcome where
  exitCode : UInt8
  output : String
  deriving DecidableEq, Repr

/-- A fault ends the program without a word. -/
def Outcome.ofFault (_ : Fault) : Outcome := ⟨101, ""⟩

/-- How cleaning up the file at a path ends. -/
def Outcome.ofCleanUp (path : String) : Except CleanUpError Report → Outcome
  | .ok _ => ⟨0, s!"Successfully removed console logging statements from {path}\n"⟩
  | .error (.unreadable path failure) =>
    ⟨1, s!"Error processing file: {readingMessage path}: {failure.message}\n"⟩
  | .error (.fault fault) => .ofFault fault

/-- Does what a list of arguments asks for. -/
def runArguments {m : Type → Type} [Monad m] [FileStore m] (arguments : List String) :
    m Outcome :=
  match Command.ofArguments arguments with
  | .cleanUp path => return .ofCleanUp path (← cleanUpFile path)
  | .shortHelp => return ⟨0, shortHelpText⟩
  | .longHelp => return ⟨0, longHelpText⟩
  | .version => return ⟨0, versionText⟩
  | .invalid => return ⟨1, usageText⟩

/-- Cleans up what is given on standard input.  Bytes that are no text are
refused without a word. -/
def runFilter (input : Bytes) : Outcome :=
  match Bytes.decode? input with
  | none => ⟨1, ""⟩
  | some text =>
    match cleanText text with
    | .ok output => ⟨0, output⟩
    | .error fault => .ofFault fault

end LogSweep
