import Std.Data.TreeMap
import LogSweep.Cleanup
import LogSweep.QuotedPath

/-!
# Files

A file is cleaned up in place: read whole, and written whole even if nothing
was found in it.  If it cannot be read as text, nothing is written.  The same
steps run on the files of the system and on a `Directory`, a plain value.
-/

namespace LogSweep

/-- Why a file could not be read. -/
inductive ReadFailure where
  | missing
  | isDirectory
  | invalidText
  deriving DecidableEq, Repr

def ReadFailure.message : ReadFailure → String
  | .missing => "No such file or directory (os error 2)"
  | .isDirectory => "Is a directory (os error 21)"
  | .invalidText => "stream did not contain valid UTF-8"

/-- Why a file could not be cleaned up. -/
inductive CleanUpError where
  | unreadable (path : String) (failure : ReadFailure)
  | fault (fault : Fault)
  deriving DecidableEq, Repr

/-- What was being done with the file at a path when it could not be read. -/
def readingMessage (path : String) : String :=
  "reading " ++ quotedPath path

/-- Files by their paths. -/
class FileStore (m : Type → Type) where
  read : String → m (Except ReadFailure Bytes)
  write : String → Bytes → m Unit

/-- The report on a file with these contents. -/
def fileReport (path : String) (contents : Except ReadFailure Bytes) :
    Except CleanUpError Report := do
  let bytes ← contents.mapError (.unreadable path)
  match Bytes.decode? bytes with
  | none => .error (.unreadable path .invalidText)
  | some text => (cleanUp text).mapError .fault

/-- Cleans up the file at a path. -/
def cleanUpFile {m : Type → Type} [Monad m] [FileStore m] (path : String) :
    m (Except CleanUpError Report) := do
  let contents ← FileStore.read path
  match fileReport path contents with
  | .error error => return .error error
  | .ok report =>
    FileStore.write path (Bytes.ofString report.text)
    return .ok report

/-- What a name in a directory stands for. -/
inductive Entry where
  | file (contents : Bytes)
  | directory
  deriving DecidableEq, Repr

/-- The entries of one directory by name. -/
abbrev Directory := Std.TreeMap String Entry

/-- A directory without files.  It still names itself and its parent. -/
def Directory.fresh : Directory :=
  .ofList [(".", Entry.directory), ("..", Entry.directory)]

/-- The contents of the file with a name. -/
def Directory.read (directory : Directory) (name : String) : Except ReadFailure Bytes :=
  match directory.get? name with
  | none => .error .missing
  | some .directory => .error .isDirectory
  | some (.file contents) => .ok contents

/-- Gives a name the contents of a file. -/
def Directory.write (directory : Directory) (name : String) (contents : Bytes) : Directory :=
  directory.insert name (.file contents)

instance : FileStore (StateM Directory) where
  read name := return (← get).read name
  write name contents := modify (·.write name contents)

end LogSweep
