import LogSweep.CommandLine
import LogSweep.Proofs.CleaningTwice

/-!
# Requests to clean up files

A request to clean up the file at a path, be it to the function or to the
command, either fails and leaves the directory as it is, or replaces the
contents of that one file by what the filter would print for them.  Which of
the two depends on the file alone, since cleaning up a text never fails.  So a
request that fails can be left out of any sequence of requests.
-/

namespace LogSweep

open Bytes

/-! ## The file at a path -/

/-- Why no text can be read at a path. -/
inductive IsUnreadable (directory : Directory) (path : String) : ReadFailure → Prop where
  | missing :
      directory.get? path = none → IsUnreadable directory path .missing
  | isDirectory :
      directory.get? path = some .directory → IsUnreadable directory path .isDirectory
  | invalidText {contents : Bytes} :
      directory.get? path = some (.file contents) → ¬ IsText contents →
      IsUnreadable directory path .invalidText

section

variable (directory : Directory) (path : String)

theorem Directory.get?_write_self (contents : Bytes) :
    (directory.write path contents).get? path = some (.file contents) := by
  unfold Directory.write
  rw [Std.TreeMap.get?_eq_getElem?, Std.TreeMap.getElem?_insert_self]

theorem Directory.get?_write_of_ne {path other : String} (hother : other ≠ path)
    (contents : Bytes) :
    (directory.write path contents).get? other = directory.get? other := by
  unfold Directory.write
  rw [Std.TreeMap.get?_eq_getElem?, Std.TreeMap.get?_eq_getElem?,
    Std.TreeMap.getElem?_insert, if_neg]
  rw [Std.LawfulEqCmp.compare_eq_iff_eq]
  exact hother.symm

/-- A path leads to a text, or something stands in the way. -/
theorem exists_text_or_isUnreadable :
    (∃ text, directory.get? path = some (.file (ofString text))) ∨
      ∃ failure, IsUnreadable directory path failure := by
  cases hentry : directory.get? path with
  | none => exact Or.inr ⟨_, .missing hentry⟩
  | some entry =>
      cases entry with
      | directory => exact Or.inr ⟨_, .isDirectory hentry⟩
      | file contents =>
          by_cases htext : IsText contents
          · rcases htext with ⟨text, rfl⟩
            exact Or.inl ⟨text, rfl⟩
          · exact Or.inr ⟨_, .invalidText hentry htext⟩

variable {directory path}

theorem IsUnreadable.get?_ne {failure : ReadFailure}
    (hunreadable : IsUnreadable directory path failure) (text : String) :
    directory.get? path ≠ some (.file (ofString text)) := by
  intro hentry
  cases hunreadable with
  | missing hmissing => rw [hmissing] at hentry; cases hentry
  | isDirectory hdirectory => rw [hdirectory] at hentry; cases hentry
  | invalidText hfile htext =>
      rw [hfile] at hentry
      cases hentry
      exact htext ⟨text, rfl⟩

theorem IsUnreadable.fileReport {failure : ReadFailure}
    (hunreadable : IsUnreadable directory path failure) :
    fileReport path (directory.read path) = .error (.unreadable path failure) := by
  unfold LogSweep.fileReport Directory.read
  cases hunreadable with
  | missing hentry => rw [hentry]; rfl
  | isDirectory hentry => rw [hentry]; rfl
  | @invalidText contents hentry htext =>
      have hdecode : decode? contents = none := by
        cases hdecode : decode? contents with
        | none => rfl
        | some text => exact absurd ⟨text, decode?_eq_some_iff.mp hdecode⟩ htext
      rw [hentry]
      simp [Except.mapError, bind, Except.bind, hdecode]

theorem fileReport_of_text {text : String} {report : Report}
    (hentry : directory.get? path = some (.file (ofString text)))
    (hreport : cleanUp text = .ok report) :
    fileReport path (directory.read path) = .ok report := by
  unfold fileReport Directory.read
  rw [hentry]
  simp [Except.mapError, bind, Except.bind, decode?_ofString, hreport]

end

/-! ## Function, command and filter -/

/-- The function on a directory: it writes only what a report gives. -/
theorem run_cleanUpFile (directory : Directory) (path : String) :
    (cleanUpFile (m := StateM Directory) path).run directory =
      match fileReport path (directory.read path) with
      | .error error => (.error error, directory)
      | .ok report => (.ok report, directory.write path (ofString report.text)) := by
  unfold cleanUpFile
  cases hreport : fileReport path (directory.read path) with
  | error error =>
      simp only [FileStore.read, StateT.run_bind, StateT.run_get, StateT.run_pure, pure_bind,
        hreport]
      rfl
  | ok report =>
      simp only [FileStore.read, FileStore.write, StateT.run_bind, StateT.run_get,
        StateT.run_modify, StateT.run_pure, pure_bind, hreport]
      rfl

/-- The command on a directory: what it is asked to clean up, the function does. -/
theorem run_runArguments_of_cleanUp {arguments : List String} {path : String}
    (hcommand : Command.ofArguments arguments = .cleanUp path) (directory : Directory) :
    (runArguments (m := StateM Directory) arguments).run directory =
      (.ofCleanUp path ((cleanUpFile (m := StateM Directory) path).run directory).1,
        ((cleanUpFile (m := StateM Directory) path).run directory).2) := by
  unfold runArguments
  rw [hcommand]
  rfl

theorem ofArguments_onlyPaths {path : String} (hpath : path ≠ "") :
    Command.ofArguments ["--", path] = .cleanUp path := by
  simp [Command.ofArguments, Command.read, Argument.read, Argument.ofPath, hpath]

theorem runFilter_ofString {text output : String} (houtput : cleanText text = .ok output) :
    runFilter (ofString text) = ⟨0, output⟩ := by
  unfold runFilter
  rw [decode?_ofString]
  simp only [houtput]

/-- Function and command say why the file cannot be read, and touch nothing. -/
structure RefusesFile (directory : Directory) (path : String) (failure : ReadFailure) :
    Prop where
  function :
    (cleanUpFile (m := StateM Directory) path).run directory =
      (.error (.unreadable path failure), directory)
  command :
    (runArguments (m := StateM Directory) ["--", path]).run directory =
      (⟨1, s!"Error processing file: {readingMessage path}: {failure.message}\n"⟩,
        directory)

/-- Function and command replace the text in the file by that of the report,
which the filter prints for it. -/
structure ReplacesFile (directory : Directory) (path text : String) (report : Report)
    (final : Directory) : Prop where
  function :
    (cleanUpFile (m := StateM Directory) path).run directory = (.ok report, final)
  command :
    (runArguments (m := StateM Directory) ["--", path]).run directory =
      (⟨0, s!"Successfully removed console logging statements from {path}\n"⟩, final)
  contents : final.get? path = some (.file (ofString report.text))
  others : ∀ other, other ≠ path → final.get? other = directory.get? other
  filter : runFilter (ofString text) = ⟨0, report.text⟩

section

variable {directory : Directory} {path : String} (hpath : path ≠ "")

include hpath

theorem IsUnreadable.refusesFile {failure : ReadFailure}
    (hunreadable : IsUnreadable directory path failure) :
    RefusesFile directory path failure := by
  have hfunction : (cleanUpFile (m := StateM Directory) path).run directory =
      (.error (.unreadable path failure), directory) := by
    rw [run_cleanUpFile, hunreadable.fileReport]
  refine ⟨hfunction, ?_⟩
  rw [run_runArguments_of_cleanUp (ofArguments_onlyPaths hpath), hfunction]
  rfl

theorem replacesFile_of_text {text : String} {report : Report}
    (hentry : directory.get? path = some (.file (ofString text)))
    (hreport : cleanUp text = .ok report)
    (hcleaned : cleanText text = .ok report.text) :
    ReplacesFile directory path text report
      (directory.write path (ofString report.text)) := by
  have hfunction : (cleanUpFile (m := StateM Directory) path).run directory =
      (.ok report, directory.write path (ofString report.text)) := by
    rw [run_cleanUpFile, fileReport_of_text hentry hreport]
  refine ⟨hfunction, ?_, directory.get?_write_self path _, ?_,
    runFilter_ofString hcleaned⟩
  · rw [run_runArguments_of_cleanUp (ofArguments_onlyPaths hpath), hfunction]
    rfl
  · intro other hother
    exact directory.get?_write_of_ne hother _

end

/-! ## Sequences of requests -/

/-- A request to the function, to the command or to the filter. -/
inductive Request where
  | cleanUp (path : String)
  | command (arguments : List String)
  | filter (input : Bytes)

inductive Answer where
  | report (result : Except CleanUpError Report)
  | outcome (ended : Outcome)

/-- Whether the answer tells of an error. -/
def Answer.IsFailure : Answer → Prop
  | .report result => ∃ error, result = .error error
  | .outcome ended => ended.exitCode ≠ 0

def Request.answer : Request → StateM Directory Answer
  | .cleanUp path => return .report (← cleanUpFile path)
  | .command arguments => return .outcome (← runArguments arguments)
  | .filter input => return .outcome (runFilter input)

/-- The answers to one request after the other. -/
def answers (requests : List Request) : StateM Directory (List Answer) :=
  requests.mapM Request.answer

theorem run_answers_cons (request : Request) (requests : List Request)
    (directory : Directory) :
    (answers (request :: requests)).run directory =
      ((request.answer.run directory).1 ::
          ((answers requests).run (request.answer.run directory).2).1,
        ((answers requests).run (request.answer.run directory).2).2) := by
  unfold answers
  rw [List.mapM_cons]
  rfl

theorem run_answers_append (before after : List Request) (directory : Directory) :
    (answers (before ++ after)).run directory =
      (((answers before).run directory).1 ++
          ((answers after).run ((answers before).run directory).2).1,
        ((answers after).run ((answers before).run directory).2).2) := by
  unfold answers
  rw [List.mapM_append]
  rfl

theorem length_answers (requests : List Request) (directory : Directory) :
    ((answers requests).run directory).1.length = requests.length := by
  induction requests generalizing directory with
  | nil => rfl
  | cons request requests ih =>
      rw [run_answers_cons, List.length_cons, List.length_cons, ih]

theorem run_cleanUpFile_of_error {directory : Directory} {path : String}
    {error : CleanUpError}
    (herror : ((cleanUpFile (m := StateM Directory) path).run directory).1 =
      .error error) :
    ((cleanUpFile (m := StateM Directory) path).run directory).2 = directory := by
  rw [run_cleanUpFile] at herror ⊢
  cases hreport : fileReport path (directory.read path) with
  | error error => rfl
  | ok report => simp [hreport] at herror

/-- A request that fails leaves the directory as it is. -/
theorem Request.run_answer_of_isFailure {request : Request} {directory : Directory}
    (hfails : (request.answer.run directory).1.IsFailure) :
    (request.answer.run directory).2 = directory := by
  cases request with
  | cleanUp path =>
      rcases hfails with ⟨error, herror⟩
      exact run_cleanUpFile_of_error herror
  | command arguments =>
      change ((runArguments (m := StateM Directory) arguments).run directory).2 = directory
      change ((runArguments (m := StateM Directory) arguments).run
        directory).1.exitCode ≠ 0 at hfails
      cases hcommand : Command.ofArguments arguments with
      | cleanUp path =>
          rw [run_runArguments_of_cleanUp hcommand] at hfails ⊢
          cases hresult : ((cleanUpFile (m := StateM Directory) path).run directory).1 with
          | error error => exact run_cleanUpFile_of_error hresult
          | ok report =>
              rw [hresult] at hfails
              exact absurd rfl hfails
      | shortHelp | longHelp | version | invalid =>
          unfold runArguments
          rw [hcommand]
          rfl
  | filter input => rfl

/-- Leaving out the request between `before` and `after` leaves the other
answers and the directory at the end as they are. -/
def IsDispensable (directory : Directory) (before : List Request) (request : Request)
    (after : List Request) : Prop :=
  ∃ earlier answer later final, earlier.length = before.length ∧
    (answers (before ++ request :: after)).run directory =
      (earlier ++ answer :: later, final) ∧
    (answers (before ++ after)).run directory = (earlier ++ later, final)

theorem isDispensable_of_isFailure {directory : Directory} {before after : List Request}
    {request : Request}
    (hfails : (request.answer.run ((answers before).run directory).2).1.IsFailure) :
    IsDispensable directory before request after := by
  have hreached := Request.run_answer_of_isFailure hfails
  refine ⟨_, (request.answer.run ((answers before).run directory).2).1, _, _,
    length_answers before directory, ?_, run_answers_append _ _ _⟩
  rw [run_answers_append, run_answers_cons, hreached]

/-- Where a file can be read as a text, function and command replace just its
contents by the text that the filter prints for it; otherwise both fail and
change nothing.  A request that fails can be left out of every sequence. -/
theorem cleanUpFile_changes_only_text_files {path : String} (hpath : path ≠ "")
    (directory : Directory) :
    ((∃ failure, IsUnreadable directory path failure ∧
        RefusesFile directory path failure) ∨
      ∃ text report final, directory.get? path = some (.file (ofString text)) ∧
        cleanUp text = .ok report ∧
        ReplacesFile directory path text report final) ∧
    ∀ before request after,
      (request.answer.run ((answers before).run directory).2).1.IsFailure →
        IsDispensable directory before request after := by
  refine ⟨?_, fun before request after => isDispensable_of_isFailure⟩
  rcases exists_text_or_isUnreadable directory path with
    ⟨text, hentry⟩ | ⟨failure, hunreadable⟩
  · obtain ⟨swept, -, hreport, hcleaned⟩ := exists_cleanUp text
    exact Or.inr ⟨text, _, _, hentry, hreport,
      replacesFile_of_text hpath hentry hreport hcleaned⟩
  · exact Or.inl ⟨failure, hunreadable, hunreadable.refusesFile hpath⟩

/-- A directory with one file: that file is cleaned up, another is missing. -/
theorem cleanUpFile_changes_only_text_files_sole_file :
    ∃ directory final,
      ReplacesFile directory "a.js" "console.log(1);\nrun();\n"
          ⟨"run();\n", [.removed ⟨.log, 0, 1⟩]⟩ final ∧
        RefusesFile directory "b.js" .missing ∧
        IsDispensable directory [.filter [255]] (.cleanUp "b.js") [.cleanUp "a.js"] := by
  have htext := (∅ : Directory).get?_write_self "a.js" (ofString "console.log(1);\nrun();\n")
  have hother := (∅ : Directory).get?_write_of_ne (by decide : "b.js" ≠ "a.js")
    (ofString "console.log(1);\nrun();\n")
  generalize (∅ : Directory).write "a.js" (ofString "console.log(1);\nrun();\n") = directory
    at htext hother
  have hmissing : directory.get? "b.js" = none := hother.trans rfl
  have hreported : cleanUp "console.log(1);\nrun();\n" =
      .ok ⟨"run();\n", [.removed ⟨.log, 0, 1⟩]⟩ := by
    decide +kernel
  have hrefuses : RefusesFile directory "b.js" .missing := by
    rcases (cleanUpFile_changes_only_text_files (by decide : "b.js" ≠ "") directory).1 with
      ⟨failure, hunreadable, hrefuses⟩ | ⟨text, report, final, hentry, -⟩
    · cases hunreadable with
      | missing => exact hrefuses
      | isDirectory hentry =>
          rw [hmissing] at hentry
          cases hentry
      | invalidText hentry =>
          rw [hmissing] at hentry
          cases hentry
    · rw [hmissing] at hentry
      cases hentry
  rcases cleanUpFile_changes_only_text_files (by decide : "a.js" ≠ "") directory with
    ⟨houtcome, hfailing⟩
  rcases houtcome with
    ⟨failure, hunreadable, -⟩ | ⟨text, report, final, hentry, hreport, hreplaces⟩
  · exact absurd htext (hunreadable.get?_ne _)
  · rw [htext, Option.some_inj, Entry.file.injEq] at hentry
    have hsame := ofString_injective hentry
    subst hsame
    have hfails := hfailing [.filter [255]] (.cleanUp "b.js") [.cleanUp "a.js"]
      ⟨_, congrArg Prod.fst hrefuses.function⟩
    have hsame := hreported.symm.trans hreport
    cases hsame
    exact ⟨directory, final, hreplaces, hrefuses, hfails⟩

end LogSweep
