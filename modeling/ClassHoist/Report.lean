import ClassHoist.Arguments
import ClassHoist.FileReport

/-! # The report of a run

The report for people shows the files that changed, unless they were written, and ends with a line
of counts. The one in JSON is an array with a record for every file that was processed.
-/

namespace ClassHoist

/-- How many files there were, how many of them were processed and changed, and how many could not
be processed. -/
structure Summary where
  files : Nat
  changed : Nat
  failed : Nat
  deriving DecidableEq, Repr

/-- The line of counts. -/
def Summary.line (summary : Summary) : String :=
  let noun := if summary.files = 1 then "file" else "files"
  s!"svelte-deep-classes processed {summary.files} {noun}: {summary.changed} rewritten, "
    ++ s!"{summary.failed} failed"

namespace FileReport

/-- The result, if there is one. -/
def processed? (report : FileReport) : Option Processed :=
  match report.outcome with
  | .ok processed => some processed
  | .error _ => none

/-- The failure, if there is one. -/
def failure? (report : FileReport) : Option FileFailure :=
  match report.outcome with
  | .ok _ => none
  | .error failure => some failure

/-- The file was processed and changed. -/
def isChanged (report : FileReport) : Bool := report.processed?.any (!·.unchanged)

/-- The new text of a file that changed, under a line with its path. -/
def shown (report : FileReport) : Text :=
  match report.processed? with
  | some processed =>
    if processed.unchanged then []
    else
      let ending := if processed.code.getLast? = some '\n' then [] else ['\n']
      "=== ".toList ++ report.path.spelling ++ " ===\n".toList ++ processed.code ++ ending
  | none => []

/-- The record of a file that was processed; the members of its map are in the order of their
names. -/
def record? (report : FileReport) : Option Json :=
  report.processed?.map fun processed =>
    .object [("filename", .string (String.ofList report.path.spelling)),
      ("code", .string (String.ofList processed.code)),
      ("map", (processed.map.map (·.toJson.sortMembers)).getD .null),
      ("unchanged", .bool processed.unchanged)]

end FileReport

/-- The counts of a run. -/
def Summary.ofReports (reports : List FileReport) : Summary where
  files := reports.length
  changed := reports.countP FileReport.isChanged
  failed := (reports.filterMap FileReport.failure?).length

/-- Everything that a run prints: what goes to the standard output, the failures of files, the lines
after these, and the counts. -/
structure Report where
  output : String
  failures : List FileFailure
  notes : List String
  summary : Summary

/-- The report of a run in one of the forms; `written` says that processed files were written. -/
def Report.ofReports (format : ReportFormat) (written : Bool) (reports : List FileReport) :
    Report where
  output :=
    match format with
    | .human => if written then "" else String.ofList (reports.flatMap FileReport.shown)
    | .json => (Json.array (reports.filterMap FileReport.record?)).indented 0 ++ "\n"
  failures := reports.filterMap FileReport.failure?
  notes :=
    match format with
    | .human => [(Summary.ofReports reports).line]
    | .json => []
  summary := Summary.ofReports reports

end ClassHoist
