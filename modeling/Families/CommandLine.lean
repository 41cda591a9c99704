import Families.Document.Decode
import Families.ModuleCheck
import Families.Summary

/-!
# The command line

A module is read from a file and checked.  Summaries of the datatypes that were accepted are
printed, and reports about the rest.
-/

namespace Families
namespace CommandLine

/-- What the command line asks for. -/
inductive Request where
  /-- Nothing was given to check. -/
  | nothing
  /-- A file that cannot be read. -/
  | unreadable
  /-- A file with a text. -/
  | check (text : String)

/-- What the command line leaves behind. -/
inductive Outcome where
  /-- It ended with an exit code, an output, and reports. -/
  | exited (code : Nat) (output reports : String)
  /-- The check was given up. -/
  | halted

/-- The reminder of how the command line is used. -/
def usage : String := "usage: dcheck <module.ron>\n"

/-- Prints the result of a check. -/
def present (names : NameTable) (result : Diagnosed (List CertifiedDatatype)) : Outcome :=
  let output :=
    match result.value with
    | none => ""
    | some certified => (Document.list (certified.map (·.summary names))).toText ++ "\n"
  let reports := String.join (result.reports.map Report.render)
  .exited (if result.hasErrors then 1 else 0) output reports

/-- Checks a module and prints the result. -/
def checkModule (module : Module) : Outcome :=
  let checker := Checker.initial module.options .patterns Checker.defaultFuel
  let outcome := (CheckM.checkDeclarations module.declarations).run checker
  match outcome.result with
  | .ok result => present outcome.state.names result
  | .error _ => .halted

/-- Answers a request. -/
def run : Request → Outcome
  | .nothing => .exited 1 "" usage
  | .unreadable => .exited 1 "" ""
  | .check text =>
    match Module.ofText? text with
    | none => .exited 1 "" ""
    | some module => checkModule module

end CommandLine
end Families
