/-!
# Reports

Messages to the user: errors, which say why something was rejected, and warnings.
-/

namespace Families

/-- How grave a report is. -/
inductive Severity where
  /-- Something was rejected. -/
  | error
  /-- Something deserves attention. -/
  | warning
deriving DecidableEq

/-- A message to the user. -/
structure Report where
  /-- How grave it is. -/
  severity : Severity
  /-- A short word for its cause. -/
  code : Option String := none
  /-- What happened. -/
  message : Option String := none
  /-- A remark to end on. -/
  note : Option String := none
deriving DecidableEq

namespace Report

/-- The text of a report, one line for its message and one for its note. -/
def render (report : Report) : String :=
  (match report.severity with
    | .error => "error"
    | .warning => "warning") ++
  (match report.code with
    | some code => "[" ++ code ++ "]"
    | none => "") ++
  (match report.message with
    | some message => ": " ++ message
    | none => "") ++
  "\n" ++
  (match report.note with
    | some note => "  = note: " ++ note ++ "\n"
    | none => "")

end Report

end Families
