import Families.Failure
import Families.Report

/-!
# Results with reports

A computation over many declarations goes on after one of them fails.  Its result keeps the reports
of all of them beside the value, if there is one.
-/

namespace Families

/-- A value, if there is one, and what there is to say about it. -/
structure Diagnosed (α : Type) where
  /-- The value, unless the computation failed. -/
  value : Option α
  /-- The reports, oldest first. -/
  reports : List Report
deriving DecidableEq

namespace Diagnosed

variable {α β : Type}

/-- A value without reports. -/
def ok (value : α) : Diagnosed α :=
  ⟨some value, []⟩

/-- A failure, which has to be explained by an error. -/
def fail (report : Report) : Except Halt (Diagnosed α) :=
  if report.severity = .error then
    .ok ⟨none, [report]⟩
  else
    .error (.fault .failureWithoutError)

/-- Applies a function to the value. -/
def map (f : α → β) (result : Diagnosed α) : Diagnosed β :=
  ⟨result.value.map f, result.reports⟩

/-- Goes on with the value, keeping the reports so far. -/
def bind (result : Diagnosed α) (f : α → Diagnosed β) : Diagnosed β :=
  match result.value with
  | some value => ⟨(f value).value, result.reports ++ (f value).reports⟩
  | none => ⟨none, result.reports⟩

/-- Adds a report. -/
def report (result : Diagnosed α) (report : Report) : Diagnosed α :=
  ⟨result.value, result.reports ++ [report]⟩

/-- Turns a failure into a value. -/
def recover (result : Diagnosed α) : Diagnosed (Option α) :=
  ⟨some result.value, result.reports⟩

/-- All values there are, with all reports. -/
def collect (results : List (Diagnosed α)) : Diagnosed (List α) :=
  results.foldl
    (fun collected result => collected.bind fun values =>
      result.recover.bind fun value => ok (values ++ value.toList))
    (ok [])

/-- There is an error among the reports. -/
def hasErrors (result : Diagnosed α) : Bool :=
  result.reports.any (·.severity == .error)

/-- The value, where errors are not expected. -/
def get (result : Diagnosed α) : Except Halt α :=
  if result.hasErrors then
    .error (.fault .unexpectedErrors)
  else
    match result.value with
    | some value => .ok value
    | none => .error (.fault .missingValue)

end Diagnosed

end Families
