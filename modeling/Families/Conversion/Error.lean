import Families.Phrase.Text

/-!
# Conversion errors

Why two phrases cannot be made equal, why a sort is not below another, and why a term has no type.
-/

namespace Families

/-- Why a comparison or an inference fails. -/
inductive ConversionError where
  /-- The terms differ. -/
  | unequalTerms (left right : Term)
  /-- The sorts differ. -/
  | unequalSorts (left right : Universe)
  /-- The left sort is not below the right one. -/
  | sortNotBelow (left right : Universe)
  /-- The levels differ. -/
  | unequalLevels (left right : Level)
  /-- The left level is not below the right one. -/
  | levelNotBelow (left right : Level)
  /-- A placeholder would occur in its own solution. -/
  | occursCheck (id : Nat)
  /-- A placeholder's solution would mention a variable outside its scope. -/
  | outOfScope (id variableIndex : Nat)
  /-- A placeholder may not stand for this sort. -/
  | sortCeiling (id : Nat) (sort : Universe)
  /-- A term that is applied has no function type. -/
  | expectedFunctionType (term : Term)
  /-- A term that is used as a type has no sort. -/
  | expectedSort (term : Term)
  /-- An argument is given in another way than its binder says. -/
  | plicityMismatch (expected found : Plicity)
  /-- Nothing has the path. -/
  | unknownConstant (path : Path)
deriving DecidableEq

namespace ConversionError

/-- The wording of an error. -/
def message (names : NameTable) : ConversionError → String
  | unequalTerms left right =>
    "`" ++ left.display names ++ "` is not equal to `" ++ right.display names ++ "`"
  | unequalSorts left right =>
    "sort `" ++ left.display names ++ "` is not equal to `" ++ right.display names ++ "`"
  | sortNotBelow left right =>
    "sort `" ++ left.display names ++ "` is not below `" ++ right.display names ++ "`"
  | unequalLevels left right =>
    "level `" ++ left.display names ++ "` is not equal to `" ++ right.display names ++ "`"
  | levelNotBelow left right =>
    "level `" ++ left.display names ++ "` is not below `" ++ right.display names ++ "`"
  | occursCheck id => "placeholder ?" ++ toString id ++ " would occur in its own solution"
  | outOfScope id variableIndex =>
    "placeholder ?" ++ toString id ++ " cannot depend on variable #" ++ toString variableIndex
  | sortCeiling id sort =>
    "placeholder ?" ++ toString id ++ " cannot be solved by `" ++ sort.display names ++ "`"
  | expectedFunctionType term =>
    "expected a function type, found `" ++ term.display names ++ "`"
  | expectedSort term => "expected a sort, found `" ++ term.display names ++ "`"
  | plicityMismatch expected found =>
    "expected an argument annotated " ++ expected.text ++ ", found " ++ found.text
  | unknownConstant path => "`" ++ names.display path ++ "` is not defined"

end ConversionError

end Families
