import Families.Conversion.Error
import Families.Report
import Families.Signature

/-!
# Errors in declarations

Why a declaration is rejected, and how that is reported.
-/

namespace Families

/-- Why an expression means nothing. -/
inductive ScopeError where
  /-- No variable has the name. -/
  | unboundVariable (name : String)
  /-- No declaration has the name. -/
  | unknownConstant (name : String)
deriving DecidableEq

/-- Why a declaration is rejected. -/
inductive CheckError where
  /-- The sort of a datatype mentions its indices. -/
  | sortDependsOnIndices (datatype : Path)
  /-- A comparison or an inference failed. -/
  | conversion (error : ConversionError)
  /-- A constructor is not relevant. -/
  | irrelevantConstructor (constructor : Path)
  /-- A constructor does not end in its datatype applied to the parameters and to indices. -/
  | targetMismatch (constructor : Path) (target : Term)
  /-- A constructor, or the given argument of it, does not fit into the sort of its datatype. -/
  | sortContainment (constructor : Path) (argument : Option Nat) (sort : Universe)
      (error : ConversionError)
  /-- A datatype of propositions has several constructors. -/
  | propMustBeSingleton (datatype : Path) (constructors : Nat)
  /-- An index does not fit into the sort of its datatype. -/
  | indexSortTooLarge (datatype : Path) (index : Nat) (error : ConversionError)
  /-- A datatype has no type. -/
  | missingDataSignature (datatype : Path)
  /-- The signature refused a declaration. -/
  | signature (error : SignatureError)
  /-- An expression means nothing. -/
  | scope (error : ScopeError)
deriving DecidableEq

namespace CheckError

/-- A short word for the kind of an error. -/
def code : CheckError → String
  | sortDependsOnIndices _ => "sort-depends-on-indices"
  | conversion _ => "conversion"
  | irrelevantConstructor _ => "irrelevant-constructor"
  | targetMismatch _ _ => "constructor-target-mismatch"
  | sortContainment _ _ _ _ => "sort-containment"
  | propMustBeSingleton _ _ => "prop-must-be-singleton"
  | indexSortTooLarge _ _ _ => "index-sort-too-large"
  | missingDataSignature _ => "missing-data-signature"
  | signature _ => "signature"
  | scope _ => "elaboration"

/-- The wording of an error. -/
def message (names : NameTable) : CheckError → String
  | sortDependsOnIndices datatype =>
    "the sort of `" ++ names.display datatype ++ "` depends on its indices"
  | conversion error => error.message names
  | irrelevantConstructor constructor =>
    "constructor `" ++ names.display constructor ++ "` must be relevant"
  | targetMismatch constructor _ =>
    "constructor `" ++ names.display constructor ++
      "` does not construct an element of its datatype"
  | sortContainment constructor argument sort _ =>
    (match argument with
      | some argument => "argument " ++ toString argument ++ " of "
      | none => "") ++
    "constructor `" ++ names.display constructor ++
      "` does not fit in the datatype's sort `" ++ sort.display names ++ "`"
  | propMustBeSingleton datatype _ =>
    "datatype `" ++ names.display datatype ++
      "` lives in Prop, so it may have at most one constructor"
  | indexSortTooLarge datatype index _ =>
    "index " ++ toString index ++ " of `" ++ names.display datatype ++
      "` lives in a sort larger than the datatype"
  | missingDataSignature datatype =>
    "datatype `" ++ names.display datatype ++ "` has no type and no data signature"
  | signature error => error.message names
  | scope (.unboundVariable name) => "variable `" ++ name ++ "` is not in scope"
  | scope (.unknownConstant name) => "`" ++ name ++ "` is not defined"

/-- What is added to the wording. -/
def note (names : NameTable) : CheckError → Option String
  | targetMismatch _ target => some ("its target is `" ++ target.display names ++ "`")
  | sortContainment _ _ _ error => some (error.message names)
  | propMustBeSingleton _ constructors =>
    some ("it has " ++ toString constructors ++ " constructors")
  | indexSortTooLarge _ _ error => some (error.message names)
  | _ => none

/-- The report of an error. -/
def report (names : NameTable) (error : CheckError) : Report where
  severity := .error
  code := some error.code
  message := some (error.message names)
  note := error.note names

end CheckError

end Families
