import Families.Datatype.Check
import Families.Diagnosed

/-!
# Modules

Declarations are checked in order.  One that fails is reported and leaves nothing behind, and the
ones after it are checked all the same.
-/

namespace Families
namespace CheckM

/-- Declares a path with the type that an expression means. -/
def declare (name : String) (ty : Expr) (kind : Kind) : CheckM Unit := do
  let path ← enterPath name
  speculate do
    let ty ← elaborateType ty
    register ⟨path, ty, kind⟩

/-- Brings the arguments of a function into scope.  The result is what is left of its type. -/
def bindArguments : (parameters : List String) → Term → CheckM Term
  | [], ty => pure ty
  | parameter :: parameters, ty => do
    match ← reduce ty with
    | .pi _ info domain codomain => do
      let name ← enterName parameter
      push ⟨name, info, domain⟩
      bindArguments parameters codomain.term
    | other => Attempt.fail (.conversion (.expectedFunctionType other))

/-- Checks the body of a function against its type, leaving the arguments in scope. -/
def checkBody (ty : Ty) (parameters : List String) (body : Expr) : CheckM Term := do
  let expected ← bindArguments parameters ty.term
  let term ← elaborate body
  let inferred ← infer term
  equalTerm inferred expected
  normalise term

/-- Checks a function and adds it to the signature. -/
def checkFunction (name : String) (ty : Expr) (parameters : List String) (body : Option Expr) :
    CheckM Unit := do
  let path ← enterPath name
  speculate do
    let ty ← elaborateType ty
    let body ←
      match body with
      | none => pure none
      | some body => do
        let term ← restoreScope (checkBody ty parameters body)
        pure (some term)
    register ⟨path, ty, .function parameters.length body⟩

/-- Checks a declaration.  A datatype is certified. -/
def checkDeclaration : Declaration → CheckM (Option CertifiedDatatype)
  | .postulate name ty => do
    declare name ty .postulate
    pure none
  | .dataSignature name ty => do
    declare name ty .dataSignature
    pure none
  | .record name ty induction => do
    declare name ty (.record induction)
    pure none
  | .function name ty parameters body => do
    checkFunction name ty parameters body
    pure none
  | .data definition => do
    let certified ← checkData definition
    pure (some certified)

/-- Checks a declaration, turning an error into a report. -/
def diagnoseDeclaration (declaration : Declaration) :
    CheckM (Diagnosed (Option CertifiedDatatype)) where
  run before :=
    let outcome := (checkDeclaration declaration).run before
    { outcome with
      result :=
        match outcome.result with
        | .ok certified => .ok (.ok certified)
        | .error (.halt reason) => .error (.halt reason)
        | .error (.error error) =>
          match Diagnosed.fail (error.report outcome.state.names) with
          | .ok result => .ok result
          | .error reason => .error (.halt reason) }

/-- The warning about comparisons that remain postponed. -/
def constraintWarning (state : State) : Option Report :=
  if state.constraints.isEmpty then
    none
  else
    some
      { severity := .warning
        code := some "unsolved-constraints"
        message := some (toString state.constraints.length ++ " constraints could not be solved") }

/-- The complete declarations whose normalised types contain placeholders. -/
def unsolvedDefinitions (state : State) (fuel : Nat) : Except Halt (List Path) := do
  let unsolved ← state.signature.definitions.filterM fun definition => do
    let term ← Families.normalise state fuel definition.ty.term
    pure term.hasPlaceholder
  pure (unsolved.map (·.path))

/-- The warning about types that contain placeholders. -/
def placeholderWarning (names : NameTable) (unsolved : List Path) : Option Report :=
  if unsolved.isEmpty then
    none
  else
    some
      { severity := .warning
        code := some "unsolved-placeholders"
        message := some ("the types of " ++
          String.intercalate ", " (unsolved.map names.display) ++
          " contain unsolved placeholders") }

/-- Checks declarations in order and certifies the datatypes among them. -/
def checkDeclarations (declarations : List Declaration) :
    CheckM (Diagnosed (List CertifiedDatatype)) := do
  let results ← declarations.mapM diagnoseDeclaration
  let certified := (Diagnosed.collect results).map fun values => values.filterMap id
  let checker ← get
  let unsolved ← (unsolvedDefinitions checker.state checker.fuel : Except Halt _)
  let warnings :=
    (constraintWarning checker.state).toList ++ (placeholderWarning checker.names unsolved).toList
  pure (warnings.foldl Diagnosed.report certified)

end CheckM
end Families
