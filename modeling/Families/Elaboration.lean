import Families.Inference

/-!
# Elaboration

The term that an expression means in the current scope.  A term to be found becomes a placeholder,
which later comparisons solve.
-/

namespace Families
namespace CheckM

/-- The variable of a name. -/
def resolveVariable (text : String) : CheckM Term := do
  let name ← enterName text
  let checker ← get
  match checker.context.lookup? name with
  | some index => pure (.var index)
  | none => Attempt.fail (.scope (.unboundVariable text))

/-- The declaration of a name. -/
def resolveConstant (text : String) : CheckM Term := do
  let path ← enterPath text
  let checker ← get
  match checker.state.signature.definition? path with
  | some _ => pure (.const path)
  | none => Attempt.fail (.scope (.unknownConstant text))

/-- A term used as a type. -/
def asType (term : Term) : CheckM Ty := do
  let sort ← inferSort term
  pure (.classified sort term)

/-- A term used as a level.  What was written as a level needs no check. -/
def asLevel (expression : Expr) (term : Term) : CheckM Level :=
  match expression with
  | .levelLit _ => pure (Level.ofTerm term)
  | .levelSuc _ => pure (Level.ofTerm term)
  | .levelMax _ _ => pure (Level.ofTerm term)
  | _ => do
    let ty ← infer term
    equalTerm ty (.const Path.level)
    pure (Level.ofTerm term)

/-- A placeholder for a term of which nothing is known. -/
def freshHole : CheckM Term := do
  let sort ← freshSort false
  let ty ← freshTerm (.univ sort)
  freshTerm ty

mutual

/-- The term that an expression means. -/
def elaborate : Expr → CheckM Term
  | .var name => resolveVariable name
  | .const name => resolveConstant name
  | .app function arguments => do
    let function ← elaborate function
    let term ← elaborateArguments function arguments
    let _ ← infer term
    pure term
  | .pi name info domain codomain => do
    let name ← enterName name
    let domain ← elaborate domain
    let domain ← asType domain
    let codomain ← under [⟨name, info, domain⟩] do
      let codomain ← elaborate codomain
      asType codomain
    pure (.pi name info domain codomain)
  | .arrow domain codomain => do
    let name ← enterName "_"
    let domain ← elaborate domain
    let domain ← asType domain
    let codomain ← under [⟨name, {}, domain⟩] do
      let codomain ← elaborate codomain
      asType codomain
    pure (.pi name {} domain codomain)
  | .set level => pure (.univ (Universe.ofNat level))
  | .setAt level => do
    let term ← elaborate level
    let level ← asLevel level term
    pure (.univ (.set level))
  | .prop => pure (.univ .prop)
  | .setOmega => pure (.univ .omega)
  | .sizeUniv => pure (.univ .sizeUniv)
  | .levelLit level => pure (.level (Level.ofNat level))
  | .levelSuc level => do
    let term ← elaborate level
    let level ← asLevel level term
    let next ← (checked (Level.succ? level) : Except Halt _)
    pure (.level next)
  | .levelMax left right => do
    let leftTerm ← elaborate left
    let leftLevel ← asLevel left leftTerm
    let rightTerm ← elaborate right
    let rightLevel ← asLevel right rightTerm
    pure (.level (Level.join leftLevel rightLevel))
  | .hole => freshHole

/-- A term applied to what the arguments mean, from left to right. -/
def elaborateArguments (function : Term) : List (ArgMode × Expr) → CheckM Term
  | [] => pure function
  | (mode, argument) :: arguments => do
    let argument ← elaborate argument
    elaborateArguments (.app function argument mode.info) arguments

end

/-- The type that an expression means. -/
def elaborateType (expression : Expr) : CheckM Ty := do
  let term ← elaborate expression
  asType term

end CheckM
end Families
