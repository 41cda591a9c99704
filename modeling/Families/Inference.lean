import Families.Checker

/-!
# Inference

The type of a term in the current scope.  Checking an application may solve placeholders.
-/

namespace Families
namespace CheckM

/-- The type of a variable. -/
def inferVariable (index : Nat) : CheckM Term := do
  let checker ← get
  match ← (checked (checker.context.typeOf? index) : Except Halt _) with
  | some ty => pure ty.term
  | none => Attempt.fault (.variableEscapes index checker.context.length)

/-- The type of a declaration. -/
def inferConstant (path : Path) : CheckM Term := do
  let checker ← get
  match checker.state.signature.definition? path with
  | some definition => pure definition.ty.term
  | none => Attempt.fail (.conversion (.unknownConstant path))

/-- The type of a placeholder. -/
def inferPlaceholder (id : Nat) (arguments : Phrase .terms) : CheckM Term := do
  let checker ← get
  match checker.state.placeholders[id]? with
  | some ⟨_, .term ty, _⟩ => (checked (ty.substitute? arguments.toList) : Except Halt _)
  | _ => Attempt.fault (.notATermPlaceholder id)

/-- The type of a phrase that is a term. -/
def inferPhrase : {category : Category} → Phrase category → category = .term → CheckM Term
  | _, .var index, _ => inferVariable index
  | _, .const path, _ => inferConstant path
  | _, .app function argument info, _ => do
    let functionType ← inferPhrase function rfl
    match ← reduce functionType with
    | .pi _ domainInfo domain codomain =>
      if domainInfo.plicity = info.plicity then do
        let argumentType ← inferPhrase argument rfl
        equalTerm argumentType domain.term
        (checked (codomain.term.instantiate? argument) : Except Halt _)
      else
        Attempt.fail
          (.conversion (.plicityMismatch domainInfo.plicity info.plicity))
    | other => Attempt.fail (.conversion (.expectedFunctionType other))
  | _, .pi _ _ domain codomain, _ => do
    let sort ← piSort domain.sort codomain.sort
    pure (.univ sort)
  | _, .univ sort, _ => do
    let above ← (checked (Universe.succ? sort) : Except Halt _)
    pure (.univ above)
  | _, .level _, _ => pure (.const Path.level)
  | _, .placeholder id arguments, _ => inferPlaceholder id arguments
  | _, .classified _ _, isTerm => nomatch isTerm
  | _, .prop, isTerm => nomatch isTerm
  | _, .set _, isTerm => nomatch isTerm
  | _, .sizeUniv, isTerm => nomatch isTerm
  | _, .omega, isTerm => nomatch isTerm
  | _, .sortPlaceholder _ _, isTerm => nomatch isTerm
  | _, .lub _ _, isTerm => nomatch isTerm
  | _, .noAtoms, isTerm => nomatch isTerm
  | _, .atom _ _ _, isTerm => nomatch isTerm
  | _, .noTerms, isTerm => nomatch isTerm
  | _, .terms _ _, isTerm => nomatch isTerm

/-- The type of a term. -/
def infer (term : Term) : CheckM Term :=
  inferPhrase term rfl

/-- The sort of a term that is used as a type. -/
def inferSort (term : Term) : CheckM Universe := do
  let ty ← infer term
  match ← reduce ty with
  | .univ sort => pure sort
  | .placeholder id arguments => do
    let sort ← freshSort false
    equalTerm (.placeholder id arguments) (.univ sort)
    pure sort
  | other => Attempt.fail (.conversion (.expectedSort other))

end CheckM
end Families
