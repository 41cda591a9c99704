import Families.Conversion.Assignment

/-!
# Equality and the order of sorts

Phrases are compared after reduction, part by part.  Names, the relevance of binders, the sorts of
types and irrelevant arguments do not count.  A comparison may solve placeholders, and it is
postponed where it cannot be decided before a placeholder is solved.
-/

namespace Families
namespace ConvM

/-- Makes two levels equal. -/
def equalLevel (fuel depth : Nat) (left right : Level) : ConvM Unit := do
  let state ← get
  let left ← normalise state fuel left
  let right ← normalise state fuel right
  if left = right then
    pure ()
  else
    match Level.asPlaceholder? left, Level.asPlaceholder? right with
    | some (id, arguments), _ => assignTerm fuel depth id arguments (.level right)
    | none, some (id, arguments) => assignTerm fuel depth id arguments (.level left)
    | none, none =>
      if left.hasPlaceholder || right.hasPlaceholder then
        postpone depth (.equalTerms (.level left) (.level right))
      else
        Attempt.fail (.unequalLevels left right)

/-- Checks that a level is at most another. -/
def leqLevel (fuel depth : Nat) (left right : Level) : ConvM Unit := do
  let state ← get
  let left ← normalise state fuel left
  let right ← normalise state fuel right
  if Level.below left right then
    pure ()
  else if left.hasPlaceholder || right.hasPlaceholder then
    postpone depth (.leqSorts (.set left) (.set right))
  else
    Attempt.fail (.levelNotBelow left right)

/-- Makes two sorts equal. -/
def equalSort (fuel depth : Nat) (left right : Universe) : ConvM Unit := do
  let state ← get
  let left ← reduce state fuel left
  let right ← reduce state fuel right
  if left = right then
    pure ()
  else
    match left, right with
    | .sortPlaceholder id arguments, right => assignSort fuel depth id arguments right
    | left, .sortPlaceholder id arguments => assignSort fuel depth id arguments left
    | .set left, .set right => equalLevel fuel depth left right
    | left, right => Attempt.fail (.unequalSorts left right)

/-- Checks that a sort is at most another. -/
def leqSort (fuel depth : Nat) (left right : Universe) : ConvM Unit := do
  let state ← get
  let left ← normalise state fuel left
  let right ← normalise state fuel right
  if left = right then
    pure ()
  else
    match left, right with
    | .sortPlaceholder _ _, _ => postpone depth (.leqSorts left right)
    | _, .sortPlaceholder _ _ => postpone depth (.leqSorts left right)
    | .sizeUniv, _ => Attempt.fail (.sortNotBelow left right)
    | _, .sizeUniv => Attempt.fail (.sortNotBelow left right)
    | _, .omega => pure ()
    | .prop, .set _ => pure ()
    | .set left, .set right => leqLevel fuel depth left right
    | _, _ => Attempt.fail (.sortNotBelow left right)

/-- The term is a placeholder. -/
def isPlaceholder : Term → Bool
  | .placeholder _ _ => true
  | _ => false

/-- Makes the arguments of two applications equal, except for those that are irrelevant on the
left. -/
def equalArguments (equal : Term → Term → ConvM Unit) :
    (left right : List (ArgInfo × Term)) → ConvM Unit
  | (info, left) :: lefts, (_, right) :: rights => do
    if info.isIrrelevant then
      equalArguments equal lefts rights
    else
      equal left right
      equalArguments equal lefts rights
  | _, _ => pure ()

/-- Makes two terms equal. -/
def equalTerm : (fuel depth : Nat) → (left right : Term) → ConvM Unit
  | 0, _, _, _ => Attempt.halt .exhausted
  | fuel + 1, depth, left, right => do
    let state ← get
    let left ← reduce state fuel left
    let right ← reduce state fuel right
    if left = right then
      pure ()
    else
      match left, right with
      | .placeholder id arguments, _ => assignTerm fuel depth id arguments right
      | _, .placeholder id arguments => assignTerm fuel depth id arguments left
      | .level _, _ => equalLevel fuel depth (Level.ofTerm left) (Level.ofTerm right)
      | _, .level _ => equalLevel fuel depth (Level.ofTerm left) (Level.ofTerm right)
      | .univ left, .univ right => equalSort fuel depth left right
      | .pi _ leftInfo leftDomain leftCodomain, .pi _ rightInfo rightDomain rightCodomain =>
        if leftInfo.plicity = rightInfo.plicity then do
          equalTerm fuel depth leftDomain.term rightDomain.term
          equalTerm fuel (depth + 1) leftCodomain.term rightCodomain.term
        else
          Attempt.fail (.unequalTerms left right)
      | .app _ _ _, .app _ _ _ =>
        if isPlaceholder left.head || isPlaceholder right.head then
          postpone depth (.equalTerms left right)
        else if left.arguments.length = right.arguments.length then do
          equalTerm fuel depth left.head right.head
          equalArguments (equalTerm fuel depth) left.arguments right.arguments
        else
          Attempt.fail (.unequalTerms left right)
      | _, _ => Attempt.fail (.unequalTerms left right)

/-- Makes two types equal. -/
def equalType (fuel depth : Nat) (left right : Ty) : ConvM Unit :=
  equalTerm fuel depth left.term right.term

end ConvM
end Families
