import Families.Elaboration

/-!
# Constructors of a datatype

A constructor's type ends in its datatype, applied to the datatype's own parameters and to indices,
and its arguments fit into the datatype's sort.
-/

namespace Families

/-- What the check of constructors has to know of their datatype. -/
structure DataHead where
  /-- Its path. -/
  path : Path
  /-- Its parameters, which are in scope. -/
  parameters : Telescope
  /-- How many indices it has. -/
  indices : Nat
  /-- Its sort, under the parameters. -/
  sort : Universe
  /-- Whether the arguments of constructors have to fit into the sort. -/
  universeCheck : Bool

namespace CheckM

/-- Applies a term to new placeholders for so many further arguments. -/
def applyToFresh : (count : Nat) → Term → CheckM Term
  | 0, term => pure term
  | count + 1, term => do
    let ty ← infer term
    match ← reduce ty with
    | .pi _ info domain _ => do
      let argument ← freshTerm domain.term
      applyToFresh count (.app term argument info)
    | other => Attempt.fail (.conversion (.expectedFunctionType other))

/-- The datatype applied to its parameters, under `walked` more variables, and to new placeholders
for its indices. -/
def genericTarget (head : DataHead) (walked : Nat) : CheckM Term :=
  let count := head.parameters.length
  let arguments := head.parameters.mapIdx fun position domain =>
    (domain.info, (.var (walked + count - 1 - position) : Term))
  applyToFresh head.indices ((.const head.path : Term).applyTo arguments)

/-- Brings the arguments of a constructor into scope.  The result is their number, after `walked`
earlier ones, and the target.  A placeholder for the target is first made equal to the datatype. -/
def walkToTarget (head : DataHead) (constructor : Path) :
    (fuel walked : Nat) → Term → CheckM (Nat × Term)
  | 0, _, _ => Attempt.halt .exhausted
  | fuel + 1, walked, current => do
    match ← reduce current with
    | .pi name info domain codomain => do
      push ⟨name, info, domain⟩
      walkToTarget head constructor fuel (walked + 1) codomain.term
    | .placeholder id arguments => do
      let generic ← genericTarget head walked
      let before ← get
      match ← tryEqualTerm (.placeholder id arguments) generic with
      | .ok () => walkToTarget head constructor fuel walked generic
      | .error _ => do
        modifyState fun _ => before.state
        Attempt.fail (.targetMismatch constructor (.placeholder id arguments))
    | target => pure (walked, target)

/-- Checks that the arguments of a target from number `position` on are the parameters, of which
number zero is variable `outermost`. -/
def checkParameters (outermost : Nat) :
    (position : Nat) → (arguments : List (ArgInfo × Term)) → CheckM Unit
  | _, [] => pure ()
  | position, (info, argument) :: arguments => do
    if info.isIrrelevant then
      checkParameters outermost (position + 1) arguments
    else
      equalTerm argument (.var (outermost - position))
      checkParameters outermost (position + 1) arguments

/-- The positions of the parameters among variables, where `bound` variables are parameters or
arguments, and the first `parameters` of these are parameters. -/
def parametersAmong (constructor : Path) (bound parameters : Nat) :
    List Nat → Except Halt (List Nat)
  | [] => pure []
  | index :: indices =>
    if index < bound then do
      let rest ← parametersAmong constructor bound parameters indices
      let position := bound - 1 - index
      pure (if position < parameters then position :: rest else rest)
    else
      .error (.fault (.variableBeyondParameters index constructor))

/-- Checks that a constructor's type ends in the datatype applied to its parameters, leaving the
arguments in scope.  The result is the parameters that occur in the indices of the target. -/
def checkTarget (head : DataHead) (constructor : Path) (ty : Ty) : CheckM (List Nat) := do
  let checker ← get
  let (walked, target) ← walkToTarget head constructor checker.fuel 0 ty.term
  let target ← normalise target
  let count := head.parameters.length
  let arguments := target.arguments
  if target.head = .const head.path ∧ arguments.length = count + head.indices then do
    checkParameters (walked + count - 1) 0 (arguments.take count)
    let occurring ← (arguments.drop count).mapM fun (_, index) =>
      (parametersAmong constructor (walked + count) count
        (index.freeVariables .outsideAnnotations).toList : Except Halt _)
    pure occurring.flatten
  else
    Attempt.fail (.targetMismatch constructor target)

/-- Checks that the arguments of a constructor from number `position` on fit into the datatype's
sort, bringing each into scope.  The result is the number of all arguments. -/
def checkArguments (head : DataHead) (constructor : Path) (forced : List Bool) :
    (fuel position : Nat) → Term → CheckM Nat
  | 0, _, _ => Attempt.halt .exhausted
  | fuel + 1, position, current => do
    match ← reduce current with
    | .pi name info domain codomain => do
      let checker ← get
      let sort ← reduce domain.sort
      let isForced := forced[position]? = some true
      if head.universeCheck ∧ (checker.options.withoutK ∨ ¬isForced) ∧ sort ≠ .sizeUniv then do
        let lifted ← (checked (head.sort.lift? position 0) : Except Halt _)
        match ← tryLeqSort sort lifted with
        | .ok () => pure ()
        | .error error =>
          Attempt.fail (.sortContainment constructor (some position) head.sort error)
      else
        pure ()
      push ⟨name, info, domain⟩
      checkArguments head constructor forced fuel (position + 1) codomain.term
    | _ => pure position

/-- Checks that a constructor fits into the datatype's sort.  The result is its arity. -/
def checkFits (head : DataHead) (constructor : Path) (forced : List Bool) (ty : Ty) :
    CheckM Nat := do
  let checker ← get
  if head.universeCheck ∧ checker.options.withoutK then do
    match ← tryLeqSort ty.sort head.sort with
    | .ok () => pure ()
    | .error error => Attempt.fail (.sortContainment constructor none head.sort error)
  else
    pure ()
  restoreScope (checkArguments head constructor forced checker.fuel 0 ty.term)

/-- For each argument of a constructor's type, whether it is forced. -/
def findForced (head : DataHead) (ty : Ty) : CheckM (List Bool) := do
  let checker ← get
  if checker.options.forcing then
    forcedArguments checker.state checker.fuel checker.forcing ty head.parameters.length
  else do
    let (telescope, _) ← telescopeView ty
    pure (telescope.map fun _ => false)

/-- Checks a constructor and adds it to the signature.  The result is its path, what is known of it,
and the parameters that occur in the indices of its target. -/
def checkConstructor (head : DataHead) (declaration : ConstructorDeclaration) :
    CheckM (Path × Constructor × List Nat) := do
  let path ← enterPath declaration.name
  if declaration.relevance = .relevant then do
    let written ← elaborateType declaration.ty
    let nonLinear ← restoreScope (checkTarget head path written)
    let ty ← normalise written
    let forced ← findForced head ty
    let arity ← checkFits head path forced ty
    let constructor : Constructor :=
      { datatype := head.path
        parameters := head.parameters.length
        arity := arity
        induction := .ind
        forced := forced }
    let closed := (head.parameters.withPlicity .implicit).toPi ty
    register ⟨path, closed, .constructor constructor⟩
    if declaration.isInstance then
      modifyState (·.addInstance head.path path)
    else
      pure ()
    pure (path, constructor, nonLinear)
  else
    Attempt.fail (.irrelevantConstructor path)

end CheckM
end Families
