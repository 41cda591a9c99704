import Families.Datatype.Constructor
import Families.Datatype.Parameters
import Families.Datatype.Sort

/-!
# Datatypes

The parameters of a datatype are bound, its sort is read off its type, and its constructors are
checked one by one while the datatype is pending.  If anything fails, nothing remains.
-/

namespace Families

/-- A datatype that was checked and added to the signature. -/
structure CertifiedDatatype where
  /-- Its path. -/
  path : Path
  /-- What is known of it. -/
  datatype : Datatype
  /-- Its constructors, in the order of their declaration. -/
  constructors : List (Path × Constructor)
deriving DecidableEq

namespace CheckM

/-- Checks constructors in order. -/
def checkConstructors (head : DataHead) :
    (declarations : List ConstructorDeclaration) → CheckM (List (Path × Constructor × List Nat))
  | [] => pure []
  | declaration :: declarations => do
    let first ← checkConstructor head declaration
    let rest ← checkConstructors head declarations
    pure (first :: rest)

/-- Checks that a datatype of propositions has at most one constructor. -/
def checkSingleton (path : Path) (sort : Universe) (constructors : Nat) : CheckM Unit := do
  let checker ← get
  if checker.options.propSingleton then do
    let reduced ← reduce sort
    if reduced = .prop ∧ 1 < constructors then
      Attempt.fail (.propMustBeSingleton path constructors)
    else
      pure ()
  else
    pure ()

/-- Checks the constructors of a datatype whose parameters are in scope and whose sort is known. -/
def checkInSort (definition : DataDefinition) (signature : Definition) (parameters : Telescope)
    (indices : Nat) (sort : Universe) : CheckM CertifiedDatatype := do
  let path := signature.path
  let small ← smallParameters parameters sort
  let datatype : Datatype :=
    { parameters := parameters.length
      indices := indices
      sort := sort
      induction := definition.induction
      constructors := []
      smallParameters := small
      nonLinearParameters := .empty
      universeCheck := definition.universeCheck }
  updateSignature (Signature.registerPending · ⟨path, signature.ty, .datatype datatype⟩)
  let head : DataHead :=
    { path := path
      parameters := parameters
      indices := indices
      sort := sort
      universeCheck := definition.universeCheck }
  let constructors ← checkConstructors head definition.constructors
  checkSingleton path sort definition.constructors.length
  let sort ← normalise sort
  let nonLinear := constructors.flatMap fun (_, _, positions) => positions
  let complete : Datatype :=
    { datatype with
      sort := sort
      constructors := constructors.map fun (path, _, _) => path
      nonLinearParameters := Positions.ofList nonLinear }
  updateSignature (Signature.complete · path (.datatype complete))
  pure
    { path := path
      datatype := complete
      constructors := constructors.map fun (path, constructor, _) => (path, constructor) }

/-- Checks a datatype whose parameters are in scope.  `tail` is the rest of its type. -/
def checkUnderParameters (definition : DataDefinition) (signature : Definition)
    (parameters : Telescope) (tail : Ty) : CheckM CertifiedDatatype := do
  let checker ← get
  let (indices, core) ← telescopeView tail
  let sort ← resolveSort signature.path indices core
  if checker.options.withoutK ∧ definition.universeCheck then
    checkIndexSorts signature.path indices sort
  else
    pure ()
  checkInSort definition signature parameters indices.length sort

/-- The declaration of a datatype's type. -/
def dataSignature (path : Path) : CheckM Definition := do
  let checker ← get
  match checker.state.signature.definition? path with
  | some ⟨path, ty, .dataSignature⟩ => pure ⟨path, ty, .dataSignature⟩
  | some _ => Attempt.fail (.signature (.alreadyDefined path))
  | none => Attempt.fail (.missingDataSignature path)

/-- Checks a datatype and adds it and its constructors to the signature. -/
def checkData (definition : DataDefinition) : CheckM CertifiedDatatype := do
  let path ← enterPath definition.name
  speculate do
    match definition.ty with
    | none => pure ()
    | some ty => do
      let ty ← elaborateType ty
      register ⟨path, ty, .dataSignature⟩
    let signature ← dataSignature path
    let checker ← get
    restoreScope do
      let (parameters, tail) ← bindParameters checker.fuel definition.parameters signature.ty
      checkUnderParameters definition signature parameters tail

end CheckM
end Families
