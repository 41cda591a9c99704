import Families.Elaboration

/-!
# The sort of a datatype

The sort at the end of a datatype's type must not mention its indices.  Under the stricter rule the
indices have to fit into it.  Parameters that fit into it are small.
-/

namespace Families
namespace CheckM

/-- The sort that a datatype's type ends in, under the parameters. -/
def resolveSort (datatype : Path) (indices : Telescope) (core : Ty) : CheckM Universe := do
  let sort ← freshSort true
  let expected ← (checked (Ty.ofSort? sort) : Except Halt _)
  let expected ← (checked (expected.lift? indices.length 0) : Except Halt _)
  let result ← under indices (tryEqualTerm core.term expected.term)
  match result with
  | .ok () => normalise sort
  | .error error =>
    if (core.term.freeVariables .anywhere).toList.any (· < indices.length) then
      Attempt.fail (.sortDependsOnIndices datatype)
    else
      Attempt.fail (.conversion error)

/-- Checks that the indices from number `position` on fit below a sort, bringing each into scope. -/
def checkIndicesBelow (datatype : Path) (bound : Universe) :
    (position : Nat) → (indices : Telescope) → CheckM Unit
  | _, [] => pure ()
  | position, index :: indices => do
    let lifted ← (checked (bound.lift? position 0) : Except Halt _)
    match ← tryLeqSort index.ty.sort lifted with
    | .error error => Attempt.fail (.indexSortTooLarge datatype position error)
    | .ok () => do
      push index
      checkIndicesBelow datatype bound (position + 1) indices

/-- Checks that the indices fit into the sort of a datatype.  Those of a proposition may be sets. -/
def checkIndexSorts (datatype : Path) (indices : Telescope) (sort : Universe) : CheckM Unit := do
  let reduced ← reduce sort
  let bound :=
    match reduced with
    | .prop => Universe.ofNat 0
    | other => other
  restoreScope (checkIndicesBelow datatype bound 0 indices)

/-- A comparison succeeds now, without waiting for placeholders.  Nothing of it remains. -/
def proves (comparison : CheckM (Except ConversionError Unit)) : CheckM Bool :=
  localState do
    let before ← get
    match ← comparison with
    | .error _ => pure false
    | .ok () => do
      let after ← get
      pure (after.state.constraints.length == before.state.constraints.length)

/-- A parameter's type, raised to the scope of all parameters, fits into a sort and is not the type
of levels. -/
def isSmall (ty : Ty) (sort : Universe) : CheckM Bool := do
  let isLevel ← proves do
    let reduced ← reduce ty.term
    tryEqualTerm reduced (.const Path.level)
  if isLevel then
    pure false
  else
    proves (tryLeqSort ty.sort sort)

/-- The small parameters among those at the given positions. -/
def smallAmong (parameters : Telescope) (sort : Universe) :
    (positions : List Nat) → CheckM (List Nat)
  | [] => pure []
  | position :: positions => do
    match ← (checked (parameters.liftedType? position) : Except Halt _) with
    | none => smallAmong parameters sort positions
    | some ty => do
      let small ← isSmall ty sort
      let rest ← smallAmong parameters sort positions
      pure (if small then position :: rest else rest)

/-- The parameters that are small, counted from the outermost. -/
def smallParameters (parameters : Telescope) (sort : Universe) : CheckM Positions := do
  let small ← smallAmong parameters sort (List.range parameters.length)
  pure (Positions.ofList small)

end CheckM
end Families
