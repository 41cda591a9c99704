import Families.Reduction

/-!
# Forced arguments

An argument of a constructor is forced when the indices of the constructor's target determine it:
it stands there as an index itself or as an argument of a constructor.
-/

namespace Families

/-- How forced arguments are found. -/
inductive Forcing where
  /-- By the variables in constructor patterns of the target's indices. -/
  | patterns
  /-- Every argument counts as forced. -/
  | everything
deriving DecidableEq

/-- The variables that a term determines, as far as it is built from constructors. -/
def determinedVariables (state : State) : (fuel : Nat) → Term → Except Halt (List Nat)
  | 0, _ => .error .exhausted
  | fuel + 1, term => do
    match ← reduce state fuel term with
    | .var index => pure [index]
    | term =>
      match term.head with
      | .const path =>
        match state.signature.constructor? path with
        | none => pure []
        | some constructor => do
          let relevant := (term.arguments.drop constructor.parameters).filter
            fun (info, _) => !info.isIrrelevant
          let determined ← relevant.mapM fun (_, argument) =>
            determinedVariables state fuel argument
          pure determined.flatten
      | _ => pure []

/-- For each argument of a constructor's type, whether it is forced.  The type stands under the
parameters of the datatype, and its target applies the datatype to them and then to indices. -/
def forcedArguments (state : State) (fuel : Nat) (forcing : Forcing) (ty : Ty)
    (parameters : Nat) : Except Halt (List Bool) := do
  let (telescope, target) ← telescopeView state fuel ty
  match forcing with
  | .everything => pure (telescope.map fun _ => true)
  | .patterns => do
    let indices := target.term.arguments.drop parameters
    let determined ← indices.mapM fun (_, index) => determinedVariables state fuel index
    let arity := telescope.length
    pure (telescope.mapIdx fun position domain =>
      !domain.info.isIrrelevant && determined.flatten.contains (arity - 1 - position))

end Families
