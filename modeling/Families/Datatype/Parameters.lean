import Families.Elaboration

/-!
# Parameters of a datatype

The parameters where a datatype is defined are matched with the binders of its type.  Binders that
are not explicit may be left out; they keep their own names.
-/

namespace Families
namespace CheckM

/-- Checks that a parameter's own type agrees with its binder's. -/
def checkAscription (binding : ParameterBinding) (domain : Ty) : CheckM Unit :=
  match binding.ty with
  | none => pure ()
  | some ascription => do
    let ascribed ← elaborateType ascription
    equalType ascribed domain

/-- Brings the parameters into scope.  The result is their binders, outermost first, and the rest of
the datatype's type, which stands under them. -/
def bindParameters :
    (fuel : Nat) → (bindings : List ParameterBinding) → Ty → CheckM (Telescope × Ty)
  | _, [], ty => pure ([], ty)
  | 0, _ :: _, _ => Attempt.halt .exhausted
  | fuel + 1, binding :: bindings, ty => do
    match ← reduce ty.term with
    | .pi name info domain codomain =>
      if binding.plicity = info.plicity then do
        checkAscription binding domain
        let name ← enterName binding.name
        push ⟨name, info, domain⟩
        let (telescope, rest) ← bindParameters fuel bindings codomain
        pure (⟨name, info, domain⟩ :: telescope, rest)
      else if binding.plicity = .explicit then do
        push ⟨name, info, domain⟩
        let (telescope, rest) ← bindParameters fuel (binding :: bindings) codomain
        pure (⟨name, info, domain⟩ :: telescope, rest)
      else
        Attempt.fault (.parameterPlicity binding.name binding.plicity info.plicity)
    | other => Attempt.fault (.parameterUnbound binding.name other)

end CheckM
end Families
