import Families.Checker

/-!
# Coinductive types

Whether a type is coinductive, as far as its head tells.
-/

namespace Families

/-- What the head of a type tells about coinduction. -/
def coinductionOfHead (state : State) : Term → Except Halt (Option Bool)
  | .const path =>
    match state.signature.definition? path with
    | none => .error (.fault (.notInSignature path))
    | some definition =>
      match definition.kind with
      | .postulate => pure (some false)
      | .function _ _ => pure none
      | .dataSignature => pure none
      | .datatype datatype => pure (some (datatype.induction == .coind))
      | .record induction => pure (some (induction == some .coind))
      | .constructor _ => .error (.fault (.constructorAsType path))
  | .var _ => pure none
  | .placeholder _ _ => pure none
  | .pi _ _ _ _ => pure (some false)
  | .univ _ => pure (some false)
  | other => .error (.fault (.notAType other))

/-- Whether a type is coinductive, or nothing while its head leaves that open. -/
def isCoinductive (state : State) (fuel : Nat) (ty : Ty) : Except Halt (Option Bool) := do
  let reduced ← reduce state fuel ty.term
  coinductionOfHead state reduced.head

end Families
