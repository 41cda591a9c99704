import Families.Level

/-!
# Sorts

Propositions lie below every set, a set lies below the sets of larger levels, and all of them lie
below the sort above all sets.  Sizes have a sort of their own, comparable with itself only.
-/

namespace Families

namespace Universe

/-- The sort of sets of a numbered level. -/
def ofNat (number : Nat) : Universe :=
  .set (Level.ofNat number)

/-- The sort that a sort inhabits. -/
def succ? : Universe → Option Universe
  | .prop => some (ofNat 0)
  | .set level => do
    let next ← Level.succ? level
    pure (.set next)
  | .sizeUniv => some .omega
  | .omega => some .omega
  | .sortPlaceholder _ _ => some .omega

/-- The sort of a function type.  No codomain stands for one that depends on the argument, and no
answer means that a placeholder has to be solved first. -/
def pi? (domain : Universe) : Option Universe → Option Universe
  | none => some .omega
  | some codomain =>
    match domain, codomain with
    | .sortPlaceholder _ _, _ => none
    | _, .sortPlaceholder _ _ => none
    | .omega, _ => some .omega
    | _, .omega => some .omega
    | _, .prop => some .prop
    | _, .sizeUniv => some .sizeUniv
    | .prop, .set level => some (.set level)
    | .sizeUniv, .set level => some (.set level)
    | .set left, .set right => some (.set (Level.join left right))

end Universe

namespace Ty

/-- The type of the types of a sort. -/
def ofSort? (sort : Universe) : Option Ty := do
  let above ← Universe.succ? sort
  pure (.classified above (.univ sort))

end Ty

end Families
