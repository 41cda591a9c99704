import Families.Phrase.Substitution
import Families.Universe

/-!
# Telescopes

Sequences of binders, outermost first, where the type of each may mention the variables bound
before it.
-/

namespace Families

/-- Binders, outermost first. -/
abbrev Telescope := List Domain

namespace Telescope

/-- Gives every binder the same plicity. -/
def withPlicity (telescope : Telescope) (plicity : Plicity) : Telescope :=
  telescope.map fun domain => { domain with info := { domain.info with plicity } }

/-- The function type from one binder.  It counts as the sort above all sets while a placeholder
keeps its own sort from being known. -/
def bindPi (domain : Domain) (codomain : Ty) : Ty :=
  let sort := (Universe.pi? domain.ty.sort (codomain.sort.strengthen? 1)).getD .omega
  .classified sort (.pi domain.name domain.info domain.ty codomain)

/-- The function type from the binders to a type that stands under them. -/
def toPi (telescope : Telescope) (core : Ty) : Ty :=
  telescope.foldr bindPi core

/-- The type of binder `k`, raised to stand under the whole telescope. -/
def liftedType? (telescope : Telescope) (k : Nat) : Option (Option Ty) :=
  match telescope[k]? with
  | none => some none
  | some domain => do
    let ty ← domain.ty.lift? (telescope.length - k) 0
    pure (some ty)

end Telescope

end Families
