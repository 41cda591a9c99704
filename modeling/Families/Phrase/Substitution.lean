import Families.Bounds
import Families.Phrase.Basic

/-!
# Renaming and substitution

Every operation on the variables of a phrase is a traversal that sends each variable to a term,
given the number of binders passed on the way to it.  The operations that raise variables fail
when an index would leave the range of words.
-/

namespace Families
namespace Phrase

/-- Rebuilds a phrase that stands under `depth` binders, sending each of its variables to its image.
The parts of a phrase are visited from left to right. -/
def traverse {m : Type → Type} [Monad m] (image : (depth index : Nat) → m Term) :
    {category : Category} → (depth : Nat) → Phrase category → m (Phrase category)
  | _, depth, var index => image depth index
  | _, _, const path => pure (const path)
  | _, depth, app function argument info => do
    let function ← function.traverse image depth
    let argument ← argument.traverse image depth
    pure (app function argument info)
  | _, depth, pi name info domain codomain => do
    let domain ← domain.traverse image depth
    let codomain ← codomain.traverse image (depth + 1)
    pure (pi name info domain codomain)
  | _, depth, univ sort => do
    let sort ← sort.traverse image depth
    pure (univ sort)
  | _, depth, level bound => do
    let bound ← bound.traverse image depth
    pure (level bound)
  | _, depth, placeholder id arguments => do
    let arguments ← arguments.traverse image depth
    pure (placeholder id arguments)
  | _, depth, classified sort term => do
    let sort ← sort.traverse image depth
    let term ← term.traverse image depth
    pure (classified sort term)
  | _, _, prop => pure prop
  | _, depth, set bound => do
    let bound ← bound.traverse image depth
    pure (set bound)
  | _, _, sizeUniv => pure sizeUniv
  | _, _, omega => pure omega
  | _, depth, sortPlaceholder id arguments => do
    let arguments ← arguments.traverse image depth
    pure (sortPlaceholder id arguments)
  | _, depth, lub constant atoms => do
    let atoms ← atoms.traverse image depth
    pure (lub constant atoms)
  | _, _, noAtoms => pure noAtoms
  | _, depth, atom term offset rest => do
    let term ← term.traverse image depth
    let rest ← rest.traverse image depth
    pure (atom term offset rest)
  | _, _, noTerms => pure noTerms
  | _, depth, terms first rest => do
    let first ← first.traverse image depth
    let rest ← rest.traverse image depth
    pure (terms first rest)

variable {category : Category}

/-- The image of a variable when everything from `cutoff` on moves under `shift` new binders. -/
def liftedVariable? (shift cutoff depth index : Nat) : Option Term := do
  let bound ← word? (cutoff + depth)
  if bound ≤ index then
    let raised ← word? (index + shift)
    pure (var raised)
  else
    pure (var index)

/-- Raises every variable from `cutoff` on by `shift`. -/
def lift? (phrase : Phrase category) (shift cutoff : Nat) : Option (Phrase category) :=
  if shift = 0 then some phrase else phrase.traverse (liftedVariable? shift cutoff) 0

/-- The image of a variable when the innermost variable is replaced. -/
def instantiatedVariable? (argument : Term) (depth index : Nat) : Option Term :=
  if index = depth then
    argument.lift? depth 0
  else if depth < index then
    some (var (index - 1))
  else
    some (var index)

/-- Replaces the innermost variable and lowers the others by one. -/
def instantiate? (phrase : Phrase category) (argument : Term) : Option (Phrase category) :=
  phrase.traverse (instantiatedVariable? argument) 0

/-- The image of a variable when the innermost variables are replaced together. -/
def substitutedVariable? (arguments : List Term) (depth index : Nat) : Option Term :=
  if depth ≤ index then
    match arguments[index - depth]? with
    | some argument => argument.lift? depth 0
    | none => some (var (index - arguments.length))
  else
    some (var index)

/-- Replaces variable `i` by argument `i` and lowers the variables beyond the arguments. -/
def substitute? (phrase : Phrase category) (arguments : List Term) : Option (Phrase category) :=
  phrase.traverse (substitutedVariable? arguments) 0

/-- The image of a variable when the `count` innermost binders are removed. -/
def strengthenedVariable? (count depth index : Nat) : Option Term :=
  if depth ≤ index then
    if index - depth < count then none else some (var (index - count))
  else
    some (var index)

/-- Removes the `count` innermost binders, if none of their variables occurs. -/
def strengthen? (phrase : Phrase category) (count : Nat) : Option (Phrase category) :=
  phrase.traverse (strengthenedVariable? count) 0

end Phrase
end Families
