import Families.State
import Families.Telescope

/-!
# Reduction

A placeholder is replaced by its solution and a function by its body once it has all its arguments.
Reduction does so at the head of a term, a sort or a level; normalisation does so everywhere.
Nothing bounds the length of a reduction, so both are told how deep they may recurse.
-/

namespace Families

/-- One step at the head of a term, if there is one. -/
def unfoldHead? (state : State) (term : Term) : Except Halt (Option Term) :=
  match term.head with
  | .placeholder id arguments =>
    match state.solution? id with
    | some (.term solution) => do
      let value ← checked (solution.substitute? arguments.toList)
      pure (some (value.applyTo term.arguments))
    | _ => pure none
  | .const path =>
    match state.signature.definition? path with
    | some ⟨_, _, .function arity (some body)⟩ =>
      if arity ≤ term.arguments.length then do
        let taken := (term.arguments.take arity).reverse.map (·.2)
        let value ← checked (body.substitute? taken)
        pure (some (value.applyTo (term.arguments.drop arity)))
      else
        pure none
    | _ => pure none
  | _ => pure none

/-- The level that an atom with a reduced term stands for. -/
def reducedAtom (term : Term) (offset : Nat) : Except Halt Level :=
  match term with
  | .level inner => checked (Level.raise? inner offset)
  | term => pure (Level.ofParts 0 [⟨term, offset⟩])

/-- Reduces a term, a sort or a level until its head is fixed.  Other phrases have no head. -/
def reduce (state : State) :
    (fuel : Nat) → {category : Category} → Phrase category → Except Halt (Phrase category)
  | 0, _, _ => .error .exhausted
  | fuel + 1, _, .univ sort => do
    let sort ← reduce state fuel sort
    pure (.univ sort)
  | fuel + 1, _, .level bound => do
    let bound ← reduce state fuel bound
    pure (.level bound)
  | _ + 1, _, .var index => pure (.var index)
  | _ + 1, _, .pi name info domain codomain => pure (.pi name info domain codomain)
  | fuel + 1, .term, term => do
    match ← unfoldHead? state term with
    | some next => reduce state fuel next
    | none => pure term
  | fuel + 1, _, .set bound => do
    let bound ← reduce state fuel bound
    pure (.set bound)
  | fuel + 1, _, .sortPlaceholder id arguments =>
    match state.solution? id with
    | some (.sort solution) => do
      let sort ← checked (solution.substitute? arguments.toList)
      reduce state fuel sort
    | _ => pure (.sortPlaceholder id arguments)
  | fuel + 1, _, .lub constant atoms =>
    atoms.atomList.foldlM
      (fun joined atom => do
        let term ← reduce state fuel atom.term
        let part ← reducedAtom term atom.offset
        pure (Level.join joined part))
      (Level.ofNat constant)
  | _ + 1, _, phrase => pure phrase

/-- Rebuilds a phrase from its parts, putting levels back into canonical form. -/
def rebuild (part : {category : Category} → Phrase category → Except Halt (Phrase category)) :
    {category : Category} → Phrase category → Except Halt (Phrase category)
  | _, .app function argument info => do
    let function ← part function
    let argument ← part argument
    pure (.app function argument info)
  | _, .pi name info domain codomain => do
    let domain ← part domain
    let codomain ← part codomain
    pure (.pi name info domain codomain)
  | _, .univ sort => do
    let sort ← part sort
    pure (.univ sort)
  | _, .level bound => do
    let bound ← part bound
    pure (.level bound)
  | _, .placeholder id arguments => do
    let arguments ← part arguments
    pure (.placeholder id arguments)
  | _, .classified sort term => do
    let sort ← part sort
    let term ← part term
    pure (.classified sort term)
  | _, .set bound => do
    let bound ← part bound
    pure (.set bound)
  | _, .sortPlaceholder id arguments => do
    let arguments ← part arguments
    pure (.sortPlaceholder id arguments)
  | _, .lub constant atoms => do
    let atoms ← part atoms
    pure (Level.canonical constant atoms.atomList)
  | _, .atom term offset rest => do
    let term ← part term
    let rest ← part rest
    pure (.atom term offset rest)
  | _, .terms first rest => do
    let first ← part first
    let rest ← part rest
    pure (.terms first rest)
  | _, .var index => pure (.var index)
  | _, .const path => pure (.const path)
  | _, .prop => pure .prop
  | _, .sizeUniv => pure .sizeUniv
  | _, .omega => pure .omega
  | _, .noAtoms => pure .noAtoms
  | _, .noTerms => pure .noTerms

/-- Reduces a phrase and all its parts. -/
def normalise (state : State) :
    (fuel : Nat) → {category : Category} → Phrase category → Except Halt (Phrase category)
  | 0, _, _ => .error .exhausted
  | fuel + 1, _, phrase => do
    let reduced ← reduce state fuel phrase
    rebuild (fun part => normalise state fuel part) reduced

/-- The binders of all function types at the front of a type, and the reduced type under them. -/
def telescopeView (state : State) : (fuel : Nat) → Ty → Except Halt (Telescope × Ty)
  | 0, _ => .error .exhausted
  | fuel + 1, ty => do
    match ← reduce state fuel ty.term with
    | .pi name info domain codomain => do
      let (telescope, tail) ← telescopeView state fuel codomain
      pure (⟨name, info, domain⟩ :: telescope, tail)
    | term => pure ([], .classified ty.sort term)

end Families
