import Families.Conversion.Error
import Families.Reduction

/-!
# Solving placeholders

A placeholder whose arguments are distinct variables can be solved by a phrase over these variables:
the solution is the phrase with each of them replaced by its position.  Any other problem about a
placeholder is postponed.
-/

namespace Families

/-- A computation that compares phrases. -/
abbrev ConvM := Attempt ConversionError State

namespace ConvM

/-- Postpones a comparison. -/
def postpone (depth : Nat) (comparison : Comparison) : ConvM Unit :=
  modify (·.postpone depth comparison)

end ConvM

/-- The index of a term that is a variable. -/
def variableIndex? : Term → Option Nat
  | .var index => some index
  | _ => none

/-- The arguments, when they are distinct variables. -/
def patternVariables? (arguments : List Term) : Option (List Nat) := do
  let pattern ← arguments.mapM variableIndex?
  if pattern.Nodup then pure pattern else none

/-- The image of a variable in the scope of a placeholder with the given arguments. -/
def invertedVariable (id : Nat) (pattern : List Nat) (depth index : Nat) :
    Except ConversionError Term :=
  if depth ≤ index then
    match pattern.idxOf? (index - depth) with
    | some position => .ok (.var (position + depth))
    | none => .error (.outOfScope id (index - depth))
  else
    .ok (.var index)

/-- A phrase moved from under a placeholder's arguments into its own scope. -/
def invert {category : Category} (id : Nat) (pattern : List Nat) (phrase : Phrase category) :
    Except ConversionError (Phrase category) :=
  phrase.traverse (invertedVariable id pattern) 0

namespace ConvM

/-- Solves a placeholder by a phrase that stands under the given variables. -/
def solve
    {category : Category}
    (fuel id : Nat)
    (pattern : List Nat)
    (value : Phrase category)
    (solution : Phrase category → Solution) :
    ConvM Unit := do
  let state ← get
  let value ← normalise state fuel value
  if value.mentions id then
    Attempt.fail (.occursCheck id)
  else
    match invert id pattern value with
    | .error error => Attempt.fail error
    | .ok inverted =>
      let solved ← state.solve id (solution inverted)
      set solved

/-- Makes a placeholder for a term equal to a term. -/
def assignTerm (fuel depth id : Nat) (arguments : Phrase .terms) (value : Term) : ConvM Unit :=
  let postponed := postpone depth (.equalTerms (.placeholder id arguments) value)
  let assigned :=
    match patternVariables? arguments.toList with
    | none => postponed
    | some pattern => solve fuel id pattern value .term
  match value with
  | .placeholder other _ => if other = id then postponed else assigned
  | _ => assigned

/-- The placeholder must not stand for the sort above all sets. -/
def isBelowOmega (state : State) (id : Nat) : Bool :=
  match state.placeholders[id]? with
  | some ⟨_, .sort belowOmega, _⟩ => belowOmega
  | _ => false

/-- Makes a placeholder for a sort equal to a sort. -/
def assignSort (fuel depth id : Nat) (arguments : Phrase .terms) (value : Universe) :
    ConvM Unit := do
  let postponed := postpone depth (.equalSorts (.sortPlaceholder id arguments) value)
  let assigned :=
    match patternVariables? arguments.toList with
    | none => postponed
    | some pattern => solve fuel id pattern value .sort
  let state ← get
  match value with
  | .sortPlaceholder other _ => if other = id then postponed else assigned
  | .omega =>
    if isBelowOmega state id then Attempt.fail (.sortCeiling id .omega) else assigned
  | _ => assigned

end ConvM

end Families
