import Families.Phrase.Substitution

/-!
# Contexts

The variables in scope, innermost first, so that a variable's index is its position.  The type of
each stands in the scope of the variables after it.
-/

namespace Families

/-- The variables in scope, innermost first. -/
abbrev Context := List Domain

namespace Context

/-- The type of a variable, raised to the whole scope.  The outer result is absent when an index
leaves the range of words, and the inner one when there is no such variable. -/
def typeOf? (context : Context) (index : Nat) : Option (Option Ty) :=
  match context[index]? with
  | none => some none
  | some domain => do
    let ty ← domain.ty.lift? (index + 1) 0
    pure (some ty)

/-- The innermost variable of a name. -/
def lookup? (context : Context) (name : Name) : Option Nat :=
  context.findIdx? (·.name == name)

/-- Every variable in scope standing for itself. -/
def identity (context : Context) : Phrase .terms :=
  .ofList ((List.range context.length).map .var)

/-- Keeps the outermost `length` variables. -/
def truncate (context : Context) (length : Nat) : Context :=
  context.drop (context.length - length)

end Context

end Families
