import Families.Failure
import Families.Signature

/-!
# The state of the checker

The signature, the placeholders created so far, the comparisons that had to be postponed, and the
instances declared for datatypes.  A state is a value, so keeping an old one is enough to return
to it.
-/

namespace Families

/-- What a placeholder stands for. -/
inductive PlaceholderKind where
  /-- A term of a type, which stands in the placeholder's own scope. -/
  | term (ty : Term)
  /-- A sort, possibly one that must not be the sort above all sets. -/
  | sort (belowOmega : Bool)
deriving DecidableEq

/-- What a placeholder was found to be, in its own scope. -/
inductive Solution where
  /-- A term. -/
  | term (term : Term)
  /-- A sort. -/
  | sort (sort : Universe)
deriving DecidableEq

/-- A placeholder. -/
structure Placeholder where
  /-- How many variables its own scope has. -/
  scope : Nat
  /-- What it stands for. -/
  kind : PlaceholderKind
  /-- What it was found to be. -/
  solution : Option Solution
deriving DecidableEq

/-- Two phrases to compare once more is known. -/
inductive Comparison where
  /-- The terms have to be equal. -/
  | equalTerms (left right : Term)
  /-- The sorts have to be equal. -/
  | equalSorts (left right : Universe)
  /-- The left sort has to be below the right one. -/
  | leqSorts (left right : Universe)
deriving DecidableEq

/-- A postponed comparison. -/
structure Constraint where
  /-- How many variables are in scope on both sides. -/
  depth : Nat
  /-- What is compared. -/
  comparison : Comparison
deriving DecidableEq

/-- The state of the checker. -/
structure State where
  /-- The declarations. -/
  signature : Signature
  /-- The placeholders, by their numbers. -/
  placeholders : List Placeholder
  /-- The postponed comparisons, oldest first. -/
  constraints : List Constraint
  /-- The instance constructors of datatypes, oldest first. -/
  instances : PathMap (List Path)

namespace State

/-- The solution of a placeholder. -/
def solution? (state : State) (id : Nat) : Option Solution :=
  match state.placeholders[id]? with
  | some placeholder => placeholder.solution
  | none => none

/-- Adds a placeholder, which gets the next number. -/
def addPlaceholder (state : State) (scope : Nat) (kind : PlaceholderKind) : State :=
  { state with placeholders := state.placeholders ++ [⟨scope, kind, none⟩] }

/-- Solves a placeholder, which has to exist and to be unsolved. -/
def solve (state : State) (id : Nat) (solution : Solution) : Except Halt State :=
  match state.placeholders[id]? with
  | none => .error (.fault (.placeholderMissing id))
  | some ⟨_, _, some _⟩ => .error (.fault (.placeholderSolved id))
  | some ⟨scope, kind, none⟩ =>
    .ok { state with placeholders := state.placeholders.set id ⟨scope, kind, some solution⟩ }

/-- The numbers of the unsolved placeholders, increasing. -/
def unsolved (state : State) : List Nat :=
  (List.range state.placeholders.length).filter fun id => (state.solution? id).isNone

/-- Postpones a comparison. -/
def postpone (state : State) (depth : Nat) (comparison : Comparison) : State :=
  { state with constraints := state.constraints ++ [⟨depth, comparison⟩] }

/-- Declares a constructor as an instance of its datatype. -/
def addInstance (state : State) (datatype constructor : Path) : State :=
  { state with
    instances := state.instances.insert datatype
      ((state.instances.get? datatype).getD [] ++ [constructor]) }

/-- The instances of a datatype. -/
def instancesOf (state : State) (datatype : Path) : List Path :=
  (state.instances.get? datatype).getD []

end State

end Families
