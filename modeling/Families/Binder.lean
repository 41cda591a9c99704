/-!
# Binder annotations

How the argument of a function is given, whether it may influence computation, and whether a
datatype is inductive.
-/

namespace Families

/-- How an argument is written. -/
inductive Plicity where
  /-- Written out. -/
  | explicit
  /-- Filled in from its context. -/
  | implicit
  /-- Filled in by instance search. -/
  | inst
deriving DecidableEq

/-- Whether a value may influence computation. -/
inductive Relevance where
  /-- Used without restriction. -/
  | relevant
  /-- Used in types only. -/
  | nonStrict
  /-- Ignored by conversion. -/
  | irrelevant
deriving DecidableEq

/-- What a binder, and the application that fills it, say about the argument. -/
@[ext]
structure ArgInfo where
  /-- How the argument is written. -/
  plicity : Plicity := .explicit
  /-- Whether the argument matters to conversion. -/
  relevance : Relevance := .relevant
deriving DecidableEq

/-- Whether a datatype is inductive or coinductive. -/
inductive Induction where
  /-- Finite values only. -/
  | ind
  /-- Possibly infinite values. -/
  | coind
deriving DecidableEq

namespace Plicity

/-- The position of a plicity in the order of its declaration. -/
def rank : Plicity → Nat
  | explicit => 0
  | implicit => 1
  | inst => 2

/-- The word for a plicity in messages. -/
def text : Plicity → String
  | explicit => "Explicit"
  | implicit => "Implicit"
  | inst => "Instance"

/-- Different annotations have different ranks. -/
theorem rank_injective {left right : Plicity} (equal : left.rank = right.rank) :
    left = right := by
  cases left <;> cases right <;> first | rfl | exact absurd equal (by decide)

end Plicity

namespace Relevance

/-- The position of a relevance in the order of its declaration. -/
def rank : Relevance → Nat
  | relevant => 0
  | nonStrict => 1
  | irrelevant => 2

/-- Different relevances have different ranks. -/
theorem rank_injective {left right : Relevance} (equal : left.rank = right.rank) :
    left = right := by
  cases left <;> cases right <;> first | rfl | exact absurd equal (by decide)

end Relevance

namespace ArgInfo

/-- Conversion ignores the argument. -/
def isIrrelevant (info : ArgInfo) : Bool :=
  info.relevance == .irrelevant

end ArgInfo

end Families
