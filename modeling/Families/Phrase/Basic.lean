import Families.Binder
import Families.Names

/-!
# Phrases

Terms, types, sorts and levels refer to one another.  They are the categories of one inductive
family, so that an operation on all of them is one recursion, and a law about all of them is one
induction.  Variables are de Bruijn indices, counted outward from where they stand.
-/

namespace Families

/-- The categories of phrases. -/
inductive Category where
  /-- Terms. -/
  | term
  /-- Terms used as types, with the sort they inhabit. -/
  | type
  /-- Sorts, the types of types. -/
  | sort
  /-- Universe levels. -/
  | level
  /-- The atoms of a level. -/
  | atoms
  /-- Sequences of terms. -/
  | terms
deriving DecidableEq

/-- A phrase of the given category. -/
inductive Phrase : Category → Type where
  /-- A variable, by the number of binders between it and its own. -/
  | var (index : Nat) : Phrase .term
  /-- A declaration. -/
  | const (path : Path) : Phrase .term
  /-- An application. -/
  | app (function argument : Phrase .term) (info : ArgInfo) : Phrase .term
  /-- A dependent function type.  The codomain stands under one more binder than the domain. -/
  | pi (name : Name) (info : ArgInfo) (domain codomain : Phrase .type) : Phrase .term
  /-- A sort, as a term. -/
  | univ (sort : Phrase .sort) : Phrase .term
  /-- A level, as a term. -/
  | level (level : Phrase .level) : Phrase .term
  /-- A term still to be found, with a term for each variable of its own scope. -/
  | placeholder (id : Nat) (arguments : Phrase .terms) : Phrase .term
  /-- A term used as a type, with the sort it inhabits. -/
  | classified (sort : Phrase .sort) (term : Phrase .term) : Phrase .type
  /-- The sort of propositions. -/
  | prop : Phrase .sort
  /-- The sort of sets of a level. -/
  | set (level : Phrase .level) : Phrase .sort
  /-- The sort of sizes. -/
  | sizeUniv : Phrase .sort
  /-- The sort above all sets. -/
  | omega : Phrase .sort
  /-- A sort still to be found, with a term for each variable of its own scope. -/
  | sortPlaceholder (id : Nat) (arguments : Phrase .terms) : Phrase .sort
  /-- The least upper bound of a constant and of atoms. -/
  | lub (constant : Nat) (atoms : Phrase .atoms) : Phrase .level
  /-- No atoms. -/
  | noAtoms : Phrase .atoms
  /-- A first atom, which is a term of type level raised by an offset. -/
  | atom (term : Phrase .term) (offset : Nat) (rest : Phrase .atoms) : Phrase .atoms
  /-- No terms. -/
  | noTerms : Phrase .terms
  /-- A first term. -/
  | terms (first : Phrase .term) (rest : Phrase .terms) : Phrase .terms
deriving DecidableEq

/-- A term. -/
abbrev Term := Phrase .term

/-- A type. -/
abbrev Ty := Phrase .type

/-- A sort. -/
abbrev Universe := Phrase .sort

/-- A level. -/
abbrev Level := Phrase .level

/-- The binder of a function type, or a variable in scope. -/
structure Domain where
  /-- The name that the binder was written with. -/
  name : Name
  /-- How the argument is given. -/
  info : ArgInfo
  /-- The type of the argument. -/
  ty : Ty
deriving DecidableEq

namespace Phrase

/-- The sort that a type inhabits. -/
def sort : Ty → Universe
  | classified sort _ => sort

/-- A type as a term. -/
def term : Ty → Term
  | classified _ term => term

/-- The terms of a sequence, as a list.  Phrases of other categories list none. -/
def toList : {category : Category} → Phrase category → List Term
  | _, terms first rest => first :: rest.toList
  | _, _ => []

/-- A list of terms as a sequence. -/
def ofList : List Term → Phrase .terms
  | [] => noTerms
  | first :: rest => terms first (ofList rest)

@[simp]
theorem toList_noTerms : toList noTerms = [] := rfl

@[simp]
theorem toList_terms (first : Term) (rest : Phrase .terms) :
    toList (terms first rest) = first :: rest.toList := rfl

@[simp]
theorem toList_ofList : ∀ list : List Term, (ofList list).toList = list
  | [] => rfl
  | first :: rest => congrArg (first :: ·) (toList_ofList rest)

@[simp]
theorem ofList_toList : ∀ sequence : Phrase .terms, ofList sequence.toList = sequence
  | noTerms => rfl
  | terms first rest => congrArg (terms first) (ofList_toList rest)

/-- The function at the left end of a chain of applications.  Every other phrase is its own head. -/
def head : {category : Category} → Phrase category → Phrase category
  | _, app function _ _ => function.head
  | _, phrase => phrase

/-- The arguments of a chain of applications, followed by further ones. -/
def argumentsFrom :
    {category : Category} → Phrase category → List (ArgInfo × Term) → List (ArgInfo × Term)
  | _, app function argument info, later => function.argumentsFrom ((info, argument) :: later)
  | _, _, later => later

/-- The arguments of a chain of applications, first to last. -/
def arguments (term : Term) : List (ArgInfo × Term) :=
  term.argumentsFrom []

/-- Applies a term to arguments, first to last. -/
def applyTo (function : Term) (arguments : List (ArgInfo × Term)) : Term :=
  arguments.foldl (fun function (info, argument) => app function argument info) function

end Phrase

end Families
