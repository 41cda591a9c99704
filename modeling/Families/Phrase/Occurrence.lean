import Families.Phrase.Basic
import Families.Positions

/-!
# Occurrences

Which placeholders and which free variables occur in a phrase.
-/

namespace Families

/-- Which occurrences of a variable count. -/
inductive Occurrence where
  /-- All of them. -/
  | anywhere
  /-- Those outside the sorts of types and outside irrelevant arguments. -/
  | outsideAnnotations
deriving DecidableEq

namespace Phrase

/-- Some placeholder, for a term or for a sort, passes the test. -/
def anyPlaceholder (test : Nat → Bool) : {category : Category} → Phrase category → Bool
  | _, var _ => false
  | _, const _ => false
  | _, app function argument _ => function.anyPlaceholder test || argument.anyPlaceholder test
  | _, pi _ _ domain codomain => domain.anyPlaceholder test || codomain.anyPlaceholder test
  | _, univ sort => sort.anyPlaceholder test
  | _, level bound => bound.anyPlaceholder test
  | _, placeholder id arguments => test id || arguments.anyPlaceholder test
  | _, classified sort term => sort.anyPlaceholder test || term.anyPlaceholder test
  | _, prop => false
  | _, set bound => bound.anyPlaceholder test
  | _, sizeUniv => false
  | _, omega => false
  | _, sortPlaceholder id arguments => test id || arguments.anyPlaceholder test
  | _, lub _ atoms => atoms.anyPlaceholder test
  | _, noAtoms => false
  | _, atom term _ rest => term.anyPlaceholder test || rest.anyPlaceholder test
  | _, noTerms => false
  | _, terms first rest => first.anyPlaceholder test || rest.anyPlaceholder test

variable {category : Category}

/-- A placeholder occurs. -/
def hasPlaceholder (phrase : Phrase category) : Bool :=
  phrase.anyPlaceholder fun _ => true

/-- The given placeholder occurs. -/
def mentions (phrase : Phrase category) (id : Nat) : Bool :=
  phrase.anyPlaceholder (· == id)

/-- The free variables that count, for a phrase under `depth` binders, as often as they occur. -/
def freeFrom (counted : Occurrence) :
    {category : Category} → (depth : Nat) → Phrase category → List Nat
  | _, depth, var index => if depth ≤ index then [index - depth] else []
  | _, _, const _ => []
  | _, depth, app function argument info =>
    function.freeFrom counted depth ++
      (if counted = .outsideAnnotations ∧ info.isIrrelevant then
        []
      else
        argument.freeFrom counted depth)
  | _, depth, pi _ _ domain codomain =>
    domain.freeFrom counted depth ++ codomain.freeFrom counted (depth + 1)
  | _, depth, univ sort => sort.freeFrom counted depth
  | _, depth, level bound => bound.freeFrom counted depth
  | _, depth, placeholder _ arguments => arguments.freeFrom counted depth
  | _, depth, classified sort term =>
    (if counted = .anywhere then sort.freeFrom counted depth else []) ++
      term.freeFrom counted depth
  | _, _, prop => []
  | _, depth, set bound => bound.freeFrom counted depth
  | _, _, sizeUniv => []
  | _, _, omega => []
  | _, depth, sortPlaceholder _ arguments => arguments.freeFrom counted depth
  | _, depth, lub _ atoms => atoms.freeFrom counted depth
  | _, _, noAtoms => []
  | _, depth, atom term _ rest => term.freeFrom counted depth ++ rest.freeFrom counted depth
  | _, _, noTerms => []
  | _, depth, terms first rest => first.freeFrom counted depth ++ rest.freeFrom counted depth

/-- The free variables of a phrase. -/
def freeVariables (phrase : Phrase category) (counted : Occurrence) : Positions :=
  Positions.ofList (phrase.freeFrom counted 0)

end Phrase
end Families
