import Families.Phrase.Basic

/-!
# The order of phrases

Phrases of one category are compared form by form and then part by part, from left to right.  This
is the lexicographic order of their keys, and distinct phrases have distinct keys, even when
followed by more.
-/

namespace Families
namespace Phrase

/-- A phrase written out as numbers: its form, then its parts. -/
def key : {category : Category} → Phrase category → List Nat
  | _, var index => [0, index]
  | _, const path => [1, path.id]
  | _, app function argument info =>
    2 :: (function.key ++ (argument.key ++ [info.plicity.rank, info.relevance.rank]))
  | _, pi name info domain codomain =>
    3 :: name.id :: info.plicity.rank :: info.relevance.rank :: (domain.key ++ codomain.key)
  | _, univ sort => 4 :: sort.key
  | _, level bound => 5 :: bound.key
  | _, placeholder id arguments => 6 :: id :: arguments.key
  | _, classified sort term => sort.key ++ term.key
  | _, prop => [0]
  | _, set bound => 1 :: bound.key
  | _, sizeUniv => [2]
  | _, omega => [3]
  | _, sortPlaceholder id arguments => 4 :: id :: arguments.key
  | _, lub constant atoms => constant :: atoms.key
  | _, noAtoms => [0]
  | _, atom term offset rest => 1 :: (term.key ++ offset :: rest.key)
  | _, noTerms => [0]
  | _, terms first rest => 1 :: (first.key ++ rest.key)

/-- A key determines its phrase and where it ends. -/
theorem key_append_cancel
    {category : Category}
    {left right : Phrase category}
    {leftRest rightRest : List Nat}
    (equal : left.key ++ leftRest = right.key ++ rightRest) :
    left = right ∧ leftRest = rightRest := by
  induction left generalizing leftRest rightRest with
  | var | const | prop | sizeUniv | omega | noAtoms | noTerms =>
    cases right <;> simp_all [key, Path.ext_iff]
  | univ sort ihSort =>
    cases right with
    | univ => simpa using ihSort (by simpa [key] using equal)
    | _ => simp [key] at equal
  | level bound ihBound =>
    cases right with
    | level => simpa using ihBound (by simpa [key] using equal)
    | _ => simp [key] at equal
  | set bound ihBound =>
    cases right with
    | set => simpa using ihBound (by simpa [key] using equal)
    | _ => simp [key] at equal
  | placeholder id arguments ihArguments =>
    cases right with
    | placeholder =>
      obtain ⟨rfl, keys⟩ : _ ∧ _ := by simpa [key] using equal
      simpa using ihArguments keys
    | _ => simp [key] at equal
  | sortPlaceholder id arguments ihArguments =>
    cases right with
    | sortPlaceholder =>
      obtain ⟨rfl, keys⟩ : _ ∧ _ := by simpa [key] using equal
      simpa using ihArguments keys
    | _ => simp [key] at equal
  | lub constant atoms ihAtoms =>
    cases right with
    | lub =>
      obtain ⟨rfl, keys⟩ : _ ∧ _ := by simpa [key] using equal
      simpa using ihAtoms keys
  | classified sort term ihSort ihTerm =>
    cases right with
    | classified =>
      obtain ⟨rfl, keys⟩ := ihSort (by simpa [key] using equal)
      simpa using ihTerm keys
  | app function argument info ihFunction ihArgument =>
    cases right with
    | app =>
      obtain ⟨rfl, keys⟩ := ihFunction (by simpa [key] using equal)
      obtain ⟨rfl, ranks⟩ := ihArgument keys
      obtain ⟨annotations, relevances, rests⟩ : _ ∧ _ ∧ _ := by simpa using ranks
      simp [ArgInfo.ext_iff, Plicity.rank_injective annotations,
        Relevance.rank_injective relevances, rests]
    | _ => simp [key] at equal
  | pi name info domain codomain ihDomain ihCodomain =>
    cases right with
    | pi =>
      simp only [key, List.cons_append, List.append_assoc, List.cons.injEq, true_and] at equal
      obtain ⟨names, annotations, relevances, keys⟩ := equal
      obtain ⟨rfl, codomainKeys⟩ := ihDomain keys
      obtain ⟨rfl, rests⟩ := ihCodomain codomainKeys
      simp [Name.ext_iff, names, ArgInfo.ext_iff, Plicity.rank_injective annotations,
        Relevance.rank_injective relevances, rests]
    | _ => simp [key] at equal
  | atom term offset rest ihTerm ihRest =>
    cases right with
    | atom =>
      obtain ⟨rfl, keys⟩ := ihTerm (by simpa [key] using equal)
      obtain ⟨rfl, restKeys⟩ : _ ∧ _ := by simpa using keys
      simpa using ihRest restKeys
    | _ => simp [key] at equal
  | terms first rest ihFirst ihRest =>
    cases right with
    | terms =>
      obtain ⟨rfl, keys⟩ := ihFirst (by simpa [key] using equal)
      simpa using ihRest keys
    | _ => simp [key] at equal

/-- Phrases with the same key are the same. -/
theorem key_injective
    {category : Category}
    {left right : Phrase category}
    (equal : left.key = right.key) :
    left = right :=
  (key_append_cancel (congrArg (· ++ []) equal)).1

instance (category : Category) : Ord (Phrase category) where
  compare left right := compare left.key right.key

end Phrase
end Families
