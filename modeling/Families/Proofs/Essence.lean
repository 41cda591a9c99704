import Families.Proofs.Steps

/-!
# The essence of a phrase

Comparisons disregard the names of binders, what applications say of their arguments and the sorts
of types, and a term stands for the level that consists of it.  The essence of a phrase is what
remains when all this is left out, with its levels flat and canonical.  It does not depend on the
order in which parts are left out and variables are replaced.
-/

namespace Families

namespace Level

/-- The level as a term: the term that it consists of, if it is just a term. -/
def unwrapped : Level → Term
  | .lub 0 (.atom term 0 .noAtoms) => term
  | bound => .level bound

theorem unwrapped_cases (bound : Level) :
    (∃ term, bound = ofParts 0 [⟨term, 0⟩] ∧ unwrapped bound = term) ∨
      unwrapped bound = .level bound := by
  fun_cases unwrapped bound with
  | case1 term => exact .inl ⟨term, rfl, rfl⟩
  | case2 => exact .inr rfl

theorem deepEval_unwrapped (value : Term → Nat) (bound : Level) :
    (unwrapped bound).deepEval value = bound.deepEval value := by
  obtain ⟨term, rfl, isTerm⟩ | isLevel := unwrapped_cases bound
  · rw [isTerm]
    simp [ofParts, Phrase.ofAtoms, Phrase.deepEval]
  · rw [isLevel, Phrase.deepEval]

theorem mem_leaves_unwrapped {leaf : Term} (bound : Level) :
    leaf ∈ (unwrapped bound).leaves ↔ leaf ∈ bound.leaves := by
  obtain ⟨term, rfl, isTerm⟩ | isLevel := unwrapped_cases bound
  · rw [isTerm]
    simp [ofParts, Phrase.ofAtoms, Phrase.leaves]
  · rw [isLevel, Phrase.leaves]

theorem ofTerm_of_not_isLevel {term : Term} (noLevel : ¬term.IsLevel) :
    ofTerm term = ofParts 0 [⟨term, 0⟩] := by
  cases term with
  | level => exact absurd trivial noLevel
  | _ => rfl

/-- A flat level is the level that it stands for as a term. -/
theorem Flat.ofTerm_unwrapped {bound : Level} (flat : Flat bound) :
    ofTerm (unwrapped bound) = bound := by
  obtain ⟨term, rfl, isTerm⟩ | isLevel := unwrapped_cases bound
  · rw [isTerm]
    exact ofTerm_of_not_isLevel (flat term (by simp [terms]))
  · rw [isLevel]
    rfl

/-- The flat and canonical level with the value of a phrase. -/
noncomputable def flattened {category : Category} (phrase : Phrase category) : Level :=
  (exists_flattens phrase).choose

theorem canonical_flattened {category : Category} (phrase : Phrase category) :
    Canonical (flattened phrase) :=
  (exists_flattens phrase).choose_spec.1

theorem flattens_flattened {category : Category} (phrase : Phrase category) :
    Flattens phrase (flattened phrase) :=
  (exists_flattens phrase).choose_spec.2

end Level

namespace Phrase

variable {category : Category}

/-- What remains of a phrase without the names of binders, what applications say of their arguments
and the sorts of types, with flat and canonical levels and each term for the level that consists of
it. -/
noncomputable def essence : {category : Category} → Phrase category → Phrase category
  | _, var index => var index
  | _, const path => const path
  | _, app function argument _ => app function.essence argument.essence {}
  | _, pi _ info domain codomain =>
    pi ⟨0⟩ { plicity := info.plicity } domain.essence codomain.essence
  | _, univ sort => univ sort.essence
  | _, level bound => Level.unwrapped bound.essence
  | _, placeholder id arguments => placeholder id arguments.essence
  | _, classified _ term => classified prop term.essence
  | _, prop => prop
  | _, set bound => set bound.essence
  | _, sizeUniv => sizeUniv
  | _, omega => omega
  | _, sortPlaceholder id arguments => sortPlaceholder id arguments.essence
  | _, lub constant atoms => Level.flattened (lub constant atoms.essence)
  | _, noAtoms => noAtoms
  | _, atom term offset rest => atom term.essence offset rest.essence
  | _, noTerms => noTerms
  | _, terms first rest => terms first.essence rest.essence

attribute [local simp] essence

/-! ## Values of essences -/

theorem canonical_essence : ∀ bound : Level, Level.Canonical bound.essence
  | lub constant atoms => by
    rw [essence]
    exact Level.canonical_flattened _

theorem flat_essence : ∀ bound : Level, Level.Flat bound.essence
  | lub constant atoms => by
    rw [essence]
    exact (Level.flattens_flattened _).flat

theorem not_isLevel_essence {term : Term} (noLevel : ¬term.IsLevel) : ¬term.essence.IsLevel := by
  cases term with
  | level => exact absurd trivial noLevel
  | _ => simp [essence, IsLevel]

/-- The value of an essence, by the essences of the leaves. -/
theorem deepEval_essence (value : Term → Nat) (phrase : Phrase category) :
    phrase.essence.deepEval value = phrase.deepEval fun leaf => value leaf.essence := by
  induction phrase with
  | level bound ih =>
    rw [essence, Level.deepEval_unwrapped, ih, deepEval]
  | lub constant atoms ih =>
    rw [essence, (Level.flattens_flattened _).value, deepEval, deepEval, ih]
  | atom term offset rest ihTerm ihRest =>
    rw [essence, deepEval, deepEval, ihTerm, ihRest]
  | _ => simp [essence, deepEval]

/-- The leaves of an essence are the essences of the leaves. -/
theorem mem_leaves_essence {leaf : Term} (phrase : Phrase category) :
    leaf ∈ phrase.essence.leaves ↔ ∃ leaf' ∈ phrase.leaves, leaf'.essence = leaf := by
  induction phrase with
  | level bound ih =>
    rw [essence, Level.mem_leaves_unwrapped, ih, leaves]
  | lub constant atoms ih =>
    have flattens := Level.flattens_flattened (lub constant atoms.essence)
    rw [essence, flattens.flat.mem_leaves, flattens.terms, leaves, ih, leaves]
  | atom term offset rest ihTerm ihRest =>
    simp only [essence, leaves, List.mem_append, ihTerm, ihRest, or_and_right,
      exists_or]
  | _ => simp [essence, leaves, eq_comm]

/-- Levels with the same values have the same essence. -/
theorem essence_eq_of_deepEval_level {left right : Level}
    (same : ∀ value, left.essence.deepEval value = right.essence.deepEval value) :
    left.essence = right.essence :=
  (canonical_essence left).eq_of_deepEval_eq (canonical_essence right) (flat_essence left)
    (flat_essence right) same

theorem deepEval_ofTerm (value : Term → Nat) (term : Term) :
    (Level.ofTerm term).deepEval value = term.deepEval value := by
  cases term with
  | level => rfl
  | _ => simp [Level.ofTerm, Level.ofParts, ofAtoms, deepEval]

/-- The essence of a term stands for a flat and canonical level, which determines it. -/
theorem ofTerm_essence (term : Term) :
    Level.Canonical (Level.ofTerm term.essence) ∧ Level.Flat (Level.ofTerm term.essence) ∧
      Level.unwrapped (Level.ofTerm term.essence) = term.essence := by
  by_cases isLevel : term.IsLevel
  · cases term with
    | level bound =>
      rw [essence, (flat_essence bound).ofTerm_unwrapped]
      exact ⟨canonical_essence bound, flat_essence bound, rfl⟩
    | _ => exact isLevel.elim
  · rw [Level.ofTerm_of_not_isLevel (not_isLevel_essence isLevel)]
    refine ⟨?_, (Level.Flattens.leaf (not_isLevel_essence isLevel)).flat, rfl⟩
    simp [Level.Canonical, Level.Increasing]

/-- Terms with the same values have the same essence. -/
theorem essence_eq_of_deepEval {left right : Term}
    (same : ∀ value, left.essence.deepEval value = right.essence.deepEval value) :
    left.essence = right.essence := by
  obtain ⟨leftCanonical, leftFlat, leftUnwrapped⟩ := ofTerm_essence left
  obtain ⟨rightCanonical, rightFlat, rightUnwrapped⟩ := ofTerm_essence right
  have sameLevel : Level.ofTerm left.essence = Level.ofTerm right.essence := by
    refine leftCanonical.eq_of_deepEval_eq rightCanonical leftFlat rightFlat fun value => ?_
    rw [deepEval_ofTerm, deepEval_ofTerm, same]
  rw [← leftUnwrapped, sameLevel, rightUnwrapped]

/-! ## Essences and substitution -/

/-- What a substitution leaves of a phrase depends on the essence of the phrase. -/
theorem essence_essence_replace (images : Nat → Term) (phrase : Phrase category) :
    (phrase.essence.replace images).essence = (phrase.replace images).essence := by
  induction phrase generalizing images with
  | level bound ih =>
    apply essence_eq_of_deepEval
    intro value
    rw [deepEval_essence, essence, deepEval_replace, Level.deepEval_unwrapped, ← deepEval_replace,
      ← deepEval_essence, ih images, deepEval_essence, deepEval_essence]
    rfl
  | lub constant atoms ih =>
    apply essence_eq_of_deepEval_level
    intro value
    have sameAtoms : (atoms.essence.replace images).deepEval (fun leaf => value leaf.essence) =
        (atoms.replace images).deepEval fun leaf => value leaf.essence := by
      rw [← deepEval_essence, ih images, deepEval_essence]
    rw [deepEval_essence, essence, deepEval_replace, (Level.flattens_flattened _).value,
      ← deepEval_replace, deepEval_essence]
    exact congrArg (max constant) sameAtoms
  | var => rfl
  | _ => simp_all [replace, mapVariables, essence]

/-- A substitution keeps phrases of the same essence so. -/
theorem essence_replace_eq {left right : Phrase category} (same : left.essence = right.essence)
    (images : Nat → Term) : (left.replace images).essence = (right.replace images).essence := by
  rw [← essence_essence_replace, same, essence_essence_replace]

/-- What a substitution leaves of a phrase depends on the essences of the images. -/
theorem essence_replace_congr {left right : Nat → Term} (phrase : Phrase category)
    (same : ∀ index, (left index).essence = (right index).essence) :
    (phrase.replace left).essence = (phrase.replace right).essence := by
  unfold replace
  induction phrase generalizing left right with
  | var index => exact same index
  | pi name info domain codomain ihDomain ihCodomain =>
    have sameUnder : ∀ index, (up left index).essence = (up right index).essence := by
      intro index
      cases index with
      | zero => rfl
      | succ index =>
        simp only [up, rename_eq_replace]
        exact essence_replace_eq (same index) _
    simp only [mapVariables, essence]
    rw [ihDomain same, ihCodomain sameUnder]
  | _ => grind [mapVariables, essence]

theorem essence_replace_assigned {left right : List Term} (phrase : Phrase category)
    (same : left.map essence = right.map essence) :
    (phrase.replace (assigned left)).essence = (phrase.replace (assigned right)).essence := by
  apply essence_replace_congr
  intro index
  have sameLength : left.length = right.length := by simpa using congrArg List.length same
  have sameAt : left[index]?.map essence = right[index]?.map essence := by
    rw [← List.getElem?_map, ← List.getElem?_map, same]
  simp only [assigned, sameLength]
  cases leftAt : left[index]? <;> cases rightAt : right[index]? <;> simp_all

/-! ## Essences of applications -/

theorem toList_essence : ∀ sequence : Phrase .terms,
    sequence.essence.toList = sequence.toList.map essence
  | noTerms => rfl
  | terms first rest => by simp [essence, toList_essence rest]

/-- Where the head is no level, an application has the essence of the head and of the arguments. -/
theorem essence_spine :
    ∀ {term : Term}, ¬term.head.IsLevel →
      term.essence.head = term.head.essence ∧
        term.essence.arguments = term.arguments.map fun argument => ({}, argument.2.essence)
  | app function argument info, noLevel => by
    obtain ⟨sameHead, sameArguments⟩ := @essence_spine function noLevel
    refine ⟨sameHead, ?_⟩
    simp [essence, arguments_app, sameArguments]
  | level _, noLevel => absurd trivial noLevel
  | var _, _ | const _, _ | pi _ _ _ _, _ | univ _, _ | placeholder _ _, _ => ⟨rfl, rfl⟩

/-- An application of a declaration is recognised by its essence. -/
theorem head_eq_const_of_essence_eq {path : Path} {left right : Term}
    (same : left.essence = right.essence) (isConst : left.head = .const path)
    (noLevel : ¬right.head.IsLevel) :
    right.head = .const path ∧
      left.arguments.map (·.2.essence) = right.arguments.map (·.2.essence) := by
  have leftNoLevel : ¬left.head.IsLevel := by simp [isConst, IsLevel]
  obtain ⟨leftHead, leftArguments⟩ := essence_spine leftNoLevel
  obtain ⟨rightHead, rightArguments⟩ := essence_spine noLevel
  have sameHead : right.head.essence = .const path := by
    rw [← rightHead, ← same, leftHead, isConst]
    rfl
  have sameArguments := congrArg (List.map Prod.snd) (congrArg arguments same)
  rw [leftArguments, rightArguments] at sameArguments
  refine ⟨?_, by simpa [Function.comp_def] using sameArguments⟩
  generalize right.head = head at noLevel sameHead
  cases head with
  | level => exact absurd trivial noLevel
  | const => exact sameHead
  | _ => simp [essence] at sameHead

end Phrase
end Families
