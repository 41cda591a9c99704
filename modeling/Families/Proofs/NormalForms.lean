import Families.Proofs.Parallel

/-!
# Normal forms

The normal form of a phrase is described by rules without a bound on numbers, in which the normal
form of a level is determined by its value.  There is at most one, and steps of the phrase keep it,
whether they are taken at the head or elsewhere.  What normalisation returns is the normal form.
-/

namespace Families

variable {term next : Term} {id : Nat} {info : ArgInfo}

/-- The phrase has the normal form: it takes the steps at its head, then its parts have their normal
forms, and a level has a canonical one with the same value and without levels among its terms. -/
inductive HasNormalForm (state : State) :
    {category : Category} → Phrase category → Phrase category → Prop where
  | step {term next result : Term} :
      Unfolds state term next → HasNormalForm state next result → HasNormalForm state term result
  | sortStep {id : Nat} {arguments : Phrase .terms} {solution result : Universe} :
      state.solution? id = some (.sort solution) →
      solution.Below arguments.toList.length →
      HasNormalForm state (solution.replace (Phrase.assigned arguments.toList)) result →
      HasNormalForm state (.sortPlaceholder id arguments) result
  | atomic {category : Category} {phrase : Phrase category} :
      phrase.IsAtomic → Stuck state phrase → HasNormalForm state phrase phrase
  | app {function function' argument argument' : Term} {info : ArgInfo} :
      Stuck state (.app function argument info) →
      HasNormalForm state function function' → HasNormalForm state argument argument' →
      HasNormalForm state (.app function argument info) (.app function' argument' info)
  | pi {name : Name} {info : ArgInfo} {domain domain' codomain codomain' : Ty} :
      HasNormalForm state domain domain' → HasNormalForm state codomain codomain' →
      HasNormalForm state (.pi name info domain codomain) (.pi name info domain' codomain')
  | univ {sort sort' : Universe} :
      HasNormalForm state sort sort' → HasNormalForm state (.univ sort) (.univ sort')
  | level {bound bound' : Level} :
      HasNormalForm state bound bound' → HasNormalForm state (.level bound) (.level bound')
  | placeholder {id : Nat} {arguments arguments' : Phrase .terms} :
      Stuck state (.placeholder id arguments) → HasNormalForm state arguments arguments' →
      HasNormalForm state (.placeholder id arguments) (.placeholder id arguments')
  | classified {sort sort' : Universe} {term term' : Term} :
      HasNormalForm state sort sort' → HasNormalForm state term term' →
      HasNormalForm state (.classified sort term) (.classified sort' term')
  | set {bound bound' : Level} :
      HasNormalForm state bound bound' → HasNormalForm state (.set bound) (.set bound')
  | sortPlaceholder {id : Nat} {arguments arguments' : Phrase .terms} :
      Stuck state (.sortPlaceholder id arguments) → HasNormalForm state arguments arguments' →
      HasNormalForm state (.sortPlaceholder id arguments) (.sortPlaceholder id arguments')
  | lub {constant : Nat} {atoms atoms' : Phrase .atoms} {bound : Level} :
      HasNormalForm state atoms atoms' →
      Level.Canonical bound →
      Level.Flat bound →
      (∀ value, bound.deepEval value = (Phrase.lub constant atoms').deepEval value) →
      HasNormalForm state (.lub constant atoms) bound
  | atom {term term' : Term} {offset : Nat} {rest rest' : Phrase .atoms} :
      HasNormalForm state term term' → HasNormalForm state rest rest' →
      HasNormalForm state (.atom term offset rest) (.atom term' offset rest')
  | terms {first first' : Term} {rest rest' : Phrase .terms} :
      HasNormalForm state first first' → HasNormalForm state rest rest' →
      HasNormalForm state (.terms first rest) (.terms first' rest')

variable {state : State} {category : Category}

/-- A stuck term has no step. -/
theorem Stuck.not_unfolds (stuck : Stuck state term) : ¬Unfolds state term next := by
  cases term with
  | univ | level => exact stuck.elim
  | _ => exact stuck next

/-- A term with a step at its head is neither a function type, nor a sort, nor a level. -/
theorem Unfolds.head_eq (unfolds : Unfolds state term next) :
    (∃ id arguments, term.head = .placeholder id arguments) ∨ ∃ path, term.head = .const path := by
  rcases unfolds.head_cases with ⟨id, arguments, _, isPlaceholder, _⟩ | ⟨path, _, _, isConst, _⟩
  · exact .inl ⟨id, arguments, isPlaceholder⟩
  · exact .inr ⟨path, isConst⟩

/-- A level, or the level that a term is, is canonical, and no term of it is a level. -/
def Phrase.IsCanonical : {category : Category} → Phrase category → Prop
  | _, .level bound => bound.IsCanonical
  | _, .lub constant atoms =>
    Level.Canonical (.lub constant atoms) ∧ Level.Flat (.lub constant atoms)
  | _, _ => True

namespace HasNormalForm

/-! ## The parts of a phrase with a normal form -/

theorem app_cases {function argument result : Term}
    (hasNormalForm : HasNormalForm state (.app function argument info) result)
    (stuck : ∀ next, ¬Unfolds state (.app function argument info) next) :
    ∃ function' argument', result = .app function' argument' info ∧
      HasNormalForm state function function' ∧ HasNormalForm state argument argument' := by
  cases hasNormalForm with
  | step unfolds _ => exact absurd unfolds (stuck _)
  | atomic isAtomic _ => exact isAtomic.elim
  | app _ hasFunction hasArgument => exact ⟨_, _, rfl, hasFunction, hasArgument⟩

theorem pi_cases {name : Name} {domain codomain : Ty} {result : Term}
    (hasNormalForm : HasNormalForm state (.pi name info domain codomain) result) :
    ∃ domain' codomain', result = .pi name info domain' codomain' ∧
      HasNormalForm state domain domain' ∧ HasNormalForm state codomain codomain' := by
  cases hasNormalForm with
  | step unfolds _ => simpa [Phrase.head] using unfolds.head_eq
  | atomic isAtomic _ => exact isAtomic.elim
  | pi hasDomain hasCodomain => exact ⟨_, _, rfl, hasDomain, hasCodomain⟩

theorem univ_cases {sort : Universe} {result : Term}
    (hasNormalForm : HasNormalForm state (.univ sort) result) :
    ∃ sort', result = .univ sort' ∧ HasNormalForm state sort sort' := by
  cases hasNormalForm with
  | step unfolds _ => simpa [Phrase.head] using unfolds.head_eq
  | atomic isAtomic _ => exact isAtomic.elim
  | univ hasSort => exact ⟨_, rfl, hasSort⟩

theorem level_cases {bound : Level} {result : Term}
    (hasNormalForm : HasNormalForm state (.level bound) result) :
    ∃ bound', result = .level bound' ∧ HasNormalForm state bound bound' := by
  cases hasNormalForm with
  | step unfolds _ => simpa [Phrase.head] using unfolds.head_eq
  | atomic isAtomic _ => exact isAtomic.elim
  | level hasBound => exact ⟨_, rfl, hasBound⟩

theorem placeholder_cases {arguments : Phrase .terms} {result : Term}
    (hasNormalForm : HasNormalForm state (.placeholder id arguments) result)
    (stuck : ∀ next, ¬Unfolds state (.placeholder id arguments) next) :
    ∃ arguments', result = .placeholder id arguments' ∧
      HasNormalForm state arguments arguments' := by
  cases hasNormalForm with
  | step unfolds _ => exact absurd unfolds (stuck _)
  | atomic isAtomic _ => exact isAtomic.elim
  | placeholder _ hasArguments => exact ⟨_, rfl, hasArguments⟩

theorem classified_cases {sort : Universe} {result : Ty}
    (hasNormalForm : HasNormalForm state (.classified sort term) result) :
    ∃ sort' term', result = .classified sort' term' ∧
      HasNormalForm state sort sort' ∧ HasNormalForm state term term' := by
  cases hasNormalForm with
  | atomic isAtomic _ => exact isAtomic.elim
  | classified hasSort hasTerm => exact ⟨_, _, rfl, hasSort, hasTerm⟩

theorem set_cases {bound : Level} {result : Universe}
    (hasNormalForm : HasNormalForm state (.set bound) result) :
    ∃ bound', result = .set bound' ∧ HasNormalForm state bound bound' := by
  cases hasNormalForm with
  | atomic isAtomic _ => exact isAtomic.elim
  | set hasBound => exact ⟨_, rfl, hasBound⟩

theorem sortPlaceholder_cases {arguments : Phrase .terms} {result : Universe}
    (hasNormalForm : HasNormalForm state (.sortPlaceholder id arguments) result)
    (stuck : ∀ solution, state.solution? id ≠ some (.sort solution)) :
    ∃ arguments', result = .sortPlaceholder id arguments' ∧
      HasNormalForm state arguments arguments' := by
  cases hasNormalForm with
  | sortStep solved _ _ => exact absurd solved (stuck _)
  | atomic isAtomic _ => exact isAtomic.elim
  | sortPlaceholder _ hasArguments => exact ⟨_, rfl, hasArguments⟩

theorem lub_cases {constant : Nat} {atoms : Phrase .atoms} {bound : Level}
    (hasNormalForm : HasNormalForm state (.lub constant atoms) bound) :
    ∃ atoms', HasNormalForm state atoms atoms' ∧ Level.Canonical bound ∧ Level.Flat bound ∧
      ∀ value, bound.deepEval value = (Phrase.lub constant atoms').deepEval value := by
  cases hasNormalForm with
  | atomic isAtomic _ => exact isAtomic.elim
  | lub hasAtoms canonical flat value => exact ⟨_, hasAtoms, canonical, flat, value⟩

theorem atom_cases {offset : Nat} {rest result : Phrase .atoms}
    (hasNormalForm : HasNormalForm state (.atom term offset rest) result) :
    ∃ term' rest', result = .atom term' offset rest' ∧
      HasNormalForm state term term' ∧ HasNormalForm state rest rest' := by
  cases hasNormalForm with
  | atomic isAtomic _ => exact isAtomic.elim
  | atom hasTerm hasRest => exact ⟨_, _, rfl, hasTerm, hasRest⟩

theorem terms_cases {first : Term} {rest result : Phrase .terms}
    (hasNormalForm : HasNormalForm state (.terms first rest) result) :
    ∃ first' rest', result = .terms first' rest' ∧
      HasNormalForm state first first' ∧ HasNormalForm state rest rest' := by
  cases hasNormalForm with
  | atomic isAtomic _ => exact isAtomic.elim
  | terms hasFirst hasRest => exact ⟨_, _, rfl, hasFirst, hasRest⟩

/-! ## Uniqueness -/

/-- A step at the head keeps the normal form. -/
theorem of_unfolds {result : Term} (hasNormalForm : HasNormalForm state term result)
    (unfolds : Unfolds state term next) : HasNormalForm state next result := by
  cases hasNormalForm with
  | step unfolds' hasNormalForm => exact unfolds.deterministic unfolds' ▸ hasNormalForm
  | atomic _ stuck | app stuck _ _ | placeholder stuck _ => exact absurd unfolds stuck.not_unfolds
  | pi | univ | level => simpa [Phrase.head] using unfolds.head_eq

/-- The solution of a placeholder for a sort has the normal form of the placeholder. -/
theorem of_solved {arguments : Phrase .terms} {solution result : Universe}
    (hasNormalForm : HasNormalForm state (.sortPlaceholder id arguments) result)
    (solved : state.solution? id = some (.sort solution)) :
    HasNormalForm state (solution.replace (Phrase.assigned arguments.toList)) result := by
  cases hasNormalForm with
  | sortStep solved' _ hasNormalForm =>
    obtain rfl : solution = _ := by simpa [solved] using solved'
    exact hasNormalForm
  | atomic isAtomic _ => exact isAtomic.elim
  | sortPlaceholder stuck _ => exact absurd solved (stuck solution)

/-- There is at most one normal form. -/
theorem deterministic {phrase left right : Phrase category}
    (hasLeft : HasNormalForm state phrase left) (hasRight : HasNormalForm state phrase right) :
    left = right := by
  induction hasLeft with
  | step unfolds _ ih => exact ih (hasRight.of_unfolds unfolds)
  | sortStep solved _ _ ih => exact ih (hasRight.of_solved solved)
  | atomic isAtomic stuck =>
    cases hasRight with
    | step unfolds _ => exact absurd unfolds stuck.not_unfolds
    | atomic => rfl
    | _ => exact isAtomic.elim
  | lub hasAtoms canonical flat value ih =>
    obtain ⟨_, hasAtoms', canonical', flat', value'⟩ := hasRight.lub_cases
    obtain rfl := ih hasAtoms'
    exact canonical.eq_of_deepEval_eq canonical' flat flat' fun valuation =>
      (value valuation).trans (value' valuation).symm
  | app stuck hasFunction hasArgument ihFunction ihArgument =>
    obtain ⟨_, _, rfl, hasFunction', hasArgument'⟩ := hasRight.app_cases fun _ => stuck.not_unfolds
    rw [ihFunction hasFunction', ihArgument hasArgument']
  | placeholder stuck _ ih =>
    obtain ⟨_, rfl, hasArguments⟩ := hasRight.placeholder_cases fun _ => stuck.not_unfolds
    rw [ih hasArguments]
  | sortPlaceholder stuck _ ih =>
    obtain ⟨_, rfl, hasArguments⟩ := hasRight.sortPlaceholder_cases stuck
    rw [ih hasArguments]
  | pi _ _ ihDomain ihCodomain =>
    obtain ⟨_, _, rfl, hasDomain, hasCodomain⟩ := hasRight.pi_cases
    rw [ihDomain hasDomain, ihCodomain hasCodomain]
  | univ _ ih =>
    obtain ⟨_, rfl, hasSort⟩ := hasRight.univ_cases
    rw [ih hasSort]
  | level _ ih =>
    obtain ⟨_, rfl, hasBound⟩ := hasRight.level_cases
    rw [ih hasBound]
  | classified _ _ ihSort ihTerm =>
    obtain ⟨_, _, rfl, hasSort, hasTerm⟩ := hasRight.classified_cases
    rw [ihSort hasSort, ihTerm hasTerm]
  | set _ ih =>
    obtain ⟨_, rfl, hasBound⟩ := hasRight.set_cases
    rw [ih hasBound]
  | atom _ _ ihTerm ihRest =>
    obtain ⟨_, _, rfl, hasTerm, hasRest⟩ := hasRight.atom_cases
    rw [ihTerm hasTerm, ihRest hasRest]
  | terms _ _ ihFirst ihRest =>
    obtain ⟨_, _, rfl, hasFirst, hasRest⟩ := hasRight.terms_cases
    rw [ihFirst hasFirst, ihRest hasRest]

/-! ## The normal forms of levels -/

theorem isCanonical {phrase result : Phrase category}
    (hasNormalForm : HasNormalForm state phrase result) : result.IsCanonical := by
  induction hasNormalForm with
  | step _ _ ih => exact ih
  | sortStep _ _ _ ih => exact ih
  | level _ ih => exact ih
  | @lub _ _ _ bound _ canonical flat _ _ =>
    cases bound
    exact ⟨canonical, flat⟩
  | @atomic _ phrase isAtomic _ => cases phrase <;> first | exact isAtomic.elim | trivial
  | _ => trivial

/-- No level stands among the atoms of a normal form. -/
theorem flat :
    ∀ {bound bound' : Level}, HasNormalForm state bound bound' → Level.Flat bound'
  | _, .lub _ _, hasNormalForm => hasNormalForm.isCanonical.2

open Classical in
/-- The normal form of a term, or the term itself where there is none. -/
noncomputable def normalForm (state : State) (term : Term) : Term :=
  if exists_ : ∃ result, HasNormalForm state term result then exists_.choose else term

theorem normalForm_eq {result : Term} (hasNormalForm : HasNormalForm state term result) :
    normalForm state term = result := by
  have exists_ : ∃ result, HasNormalForm state term result := ⟨result, hasNormalForm⟩
  rw [normalForm, dif_pos exists_]
  exact exists_.choose_spec.deterministic hasNormalForm

/-- The value of a normal form is that of the phrase, if each leaf counts as its normal form. -/
theorem deepEval_eq {phrase result : Phrase category}
    (hasNormalForm : HasNormalForm state phrase result) (value : Term → Nat) :
    result.deepEval value = phrase.deepEval fun leaf => (normalForm state leaf).deepEval value := by
  induction phrase with
  | level bound ih =>
    obtain ⟨_, rfl, hasBound⟩ := hasNormalForm.level_cases
    exact ih hasBound
  | lub constant atoms ih =>
    obtain ⟨_, hasAtoms, _, _, sameValue⟩ := hasNormalForm.lub_cases
    rw [sameValue, Phrase.deepEval, Phrase.deepEval, ih hasAtoms]
  | atom term offset rest ihTerm ihRest =>
    obtain ⟨_, _, rfl, hasTerm, hasRest⟩ := hasNormalForm.atom_cases
    rw [Phrase.deepEval, Phrase.deepEval, ihTerm hasTerm, ihRest hasRest]
  | var | const | app | pi | univ | placeholder =>
    rw [← normalForm_eq hasNormalForm]
    rfl
  | noAtoms =>
    cases hasNormalForm
    rfl
  | _ => cases result <;> rfl

/-- The leaves of a phrase with a normal form have normal forms. -/
theorem exists_of_mem_leaves {phrase result : Phrase category} {leaf : Term}
    (hasNormalForm : HasNormalForm state phrase result) (present : leaf ∈ phrase.leaves) :
    ∃ result, HasNormalForm state leaf result := by
  induction phrase with
  | level bound ih =>
    obtain ⟨_, rfl, hasBound⟩ := hasNormalForm.level_cases
    exact ih hasBound present
  | lub constant atoms ih =>
    obtain ⟨_, hasAtoms, _, _, _⟩ := hasNormalForm.lub_cases
    exact ih hasAtoms present
  | atom term offset rest ihTerm ihRest =>
    obtain ⟨_, _, rfl, hasTerm, hasRest⟩ := hasNormalForm.atom_cases
    rcases List.mem_append.1 present with inTerm | inRest
    · exact ihTerm hasTerm inTerm
    · exact ihRest hasRest inRest
  | var | const | app | pi | univ | placeholder =>
    rw [List.mem_singleton.1 present]
    exact ⟨result, hasNormalForm⟩
  | _ => exact absurd present List.not_mem_nil

/-- A phrase whose leaves have normal forms has one. -/
theorem exists_of_leaves {phrase : Phrase category}
    (isPart : category = .term ∨ category = .level ∨ category = .atoms)
    (hasLeaves : ∀ leaf ∈ phrase.leaves, ∃ result, HasNormalForm state leaf result) :
    ∃ result, HasNormalForm state phrase result := by
  induction phrase with
  | level bound ih =>
    obtain ⟨result, hasNormalForm⟩ := ih (by simp) hasLeaves
    exact ⟨_, .level hasNormalForm⟩
  | lub constant atoms ih =>
    obtain ⟨atoms', hasAtoms⟩ := ih (by simp) hasLeaves
    obtain ⟨bound, canonical, flattens⟩ := Level.exists_flattens (Phrase.lub constant atoms')
    exact ⟨bound, .lub hasAtoms canonical flattens.flat flattens.value⟩
  | noAtoms => exact ⟨_, .atomic trivial trivial⟩
  | atom term offset rest ihTerm ihRest =>
    obtain ⟨term', hasTerm⟩ := ihTerm (by simp) fun leaf present =>
      hasLeaves leaf (List.mem_append_left _ present)
    obtain ⟨rest', hasRest⟩ := ihRest (by simp) fun leaf present =>
      hasLeaves leaf (List.mem_append_right _ present)
    exact ⟨_, .atom hasTerm hasRest⟩
  | var | const | app | pi | univ | placeholder => exact hasLeaves _ (List.mem_singleton.2 rfl)
  | _ => simp at isPart

/-- A level has the normal form of a level with the same value and the same leaves. -/
theorem of_regroups {constant : Nat} {atoms atoms' : Phrase .atoms} {joined bound : Level}
    (hasAtoms : HasNormalForm state atoms atoms') (canonical : Level.Canonical bound)
    (flat : Level.Flat bound)
    (value : ∀ value, bound.deepEval value = (Phrase.lub constant atoms').deepEval value)
    (regroups : Level.Regroups (Phrase.lub constant atoms) joined) :
    HasNormalForm state joined bound := by
  cases joined with
  | lub constantJoined atomsJoined =>
    obtain ⟨atomsJoined', hasJoined⟩ :
        ∃ result, HasNormalForm state atomsJoined result := by
      refine exists_of_leaves (by simp) fun leaf present => ?_
      exact hasAtoms.exists_of_mem_leaves ((regroups.leaves leaf).1 present)
    refine .lub hasJoined canonical flat fun valuation => ?_
    -- Both sides are the value of the joined level with each leaf counting as its normal form.
    calc
      bound.deepEval valuation
          = (Phrase.lub constant atoms).deepEval
              fun leaf => (normalForm state leaf).deepEval valuation := by
            rw [value, Phrase.deepEval, hasAtoms.deepEval_eq]
            rfl
      _ = (Phrase.lub constantJoined atomsJoined).deepEval
              fun leaf => (normalForm state leaf).deepEval valuation :=
            (regroups.value _).symm
      _ = (Phrase.lub constantJoined atomsJoined').deepEval valuation := by
            rw [Phrase.deepEval, Phrase.deepEval, hasJoined.deepEval_eq]

/-! ## Steps keep normal forms -/

/-- Steps of a phrase keep its normal form. -/
theorem of_parallel {phrase phrase' result : Phrase category}
    (hasNormalForm : HasNormalForm state phrase result) (parallel : Parallel state phrase phrase') :
    HasNormalForm state phrase' result := by
  induction hasNormalForm with
  | step unfolds _ ih =>
    rcases parallel.strip unfolds with done | ⟨next', unfolds', parallel⟩
    · exact ih done
    · exact .step unfolds' (ih parallel)
  | @sortStep id arguments solution result solved below _ ih =>
    cases parallel with
    | sortPlaceholder argumentsParallel =>
      have listParallel := argumentsParallel.forall₂_toList
      rw [listParallel.length_eq] at below
      exact .sortStep solved below
        (ih (Parallel.replace_assigned solution listParallel))
    | atomic isAtomic => exact isAtomic.elim
    | sortStep solved' _ parallel =>
      obtain rfl : solution = _ := by simpa [solved] using solved'
      exact ih parallel
  | atomic isAtomic stuck =>
    cases parallel with
    | step unfolds _ => exact absurd unfolds stuck.not_unfolds
    | atomic => exact .atomic isAtomic stuck
    | _ => exact isAtomic.elim
  | app stuck _ _ ihFunction ihArgument =>
    cases parallel with
    | app functionParallel argumentParallel =>
      refine .app (fun _ => Parallel.not_unfolds (fun _ => stuck.not_unfolds) ?_)
        (ihFunction functionParallel) (ihArgument argumentParallel)
      exact .app functionParallel argumentParallel
    | atomic isAtomic => exact isAtomic.elim
    | step unfolds _ => exact absurd unfolds stuck.not_unfolds
  | placeholder stuck _ ih =>
    cases parallel with
    | placeholder argumentsParallel =>
      refine .placeholder (fun _ => Parallel.not_unfolds (fun _ => stuck.not_unfolds) ?_)
        (ih argumentsParallel)
      exact .placeholder argumentsParallel
    | atomic isAtomic => exact isAtomic.elim
    | step unfolds _ => exact absurd unfolds stuck.not_unfolds
  | sortPlaceholder stuck _ ih =>
    cases parallel with
    | sortPlaceholder argumentsParallel =>
      exact .sortPlaceholder stuck (ih argumentsParallel)
    | atomic isAtomic => exact isAtomic.elim
    | sortStep solved _ _ => exact absurd solved (stuck _)
  | lub _ canonical flat value ih =>
    cases parallel with
    | lub atomsParallel => exact .lub (ih atomsParallel) canonical flat value
    | atomic isAtomic => exact isAtomic.elim
    | regroup atomsParallel regroups =>
      exact of_regroups (ih atomsParallel) canonical flat value regroups
  | pi _ _ ihDomain ihCodomain =>
    cases parallel with
    | pi domainParallel codomainParallel =>
      exact .pi (ihDomain domainParallel) (ihCodomain codomainParallel)
    | atomic isAtomic => exact isAtomic.elim
    | step unfolds _ => simpa [Phrase.head] using unfolds.head_eq
  | univ _ ih =>
    cases parallel with
    | univ sortParallel => exact .univ (ih sortParallel)
    | atomic isAtomic => exact isAtomic.elim
    | step unfolds _ => simpa [Phrase.head] using unfolds.head_eq
  | level _ ih =>
    cases parallel with
    | level boundParallel => exact .level (ih boundParallel)
    | atomic isAtomic => exact isAtomic.elim
    | step unfolds _ => simpa [Phrase.head] using unfolds.head_eq
  | classified _ _ ihSort ihTerm =>
    cases parallel with
    | classified sortParallel termParallel =>
      exact .classified (ihSort sortParallel) (ihTerm termParallel)
    | atomic isAtomic => exact isAtomic.elim
  | set _ ih =>
    cases parallel with
    | set boundParallel => exact .set (ih boundParallel)
    | atomic isAtomic => exact isAtomic.elim
  | atom _ _ ihTerm ihRest =>
    cases parallel with
    | atom termParallel restParallel =>
      exact .atom (ihTerm termParallel) (ihRest restParallel)
    | atomic isAtomic => exact isAtomic.elim
  | terms _ _ ihFirst ihRest =>
    cases parallel with
    | terms firstParallel restParallel =>
      exact .terms (ihFirst firstParallel) (ihRest restParallel)
    | atomic isAtomic => exact isAtomic.elim

theorem of_rewrites {phrase phrase' result : Phrase category}
    (hasNormalForm : HasNormalForm state phrase result) (rewrites : Rewrites state phrase phrase') :
    HasNormalForm state phrase' result := by
  induction rewrites with
  | refl => exact hasNormalForm
  | tail _ parallel ih => exact ih.of_parallel parallel

/-! ## Normalisation returns normal forms -/

/-- Atoms have the normal form of atoms whose terms they reduce to. -/
theorem of_mapAtoms {change : Term → Term} :
    ∀ {atoms result : Phrase .atoms},
      (∀ atom ∈ atoms.atomList, ∀ {result}, HasNormalForm state (change atom.term) result →
        HasNormalForm state atom.term result) →
      HasNormalForm state (atoms.mapAtoms change) result → HasNormalForm state atoms result
  | .noAtoms, _, _, hasNormalForm => hasNormalForm
  | .atom term offset rest, _, expands, hasNormalForm => by
    rw [Phrase.atomList_atom, List.forall_mem_cons] at expands
    obtain ⟨_, _, rfl, hasTerm, hasRest⟩ := hasNormalForm.atom_cases
    exact .atom (expands.1 hasTerm) (of_mapAtoms expands.2 hasRest)

/-- A level, and nothing else that cannot be unfolded, has a level as its normal form. -/
theorem isLevel_iff {term normal : Term}
    (hasNormalForm : HasNormalForm state term normal) (stuck : ∀ next, ¬Unfolds state term next) :
    normal.IsLevel ↔ term.IsLevel := by
  cases hasNormalForm with
  | step unfolds _ => exact absurd unfolds (stuck _)
  | _ => rfl

/-- The terms of the normal form of atoms are normal forms. -/
theorem exists_of_mem_atomList :
    ∀ {atoms atoms' : Phrase .atoms}, HasNormalForm state atoms atoms' →
      ∀ atom' ∈ atoms'.atomList, ∃ atom ∈ atoms.atomList, HasNormalForm state atom.term atom'.term
  | .noAtoms, _, hasNormalForm => by
    cases hasNormalForm
    simp [Phrase.atomList]
  | .atom term offset rest, _, hasNormalForm => by
    obtain ⟨term', rest', rfl, hasTerm, hasRest⟩ := hasNormalForm.atom_cases
    intro atom' present
    rcases List.mem_cons.1 present with rfl | later
    · exact ⟨⟨term, offset⟩, List.mem_cons_self, hasTerm⟩
    · obtain ⟨atom, atomPresent, hasNormalForm⟩ := exists_of_mem_atomList hasRest atom' later
      exact ⟨atom, List.mem_cons_of_mem _ atomPresent, hasNormalForm⟩

end HasNormalForm

/-! ## What a normal form holds -/

/-- Nothing in the phrase can be unfolded: no term at its head and no placeholder.  Its levels are
canonical, and none of their terms is a level. -/
def IsNormal (state : State) : {category : Category} → Phrase category → Prop
  | _, .var _ => True
  | _, .const path => unfoldHead? state (.const path) = .ok none
  | _, .app function argument info =>
    unfoldHead? state (.app function argument info) = .ok none ∧
      IsNormal state function ∧ IsNormal state argument
  | _, .pi _ _ domain codomain => IsNormal state domain ∧ IsNormal state codomain
  | _, .univ sort => IsNormal state sort
  | _, .level bound => IsNormal state bound
  | _, .placeholder id arguments => state.solution? id = none ∧ IsNormal state arguments
  | _, .classified sort term => IsNormal state sort ∧ IsNormal state term
  | _, .prop => True
  | _, .set bound => IsNormal state bound
  | _, .sizeUniv => True
  | _, .omega => True
  | _, .sortPlaceholder id arguments => state.solution? id = none ∧ IsNormal state arguments
  | _, .lub constant atoms =>
    Level.Canonical (.lub constant atoms) ∧ (∀ atom ∈ atoms.atomList, ¬atom.term.IsLevel) ∧
      IsNormal state atoms
  | _, .noAtoms => True
  | _, .atom term _ rest => IsNormal state term ∧ IsNormal state rest
  | _, .noTerms => True
  | _, .terms first rest => IsNormal state first ∧ IsNormal state rest

variable {phrase result : Phrase category} {depth fuel : Nat} {arguments : Phrase .terms}

theorem isNormal_ofAtoms_iff :
    ∀ {atoms : List Atom}, IsNormal state (.ofAtoms atoms) ↔
      ∀ atom ∈ atoms, IsNormal state atom.term
  | [] => by simp [Phrase.ofAtoms, IsNormal]
  | atom :: atoms => by simp [Phrase.ofAtoms, IsNormal, isNormal_ofAtoms_iff]

/-- A level is normal exactly when it is canonical and its terms are normal and no levels. -/
theorem isNormal_level_iff :
    ∀ {bound : Level}, IsNormal state bound ↔ Level.Canonical bound ∧
      ∀ term ∈ Level.terms bound, ¬term.IsLevel ∧ IsNormal state term
  | .lub constant atoms => by
    have atomsNormal : IsNormal state atoms ↔
        ∀ atom ∈ atoms.atomList, IsNormal state atom.term := by
      rw [← isNormal_ofAtoms_iff, Phrase.ofAtoms_atomList]
    simp [IsNormal, atomsNormal, Level.terms, Level.atoms, forall_and]

theorem IsNormal.atomList {atoms : Phrase .atoms} (isNormal : IsNormal state atoms) :
    ∀ atom ∈ atoms.atomList, IsNormal state atom.term :=
  isNormal_ofAtoms_iff.1 (by rwa [Phrase.ofAtoms_atomList])

/-- A term of a well-scoped state that cannot be unfolded is not unfolded. -/
theorem unfoldHead?_of_not_unfolds {term : Term} (wellScoped : state.WellScoped)
    (inScope : term.Scoped state.Fits depth) (stuck : ∀ next, ¬Unfolds state term next) :
    unfoldHead? state term = .ok none := by
  have headInScope := ((Phrase.scoped_iff_arguments term).1 inScope).1
  have isApplied := term.applyTo_arguments
  refine unfoldHead?_eq_none_iff.2 ⟨fun id arguments isHead solution solved => ?_,
    fun path arity body isHead found => ?_⟩
  · rw [isHead] at headInScope isApplied
    obtain ⟨_, ⟨⟩, valueInScope⟩ := wellScoped.termSolution headInScope.1 solved
    have unfolds := (Unfolds.placeholder solved valueInScope.below).applyTo term.arguments
    rw [isApplied] at unfolds
    exact stuck _ unfolds
  · by_contra enough
    obtain ⟨_, _, declared⟩ := Signature.definition?_of_body? found
    have below : body.Below arity := (wellScoped.definition declared).2.below
    have full : (term.arguments.take arity).length = arity := by simpa using enough
    have unfolds := (Unfolds.function_applyTo found below full).applyTo (term.arguments.drop arity)
    rw [← Phrase.applyTo_append, List.take_append_drop, ← isHead, isApplied] at unfolds
    exact stuck _ unfolds

theorem Level.mem_terms_of_asPlaceholder? {bound : Level}
    (isPlaceholder : asPlaceholder? bound = some (id, arguments)) :
    Phrase.placeholder id arguments ∈ terms bound := by
  unfold asPlaceholder? at isPlaceholder
  split at isPlaceholder
  · rename_i _ _ onlyAtom
    obtain ⟨rfl, rfl⟩ : _ ∧ _ := by simpa using isPlaceholder
    simp [terms, onlyAtom]
  · simp at isPlaceholder

/-- A placeholder that a normal level consists of has no solution. -/
theorem IsNormal.unsolved_of_asPlaceholder? {bound : Level} (isNormal : IsNormal state bound)
    (inScope : bound.Scoped state.Fits depth)
    (isPlaceholder : Level.asPlaceholder? bound = some (id, arguments)) :
    (Phrase.placeholder id arguments).Scoped state.Fits depth ∧ state.solution? id = none := by
  have mentioned := Level.mem_terms_of_asPlaceholder? isPlaceholder
  refine ⟨Level.scoped_iff.1 inScope _ mentioned, ?_⟩
  cases bound with
  | lub constant atoms =>
    obtain ⟨atom, present, isTerm⟩ := List.mem_map.1 mentioned
    have termNormal := isNormal.2.2.atomList atom present
    rw [isTerm] at termNormal
    exact termNormal.1

/-! ## Reduction -/

/-- What reduction returns for a phrase: steps lead to it, it has no other normal form than the
phrase has, and reduction leaves it as it is. -/
structure Reduces (state : State) (phrase result : Phrase category) : Prop where
  parallel : Parallel state phrase result
  expands : ∀ {normal}, HasNormalForm state result normal → HasNormalForm state phrase normal
  inert : Inert state result

/-- Successful reduction keeps scopes and normal forms. -/
theorem reduces_of_reduce (wellScoped : state.WellScoped)
    (reduced : reduce state fuel phrase = .ok result) (inScope : phrase.Scoped state.Fits depth) :
    Reduces state phrase result ∧ result.Scoped state.Fits depth := by
  have reached := reached_of_reduce reduced
  clear reduced
  induction reached with
  | univ _ ih =>
    obtain ⟨reduces, sortInScope⟩ := ih inScope
    refine ⟨⟨.univ reduces.parallel, fun hasNormalForm => ?_, .univ reduces.inert⟩, sortInScope⟩
    obtain ⟨_, rfl, hasSort⟩ := hasNormalForm.univ_cases
    exact .univ (reduces.expands hasSort)
  | level _ ih =>
    obtain ⟨reduces, boundInScope⟩ := ih inScope
    refine ⟨⟨.level reduces.parallel, fun hasNormalForm => ?_, .level reduces.inert⟩, boundInScope⟩
    obtain ⟨_, rfl, hasBound⟩ := hasNormalForm.level_cases
    exact .level (reduces.expands hasBound)
  | set _ ih =>
    obtain ⟨reduces, boundInScope⟩ := ih inScope
    refine ⟨⟨.set reduces.parallel, fun hasNormalForm => ?_, .set reduces.inert⟩, boundInScope⟩
    obtain ⟨_, rfl, hasBound⟩ := hasNormalForm.set_cases
    exact .set (reduces.expands hasBound)
  | step step _ ih =>
    obtain ⟨unfolds, nextInScope⟩ := step.unfolds wellScoped inScope
    obtain ⟨⟨parallel, expands, inert⟩, resultInScope⟩ := ih nextInScope
    exact ⟨⟨.step unfolds parallel, fun has => .step unfolds (expands has), inert⟩, resultInScope⟩
  | @sortStep id arguments solution sort result solved substituted _ ih =>
    obtain ⟨_, ⟨⟩, solutionInScope⟩ := wellScoped.sortSolution inScope.1 solved
    have below := solutionInScope.below
    obtain ⟨⟨parallel, expands, inert⟩, resultInScope⟩ := ih (solutionInScope.substitute?
      ((Phrase.scoped_iff_toList arguments).1 inScope.2) substituted)
    obtain rfl := Phrase.eq_replace_of_substitute? substituted
    exact ⟨⟨.sortStep solved below parallel, fun has =>
      .sortStep solved below (expands has), inert⟩, resultInScope⟩
  | @lub constant atoms heads joined reached flattens canonical ih =>
    have atomsInScope := (Phrase.scoped_iff_atomList _).1 inScope
    have each := fun atom present => ih atom present (atomsInScope atom present)
    have parallel := Parallel.mapAtoms fun atom present => (each atom present).1.parallel
    refine ⟨⟨.regroup parallel flattens.regroups, fun {normal} hasNormalForm => ?_,
      (Reached.lub reached flattens canonical).inert⟩, ?_⟩
    · obtain ⟨heads', hasHeads⟩ : ∃ result, HasNormalForm state (atoms.mapAtoms heads) result := by
        refine HasNormalForm.exists_of_leaves (by simp) fun leaf present => ?_
        have isTerm := (flattens.terms leaf).2 present
        exact hasNormalForm.exists_of_mem_leaves (flattens.flat.mem_leaves.2 isTerm)
      have isCanonical := hasNormalForm.isCanonical
      cases normal with
      | lub constant' atoms' =>
        refine .lub (.of_mapAtoms (fun atom present _ => (each atom present).1.expands) hasHeads)
          isCanonical.1 isCanonical.2 fun valuation => ?_
        rw [hasNormalForm.deepEval_eq, flattens.value, Phrase.deepEval, Phrase.deepEval,
          hasHeads.deepEval_eq]
    · rw [Level.scoped_iff]
      intro term present
      obtain ⟨source, sourcePresent, isLeaf⟩ := flattens.exists_leaf present
      exact (each source sourcePresent).2.leaf isLeaf
  | stops stops => exact ⟨⟨.refl _, id, .stops stops⟩, inScope⟩

/-- The binders at the front of a scoped type stand one under the other, and what is left of the
type stands under all of them. -/
theorem scoped_telescopeView (wellScoped : state.WellScoped) {ty tail : Ty} {telescope : Telescope}
    (inScope : ty.Scoped state.Fits depth)
    (viewed : telescopeView state fuel ty = .ok (telescope, tail)) :
    Telescope.Scoped state.Fits depth telescope ∧
      tail.Scoped state.Fits (depth + telescope.length) := by
  induction fuel generalizing ty depth telescope with
  | zero => simp [telescopeView] at viewed
  | succ fuel ih =>
    rw [telescopeView, bind_eq_ok_iff] at viewed
    obtain ⟨reduced, reduction, continued⟩ := viewed
    have reducedInScope := (reduces_of_reduce wellScoped reduction inScope.term).2
    split at continued
    · rename_i name info domain codomain
      simp only [bind_eq_ok_iff, pure_eq_ok_iff] at continued
      obtain ⟨⟨rest, tail'⟩, restViewed, same⟩ := continued
      obtain ⟨rfl, rfl⟩ := Prod.mk.inj same
      obtain ⟨restInScope, tailInScope⟩ := ih reducedInScope.2 restViewed
      refine ⟨⟨reducedInScope.1, restInScope⟩, ?_⟩
      rw [List.length_cons]
      exact (by omega : depth + 1 + rest.length = depth + (rest.length + 1)) ▸ tailInScope
    · obtain ⟨rfl, rfl⟩ := Prod.mk.inj (Except.ok.inj continued)
      exact ⟨trivial, inScope.sort, reducedInScope⟩

/-! ## Normalisation -/

/-- What normalisation returns for a phrase: steps lead to it, it is the normal form, and nothing in
it can be unfolded. -/
structure Normalises (state : State) (phrase result : Phrase category) : Prop where
  rewrites : Rewrites state phrase result
  hasNormalForm : HasNormalForm state phrase result
  isNormal : IsNormal state result

/-- Successful normalisation of a scoped phrase returns its normal form and keeps scopes. -/
theorem normalises_of_normalise (wellScoped : state.WellScoped)
    (normalised : normalise state fuel phrase = .ok result)
    (inScope : phrase.Scoped state.Fits depth) :
    Normalises state phrase result ∧ result.Scoped state.Fits depth := by
  induction fuel generalizing category phrase result depth with
  | zero => cases normalised
  | succ fuel ih =>
    obtain ⟨reduced, reduction, rebuilds⟩ := normalise_eq_ok_iff.1 normalised
    obtain ⟨reduces, reducedInScope⟩ := reduces_of_reduce wellScoped reduction inScope
    have inert := reduces.inert
    suffices rebuilt : Normalises state reduced result ∧ result.Scoped state.Fits depth by
      obtain ⟨⟨rewrites, hasNormalForm, isNormal⟩, resultInScope⟩ := rebuilt
      exact ⟨⟨(Rewrites.of_parallel reduces.parallel).trans rewrites, reduces.expands hasNormalForm,
        isNormal⟩, resultInScope⟩
    cases rebuilds with
    | var | prop | sizeUniv | omega | noAtoms | noTerms =>
      cases inert with
      | stops stops => exact ⟨⟨.refl, .atomic trivial stops.stuck, trivial⟩, reducedInScope⟩
    | const =>
      cases inert with
      | stops stops => exact ⟨⟨.refl, .atomic trivial stops.stuck, stops⟩, reducedInScope⟩
    | @app _ function' _ argument' info functionDone argumentDone =>
      obtain ⟨function, functionInScope⟩ := ih functionDone reducedInScope.1
      obtain ⟨argument, argumentInScope⟩ := ih argumentDone reducedInScope.2
      have rewrites : Rewrites state (.app _ _ info) (.app function' argument' info) :=
        function.rewrites.map₂ argument.rewrites .app
      have resultInScope : (Phrase.app function' argument' info).Scoped state.Fits depth :=
        ⟨functionInScope, argumentInScope⟩
      have stops := unfoldHead?_of_not_unfolds wellScoped resultInScope
        (rewrites.not_unfolds fun _ => inert.not_unfolds)
      exact ⟨⟨rewrites, .app (fun _ => inert.not_unfolds) function.hasNormalForm
        argument.hasNormalForm, stops, function.isNormal, argument.isNormal⟩, resultInScope⟩
    | pi domainDone codomainDone =>
      obtain ⟨domain, domainInScope⟩ := ih domainDone reducedInScope.1
      obtain ⟨codomain, codomainInScope⟩ := ih codomainDone reducedInScope.2
      exact ⟨⟨domain.rewrites.map₂ codomain.rewrites .pi,
        .pi domain.hasNormalForm codomain.hasNormalForm, domain.isNormal, codomain.isNormal⟩,
        domainInScope, codomainInScope⟩
    | univ done =>
      obtain ⟨sort, sortInScope⟩ := ih done reducedInScope
      exact ⟨⟨sort.rewrites.map .univ, .univ sort.hasNormalForm, sort.isNormal⟩, sortInScope⟩
    | level done =>
      obtain ⟨bound, boundInScope⟩ := ih done reducedInScope
      exact ⟨⟨bound.rewrites.map .level, .level bound.hasNormalForm, bound.isNormal⟩, boundInScope⟩
    | set done =>
      obtain ⟨bound, boundInScope⟩ := ih done reducedInScope
      exact ⟨⟨bound.rewrites.map .set, .set bound.hasNormalForm, bound.isNormal⟩, boundInScope⟩
    | placeholder done =>
      obtain ⟨arguments, argumentsInScope⟩ := ih done reducedInScope.2
      exact ⟨⟨arguments.rewrites.map .placeholder,
        .placeholder (fun _ => inert.not_unfolds) arguments.hasNormalForm,
        inert.unsolved wellScoped reducedInScope, arguments.isNormal⟩,
        arguments.rewrites.toList_length ▸ reducedInScope.1, argumentsInScope⟩
    | sortPlaceholder done =>
      obtain ⟨arguments, argumentsInScope⟩ := ih done reducedInScope.2
      cases inert with
      | stops stops =>
        exact ⟨⟨arguments.rewrites.map .sortPlaceholder,
          .sortPlaceholder stops arguments.hasNormalForm,
          (Inert.stops stops).unsolved_sort wellScoped reducedInScope, arguments.isNormal⟩,
          arguments.rewrites.toList_length ▸ reducedInScope.1, argumentsInScope⟩
    | classified sortDone termDone =>
      obtain ⟨sort, sortInScope⟩ := ih sortDone reducedInScope.1
      obtain ⟨term, termInScope⟩ := ih termDone reducedInScope.2
      exact ⟨⟨sort.rewrites.map₂ term.rewrites .classified,
        .classified sort.hasNormalForm term.hasNormalForm, sort.isNormal, term.isNormal⟩,
        sortInScope, termInScope⟩
    | atom termDone restDone =>
      obtain ⟨term, termInScope⟩ := ih termDone reducedInScope.1
      obtain ⟨rest, restInScope⟩ := ih restDone reducedInScope.2
      exact ⟨⟨term.rewrites.map₂ rest.rewrites .atom,
        .atom term.hasNormalForm rest.hasNormalForm, term.isNormal, rest.isNormal⟩,
        termInScope, restInScope⟩
    | terms firstDone restDone =>
      obtain ⟨first, firstInScope⟩ := ih firstDone reducedInScope.1
      obtain ⟨rest, restInScope⟩ := ih restDone reducedInScope.2
      exact ⟨⟨first.rewrites.map₂ rest.rewrites .terms,
        .terms first.hasNormalForm rest.hasNormalForm, first.isNormal, rest.isNormal⟩,
        firstInScope, restInScope⟩
    | @lub constant _ atoms' done =>
      obtain ⟨atoms, atomsInScope⟩ := ih done reducedInScope
      have noLevels : ∀ atom ∈ atoms'.atomList, ¬atom.term.IsLevel := by
        intro atom' present
        obtain ⟨atom, atomPresent, hasTerm⟩ :=
          atoms.hasNormalForm.exists_of_mem_atomList atom' present
        cases inert with
        | stops stops => exact stops.elim
        | lub _ noLevels inertTerms =>
          rw [hasTerm.isLevel_iff fun _ => (inertTerms atom atomPresent).not_unfolds]
          exact noLevels atom atomPresent
      have flattens : Level.Flattens (Phrase.lub constant atoms') _ := .canonical noLevels
      have canonical := Level.canonical_canonical constant atoms'.atomList
      refine ⟨⟨(atoms.rewrites.map .lub).trans
        (.of_parallel (.regroup (.refl _) flattens.regroups)),
        .lub atoms.hasNormalForm canonical flattens.flat flattens.value, canonical, ?_, ?_⟩,
        Level.scoped_canonical ((Phrase.scoped_iff_atomList atoms').1 atomsInScope)⟩
      · exact fun atom present => flattens.flat _ (List.mem_map_of_mem present)
      · refine isNormal_ofAtoms_iff.2 fun atom present => ?_
        -- The terms of the canonical form are those of the normalised atoms.
        have isTerm : atom.term ∈ Level.terms (Level.canonical constant atoms'.atomList) := by
          refine List.mem_map_of_mem ?_
          rwa [Level.canonical, Level.atoms_ofParts]
        obtain ⟨source, isSource, same⟩ := List.mem_map.1 (Level.mem_terms_canonical.1 isTerm)
        exact same ▸ atoms.isNormal.atomList source isSource

end Families
