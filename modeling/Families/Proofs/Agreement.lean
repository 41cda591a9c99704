import Families.Proofs.NormalForms

/-!
# Agreement of normal forms

A comparison disregards some parts of what it compares.  Terms agree when they are the same up to
these parts.  Two phrases are equated in a state when their normal forms agree there and whenever
more placeholders have been solved.
-/

namespace Families

variable {earlier later : State} {id : Nat} {arguments : Phrase .terms}

/-- The terms are the same up to the names and the relevance of binders, the sorts of types, what
applications say of their arguments, arguments that are skipped on the left, levels and sorts that
count as the same, and a term in the place of the level that consists of it. -/
inductive AgreesUpTo (skips : ArgInfo → Bool)
    (same : ∀ {category : Category}, Phrase category → Phrase category → Prop) :
    Term → Term → Prop where
  | refl (term : Term) : AgreesUpTo skips same term term
  | app {function function' argument argument' : Term} {info info' : ArgInfo} :
      AgreesUpTo skips same function function' →
      (skips info = false → AgreesUpTo skips same argument argument') →
      AgreesUpTo skips same (.app function argument info) (.app function' argument' info')
  | pi {name name' : Name} {info info' : ArgInfo} {domain domain' codomain codomain' : Ty} :
      info.plicity = info'.plicity → AgreesUpTo skips same domain.term domain'.term →
      AgreesUpTo skips same codomain.term codomain'.term →
      AgreesUpTo skips same (.pi name info domain codomain) (.pi name' info' domain' codomain')
  | univ {sort sort' : Universe} : same sort sort' →
      AgreesUpTo skips same (.univ sort) (.univ sort')
  | level {bound bound' : Level} : same bound bound' →
      AgreesUpTo skips same (.level bound) (.level bound')
  | wrapped (term : Term) : AgreesUpTo skips same term (.level (Level.ofParts 0 [⟨term, 0⟩]))
  | unwrapped (term : Term) : AgreesUpTo skips same (.level (Level.ofParts 0 [⟨term, 0⟩])) term

/-- The terms agree up to arguments that are irrelevant on the left.  Levels and sorts are taken as
they stand. -/
abbrev Agrees : Term → Term → Prop :=
  AgreesUpTo ArgInfo.isIrrelevant Eq

namespace AgreesUpTo

variable {skips : ArgInfo → Bool} {info : ArgInfo} {left right : Term}
variable {same : ∀ {category : Category}, Phrase category → Phrase category → Prop}

/-- What agrees with a term that is no level is no level, unless it consists of the term. -/
theorem eq_wrapped_or_not_isLevel (agrees : AgreesUpTo skips same left right)
    (noLevel : ¬left.IsLevel) :
    right = .level (Level.ofParts 0 [⟨left, 0⟩]) ∨ ¬right.IsLevel := by
  cases agrees with
  | refl => exact .inr noLevel
  | wrapped => exact .inl rfl
  | level | unwrapped => exact absurd trivial noLevel
  | app | pi | univ => exact .inr not_false

theorem app_cases {function argument : Term}
    (agrees : AgreesUpTo skips same (.app function argument info) right)
    (noLevel : ¬right.IsLevel) :
    ∃ function' argument' info', right = .app function' argument' info' ∧
      AgreesUpTo skips same function function' ∧
      (skips info = false → AgreesUpTo skips same argument argument') := by
  cases agrees with
  | refl => exact ⟨_, _, _, rfl, .refl _, fun _ => .refl _⟩
  | app functions arguments => exact ⟨_, _, _, rfl, functions, arguments⟩
  | wrapped => exact absurd trivial noLevel

theorem pi_cases {name : Name} {domain codomain : Ty}
    (agrees : AgreesUpTo skips same (.pi name info domain codomain) right)
    (noLevel : ¬right.IsLevel) :
    ∃ name' info' domain' codomain', right = .pi name' info' domain' codomain' ∧
      info.plicity = info'.plicity ∧ AgreesUpTo skips same domain.term domain'.term ∧
      AgreesUpTo skips same codomain.term codomain'.term := by
  cases agrees with
  | refl => exact ⟨_, _, _, _, rfl, rfl, .refl _, .refl _⟩
  | pi samePlicity domains codomains => exact ⟨_, _, _, _, rfl, samePlicity, domains, codomains⟩
  | wrapped => exact absurd trivial noLevel

theorem univ_cases {sort : Universe} (agrees : AgreesUpTo skips same (.univ sort) right)
    (noLevel : ¬right.IsLevel) :
    ∃ sort', right = .univ sort' ∧ (sort = sort' ∨ same sort sort') := by
  cases agrees with
  | refl => exact ⟨_, rfl, .inl rfl⟩
  | univ sorts => exact ⟨_, rfl, .inr sorts⟩
  | wrapped => exact absurd trivial noLevel

end AgreesUpTo

variable {category : Category} {state : State}

/-- The normal form of the term of a type. -/
theorem HasNormalForm.term {ty ty' : Ty} (hasNormalForm : HasNormalForm state ty ty') :
    HasNormalForm state ty.term ty'.term := by
  cases hasNormalForm with
  | @atomic _ ty isAtomic _ =>
    cases ty
    exact isAtomic.elim
  | classified _ hasTerm => exact hasTerm

/-- The normal form of the level that consists of a term. -/
theorem HasNormalForm.ofParts {term result : Term}
    (hasNormalForm : HasNormalForm state term result) :
    ∃ bound, HasNormalForm state (Level.ofParts 0 [⟨term, 0⟩]) bound ∧
      (result = .level bound ∨ bound = Level.ofParts 0 [⟨result, 0⟩]) := by
  have hasAtoms : HasNormalForm state (.atom term 0 .noAtoms) (.atom result 0 .noAtoms) :=
    .atom hasNormalForm (.atomic trivial trivial)
  by_cases isLevel : result.IsLevel
  · have isCanonical := hasNormalForm.isCanonical
    cases result with
    | level bound =>
      cases bound with
      | lub constant atoms =>
        refine ⟨_, .lub hasAtoms isCanonical.1 isCanonical.2 fun valuation => ?_, .inl rfl⟩
        simp [Phrase.deepEval]
    | _ => exact isLevel.elim
  · have flattens := Level.Flattens.leaf isLevel
    refine ⟨_, .lub hasAtoms ?_ flattens.flat fun _ => rfl, .inr rfl⟩
    simp [Level.Canonical, Level.Increasing]

/-- The normal form of the level that a term stands for, beside that of the term. -/
theorem HasNormalForm.ofTerm {term result : Term}
    (hasNormalForm : HasNormalForm state term result) :
    ∃ bound, HasNormalForm state (Level.ofTerm term) bound ∧
      (result = .level bound ∨ bound = Level.ofParts 0 [⟨result, 0⟩]) := by
  cases term with
  | level bound =>
    obtain ⟨_, rfl, hasBound⟩ := hasNormalForm.level_cases
    exact ⟨_, hasBound, .inl rfl⟩
  | _ => exact hasNormalForm.ofParts

/-- Whenever no less is known, the normal forms of the phrases are related. -/
def Equates (agree : Phrase category → Phrase category → Prop) (state : State)
    (left right : Phrase category) : Prop :=
  ∀ ⦃later : State⦄ ⦃left' right' : Phrase category⦄, state.Resolves later →
    HasNormalForm later left left' → HasNormalForm later right right' → agree left' right'

namespace Equates

variable {agree : Phrase category → Phrase category → Prop}

theorem mono {left right : Phrase category} (equates : Equates agree state left right)
    (resolves : state.Resolves later) : Equates agree later left right :=
  fun _ _ _ resolves' => equates (resolves.trans resolves')

/-- Phrases may be compared after steps. -/
theorem of_rewrites {left left' right right' : Phrase category} (resolves : earlier.Resolves state)
    (rewritesLeft : Rewrites earlier left left') (rewritesRight : Rewrites earlier right right')
    (equates : Equates agree state left' right') : Equates agree state left right := by
  intro later _ _ resolves' hasLeft hasRight
  have rewritesLeft := rewritesLeft.mono (resolves.trans resolves').retains
  have rewritesRight := rewritesRight.mono (resolves.trans resolves').retains
  exact equates resolves' (hasLeft.of_rewrites rewritesLeft) (hasRight.of_rewrites rewritesRight)

theorem refl (phrase : Phrase category) : Equates Eq state phrase phrase :=
  fun _ _ _ _ hasLeft hasRight => hasLeft.deterministic hasRight

theorem symm {left right : Phrase category} (equates : Equates Eq state left right) :
    Equates Eq state right left :=
  fun _ _ _ resolves hasLeft hasRight => (equates resolves hasRight hasLeft).symm

theorem agrees {left right : Term} (equates : Equates Eq state left right) :
    Equates Agrees state left right := by
  intro later left' right' resolves hasLeft hasRight
  rw [equates resolves hasLeft hasRight]
  exact .refl right'

theorem univ {left right : Universe} (equates : Equates Eq state left right) :
    Equates Eq state (Phrase.univ left) (.univ right) := by
  intro later left' right' resolves hasLeft hasRight
  obtain ⟨_, rfl, hasSort⟩ := hasLeft.univ_cases
  obtain ⟨_, rfl, hasSort'⟩ := hasRight.univ_cases
  exact congrArg Phrase.univ (equates resolves hasSort hasSort')

theorem set {left right : Level} (equates : Equates Eq state left right) :
    Equates Eq state (Phrase.set left) (.set right) := by
  intro later left' right' resolves hasLeft hasRight
  obtain ⟨_, rfl, hasBound⟩ := hasLeft.set_cases
  obtain ⟨_, rfl, hasBound'⟩ := hasRight.set_cases
  exact congrArg Phrase.set (equates resolves hasBound hasBound')

/-! ## Placeholders -/

/-- A placeholder is equated with what was normalised and moved into its scope to solve it. -/
theorem of_solution {solution value : Term} (resolves : earlier.Resolves state)
    (solved : state.solution? id = some (.term solution))
    (below : solution.Below arguments.toList.length)
    (rewrites : Rewrites earlier value (solution.replace (Phrase.assigned arguments.toList))) :
    Equates Eq state (.placeholder id arguments) value := by
  intro later left right resolves' hasLeft hasRight
  have unfolds : Unfolds later (.placeholder id arguments) _ :=
    .placeholder (resolves'.solution _ _ solved) below
  exact (hasLeft.of_unfolds unfolds).deterministic
    (hasRight.of_rewrites (rewrites.mono (resolves.trans resolves').retains))

/-- A placeholder for a sort is equated with what was normalised and moved into its scope to solve
it. -/
theorem of_sortSolution {solution value : Universe} (resolves : earlier.Resolves state)
    (solved : state.solution? id = some (.sort solution))
    (rewrites : Rewrites earlier value (solution.replace (Phrase.assigned arguments.toList))) :
    Equates Eq state (.sortPlaceholder id arguments) value := by
  intro later left right resolves' hasLeft hasRight
  exact (hasLeft.of_solved (resolves'.solution _ _ solved)).deterministic
    (hasRight.of_rewrites (rewrites.mono (resolves.trans resolves').retains))

/-- A level that consists of a placeholder is equated with a level if the placeholder is. -/
theorem of_asPlaceholder? {bound other : Level}
    (isPlaceholder : Level.asPlaceholder? bound = some (id, arguments))
    (equates : Equates Eq state (.placeholder id arguments) (.level other)) :
    Equates Eq state bound other := by
  have shape : bound = .lub 0 (.atom (.placeholder id arguments) 0 .noAtoms) := by
    cases bound with
    | lub constant atoms =>
      unfold Level.asPlaceholder? at isPlaceholder
      split at isPlaceholder
      · rename_i isZero onlyAtom
        obtain ⟨rfl, rfl⟩ : _ ∧ _ := by simpa using isPlaceholder
        obtain rfl : constant = 0 := isZero
        rw [← Phrase.ofAtoms_atomList atoms]
        exact congrArg (fun list => Phrase.lub 0 (Phrase.ofAtoms list)) onlyAtom
      · simp at isPlaceholder
  subst shape
  intro later left right resolves hasLeft hasRight
  obtain ⟨_, hasAtoms, canonical, flat, value⟩ := hasLeft.lub_cases
  obtain ⟨_, _, rfl, hasTerm, hasRest⟩ := hasAtoms.atom_cases
  cases hasRest
  obtain rfl := equates resolves hasTerm (.level hasRight)
  have isCanonical := hasRight.isCanonical
  cases right with
  | lub constant atoms =>
    refine canonical.eq_of_deepEval_eq isCanonical.1 flat isCanonical.2 fun valuation => ?_
    rw [value]
    simp [Phrase.deepEval]

/-! ## Terms of type level -/

/-- Terms are equated if the levels that they stand for are. -/
theorem of_ofTerm {left right : Term}
    (equates : Equates Eq state (Level.ofTerm left) (Level.ofTerm right)) :
    Equates Agrees state left right := by
  intro later left' right' resolves hasLeft hasRight
  obtain ⟨bound, hasBound, isLeft⟩ := hasLeft.ofTerm
  obtain ⟨bound', hasBound', isRight⟩ := hasRight.ofTerm
  obtain rfl := equates resolves hasBound hasBound'
  rcases isLeft with rfl | isLeft
  · rcases isRight with rfl | rfl
    · exact .refl _
    · exact .unwrapped right'
  · rcases isRight with rfl | isRight
    · rw [isLeft]
      exact .wrapped left'
    · obtain rfl : left' = right' := by
        simpa [Level.ofParts, Phrase.ofAtoms] using isLeft.symm.trans isRight
      exact .refl left'

/-! ## Function types and applications -/

theorem pi {name name' : Name} {info info' : ArgInfo} {domain domain' codomain codomain' : Ty}
    (samePlicity : info.plicity = info'.plicity)
    (equatesDomain : Equates Agrees state domain.term domain'.term)
    (equatesCodomain : Equates Agrees state codomain.term codomain'.term) :
    Equates Agrees state (.pi name info domain codomain) (.pi name' info' domain' codomain') := by
  intro later left right resolves hasLeft hasRight
  obtain ⟨_, _, rfl, hasDomain, hasCodomain⟩ := hasLeft.pi_cases
  obtain ⟨_, _, rfl, hasDomain', hasCodomain'⟩ := hasRight.pi_cases
  exact .pi samePlicity (equatesDomain resolves hasDomain.term hasDomain'.term)
    (equatesCodomain resolves hasCodomain.term hasCodomain'.term)

/-- The arguments are equated, unless the left one is irrelevant. -/
def Arguments (state : State) (left right : List (ArgInfo × Term)) : Prop :=
  List.Forall₂ (fun left right => left.1.isIrrelevant = false → Equates Agrees state left.2 right.2)
    left right

/-- Terms without steps at their heads have agreeing normal forms if their heads and arguments
have. -/
theorem agrees_of_spine (resolves : state.Resolves later) :
    ∀ {left right left' right' : Term},
      (∀ next, ¬Unfolds later left next) → (∀ next, ¬Unfolds later right next) →
      Equates Agrees state left.head right.head →
      Arguments state left.arguments right.arguments →
      HasNormalForm later left left' → HasNormalForm later right right' → Agrees left' right'
  | .app function argument info, right, left', right', stuckLeft, stuckRight, heads, arguments,
      hasLeft, hasRight => by
      have sameLength := arguments.length_eq
      rw [Phrase.arguments_app, List.length_append, List.length_singleton] at sameLength
      cases right with
      | app function' argument' info' =>
        -- The last arguments are the outermost, so the arguments are taken apart from the end.
        have reversed := List.forall₂_reverse_iff.2 arguments
        simp only [Phrase.arguments_app, List.reverse_append, List.reverse_singleton,
          List.singleton_append, List.forall₂_cons, List.forall₂_reverse_iff] at reversed
        obtain ⟨_, _, rfl, hasFunction, hasArgument⟩ := hasLeft.app_cases stuckLeft
        obtain ⟨_, _, rfl, hasFunction', hasArgument'⟩ := hasRight.app_cases stuckRight
        exact .app
          (agrees_of_spine resolves (fun _ unfolds => stuckLeft _ unfolds.app)
            (fun _ unfolds => stuckRight _ unfolds.app) heads reversed.2 hasFunction
            hasFunction')
          fun relevant => reversed.1 relevant resolves hasArgument hasArgument'
      | _ => simp [Phrase.arguments, Phrase.argumentsFrom] at sameLength
  | .var _, right, _, _, _, _, heads, arguments, hasLeft, hasRight
  | .const _, right, _, _, _, _, heads, arguments, hasLeft, hasRight
  | .pi _ _ _ _, right, _, _, _, _, heads, arguments, hasLeft, hasRight
  | .univ _, right, _, _, _, _, heads, arguments, hasLeft, hasRight
  | .level _, right, _, _, _, _, heads, arguments, hasLeft, hasRight
  | .placeholder _ _, right, _, _, _, _, heads, arguments, hasLeft, hasRight => by
    cases right with
    | app function' argument' info' =>
      have sameLength := arguments.length_eq
      rw [Phrase.arguments_app, List.length_append, List.length_singleton] at sameLength
      simp [Phrase.arguments, Phrase.argumentsFrom] at sameLength
    | _ => exact heads resolves hasLeft hasRight

/-- Applications without steps are equated if their heads are, which are no placeholders, and their
arguments are. -/
theorem of_arguments {left right : Term} (resolves : earlier.Resolves state)
    (stuckLeft : ∀ next, ¬Unfolds earlier left next)
    (stuckRight : ∀ next, ¬Unfolds earlier right next)
    (rigidLeft : ∀ id arguments, left.head ≠ .placeholder id arguments)
    (rigidRight : ∀ id arguments, right.head ≠ .placeholder id arguments)
    (heads : Equates Agrees state left.head right.head)
    (arguments : Arguments state left.arguments right.arguments) :
    Equates Agrees state left right := by
  intro later _ _ resolves'
  exact agrees_of_spine resolves'
    (fun next unfolds => stuckLeft next (unfolds.of_resolves (resolves.trans resolves') rigidLeft))
    (fun next unfolds => stuckRight next
      (unfolds.of_resolves (resolves.trans resolves') rigidRight))
    heads arguments

end Equates
end Families
