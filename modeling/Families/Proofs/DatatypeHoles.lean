import Families.Proofs.Holes
import Families.Proofs.Strictness

/-!
# Datatypes without holes

The check of a datatype creates a placeholder for its sort and compares it with the end of the
datatype's type.  Where no hole is written this solves it, unless the comparison is postponed, and
from then on no placeholder occurs in what the check of the constructors looks at.
-/

namespace Families

variable {fuel position : Nat} {definition : DataDefinition} {head : DataHead}
variable {constructor datatype : Path} {indices : Telescope} {ty : Ty} {answer : Unit}
variable {sort : Universe}
variable {telescope parameters : Telescope} {current : Term} {forced : List Bool}
variable {signature : Definition}

/-! ## The sort of a datatype -/

/-- A sequence of variables is in normal form. -/
theorem exists_normalise_variables (state : State) :
    ∀ {arguments : Phrase .terms}, (∀ term ∈ arguments.toList, ∃ index, term = .var index) →
      ∃ fuel, normalise state fuel arguments = .ok arguments
  | .noTerms, _ => ⟨2, rfl⟩
  | .terms first rest, areVariables => by
    rw [Phrase.toList_terms, List.forall_mem_cons] at areVariables
    obtain ⟨⟨index, rfl⟩, others⟩ := areVariables
    obtain ⟨fuel, normal⟩ := exists_normalise_variables state others
    exact ⟨fuel + 3, normalise_eq_ok_iff.2 ⟨_, rfl, .terms rfl (normalise_of_le normal (by omega))⟩⟩

namespace ConvM

variable {state after : State} {fuel depth id : Nat} {arguments : Phrase .terms}

/-- A sort that stands where a level is expected is no ground level, as long as it is unknown. -/
theorem not_ground_of_normalise_ofTerm {bound : Level} (unsolved : state.solution? id = none)
    (areVariables : ∀ term ∈ arguments.toList, ∃ index, term = .var index)
    (normalised : normalise state fuel (Level.ofTerm (.univ (.sortPlaceholder id arguments))) =
      .ok bound) :
    ¬bound.Ground := by
  obtain ⟨enough, normal⟩ := exists_normalise_variables state areVariables
  have sortReduced : reduce state (enough + 1) (.sortPlaceholder id arguments) =
      .ok (.sortPlaceholder id arguments) := by
    simp [reduce, unsolved, pure, Except.pure]
  have reduced : reduce state (enough + 2) (.univ (.sortPlaceholder id arguments)) =
      .ok (.univ (.sortPlaceholder id arguments)) :=
    bind_eq_ok_iff.2 ⟨_, sortReduced, rfl⟩
  have sortNormal : normalise state (enough + 2) (.sortPlaceholder id arguments) =
      .ok (.sortPlaceholder id arguments) :=
    normalise_eq_ok_iff.2
      ⟨_, sortReduced, .sortPlaceholder (normalise_of_le normal (Nat.le_succ enough))⟩
  have again := eventually_normalise_ofTerm reduced (.univ sortNormal)
  obtain ⟨more, found, found'⟩ := (again.and (eventually_normalise normalised)).exists
  obtain rfl := Except.ok.inj (found.symm.trans found')
  rw [Phrase.ground_iff]
  simp [Level.ofTerm, Level.ofParts, Phrase.ofAtoms, Phrase.hasPlaceholder, Phrase.anyPlaceholder]

/-- The only placeholder that occurs is one for a sort. -/
def OnlySort (id : Nat) (kind : Category) (other : Nat) : Prop :=
  kind = .sort ∧ other = id

theorem supplies_onlySort (ground : state.Ground)
    (solutions : ∀ solution, state.solution? id = some solution →
      solution.phrase.Uses (OnlySort id)) :
    state.Supplies (OnlySort id) where
  solutions := by
    rintro _ solution solved ⟨_, rfl⟩
    exact solutions solution solved
  bodies found := (ground.body? found).mono False.elim

theorem uses_onlySort (id : Nat)
    (areVariables : ∀ term ∈ arguments.toList, ∃ index, term = .var index) :
    (Phrase.sortPlaceholder id arguments).Uses (OnlySort id) := by
  have bounded : arguments.Uses fun _ _ => True :=
    Phrase.uses_of_forall (fun _ _ => trivial) arguments
  obtain ⟨depth, inScope⟩ := bounded
  refine ⟨depth, ⟨rfl, rfl⟩, (Phrase.scoped_iff_toList _).2 fun term present => ?_⟩
  obtain ⟨index, rfl⟩ := areVariables term present
  exact (Phrase.scoped_iff_toList _).1 inScope _ present

theorem solve_of_assignSort {value : Universe} (ground : state.Ground) (valueGround : value.Ground)
    (yields : Yields (assignSort fuel depth id arguments value) state answer after) :
    after.constraints ≠ [] ∨ ∃ solution : Universe, solution.Ground ∧
      state.solve id (.sort solution) = .ok after := by
  obtain ⟨answered, rfl⟩ := yields
  obtain ⟨_, runs, rfl | ⟨_, rfl⟩ | ⟨pattern, _, _, rfl⟩⟩ :=
    assignSort_cases fuel depth id arguments value state
  · left
    rw [runs rfl]
    simp [postpone, State.postpone, modify, modifyGet, MonadStateOf.modifyGet,
      MonadState.modifyGet]
  · rw [runs rfl] at answered
    cases answered
  · right
    rw [runs rfl] at answered ⊢
    obtain ⟨last, yields⟩ : ∃ last, Yields (solve fuel id pattern value .sort) state answer last :=
      ⟨_, answered, rfl⟩
    rw [yields.2]
    simp only [solve, yields_bind_iff, yields_get_iff, yields_lift_iff] at yields
    obtain ⟨_, _, ⟨rfl, rfl⟩, normal, _, ⟨normalised, rfl⟩, yields⟩ := yields
    have normalGround : normal.Ground :=
      ground.normalise normalised valueGround
    split at yields
    · exact absurd yields not_yields_fail
    · split at yields
      · exact absurd yields not_yields_fail
      · rename_i inverted isInverted
        simp only [yields_bind_iff, yields_lift_iff] at yields
        obtain ⟨last', _, ⟨isSolved, rfl⟩, _, rfl⟩ := yields
        exact ⟨inverted, normalGround.invert isInverted, isSolved⟩

theorem postpones_of_equalLevel {left : Level} (ground : state.Ground) (leftGround : left.Ground)
    (unsolved : state.solution? id = none)
    (areVariables : ∀ term ∈ arguments.toList, ∃ index, term = .var index)
    (yields : Yields
      (equalLevel fuel depth left (Level.ofTerm (.univ (.sortPlaceholder id arguments)))) state
      answer after) :
    after.constraints ≠ [] := by
  simp only [equalLevel, yields_bind_iff, yields_get_iff, yields_lift_iff] at yields
  obtain ⟨_, _, ⟨rfl, rfl⟩, left', _, ⟨leftReached, rfl⟩, right', _, ⟨rightReached, rfl⟩, yields⟩ :=
    yields
  have left'Ground : left'.Ground :=
    ground.normalise leftReached leftGround
  have right'NotGround := not_ground_of_normalise_ofTerm unsolved areVariables rightReached
  have different : left' ≠ right' := by
    rintro rfl
    exact right'NotGround left'Ground
  have rightUses : (Level.ofTerm (.univ (.sortPlaceholder id arguments))).Uses (OnlySort id) := by
    obtain ⟨depth, inScope⟩ := uses_onlySort id areVariables
    exact ⟨depth, Level.scoped_ofTerm inScope⟩
  have right'Uses : right'.Uses (OnlySort id) :=
    ((supplies_onlySort ground (by simp [unsolved])).normalise rightReached rightUses).mono And.left
  have noPlaceholder : Level.asPlaceholder? right' = none := by
    obtain ⟨depth, inScope⟩ := right'Uses
    refine Option.eq_none_iff_forall_ne_some.2 ?_
    rintro ⟨other, others⟩ isPlaceholder
    have member := Level.mem_terms_of_asPlaceholder? isPlaceholder
    cases (Level.scoped_iff.1 inScope _ member).1.1
  have hasPlaceholder : right'.hasPlaceholder = true := by
    simpa [Phrase.ground_iff] using right'NotGround
  rw [if_neg different, left'Ground.asPlaceholder?, noPlaceholder, hasPlaceholder] at yields
  simp only [Bool.or_true, if_true] at yields
  obtain ⟨_, rfl⟩ := yields
  simp [postpone, State.postpone, modify, modifyGet, MonadStateOf.modifyGet, MonadState.modifyGet]

theorem solve_of_equalSort {left : Universe} (ground : state.Ground) (leftGround : left.Ground)
    (unsolved : state.solution? id = none)
    (yields : Yields (equalSort fuel depth left (.sortPlaceholder id arguments)) state answer
      after) :
    after.constraints ≠ [] ∨ ∃ solution : Universe, solution.Ground ∧
      state.solve id (.sort solution) = .ok after := by
  simp only [equalSort, yields_bind_iff, yields_get_iff, yields_lift_iff] at yields
  obtain ⟨_, _, ⟨rfl, rfl⟩, left', _, ⟨leftReached, rfl⟩, right', _, ⟨rightReached, rfl⟩, yields⟩ :=
    yields
  have left'Ground := ground.supplies.reduce leftReached leftGround
  obtain rfl := State.eq_of_reduce_sortPlaceholder (by simp [unsolved]) rightReached
  have different : left' ≠ .sortPlaceholder id arguments := by
    rintro rfl
    exact Phrase.not_ground_sortPlaceholder left'Ground
  rw [if_neg different] at yields
  cases left' with
  | sortPlaceholder => exact absurd left'Ground Phrase.not_ground_sortPlaceholder
  | _ => exact solve_of_assignSort ground left'Ground yields

/-- Comparing a ground term with an unknown sort finds it, unless the comparison is postponed. -/
theorem solve_of_equalTerm {left : Term} (ground : state.Ground) (leftGround : left.Ground)
    (unsolved : state.solution? id = none)
    (areVariables : ∀ term ∈ arguments.toList, ∃ index, term = .var index)
    (yields : Yields (equalTerm fuel depth left (.univ (.sortPlaceholder id arguments))) state
      answer after) :
    after.constraints ≠ [] ∨ ∃ solution : Universe, solution.Ground ∧
      state.solve id (.sort solution) = .ok after := by
  have unknown : ¬∃ solution, state.solution? id = some (.sort solution) := by simp [unsolved]
  cases fuel with
  | zero => exact absurd yields not_yields_halt
  | succ fuel =>
    simp only [equalTerm, yields_bind_iff, yields_get_iff, yields_lift_iff] at yields
    obtain ⟨_, _, ⟨rfl, rfl⟩, left', _, ⟨leftReached, rfl⟩, right', _, ⟨rightReached, rfl⟩,
      yields⟩ := yields
    have left'Ground : left'.Ground := ground.supplies.reduce leftReached leftGround
    obtain rfl : right' = .univ (.sortPlaceholder id arguments) := by
      cases fuel with
      | zero => cases rightReached
      | succ fuel =>
        obtain ⟨sort, sortReached, isRight⟩ := bind_eq_ok_iff.1 rightReached
        obtain rfl := State.eq_of_reduce_sortPlaceholder unknown sortReached
        exact (Except.ok.inj isRight).symm
    have different : left' ≠ .univ (.sortPlaceholder id arguments) := by
      rintro rfl
      exact Phrase.not_ground_sortPlaceholder (Phrase.ground_univ_iff.1 left'Ground)
    rw [if_neg different] at yields
    cases left' with
    | placeholder => exact absurd left'Ground Phrase.not_ground_placeholder
    | level bound =>
      exact .inl
        (postpones_of_equalLevel ground left'Ground.ofTerm unsolved areVariables yields)
    | univ sort =>
      exact solve_of_equalSort ground (Phrase.ground_univ_iff.1 left'Ground) unsolved yields
    | _ => exact absurd yields not_yields_fail

end ConvM

namespace CheckM

open ConvM

variable {before after : Checker}

theorem yields_forM_push (yields : Yields (telescope.forM push) before answer after) :
    ∃ context, after = { before with context } := by
  induction telescope generalizing before with
  | nil => exact ⟨before.context, (yields_pure_iff.1 yields).2.symm⟩
  | cons domain telescope ih =>
    obtain ⟨_, middle, pushed, rest⟩ := yields_bind_iff.1 yields
    obtain rfl := yields_push_iff.1 pushed
    obtain ⟨context, rfl⟩ := ih rest
    exact ⟨context, rfl⟩

/-- A comparison under binders is one of the state. -/
theorem exists_of_under_tryEqualTerm {left right : Term}
    (yields : Yields (under telescope (tryEqualTerm left right)) before (.ok answer) after) :
    ∃ depth, Yields (ConvM.equalTerm before.fuel depth left right) before.state answer
      after.state := by
  obtain ⟨inner, isInner, rfl⟩ := yields_restoreScope_iff.1 yields
  obtain ⟨_, scope, isScope, isEqual⟩ := yields_bind_iff.1 isInner
  obtain ⟨context, rfl⟩ := yields_forM_push isScope
  obtain ⟨state, compared, rfl⟩ := yields_tryEqualTerm_ok_iff.1 isEqual
  exact ⟨_, compared⟩

/-- A fresh sort is an unsolved placeholder that stands under the variables in scope. -/
theorem of_freshSort {belowOmega : Bool}
    (yields : Yields (freshSort belowOmega) before sort after) :
    sort = .sortPlaceholder before.state.placeholders.length before.context.identity ∧
      after = { before with
        state := before.state.addPlaceholder before.context.length (.sort belowOmega) } := by
  simp only [freshSort, addPlaceholder, yields_bind_iff, yields_get_iff, yields_modifyState_iff,
    yields_pure_iff] at yields
  obtain ⟨_, _, ⟨rfl, rfl⟩, _, _, ⟨_, _, ⟨rfl, rfl⟩, _, _, rfl, rfl, rfl⟩, rfl, rfl⟩ := yields
  exact ⟨rfl, rfl⟩

/-- A ground solution leaves nothing to be found. -/
theorem solid_of_solve {state state' : State} {id : Nat} {arguments : Phrase .terms}
    {solution : Universe} (solid : state.Solid)
    (areVariables : ∀ term ∈ arguments.toList, ∃ index, term = .var index)
    (solved : state.solve id (.sort solution) = .ok state') (solutionGround : solution.Ground)
    (normalised : Families.normalise state' fuel (.sortPlaceholder id arguments) = .ok sort) :
    state'.Solid ∧ sort.Ground := by
  have isSolved := State.solution?_of_solve solved
  have solid' : state'.Solid := by
    obtain ⟨_, _, _, rfl⟩ := State.solve_eq_ok_iff.1 solved
    exact ⟨solid.bodies, solid.types, solid.constraints⟩
  have supplies : state'.Supplies (OnlySort id) := by
    refine supplies_onlySort solid'.bodies fun other found => ?_
    obtain rfl := Option.some.inj (isSolved.symm.trans found)
    exact solutionGround.mono False.elim
  refine ⟨solid', (supplies.normalise normalised (uses_onlySort id areVariables)).mono ?_⟩
  rintro _ _ ⟨⟨rfl, rfl⟩, unsolved⟩
  exact unsolved ⟨_, isSolved, rfl⟩

/-- The sort of a datatype is ground if the end of its type is and nothing is postponed. -/
theorem solid_of_resolveSort {core : Ty} (solid : before.Solid) (coreGround : core.Ground)
    (yields : Yields (resolveSort datatype indices core) before sort after)
    (settled : after.state.constraints = []) : after.Solid ∧ sort.Ground := by
  simp only [resolveSort, yields_bind_iff, yields_lift_iff, checked_eq_ok_iff] at yields
  obtain ⟨fresh, created, isFresh, expected, _, ⟨isExpected, rfl⟩, lifted, _, ⟨isLifted, rfl⟩,
    result, compared, isCompared, yields⟩ := yields
  obtain ⟨isPlaceholder, isCreated⟩ := of_freshSort isFresh
  have sameContext :=
    ((built_under _ (built_tryEqualTerm _ _)).consults isCompared).context
  cases result with
  | error error =>
    simp only at yields
    split at yields <;> exact absurd yields not_yields_fail
  | ok _ =>
    obtain ⟨normalised, rfl⟩ := yields_normalise_iff.1 yields
    subst isPlaceholder
    obtain rfl := Option.some.inj isExpected
    obtain rfl := Phrase.eq_rename_of_lift?_zero isLifted
    obtain ⟨depth, equal⟩ := exists_of_under_tryEqualTerm isCompared
    have createdSolid : created.state.Solid := by
      rw [isCreated]
      exact ⟨solid.state.bodies, solid.state.types, solid.state.constraints⟩
    have unsolved : created.state.solution? before.state.placeholders.length = none := by
      rw [isCreated]
      simp only [State.solution?, State.getElem?_addPlaceholder]
    have areVariables : ∀ term ∈ before.context.identity.toList, ∃ index, term = .var index := by
      simp [Context.toList_identity]
    have renamed : ∀ term ∈ (before.context.identity.rename (· + indices.length)).toList,
        ∃ index, term = .var index := by
      simp [Phrase.rename, Phrase.toList_mapVariables, Context.toList_identity,
        Phrase.mapVariables]
    rcases solve_of_equalTerm createdSolid.bodies coreGround.term unsolved renamed equal with
      postponed | ⟨solution, solutionGround, solved⟩
    · exact absurd settled postponed
    · obtain ⟨stateSolid, sortGround⟩ :=
        solid_of_solve createdSolid areVariables solved solutionGround normalised
      refine ⟨⟨stateSolid, ?_⟩, sortGround⟩
      rw [sameContext, isCreated]
      exact solid.context

/-! ## Parameters and constructors -/

theorem solidly_walkToTarget {walked : Nat} (ground : current.Ground) :
    Solidly (walkToTarget head constructor fuel walked current) fun reached =>
      reached.2.Ground := by
  induction fuel generalizing walked current with
  | zero => exact .halt _
  | succ fuel ih =>
    refine .bind (lawful_grounded.reduce ground) fun reduced reducedGround => ?_
    split
    · obtain ⟨domainGround, codomainGround⟩ := Phrase.ground_pi_iff.1 reducedGround
      exact .bind (lawful_grounded.push domainGround) fun _ _ => ih codomainGround.term
    · exact absurd reducedGround Phrase.not_ground_placeholder
    · exact .pure reducedGround

theorem solidly_findForced (head : DataHead) (ty : Ty) :
    Solidly (findForced head ty) fun _ => True := by
  refine .get_bind fun checker _ => ?_
  split
  · exact .lift fun _ _ => trivial
  · intro before value after solid yields
    obtain ⟨view, middle, isViewed, rest⟩ := yields_bind_iff.1 yields
    obtain ⟨_, rfl⟩ := yields_telescopeView_iff.1 isViewed
    obtain ⟨_, rfl⟩ := yields_pure_iff.1 rest
    exact ⟨solid, trivial⟩

theorem solidly_checkConstructor {declaration : ConstructorDeclaration}
    (holeFree : declaration.ty.isHoleFree = true) (parametersGround : head.parameters.Ground)
    (sortGround : head.sort.Ground) :
    Solidly (checkConstructor head declaration) fun _ => True := by
  refine .bind (solidly_enterPath _) fun path _ => ?_
  split
  · refine .bind (lawful_grounded.elaborateType (.inr holeFree)) fun written writtenGround => ?_
    refine .bind (lawful_grounded.restoreScope (lawful_grounded.checkTarget fun _ =>
      solidly_walkToTarget writtenGround.term)) fun nonLinear _ => ?_
    refine .bind (lawful_grounded.normalise writtenGround) fun ty tyGround => ?_
    refine .bind (solidly_findForced head ty) fun forced _ => ?_
    refine .bind (lawful_grounded.checkFits sortGround tyGround) fun arity _ => ?_
    refine .bind (.register ((parametersGround.withPlicity _).toPi tyGround) rfl) fun _ _ => ?_
    split
    · have added : Solidly (modifyState (·.addInstance head.path path)) fun _ => True := by
        intro before _ after solid yields
        obtain rfl := yields_modifyState_iff.1 yields
        exact ⟨⟨⟨solid.state.bodies, solid.state.types, solid.state.constraints⟩, solid.context⟩,
          trivial⟩
      exact .bind added fun _ _ => .pure trivial
    · exact .pure trivial
  · exact .fail _

theorem solidly_checkConstructors {declarations : List ConstructorDeclaration}
    (holeFree : ∀ declaration ∈ declarations, declaration.ty.isHoleFree = true)
    (parametersGround : head.parameters.Ground) (sortGround : head.sort.Ground) :
    Solidly (checkConstructors head declarations) fun _ => True := by
  induction declarations with
  | nil => exact .pure trivial
  | cons declaration declarations ih =>
    rw [List.forall_mem_cons] at holeFree
    refine .bind (solidly_checkConstructor holeFree.1 parametersGround sortGround) fun _ _ => ?_
    exact .bind (ih holeFree.2) fun _ _ => .pure trivial

/-! ## Datatypes -/

theorem solidly_openInSort {indices : Nat} (tyGround : signature.ty.Ground)
    (parametersGround : parameters.Ground) (sortGround : sort.Ground) :
    Solidly (openInSort definition signature parameters indices sort) fun head =>
      head.parameters.Ground ∧ head.sort.Ground := by
  refine .bind (lawful_grounded.smallParameters parametersGround sortGround) fun small _ => ?_
  have pending : ∀ {kind : Kind}, kind.isGround = true → Solidly
      (updateSignature (Signature.registerPending · ⟨signature.path, signature.ty, kind⟩))
      fun _ => True := by
    intro kind kindGround before _ after solid yields
    obtain ⟨_, rfl⟩ := yields_registerPending_iff.1 yields
    exact ⟨⟨solid.state.withEntry tyGround kindGround, solid.context⟩, trivial⟩
  exact .bind (pending rfl) fun _ _ => .pure ⟨parametersGround, sortGround⟩

theorem constraints_eq_nil {state state' : State} (remembers : state.Remembers state')
    (settled : state'.constraints = []) : state.constraints = [] := by
  simpa [settled] using remembers.constraints

theorem solid_of_openUnderParameters {tail : Ty} (solid : before.Solid)
    (tyGround : signature.ty.Ground) (parametersGround : parameters.Ground)
    (tailGround : tail.Ground)
    (yields : Yields (openUnderParameters definition signature parameters tail) before head after)
    (settled : after.state.constraints = []) :
    after.Solid ∧ head.parameters.Ground ∧ head.sort.Ground := by
  simp only [openUnderParameters_eq, yields_bind_iff] at yields
  obtain ⟨checker, _, read, view, viewed, isViewed, sort, resolved, isResolved, _, compared,
    isCompared, yields⟩ := yields
  obtain ⟨rfl, rfl⟩ := yields_get_iff.1 read
  obtain ⟨viewedSolid, indicesGround, coreGround⟩ := solidly_telescopeView tailGround solid isViewed
  have learns := ((built_checkIf _ (built_checkIndexSorts _ _ _)).consults isCompared).learns
  have resolvedSettled := constraints_eq_nil
    (learns.state.grows.remembers.trans (remembers_of_openInSort yields).2) settled
  obtain ⟨resolvedSolid, sortGround⟩ :=
    solid_of_resolveSort viewedSolid coreGround isResolved resolvedSettled
  have comparedSolid := (lawful_grounded.checkIf (lawful_grounded.checkIndexSorts indicesGround
    sortGround) resolvedSolid isCompared).1
  exact solidly_openInSort tyGround parametersGround sortGround comparedSolid yields

end CheckM

/-- No hole is written in the type, in the parameters or in the constructors of the datatype. -/
def DataDefinition.isHoleFree (definition : DataDefinition) : Bool :=
  definition.ty.all Expr.isHoleFree &&
    definition.parameters.all (fun binding => binding.ty.all Expr.isHoleFree) &&
    definition.constructors.all fun declaration => declaration.ty.isHoleFree

namespace CheckM

variable {before after : Checker}

theorem solidly_declareType {path : Path} (holeFree : definition.ty.all Expr.isHoleFree = true) :
    Solidly (declareType definition path) fun _ => True := by
  unfold declareType
  split
  · exact .pure trivial
  · rename_i isGiven
    rw [isGiven] at holeFree
    exact .bind (lawful_grounded.elaborateType (.inr holeFree)) fun _ tyGround =>
      .register tyGround rfl

theorem solid_of_openData (solid : before.Solid)
    (tyHoleFree : definition.ty.all Expr.isHoleFree = true)
    (parametersHoleFree : ∀ binding ∈ definition.parameters, binding.ty.all Expr.isHoleFree = true)
    (yields : Yields (openData definition) before head after)
    (settled : after.state.constraints = []) :
    after.Solid ∧ head.parameters.Ground ∧ head.sort.Ground := by
  simp only [openData_eq, openDeclared, yields_bind_iff] at yields
  obtain ⟨path, first, isEntered, _, second, isDeclared, signature, third, isFound, checker, fourth,
    read, bound, fifth, isBound, yields⟩ := yields
  have firstSolid := (solidly_enterPath _ solid isEntered).1
  have secondSolid := (solidly_declareType tyHoleFree firstSolid isDeclared).1
  obtain ⟨rfl, phase, isFound⟩ := yields_dataSignature isFound
  obtain ⟨rfl, rfl⟩ := yields_get_iff.1 read
  have tyGround : signature.ty.Ground :=
    secondSolid.state.types _ (PathMap.mem_values_of_get? isFound)
  obtain ⟨boundSolid, parametersGround, tailGround⟩ :=
    lawful_grounded.bindParameters (fun binding present =>
      .inr (parametersHoleFree binding present))
      tyGround secondSolid isBound
  exact solid_of_openUnderParameters boundSolid tyGround parametersGround tailGround yields settled

theorem solid_of_checkData {certified : CertifiedDatatype} (solid : before.Solid)
    (holeFree : definition.isHoleFree = true)
    (yields : Yields (checkData definition) before certified after)
    (settled : after.state.constraints = []) : after.state.Solid := by
  simp only [DataDefinition.isHoleFree, Bool.and_eq_true, List.all_eq_true] at holeFree
  obtain ⟨⟨tyHoleFree, parametersHoleFree⟩, constructorsHoleFree⟩ := holeFree
  obtain ⟨head, opened, answers, closed, isOpened, isChecked, completes⟩ :=
    stages_of_checkData yields
  obtain ⟨pending, isPending, isAfter⟩ := completes.entered
  have closedSettled : closed.state.constraints = [] := by
    rw [isAfter] at settled
    exact settled
  have openedSettled :=
    constraints_eq_nil (adds_checkConstructors isChecked).1.remembers closedSettled
  obtain ⟨openedSolid, parametersGround, sortGround⟩ :=
    solid_of_openData solid tyHoleFree parametersHoleFree isOpened openedSettled
  have closedSolid := (solidly_checkConstructors constructorsHoleFree parametersGround sortGround
    openedSolid isChecked).1
  have pendingGround : pending.ty.Ground :=
    closedSolid.state.types _ (PathMap.mem_values_of_get? isPending)
  rw [isAfter]
  exact closedSolid.state.withEntry pendingGround rfl

end CheckM
end Families
