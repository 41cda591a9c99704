import Families.Proofs.Acyclicity
import Families.Proofs.Applications
import Families.Proofs.DatatypeHoles
import Families.Proofs.Patterns
import Families.Proofs.Tracking

/-!
# The sort of a datatype

The end of a datatype's type is compared with a placeholder for a sort that was made outside the
indices and is lifted over them.  What the placeholder is solved by can mention the parameters and
nothing else, so that a sort passes exactly if no index occurs in its normal form.  A level is not
refused: its comparison with the placeholder is postponed.
-/

namespace Families

open Filter

variable {bound : Level} {sort : Universe} {context : Context} {reduced : Term}

/-- The variables in scope can be lifted if their numbers stay within the words. -/
theorem Context.lift?_identity {count : Nat} (inWords : context.length + count ≤ wordLimit) :
    context.identity.lift? count 0 = some (context.identity.rename (· + count)) := by
  have lifted : ∀ list : List Nat, (∀ index ∈ list, index + count < wordLimit) →
      (Phrase.ofList (list.map .var)).lift? count 0 =
        some ((Phrase.ofList (list.map .var)).rename (· + count)) := by
    intro list bounded
    unfold Phrase.lift?
    split
    · rename_i isZero
      rw [Phrase.rename_eq_self _ (by simp [isZero])]
    · induction list with
      | nil => rfl
      | cons first rest ih =>
        rw [List.forall_mem_cons] at bounded
        have zeroInRange : 0 < wordLimit := by decide
        simp_all [Phrase.ofList, Phrase.traverse, Phrase.liftedVariable?, word?, Phrase.rename,
          Phrase.mapVariables]
  refine lifted _ fun index present => ?_
  have := List.mem_range.1 present
  omega

/-- The term is a sort below the largest one that mentions none of the innermost `count`
variables. -/
def Phrase.IsDataSort (count : Nat) (term : Term) : Prop :=
  ∃ sort, term = .univ sort ∧ sort ≠ .omega ∧ ∀ index ∈ sort.freeFrom .anywhere 0, count ≤ index

/-- The term is no level, and no placeholder for a term or for a sort. -/
def Phrase.IsRigid : Term → Prop
  | .level _ => False
  | .placeholder _ _ => False
  | .univ (.sortPlaceholder _ _) => False
  | _ => True

/-! ## Evaluation beside a fresh placeholder -/

/-- What a phrase reduces to depends on the steps that terms take and on the solutions alone. -/
theorem reduce_congr {first second : State}
    (steps : ∀ term, unfoldHead? second term = unfoldHead? first term)
    (solutions : ∀ id, second.solution? id = first.solution? id) (fuel : Nat) {category : Category}
    (phrase : Phrase category) : reduce second fuel phrase = reduce first fuel phrase := by
  induction fuel generalizing category with
  | zero => simp only [reduce]
  | succ fuel ih =>
    cases phrase <;> simp only [reduce, ih, steps, solutions]

theorem normalise_congr {first second : State}
    (steps : ∀ term, unfoldHead? second term = unfoldHead? first term)
    (solutions : ∀ id, second.solution? id = first.solution? id) (fuel : Nat) {category : Category}
    (phrase : Phrase category) : normalise second fuel phrase = normalise first fuel phrase := by
  induction fuel generalizing category with
  | zero => simp only [normalise]
  | succ fuel ih =>
    simp only [normalise, reduce_congr steps solutions, ih]

section Fresh

variable {before : State} {fuel scope depth : Nat} {category : Category} {kind : PlaceholderKind}

theorem State.unfoldHead?_addPlaceholder (state : State) (scope : Nat) (kind : PlaceholderKind)
    (term : Term) :
    unfoldHead? (state.addPlaceholder scope kind) term = unfoldHead? state term := by
  simp only [unfoldHead?, state.solution?_addPlaceholder]
  rfl

theorem State.reduce_addPlaceholder (phrase : Phrase category) :
    reduce (before.addPlaceholder scope kind) fuel phrase = reduce before fuel phrase :=
  reduce_congr (before.unfoldHead?_addPlaceholder scope kind)
    (before.solution?_addPlaceholder scope kind) fuel phrase

theorem State.normalise_addPlaceholder (phrase : Phrase category) :
    normalise (before.addPlaceholder scope kind) fuel phrase = normalise before fuel phrase :=
  normalise_congr (before.unfoldHead?_addPlaceholder scope kind)
    (before.solution?_addPlaceholder scope kind) fuel phrase

/-- A placeholder that is new does not occur in what was in scope before. -/
theorem Phrase.Scoped.avoids_fresh {phrase : Phrase category}
    (inScope : phrase.Scoped before.Fits depth) :
    phrase.mentions before.placeholders.length = false := by
  by_contra mentioned
  obtain ⟨_, _, fits⟩ := inScope.of_mentions (Bool.of_not_eq_false mentioned)
  cases fits with
  | term found | sort found => simp at found

/-- Variables are normal. -/
theorem isNormal_variables (state : State) :
    ∀ {arguments : Phrase .terms} {pattern : List Nat}, arguments.toList = pattern.map .var →
      IsNormal state arguments
  | .noTerms, _, _ => trivial
  | .terms first rest, [], areVariables => by simp [Phrase.toList] at areVariables
  | .terms first rest, index :: pattern, areVariables => by
    simp only [Phrase.toList, List.map_cons, List.cons.injEq] at areVariables
    obtain ⟨rfl, areVariables⟩ := areVariables
    exact ⟨trivial, isNormal_variables state areVariables⟩

end Fresh

/-! ## Comparison with a fresh placeholder -/

namespace ConvM

variable {before : State} {fuel scope depth : Nat} {term normal : Term} {sort : Universe}
variable {arguments : Phrase .terms} {pattern : List Nat}

/-- The fresh placeholder stays as it is, and so does what a term was reduced to before it. -/
theorem eventually_reduce_fresh (isReduced : reduce before fuel term = .ok reduced)
    (areVariables : arguments.toList = pattern.map .var) :
    ∀ᶠ fuel in atTop, reduce (before.addPlaceholder scope (.sort true)) fuel term = .ok reduced ∧
      reduce (before.addPlaceholder scope (.sort true)) fuel
        (.univ (.sortPlaceholder before.placeholders.length arguments)) =
        .ok (.univ (.sortPlaceholder before.placeholders.length arguments)) := by
  have isNormal : IsNormal (before.addPlaceholder scope (.sort true))
      (.univ (.sortPlaceholder before.placeholders.length arguments)) :=
    ⟨by simp [State.solution?, State.getElem?_addPlaceholder], isNormal_variables _ areVariables⟩
  filter_upwards [eventually_reduce isReduced,
    isNormal.inert_and_atoms.1.eventually_reduce] with fuel termDone soughtDone
  exact ⟨(State.reduce_addPlaceholder term).trans termDone, soughtDone⟩

/-- A term is compared with the fresh placeholder by what it reduces to. -/
theorem eventually_run_fresh (wellScoped : before.WellScoped)
    (inScope : term.Scoped before.Fits depth) (isReduced : reduce before fuel term = .ok reduced)
    (areVariables : arguments.toList = pattern.map .var) :
    let opened := before.addPlaceholder scope (.sort true)
    let sought := Phrase.sortPlaceholder before.placeholders.length arguments
    ∀ᶠ fuel in atTop, (equalTerm (fuel + 1) depth term (.univ sought)).run opened =
      (match reduced with
      | .placeholder id others => assignTerm fuel depth id others (.univ sought)
      | .level bound => equalLevel fuel depth bound (Level.ofTerm (.univ sought))
      | .univ sort => equalSort fuel depth sort sought
      | reduced => Attempt.fail (.unequalTerms reduced (.univ sought))).run opened := by
  intro opened sought
  have reducedInScope := (reduces_of_reduce wellScoped isReduced inScope).2
  have different : reduced ≠ .univ sought := by
    rintro rfl
    simpa [Phrase.mentions, Phrase.anyPlaceholder, sought] using reducedInScope.avoids_fresh
  filter_upwards [eventually_reduce_fresh isReduced areVariables] with fuel reduces
  rw [equalTerm, Attempt.run_get_bind, reduces.1]
  change ((monadLift (reduce opened fuel (.univ sought)) >>= _ : ConvM Unit).run opened) = _
  rw [reduces.2]
  change (ite (reduced = .univ sought) _ _ : ConvM Unit).run opened = _
  rw [if_neg different]
  cases reduced <;> rfl

/-- A sort that is known is assigned to the fresh placeholder. -/
theorem eventually_run_fresh_sort (wellScoped : before.WellScoped)
    (inScope : term.Scoped before.Fits depth)
    (isReduced : reduce before fuel term = .ok (.univ sort))
    (known : ∀ id others, sort ≠ .sortPlaceholder id others)
    (areVariables : arguments.toList = pattern.map .var) :
    let opened := before.addPlaceholder scope (.sort true)
    ∀ᶠ fuel in atTop, (equalTerm (fuel + 1) depth term
        (.univ (.sortPlaceholder before.placeholders.length arguments))).run opened =
      (assignSort fuel depth before.placeholders.length arguments sort).run opened := by
  intro opened
  have inert : Inert before sort := by
    cases inert_of_reduce isReduced with
    | stops stops => cases stops
    | univ inert => exact inert
  have isNormal : IsNormal opened (.sortPlaceholder before.placeholders.length arguments) :=
    ⟨by simp [opened, State.solution?, State.getElem?_addPlaceholder],
      isNormal_variables _ areVariables⟩
  filter_upwards [eventually_run_fresh wellScoped inScope isReduced areVariables,
    inert.eventually_reduce,
    isNormal.inert_and_atoms.1.eventually_reduce] with fuel runs sortDone soughtDone
  rw [runs, equalSort, Attempt.run_get_bind, State.reduce_addPlaceholder, sortDone]
  change (monadLift (reduce opened fuel (.sortPlaceholder before.placeholders.length arguments)) >>=
    _ : ConvM Unit).run opened = _
  rw [soughtDone]
  change (ite (sort = .sortPlaceholder before.placeholders.length arguments) _ _ :
    ConvM Unit).run opened = _
  rw [if_neg (known _ _)]
  cases sort with
  | sortPlaceholder id others => exact absurd rfl (known id others)
  | _ => rfl

/-- The sort that a term reduces to on the way to its normal form. -/
theorem exists_sort_of_normalise (wellScoped : before.WellScoped)
    (inScope : term.Scoped before.Fits depth)
    (normalised : normalise before fuel term = .ok (.univ sort)) :
    ∃ fuel reduced, reduce before fuel term = .ok (.univ reduced) ∧
      normalise before fuel reduced = .ok sort ∧ reduced.Scoped before.Fits depth ∧
      sort.Scoped before.Fits depth ∧ (reduced = .omega ↔ sort = .omega) ∧
      ∀ id others, reduced = .sortPlaceholder id others →
        ∃ others, sort = .sortPlaceholder id others := by
  have normalInScope := (normalises_of_normalise wellScoped normalised inScope).2
  obtain ⟨fuel, _, isReduced, rebuilt⟩ := exists_of_normalise normalised
  cases rebuilt with | @univ reduced _ sortNormalised =>
  have inert : Inert before reduced := by
    cases inert_of_reduce isReduced with
    | stops stops => cases stops
    | univ inert => exact inert
  obtain ⟨_, again, isAgain, sortRebuilt⟩ := exists_of_normalise sortNormalised
  rw [inert.reduce_eq isAgain] at sortRebuilt
  refine ⟨fuel, reduced, isReduced, sortNormalised,
    (reduces_of_reduce wellScoped isReduced inScope).2, normalInScope, ?_, ?_⟩
  · cases sortRebuilt <;> simp
  · rintro id others rfl
    cases sortRebuilt
    exact ⟨_, rfl⟩

/-- The assignment of a sort to a placeholder under distinct variables. -/
theorem solvesExactly_fresh {reduced : Universe} (wellScoped : before.WellScoped)
    (full : arguments.toList.length = scope) (argumentsInScope : arguments.Scoped before.Fits depth)
    (inScope : reduced.Scoped before.Fits depth) (notOmega : reduced ≠ .omega) :
    let opened := before.addPlaceholder scope (.sort true)
    let id := before.placeholders.length
    SolvesExactly opened fuel depth id scope (.sort true) arguments (.sortPlaceholder id arguments)
      reduced (.equalSorts (.sortPlaceholder id arguments) reduced) .sort
      ((assignSort fuel depth id arguments reduced).run opened) := by
  intro opened id
  have grows := before.grows_addPlaceholder scope (.sort true)
  refine solvesExactly_assignSort (wellScoped.addPlaceholder trivial)
    (State.getElem?_addPlaceholder _ _ _) full (grows.scoped argumentsInScope)
    (grows.scoped inScope) ?_ (by simp [notOmega])
  rintro others rfl
  simpa [Phrase.mentions, Phrase.anyPlaceholder, id] using inScope.avoids_fresh

/-- A term whose normal form is no sort, or a sort that the placeholder cannot stand for, is not
equal to the placeholder. -/
theorem eventually_fails_fresh (wellScoped : before.WellScoped)
    (full : arguments.toList.length = scope) (argumentsInScope : arguments.Scoped before.Fits depth)
    (distinct : pattern.Nodup) (areVariables : arguments.toList = pattern.map .var)
    (inScope : term.Scoped before.Fits depth) (normalised : normalise before fuel term = .ok normal)
    (rigid : normal.IsRigid)
    (unfit : ∀ sort, normal = .univ sort → sort ≠ .omega →
      ∃ index ∈ sort.freeFrom .anywhere 0, index ∉ pattern) :
    ∀ᶠ fuel in atTop, ∃ error, ((equalTerm fuel depth term
      (.univ (.sortPlaceholder before.placeholders.length arguments))).run
      (before.addPlaceholder scope (.sort true))).result = .error (.error error) := by
  refine eventually_of_succ ?_
  by_cases isSort : ∃ sort, normal = .univ sort
  · obtain ⟨sort, rfl⟩ := isSort
    obtain ⟨_, reduced, isReduced, sortNormalised, reducedInScope, sortInScope, omega_iff, known⟩ :=
      exists_sort_of_normalise wellScoped inScope normalised
    have notPlaceholder : ∀ id others, reduced ≠ .sortPlaceholder id others := by
      intro id others isPlaceholder
      obtain ⟨_, rfl⟩ := known id others isPlaceholder
      exact rigid
    filter_upwards [eventually_run_fresh_sort wellScoped inScope isReduced notPlaceholder
      areVariables, eventually_normalise sortNormalised] with fuel runs sortDone
    rw [runs]
    by_cases isOmega : reduced = .omega
    · subst isOmega
      rw [run_assignSort_of_ceiling (State.getElem?_addPlaceholder _ _ _)]
      exact ⟨_, rfl⟩
    · obtain ⟨index, free, outside⟩ := unfit sort rfl (mt omega_iff.2 isOmega)
      obtain ⟨first, isFirst⟩ : ∃ first, (sort.freeFrom .anywhere 0).find? (· ∉ pattern) =
          some first := by
        refine Option.isSome_iff_exists.1 (List.find?_isSome.2
          ⟨index, free, by simpa using outside⟩)
      exact ⟨_,
        ((solvesExactly_fresh wellScoped full argumentsInScope reducedInScope isOmega).escapes
        distinct areVariables ((State.normalise_addPlaceholder reduced).trans sortDone)
        sortInScope.avoids_fresh isFirst).1⟩
  · obtain ⟨_, reduced, isReduced, rebuilt⟩ := exists_of_normalise normalised
    filter_upwards [eventually_run_fresh wellScoped inScope isReduced areVariables] with fuel runs
    rw [runs]
    cases rebuilt with
    | univ => exact absurd ⟨_, rfl⟩ isSort
    | level | placeholder => exact rigid.elim
    | _ => exact ⟨_, rfl⟩

/-- A term whose normal form is a sort that the placeholder can stand for is made equal to it. -/
theorem eventually_solves_fresh (wellScoped : before.WellScoped)
    (full : arguments.toList.length = scope) (argumentsInScope : arguments.Scoped before.Fits depth)
    (distinct : pattern.Nodup) (areVariables : arguments.toList = pattern.map .var)
    (inScope : term.Scoped before.Fits depth)
    (normalised : normalise before fuel term = .ok (.univ sort)) (notOmega : sort ≠ .omega)
    (notPlaceholder : ∀ id others, sort ≠ .sortPlaceholder id others)
    (inside : ∀ index ∈ sort.freeFrom .anywhere 0, index ∈ pattern) (inWords : sort.InWords) :
    let opened := before.addPlaceholder scope (.sort true)
    let sought : Universe := .sortPlaceholder before.placeholders.length arguments
    ∃ after, after.WellScoped ∧ opened.Grows after ∧
      (∀ᶠ fuel in atTop, normalise after fuel sought = .ok sort) ∧
      ∀ᶠ fuel in atTop, ((equalTerm fuel depth term (.univ sought)).run opened).result = .ok () ∧
        ((equalTerm fuel depth term (.univ sought)).run opened).state = after := by
  intro opened sought
  obtain ⟨_, reduced, isReduced, sortNormalised, reducedInScope, sortInScope, omega_iff, known⟩ :=
    exists_sort_of_normalise wellScoped inScope normalised
  have reducedKnown : ∀ id others, reduced ≠ .sortPlaceholder id others := by
    intro id others isPlaceholder
    obtain ⟨others, isSort⟩ := known id others isPlaceholder
    exact notPlaceholder id others isSort
  have exactly := fun fuel => @solvesExactly_fresh _ fuel _ _ _ _ wellScoped full argumentsInScope
    reducedInScope (mt omega_iff.1 notOmega)
  have solves := fun fuel (sortDone : normalise before fuel reduced = .ok sort) =>
    (exactly fuel).solves distinct areVariables
      ((State.normalise_addPlaceholder reduced).trans sortDone) sortInScope.avoids_fresh inside
  have runs : ∀ᶠ fuel in atTop, (equalTerm (fuel + 1) depth term (.univ sought)).run opened =
        (assignSort fuel depth before.placeholders.length arguments reduced).run opened ∧
      normalise before fuel reduced = .ok sort :=
    (eventually_run_fresh_sort wellScoped inScope isReduced reducedKnown areVariables).and
      (eventually_normalise sortNormalised)
  obtain ⟨start, startRuns, startDone⟩ := runs.exists
  obtain ⟨found, _, isState, below, becomes, _, _, reaches⟩ := solves start startDone
  have grows := before.grows_addPlaceholder scope (.sort true)
  have fits : opened.Fits .sort before.placeholders.length arguments.toList.length := by
    rw [full]
    exact .sort (State.getElem?_addPlaceholder _ _ _)
  have openedWellScoped : opened.WellScoped := wellScoped.addPlaceholder trivial
  have soughtInScope : (Phrase.univ sought).Scoped opened.Fits depth :=
    ⟨fits, grows.scoped argumentsInScope⟩
  have respects : Respects discipline (equalTerm (start + 1) depth term (.univ sought)) opened _ :=
    equalTerm_decides openedWellScoped (grows.scoped inScope) soughtInScope
  have good := respects.good
  have follows := respects.follows
  rw [startRuns] at good follows
  refine ⟨_, good, follows.grows, (reaches inWords).2, eventually_of_succ ?_⟩
  filter_upwards [runs] with fuel runs
  obtain ⟨other, isOk, isOther, _, _, unique, _⟩ := solves fuel runs.2
  rw [runs.1]
  -- The solution does not depend on the fuel, since there is only one.
  exact ⟨isOk, by rw [isOther, isState, unique found below becomes]⟩

/-- A level is not told apart from the placeholder, and the comparison waits. -/
theorem eventually_postpones_fresh (scope : Nat) (wellScoped : before.WellScoped)
    (areVariables : arguments.toList = pattern.map .var) (inScope : term.Scoped before.Fits depth)
    (normalised : normalise before fuel term = .ok (.level bound))
    (notPlaceholder : Level.asPlaceholder? bound = none) :
    let opened := before.addPlaceholder scope (.sort true)
    let sought : Term := .univ (.sortPlaceholder before.placeholders.length arguments)
    ∀ᶠ fuel in atTop, ((equalTerm fuel depth term sought).run opened).result = .ok () ∧
      ((equalTerm fuel depth term sought).run opened).state =
        opened.postpone depth (.equalTerms (.level bound) (.level (Level.ofTerm sought))) := by
  intro opened sought
  have boundInScope : bound.Scoped before.Fits depth :=
    (normalises_of_normalise wellScoped normalised inScope).2
  obtain ⟨_, reduced, isReduced, rebuilt⟩ := exists_of_normalise normalised
  cases rebuilt with | @level inner _ innerNormalised =>
  have isNormal : IsNormal opened (Level.ofTerm sought) := by
    have unsolved : opened.solution? before.placeholders.length = none := by
      simp [opened, State.solution?, State.getElem?_addPlaceholder]
    refine isNormal_level_iff.2
      ⟨by simp [Level.ofTerm, sought, Level.Canonical, Level.Increasing], ?_⟩
    simp [Level.ofTerm, sought, Level.terms, Phrase.IsLevel, IsNormal, unsolved,
      isNormal_variables _ areVariables]
  have different : bound ≠ Level.ofTerm sought := by
    rintro rfl
    simpa [Phrase.mentions, Phrase.anyPlaceholder, sought, Level.ofTerm, Level.ofParts,
      Phrase.ofAtoms] using boundInScope.avoids_fresh
  have waits : (Level.ofTerm sought).hasPlaceholder = true := by
    simp [Phrase.hasPlaceholder, Phrase.anyPlaceholder, sought, Level.ofTerm, Level.ofParts,
      Phrase.ofAtoms]
  refine eventually_of_succ ?_
  filter_upwards [eventually_run_fresh wellScoped inScope isReduced areVariables,
    eventually_normalise innerNormalised, isNormal.eventually_normalise]
    with fuel runs innerDone soughtDone
  rw [runs]
  suffices Yields (equalLevel fuel depth inner (Level.ofTerm sought)) opened ()
    (opened.postpone depth (.equalTerms (.level bound) (.level (Level.ofTerm sought)))) from this
  simp only [equalLevel, yields_bind_iff, yields_get_iff, yields_lift_iff]
  refine ⟨_, _, ⟨rfl, rfl⟩, _, _, ⟨(State.normalise_addPlaceholder inner).trans innerDone, rfl⟩,
    _, _, ⟨soughtDone, rfl⟩, ?_⟩
  rw [if_neg different, notPlaceholder,
    show Level.asPlaceholder? (Level.ofTerm sought) = none from rfl, waits, Bool.or_true]
  exact ⟨rfl, rfl⟩

end ConvM

/-! ## The comparison -/

namespace Checker

/-- The placeholder that is to become the sort of a datatype, under the variables in scope. -/
def soughtSort (checker : Checker) : Universe :=
  .sortPlaceholder checker.state.placeholders.length checker.context.identity

/-- The comparison of the end of a datatype's type, which stands under `count` indices, with the
placeholder. -/
def seekSort (checker : Checker) (count : Nat) (core : Ty) : Outcome ConversionError State Unit :=
  (ConvM.equalTerm checker.fuel (checker.context.length + count) core.term
    (.univ (checker.soughtSort.rename (· + count)))).run
    (checker.state.addPlaceholder checker.context.length (.sort true))

end Checker

namespace CheckM

theorem run_forM_push (telescope : Telescope) (checker : Checker) :
    ((telescope.forM push).run checker).result = .ok () ∧
      ((telescope.forM push).run checker).state =
        { checker with context := telescope.reverse ++ checker.context } := by
  induction telescope generalizing checker with
  | nil => exact ⟨rfl, rfl⟩
  | cons domain telescope ih =>
    obtain ⟨isOk, isState⟩ :=
      ih { checker with context := domain :: checker.context }
    exact ⟨isOk, isState.trans (by simp)⟩

/-- A comparison under binders is one at a greater depth, and leaves the scope as it was. -/
theorem run_under_tryEqualTerm (telescope : Telescope) (left right : Term) (checker : Checker) :
    let compared :=
      (attempt (ConvM.equalTerm checker.fuel (checker.context.length + telescope.length)
      left right)).run checker
    ((under telescope (tryEqualTerm left right)).run checker).result = compared.result ∧
      ((under telescope (tryEqualTerm left right)).run checker).state = compared.state := by
  intro compared
  obtain ⟨pushed, isScope⟩ := run_forM_push telescope checker
  have inner : ((telescope.forM push >>= fun _ => tryEqualTerm left right).run checker).result =
        compared.result ∧
      ((telescope.forM push >>= fun _ => tryEqualTerm left right).run checker).state =
        { compared.state with context := telescope.reverse ++ checker.context } := by
    rw [Attempt.run_bind_of_ok pushed, isScope]
    simp only [tryEqualTerm, Attempt.run_get_bind, List.length_append, List.length_reverse,
      Nat.add_comm telescope.length]
    exact ⟨rfl, rfl⟩
  refine ⟨inner.1, ?_⟩
  change { ((telescope.forM push >>= fun _ => tryEqualTerm left right).run checker).state with
    context := ((telescope.forM push >>= fun _ => tryEqualTerm left right).run
      checker).state.context.truncate checker.context.length } = _
  rw [inner.2, Context.truncate_append]
  rfl

/-- What becomes of the comparison: its success gives the normal form of the placeholder, and an
error is blamed on the indices if they occur in the type. -/
theorem result_resolveSort {checker : Checker} {datatype : Path} {indices : Telescope} {core : Ty}
    (inWords : checker.context.length + indices.length ≤ wordLimit) :
    ((resolveSort datatype indices core).run checker).result =
      match (checker.seekSort indices.length core).result with
      | .ok () =>
        match Families.normalise (checker.seekSort indices.length core).state checker.fuel
            checker.soughtSort with
        | .ok sort => .ok sort
        | .error reason => .error (.halt reason)
      | .error (.error error) =>
        if (core.term.freeVariables .anywhere).toList.any (· < indices.length) then
          .error (.error (.sortDependsOnIndices datatype))
        else
          .error (.error (.conversion error))
      | .error (.halt reason) => .error (.halt reason) := by
  let created : Checker := { checker with
    state := checker.state.addPlaceholder checker.context.length (.sort true) }
  have fresh : ((freshSort true).run checker).result = .ok checker.soughtSort := rfl
  have freshState : ((freshSort true).run checker).state = created := rfl
  have isExpected : Ty.ofSort? checker.soughtSort =
      some (.classified .omega (.univ checker.soughtSort)) := rfl
  have isLifted : (Phrase.classified .omega (.univ checker.soughtSort) : Ty).lift?
    indices.length 0 =
      some (.classified .omega (.univ (checker.soughtSort.rename (· + indices.length)))) := by
    have lifted := Context.lift?_identity inWords
    unfold Phrase.lift? at lifted ⊢
    split
    · rename_i isZero
      rw [Phrase.rename_eq_self _ (by simp [isZero])]
    · rw [if_neg ‹_›] at lifted
      simp [Phrase.traverse, Checker.soughtSort, lifted, Phrase.rename, Phrase.mapVariables]
  let lifted := checker.soughtSort.rename (· + indices.length)
  let seek := ConvM.equalTerm created.fuel (created.context.length + indices.length) core.term
    (.univ lifted)
  obtain ⟨isResult, isState⟩ :
      ((under indices (tryEqualTerm core.term (.univ lifted))).run created).result =
        ((attempt seek).run created).result ∧
      ((under indices (tryEqualTerm core.term (.univ lifted))).run created).state =
        ((attempt seek).run created).state :=
    run_under_tryEqualTerm indices core.term (.univ lifted) created
  rw [show checker.seekSort indices.length core = seek.run created.state from rfl, resolveSort,
    Attempt.run_bind_of_ok fresh, freshState, isExpected]
  change ((monadLift (checked ((Phrase.classified .omega (.univ checker.soughtSort) : Ty).lift?
    indices.length 0)) >>= _ : CheckM Universe).run created).result = _
  rw [isLifted]
  change ((under indices (tryEqualTerm core.term (.univ lifted)) >>= _ : CheckM Universe).run
    created).result = _
  cases compared : (seek.run created.state).result with
  | ok answer =>
    simp only [attempt, compared] at isResult isState
    rw [Attempt.run_bind_of_ok isResult, isState]
    change ((normalise checker.soughtSort).run _).result = _
    rw [normalise, Attempt.run_get_bind]
    dsimp only
    cases Families.normalise (seek.run created.state).state checker.fuel checker.soughtSort <;> rfl
  | error failure =>
    cases failure with
    | error error =>
      simp only [attempt, compared] at isResult
      rw [Attempt.run_bind_of_ok isResult]
      dsimp only
      split <;> rfl
    | halt reason =>
      simp only [attempt, compared] at isResult
      rw [Attempt.run_bind_of_error isResult]

section Resolve

variable {checker : Checker} {datatype : Path} {indices : Telescope} {core : Ty} {fuel : Nat}

theorem result_resolveSort_of_ok {after : State}
    (inWords : checker.context.length + indices.length ≤ wordLimit)
    (isOk : (checker.seekSort indices.length core).result = .ok ())
    (isState : (checker.seekSort indices.length core).state = after)
    (normalised : Families.normalise after checker.fuel checker.soughtSort = .ok sort) :
    ((resolveSort datatype indices core).run checker).result = .ok sort := by
  subst isState
  rw [result_resolveSort inWords, isOk]
  dsimp only
  rw [normalised]

/-- An error of the comparison is blamed on the indices exactly if they occur in the type. -/
theorem result_resolveSort_of_error {error : ConversionError}
    (inWords : checker.context.length + indices.length ≤ wordLimit)
    (isError : (checker.seekSort indices.length core).result = .error (.error error)) :
    ((resolveSort datatype indices core).run checker).result =
      .error (.error (if ∃ index ∈ core.term.freeFrom .anywhere 0, index < indices.length then
        .sortDependsOnIndices datatype else .conversion error)) := by
  rw [result_resolveSort inWords, isError, apply_ite Failure.error, apply_ite Except.error]
  refine if_congr ?_ rfl rfl
  simp [Phrase.freeVariables, Positions.mem_ofList]

theorem toList_lifted_identity (context : Context) (count : Nat) :
    (context.identity.rename (· + count)).toList =
      ((List.range context.length).map (· + count)).map .var := by
  rw [Phrase.toList_rename, Context.toList_identity, List.map_map, List.map_map]
  rfl

theorem length_lifted_identity (context : Context) (count : Nat) :
    (context.identity.rename (· + count)).toList.length = context.length := by
  rw [toList_lifted_identity, List.length_map, List.length_map, List.length_range]

theorem mem_lifted_range_iff {count index : Nat} :
    index ∈ (List.range context.length).map (· + count) ↔
      count ≤ index ∧ index < context.length + count := by
  simp only [List.mem_map, List.mem_range]
  exact ⟨by rintro ⟨variableIndex, inside, rfl⟩; omega,
    fun inside => ⟨index - count, by omega, by omega⟩⟩

theorem scoped_lifted_identity (fits : Category → Nat → Nat → Prop) (context : Context)
    (count : Nat) : (context.identity.rename (· + count)).Scoped fits (context.length + count) :=
  (Context.scoped_identity context).rename fun _ inside => Nat.add_lt_add_right inside count

section

variable
  (wellScoped : checker.state.WellScoped)
  (inScope : core.term.Scoped checker.state.Fits (checker.context.length + indices.length))

include wellScoped inScope

/-- A sort that does not mention the indices is resolved to the sort without their binders. -/
theorem eventually_resolveSort_ok (inWords : checker.context.length + indices.length ≤ wordLimit)
    (normalised : Families.normalise checker.state fuel core.term = .ok (.univ sort))
    (normalInWords : sort.InWords) (notOmega : sort ≠ .omega)
    (notPlaceholder : ∀ id others, sort ≠ .sortPlaceholder id others)
    (independent : ∀ index ∈ sort.freeFrom .anywhere 0, indices.length ≤ index) :
    ∃ outside, sort.strengthen? indices.length = some outside ∧ ∀ᶠ fuel in atTop,
      ((resolveSort datatype indices core).run { checker with fuel }).result = .ok outside := by
  have increasing : StrictMono (· + indices.length) :=
    fun _ _ less => Nat.add_lt_add_right less indices.length
  have sortInScope : sort.Scoped checker.state.Fits (checker.context.length + indices.length) :=
    (normalises_of_normalise wellScoped normalised inScope).2
  have areVariables := toList_lifted_identity checker.context indices.length
  obtain ⟨after, afterWellScoped, grows, reaches, compares⟩ :=
    ConvM.eventually_solves_fresh wellScoped (length_lifted_identity checker.context indices.length)
      (scoped_lifted_identity _ checker.context indices.length)
      (List.nodup_range.map increasing.injective) areVariables inScope normalised notOmega
      notPlaceholder
      (fun index free => mem_lifted_range_iff.2
        ⟨independent index free,
          sortInScope.lt_of_mem_freeVariables (Positions.mem_ofList.2 free)⟩)
      normalInWords
  have soughtInScope : checker.soughtSort.Scoped after.Fits checker.context.length :=
    grows.scoped ⟨(Context.length_toList_identity checker.context).symm ▸
      .sort (State.getElem?_addPlaceholder _ _ _), Context.scoped_identity _⟩
  have resolved : ∀ᶠ fuel in atTop, ∃ outside,
      Families.normalise after fuel checker.soughtSort = .ok outside ∧
        sort = outside.rename (· + indices.length) := by
    filter_upwards [reaches] with fuel reaches
    have tracks : Tracks (fun outside inside => inside = outside.rename (· + indices.length))
        (Families.normalise after fuel checker.soughtSort) (.ok sort) :=
      reaches ▸ tracks_normalise increasing afterWellScoped soughtInScope
    generalize Families.normalise after fuel checker.soughtSort = outcome at tracks
    cases tracks with
    | answers related => exact ⟨_, rfl, related⟩
  obtain ⟨_, outside, _, isSort⟩ := resolved.exists
  refine ⟨outside, Phrase.strengthen?_eq_some_iff.2 isSort, ?_⟩
  filter_upwards [resolved, compares] with fuel resolved compared
  obtain ⟨other, isOther, same⟩ := resolved
  obtain rfl := Option.some.inj ((Phrase.strengthen?_eq_some_iff.2 isSort).symm.trans
    (Phrase.strengthen?_eq_some_iff.2 same))
  exact result_resolveSort_of_ok inWords compared.1 compared.2 isOther

/-- A type that ends in no sort, or in a sort that is too large or mentions the indices, is
refused. -/
theorem eventually_resolveSort_error {normal : Term}
    (normalised : Families.normalise checker.state fuel core.term = .ok normal)
    (rigid : normal.IsRigid)
    (unfit : ∀ sort, normal = .univ sort → sort ≠ .omega →
      ∃ index ∈ sort.freeFrom .anywhere 0, index < indices.length) :
    ∀ᶠ fuel in atTop, ∃ error,
      (({ checker with fuel } : Checker).seekSort indices.length core).result =
        .error (.error error) := by
  refine ConvM.eventually_fails_fresh wellScoped
    (length_lifted_identity checker.context indices.length) (scoped_lifted_identity _ _ _)
    (List.nodup_range.map fun _ _ => Nat.add_right_cancel) (toList_lifted_identity _ _) inScope
    normalised rigid fun sort isSort notOmega => ?_
  obtain ⟨index, free, isIndex⟩ := unfit sort isSort notOmega
  exact ⟨index, free, fun inside => absurd (mem_lifted_range_iff.1 inside).1 (by omega)⟩

/-- A type that ends in a level is accepted, with a sort that is not known. -/
theorem eventually_resolveSort_level (inWords : checker.context.length + indices.length ≤ wordLimit)
    (normalised : Families.normalise checker.state fuel core.term = .ok (.level bound))
    (notPlaceholder : Level.asPlaceholder? bound = none) :
    ∀ᶠ fuel in atTop,
      ((resolveSort datatype indices core).run { checker with fuel }).result =
        .ok checker.soughtSort := by
  let sought : Term := .univ (checker.soughtSort.rename (· + indices.length))
  let waiting := (checker.state.addPlaceholder checker.context.length (.sort true)).postpone
    (checker.context.length + indices.length)
    (.equalTerms (.level bound) (.level (Level.ofTerm sought)))
  have isNormal : IsNormal waiting checker.soughtSort :=
    ⟨by simp [waiting, State.postpone, State.solution?, State.getElem?_addPlaceholder],
      isNormal_variables _ (Context.toList_identity checker.context)⟩
  have compares : ∀ᶠ fuel in atTop,
      (({ checker with fuel } : Checker).seekSort indices.length core).result = .ok () ∧
        (({ checker with fuel } : Checker).seekSort indices.length core).state = waiting :=
    ConvM.eventually_postpones_fresh checker.context.length wellScoped
      (toList_lifted_identity checker.context indices.length) inScope normalised notPlaceholder
  filter_upwards [compares, isNormal.eventually_normalise] with fuel compared isOther
  exact result_resolveSort_of_ok inWords compared.1 compared.2 isOther

end

theorem inWords_univ_iff : (Phrase.univ sort).InWords ↔ sort.InWords := by
  simp only [Phrase.InWords, Phrase.traverse]
  cases sort.traverse (fun _ index => (word? index).map .var) 0 <;> simp

/-- A type whose normal form is neither a level nor a placeholder is resolved exactly if the normal
form is a sort below the largest one that mentions no index, and the result is that sort without the
binders of the indices.  Otherwise the error of the comparison is reported, or the indices are
blamed if one of them occurs in the type.  A level is resolved to the placeholder, which stays
open. -/
theorem resolveSort_ok_iff
    {normal : Term}
    (reachable : Reachable checker)
    (inScope : core.term.Scoped checker.state.Fits (checker.context.length + indices.length))
    (inWords : checker.context.length + indices.length ≤ wordLimit)
    (normalised : Families.normalise checker.state fuel core.term = .ok normal)
    (normalInWords : normal.InWords) :
    (∀ fuel, ((resolveSort datatype indices core).run { checker with fuel }).state.context =
      checker.context) ∧
    (normal.IsRigid → ∀ᶠ fuel in atTop,
      let result := ((resolveSort datatype indices core).run { checker with fuel }).result
      ((∃ sort, result = .ok sort) ↔ normal.IsDataSort indices.length) ∧
      (∀ sort, result = .ok sort →
        ∃ inner, normal = .univ inner ∧ inner.strengthen? indices.length = some sort) ∧
      (¬normal.IsDataSort indices.length → ∃ error,
        (({ checker with fuel } : Checker).seekSort indices.length core).result =
          .error (.error error) ∧
        result = .error (.error
          (if ∃ index ∈ core.term.freeFrom .anywhere 0, index < indices.length then
            .sortDependsOnIndices datatype else .conversion error)))) ∧
    (∀ bound, normal = .level bound → Level.asPlaceholder? bound = none → ∀ᶠ fuel in atTop,
      ((resolveSort datatype indices core).run { checker with fuel }).result =
        .ok checker.soughtSort) := by
  have wellScoped := reachable.wellScoped.state
  refine ⟨fun fuel => ((built_resolveSort datatype indices core).consulting _).follows.context,
    ?_, ?_⟩
  · intro rigid
    by_cases isDataSort : normal.IsDataSort indices.length
    · have known := isDataSort
      obtain ⟨inner, rfl, notOmega, independent⟩ := known
      have notPlaceholder : ∀ id others, inner ≠ .sortPlaceholder id others := by
        rintro id others rfl
        exact rigid
      obtain ⟨outside, strengthened, resolves⟩ :=
        eventually_resolveSort_ok wellScoped inScope inWords
        normalised (inWords_univ_iff.1 normalInWords) notOmega notPlaceholder independent
      filter_upwards [resolves] with fuel isOk
      refine ⟨⟨fun _ => isDataSort, fun _ => ⟨outside, isOk⟩⟩, ?_, fun unfit =>
        absurd isDataSort unfit⟩
      intro sort answered
      obtain rfl := Except.ok.inj (isOk.symm.trans answered)
      exact ⟨inner, rfl, strengthened⟩
    · have unfit : ∀ sort, normal = .univ sort → sort ≠ .omega →
          ∃ index ∈ sort.freeFrom .anywhere 0, index < indices.length := by
        intro sort isSort notOmega
        by_contra independent
        push Not at independent
        exact isDataSort ⟨sort, isSort, notOmega, independent⟩
      filter_upwards [eventually_resolveSort_error wellScoped inScope normalised rigid unfit]
        with fuel failed
      obtain ⟨error, isError⟩ := failed
      have isResult : ((resolveSort datatype indices core).run { checker with fuel }).result =
        .error (.error _) := result_resolveSort_of_error inWords isError
      refine ⟨⟨?_, fun fit => absurd fit isDataSort⟩, ?_, fun _ => ⟨error, isError, isResult⟩⟩
      · rintro ⟨_, isOk⟩
        cases isOk.symm.trans isResult
      · intro _ isOk
        cases isOk.symm.trans isResult
  · rintro bound rfl notPlaceholder
    exact eventually_resolveSort_level wellScoped inScope inWords normalised notPlaceholder

/-- Below a parameter and an index that are levels, the sort of sets of the parameter is resolved
and that of the index is refused. -/
theorem resolveSort_ok_iff_levels :
    let levels : Domain := ⟨⟨0⟩, {}, .classified (Universe.ofNat 0) (.const Path.level)⟩
    let checker : Checker := { Checker.initial {} .patterns 20 with context := [levels] }
    let sets (index : Nat) : Universe := .set (Level.ofTerm (.var index))
    let resolve (fuel index : Nat) := (resolveSort ⟨2⟩ [levels] (.classified .omega
      (.univ (sets index)))).run { checker with fuel }
    Reachable checker ∧ ∀ᶠ fuel in atTop, (resolve fuel 1).result = .ok (sets 0) ∧
      (resolve fuel 0).result = .error (.error (.sortDependsOnIndices ⟨2⟩)) := by
  intro levels checker sets resolve
  have reachable : Reachable checker :=
    .binds (.initial {} .patterns 20) ⟨Universe.scoped_ofNat 0 _, trivial⟩
  have normalised : ∀ index < 2,
      Families.normalise checker.state 20 (.univ (sets index)) = .ok (.univ (sets index)) := by
    decide +kernel
  have parameterFits : (Phrase.univ (sets 1)).IsDataSort 1 :=
    ⟨sets 1, rfl, by decide, by decide⟩
  have indexOccurs : ∃ index ∈ (Phrase.univ (sets 0)).freeFrom .anywhere 0, index < 1 :=
    ⟨0, by decide, Nat.one_pos⟩
  have indexUnfit : ¬(Phrase.univ (sets 0)).IsDataSort 1 := by
    rintro ⟨_, ⟨⟩, _, independent⟩
    exact absurd (independent 0 (by decide)) (by decide)
  have ofParameter :=
    (@resolveSort_ok_iff checker ⟨2⟩ [levels] (.classified .omega (.univ (sets 1)))
    20 _ reachable ⟨Nat.one_lt_two, trivial⟩ (by decide) (normalised 1 (by decide)) rfl).2.1 trivial
  have ofIndex := (@resolveSort_ok_iff checker ⟨2⟩ [levels] (.classified .omega (.univ (sets 0)))
    20 _ reachable ⟨Nat.two_pos, trivial⟩ (by decide) (normalised 0 (by decide)) rfl).2.1 trivial
  refine ⟨reachable, ?_⟩
  filter_upwards [ofParameter, ofIndex] with fuel ofParameter ofIndex
  obtain ⟨sort, isOk⟩ := ofParameter.1.2 parameterFits
  obtain ⟨_, ⟨⟩, strengthened⟩ := ofParameter.2.1 sort isOk
  obtain rfl : sets 0 = sort := Option.some.inj strengthened
  obtain ⟨_, _, isError⟩ := ofIndex.2.2 indexUnfit
  exact ⟨isOk, isError.trans (congrArg (Except.error ∘ Failure.error) (if_pos indexOccurs))⟩

/-- A datatype is accepted although its type ends in a level. -/
theorem level_resolved_as_sort :
    let checker :=
      ((Call.check coercedLevel).computation.run (Checker.initial {} .patterns 40)).state
    let coerced : Expr := .app (.const "coerce")
      [(.explicit, .const "identity"), (.explicit, .const "level"), (.explicit, .const "T")]
    let core : Term :=
      .app (.app (.app (.const ⟨5⟩) (.const ⟨3⟩) {}) (.const ⟨4⟩) {}) (.const ⟨2⟩) {}
    let resolved := (resolveSort ⟨6⟩ [] (.classified (Universe.ofNat 1) core)).run checker
    ((elaborate coerced).run checker).result = .ok core ∧
      core.hasPlaceholder = false ∧
      Families.normalise checker.state 40 core = .ok (.level (.lub 0 .noAtoms)) ∧
      resolved.result = .ok (.sortPlaceholder 0 .noTerms) ∧
      resolved.state.state.solution? 0 = none := by
  decide +kernel

end Resolve

end CheckM

end Families
