import Families.Conversion.Equality
import Families.Proofs.Agreement
import Families.Proofs.Discipline

/-!
# Comparisons

A comparison of scoped phrases in a well-scoped state passes well-scoped states only.  It solves
placeholders and postpones comparisons, adds no placeholder, and breaks no invariant: every
placeholder that it solves exists and was unsolved.  If it postpones nothing, the phrases that it
made equal are equated from then on.
-/

namespace Families

variable {pattern : List Nat} {category : Category} {comparison : Comparison}
variable {arguments : List Term} {kind : PlaceholderKind}
variable {first second third after : State} {scope : Nat} {left right : Level}

/-- The later state has the same placeholders, of which more may be solved, and may have postponed
more comparisons. -/
structure Develops (before after : State) : Prop where
  grows : before.Grows after
  count : after.placeholders.length = before.placeholders.length

theorem Develops.refl (state : State) : Develops state state :=
  ⟨.refl state, rfl⟩

theorem Develops.trans (earlier : Develops first second)
    (later : Develops second third) : Develops first third :=
  ⟨earlier.grows.trans later.grows, later.count.trans earlier.count⟩

/-- The placeholders are the same in both directions. -/
theorem Develops.fits {before : State} {id count : Nat} (develops : Develops before after)
    (fits : after.Fits category id count) : before.Fits category id count := by
  have persisted : ∀ {scope kind solution}, after.placeholders[id]? = some ⟨scope, kind, solution⟩ →
      ∃ earlier, before.placeholders[id]? = some ⟨scope, kind, earlier⟩ := by
    intro scope kind solution found
    have bounded : id < before.placeholders.length :=
      develops.count ▸ (List.getElem?_eq_some_iff.1 found).1
    have foundBefore := List.getElem?_eq_getElem bounded
    obtain ⟨_, foundAfter, _⟩ := develops.grows.placeholders id _ foundBefore
    rw [found] at foundAfter
    obtain ⟨rfl, rfl, _⟩ := Placeholder.mk.inj (Option.some.inj foundAfter)
    exact ⟨_, foundBefore⟩
  cases fits with
  | term found =>
    obtain ⟨_, foundBefore⟩ := persisted found
    exact .term foundBefore
  | sort found =>
    obtain ⟨_, foundBefore⟩ := persisted found
    exact .sort foundBefore

/-- Nothing was postponed on the way if nothing was postponed in the end. -/
theorem Develops.constraints_eq (earlier : Develops first second)
    (later : Develops second third) (same : third.constraints = first.constraints) :
    second.constraints = first.constraints ∧ third.constraints = second.constraints := by
  have longer := earlier.grows.constraints.length_le
  have longer' := later.grows.constraints.length_le
  have sameLength : second.constraints.length = first.constraints.length := by
    have := congrArg List.length same
    omega
  have same' := (earlier.grows.constraints.eq_of_length sameLength.symm).symm
  exact ⟨same', same.trans same'.symm⟩

/-- Unless comparisons were postponed, the phrases are equated from then on. -/
def Decides {category : Category} (agree : Phrase category → Phrase category → Prop)
    (before after : State) (left right : Phrase category) : Prop :=
  after.constraints = before.constraints → Equates agree after left right

namespace ConvM

/-- Comparisons pass well-scoped states, develop the state, and stop at no fault. -/
def discipline : Discipline State where
  Good := State.WellScoped
  Passes := Develops
  Follows := Develops
  Allows _ := False
  refl := Develops.refl
  trans := Develops.trans
  passes := Develops.trans

/-- From the given state the comparison respects the discipline. -/
abbrev Safe {α : Type} (comparison : ConvM α) (state : State) : Prop :=
  Respects discipline comparison state fun _ _ => True

variable {state : State} {depth fuel id : Nat}

theorem respects_postpone (wellScoped : state.WellScoped)
    (inScope : comparison.Scoped state.Fits depth) :
    Respects discipline (postpone depth comparison) state
      fun _ after => after.constraints ≠ state.constraints := by
  have develops : Develops state (state.postpone depth comparison) :=
    ⟨state.grows_postpone depth comparison, rfl⟩
  refine .modify (wellScoped.postpone inScope) develops develops ?_
  simp [State.postpone]

/-- A comparison that is postponed decides nothing. -/
theorem postpone_decides {agree : Phrase category → Phrase category → Prop}
    {left right : Phrase category} (wellScoped : state.WellScoped)
    (inScope : comparison.Scoped state.Fits depth) :
    Respects discipline (postpone depth comparison) state
      fun _ after => Decides agree state after left right :=
  (respects_postpone wellScoped inScope).mono fun _ _ _ _ postponed same => absurd same postponed

theorem safe_postpone (wellScoped : state.WellScoped)
    (inScope : comparison.Scoped state.Fits depth) : Safe (postpone depth comparison) state :=
  (respects_postpone wellScoped inScope).forget

/-! ## Solving placeholders -/

theorem develops_solve {solution : Solution}
    (succeeded : state.solve id solution = .ok after) : Develops state after := by
  refine ⟨State.grows_solve succeeded, ?_⟩
  obtain ⟨scope, kind, _, rfl⟩ := State.solve_eq_ok_iff.1 succeeded
  simp

/-- A pattern has a variable for each argument. -/
theorem map_var_of_patternVariables? (isPattern : patternVariables? arguments = some pattern) :
    arguments = pattern.map .var ∧ pattern.Nodup := by
  simp only [patternVariables?, Option.bind_eq_bind, Option.bind_eq_some_iff] at isPattern
  obtain ⟨indices, allVariables, distinct⟩ := isPattern
  split at distinct
  · rename_i nodup
    obtain rfl := Option.some.inj distinct
    refine ⟨?_, nodup⟩
    clear nodup distinct
    induction arguments generalizing indices with
    | nil => simp_all
    | cons first rest ih =>
      simp only [List.mapM_cons, Option.bind_eq_bind, Option.bind_eq_some_iff, Option.pure_def,
        Option.some.injEq] at allVariables
      obtain ⟨index, isVariable, others, restVariables, rfl⟩ := allVariables
      rw [ih others restVariables]
      cases first with
      | var other => simp_all [variableIndex?]
      | _ => simp [variableIndex?] at isVariable
  · simp at distinct

/-- The value is normalised, and the solution is this under the arguments. -/
theorem respects_solve {kind : Category} {value : Phrase category}
    {solution : Phrase category → Solution} (wellScoped : state.WellScoped)
    (valueInScope : value.Scoped state.Fits depth) (fits : state.Fits kind id pattern.length)
    (unsolved : state.solution? id = none)
    (solutionInScope : ∀ {inverted scope kind}, inverted.Scoped state.Fits pattern.length →
      state.placeholders[id]? = some ⟨scope, kind, none⟩ →
      (solution inverted).Scoped state.Fits scope kind) :
    Respects discipline (solve fuel id pattern value solution) state fun _ after =>
      ∃ inverted, after.solution? id = some (solution inverted) ∧
        inverted.Below pattern.length ∧
        Rewrites state value (inverted.replace (Phrase.assigned (pattern.map .var))) := by
  refine .get_bind (.lift_bind wellScoped (faultless_normalise _ _ _) fun normalised reached => ?_)
  obtain ⟨normalises, normalisedInScope⟩ := normalises_of_normalise wellScoped reached valueInScope
  split
  · exact .fail wellScoped
  · split
    · exact .fail wellScoped
    · rename_i inverted isInverse
      have invertedInScope := normalisedInScope.invert isInverse
      obtain ⟨after, succeeded⟩ := State.exists_solve_eq_ok (solution inverted) fits unsolved
      have develops := develops_solve succeeded
      rw [succeeded]
      refine .set (wellScoped.solve succeeded fun _ _ => solutionInScope invertedInScope)
        develops develops ⟨inverted, State.solution?_of_solve succeeded, invertedInScope.below, ?_⟩
      rw [Phrase.replace_of_invert isInverse]
      exact normalises.rewrites

/-- What an assignment to a placeholder for a term does. -/
theorem assignTerm_cases (fuel depth id : Nat) (arguments : Phrase .terms) (value : Term) :
    assignTerm fuel depth id arguments value =
        postpone depth (.equalTerms (.placeholder id arguments) value) ∨
      ∃ pattern, patternVariables? arguments.toList = some pattern ∧
        assignTerm fuel depth id arguments value = solve fuel id pattern value .term := by
  cases isPattern : patternVariables? arguments.toList with
  | none =>
    left
    cases value <;> simp [assignTerm, isPattern]
  | some pattern =>
    cases value with
    | placeholder other others =>
      by_cases same : other = id
      · left
        simp [assignTerm, same]
      · right
        exact ⟨pattern, rfl, by simp [assignTerm, isPattern, same]⟩
    | _ =>
      right
      exact ⟨pattern, rfl, by simp [assignTerm, isPattern]⟩

/-- What an assignment to a placeholder for a sort does, wherever the ceiling of the placeholder is
the same. -/
theorem assignSort_cases (fuel depth id : Nat) (arguments : Phrase .terms) (value : Universe)
    (state : State) :
    ∃ chosen : ConvM Unit,
      (∀ {other : State}, isBelowOmega other id = isBelowOmega state id →
        (assignSort fuel depth id arguments value).run other = chosen.run other) ∧
      (chosen = postpone depth (.equalSorts (.sortPlaceholder id arguments) value) ∨
        (value = .omega ∧ chosen = Attempt.fail (.sortCeiling id .omega)) ∨
        ∃ pattern, patternVariables? arguments.toList = some pattern ∧
          (value = .omega → isBelowOmega state id = false) ∧
          chosen = solve fuel id pattern value .sort) := by
  simp only [assignSort, Attempt.run_get_bind]
  cases isPattern : patternVariables? arguments.toList with
  | none =>
    cases value with
    | omega =>
      by_cases bounded : isBelowOmega state id
      · refine ⟨_, fun same => ?_, .inr (.inl ⟨rfl, rfl⟩)⟩
        simp [same, bounded]
      · refine ⟨_, fun same => ?_, .inl rfl⟩
        simp [same, bounded]
    | _ => exact ⟨_, fun _ => by simp, .inl rfl⟩
  | some pattern =>
    cases value with
    | omega =>
      by_cases bounded : isBelowOmega state id
      · refine ⟨_, fun same => ?_, .inr (.inl ⟨rfl, rfl⟩)⟩
        simp [same, bounded]
      · refine ⟨_, fun same => ?_, .inr (.inr ⟨pattern, rfl, fun _ => by simpa using bounded, rfl⟩)⟩
        simp [same, bounded]
    | sortPlaceholder other others =>
      by_cases same : other = id
      · exact ⟨_, fun _ => by simp [same], .inl rfl⟩
      · refine ⟨_, fun _ => ?_, .inr (.inr ⟨pattern, rfl, by simp, rfl⟩)⟩
        simp [same]
    | _ => exact ⟨_, fun _ => by simp, .inr (.inr ⟨pattern, rfl, by simp, rfl⟩)⟩

/-- A phrase that is moved into the scope of a placeholder for a term solves it. -/
theorem scoped_term_of_fits {inverted : Term} (fits : state.Fits .term id pattern.length)
    (inScope : inverted.Scoped state.Fits pattern.length)
    (found : state.placeholders[id]? = some ⟨scope, kind, none⟩) :
    Solution.Scoped state.Fits scope kind (.term inverted) := by
  cases fits with
  | term found' =>
    rw [found'] at found
    obtain ⟨rfl, rfl, _⟩ := Placeholder.mk.inj (Option.some.inj found)
    exact inScope

/-- A phrase that is moved into the scope of a placeholder for a sort solves it. -/
theorem scoped_sort_of_fits {inverted : Universe} (fits : state.Fits .sort id pattern.length)
    (inScope : inverted.Scoped state.Fits pattern.length)
    (found : state.placeholders[id]? = some ⟨scope, kind, none⟩) :
    Solution.Scoped state.Fits scope kind (.sort inverted) := by
  cases fits with
  | sort found' =>
    rw [found'] at found
    obtain ⟨rfl, rfl, _⟩ := Placeholder.mk.inj (Option.some.inj found)
    exact inScope

/-- A pattern has as many variables as there are arguments. -/
theorem length_of_patternVariables? (isPattern : patternVariables? arguments = some pattern) :
    arguments.length = pattern.length := by
  simpa using congrArg List.length (map_var_of_patternVariables? isPattern).1

theorem assignTerm_decides {arguments : Phrase .terms} {value : Term}
    (wellScoped : state.WellScoped)
    (inScope : (Phrase.placeholder id arguments).Scoped state.Fits depth)
    (unsolved : state.solution? id = none) (valueInScope : value.Scoped state.Fits depth) :
    Respects discipline (assignTerm fuel depth id arguments value) state fun _ after =>
      Decides Eq state after (.placeholder id arguments) value := by
  rcases assignTerm_cases fuel depth id arguments value with
    postponed | ⟨pattern, isPattern, solved⟩
  · rw [postponed]
    exact postpone_decides wellScoped ⟨inScope, valueInScope⟩
  · have fits : state.Fits .term id pattern.length :=
      length_of_patternVariables? isPattern ▸ inScope.1
    rw [solved]
    refine (respects_solve wellScoped valueInScope fits unsolved (scoped_term_of_fits fits)).mono ?_
    rintro _ after _ develops ⟨inverted, solution, below, rewrites⟩ _
    rw [← length_of_patternVariables? isPattern] at below
    rw [← (map_var_of_patternVariables? isPattern).1] at rewrites
    exact .of_solution develops.grows.resolves solution below rewrites

theorem assignSort_decides {arguments : Phrase .terms} {value : Universe}
    (wellScoped : state.WellScoped)
    (inScope : (Phrase.sortPlaceholder id arguments).Scoped state.Fits depth)
    (unsolved : state.solution? id = none) (valueInScope : value.Scoped state.Fits depth) :
    Respects discipline (assignSort fuel depth id arguments value) state fun _ after =>
      Decides Eq state after (.sortPlaceholder id arguments) value := by
  obtain ⟨chosen, runs, rfl | ⟨_, rfl⟩ | ⟨pattern, isPattern, _, rfl⟩⟩ :=
    assignSort_cases fuel depth id arguments value state
  · have inScope : Comparison.Scoped state.Fits depth
        (.equalSorts (.sortPlaceholder id arguments) value) := ⟨inScope, valueInScope⟩
    exact (postpone_decides wellScoped inScope).of_run_eq (runs rfl)
  · exact Respects.of_run_eq (.fail wellScoped) (runs rfl)
  · have fits : state.Fits .sort id pattern.length :=
      length_of_patternVariables? isPattern ▸ inScope.1
    refine ((respects_solve wellScoped valueInScope fits unsolved
      (scoped_sort_of_fits fits)).of_run_eq (runs rfl)).mono ?_
    rintro _ after _ develops ⟨inverted, solution, _, rewrites⟩ _
    rw [← (map_var_of_patternVariables? isPattern).1] at rewrites
    exact .of_sortSolution develops.grows.resolves solution rewrites

/-! ## Comparing levels and sorts -/

theorem equalLevel_decides (wellScoped : state.WellScoped)
    (leftInScope : left.Scoped state.Fits depth) (rightInScope : right.Scoped state.Fits depth) :
    Respects discipline (equalLevel fuel depth left right) state fun _ after =>
      Decides Eq state after left right := by
  refine .get_bind (.lift_bind wellScoped (faultless_normalise _ _ _) fun left' leftReached => ?_)
  refine .lift_bind wellScoped (faultless_normalise _ _ _) fun right' rightReached => ?_
  obtain ⟨leftNormalises, left'InScope⟩ :=
    normalises_of_normalise wellScoped leftReached leftInScope
  obtain ⟨rightNormalises, right'InScope⟩ :=
    normalises_of_normalise wellScoped rightReached rightInScope
  -- It is enough to equate the normalised levels.
  suffices decides : Respects discipline _ state fun _ after =>
      Decides Eq state after left' right' by
    refine decides.mono fun _ after _ develops decides same => ?_
    exact .of_rewrites develops.grows.resolves leftNormalises.rewrites rightNormalises.rewrites
      (decides same)
  split
  · rename_i same
    exact .pure wellScoped fun _ => same ▸ .refl left'
  · split
    · rename_i isPlaceholder
      obtain ⟨inScope, unsolved⟩ :=
        leftNormalises.isNormal.unsolved_of_asPlaceholder? left'InScope isPlaceholder
      refine (assignTerm_decides wellScoped inScope unsolved right'InScope).mono ?_
      exact fun _ _ _ _ decides same => .of_asPlaceholder? isPlaceholder (decides same)
    · rename_i isPlaceholder
      obtain ⟨inScope, unsolved⟩ :=
        rightNormalises.isNormal.unsolved_of_asPlaceholder? right'InScope isPlaceholder
      refine (assignTerm_decides wellScoped inScope unsolved left'InScope).mono ?_
      exact fun _ _ _ _ decides same =>
        (Equates.of_asPlaceholder? isPlaceholder (decides same)).symm
    · split
      · exact postpone_decides wellScoped ⟨left'InScope, right'InScope⟩
      · exact .fail wellScoped

theorem safe_leqLevel (wellScoped : state.WellScoped)
    (leftInScope : left.Scoped state.Fits depth) (rightInScope : right.Scoped state.Fits depth) :
    Safe (leqLevel fuel depth left right) state := by
  refine .get_bind (.lift_bind wellScoped (faultless_normalise _ _ _) fun left' leftReached => ?_)
  refine .lift_bind wellScoped (faultless_normalise _ _ _) fun right' rightReached => ?_
  have left'InScope := (normalises_of_normalise wellScoped leftReached leftInScope).2
  have right'InScope := (normalises_of_normalise wellScoped rightReached rightInScope).2
  split
  · exact .pure wellScoped trivial
  · split
    · exact safe_postpone wellScoped ⟨left'InScope, right'InScope⟩
    · exact .fail wellScoped

theorem equalSort_decides {left right : Universe} (wellScoped : state.WellScoped)
    (leftInScope : left.Scoped state.Fits depth) (rightInScope : right.Scoped state.Fits depth) :
    Respects discipline (equalSort fuel depth left right) state fun _ after =>
      Decides Eq state after left right := by
  refine .get_bind (.lift_bind wellScoped (faultless_reduce _ _ _) fun left' leftReached => ?_)
  refine .lift_bind wellScoped (faultless_reduce _ _ _) fun right' rightReached => ?_
  obtain ⟨leftReduces, left'InScope⟩ := reduces_of_reduce wellScoped leftReached leftInScope
  obtain ⟨rightReduces, right'InScope⟩ := reduces_of_reduce wellScoped rightReached rightInScope
  -- It is enough to equate the reduced sorts.
  suffices decides : Respects discipline _ state fun _ after =>
      Decides Eq state after left' right' by
    refine decides.mono fun _ after _ develops decides same => ?_
    exact .of_rewrites develops.grows.resolves (.of_parallel leftReduces.parallel)
      (.of_parallel rightReduces.parallel) (decides same)
  split
  · rename_i same
    exact .pure wellScoped fun _ => same ▸ .refl left'
  · split
    · exact assignSort_decides wellScoped left'InScope
        (leftReduces.inert.unsolved_sort wellScoped left'InScope) right'InScope
    · refine (assignSort_decides wellScoped right'InScope
        (rightReduces.inert.unsolved_sort wellScoped right'InScope) left'InScope).mono ?_
      exact fun _ _ _ _ decides same => (decides same).symm
    · refine (equalLevel_decides wellScoped left'InScope right'InScope).mono ?_
      exact fun _ _ _ _ decides same => (decides same).set
    · exact .fail wellScoped

theorem safe_leqSort {left right : Universe} (wellScoped : state.WellScoped)
    (leftInScope : left.Scoped state.Fits depth) (rightInScope : right.Scoped state.Fits depth) :
    Safe (leqSort fuel depth left right) state := by
  refine .get_bind (.lift_bind wellScoped (faultless_normalise _ _ _) fun left' leftReached => ?_)
  refine .lift_bind wellScoped (faultless_normalise _ _ _) fun right' rightReached => ?_
  have left'InScope := (normalises_of_normalise wellScoped leftReached leftInScope).2
  have right'InScope := (normalises_of_normalise wellScoped rightReached rightInScope).2
  split
  · exact .pure wellScoped trivial
  · split
    · exact safe_postpone wellScoped ⟨left'InScope, right'InScope⟩
    · exact safe_postpone wellScoped ⟨left'InScope, right'InScope⟩
    · exact .fail wellScoped
    · exact .fail wellScoped
    · exact .pure wellScoped trivial
    · exact .pure wellScoped trivial
    · exact safe_leqLevel wellScoped left'InScope right'InScope
    · exact .fail wellScoped

/-! ## Comparing terms -/

/-- The arguments are equated one after the other, unless comparisons were postponed. -/
theorem equalArguments_decides {equal : Term → Term → ConvM Unit}
    (decides : ∀ {state left right}, state.WellScoped → left.Scoped state.Fits depth →
      right.Scoped state.Fits depth →
      Respects discipline (equal left right) state fun _ after =>
        Decides Agrees state after left right) :
    ∀ {left right : List (ArgInfo × Term)} {state : State}, state.WellScoped →
      (∀ argument ∈ left, argument.2.Scoped state.Fits depth) →
      (∀ argument ∈ right, argument.2.Scoped state.Fits depth) →
      left.length = right.length →
      Respects discipline (equalArguments equal left right) state fun _ after =>
        after.constraints = state.constraints → Equates.Arguments after left right
  | (info, left) :: lefts, (_, right) :: rights, state, wellScoped, leftInScope, rightInScope,
      sameLength => by
      rw [List.forall_mem_cons] at leftInScope rightInScope
      have sameRest : lefts.length = rights.length := Nat.succ.inj sameLength
      rw [equalArguments]
      split
      · rename_i irrelevant
        refine (equalArguments_decides decides wellScoped leftInScope.2 rightInScope.2
          sameRest).mono
          fun _ after _ _ arguments same => .cons (fun relevant => ?_) (arguments same)
        simp [irrelevant] at relevant
      · refine .bind (decides wellScoped leftInScope.1 rightInScope.1) ?_
        intro _ middle middleWellScoped develops first
        refine (equalArguments_decides decides middleWellScoped
          (fun argument present => develops.grows.scoped (leftInScope.2 argument present))
          (fun argument present => develops.grows.scoped (rightInScope.2 argument present))
          sameRest).mono ?_
        intro _ after _ develops' arguments same
        obtain ⟨same, same'⟩ := develops.constraints_eq develops' same
        exact .cons (fun _ => (first same).mono develops'.grows.resolves) (arguments same')
  | [], [], _, wellScoped, _, _, _ => .pure wellScoped fun _ => .nil

theorem ne_placeholder {term : Term} (rigid : ¬isPlaceholder term) (id : Nat)
    (arguments : Phrase .terms) : term ≠ .placeholder id arguments := by
  rintro rfl
  exact rigid rfl

theorem equalTerm_decides {left right : Term} (wellScoped : state.WellScoped)
    (leftInScope : left.Scoped state.Fits depth) (rightInScope : right.Scoped state.Fits depth) :
    Respects discipline (equalTerm fuel depth left right) state fun _ after =>
      Decides Agrees state after left right := by
  induction fuel generalizing depth left right state with
  | zero => exact .exhausted wellScoped
  | succ fuel ih =>
    rw [equalTerm]
    refine .get_bind (.lift_bind wellScoped (faultless_reduce _ _ _) fun left' leftReached => ?_)
    refine .lift_bind wellScoped (faultless_reduce _ _ _) fun right' rightReached => ?_
    obtain ⟨leftReduces, left'InScope⟩ := reduces_of_reduce wellScoped leftReached leftInScope
    obtain ⟨rightReduces, right'InScope⟩ := reduces_of_reduce wellScoped rightReached rightInScope
    -- It is enough to equate the reduced terms.
    suffices decides : Respects discipline _ state
        fun _ after => Decides Agrees state after left' right' by
      refine decides.mono fun _ after _ develops decides same => ?_
      exact .of_rewrites develops.grows.resolves (.of_parallel leftReduces.parallel)
        (.of_parallel rightReduces.parallel) (decides same)
    split
    · rename_i same
      exact .pure wellScoped fun _ => same ▸ (Equates.refl left').agrees
    · split
      · refine (assignTerm_decides wellScoped left'InScope
          (leftReduces.inert.unsolved wellScoped left'InScope) right'InScope).mono ?_
        exact fun _ _ _ _ decides same => (decides same).agrees
      · refine (assignTerm_decides wellScoped right'InScope
          (rightReduces.inert.unsolved wellScoped right'InScope) left'InScope).mono ?_
        exact fun _ _ _ _ decides same => (decides same).symm.agrees
      · refine (equalLevel_decides wellScoped (Level.scoped_ofTerm left'InScope)
          (Level.scoped_ofTerm right'InScope)).mono ?_
        exact fun _ _ _ _ decides same => .of_ofTerm (decides same)
      · refine (equalLevel_decides wellScoped (Level.scoped_ofTerm left'InScope)
          (Level.scoped_ofTerm right'InScope)).mono ?_
        exact fun _ _ _ _ decides same => .of_ofTerm (decides same)
      · refine (equalSort_decides wellScoped left'InScope right'InScope).mono ?_
        exact fun _ _ _ _ decides same => (decides same).univ.agrees
      · split
        · rename_i samePlicity
          refine .bind (ih wellScoped left'InScope.1.term right'InScope.1.term) ?_
          intro _ middle middleWellScoped develops domains
          refine (ih middleWellScoped
            (develops.grows.scoped left'InScope.2.term)
            (develops.grows.scoped right'InScope.2.term)).mono ?_
          intro _ after _ develops' codomains same
          obtain ⟨same, same'⟩ := develops.constraints_eq develops' same
          exact .pi samePlicity ((domains same).mono develops'.grows.resolves) (codomains same')
        · exact .fail wellScoped
      · split
        · exact postpone_decides wellScoped ⟨left'InScope, right'InScope⟩
        · split
          · rename_i rigid sameLength
            obtain ⟨leftHead, leftArguments⟩ := (Phrase.scoped_iff_arguments _).1 left'InScope
            obtain ⟨rightHead, rightArguments⟩ := (Phrase.scoped_iff_arguments _).1 right'InScope
            refine .bind (ih wellScoped leftHead rightHead) ?_
            intro _ middle middleWellScoped develops heads
            refine (equalArguments_decides ih middleWellScoped
              (fun argument present => develops.grows.scoped (leftArguments argument present))
              (fun argument present => develops.grows.scoped (rightArguments argument present))
              sameLength).mono ?_
            intro _ after _ develops' arguments same
            obtain ⟨same, same'⟩ := develops.constraints_eq develops' same
            rw [Bool.or_eq_true, not_or] at rigid
            exact .of_arguments (develops.trans develops').grows.resolves
              (fun _ => leftReduces.inert.not_unfolds) (fun _ => rightReduces.inert.not_unfolds)
              (ne_placeholder rigid.1) (ne_placeholder rigid.2)
              ((heads same).mono develops'.grows.resolves) (arguments same')
          · exact .fail wellScoped
      · exact .fail wellScoped

end ConvM
end Families
