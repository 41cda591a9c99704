import Families.Proofs.Renormalisation

/-!
# Solving placeholders under distinct variables

An occurrence of a placeholder whose arguments are distinct variables is made equal to a phrase in
exactly one way.  The phrase is normalised.  If the placeholder does not occur in it and all its
free variables are among the arguments, the solution is the only phrase of the placeholder's scope
that becomes it under the arguments, and nothing but this placeholder changes.  Under other
arguments the comparison is postponed.  The errors that stop it do not mean that no choice exists.
-/

namespace Families

open Filter

variable {pattern : List Nat}

/-! ## Moving a phrase under the arguments -/

/-- A move under the arguments stops at the first of the variables that is no argument, and succeeds
if there is none. -/
structure MovesBy {α : Type} (id : Nat) (pattern free : List Nat)
    (moved : Except ConversionError α) : Prop where
  /-- A variable that is no argument stops the move. -/
  stops : ∀ outside, free.find? (· ∉ pattern) = some outside →
    moved = .error (.outOfScope id outside)
  /-- Arguments do not. -/
  succeeds : free.find? (· ∉ pattern) = none → ∃ value, moved = .ok value

namespace MovesBy

variable {α β : Type} {id : Nat} {pattern free free' : List Nat}
variable {first : Except ConversionError α}

theorem pure (value : α) : MovesBy id pattern [] (Pure.pure value) where
  stops _ found := by cases found
  succeeds _ := ⟨value, rfl⟩

theorem bind {next : α → Except ConversionError β} (firstMoves : MovesBy id pattern free first)
    (nextMoves : ∀ value, MovesBy id pattern free' (next value)) :
    MovesBy id pattern (free ++ free') (first >>= next) := by
  cases found : free.find? (· ∉ pattern) with
  | some outside =>
    rw [firstMoves.stops outside found]
    constructor
    · intro other isFirst
      rw [List.find?_append, found] at isFirst
      obtain rfl := Option.some.inj isFirst
      rfl
    · intro absent
      rw [List.find?_append, found] at absent
      cases absent
  | none =>
    obtain ⟨value, rfl⟩ := firstMoves.succeeds found
    constructor
    · intro outside isFirst
      rw [List.find?_append, found] at isFirst
      exact (nextMoves value).stops outside isFirst
    · intro absent
      rw [List.find?_append, found] at absent
      exact (nextMoves value).succeeds absent

theorem map (firstMoves : MovesBy id pattern free first) (change : α → β) :
    MovesBy id pattern free (first >>= fun value => Pure.pure (change value)) := by
  simpa using firstMoves.bind fun value => pure (change value)

end MovesBy

namespace Phrase

variable {category : Category}

/-- A phrase is moved under the arguments if all its free variables are among them. -/
theorem movesBy_invert (id : Nat) (pattern : List Nat) (depth : Nat) (phrase : Phrase category) :
    MovesBy id pattern (phrase.freeFrom .anywhere depth)
      (phrase.traverse (invertedVariable id pattern) depth) := by
  induction phrase generalizing depth with
  | var index =>
    simp only [freeFrom, traverse, invertedVariable]
    split
    · cases isPosition : pattern.idxOf? (index - depth) with
      | none =>
        have outside : index - depth ∉ pattern := by simpa using isPosition
        constructor
        · simp [outside]
        · simp [outside]
      | some position =>
        have inside : index - depth ∈ pattern := by
          have isSome := congrArg Option.isSome isPosition
          simpa using isSome
        constructor
        · simp [inside]
        · exact fun _ => ⟨_, rfl⟩
    · exact .pure _
  | const | prop | sizeUniv | omega | noAtoms | noTerms => exact .pure _
  | univ _ ihPart | level _ ihPart | set _ ihPart
  | placeholder _ _ ihPart | sortPlaceholder _ _ ihPart
  | lub _ _ ihPart => exact (ihPart depth).map _
  | app _ _ _ ihFirst ihSecond | classified _ _ ihFirst ihSecond
  | atom _ _ _ ihFirst ihSecond | terms _ _ ihFirst ihSecond =>
    exact (ihFirst depth).bind fun first => (ihSecond depth).map _
  | pi _ _ _ _ ihDomain ihCodomain =>
    exact (ihDomain depth).bind fun domain => (ihCodomain (depth + 1)).map _

/-- Phrases of a scope that become the same under distinct variables are the same. -/
theorem Below.eq_of_replace_pattern {left right : Phrase category} (distinct : pattern.Nodup)
    (leftBelow : left.Below pattern.length) (rightBelow : right.Below pattern.length)
    (same : left.replace (assigned (pattern.map .var)) =
      right.replace (assigned (pattern.map .var))) :
    left = right := by
  have undone : ∀ {phrase : Phrase category}, phrase.Below pattern.length →
      (phrase.replace (assigned (pattern.map .var))).rename (pattern.idxOf ·) = phrase := by
    intro phrase below
    have positions : ∀ index < pattern.length,
        (assigned (pattern.map .var) index).rename (pattern.idxOf ·) = .var index := by
      intro index bounded
      rw [assigned_eq_getElem (by simpa using bounded), List.getElem_map]
      exact congrArg var (distinct.idxOf_getElem index bounded)
    rw [rename_replace, below.replace_congr positions]
    exact replace_eq_self phrase fun _ => rfl
  rw [← undone leftBelow, same, undone rightBelow]

theorem lift?_var {index shift : Nat} (inRange : index + shift < wordLimit) :
    (var index).lift? shift 0 = some (var (index + shift)) := by
  unfold lift?
  split
  · rename_i isZero
    rw [isZero, Nat.add_zero]
  · have zeroInRange : 0 < wordLimit := by decide
    simp [traverse, liftedVariable?, word?, inRange, zeroInRange]

/-- Every index in the phrase is a word. -/
def InWords (phrase : Phrase category) : Prop :=
  (phrase.traverse (fun _ index => (word? index).map var) 0).isSome

/-- What was moved under the arguments can be substituted back. -/
theorem Maps.exists_substituted {id depth depth' : Nat} {phrase inverted words : Phrase category}
    (maps : Maps (fun depth index term => invertedVariable id pattern depth index = .ok term) depth
      phrase inverted)
    (inWords : phrase.traverse (fun _ index => (word? index).map Phrase.var) depth' = some words) :
    ∃ result, inverted.traverse (substitutedVariable? (pattern.map .var)) depth = some result := by
  induction maps generalizing depth' with
  | @var depth index term isImage =>
    obtain ⟨_, isWord, _⟩ := Option.map_eq_some_iff.1 inWords
    simp only [invertedVariable] at isImage
    split at isImage
    · rename_i free
      split at isImage
      · rename_i position isPosition
        obtain rfl := Except.ok.inj isImage
        obtain ⟨bounded, isVariable, _⟩ := List.idxOf?_eq_some_iff.1 isPosition
        have found : (pattern.map Phrase.var)[position + depth - depth]? =
            some (.var (index - depth)) := by
          simp [bounded, isVariable]
        have inRange : index - depth + depth < wordLimit := by
          rw [Nat.sub_add_cancel free]
          exact (word?_eq_some_iff.1 isWord).1
        simp only [traverse, substitutedVariable?, if_pos (Nat.le_add_left depth position), found]
        exact ⟨_, lift?_var inRange⟩
      · cases isImage
    · rename_i bound
      obtain rfl := Except.ok.inj isImage
      exact ⟨_, if_neg bound⟩
  | _ =>
    simp only [traverse, Option.bind_eq_bind, Option.bind_eq_some_iff,
      Option.pure_def, Option.some.injEq] at inWords ⊢
    grind

theorem mentions_head {id : Nat} {phrase : Phrase category} (avoids : phrase.mentions id = false) :
    phrase.head.mentions id = false := by
  induction phrase with
  | app function argument info ihFunction ihArgument =>
    exact ihFunction (Bool.or_eq_false_iff.1 avoids).1
  | _ => exact avoids

end Phrase

/-! ## Normal phrases after a placeholder is solved -/

section Solved

variable {state after : State} {id : Nat} {solution : Solution} {category : Category}

theorem unfoldHead?_of_solve {term : Term} (solved : state.solve id solution = .ok after)
    (avoids : term.mentions id = false) (stops : unfoldHead? state term = .ok none) :
    unfoldHead? after term = .ok none := by
  have headAvoids := Phrase.mentions_head avoids
  have sameSignature : after.signature = state.signature := by
    obtain ⟨_, _, _, rfl⟩ := State.solve_eq_ok_iff.1 solved
    rfl
  rw [← stops]
  unfold unfoldHead?
  rw [sameSignature]
  cases isHead : term.head with
  | placeholder other arguments =>
    rw [isHead] at headAvoids
    have different : other ≠ id := by simpa using (Bool.or_eq_false_iff.1 headAvoids).1
    simp only [State.solution?_of_solve_of_ne solved different]
  | _ => rfl

/-- What does not mention a placeholder stays normal when it is solved. -/
theorem IsNormal.of_solve {phrase : Phrase category} (isNormal : IsNormal state phrase)
    (solved : state.solve id solution = .ok after) (avoids : phrase.mentions id = false) :
    IsNormal after phrase := by
  induction phrase with
  | const path => exact unfoldHead?_of_solve solved avoids isNormal
  | app function argument info ihFunction ihArgument =>
    obtain ⟨stops, functionNormal, argumentNormal⟩ := isNormal
    obtain ⟨functionAvoids, argumentAvoids⟩ := Bool.or_eq_false_iff.1 avoids
    exact ⟨unfoldHead?_of_solve solved avoids stops,
      ihFunction functionNormal functionAvoids,
      ihArgument argumentNormal argumentAvoids⟩
  | placeholder other arguments ihArguments
  | sortPlaceholder other arguments ihArguments =>
    obtain ⟨unsolved, argumentsNormal⟩ := isNormal
    obtain ⟨isOther, argumentsAvoid⟩ := Bool.or_eq_false_iff.1 avoids
    have different : other ≠ id := by simpa using isOther
    exact ⟨(State.solution?_of_solve_of_ne solved different).trans unsolved,
      ihArguments argumentsNormal argumentsAvoid⟩
  | lub constant atoms ihAtoms =>
    exact ⟨isNormal.1, isNormal.2.1, ihAtoms isNormal.2.2 avoids⟩
  | pi _ _ _ _ ihFirst ihSecond | classified _ _ ihFirst ihSecond
  | atom _ _ _ ihFirst ihSecond | terms _ _ ihFirst ihSecond =>
    obtain ⟨firstAvoids, secondAvoids⟩ := Bool.or_eq_false_iff.1 avoids
    exact ⟨ihFirst isNormal.1 firstAvoids, ihSecond isNormal.2 secondAvoids⟩
  | univ _ ihPart | level _ ihPart | set _ ihPart =>
    exact ihPart isNormal avoids
  | _ => trivial

/-- A phrase that reduces like another one has its normal form. -/
theorem eventually_normalise_of_reduce {phrase next result : Phrase category}
    (reduces : ∀ fuel, reduce state (fuel + 1) phrase = reduce state fuel next)
    (normalised : ∀ᶠ fuel in atTop, normalise state fuel next = .ok result) :
    ∀ᶠ fuel in atTop, normalise state fuel phrase = .ok result := by
  obtain ⟨enough, reaches⟩ := eventually_atTop.1 normalised
  obtain ⟨reduced, isReduced, rebuilt⟩ := normalise_eq_ok_iff.1 (reaches (enough + 1) (by omega))
  refine eventually_atTop.2 ⟨enough + 2, fun fuel more => ?_⟩
  obtain ⟨less, rfl⟩ := Nat.exists_eq_add_of_le more
  rw [show enough + 2 + less = enough + 1 + less + 1 by omega, normalise_eq_ok_iff]
  refine ⟨reduced, ?_, rebuilt.of_le (by omega)⟩
  rw [show enough + 1 + less = enough + less + 1 by omega, reduces]
  exact reduce_of_le (.refl state) isReduced (by omega)

end Solved

/-! ## Patterns -/

theorem patternVariables?_eq_some_iff {arguments : List Term} :
    patternVariables? arguments = some pattern ↔ arguments = pattern.map .var ∧ pattern.Nodup := by
  refine ⟨ConvM.map_var_of_patternVariables?, ?_⟩
  rintro ⟨rfl, distinct⟩
  have allVariables : (pattern.map Phrase.var).mapM variableIndex? = some pattern := by
    clear distinct
    induction pattern with
    | nil => rfl
    | cons first rest ih =>
      rw [List.map_cons, List.mapM_cons, ih]
      rfl
  simp [patternVariables?, allVariables, distinct]

namespace ConvM

/-- How an occurrence of a placeholder is made equal to a phrase of its category. -/
structure SolvesExactly {category : Category} (state : State) (fuel depth id scope : Nat)
    (kind : PlaceholderKind) (arguments : Phrase .terms) (occurrence value : Phrase category)
    (comparison : Comparison) (solution : Phrase category → Solution)
    (outcome : Outcome ConversionError State Unit) : Prop where
  /-- If the arguments are not distinct variables, the comparison is postponed. -/
  postpones : (∀ pattern : List Nat, pattern.Nodup → arguments.toList ≠ pattern.map .var) →
    outcome.result = .ok () ∧ outcome.state = state.postpone depth comparison
  /-- A phrase that cannot be normalised stops the comparison. -/
  halts : ∀ {pattern : List Nat} {reason : Halt}, pattern.Nodup →
    arguments.toList = pattern.map .var → normalise state fuel value = .error reason →
    outcome.result = .error (.halt reason) ∧ outcome.state = state
  /-- If the placeholder occurs in the normal form, this is the error. -/
  occurs : ∀ {pattern : List Nat} {normal : Phrase category}, pattern.Nodup →
    arguments.toList = pattern.map .var → normalise state fuel value = .ok normal →
    normal.mentions id = true →
    outcome.result = .error (.error (.occursCheck id)) ∧ outcome.state = state
  /-- Otherwise a free variable that is no argument is the error. -/
  escapes : ∀ {pattern : List Nat} {normal : Phrase category} {outside : Nat}, pattern.Nodup →
    arguments.toList = pattern.map .var → normalise state fuel value = .ok normal →
    normal.mentions id = false →
    (normal.freeFrom .anywhere 0).find? (· ∉ pattern) = some outside →
    outcome.result = .error (.error (.outOfScope id outside)) ∧ outcome.state = state
  /-- Otherwise the placeholder gets the only phrase of its scope that becomes the normal form under
  the arguments.  Nothing else changes, and the occurrence has the normal form. -/
  solves : ∀ {pattern : List Nat} {normal : Phrase category}, pattern.Nodup →
    arguments.toList = pattern.map .var → normalise state fuel value = .ok normal →
    normal.mentions id = false → (∀ index ∈ normal.freeFrom .anywhere 0, index ∈ pattern) →
    ∃ found : Phrase category,
      outcome.result = .ok () ∧
      outcome.state = { state with
        placeholders := state.placeholders.set id ⟨scope, kind, some (solution found)⟩ } ∧
      found.Below scope ∧
      found.replace (Phrase.assigned arguments.toList) = normal ∧
      (∀ other : Phrase category, other.Below scope →
        other.replace (Phrase.assigned arguments.toList) = normal → other = found) ∧
      (∀ fuel result, normalise outcome.state fuel occurrence = .ok result → result = normal) ∧
      (normal.InWords → found.substitute? arguments.toList = some normal ∧
        ∀ᶠ fuel in atTop, normalise outcome.state fuel occurrence = .ok normal)

section Solve

variable {category : Category} {state : State} {fuel depth id : Nat} {pattern : List Nat}
variable {value normal : Phrase category} {solution : Phrase category → Solution}
variable {occurrence : Phrase category}

theorem run_solve_of_error {reason : Halt}
    (normalised : normalise state fuel value = .error reason) :
    (solve fuel id pattern value solution).run state = ⟨.error (.halt reason), state, []⟩ := by
  rw [solve, Attempt.run_get_bind, normalised]
  rfl

theorem run_solve_of_mentions (normalised : normalise state fuel value = .ok normal)
    (mentions : normal.mentions id = true) :
    (solve fuel id pattern value solution).run state =
      ⟨.error (.error (.occursCheck id)), state, []⟩ := by
  rw [solve, Attempt.run_get_bind, normalised]
  change (ite _ _ _ : ConvM Unit).run state = _
  rw [if_pos mentions]
  rfl

theorem run_solve_of_outside {error : ConversionError}
    (normalised : normalise state fuel value = .ok normal) (avoids : normal.mentions id = false)
    (stopped : invert id pattern normal = .error error) :
    (solve fuel id pattern value solution).run state = ⟨.error (.error error), state, []⟩ := by
  rw [solve, Attempt.run_get_bind, normalised]
  change (ite _ _ _ : ConvM Unit).run state = _
  rw [if_neg (by simp [avoids]), stopped]
  rfl

theorem run_solve_of_inside {inverted : Phrase category} {after : State}
    (normalised : normalise state fuel value = .ok normal) (avoids : normal.mentions id = false)
    (moved : invert id pattern normal = .ok inverted)
    (solved : state.solve id (solution inverted) = .ok after) :
    (solve fuel id pattern value solution).run state = ⟨.ok (), after, [after]⟩ := by
  rw [solve, Attempt.run_get_bind, normalised]
  change (ite _ _ _ : ConvM Unit).run state = _
  rw [if_neg (by simp [avoids]), moved]
  change ((monadLift (state.solve id (solution inverted)) : ConvM State) >>= set).run state = _
  rw [solved]
  rfl

/-- The occurrence of a placeholder has the normal form that the placeholder was solved for. -/
theorem normalise_occurrence {after : State} (afterWellScoped : after.WellScoped)
    (occurrenceInScope : occurrence.Scoped after.Fits depth)
    (normalInScope : normal.Scoped after.Fits depth) (isNormal : IsNormal after normal)
    (steps : ∀ result, HasNormalForm after normal result → HasNormalForm after occurrence result) :
    (∀ fuel result, normalise after fuel occurrence = .ok result → result = normal) ∧
      ((∀ fuel, reduce after (fuel + 1) occurrence = reduce after fuel normal) →
        ∀ᶠ fuel in atTop, normalise after fuel occurrence = .ok normal) := by
  have reaches := isNormal.eventually_normalise
  obtain ⟨enough, normalised⟩ := reaches.exists
  have hasNormal :=
    (normalises_of_normalise afterWellScoped normalised normalInScope).1.hasNormalForm
  constructor
  · intro fuel result isResult
    have hasResult :=
      (normalises_of_normalise afterWellScoped isResult occurrenceInScope).1.hasNormalForm
    exact hasResult.deterministic (steps normal hasNormal)
  · intro reduces
    exact eventually_normalise_of_reduce reduces reaches

/-- A computation that postpones the comparison under other arguments and solves the placeholder
under distinct variables does so exactly. -/
theorem solvesExactly_of_run {scope : Nat} {kind : PlaceholderKind} {arguments : Phrase .terms}
    {comparison : Comparison} {computation : ConvM Unit} (wellScoped : state.WellScoped)
    (unsolved : state.placeholders[id]? = some ⟨scope, kind, none⟩)
    (full : arguments.toList.length = scope)
    (occurrenceInScope : occurrence.Scoped state.Fits depth)
    (valueInScope : value.Scoped state.Fits depth)
    (solutionInScope : ∀ {inverted : Phrase category}, inverted.Scoped state.Fits scope →
      (solution inverted).Scoped state.Fits scope kind)
    (steps : ∀ {after : State} {inverted result : Phrase category},
      after.solution? id = some (solution inverted) →
      inverted.Below arguments.toList.length →
      HasNormalForm after (inverted.replace (Phrase.assigned arguments.toList)) result →
      HasNormalForm after occurrence result)
    (reduces : ∀ {after : State} {inverted result : Phrase category},
      after.solution? id = some (solution inverted) →
      inverted.substitute? arguments.toList = some result →
      ∀ fuel, reduce after (fuel + 1) occurrence = reduce after fuel result)
    (postpones : patternVariables? arguments.toList = none →
      computation.run state = (postpone depth comparison).run state)
    (solves : ∀ pattern, patternVariables? arguments.toList = some pattern →
      computation.run state = (solve fuel id pattern value solution).run state) :
    SolvesExactly state fuel depth id scope kind arguments occurrence value comparison solution
      (computation.run state) where
  postpones noPattern := by
    rw [postpones ?_]
    · exact ⟨rfl, rfl⟩
    · cases isPattern : patternVariables? arguments.toList with
      | none => rfl
      | some pattern =>
        obtain ⟨isArguments, distinct⟩ := patternVariables?_eq_some_iff.1 isPattern
        exact absurd isArguments (noPattern pattern distinct)
  halts distinct isArguments normalised := by
    rw [solves _ (patternVariables?_eq_some_iff.2 ⟨isArguments, distinct⟩),
      run_solve_of_error normalised]
    exact ⟨rfl, rfl⟩
  occurs distinct isArguments normalised mentions := by
    rw [solves _ (patternVariables?_eq_some_iff.2 ⟨isArguments, distinct⟩),
      run_solve_of_mentions normalised mentions]
    exact ⟨rfl, rfl⟩
  escapes distinct isArguments normalised avoids isOutside := by
    rw [solves _ (patternVariables?_eq_some_iff.2 ⟨isArguments, distinct⟩),
      run_solve_of_outside normalised avoids ((Phrase.movesBy_invert _ _ _ _).stops _ isOutside)]
    exact ⟨rfl, rfl⟩
  solves := by
    intro pattern normal distinct isArguments normalised avoids inside
    have noOutside : (normal.freeFrom .anywhere 0).find? (· ∉ pattern) =
      none := by simpa using inside
    obtain ⟨inverted, moved⟩ := (Phrase.movesBy_invert id pattern 0 normal).succeeds noOutside
    have sameLength : pattern.length = scope := by simpa [isArguments] using full
    obtain ⟨normalises, normalInScope⟩ := normalises_of_normalise wellScoped normalised valueInScope
    have invertedInScope : inverted.Scoped state.Fits scope :=
      sameLength ▸ normalInScope.invert moved
    have undone : inverted.replace (Phrase.assigned arguments.toList) = normal := by
      rw [isArguments, Phrase.replace_of_invert moved]
    have solved : state.solve id (solution inverted) = .ok { state with
        placeholders := state.placeholders.set id ⟨scope, kind, some (solution inverted)⟩ } :=
      State.solve_eq_ok_iff.2 ⟨scope, kind, unsolved, rfl⟩
    have isSolved := State.solution?_of_solve solved
    have grows := State.grows_solve solved
    have afterWellScoped : State.WellScoped _ := wellScoped.solve solved (by
      intro scope' kind' found
      rw [unsolved] at found
      obtain ⟨rfl, rfl, _⟩ := Placeholder.mk.inj (Option.some.inj found)
      exact solutionInScope invertedInScope)
    have isNormal := normalises.isNormal.of_solve solved avoids
    obtain ⟨answers, reaches⟩ := normalise_occurrence afterWellScoped
      (occurrenceInScope.mono grows.fits le_rfl) (normalInScope.mono grows.fits le_rfl) isNormal
      (fun result has => steps isSolved (full ▸ invertedInScope.below) (undone ▸ has))
    rw [solves _ (patternVariables?_eq_some_iff.2 ⟨isArguments, distinct⟩),
      run_solve_of_inside normalised avoids moved solved]
    refine ⟨inverted, rfl, rfl, invertedInScope.below, undone, ?_, answers, ?_⟩
    · intro other otherBelow isOther
      subst sameLength
      rw [isArguments] at undone isOther
      exact otherBelow.eq_of_replace_pattern distinct invertedInScope.below
        (isOther.trans undone.symm)
    · intro inWords
      obtain ⟨words, isWords⟩ := Option.isSome_iff_exists.1 inWords
      obtain ⟨result, isResult⟩ :=
        (Phrase.maps_of_traverse_eq_ok moved).exists_substituted isWords
      have substituted : inverted.substitute? arguments.toList = some normal := by
        rw [← undone, isArguments, ← Phrase.eq_replace_of_substitute? isResult]
        exact isResult
      exact ⟨substituted, reaches (reduces isSolved substituted)⟩

end Solve

section Assignments

variable {state : State} {fuel depth id scope : Nat} {arguments : Phrase .terms}

theorem solvesExactly_assignTerm {ty value : Term} (wellScoped : state.WellScoped)
    (unsolved : state.placeholders[id]? = some ⟨scope, .term ty, none⟩)
    (full : arguments.toList.length = scope) (argumentsInScope : arguments.Scoped state.Fits depth)
    (valueInScope : value.Scoped state.Fits depth)
    (other : ∀ others, value ≠ .placeholder id others) :
    SolvesExactly state fuel depth id scope (.term ty) arguments (.placeholder id arguments) value
      (.equalTerms (.placeholder id arguments) value) .term
      ((assignTerm fuel depth id arguments value).run state) := by
  have occurrenceInScope : (Phrase.placeholder id arguments).Scoped state.Fits depth :=
    ⟨full ▸ .term unsolved, argumentsInScope⟩
  refine solvesExactly_of_run wellScoped unsolved full occurrenceInScope valueInScope
    (fun inScope => inScope) (fun solved below => .step (.placeholder solved below)) ?_ ?_ ?_
  · intro after inverted result solved substituted fuel
    have unfolded : unfoldHead? after (.placeholder id arguments) = .ok (some result) := by
      simp only [unfoldHead?, Phrase.head, solved, substituted, checked]
      rfl
    exact reduce_of_unfoldHead? unfolded fuel
  · intro noPattern
    cases value <;> simp [assignTerm, noPattern]
  · intro pattern isPattern
    cases value with
    | placeholder otherId others =>
      have different : otherId ≠ id := fun same => other others (same ▸ rfl)
      simp [assignTerm, isPattern, different]
    | _ => simp [assignTerm, isPattern]

theorem run_assignSort_of_ceiling
    (unsolved : state.placeholders[id]? = some ⟨scope, .sort true, none⟩) :
    (assignSort fuel depth id arguments .omega).run state =
      ⟨.error (.error (.sortCeiling id .omega)), state, []⟩ := by
  rw [assignSort, Attempt.run_get_bind]
  simp only [isBelowOmega, unsolved, if_true]
  rfl

theorem solvesExactly_assignSort {belowOmega : Bool} {value : Universe}
    (wellScoped : state.WellScoped)
    (unsolved : state.placeholders[id]? = some ⟨scope, .sort belowOmega, none⟩)
    (full : arguments.toList.length = scope) (argumentsInScope : arguments.Scoped state.Fits depth)
    (valueInScope : value.Scoped state.Fits depth)
    (other : ∀ others, value ≠ .sortPlaceholder id others)
    (allowed : ¬(belowOmega = true ∧ value = .omega)) :
    SolvesExactly state fuel depth id scope (.sort belowOmega) arguments
      (.sortPlaceholder id arguments) value
        (.equalSorts (.sortPlaceholder id arguments) value) .sort
      ((assignSort fuel depth id arguments value).run state) := by
  have occurrenceInScope : (Phrase.sortPlaceholder id arguments).Scoped state.Fits depth :=
    ⟨full ▸ .sort unsolved, argumentsInScope⟩
  have noCeiling : value = .omega → isBelowOmega state id = false := by
    rintro rfl
    simpa [isBelowOmega, unsolved] using allowed
  refine solvesExactly_of_run wellScoped unsolved full occurrenceInScope valueInScope
    (fun inScope => inScope) .sortStep ?_ ?_ ?_
  · intro after inverted result solved substituted fuel
    simp only [reduce, solved, substituted, checked]
    rfl
  · intro noPattern
    rw [assignSort, Attempt.run_get_bind]
    cases value <;> simp_all
  · intro pattern isPattern
    rw [assignSort, Attempt.run_get_bind]
    cases value with
    | sortPlaceholder otherId others =>
      have different : otherId ≠ id := fun same => other others (same ▸ rfl)
      simp [isPattern, different]
    | _ => simp_all

end Assignments

/-- A placeholder under arguments of its number is made equal to a phrase that is no occurrence of
it as its arguments allow: the comparison is postponed if they are not distinct variables.
Otherwise the placeholder gets the only solution, or the one error that applies leaves everything as
it was.  A placeholder for a sort that must stay below the largest one refuses it first. -/
theorem assign_exact {checker : Checker} (reachable : Reachable checker) :
    (∀ {fuel depth id scope : Nat} {ty value : Term} {arguments : Phrase .terms},
      checker.state.placeholders[id]? = some ⟨scope, .term ty, none⟩ →
      arguments.toList.length = scope →
      arguments.Scoped checker.state.Fits depth →
      value.Scoped checker.state.Fits depth →
      (∀ others, value ≠ .placeholder id others) →
      SolvesExactly checker.state fuel depth id scope (.term ty) arguments
        (.placeholder id arguments) value (.equalTerms (.placeholder id arguments) value) .term
        ((assignTerm fuel depth id arguments value).run checker.state)) ∧
    ∀ {fuel depth id scope : Nat} {belowOmega : Bool} {value : Universe}
      {arguments : Phrase .terms},
      checker.state.placeholders[id]? = some ⟨scope, .sort belowOmega, none⟩ →
      arguments.toList.length = scope →
      arguments.Scoped checker.state.Fits depth →
      value.Scoped checker.state.Fits depth →
      (∀ others, value ≠ .sortPlaceholder id others) →
      (belowOmega = true ∧ value = .omega →
        ((assignSort fuel depth id arguments value).run checker.state).result =
            .error (.error (.sortCeiling id .omega)) ∧
          ((assignSort fuel depth id arguments value).run checker.state).state = checker.state) ∧
      (¬(belowOmega = true ∧ value = .omega) →
        SolvesExactly checker.state fuel depth id scope (.sort belowOmega) arguments
          (.sortPlaceholder id arguments) value (.equalSorts (.sortPlaceholder id arguments) value)
          .sort ((assignSort fuel depth id arguments value).run checker.state)) := by
  have wellScoped := reachable.wellScoped.state
  refine ⟨?_, ?_⟩
  · intro fuel depth id scope ty value arguments
    exact solvesExactly_assignTerm wellScoped
  · intro fuel depth id scope belowOmega value arguments unsolved full argumentsInScope valueInScope
      other
    refine ⟨?_, solvesExactly_assignSort wellScoped unsolved full argumentsInScope valueInScope
      other⟩
    rintro ⟨rfl, rfl⟩
    rw [run_assignSort_of_ceiling unsolved]
    exact ⟨rfl, rfl⟩

/-- Under two variables for levels in the other order, a placeholder is solved by the level above
one of them. -/
theorem assign_exact_swapped :
    let levels : Domain := ⟨⟨0⟩, {}, .classified (Universe.ofNat 0) (.const Path.level)⟩
    let opened := (Call.freshTerm (.const Path.level)).computation.run
      { Checker.initial {} .patterns 20 with context := [levels, levels] }
    let swapped : Phrase .terms := .terms (.var 1) (.terms (.var 0) .noTerms)
    let above (index : Nat) : Term := .level (.lub 0 (.atom (.var index) 1 .noAtoms))
    let outcome := (assignTerm 20 2 0 swapped (above 0)).run opened.state.state
    outcome.result = .ok () ∧
      outcome.state.solution? 0 = some (.term (above 1)) ∧
      ∀ᶠ fuel in atTop,
        normalise outcome.state fuel (.placeholder 0 swapped) = .ok (above 0) := by
  intro levels opened swapped above outcome
  have levelsInScope : ∀ checker : Checker, checker.InScope levels.ty :=
    fun checker => ⟨Universe.scoped_ofNat 0 _, trivial⟩
  have reachable : Reachable opened.state :=
    .ends (.binds (.binds (.initial {} .patterns 20) (levelsInScope _)) (levelsInScope _))
      (.freshTerm (.const Path.level)) trivial
  have exactly : SolvesExactly opened.state.state 20 2 0 2 (.term (.const Path.level)) swapped
      (.placeholder 0 swapped) (above 0) (.equalTerms (.placeholder 0 swapped) (above 0)) .term
      outcome :=
    (assign_exact reachable).1 rfl rfl ⟨Nat.one_lt_two, Nat.two_pos, trivial⟩
      ⟨Nat.two_pos, trivial⟩ (by simp [above])
  have normalised : normalise opened.state.state 20 (above 0) = .ok (above 0) := by decide +kernel
  obtain ⟨found, isOk, isState, _, _, unique, _, reaches⟩ :=
    @SolvesExactly.solves _ _ _ _ _ _ _ _ _ _ _ _ _ exactly [1, 0] (above 0) (by decide) rfl
      normalised (by decide) (by decide)
  obtain rfl : above 1 = found := unique (above 1) ⟨Nat.one_lt_two, trivial⟩ rfl
  refine ⟨isOk, ?_, (reaches (by rfl)).2⟩
  rw [isState]
  rfl

/-- A set with an element, and the family that is this set everywhere. -/
def constantFamily : List Declaration :=
  [ .postulate "T" (.set 0),
    .postulate "c" (.const "T"),
    .function "all" (.arrow (.const "T") (.set 0)) ["x"] (some (.const "T")) ]

/-- Errors of other kinds are reported although a choice exists: for an application of a placeholder
that meets a set, for a placeholder that occurs in its own solution, and for a placeholder that
meets one with more variables in scope. -/
theorem errors_with_choices :
    let checker := ((CheckM.checkDeclarations constantFamily).run
      (Checker.initial {} .patterns 40)).state
    let opened (ty : Term) : State := ((Call.freshTerm ty).computation.run checker).state.state
    let set : Term := .const ⟨2⟩
    let family : Term := .pi ⟨0⟩ {} (.classified (Universe.ofNat 0) set)
      (.classified (Universe.ofNat 1) (.univ (Universe.ofNat 0)))
    let hole : Term := .placeholder 0 .noTerms
    let applied : Term := .app hole (.const ⟨3⟩) {}
    let solved (state : State) (solution : Term) (id : Nat) :=
      (state.solve id (.term solution)).toOption.getD state
    let one : Term := .level (Level.ofNat 1)
    let atLeastOne : Term := .level (Level.ofParts 1 [⟨hole, 0⟩])
    let wide : Term := .placeholder 1 (.terms (.var 0) .noTerms)
    let both := (opened set).addPlaceholder 1 (.term set)
    let chosen := solved (solved both (.const ⟨3⟩) 0) (.const ⟨3⟩) 1
    (((equalTerm 40 0 applied set).run (opened family)).result =
        .error (.error (.unequalTerms applied set)) ∧
      normalise (solved (opened family) (.const ⟨4⟩) 0) 40 applied = .ok set ∧
      normalise (solved (opened family) (.const ⟨4⟩) 0) 40 set = .ok set) ∧
    (((equalTerm 40 0 hole atLeastOne).run (opened (.const Path.level))).result =
        .error (.error (.occursCheck 0)) ∧
      normalise (solved (opened (.const Path.level)) one 0) 40 hole = .ok one ∧
      normalise (solved (opened (.const Path.level)) one 0) 40 atLeastOne = .ok one) ∧
    (((equalTerm 40 1 hole wide).run both).result = .error (.error (.outOfScope 0 0)) ∧
      normalise chosen 40 hole = .ok (.const ⟨3⟩) ∧
      normalise chosen 40 wide = .ok (.const ⟨3⟩)) := by
  decide +kernel

end ConvM

end Families
