import Families.Proofs.SortComparison

/-!
# Small parameters are the ones that fit

Whether a parameter is small is asked twice of its type: is it the type of levels, and does its sort
lie below that of the datatype?  Where the normal forms are known and without placeholders, both
questions have their answers there.  Nothing of the comparisons remains.
-/

namespace Families

open Filter

variable {state : State} {fuel depth : Nat}

/-- The term is the type of levels, by itself or as a level that consists of it alone. -/
def Phrase.IsLevelType (term : Term) : Prop :=
  Level.ofTerm term = Level.ofTerm (.const Path.level)

instance (term : Term) : Decidable term.IsLevelType :=
  inferInstanceAs (Decidable (Level.ofTerm term = Level.ofTerm (.const Path.level)))

/-- The type and its sort have normal forms, without placeholders. -/
structure Ty.HasForms (state : State) (ty : Ty) (term : Term) (sort : Universe) : Prop where
  normalised : ∃ fuel, normalise state fuel ty.term = .ok term
  ground : term.Ground
  sortNormalised : ∃ fuel, normalise state fuel ty.sort = .ok sort
  sortGround : sort.Ground

/-- The type of levels is not unfolded. -/
theorem Reachable.eventually_reduce_level {checker : Checker} (reachable : Reachable checker) :
    ∀ᶠ fuel in atTop, reduce checker.state fuel (.const Path.level) = .ok (.const Path.level) := by
  have found := reachable.keeps.final Path.level
    ⟨⟨Path.level, .classified (Universe.ofNat 1) (.univ (Universe.ofNat 0)), .postulate⟩, .complete⟩
    (by decide +kernel) ⟨rfl, by simp⟩
  refine eventually_of_succ (.of_forall fun fuel => ?_)
  simp only [reduce, unfoldHead?, Phrase.head, Signature.definition?, found, Option.map_some]
  rfl

namespace ConvM

/-- A term with a normal form without placeholders is found equal to a constant that is not unfolded
exactly if both stand for the same level. -/
theorem eventually_judges_equalTerm_const {path : Path} {term normal : Term} (depth : Nat)
    (constant : ∀ᶠ fuel in atTop, reduce state fuel (.const path) = .ok (.const path))
    (normalised : normalise state fuel term = .ok normal) (ground : normal.Ground) :
    ∀ᶠ fuel in atTop, Judges (equalTerm fuel depth term (.const path)) state
      (Level.ofTerm normal = Level.ofTerm (.const path)) := by
  refine eventually_of_succ ?_
  obtain ⟨_, reduced, isReduced, rebuilt⟩ := exists_of_normalise normalised
  obtain ⟨fuel, constant'⟩ := constant.exists
  filter_upwards [eventually_reduce isReduced, constant,
    eventually_normalise_ofTerm isReduced rebuilt,
    eventually_normalise_ofTerm constant' .const] with fuel done constantDone level constantLevel
  refine .get_bind (.lift_bind done (.lift_bind constantDone ?_))
  split
  · rename_i same
    subst same
    cases rebuilt
    exact .pure rfl
  · rename_i differ
    have notEqual : ¬reduced.IsLevel → Level.ofTerm normal ≠ Level.ofTerm (.const path) := by
      intro noLevel same
      have normalNoLevel := rebuilt.isLevel_iff.not.2 noLevel
      rw [Level.ofTerm_of_not_isLevel normalNoLevel,
        Level.ofTerm_of_not_isLevel (show ¬(Phrase.const path).IsLevel from not_false)] at same
      obtain rfl : normal = .const path := by simpa [Level.ofParts, Phrase.ofAtoms] using same
      exact differ (rebuilt.eq_of_isAtomic trivial)
    cases rebuilt with
    | placeholder => exact absurd ground Phrase.not_ground_placeholder
    | level => exact judges_equalLevel ground.ofTerm (Phrase.ground_iff.2 rfl) level constantLevel
    | _ => exact .fail _ (notEqual not_false)

end ConvM

namespace CheckM

/-! ## Nothing remains -/

/-- Only the state may change. -/
def changing : Course Checker where
  Passes _ _ := True
  Follows before after := ∃ state, after = { before with state }
  refl checker := ⟨checker.state, rfl⟩
  trans := by
    rintro first _ _ ⟨_, rfl⟩ ⟨state, rfl⟩
    exact ⟨state, rfl⟩
  passes _ _ := trivial

/-- Nothing changes in the end. -/
def undoing : Course Checker where
  Passes _ _ := True
  Follows before after := after = before
  refl _ := rfl
  trans earlier later := later.trans earlier
  passes _ _ := trivial

variable {α : Type}

theorem changing_attempt (comparison : ConvM α) : Along changing (attempt comparison) :=
  fun _ => ⟨fun _ _ => ⟨trivial, trivial⟩, trivial, ⟨_, rfl⟩, fun _ _ => trivial, fun _ _ =>
    trivial⟩

theorem undoing_proves {comparison : CheckM (Except ConversionError Unit)}
    (along : Along changing comparison) : Along undoing (proves comparison) := by
  unfold proves localState
  refine .settle (show Along changing _ from .get_bind fun _ => along.bind fun result => ?_) id ?_
  · cases result with
    | error _ => exact .pure false
    | ok _ => exact .get_bind fun _ => .pure _
  · rintro before _ _ ⟨_, rfl⟩
    exact ⟨trivial, rfl⟩

theorem undoing_isSmall (ty : Ty) (sort : Universe) : Along undoing (isSmall ty sort) := by
  refine .bind (undoing_proves ?_) fun isLevel => ?_
  · exact .bind (.get_bind fun _ => .lift _) fun reduced => .get_bind fun _ => changing_attempt _
  · split
    · exact .pure false
    · exact undoing_proves (.get_bind fun _ => changing_attempt _)

theorem undoing_smallAmong (parameters : Telescope) (sort : Universe) (positions : List Nat) :
    Along undoing (smallAmong parameters sort positions) := by
  induction positions with
  | nil => exact .pure []
  | cons position positions ih =>
    refine .lift_bind fun found => ?_
    cases found with
    | none => exact ih
    | some ty => exact (undoing_isSmall ty sort).bind fun small => ih.bind fun rest => .pure _

theorem undoing_smallParameters (parameters : Telescope) (sort : Universe) :
    Along undoing (smallParameters parameters sort) :=
  (undoing_smallAmong parameters sort _).bind fun _ => .pure _

/-! ## Answers -/

variable {checker : Checker} {holds : Prop}

/-- The computation answers whether the statement holds, and changes nothing. -/
def Answers (computation : CheckM Bool) (checker : Checker) (holds : Prop) : Prop :=
  ∃ answer, Yields computation checker answer checker ∧ (answer = true ↔ holds)

theorem yields_localState_iff {α : Type} {body : CheckM α} {value : α} {before after : Checker} :
    Yields (localState body) before value after ↔
      ∃ inner, Yields body before value inner ∧ { inner with state := before.state } = after := by
  simp [Yields, localState, Attempt.settle]

/-- Reading leaves everything as it was. -/
theorem yields_get_bind_iff {α : Type} {next : Checker → CheckM α} {value : α} {after : Checker} :
    Yields (get >>= next) checker value after ↔ Yields (next checker) checker value after := by
  simp [yields_bind_iff, yields_get_iff]

theorem exists_yields_attempt {comparison : ConvM Unit}
    (judges : ConvM.Judges comparison checker.state holds) :
    ∃ outcome, Yields (attempt comparison) checker outcome checker ∧
      (outcome = .ok () ↔ holds) := by
  have unchanged : ((attempt comparison).run checker).state = checker := by
    change { checker with state := (comparison.run checker.state).state } = checker
    rw [judges.concludes.state_eq]
  have judged := judges.succeeds_iff
  cases isResult : (comparison.run checker.state).result with
  | ok value =>
    exact ⟨.ok (), ⟨by simp [attempt, isResult], unchanged⟩, iff_of_true rfl (judged.1 isResult)⟩
  | error failure =>
    cases failure with
    | error error =>
      exact ⟨.error error, ⟨by simp [attempt, isResult], unchanged⟩, by simp [← judged, isResult]⟩
    | halt reason => exact absurd isResult (judges.concludes.result_ne reason)

/-- A comparison that leaves everything as it was is a proof if it succeeds. -/
theorem answers_proves {comparison : CheckM (Except ConversionError Unit)}
    {outcome : Except ConversionError Unit} (compares : Yields comparison checker outcome checker)
    (judged : outcome = .ok () ↔ holds) : Answers (proves comparison) checker holds := by
  refine ⟨outcome.toBool, yields_localState_iff.2 ⟨checker, yields_get_bind_iff.2
    (yields_bind_iff.2 ⟨_, checker, compares, ?_⟩), rfl⟩, .trans ?_ judged⟩
  · cases outcome with
    | error _ => exact yields_pure_iff.2 ⟨rfl, rfl⟩
    | ok _ => exact yields_get_bind_iff.2 (yields_pure_iff.2 ⟨by simp [Except.toBool], rfl⟩)
  · cases outcome <;> simp [Except.toBool]

/-- A parameter is small exactly if its type is not that of levels and its sort lies below. -/
theorem eventually_answers_isSmall {ty : Ty} {sort lower upper : Universe} {term : Term}
    (reachable : Reachable checker) (inScope : ty.Scoped checker.state.Fits checker.context.length)
    (forms : Ty.HasForms checker.state ty term lower)
    (sortForm : Universe.HasForm checker.state sort upper) :
    ∀ᶠ fuel in atTop, Answers (isSmall ty sort) { checker with fuel }
      (¬term.IsLevelType ∧ Universe.AtMost lower upper) := by
  obtain ⟨_, normalised⟩ := forms.normalised
  obtain ⟨_, reduced, isReduced, rebuilt⟩ := exists_of_normalise normalised
  obtain ⟨_, reducedNormalised⟩ := (eventually_normalise_reduced isReduced rebuilt).exists
  obtain ⟨_, lowerNormalised⟩ := forms.sortNormalised
  have lowerForm := Universe.hasForm_of_normalise reachable.wellScoped.state inScope.sort
    lowerNormalised forms.sortGround
  filter_upwards [eventually_reduce isReduced,
    ConvM.eventually_judges_equalTerm_const checker.context.length reachable.eventually_reduce_level
      reducedNormalised forms.ground,
    ConvM.eventually_judges_leqSort checker.context.length lowerForm sortForm]
    with fuel done isLevel isBelow
  let more : Checker := { checker with fuel }
  obtain ⟨outcome, compares, judged⟩ :=
    exists_yields_attempt (show ConvM.Judges _ more.state _ from isLevel)
  have levels : Answers (proves do
      let reduced ← reduce ty.term
      tryEqualTerm reduced (.const Path.level)) more term.IsLevelType :=
    answers_proves (yields_bind_iff.2 ⟨reduced, more, yields_reduce_iff.2 ⟨done, rfl⟩,
      yields_get_bind_iff.2 compares⟩) judged
  obtain ⟨outcome, compares, judged⟩ :=
    exists_yields_attempt (show ConvM.Judges _ more.state _ from isBelow)
  have sorts : Answers (proves (tryLeqSort ty.sort sort)) more (Universe.AtMost lower upper) :=
    answers_proves (yields_get_bind_iff.2 compares) judged
  obtain ⟨isLevel, yieldsLevel, levelJudged⟩ := levels
  cases isLevel with
  | true =>
    exact ⟨false, yields_bind_iff.2 ⟨true, more, yieldsLevel, yields_pure_iff.2 ⟨rfl, rfl⟩⟩,
      iff_of_false Bool.false_ne_true fun both => both.1 (levelJudged.1 rfl)⟩
  | false =>
    obtain ⟨isBelow, yieldsBelow, belowJudged⟩ := sorts
    exact ⟨isBelow, yields_bind_iff.2 ⟨false, more, yieldsLevel, yieldsBelow⟩,
      belowJudged.trans (and_iff_right (by simp [← levelJudged])).symm⟩

/-- The small ones among some parameters are those that fit. -/
theorem eventually_smallAmong {parameters : Telescope} {sort upper : Universe} {terms : Nat → Term}
    {sorts : Nat → Universe} {outer : Nat} (reachable : Reachable checker)
    (inScope : parameters.Scoped checker.state.Fits outer)
    (isDepth : checker.context.length = outer + parameters.length)
    (sortForm : Universe.HasForm checker.state sort upper) (positions : List Nat)
    (forms : ∀ position ∈ positions, ∃ ty, parameters.liftedType? position = some (some ty) ∧
      Ty.HasForms checker.state ty (terms position) (sorts position)) :
    ∀ᶠ fuel in atTop, ∃ small,
      Yields (smallAmong parameters sort positions) { checker with fuel } small
        { checker with fuel } ∧
      ∀ position, position ∈ small ↔ position ∈ positions ∧ ¬(terms position).IsLevelType ∧
        Universe.AtMost (sorts position) upper := by
  induction positions with
  | nil => exact .of_forall fun fuel => ⟨[], yields_pure_iff.2 ⟨rfl, rfl⟩, by simp⟩
  | cons first positions ih =>
    obtain ⟨ty, isLifted, firstForms⟩ := forms first (.head _)
    have tyInScope : ty.Scoped checker.state.Fits checker.context.length :=
      isDepth ▸ inScope.liftedType? isLifted
    filter_upwards [ih fun position present => forms position (.tail _ present),
      eventually_answers_isSmall reachable tyInScope firstForms sortForm] with fuel rest answers
    obtain ⟨small, yieldsRest, restExact⟩ := rest
    obtain ⟨isSmall, yieldsFirst, firstExact⟩ := answers
    refine ⟨if isSmall then first :: small else small, ?_, fun position => ?_⟩
    · refine yields_bind_iff.2 ⟨some ty, _, yields_lift_iff.2 ⟨?_, rfl⟩,
        yields_bind_iff.2 ⟨isSmall, _,
        yieldsFirst, yields_bind_iff.2 ⟨small, _, yieldsRest, yields_pure_iff.2 ⟨rfl, rfl⟩⟩⟩⟩
      rw [isLifted]
      rfl
    · have exactly : position = first → (isSmall = true ↔ ¬(terms position).IsLevelType ∧
          Universe.AtMost (sorts position) upper) := by
        rintro rfl
        exact firstExact
      cases isSmall <;> simp only [Bool.false_eq_true, if_true, if_false, List.mem_cons,
        restExact] <;>
        grind

/-- With enough fuel exactly those parameters are small that fit into the sort of the datatype:
their types, raised to the scope of all parameters, are not the type of levels, and their sorts lie
below.  This holds where the normal forms are known and without placeholders.  In any case, nothing
changes. -/
theorem smallParameters_exactly (reachable : Reachable checker) :
    (∀ parameters sort, ((smallParameters parameters sort).run checker).state = checker) ∧
    ∀ {parameters : Telescope} {sort upper : Universe} {terms : Nat → Term} {sorts : Nat → Universe}
      {outer bound : Nat},
      checker.context.length = outer + parameters.length →
      parameters.Scoped checker.state.Fits outer →
      sort.Scoped checker.state.Fits checker.context.length →
      Families.normalise checker.state bound sort = .ok upper →
      upper.Ground →
      (∀ position < parameters.length, ∃ ty, parameters.liftedType? position = some (some ty) ∧
        Ty.HasForms checker.state ty (terms position) (sorts position)) →
      ∀ᶠ fuel in atTop, ∃ small,
        ((smallParameters parameters sort).run { checker with fuel }).result = .ok small ∧
        ∀ position, position ∈ small.toList ↔ position < parameters.length ∧
          ¬(terms position).IsLevelType ∧ Universe.AtMost (sorts position) upper := by
  refine ⟨fun parameters sort => (undoing_smallParameters parameters sort checker).follows, ?_⟩
  intro parameters sort upper terms sorts outer bound isDepth inScope sortInScope normalised ground
    forms
  have sortForm :=
    Universe.hasForm_of_normalise reachable.wellScoped.state sortInScope normalised ground
  filter_upwards [eventually_smallAmong reachable inScope isDepth sortForm
    (List.range parameters.length) fun position present =>
    forms position (List.mem_range.1 present)]
    with fuel found
  obtain ⟨small, yields, exactly⟩ := found
  have answered : Yields (smallParameters parameters sort) _ (.ofList small) _ :=
    yields_bind_iff.2 ⟨small, _, yields, yields_pure_iff.2 ⟨rfl, rfl⟩⟩
  refine ⟨.ofList small, answered.1, fun position => ?_⟩
  rw [Positions.mem_ofList, exactly, List.mem_range]

/-- Of a level and a set, the set alone is small for the sort of the sets of sets. -/
theorem smallParameters_exactly_levels :
    let levels : Domain := ⟨⟨0⟩, {}, .classified (Universe.ofNat 0) (.const Path.level)⟩
    let sets : Domain := ⟨⟨1⟩, {}, .classified (Universe.ofNat 1) (.univ (Universe.ofNat 0))⟩
    let checker : Checker := { Checker.initial {} .patterns 20 with context := [sets, levels] }
    Reachable checker ∧ ∀ᶠ fuel in atTop, ∃ small,
      ((smallParameters [levels, sets] (Universe.ofNat 1)).run { checker with fuel }).result =
          .ok small ∧
        ∀ position, position ∈ small.toList ↔ position = 1 := by
  intro levels sets checker
  have levelsInScope : ∀ depth, levels.ty.Scoped checker.state.Fits depth :=
    fun _ => ⟨Universe.scoped_ofNat 0 _, trivial⟩
  have setsInScope : ∀ depth, sets.ty.Scoped checker.state.Fits depth :=
    fun _ => ⟨Universe.scoped_ofNat 1 _, trivial⟩
  have reachable : Reachable checker :=
    .binds (.binds (.initial {} .patterns 20) (levelsInScope 0)) (setsInScope 1)
  let types (position : Nat) : Ty := if position = 0 then levels.ty else sets.ty
  have forms : ∀ position < 2, ∃ ty, Telescope.liftedType? [levels, sets] position =
    some (some ty) ∧ Ty.HasForms checker.state ty (types position).term (types position).sort := by
    rintro (_ | _ | position) inside
    · exact ⟨levels.ty, rfl, ⟨20, by decide +kernel⟩, Phrase.ground_iff.2 rfl,
        ⟨20, by decide +kernel⟩, Phrase.ground_iff.2 rfl⟩
    · exact ⟨sets.ty, rfl, ⟨20, by decide +kernel⟩, Phrase.ground_iff.2 rfl,
        ⟨20, by decide +kernel⟩, Phrase.ground_iff.2 rfl⟩
    · omega
  have normalised : Families.normalise checker.state 20 (Universe.ofNat 1) =
      .ok (Universe.ofNat 1) := by
    decide +kernel
  have exactly := @(smallParameters_exactly reachable).2 [levels, sets] _ _ _ _ 0 _ rfl
    ⟨levelsInScope 0, setsInScope 1, trivial⟩ (Universe.scoped_ofNat 1 _) normalised
    (Phrase.ground_iff.2 rfl) forms
  refine ⟨reachable, exactly.mono ?_⟩
  rintro fuel ⟨small, isOk, isExact⟩
  refine ⟨small, isOk, fun position => (isExact position).trans ⟨?_, ?_⟩⟩
  · rintro ⟨inside, notLevels, _⟩
    rcases position with _ | _ | position
    · exact absurd rfl notLevels
    · rfl
    · simp at inside
  · rintro rfl
    exact ⟨Nat.one_lt_two, by decide +kernel, .refl _⟩

/-- A type that unfolds to a placeholder passes for the type of levels, so that a parameter of this
type is not small although its sort lies below. -/
theorem unknown_type_not_small :
    let checker := ((Call.check [.function "F" (.set 1) [] (some .hole)]).computation.run
      (Checker.initial {} .patterns 40)).state
    let unknown : Ty := .classified (Universe.ofNat 1) (.const ⟨2⟩)
    Reachable checker ∧
      unknown.Ground ∧
      Families.normalise checker.state 40 unknown.term = .ok (.placeholder 2 .noTerms) ∧
      Universe.AtMost unknown.sort (Universe.ofNat 2) ∧
      ((smallParameters [⟨⟨0⟩, {}, unknown⟩] (Universe.ofNat 2)).run
        { checker with context := [⟨⟨0⟩, {}, unknown⟩] }).result = .ok (.ofList []) := by
  intro checker unknown
  refine ⟨.ends (.initial {} .patterns 40) (.check _) rfl, Phrase.ground_iff.2 rfl, ?_, ?_, ?_⟩
  · decide +kernel
  · exact .set (Level.eval_le_of_below (by decide))
  · decide +kernel

end CheckM
end Families
