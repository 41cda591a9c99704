import Families.Proofs.LevelAlgebra
import Families.Proofs.Persistence

/-!
# The order of sorts

The order is stated by values: a set lies below another when its level is at most the other's
whatever the terms in both stand for.  A comparison that succeeds without being postponed
establishes the order of the normal forms, and it stays however more placeholders are solved.
-/

namespace Families

/-! ## The order -/

/-- Propositions lie below every set, a set lies below the sets of levels that are never smaller,
and everything but the sort of sizes lies below the sort above all sets. -/
inductive Universe.AtMost : Universe → Universe → Prop where
  | refl (sort : Universe) : AtMost sort sort
  | prop (bound : Level) : AtMost .prop (.set bound)
  | set {left right : Level} :
      (∀ value, Level.eval value left ≤ Level.eval value right) →
      AtMost (.set left) (.set right)
  | omega {sort : Universe} : sort ≠ .sizeUniv → AtMost sort .omega

/-- A sort as a bound for indices, to which propositions are sets of level zero. -/
def Universe.forIndices : Universe → Universe
  | .prop => Universe.ofNat 0
  | sort => sort

namespace Universe.AtMost

variable {state : State} {left right left' right' : Universe}

/-- A set lies below another exactly if its level is never larger. -/
theorem set_iff {left right : Level} :
    AtMost (.set left) (.set right) ↔ ∀ value, Level.eval value left ≤ Level.eval value right := by
  constructor
  · intro atMost value
    cases atMost with
    | refl => exact Nat.le_refl _
    | set smaller => exact smaller value
  · exact .set

/-- What is at most a sort is at most the same sort as a bound for indices. -/
theorem forIndices (atMost : AtMost left right) : AtMost left (Universe.forIndices right) := by
  cases right with
  | prop =>
    cases atMost
    exact .prop _
  | _ => exact atMost

/-- The order of sorts that are known is the order of their normal forms. -/
theorem normal (atMost : AtMost left right)
    (known : ∀ id arguments, left ≠ .sortPlaceholder id arguments)
    (hasLeft : HasNormalForm state left left') (hasRight : HasNormalForm state right right') :
    AtMost left' right' := by
  cases atMost with
  | refl =>
    obtain rfl := hasLeft.deterministic hasRight
    exact .refl _
  | prop =>
    cases hasLeft
    obtain ⟨_, rfl, _⟩ := hasRight.set_cases
    exact .prop _
  | set smaller =>
    obtain ⟨_, rfl, hasBound⟩ := hasLeft.set_cases
    obtain ⟨_, rfl, hasBound'⟩ := hasRight.set_cases
    refine .set fun value => ?_
    rw [← hasBound.flat.deepEval, ← hasBound'.flat.deepEval, hasBound.deepEval_eq,
      hasBound'.deepEval_eq, Level.deepEval_eq_eval, Level.deepEval_eq_eval]
    exact smaller _
  | omega notSize =>
    cases hasRight
    refine .omega ?_
    rintro rfl
    cases hasLeft with
    | sortStep => exact known _ _ rfl
    | atomic => exact notSize rfl

end Universe.AtMost

/-! ## Comparisons that are not postponed -/

namespace ConvM

variable {fuel depth : Nat} {before after later : State} {answer : Unit}

/-- What is postponed is added. -/
theorem constraints_ne_of_postpone {comparison : Comparison}
    (yields : Yields (postpone depth comparison) before answer after) :
    after.constraints ≠ before.constraints := by
  obtain ⟨_, rfl⟩ := yields
  intro same
  exact absurd (congrArg List.length same) (by simp [postpone, State.postpone, modify, modifyGet,
    MonadState.modifyGet, MonadStateOf.modifyGet])

theorem eval_le_of_leqLevel {left right : Level}
    (yields : Yields (leqLevel fuel depth left right) before answer after)
    (settled : after.constraints = before.constraints) :
    ∃ left' right', normalise before fuel left = .ok left' ∧
      normalise before fuel right = .ok right' ∧
      ∀ value, Level.eval value left' ≤ Level.eval value right' := by
  simp only [leqLevel, yields_bind_iff, yields_get_iff, yields_lift_iff] at yields
  obtain ⟨_, _, ⟨rfl, rfl⟩, left', _, ⟨isLeft, rfl⟩, right', _, ⟨isRight, rfl⟩, yields⟩ := yields
  split at yields
  · rename_i below
    exact ⟨left', right', isLeft, isRight, Level.eval_le_of_below below⟩
  · split at yields
    · exact absurd settled (constraints_ne_of_postpone yields)
    · exact absurd yields not_yields_fail

/-- Sorts that were compared without being postponed have ordered normal forms from then on. -/
theorem atMost_of_leqSort {left right left' right' : Universe} (wellScoped : before.WellScoped)
    (leftInScope : left.Scoped before.Fits depth) (rightInScope : right.Scoped before.Fits depth)
    (yields : Yields (leqSort fuel depth left right) before answer after)
    (settled : after.constraints = before.constraints) (advances : after.Advances later)
    (hasLeft : HasNormalForm later left left') (hasRight : HasNormalForm later right right') :
    Universe.AtMost left' right' := by
  have waits := (waiting_leqSort left right).follows yields
  replace advances := waits.learns.grows.advances.trans advances
  have normalises : ∀ {category : Category} {phrase result normal : Phrase category},
      phrase.Scoped before.Fits depth → normalise before fuel phrase = .ok result →
      HasNormalForm later phrase normal →
      result.Scoped before.Fits depth ∧ HasNormalForm later result normal := by
    intro category phrase result normal inScope normalised hasNormalForm
    obtain ⟨normalises, resultInScope⟩ := normalises_of_normalise wellScoped normalised inScope
    exact ⟨resultInScope, hasNormalForm.of_rewrites_of_advances advances normalises.rewrites⟩
  simp only [leqSort, yields_bind_iff, yields_get_iff, yields_lift_iff] at yields
  obtain ⟨_, _, ⟨rfl, rfl⟩, first, _, ⟨isFirst, rfl⟩, second, _, ⟨isSecond, rfl⟩, yields⟩ := yields
  obtain ⟨firstInScope, hasFirst⟩ := normalises leftInScope isFirst hasLeft
  obtain ⟨secondInScope, hasSecond⟩ := normalises rightInScope isSecond hasRight
  split at yields
  · rename_i same
    subst same
    obtain rfl := hasFirst.deterministic hasSecond
    exact .refl _
  · split at yields
    · exact absurd settled (constraints_ne_of_postpone yields)
    · exact absurd settled (constraints_ne_of_postpone yields)
    · exact absurd yields not_yields_fail
    · exact absurd yields not_yields_fail
    · rename_i known notSize _
      exact Universe.AtMost.normal (.omega notSize) known hasFirst hasSecond
    · exact Universe.AtMost.normal (.prop _) (by simp) hasFirst hasSecond
    · rename_i first second _
      have firstLevel : first.Scoped before.Fits depth := firstInScope
      have secondLevel : second.Scoped before.Fits depth := secondInScope
      obtain ⟨left, right, isLeft, isRight, smaller⟩ := eval_le_of_leqLevel yields settled
      obtain ⟨_, rfl, hasBound⟩ := hasFirst.set_cases
      obtain ⟨_, rfl, hasBound'⟩ := hasSecond.set_cases
      obtain ⟨_, hasLeft⟩ := normalises firstLevel isLeft hasBound
      obtain ⟨_, hasRight⟩ := normalises secondLevel isRight hasBound'
      exact Universe.AtMost.normal (.set smaller) (by simp) (.set hasLeft) (.set hasRight)
    · exact absurd yields not_yields_fail

end ConvM
end Families
