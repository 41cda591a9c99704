import Families.Proofs.Reachability

/-!
# Conversion is sound

Terms that a reachable checker made equal without postponing anything have agreeing normal forms
from then on, and sorts have the same normal form.
-/

namespace Families

/-- Phrases that are equated normalise to related results, whatever the bounds on the recursion. -/
theorem Equates.normalise {category : Category} {agree : Phrase category → Phrase category → Prop}
    {state later : State} {depth fuel fuel' : Nat} {left right left' right' : Phrase category}
    (equates : Equates agree state left right) (wellScoped : later.WellScoped)
    (grows : state.Grows later) (leftInScope : left.Scoped later.Fits depth)
    (rightInScope : right.Scoped later.Fits depth)
    (normalisedLeft : normalise later fuel left = .ok left')
    (normalisedRight : normalise later fuel' right = .ok right') : agree left' right' := by
  have leftNormalises := (normalises_of_normalise wellScoped normalisedLeft leftInScope).1
  have rightNormalises := (normalises_of_normalise wellScoped normalisedRight rightInScope).1
  exact equates grows.resolves leftNormalises.hasNormalForm rightNormalises.hasNormalForm

/-- If a comparison of terms or sorts succeeds and postpones nothing, then in every well-scoped
state that knows no less, the terms normalise to terms that agree, and the sorts to the same
sort. -/
theorem conversion_sound {checker : Checker} (reachable : Reachable checker) :
    (∀ (left right : Term) (later : State),
      checker.InScope left → checker.InScope right →
      ((CheckM.equalTerm left right).run checker).result = .ok () →
      ((CheckM.equalTerm left right).run checker).state.state.constraints =
        checker.state.constraints →
      later.WellScoped → ((CheckM.equalTerm left right).run checker).state.state.Grows later →
      ∀ {fuel fuel' : Nat} {left' right' : Term}, normalise later fuel left = .ok left' →
        normalise later fuel' right = .ok right' → Agrees left' right') ∧
    (∀ (left right : Universe) (later : State),
      checker.InScope left → checker.InScope right →
      ((CheckM.equalSort left right).run checker).result = .ok () →
      ((CheckM.equalSort left right).run checker).state.state.constraints =
        checker.state.constraints →
      later.WellScoped → ((CheckM.equalSort left right).run checker).state.state.Grows later →
      ∀ {fuel fuel' : Nat} {left' right' : Universe}, normalise later fuel left = .ok left' →
        normalise later fuel' right = .ok right' → left' = right') := by
  have wellScoped := reachable.wellScoped
  constructor
  · intro left right later leftInScope rightInScope succeeded same laterWellScoped grows _ _ _ _
    have respects := CheckM.steady_equalTerm wellScoped leftInScope rightInScope
    have equates := respects.answer () succeeded same
    exact equates.normalise laterWellScoped grows
      (grows.scoped (respects.follows.inScope leftInScope))
      (grows.scoped (respects.follows.inScope rightInScope))
  · intro left right later leftInScope rightInScope succeeded same laterWellScoped grows _ _ _ _
    have respects := CheckM.steady_equalSort wellScoped leftInScope rightInScope
    have equates := respects.answer () succeeded same
    exact equates.normalise laterWellScoped grows
      (grows.scoped (respects.follows.inScope leftInScope))
      (grows.scoped (respects.follows.inScope rightInScope))

/-- A placeholder in two places is solved in the first of them.  The function types on both sides
then agree, though their names, sorts and relevance differ. -/
theorem conversion_sound_pi :
    let opened := (Call.freshTerm (.univ (Universe.ofNat 0))).computation.run
      (Checker.initial {} .patterns 20)
    let hole : Ty := .classified (Universe.ofNat 0) (.placeholder 0 .noTerms)
    let levels : Ty := .classified .prop (.const Path.level)
    let left : Term := .pi ⟨0⟩ {} hole hole
    let right : Term := .pi ⟨1⟩ { relevance := .irrelevant } levels levels
    let compared := (CheckM.equalTerm left right).run opened.state
    let solved : Ty := .classified (Universe.ofNat 0) (.const Path.level)
    compared.result = .ok () ∧
      compared.state.state.constraints = opened.state.state.constraints ∧
      normalise compared.state.state 20 left = .ok (.pi ⟨0⟩ {} solved solved) ∧
      normalise compared.state.state 20 right = .ok right ∧
      Agrees (.pi ⟨0⟩ {} solved solved) right := by
  intro opened hole levels left right compared solved
  have universeInScope : (Universe.ofNat 0).Scoped State.initial.Fits 0 := Universe.scoped_ofNat 0 0
  have reachable : Reachable opened.state :=
    .ends (.initial {} .patterns 20) (.freshTerm (.univ (Universe.ofNat 0))) universeInScope
  have holeInScope : ∀ depth, hole.Scoped opened.state.state.Fits depth :=
    fun depth => ⟨Universe.scoped_ofNat 0 depth, .term rfl, trivial⟩
  have leftInScope : opened.state.InScope left := ⟨holeInScope 0, holeInScope 1⟩
  have rightInScope : opened.state.InScope right := ⟨⟨trivial, trivial⟩, trivial, trivial⟩
  have comparedReachable : Reachable compared.state :=
    .ends reachable (.equalTerm left right) ⟨leftInScope, rightInScope⟩
  have succeeded : compared.result = .ok () := by cbv
  have same : compared.state.state.constraints = opened.state.state.constraints := by cbv
  have normalisedLeft : normalise compared.state.state 20 left =
      .ok (.pi ⟨0⟩ {} solved solved) := by cbv
  have normalisedRight : normalise compared.state.state 20 right = .ok right := by cbv
  exact ⟨succeeded, same, normalisedLeft, normalisedRight,
    (conversion_sound reachable).1 left right _ leftInScope rightInScope succeeded same
      comparedReachable.wellScoped.state (.refl _) normalisedLeft normalisedRight⟩

end Families
