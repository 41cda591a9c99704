import Families.Proofs.Essence
import Families.Proofs.FunctionTypes

/-!
# Evaluation in lockstep

Phrases with the same essence unfold together, and their normal forms have the same essence, unless
a level in the place of a function hides what it consists of.  Normal forms without such levels are
tame.  The atoms of their levels are confined to a set, since levels are compared by their atoms as
these stand and not by their essences.
-/

namespace Families

variable {term next leafResult : Term}

namespace Phrase

variable {category : Category}

/-- No level is applied to an argument, and the atoms of levels belong to a set of terms.  The sorts
of types do not count. -/
def Tame (allowed : Set Term) : {category : Category} → Phrase category → Prop
  | _, app function argument _ =>
    ¬function.IsLevel ∧ function.Tame allowed ∧ argument.Tame allowed
  | _, pi _ _ domain codomain => domain.Tame allowed ∧ codomain.Tame allowed
  | _, univ sort => sort.Tame allowed
  | _, level bound => bound.Tame allowed
  | _, placeholder _ arguments => arguments.Tame allowed
  | _, classified _ term => term.Tame allowed
  | _, set bound => bound.Tame allowed
  | _, sortPlaceholder _ arguments => arguments.Tame allowed
  | _, lub _ atoms => atoms.Tame allowed
  | _, atom term _ rest => term ∈ allowed ∧ term.Tame allowed ∧ rest.Tame allowed
  | _, .terms first rest => first.Tame allowed ∧ rest.Tame allowed
  | _, _ => True

variable {allowed : Set Term}

theorem tame_iff_atomList :
    ∀ {atoms : Phrase .atoms}, atoms.Tame allowed ↔
      ∀ atom ∈ atoms.atomList, atom.term ∈ allowed ∧ atom.term.Tame allowed
  | noAtoms => by simp [Tame]
  | atom term offset rest => by simp [Tame, @tame_iff_atomList rest, and_assoc]

theorem tame_iff_terms :
    ∀ {bound : Level}, bound.Tame allowed ↔
      ∀ term ∈ Level.terms bound, term ∈ allowed ∧ term.Tame allowed
  | lub constant atoms => by
    rw [Tame, tame_iff_atomList]
    simp [Level.terms, Level.atoms]

/-- The leaves of a tame and flat level are among the terms and tame. -/
theorem Tame.of_mem_leaves {bound : Level} {leaf : Term} (tame : bound.Tame allowed)
    (flat : Level.Flat bound) (present : leaf ∈ bound.leaves) :
    leaf ∈ allowed ∧ leaf.Tame allowed :=
  tame_iff_terms.1 tame leaf (flat.mem_leaves.1 present)

theorem not_isLevel_of_head (noLevel : ¬term.head.IsLevel) : ¬term.IsLevel := by
  cases term with
  | level => exact noLevel
  | _ => exact not_false

theorem Tame.not_isLevel_head :
    ∀ {term : Term}, term.Tame allowed → ¬term.IsLevel → ¬term.head.IsLevel
  | app _ _ _, tame, _ => tame.2.1.not_isLevel_head tame.1
  | var _, _, noLevel | const _, _, noLevel | pi _ _ _ _, _, noLevel | univ _, _, noLevel
  | level _, _, noLevel | placeholder _ _, _, noLevel => noLevel

/-- A phrase without parts is determined by its essence. -/
theorem IsAtomic.eq_of_essence_eq {phrase other : Phrase category} (isAtomic : phrase.IsAtomic)
    (noLevel : ¬other.IsLevel) (same : phrase.essence = other.essence) : other = phrase := by
  cases phrase with
  | app | pi | univ | level | placeholder | classified | set | sortPlaceholder | lub | atom
  | terms =>
    exact isAtomic.elim
  | var | const =>
    cases other with
    | level => exact absurd trivial noLevel
    | _ => simp_all [essence]
  | _ => cases other <;> simp_all [essence]

theorem le_deepEval {value : Term → Nat} {phrase : Phrase category} {leaf : Term}
    (present : leaf ∈ phrase.leaves) : value leaf ≤ phrase.deepEval value := by
  induction phrase with
  | level bound ih => exact ih present
  | lub constant atoms ih =>
    exact (ih present).trans (Nat.le_max_right _ _)
  | atom term offset rest ihTerm ihRest =>
    rw [deepEval]
    rcases List.mem_append.1 present with inTerm | inRest
    · exact ((ihTerm inTerm).trans (Nat.le_add_right _ _)).trans (Nat.le_max_left _ _)
    · exact (ihRest inRest).trans (Nat.le_max_right _ _)
  | _ => simp_all [leaves, deepEval]

end Phrase

variable {state : State} {category : Category} {allowed : Set Term}

/-! ## Heads -/

theorem Unfolds.not_isLevel_head (unfolds : Unfolds state term next) : ¬term.head.IsLevel := by
  rcases unfolds.head_eq with ⟨id, arguments, isPlaceholder⟩ | ⟨path, isConst⟩
  · simp [isPlaceholder, Phrase.IsLevel]
  · simp [isConst, Phrase.IsLevel]

theorem Unfolds.not_isLevel (unfolds : Unfolds state term next) : ¬term.IsLevel :=
  Phrase.not_isLevel_of_head unfolds.not_isLevel_head

namespace HasNormalForm

/-- A term without a step that is no level does not become one. -/
theorem not_isLevel {result : Term} (hasNormalForm : HasNormalForm state term result)
    (stuck : ∀ next, ¬Unfolds state term next) (noLevel : ¬term.IsLevel) : ¬result.IsLevel := by
  cases hasNormalForm with
  | step unfolds _ => exact absurd unfolds (stuck _)
  | level => exact absurd trivial noLevel
  | atomic => exact noLevel
  | app | pi | univ | placeholder => exact not_false

theorem isLevel_head :
    ∀ {term result : Term}, HasNormalForm state term result →
      (∀ next, ¬Unfolds state term next) → term.head.IsLevel → result.head.IsLevel
  | .app function argument info, _, hasNormalForm, stuck, isLevel => by
    obtain ⟨_, _, rfl, hasFunction, _⟩ := hasNormalForm.app_cases stuck
    have atHead := isLevel_head hasFunction (fun _ unfolds => stuck _ (.app unfolds)) isLevel
    exact atHead
  | .level bound, _, hasNormalForm, stuck, _ => by
    obtain ⟨_, rfl, _⟩ := hasNormalForm.level_cases
    trivial
  | .var _, _, _, _, isLevel | .const _, _, _, _, isLevel | .pi _ _ _ _, _, _, _, isLevel
  | .univ _, _, _, _, isLevel | .placeholder _ _, _, _, _, isLevel => isLevel.elim

/-- A term with a tame normal form that is no level has no level at its head. -/
theorem not_isLevel_head {result : Term} (hasNormalForm : HasNormalForm state term result)
    (noLevel : ¬term.IsLevel) (tame : result.Tame allowed) : ¬term.head.IsLevel := by
  by_cases unfolds : ∃ next, Unfolds state term next
  · obtain ⟨next, unfolds⟩ := unfolds
    exact unfolds.not_isLevel_head
  · have stuck : ∀ next, ¬Unfolds state term next := not_exists.1 unfolds
    intro isLevel
    exact tame.not_isLevel_head (hasNormalForm.not_isLevel stuck noLevel)
      (hasNormalForm.isLevel_head stuck isLevel)

end HasNormalForm

/-- Terms with the same essence unfold together. -/
theorem Unfolds.exists_of_essence_eq {other : Term} (unfolds : Unfolds state term next)
    (same : term.essence = other.essence) (noLevel : ¬other.head.IsLevel) :
    ∃ next', Unfolds state other next' ∧ next.essence = next'.essence := by
  induction unfolds generalizing other with
  | @placeholder id arguments solution solved below =>
    cases other with
    | placeholder id' arguments' =>
      simp only [Phrase.essence, Phrase.placeholder.injEq] at same
      obtain ⟨rfl, same⟩ := same
      have sameArguments := congrArg Phrase.toList same
      rw [Phrase.toList_essence, Phrase.toList_essence] at sameArguments
      have sameLength : arguments.toList.length = arguments'.toList.length := by
        simpa using congrArg List.length sameArguments
      exact ⟨_, .placeholder solved (sameLength ▸ below),
        Phrase.essence_replace_assigned solution sameArguments⟩
    | level => exact absurd trivial noLevel
    | _ => simp [Phrase.essence] at same
  | @function path arity body term found below isConst full =>
    obtain ⟨isConst', sameArguments⟩ := Phrase.head_eq_const_of_essence_eq same isConst noLevel
    have sameLength : term.arguments.length = other.arguments.length := by
      simpa using congrArg List.length sameArguments
    refine ⟨_, .function found below isConst' (sameLength ▸ full), ?_⟩
    apply Phrase.essence_replace_assigned
    simpa [List.map_reverse, Function.comp_def] using sameArguments
  | @app function function' argument info unfolds ih =>
    cases other with
    | app otherFunction otherArgument otherInfo =>
      simp only [Phrase.essence, Phrase.app.injEq, and_true] at same
      obtain ⟨next', unfolds', sameNext⟩ := ih same.1 noLevel
      refine ⟨_, .app unfolds', ?_⟩
      simp only [Phrase.essence, sameNext, same.2]
    | level => exact absurd trivial noLevel
    | _ => simp [Phrase.essence] at same

/-! ## Leaves of levels -/

namespace HasNormalForm

/-- Nothing in the normal form of a leaf is lost. -/
theorem mem_leaves {phrase result : Phrase category} {leaf : Term}
    (hasNormalForm : HasNormalForm state phrase result) (present : leaf ∈ phrase.leaves)
    (hasLeaf : HasNormalForm state leaf leafResult) (termPresent : term ∈ leafResult.leaves) :
    term ∈ result.leaves := by
  by_contra absent
  -- A term with a value above all else would count on the left only.
  let value := Level.spike term (result.deepEval (fun _ => 0) + 1)
  have low : result.deepEval value = result.deepEval fun _ => 0 := by
    apply Phrase.deepEval_congr
    intro other otherPresent
    exact if_neg (ne_of_mem_of_not_mem otherPresent absent)
  have high : value term ≤ result.deepEval value := by
    calc
      value term ≤ leafResult.deepEval value := Phrase.le_deepEval termPresent
      _ = (normalForm state leaf).deepEval value := by rw [hasLeaf.normalForm_eq]
      _ ≤ phrase.deepEval fun leaf => (normalForm state leaf).deepEval value :=
        @Phrase.le_deepEval _ (fun leaf => (normalForm state leaf).deepEval value) _ _ present
      _ = result.deepEval value := (hasNormalForm.deepEval_eq value).symm
  have peak : value term = result.deepEval (fun _ => 0) + 1 := if_pos rfl
  omega

/-- The normal forms of the leaves of a level with a tame normal form are tame. -/
theorem tame_leaf_level {bound result : Level} {leaf : Term}
    (hasNormalForm : HasNormalForm state bound result) (tame : result.Tame allowed)
    (present : leaf ∈ bound.leaves) (hasLeaf : HasNormalForm state leaf leafResult) :
    leafResult.Tame allowed := by
  have tameLeaf : ∀ term ∈ leafResult.leaves, term ∈ allowed ∧ term.Tame allowed :=
    fun term termPresent => tame.of_mem_leaves hasNormalForm.flat
      (hasNormalForm.mem_leaves present hasLeaf termPresent)
  by_cases isLevel : leafResult.IsLevel
  · have isCanonical := hasLeaf.isCanonical
    cases leafResult with
    | level inner =>
      cases inner with
      | lub constant atoms =>
        refine Phrase.tame_iff_terms.2 fun term termPresent => tameLeaf term ?_
        exact isCanonical.2.mem_leaves.2 termPresent
    | _ => exact isLevel.elim
  · have self : leafResult.leaves = [leafResult] := Phrase.leaves_of_not_isLevel isLevel
    exact (tameLeaf leafResult (by simp [self])).2

theorem tame_leaf {result leaf : Term}
    (hasNormalForm : HasNormalForm state term result) (tame : result.Tame allowed)
    (present : leaf ∈ term.leaves) (hasLeaf : HasNormalForm state leaf leafResult) :
    leafResult.Tame allowed := by
  by_cases isLevel : term.IsLevel
  · cases hasNormalForm with
    | step unfolds _ => exact absurd isLevel unfolds.not_isLevel
    | level hasBound => exact hasBound.tame_leaf_level tame present hasLeaf
    | @atomic _ term isAtomic =>
      cases term with
      | level => exact isAtomic.elim
      | _ => exact isLevel.elim
    | app | pi | univ | placeholder => exact isLevel.elim
  · rw [Phrase.leaves_of_not_isLevel isLevel, List.mem_singleton] at present
    subst present
    rwa [hasLeaf.deterministic hasNormalForm]

end HasNormalForm

/-! ## Lockstep -/

/-- Every phrase with the same essence has a normal form with the same essence. -/
def Follows (state : State) (allowed : Set Term) (phrase : Phrase category) : Prop :=
  ∀ ⦃other result result' : Phrase category⦄, phrase.essence = other.essence →
    HasNormalForm state phrase result → HasNormalForm state other result' →
    result.Tame allowed → result'.Tame allowed → result.essence = result'.essence

/-- The same for a term, compared with terms that are no levels. -/
def FollowsTerms (state : State) (allowed : Set Term) (term : Term) : Prop :=
  ∀ ⦃other result result' : Term⦄, ¬other.IsLevel → term.essence = other.essence →
    HasNormalForm state term result → HasNormalForm state other result' →
    result.Tame allowed → result'.Tame allowed → result.essence = result'.essence

open HasNormalForm in
/-- The value of a normal form is made of the normal forms of the leaves. -/
theorem deepEval_essence_normalForm {phrase result : Phrase category}
    (hasNormalForm : HasNormalForm state phrase result) (value : Term → Nat) :
    result.essence.deepEval value =
      phrase.deepEval fun leaf => (normalForm state leaf).essence.deepEval value := by
  rw [Phrase.deepEval_essence, hasNormalForm.deepEval_eq]
  simp only [Phrase.deepEval_essence]

open HasNormalForm in
/-- Phrases with the same essence have normal forms with the same values, if this is so of their
leaves. -/
theorem deepEval_eq_of_leaves {phrase other result result' : Phrase category}
    (follows : ∀ leaf ∈ phrase.leaves, FollowsTerms state allowed leaf)
    (same : phrase.essence = other.essence) (hasNormalForm : HasNormalForm state phrase result)
    (hasNormalForm' : HasNormalForm state other result')
    (tame : ∀ {leaf leafResult}, leaf ∈ phrase.leaves → HasNormalForm state leaf leafResult →
      leafResult.Tame allowed)
    (tame' : ∀ {leaf leafResult}, leaf ∈ other.leaves → HasNormalForm state leaf leafResult →
      leafResult.Tame allowed)
    (value : Term → Nat) : result.essence.deepEval value = result'.essence.deepEval value := by
  classical
  -- The value of a leaf depends on its essence: some leaf of the phrase with that essence gives it.
  let pick (essence : Term) : Nat :=
    if found : ∃ leaf ∈ phrase.leaves, leaf.essence = essence then
      (normalForm state found.choose).essence.deepEval value
    else 0
  have pick_eq : ∀ {leaf leafResult : Term}, ¬leaf.IsLevel →
      HasNormalForm state leaf leafResult → leafResult.Tame allowed →
      (∃ leaf' ∈ phrase.leaves, leaf'.essence = leaf.essence) →
      (normalForm state leaf).essence.deepEval value = pick leaf.essence := by
    intro leaf leafResult noLevel hasLeaf leafTame found
    obtain ⟨picked, samePicked⟩ := found.choose_spec
    obtain ⟨pickedResult, hasPicked⟩ := hasNormalForm.exists_of_mem_leaves picked
    have sameResult := follows _ picked noLevel samePicked hasPicked hasLeaf
      (tame picked hasPicked) leafTame
    simp only [pick, dif_pos found, hasPicked.normalForm_eq, hasLeaf.normalForm_eq, sameResult]
  calc
    result.essence.deepEval value
        = phrase.deepEval fun leaf => (normalForm state leaf).essence.deepEval value :=
      deepEval_essence_normalForm hasNormalForm value
    _ = phrase.deepEval fun leaf => pick leaf.essence := by
      apply Phrase.deepEval_congr
      intro leaf present
      obtain ⟨leafResult, hasLeaf⟩ := hasNormalForm.exists_of_mem_leaves present
      exact pick_eq (Phrase.not_isLevel_of_mem_leaves present) hasLeaf (tame present hasLeaf)
        ⟨leaf, present, rfl⟩
    _ = other.deepEval fun leaf => pick leaf.essence := by
      rw [← Phrase.deepEval_essence, same, Phrase.deepEval_essence]
    _ = other.deepEval fun leaf => (normalForm state leaf).essence.deepEval value := by
      apply Phrase.deepEval_congr
      intro leaf present
      obtain ⟨leafResult, hasLeaf⟩ := hasNormalForm'.exists_of_mem_leaves present
      have found : ∃ leaf' ∈ phrase.leaves, leaf'.essence = leaf.essence := by
        rw [← Phrase.mem_leaves_essence, same, Phrase.mem_leaves_essence]
        exact ⟨leaf, present, rfl⟩
      exact (pick_eq (Phrase.not_isLevel_of_mem_leaves present) hasLeaf (tame' present hasLeaf)
        found).symm
    _ = result'.essence.deepEval value := (deepEval_essence_normalForm hasNormalForm' value).symm

/-- A phrase and the leaves of its levels evaluate in lockstep with phrases of the same essence. -/
structure Leads (state : State) (allowed : Set Term) (phrase : Phrase category) : Prop where
  whole : Follows state allowed phrase
  leaves : ∀ leaf ∈ phrase.leaves, FollowsTerms state allowed leaf

namespace Leads

theorem of_leaves (follows : ∀ leaf ∈ term.leaves, FollowsTerms state allowed leaf) :
    Leads state allowed term where
  whole := by
    intro other result result' same hasNormalForm hasNormalForm' tame tame'
    exact Phrase.essence_eq_of_deepEval (deepEval_eq_of_leaves follows same hasNormalForm
      hasNormalForm' (hasNormalForm.tame_leaf tame) (hasNormalForm'.tame_leaf tame'))
  leaves := follows

theorem of_leaves_level {bound : Level}
    (follows : ∀ leaf ∈ bound.leaves, FollowsTerms state allowed leaf) :
    Leads state allowed bound where
  whole := by
    intro other result result' same hasNormalForm hasNormalForm' tame tame'
    exact Phrase.essence_eq_of_deepEval_level (deepEval_eq_of_leaves follows same hasNormalForm
      hasNormalForm' (hasNormalForm.tame_leaf_level tame) (hasNormalForm'.tame_leaf_level tame'))
  leaves := follows

theorem of_followsTerms (noLevel : ¬term.IsLevel)
    (follows : FollowsTerms state allowed term) : Leads state allowed term := by
  apply of_leaves
  rw [Phrase.leaves_of_not_isLevel noLevel, List.forall_mem_singleton]
  exact follows

end Leads

/-- Phrases with the same essence have normal forms with the same essence. -/
theorem HasNormalForm.leads {phrase result : Phrase category}
    (hasNormalForm : HasNormalForm state phrase result) : Leads state allowed phrase := by
  induction hasNormalForm with
  | @step term next result unfolds _ ih =>
    refine .of_followsTerms unfolds.not_isLevel ?_
    intro other _ _ noLevel same hasLeft hasRight tame tame'
    obtain ⟨next', unfolds', sameNext⟩ :=
      unfolds.exists_of_essence_eq same (hasRight.not_isLevel_head noLevel tame')
    exact ih.whole sameNext (hasLeft.of_unfolds unfolds)
      (hasRight.of_unfolds unfolds') tame tame'
  | @sortStep id arguments solution result solved below _ ih =>
    refine ⟨?_, by simp [Phrase.leaves]⟩
    intro other _ _ same hasLeft hasRight tame tame'
    cases other with
    | sortPlaceholder id' arguments' =>
      simp only [Phrase.essence, Phrase.sortPlaceholder.injEq] at same
      obtain ⟨rfl, same⟩ := same
      have sameArguments := congrArg Phrase.toList same
      rw [Phrase.toList_essence, Phrase.toList_essence] at sameArguments
      exact ih.whole (Phrase.essence_replace_assigned solution sameArguments)
        (hasLeft.of_solved solved) (hasRight.of_solved solved) tame tame'
    | _ => simp [Phrase.essence] at same
  | @atomic category phrase isAtomic stuck =>
    have follows : ∀ {other result result' : Phrase category}, ¬other.IsLevel →
        phrase.essence = other.essence → HasNormalForm state phrase result →
        HasNormalForm state other result' → result.essence = result'.essence := by
      intro other result result' noLevel same hasLeft hasRight
      obtain rfl := isAtomic.eq_of_essence_eq noLevel same
      rw [hasLeft.deterministic hasRight]
    cases category with
    | term =>
      refine .of_followsTerms ?_ fun _ _ _ noLevel same hasLeft hasRight _ _ =>
        follows noLevel same hasLeft hasRight
      cases phrase with
      | level => exact isAtomic.elim
      | _ => exact not_false
    | _ =>
      refine ⟨fun other _ _ same hasLeft hasRight _ _ => follows ?_ same hasLeft hasRight, ?_⟩
      · cases other <;> exact not_false
      · cases phrase <;> simp_all [Phrase.leaves, Phrase.IsAtomic]
  | @app function function' argument argument' info stuck _ _ ihFunction
      ihArgument =>
      refine .of_followsTerms not_false ?_
      intro other result _ noLevel same hasLeft hasRight tame tame'
      have noLevelHead := hasLeft.not_isLevel_head not_false tame
      cases other with
      | app otherFunction otherArgument otherInfo =>
        have stuck' : ∀ next, ¬Unfolds state (.app otherFunction otherArgument otherInfo) next := by
          intro next unfolds
          obtain ⟨next', unfolds', _⟩ := unfolds.exists_of_essence_eq same.symm noLevelHead
          exact stuck next' unfolds'
        obtain ⟨_, _, rfl, hasFunction, hasArgument⟩ := hasLeft.app_cases stuck
        obtain ⟨_, _, rfl, hasFunction', hasArgument'⟩ := hasRight.app_cases stuck'
        simp only [Phrase.essence, Phrase.app.injEq, and_true] at same ⊢
        exact ⟨ihFunction.whole same.1 hasFunction hasFunction' tame.2.1 tame'.2.1,
          ihArgument.whole same.2 hasArgument hasArgument' tame.2.2 tame'.2.2⟩
      | level => exact absurd trivial noLevel
      | _ => simp [Phrase.essence] at same
  | @pi name info domain domain' codomain codomain' _ _ ihDomain ihCodomain =>
    refine .of_followsTerms not_false ?_
    intro other _ _ noLevel same hasLeft hasRight tame tame'
    cases other with
    | pi =>
      obtain ⟨_, _, rfl, hasDomain, hasCodomain⟩ := hasLeft.pi_cases
      obtain ⟨_, _, rfl, hasDomain', hasCodomain'⟩ := hasRight.pi_cases
      simp only [Phrase.essence, Phrase.pi.injEq] at same ⊢
      exact ⟨same.1, same.2.1,
        ihDomain.whole same.2.2.1 hasDomain hasDomain' tame.1 tame'.1,
        ihCodomain.whole same.2.2.2 hasCodomain hasCodomain' tame.2 tame'.2⟩
    | level => exact absurd trivial noLevel
    | _ => simp [Phrase.essence] at same
  | @univ sort sort' _ ih =>
    refine .of_followsTerms not_false ?_
    intro other _ _ noLevel same hasLeft hasRight tame tame'
    cases other with
    | univ =>
      obtain ⟨_, rfl, hasSort⟩ := hasLeft.univ_cases
      obtain ⟨_, rfl, hasSort'⟩ := hasRight.univ_cases
      simp only [Phrase.essence, Phrase.univ.injEq] at same ⊢
      exact ih.whole same hasSort hasSort' tame tame'
    | level => exact absurd trivial noLevel
    | _ => simp [Phrase.essence] at same
  | @level bound bound' _ ih => exact .of_leaves ih.leaves
  | @placeholder id arguments arguments' stuck _ ih =>
    refine .of_followsTerms not_false ?_
    intro other _ _ noLevel same hasLeft hasRight tame tame'
    cases other with
    | placeholder id' otherArguments =>
      have stuck' : ∀ next, ¬Unfolds state (.placeholder id' otherArguments) next := by
        intro next unfolds
        obtain ⟨next', unfolds', _⟩ := unfolds.exists_of_essence_eq same.symm not_false
        exact stuck next' unfolds'
      obtain ⟨_, rfl, hasArguments⟩ := hasLeft.placeholder_cases stuck
      obtain ⟨_, rfl, hasArguments'⟩ := hasRight.placeholder_cases stuck'
      simp only [Phrase.essence, Phrase.placeholder.injEq] at same ⊢
      exact ⟨same.1, ih.whole same.2 hasArguments hasArguments' tame tame'⟩
    | level => exact absurd trivial noLevel
    | _ => simp [Phrase.essence] at same
  | @classified sort sort' term term' _ _ _ ihTerm =>
    refine ⟨?_, by simp [Phrase.leaves]⟩
    intro other result result' same hasLeft hasRight tame tame'
    cases other with
    | classified =>
      have hasTerm := hasLeft.term
      have hasTerm' := hasRight.term
      cases result
      cases result'
      simp only [Phrase.essence, Phrase.classified.injEq, true_and] at same ⊢
      exact ihTerm.whole same hasTerm hasTerm' tame tame'
  | @set bound bound' _ ih =>
    refine ⟨?_, by simp [Phrase.leaves]⟩
    intro other _ _ same hasLeft hasRight tame tame'
    cases other with
    | set =>
      obtain ⟨_, rfl, hasBound⟩ := hasLeft.set_cases
      obtain ⟨_, rfl, hasBound'⟩ := hasRight.set_cases
      simp only [Phrase.essence, Phrase.set.injEq] at same ⊢
      exact ih.whole same hasBound hasBound' tame tame'
    | _ => simp [Phrase.essence] at same
  | @sortPlaceholder id arguments arguments' stuck _ ih =>
    refine ⟨?_, by simp [Phrase.leaves]⟩
    intro other _ _ same hasLeft hasRight tame tame'
    cases other with
    | sortPlaceholder id' otherArguments =>
      simp only [Phrase.essence, Phrase.sortPlaceholder.injEq] at same
      obtain ⟨rfl, same⟩ := same
      obtain ⟨_, rfl, hasArguments⟩ := hasLeft.sortPlaceholder_cases stuck
      obtain ⟨_, rfl, hasArguments'⟩ := hasRight.sortPlaceholder_cases stuck
      simp only [Phrase.essence, Phrase.sortPlaceholder.injEq, true_and]
      exact ih.whole same hasArguments hasArguments' tame tame'
    | _ => simp [Phrase.essence] at same
  | @lub constant atoms atoms' bound _ _ _ _ ih =>
    exact .of_leaves_level ih.leaves
  | @atom term term' offset rest rest' _ _ ihTerm ihRest =>
    refine ⟨?_, List.forall_mem_append.2 ⟨ihTerm.leaves, ihRest.leaves⟩⟩
    intro other _ _ same hasLeft hasRight tame tame'
    cases other with
    | atom =>
      obtain ⟨_, _, rfl, hasTerm, hasRest⟩ := hasLeft.atom_cases
      obtain ⟨_, _, rfl, hasTerm', hasRest'⟩ := hasRight.atom_cases
      simp only [Phrase.essence, Phrase.atom.injEq] at same ⊢
      exact ⟨ihTerm.whole same.1 hasTerm hasTerm' tame.2.1 tame'.2.1, same.2.1,
        ihRest.whole same.2.2 hasRest hasRest' tame.2.2 tame'.2.2⟩
    | _ => simp [Phrase.essence] at same
  | @terms first first' rest rest' _ _ ihFirst ihRest =>
    refine ⟨?_, by simp [Phrase.leaves]⟩
    intro other _ _ same hasLeft hasRight tame tame'
    cases other with
    | terms =>
      obtain ⟨_, _, rfl, hasFirst, hasRest⟩ := hasLeft.terms_cases
      obtain ⟨_, _, rfl, hasFirst', hasRest'⟩ := hasRight.terms_cases
      simp only [Phrase.essence, Phrase.terms.injEq] at same ⊢
      exact ⟨ihFirst.whole same.1 hasFirst hasFirst' tame.1 tame'.1,
        ihRest.whole same.2 hasRest hasRest' tame.2 tame'.2⟩
    | _ => simp [Phrase.essence] at same

end Families
