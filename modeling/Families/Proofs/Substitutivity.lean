import Families.Proofs.Completeness
import Families.Proofs.DatatypeStages
import Families.Proofs.Reachability
import Families.Proofs.Stillness

/-!
# Conversion is stable under substitution

Terms that were found equal are found equal again when a term is substituted for a variable in both,
provided that nothing was disregarded that the substitution brings to light.  Three things are: an
argument that was skipped as irrelevant, a level that consists of a function and is applied, and the
names and annotations in the atoms of levels, which are compared as they stand.
-/

namespace Families

open Filter

/-! ## Steps after a substitution -/

variable {state : State} {category : Category}

theorem Rewrites.replace_phrase {phrase result : Phrase category}
    (rewrites : Rewrites state phrase result) (images : Nat → Term) :
    Rewrites state (phrase.replace images) (result.replace images) :=
  rewrites.map fun parallel => parallel.replace_phrase images

/-- The instance of a term has the normal form of the instance of its normal form. -/
theorem Normalises.hasNormalForm_replace {phrase normal result : Phrase category}
    {images : Nat → Term} (normalises : Normalises state phrase normal)
    (hasNormalForm : HasNormalForm state (phrase.replace images) result) :
    HasNormalForm state (normal.replace images) result :=
  hasNormalForm.of_rewrites (normalises.rewrites.replace_phrase images)

/-! ## Agreement without irrelevant arguments -/

/-- No application is marked irrelevant, except in levels and in the sorts of types. -/
def Phrase.Relevant : {category : Category} → Phrase category → Prop
  | _, .app function argument info =>
    info.isIrrelevant = false ∧ function.Relevant ∧ argument.Relevant
  | _, .pi _ _ domain codomain => domain.Relevant ∧ codomain.Relevant
  | _, .classified _ term => term.Relevant
  | _, _ => True

theorem Phrase.Relevant.term {ty : Ty} (relevant : ty.Relevant) : ty.term.Relevant := by
  cases ty
  exact relevant

/-- Terms agree up to more where nothing is skipped on the left. -/
theorem AgreesUpTo.whole {left right : Term}
    {same same' : ∀ {category : Category}, Phrase category → Phrase category → Prop}
    (agrees : AgreesUpTo ArgInfo.isIrrelevant same left right)
    (implies : ∀ {category : Category} {left right : Phrase category}, same left right →
      same' left right) (relevant : left.Relevant) :
    AgreesUpTo (fun _ => false) same' left right := by
  induction agrees with
  | refl => exact .refl _
  | app _ _ ihFunction ihArgument =>
    exact .app (ihFunction relevant.2.1) fun _ => ihArgument relevant.1 relevant.2.2
  | pi samePlicity _ _ ihDomain ihCodomain =>
    exact .pi samePlicity (ihDomain relevant.1.term) (ihCodomain relevant.2.term)
  | univ sorts => exact .univ (implies sorts)
  | level levels => exact .level (implies levels)
  | wrapped => exact .wrapped _
  | unwrapped => exact .unwrapped _

/-! ## Comparisons of instances -/

/-- The instance of a phrase without placeholders at a term without placeholders is in scope and has
none. -/
theorem Phrase.Ground.scoped_instantiate? {fits : Category → Nat → Nat → Prop} {depth : Nat}
    {phrase result : Phrase category} {argument : Term} (ground : phrase.Ground)
    (inScope : phrase.Scoped fits (depth + 1)) (argumentGround : argument.Ground)
    (argumentInScope : argument.Scoped fits depth)
    (instantiated : phrase.instantiate? argument = some result) :
    result.Scoped (fun _ _ _ => False) depth :=
  (inScope.ground_iff.2 (ground_iff.1 ground)).instantiate?
    (argumentInScope.ground_iff.2 (ground_iff.1 argumentGround)) instantiated

/-- Terms without placeholders that were found equal have normal forms that agree. -/
theorem CheckM.agrees_of_equalTerm {checker : Checker} {left right leftNormal rightNormal : Term}
    (wellScoped : checker.WellScoped) (ground : checker.state.Ground) (leftGround : left.Ground)
    (rightGround : right.Ground) (leftInScope : checker.InScope left)
    (rightInScope : checker.InScope right)
    (equal : ((equalTerm left right).run checker).result = .ok ())
    (hasLeft : HasNormalForm checker.state left leftNormal)
    (hasRight : HasNormalForm checker.state right rightNormal) : Agrees leftNormal rightNormal := by
  obtain ⟨state, compared, isLast⟩ := yields_equalTerm_iff.1 (Yields.of_result equal)
  obtain rfl := ConvM.eq_of_equalTerm ground leftGround rightGround compared
  have same : ((equalTerm left right).run checker).state.state = checker.state := by rw [← isLast]
  have decides := (steady_equalTerm wellScoped leftInScope rightInScope).answer () equal
  rw [same] at decides
  exact decides rfl (State.Grows.refl _).resolves hasLeft hasRight

/-- If two terms under a variable are found equal, so are their instances at any term, where the
normal forms exist.  The comparison of the terms must not have skipped an argument.  In the normal
forms of the instances no level may be applied, and no two atoms of levels may have the same
essence. -/
theorem equalTerm_instances
    {checker : Checker}
    {domain : Domain}
    {left right argument : Term}
    {leftNormal rightNormal leftInstance rightInstance leftResult rightResult : Term}
    {fuel : Nat}
    {atoms : Set Term}
    (reachable : Reachable { checker with context := domain :: checker.context })
    (ground : checker.state.Ground)
    (leftGround : left.Ground)
    (rightGround : right.Ground)
    (argumentGround : argument.Ground)
    (leftInScope : checker.InScopeUnder 1 left)
    (rightInScope : checker.InScopeUnder 1 right)
    (argumentInScope : checker.InScope argument)
    (equal : ((CheckM.equalTerm left right).run
      { checker with context := domain :: checker.context }).result = .ok ())
    (leftNormalised : normalise checker.state fuel left = .ok leftNormal)
    (rightNormalised : normalise checker.state fuel right = .ok rightNormal)
    (relevant : leftNormal.Relevant)
    (isLeft : left.instantiate? argument = some leftInstance)
    (isRight : right.instantiate? argument = some rightInstance)
    (leftReached : normalise checker.state fuel leftInstance = .ok leftResult)
    (rightReached : normalise checker.state fuel rightInstance = .ok rightResult)
    (leftTame : leftResult.Tame atoms)
    (rightTame : rightResult.Tame atoms)
    (apart : Set.InjOn Phrase.essence atoms) :
    ∀ᶠ fuel in atTop,
      ((CheckM.equalTerm leftInstance rightInstance).run { checker with fuel }).result = .ok () ∧
        ((CheckM.equalTerm leftInstance rightInstance).run { checker with fuel }).state =
          { checker with fuel } := by
  have wellScoped : checker.state.WellScoped := reachable.wellScoped.state
  have leftNormalises := (normalises_of_normalise wellScoped leftNormalised leftInScope).1
  have rightNormalises := (normalises_of_normalise wellScoped rightNormalised rightInScope).1
  have agrees := CheckM.agrees_of_equalTerm reachable.wellScoped ground leftGround rightGround
    leftInScope rightInScope equal leftNormalises.hasNormalForm rightNormalises.hasNormalForm
  have reached : ∀ {phrase normal result : Term},
      Normalises checker.state phrase normal →
      (phrase.replace (Phrase.assigned [argument])).Scoped (fun _ _ _ => False)
        checker.context.length →
      normalise checker.state fuel (phrase.replace (Phrase.assigned [argument])) = .ok result →
      HasNormalForm checker.state (normal.replace (Phrase.assigned [argument])) result := by
    intro phrase normal result normalises inScope isResult
    exact normalises.hasNormalForm_replace (wellScoped.hasNormalForm_of_ground inScope isResult)
  have leftScoped := leftGround.scoped_instantiate? leftInScope argumentGround argumentInScope
    isLeft
  have rightScoped :=
    rightGround.scoped_instantiate? rightInScope argumentGround argumentInScope isRight
  obtain rfl := Phrase.eq_replace_of_instantiate? isLeft
  obtain rfl := Phrase.eq_replace_of_instantiate? isRight
  have resembles : Resembles leftNormal rightNormal := agrees.whole (congrArg _) relevant
  have normalScoped : (leftNormal.replace (Phrase.assigned [argument])).Scoped
      (fun _ _ _ => False) checker.context.length := by
    have inScope := (normalises_of_normalise wellScoped leftNormalised leftInScope).2
    have normalGround := Phrase.ground_iff.1 (ground.normalise leftNormalised leftGround)
    refine (inScope.ground_iff.2 normalGround).replace fun index bounded => ?_
    cases index with
    | zero => exact argumentInScope.ground_iff.2 (Phrase.ground_iff.1 argumentGround)
    | succ index => exact Nat.lt_of_succ_lt_succ bounded
  have resembles : Resembles leftResult rightResult :=
    (reached leftNormalises leftScoped leftReached).similar
      (reached rightNormalises rightScoped rightReached) ground normalScoped
      (resembles.replace (Phrase.assigned [argument])) leftTame rightTame
  filter_upwards [ConvM.eventually_confirms_equalTerm (matching_resembles apart) wellScoped ground
    leftScoped rightScoped leftReached rightReached] with fuel confirms
  refine CheckM.yields_equalTerm_iff.2 ⟨checker.state, ?_, rfl⟩
  exact confirms.yields ⟨resembles, leftTame, rightTame⟩

/-- A set with a point and a function, the function done twice, and levels over the set. -/
def doubling : List Declaration :=
  let points : Expr := .const "T"
  let apply (function : String) (argument : Expr) : Expr :=
    .app (.const function) [(.explicit, argument)]
  [ .postulate "T" (.set 0),
    .postulate "c" points,
    .postulate "d" (.arrow points points),
    .postulate "height" (.arrow points (.const "Level")),
    .function "double" (.arrow points points) ["z"] (some (apply "d" (apply "d" (.var "z")))),
    .function "above" (.arrow points (.const "Level")) ["z"]
      (some (.levelSuc (apply "height" (.var "z")))) ]

/-- The checker after these declarations. -/
def doubled : Checker :=
  ((CheckM.checkDeclarations doubling).run (Checker.initial {} .patterns 40)).state

/-- A variable function from the set to levels. -/
def heights : Domain where
  name := ⟨0⟩
  info := {}
  ty := .classified (Universe.ofNat 0) (.pi ⟨0⟩ {} (.classified (Universe.ofNat 0) (.const ⟨2⟩))
    (.classified (Universe.ofNat 0) (.const Path.level)))

/-- A function done twice is found equal to its double also where a level is made of both. -/
theorem equalTerm_instances_double :
    let once (term : Term) : Term := .app (.const ⟨4⟩) term {}
    let left (function : Term) : Term := .app function (.app (.const ⟨6⟩) (.const ⟨3⟩) {}) {}
    let right (function : Term) : Term := .app function (once (once (.const ⟨3⟩))) {}
    let height : Term := .app (.const ⟨5⟩) (once (once (.const ⟨3⟩))) {}
    ((CheckM.equalTerm (left (.var 0)) (right (.var 0))).run
        { doubled with context := [heights] }).result = .ok () ∧
      normalise doubled.state 40 (left (.const ⟨7⟩)) =
        .ok (.level (.lub 0 (.atom height 1 .noAtoms))) ∧
      ∀ᶠ fuel in atTop,
        ((CheckM.equalTerm (left (.const ⟨7⟩)) (right (.const ⟨7⟩))).run
          { doubled with fuel }).result = .ok () ∧
        ((CheckM.equalTerm (left (.const ⟨7⟩)) (right (.const ⟨7⟩))).run
          { doubled with fuel }).state = { doubled with fuel } := by
  intro once left right height
  have heightsInScope : Checker.InScope doubled heights.ty :=
    ⟨Universe.scoped_ofNat 0 0, ⟨Universe.scoped_ofNat 0 0, trivial⟩, Universe.scoped_ofNat 0 1,
      trivial⟩
  have reachable : Reachable { doubled with context := [heights] } :=
    .binds (.ends (.initial {} .patterns 40) (.check doubling) rfl) heightsInScope
  have equal : ((CheckM.equalTerm (left (.var 0)) (right (.var 0))).run
      { doubled with context := [heights] }).result = .ok () := by decide +kernel
  have leftReached : normalise doubled.state 40 (left (.const ⟨7⟩)) =
      .ok (.level (.lub 0 (.atom height 1 .noAtoms))) := by decide +kernel
  have tame : (Phrase.level (.lub 0 (.atom height 1 .noAtoms))).Tame {height} := by
    simp [Phrase.Tame, Phrase.IsLevel, height, once]
  refine ⟨equal, leftReached, ?_⟩
  exact @equalTerm_instances doubled heights (left (.var 0)) (right (.var 0)) (.const ⟨7⟩)
    (right (.var 0)) (right (.var 0)) (left (.const ⟨7⟩)) (right (.const ⟨7⟩)) _ _ 40 {height}
    reachable (by decide +kernel) (Phrase.ground_iff.2 (by rfl)) (Phrase.ground_iff.2 (by rfl))
    (Phrase.ground_iff.2 (by rfl)) ⟨Nat.one_pos, trivial, trivial⟩
    ⟨Nat.one_pos, trivial, trivial, trivial⟩ trivial equal (by decide +kernel) (by decide +kernel)
    ⟨rfl, trivial, rfl, trivial, rfl, trivial, trivial⟩ rfl rfl leftReached (by decide +kernel)
    tame tame (Set.injOn_singleton _ _)

/-- A set with two points, and a function that returns an argument declared irrelevant. -/
def picking : List Declaration :=
  let points : Expr := .const "T"
  [ .postulate "T" (.set 0),
    .postulate "a" points,
    .postulate "b" points,
    .function "pick" (.pi "n" { relevance := .irrelevant } points points) ["n"] (some (.var "n")) ]

/-- The applications of a variable to two irrelevant arguments are equal.  The instances at the
function that returns its argument are not. -/
theorem irrelevant_instances_differ :
    let checker := ((CheckM.checkDeclarations picking).run (Checker.initial {} .patterns 40)).state
    let points : Ty := .classified (Universe.ofNat 0) (.const ⟨2⟩)
    let pick : Term := .const ⟨5⟩
    let domain : Ty :=
      .classified (Universe.ofNat 0) (.pi ⟨0⟩ { relevance := .irrelevant } points points)
    let inner : Checker := { checker with context := [⟨⟨0⟩, {}, domain⟩] }
    let left (function : Term) : Term := .app function (.const ⟨3⟩) { relevance := .irrelevant }
    let right (function : Term) : Term := .app function (.const ⟨4⟩) { relevance := .irrelevant }
    Reachable inner ∧ checker.state.placeholders = [] ∧
      ((CheckM.infer (left (.var 0))).run inner).result = .ok points.term ∧
      ((CheckM.infer (right (.var 0))).run inner).result = .ok points.term ∧
      ((CheckM.equalTerm (left (.var 0)) (right (.var 0))).run inner).result = .ok () ∧
      ((CheckM.infer pick >>= (CheckM.equalTerm · domain.term)).run checker).result = .ok () ∧
      (left (.var 0)).instantiate? pick = some (left pick) ∧
      (right (.var 0)).instantiate? pick = some (right pick) ∧
      normalise checker.state 40 (left pick) = .ok (.const ⟨3⟩) ∧
      normalise checker.state 40 (right pick) = .ok (.const ⟨4⟩) ∧
      ((CheckM.equalTerm (left pick) (right pick)).run checker).result =
        .error (.error (.conversion (.unequalTerms (.const ⟨3⟩) (.const ⟨4⟩)))) := by
  intro checker points pick domain inner left right
  have domainInScope : checker.InScope domain :=
    ⟨Universe.scoped_ofNat 0 0, ⟨Universe.scoped_ofNat 0 0, trivial⟩, Universe.scoped_ofNat 0 1,
      trivial⟩
  refine ⟨.binds (.ends (.initial {} .patterns 40) (.check picking) rfl) domainInScope, ?_⟩
  decide +kernel

end Families
