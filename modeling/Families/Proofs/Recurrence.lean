import Families.Proofs.Construction

/-!
# Parameters that recur in indices

While the constructors of a datatype are checked, the parameters that occur in the indices of their
targets are recorded.  If the normal form of a constructor's type has no placeholder when the check
begins, then these are the parameters that occur in the indices of the type that is entered.
-/

namespace Families

/-- The variable occurs in the phrase, outside the sorts of types and the arguments that are
irrelevant. -/
inductive Phrase.Occurs : {category : Category} → Nat → Phrase category → Prop where
  | var (index : Nat) : Occurs index (.var index)
  | function {index : Nat} {function : Term} (argument : Term) (info : ArgInfo) :
      Occurs index function → Occurs index (.app function argument info)
  | argument {index : Nat} (function : Term) {argument : Term} {info : ArgInfo} :
      info.isIrrelevant = false → Occurs index argument → Occurs index (.app function argument info)
  | domain {index : Nat} (name : Name) (info : ArgInfo) {domain : Ty} (codomain : Ty) :
      Occurs index domain → Occurs index (.pi name info domain codomain)
  | codomain {index : Nat} (name : Name) (info : ArgInfo) (domain : Ty) {codomain : Ty} :
      Occurs (index + 1) codomain → Occurs index (.pi name info domain codomain)
  | term {index : Nat} (sort : Universe) {term : Term} :
      Occurs index term → Occurs index (.classified sort term)
  | univ {index : Nat} {sort : Universe} : Occurs index sort → Occurs index (.univ sort)
  | set {index : Nat} {bound : Level} : Occurs index bound → Occurs index (.set bound)
  | level {index : Nat} {bound : Level} : Occurs index bound → Occurs index (.level bound)
  | lub {index : Nat} (constant : Nat) {atoms : Phrase .atoms} :
      Occurs index atoms → Occurs index (.lub constant atoms)
  | atom {index : Nat} {term : Term} (offset : Nat) (rest : Phrase .atoms) :
      Occurs index term → Occurs index (.atom term offset rest)
  | atoms {index : Nat} (term : Term) (offset : Nat) {rest : Phrase .atoms} :
      Occurs index rest → Occurs index (.atom term offset rest)
  | placeholder {index : Nat} (id : Nat) {arguments : Phrase .terms} :
      Occurs index arguments → Occurs index (.placeholder id arguments)
  | sortPlaceholder {index : Nat} (id : Nat) {arguments : Phrase .terms} :
      Occurs index arguments → Occurs index (.sortPlaceholder id arguments)
  | first {index : Nat} {first : Term} (rest : Phrase .terms) :
      Occurs index first → Occurs index (.terms first rest)
  | rest {index : Nat} (first : Term) {rest : Phrase .terms} :
      Occurs index rest → Occurs index (.terms first rest)

/-- The variables that are collected are those that occur. -/
theorem Phrase.mem_freeFrom_iff_occurs {category : Category} {phrase : Phrase category}
    {index depth : Nat} :
    index ∈ phrase.freeFrom .outsideAnnotations depth ↔ phrase.Occurs (index + depth) := by
  constructor
  · intro present
    induction phrase generalizing depth with
    | var free =>
      simp only [freeFrom] at present
      split at present
      · obtain rfl := List.mem_singleton.1 present
        rw [Nat.sub_add_cancel ‹_›]
        exact .var free
      · cases present
    | app function argument info ihFunction ihArgument =>
      simp only [freeFrom, true_and, List.mem_append] at present
      rcases present with inFunction | inArgument
      · exact .function _ _ (ihFunction inFunction)
      · split at inArgument
        · cases inArgument
        · rename_i relevant
          exact .argument _ (Bool.eq_false_iff.2 relevant) (ihArgument inArgument)
    | pi name info domain codomain ihDomain ihCodomain =>
      rcases List.mem_append.1 present with inDomain | inCodomain
      · exact .domain _ _ _ (ihDomain inDomain)
      · exact .codomain _ _ _ (ihCodomain inCodomain)
    | classified sort term _ ih => exact .term _ (ih (by simpa [freeFrom] using present))
    | atom term offset rest ihTerm ihRest =>
      rcases List.mem_append.1 present with inTerm | inRest
      · exact .atom _ _ (ihTerm inTerm)
      · exact .atoms _ _ (ihRest inRest)
    | terms first rest ihFirst ihRest =>
      rcases List.mem_append.1 present with inFirst | inRest
      · exact .first _ (ihFirst inFirst)
      · exact .rest _ (ihRest inRest)
    | univ _ ih | level _ ih | set _ ih | lub _ _ ih | placeholder _ _ ih
    | sortPlaceholder _ _ ih =>
      constructor
      exact ih present
    | _ => cases present
  · intro occurs
    generalize isFree : index + depth = free at occurs
    induction occurs generalizing depth with
    | var free => simp [freeFrom, ← isFree]
    | codomain _ _ _ _ ih => exact List.mem_append_right _ (ih (by omega))
    | argument _ relevant _ ih => simp [freeFrom, relevant, ih isFree]
    | _ => simp_all [freeFrom]

/-- A parameter of a datatype recurs in a constructor: it occurs in an index of the target of the
constructor's type, which is normal. -/
def Recurs (state : State) (datatype : Datatype) (position : Nat) (path : Path)
    (constructor : Constructor) : Prop :=
  ∃ ty target, state.signature.get? path = some ⟨⟨path, ty, .constructor constructor⟩, .complete⟩ ∧
    ty.term.codomain? (datatype.parameters + constructor.arity) = some target ∧
    HasNormalForm state target target ∧
    ∃ index ∈ target.arguments.drop datatype.parameters,
      index.2.Occurs (constructor.arity + datatype.parameters - 1 - position)

namespace FunctionChain

variable {ty target : Ty} {telescope : Telescope}

theorem codomain?_eq (chain : FunctionChain ty telescope target) :
    ty.term.codomain? telescope.length = some target.term := by
  induction chain with
  | nil => rfl
  | cons _ ih => exact ih

/-- The end of a normal chain without placeholders is normal and without placeholders. -/
theorem isNormal {state : State} {depth : Nat}
    (chain : FunctionChain ty telescope target) (isNormal : IsNormal state ty)
    (ground : ty.Scoped (fun _ _ _ => False) depth) :
    IsNormal state target ∧ ∃ depth, target.Scoped (fun _ _ _ => False) depth := by
  induction chain generalizing depth with
  | nil => exact ⟨isNormal, depth, ground⟩
  | cons _ ih => exact ih isNormal.2.2 ground.2.2

end FunctionChain

namespace CheckM

open Checker

variable {before after : Checker} {head : DataHead} {path : Path} {fuel : Nat}

/-- A walk along a type whose normal form has no placeholders meets none of them.  It ends at the
end of the normal form, and changes nothing but the scope. -/
theorem chain_of_ground {walked count depth : Nat} {current normal : Ty} {target : Term}
    (yields : Yields (walkToTarget head path fuel walked current.term) before (count, target) after)
    (wellScoped : before.state.WellScoped) (inScope : current.Scoped before.state.Fits depth)
    (hasNormalForm : HasNormalForm before.state current normal) (ground : normal.Ground) :
    after.state = before.state ∧ (∃ depth, target.Scoped before.state.Fits depth) ∧
      ∃ telescope last, FunctionChain normal telescope last ∧ count = walked + telescope.length ∧
        HasNormalForm before.state target last.term := by
  induction fuel generalizing before walked current normal depth with
  | zero => exact absurd yields not_yields_halt
  | succ fuel ih =>
    simp only [walkToTarget, yields_bind_iff, yields_reduce_iff] at yields
    obtain ⟨reduced, _, ⟨isReduced, rfl⟩, yields⟩ := yields
    obtain ⟨reduces, reducedInScope⟩ := reduces_of_reduce wellScoped isReduced inScope.term
    have hasReduced := hasNormalForm.term.of_rewrites (.of_parallel reduces.parallel)
    have inert := reduces.inert
    obtain ⟨function, isNormal⟩ : ∃ function, normal = .classified normal.sort function := by
      cases normal
      exact ⟨_, rfl⟩
    rw [isNormal] at hasReduced ground ⊢
    obtain ⟨_, _, functionGround⟩ := ground
    split at yields
    · rename_i name info domain codomain
      simp only [yields_bind_iff, yields_push_iff] at yields
      obtain ⟨_, _, rfl, yields⟩ := yields
      obtain ⟨domain', codomain', isPi, _, hasCodomain⟩ := hasReduced.pi_cases
      obtain rfl : function = .pi name info domain' codomain' := isPi
      obtain ⟨sameState, targetInScope, telescope, last, chain, isCount, hasTarget⟩ :=
        ih yields wellScoped reducedInScope.2 hasCodomain ⟨_, functionGround.2⟩
      refine ⟨sameState, targetInScope, _, last, .cons chain, ?_, hasTarget⟩
      rw [isCount, List.length_cons]
      omega
    · -- A placeholder would stay in the normal form.
      change HasNormalForm _ _ function at hasReduced
      cases hasReduced with
      | step unfolds _ => exact absurd unfolds inert.not_unfolds
      | atomic isAtomic _ => exact isAtomic.elim
      | placeholder _ _ => exact functionGround.1.elim
    · obtain ⟨isReached, rfl⟩ := yields_pure_iff.1 yields
      obtain ⟨rfl, rfl⟩ := Prod.mk.inj isReached
      exact ⟨rfl, ⟨_, reducedInScope⟩, [], _, .nil _, rfl, hasReduced⟩

/-- What the type of a constructor has to be like for its recurring parameters to be found
exactly. -/
def HasGroundForm (declaration : ConstructorDeclaration) (checker : Checker) : Prop :=
  let elaborated := (enterPath declaration.name >>= fun _ => elaborateType declaration.ty).run
    checker
  ∀ written, elaborated.result = .ok written →
    ∃ fuel normal, Families.normalise elaborated.state.state fuel written = .ok normal ∧
      normal.Ground

/-- The parameters that are found with a constructor are those that recur in it. -/
theorem Constructs.mem_nonLinear_iff {ty shape : Ty} {declaration : ConstructorDeclaration}
    {nonLinear : List Nat} {constructor : Constructor} {found fitted : Checker}
    (constructs : Constructs head ty declaration nonLinear before after path constructor shape found
      fitted)
    (hasGroundForm : HasGroundForm declaration before) :
    ∃ target, shape.term.codomain? constructor.arity = some target ∧
      (∀ {later : State}, found.state.Advances later → HasNormalForm later target target) ∧
      ∀ position, position ∈ nonLinear ↔ position < head.parameters.length ∧
        ∃ index ∈ target.arguments.drop head.parameters.length,
          index.2.Occurs (constructor.arity + head.parameters.length - 1 - position) := by
  obtain ⟨written, elaborated, isElaborated, wellScoped, inScope, isTargeted, normalised⟩ :=
    constructs.written
  obtain ⟨fuel, normal, isNormal, ground⟩ := hasGroundForm written isElaborated.1
  rw [isElaborated.2] at isNormal
  obtain ⟨inner, isChecked, rfl⟩ := yields_restoreScope_iff.1 isTargeted
  have grows := ((built_checkTarget head path written).learns isChecked).state.grows
  obtain ⟨normalises, normalInScope⟩ := normalises_of_normalise wellScoped.state isNormal inScope
  have foundWellScoped := constructs.opened.wellScoped.state
  obtain ⟨shapeNormalises, _⟩ :=
    normalises_of_normalise foundWellScoped normalised (grows.scoped inScope)
  obtain rfl := eq_of_ground_normal wellScoped.state inScope isNormal ground grows
    shapeNormalises.hasNormalForm
  obtain ⟨walked, target, middle, last, isWalked, lastNormalised, isConst, exactly⟩ :=
    exists_of_checkTarget isChecked
  obtain ⟨sameState, ⟨_, targetInScope⟩, telescope, ending, chain, isCount, hasTarget⟩ :=
    chain_of_ground isWalked wellScoped.state inScope normalises.hasNormalForm ground
  obtain rfl := isCount.trans (Nat.zero_add _)
  rw [sameState] at lastNormalised
  obtain rfl : ending.term = last := hasTarget.deterministic
    (normalises_of_normalise wellScoped.state lastNormalised targetInScope).1.hasNormalForm
  have arity := constructs.arity chain isConst
  refine ⟨ending.term, arity ▸ chain.codomain?_eq, ?_, fun position => ?_⟩
  · intro later advances
    obtain ⟨depth, groundInScope⟩ := ground
    obtain ⟨isNormal, _, endingGround⟩ :=
      chain.isNormal normalises.isNormal groundInScope
    exact (isNormal.hasNormalForm_self endingGround (grows.advances.trans advances).body).term
  · rw [arity]
    simpa only [Phrase.mem_freeFrom_iff_occurs, Nat.add_zero] using exactly position

namespace DataStages

variable {definition : DataDefinition} {ty : Ty} {indices : Telescope} {opened closed : Checker}
variable {answers : List (Path × Constructor × List Nat)} {certified : CertifiedDatatype}

/-- The parameters that are found with one of the constructors are those that recur in it. -/
theorem mem_nonLinear_iff {number position : Nat} {answer : Path × Constructor × List Nat}
    (stages : DataStages definition before head ty indices opened answers closed certified after)
    (isAnswer : answers[number]? = some answer)
    (hasGroundForm : ∀ declaration, definition.constructors[number]? = some declaration →
      HasGroundForm declaration ((checkDataUpTo definition number).run before).state) :
    position ∈ answer.2.2 ↔ position < certified.datatype.parameters ∧
      Recurs after.state certified.datatype position answer.1 answer.2.1 := by
  obtain ⟨path, constructor, nonLinear⟩ := answer
  have present : certified.constructors[number]? = some (path, constructor) := by
    rw [stages.completes.constructors, List.getElem?_map, isAnswer, Option.map_some]
  obtain ⟨declaration, _, first, second, shape, found, fitted, isDeclared, isSame, rfl, rfl,
    constructs, _, _, toFinal, entry⟩ := stages.constructor present
  obtain ⟨⟨⟩⟩ := isAnswer.symm.trans isSame
  obtain ⟨target, ends, isNormal, exactly⟩ :=
    constructs.mem_nonLinear_iff (hasGroundForm declaration isDeclared)
  have length : (head.parameters.withPlicity .implicit).length = certified.datatype.parameters := by
    rw [stages.completes.parameters, Telescope.withPlicity, List.length_map]
  have whole : ((head.parameters.withPlicity .implicit).toPi shape).term.codomain?
      (certified.datatype.parameters + constructor.arity) = some target := by
    rw [← length, Telescope.codomain?_toPi, ends]
  have fitting := ((built_checkFits _ _ _ _).consults constructs.fits).learns.state.grows.advances
  have advances := (fitting.trans constructs.advances).trans toFinal
  rw [exactly, ← stages.completes.parameters]
  refine and_congr_right fun _ => ⟨fun occurs => ?_, ?_⟩
  · exact ⟨_, target, entry, whole, isNormal advances, occurs⟩
  · rintro ⟨_, _, entry', whole', _, occurs⟩
    obtain ⟨⟨⟩⟩ := entry.symm.trans entry'
    obtain rfl := Option.some.inj (whole.symm.trans whole')
    exact occurs

end DataStages

/-- The parameters of a datatype that are recorded as recurring are parameters.  If the type of each
constructor had a normal form without placeholders when it was elaborated, then they are those that
recur in a constructor. -/
theorem nonLinear_iff_recurs {checker : Checker} {definition : DataDefinition}
    {certified : CertifiedDatatype} (reachable : Reachable checker)
    (topLevel : checker.context = [])
    (accepted : ((checkDeclaration (.data definition)).run checker).result = .ok (some certified)) :
    (∀ position ∈ certified.datatype.nonLinearParameters.toList,
      position < certified.datatype.parameters) ∧
    ((∀ number declaration, definition.constructors[number]? = some declaration →
        HasGroundForm declaration ((checkDataUpTo definition number).run checker).state) →
      ∀ position, position ∈ certified.datatype.nonLinearParameters.toList ↔
        position < certified.datatype.parameters ∧ ∃ path constructor,
          (path, constructor) ∈ certified.constructors ∧
            Recurs ((checkDeclaration (.data definition)).run checker).state.state
              certified.datatype
              position path constructor) := by
  obtain ⟨head, signature, indices, opened, answers, closed, stages⟩ :=
    dataStages_of_checkData reachable.wellScoped topLevel (yields_checkData_of_accepted accepted)
  have recorded : ∀ position, position ∈ certified.datatype.nonLinearParameters.toList ↔
      ∃ answer ∈ answers, position ∈ answer.2.2 := by
    intro position
    rw [stages.completes.nonLinear, Positions.mem_ofList, List.mem_flatMap]
  constructor
  · cases enters_checkDeclaration (.of_result accepted) with
    | datatype adds _ _ => exact adds.nonLinear
  · intro hasGroundForm position
    rw [recorded]
    constructor
    · rintro ⟨answer, isAnswer, found⟩
      obtain ⟨number, isAnswer⟩ := List.mem_iff_getElem?.1 isAnswer
      obtain ⟨bounded, recurs⟩ := (stages.mem_nonLinear_iff isAnswer (hasGroundForm number)).1 found
      refine ⟨bounded, answer.1, answer.2.1, ?_, recurs⟩
      rw [stages.completes.constructors]
      exact List.mem_map.2 ⟨answer, List.mem_of_getElem? isAnswer, rfl⟩
    · rintro ⟨bounded, path, constructor, present, recurs⟩
      rw [stages.completes.constructors] at present
      obtain ⟨answer, isAnswer, ⟨⟩⟩ := List.mem_map.1 present
      obtain ⟨number, found⟩ := List.mem_iff_getElem?.1 isAnswer
      exact ⟨answer, isAnswer, (stages.mem_nonLinear_iff found (hasGroundForm number)).2
        ⟨bounded, recurs⟩⟩

theorem nonLinear_iff_recurs_equality :
    let element : Expr := .var "A"
    let arguments := [(.explicit, element), (.explicit, .var "a"), (.explicit, .var "a")]
    let same : ConstructorDeclaration := { name := "same", ty := .app (.const "Equal") arguments }
    let definition : DataDefinition :=
      { name := "Equal"
        ty := some (.pi "A" {} (.set 0) (.pi "a" {} element (.arrow element (.set 0))))
        parameters := [{ name := "A" }, { name := "a" }]
        constructors := [same] }
    let checker := Checker.initial {} .patterns 40
    let checked := (checkDeclaration (.data definition)).run checker
    let datatype : Datatype :=
      ⟨2, 1, Universe.ofNat 0, .ind, [⟨3⟩], .ofList [1], .ofList [1], true⟩
    let certified : CertifiedDatatype := ⟨⟨2⟩, datatype, [(⟨3⟩, ⟨⟨2⟩, 2, 0, .ind, []⟩)]⟩
    Reachable checker ∧ checked.result = .ok (some certified) ∧
      ∀ position, position ∈ [1] ↔ position < 2 ∧ ∃ path constructor,
        (path, constructor) ∈ certified.constructors ∧
          Recurs checked.state.state datatype position path constructor := by
  intro element arguments same definition checker checked datatype certified
  have reachable : Reachable checker := .initial {} .patterns 40
  have accepted : checked.result = .ok (some certified) := by decide +kernel
  refine ⟨reachable, accepted, ?_⟩
  unfold checked
  refine (nonLinear_iff_recurs reachable rfl accepted).2 ?_
  rintro (_ | number) declaration ⟨⟩
  let target : Ty := .classified (Universe.ofNat 0)
    (.app (.app (.app (.const ⟨2⟩) (.var 1) {}) (.var 0) {}) (.var 0) {})
  have isTarget : ((enterPath same.name >>= fun _ => elaborateType same.ty).run
      ((checkDataUpTo definition 0).run checker).state).result = .ok target := by decide +kernel
  intro written isWritten
  obtain rfl := Except.ok.inj (isTarget.symm.trans isWritten)
  exact ⟨40, target, by decide +kernel, Phrase.ground_iff.2 rfl⟩

/-- The type `H A B` of a constructor need not hold a placeholder when it is elaborated, but its
normal form `D _ _ (f _)` may.  Both parameters are then recorded, although the target that is
compared with it makes that normal form `D A B (f A)`, in which only the first recurs. -/
theorem unsolved_target_recurs :
    let arguments (names : List String) := names.map fun name => (ArgMode.explicit, Expr.var name)
    let sets : Expr := .arrow (.set 0) (.arrow (.set 0) (.set 0))
    let index : Expr := .app (.const "f") (arguments ["X"])
    let checker := ((Call.check
      [ .postulate "I" (.set 0),
        .postulate "f" (.arrow (.set 0) (.const "I")),
        .dataSignature "D" (.pi "A" {} (.set 0)
          (.pi "B" {} (.set 0) (.arrow (.const "I") (.set 0)))),
        .function "K" sets ["X", "Y"]
          (some (.app (.const "D") (arguments ["X", "Y"] ++ [(.explicit, index)]))),
        .function "H" sets ["A", "B"]
          (some (.app (.const "K") [(.explicit, .hole), (.explicit, .hole)])) ]).computation.run
      (Checker.initial {} .patterns 40)).state
    let ty : Expr := .app (.const "H") (arguments ["A", "B"])
    let definition : DataDefinition :=
      { name := "D"
        parameters := [{ name := "A" }, { name := "B" }]
        constructors := [{ name := "c", ty }] }
    let checked := (checkDeclaration (.data definition)).run checker
    let datatype : Datatype :=
      ⟨2, 1, Universe.ofNat 0, .ind, [⟨7⟩], .ofList [], .ofList [0, 1], true⟩
    let constructor : Constructor := ⟨⟨4⟩, 2, 0, .ind, []⟩
    Reachable checker ∧
      (∃ written : Ty, ((enterPath "c" >>= fun _ => elaborateType ty).run
        ((checkDataUpTo definition 0).run checker).state).result = .ok written ∧ written.Ground) ∧
      checked.result = .ok (some ⟨⟨4⟩, datatype, [(⟨7⟩, constructor)]⟩) ∧
      ¬Recurs checked.state.state datatype 1 ⟨7⟩ constructor := by
  intro arguments sets index checker ty definition checked datatype constructor
  let written : Ty := .classified (Universe.ofNat 0)
    (.app (.app (.const ⟨6⟩) (.var 1) {}) (.var 0) {})
  refine ⟨.ends (.initial {} .patterns 40) (.check _) rfl,
    ⟨written, by decide +kernel, Phrase.ground_iff.2 rfl⟩, by decide +kernel, ?_⟩
  let target : Term := .app (.app (.app (.const ⟨4⟩) (.var 1) {}) (.var 0) {})
    (.app (.const ⟨3⟩) (.var 1) {}) {}
  have isTarget : (checked.state.state.signature.get? ⟨7⟩).bind
      (·.definition.ty.term.codomain? 2) = some target := by decide +kernel
  rintro ⟨_, _, entry, ends, -, _, present, occurs⟩
  rw [entry] at isTarget
  obtain rfl := Option.some.inj (isTarget.symm.trans ends)
  obtain rfl := List.mem_singleton.1 present
  change Phrase.Occurs 0 _ at occurs
  cases occurs with
  | function _ _ inFunction => cases inFunction
  | argument _ _ inArgument => cases inArgument

end CheckM
end Families
