import Families.Proofs.Certification
import Families.Proofs.Targets

/-!
# Constructors construct their datatype

The type that a constructor is registered with takes the parameters of its datatype as implicit
arguments, then its own arguments, and ends in the datatype applied to those parameters and to
indices.  The check shows this of the type as it was written and of the state at that time; since a
later state only unfolds more, the same holds of the normal form that is found in the end.  The
sort that is stored with a type is not covered by this.
-/

namespace Families

variable {path : Path} {state : State} {certified : CertifiedDatatype} {definition : DataDefinition}

/-! ## Targets in normal form -/

/-- Only a variable agrees with a variable, as a term or as a level. -/
theorem Agrees.var_cases {term : Term} {index : Nat} (agrees : Agrees term (.var index)) :
    term = .var index ∨ term = .level (Level.ofParts 0 [⟨.var index, 0⟩]) := by
  cases agrees with
  | refl => exact .inl rfl
  | unwrapped => exact .inr rfl

/-- What agrees with a variable is in normal form. -/
theorem HasNormalForm.eq_of_agrees_var {term result : Term} {index : Nat}
    (hasNormalForm : HasNormalForm state term result) (agrees : Agrees term (.var index)) :
    result = term := by
  rcases agrees.var_cases with rfl | rfl
  · exact hasNormalForm.var_eq
  · have hasVariable : HasNormalForm state (.var index) (.var index) := .var index
    obtain ⟨bound, hasBound, impossible | rfl⟩ := hasVariable.ofParts
    · cases impossible
    · exact hasNormalForm.deterministic (.level hasBound)

/-- The normal form of a target is a target. -/
theorem CheckM.IsTarget.normal {head : DataHead} {walked : Nat} {target result : Term}
    (isTarget : IsTarget head walked target) (rigid : state.signature.body? head.path = none)
    (hasNormalForm : HasNormalForm state target result) : IsTarget head walked result := by
  obtain ⟨isConst, normals⟩ := HasNormalForm.spine rigid isTarget.head hasNormalForm
  constructor
  case head => exact isConst
  case length => rw [← normals.length_eq, isTarget.length]
  case parameters =>
    intro position bounded
    obtain ⟨info, argument, found, agrees⟩ := isTarget.parameters position bounded
    obtain ⟨⟨_, normal⟩, isNormal, rfl, hasNormal⟩ := getElem?_of_forall₂ normals found
    refine ⟨info, normal, isNormal, fun relevant => ?_⟩
    have same : normal = argument := hasNormal.eq_of_agrees_var (agrees relevant)
    rw [same]
    exact agrees relevant

/-- The type of a declaration is normalised to its normal form. -/
theorem State.WellScoped.hasNormalForm {entry : Entry} {fuel : Nat} {normal : Ty}
    (wellScoped : state.WellScoped) (found : state.signature.get? path = some entry)
    (normalised : normalise state fuel entry.definition.ty = .ok normal) :
    HasNormalForm state entry.definition.ty normal := by
  have inScope := (wellScoped.signature entry (PathMap.mem_values_of_get? found)).1
  exact (normalises_of_normalise wellScoped normalised inScope).1.hasNormalForm

/-! ## The walks along a chain of function types -/

namespace FunctionChain

variable {state : State} {ty target : Ty} {telescope : Telescope}

theorem exposes (chain : FunctionChain ty telescope target) :
    Exposes state ty telescope target := by
  induction chain with
  | nil ty => exact .nil ty
  | cons _ ih => exact .cons rfl .refl ih

/-- The view of a chain that ends in a declaration without a body is the chain. -/
theorem eq_of_telescopeView {fuel : Nat} {viewed : Telescope} {rest : Ty}
    (chain : FunctionChain ty telescope target) (isConst : target.term.head = .const path)
    (rigid : state.signature.body? path = none)
    (isViewed : telescopeView state fuel ty = .ok (viewed, rest)) : viewed = telescope := by
  induction chain generalizing fuel viewed with
  | nil ty =>
    cases fuel with
    | zero => simp [telescopeView] at isViewed
    | succ fuel =>
      simp only [telescopeView, bind_eq_ok_iff] at isViewed
      obtain ⟨reduced, isReduced, isViewed⟩ := isViewed
      obtain rfl := eq_of_reduce_const isConst rigid isReduced
      split at isViewed
      · rename_i isPi
        rw [isPi] at isConst
        cases isConst
      · exact (Prod.mk.inj (Except.ok.inj isViewed)).1.symm
  | cons _ ih =>
    cases fuel with
    | zero => simp [telescopeView] at isViewed
    | succ fuel =>
      simp only [telescopeView, bind_eq_ok_iff] at isViewed
      obtain ⟨reduced, isReduced, isViewed⟩ := isViewed
      obtain rfl := eq_of_reduce_pi isReduced
      simp only [bind_eq_ok_iff, pure_eq_ok_iff, Prod.mk.injEq] at isViewed
      obtain ⟨⟨viewed, rest⟩, isViewed, rfl, rfl⟩ := isViewed
      rw [ih isConst isViewed]

end FunctionChain

/-! ## The check of one constructor -/

namespace CheckM

open Checker

variable {before after : Checker} {head : DataHead} {ty : Ty}

/-- Something was learned of an open datatype. -/
theorem Opened.consults (opened : Opened head ty before) (wellScoped : after.WellScoped)
    (keeps : before.Keeps after) (consults : before.Consults after) : Opened head ty after := by
  have grows := consults.learns.state.grows
  obtain ⟨tail, opens⟩ := opened.opens
  constructor
  case wellScoped => exact wellScoped
  case binders => exact opened.binders.mono keeps.fits
  case context => exact consults.context.trans opened.context
  case sort => exact keeps.inScope opened.sort
  case pending => exact grows.signature ▸ opened.pending
  case opens => exact ⟨tail, opens.of_advances grows.advances⟩

/-- A constructor was checked and entered with a type that stands under the parameters.  When its
own type had been found, the checker was the third one, and when it had been found to fit, the
fourth one. -/
structure Constructs (head : DataHead) (ty : Ty) (declaration : ConstructorDeclaration)
    (nonLinear : List Nat) (before after : Checker) (path : Path) (constructor : Constructor)
    (shape : Ty) (found fitted : Checker) : Prop where
  opened : Opened head ty found
  consults : before.Consults found
  inScope : found.InScope shape
  /-- The type was elaborated, its target was found, and then it was normalised. -/
  written : ∃ written elaborated,
    Yields (enterPath declaration.name >>= fun _ => elaborateType declaration.ty) before written
      elaborated ∧
    elaborated.WellScoped ∧ elaborated.InScope written ∧
    Yields (restoreScope (checkTarget head path written)) elaborated nonLinear found ∧
    Families.normalise found.state found.fuel written = .ok shape
  arity : ∀ {telescope target}, FunctionChain shape telescope target →
    target.term.head = .const head.path → constructor.arity = telescope.length
  /-- The type ends in a target. -/
  target : found.state.constraints = before.state.constraints →
    ∃ telescope target, FunctionChain shape telescope target ∧
      IsTarget head telescope.length target.term ∧ constructor.arity = telescope.length
  fits : Yields (checkFits head path constructor.forced shape) found constructor.arity fitted
  /-- The rest changes no reduction. -/
  advances : fitted.state.Advances after.state
  entry : after.state.signature.get? path =
    some ⟨⟨path, (head.parameters.withPlicity .implicit).toPi shape, .constructor constructor⟩,
      .complete⟩

theorem constructs_of_checkConstructor {declaration : ConstructorDeclaration}
    {constructor : Constructor} {nonLinear : List Nat} (opened : Opened head ty before)
    (yields : Yields (checkConstructor head declaration) before (path, constructor, nonLinear)
      after) :
    ∃ shape found fitted, Constructs head ty declaration nonLinear before after path constructor
      shape
      found fitted := by
  obtain ⟨first, second, found, fitted, written, shape, isEntered, isElaborated, isTargeted,
    normalised, isForced, fits, _, _, free, rfl⟩ := stages_of_checkConstructor yields
  obtain ⟨firstWellScoped, keeps₁, _⟩ :=
    (steady_enterPath declaration.name opened.wellScoped).of_yields isEntered
  obtain ⟨secondWellScoped, keeps₂, writtenInScope⟩ :=
    (steady_elaborateType declaration.ty firstWellScoped).of_yields isElaborated
  have consults₁ := ((Built.enterPath declaration.name).consults isEntered).trans
    ((built_elaborateType declaration.ty).consults isElaborated)
  have secondOpened := opened.consults secondWellScoped (keeps₁.trans keeps₂) consults₁
  have targeting : Steady (restoreScope (checkTarget head path written)) second fun _ _ => True :=
    steady_restoreScope secondWellScoped
      (extending_checkTarget secondWellScoped secondOpened.underParameters.length writtenInScope)
      fun _ _ _ _ _ => trivial
  obtain ⟨foundWellScoped, keeps₃, _⟩ := targeting.of_yields isTargeted
  have consults₂ :=
    (built_checkTarget head path written).restoreScope.consults isTargeted
  have foundOpened := secondOpened.consults foundWellScoped keeps₃ consults₂
  obtain ⟨normalises, shapeInScope⟩ :=
    normalises_of_normalise foundWellScoped.state normalised (keeps₃.inScope writtenInScope)
  have arity {telescope : Telescope} {target : Ty} (chain : FunctionChain shape telescope target)
      (isConst : target.term.head = .const head.path) : constructor.arity = telescope.length := by
    obtain ⟨_, viewed, rest, isViewed, _⟩ := length_of_findForced isForced
    rw [← chain.eq_of_telescopeView isConst foundOpened.rigid isViewed]
    exact arity_of_checkFits fits isViewed
  refine ⟨shape, found, fitted, ?_⟩
  constructor
  case opened => exact foundOpened
  case consults => exact consults₁.trans consults₂
  case inScope => exact shapeInScope
  case written =>
    exact ⟨written, second, yields_bind_iff.2 ⟨path, first, isEntered, isElaborated⟩,
      secondWellScoped, writtenInScope, isTargeted, normalised⟩
  case arity => exact arity
  case target =>
    intro settled
    obtain ⟨inner, isChecked, rfl⟩ := yields_restoreScope_iff.1 isTargeted
    have settledTarget := State.Remembers.constraints_eq consults₁.learns.state.grows.remembers
      consults₂.learns.state.grows.remembers (.refl _) settled
    obtain ⟨telescope, target, chain, isTarget⟩ := chain_of_checkTarget secondOpened writtenInScope
      isChecked settledTarget (.refl _) normalises.hasNormalForm
    exact ⟨telescope, target, chain, isTarget, arity chain isTarget.head⟩
  case fits => exact fits
  case advances => exact State.advances_withConstructor free
  case entry =>
    have entered := State.get?_withEntry_self fitted.state path ⟨⟨path,
      (head.parameters.withPlicity .implicit).toPi shape, .constructor constructor⟩, .complete⟩
    unfold State.withConstructor
    split <;> exact entered

/-! ## The check of a datatype -/

/-- A datatype was opened, its constructors were checked, and it was completed. -/
structure DataStages (definition : DataDefinition) (before : Checker) (head : DataHead) (ty : Ty)
    (indices : Telescope) (opened : Checker) (answers : List (Path × Constructor × List Nat))
    (closed : Checker) (certified : CertifiedDatatype) (after : Checker) : Prop where
  opening : Yields (openData definition) before head opened
  opens : OpensData definition before head ty indices opened
  checks : Yields (checkConstructors head definition.constructors) opened answers closed
  completes : Completes head answers certified closed after

theorem dataStages_of_checkData (wellScoped : before.WellScoped) (topLevel : before.context = [])
    (yields : Yields (checkData definition) before certified after) :
    ∃ head ty indices opened answers closed,
      DataStages definition before head ty indices opened answers closed certified after := by
  obtain ⟨head, opened, answers, closed, opening, checks, completes⟩ := stages_of_checkData yields
  obtain ⟨ty, indices, opens⟩ := opensData_of_openData wellScoped topLevel opening
  exact ⟨head, ty, indices, opened, answers, closed, opening, opens, checks, completes⟩

namespace DataStages

variable {definition : DataDefinition} {indices : Telescope} {opened closed : Checker}
variable {answers : List (Path × Constructor × List Nat)} {certified : CertifiedDatatype}
variable
  (stages : DataStages definition before head ty indices opened answers closed certified after)

include stages

theorem closedOpened : Opened head ty closed :=
  stages.opens.opened.checkConstructors stages.checks

/-- The datatype is entered with its type. -/
theorem entry : after.state.signature.get? certified.path = some (certified.entry ty) :=
  stages.completes.entry stages.closedOpened

/-- The datatype does not unfold in the end. -/
theorem rigid : after.state.signature.body? head.path = none :=
  ((stages.completes.advances stages.closedOpened).body _).trans stages.closedOpened.rigid

/-- Once the datatype is open, no reduction is lost. -/
theorem advances : opened.state.Advances after.state :=
  (advances_checkConstructors stages.checks).trans (stages.completes.advances stages.closedOpened)

/-- A constructor is entered between two of the stages. -/
theorem constructor {position : Nat} {constructor : Constructor}
    (present : certified.constructors[position]? = some (path, constructor)) :
    ∃ declaration nonLinear first second shape found fitted,
      definition.constructors[position]? = some declaration ∧
      answers[position]? = some (path, constructor, nonLinear) ∧
      ((checkDataUpTo definition position).run before).state = first ∧
      ((checkDataUpTo definition (position + 1)).run before).state = second ∧
      Constructs head ty declaration nonLinear first second path constructor shape found fitted ∧
      first.options = before.options ∧
      opened.state.Advances first.state ∧ second.state.Advances after.state ∧
      after.state.signature.get? path = some
        ⟨⟨path, (head.parameters.withPlicity .implicit).toPi shape, .constructor constructor⟩,
          .complete⟩ := by
  rw [stages.completes.constructors, List.getElem?_map, Option.map_eq_some_iff] at present
  obtain ⟨⟨path, constructor, nonLinear⟩, present, isAnswer⟩ := present
  obtain ⟨rfl, rfl⟩ := Prod.mk.inj isAnswer
  obtain ⟨declaration, earlier, first, second, later, isDeclared, isFirst, isChecked, isSecond,
    isLast⟩ := yields_checkConstructors_take stages.checks present
  obtain ⟨shape, found, fitted, constructs⟩ :=
    constructs_of_checkConstructor (stages.opens.opened.checkConstructors isFirst) isChecked
  have reachesFirst : Yields (checkDataUpTo definition position) before earlier first :=
    yields_bind_iff.2 ⟨head, opened, stages.opening, isFirst⟩
  have reachesSecond : Yields (checkDataUpTo definition (position + 1)) before _ second :=
    yields_bind_iff.2 ⟨head, opened, stages.opening, isSecond⟩
  refine ⟨declaration, nonLinear, first, second, shape, found, fitted, isDeclared, present,
    reachesFirst.2, reachesSecond.2, constructs,
    (options_checkConstructors isFirst).trans stages.opens.options,
    advances_checkConstructors isFirst,
    (advances_checkConstructors isLast).trans (stages.completes.advances stages.closedOpened), ?_⟩
  obtain ⟨adds, _⟩ := adds_checkConstructors isLast
  have kept := (adds.others _ (adds.not_mem_of_taken constructs.entry)).trans constructs.entry
  obtain ⟨pending, isPending, same⟩ := stages.completes.entered
  rw [same, State.get?_withEntry, if_neg, kept]
  rintro rfl
  cases isPending.symm.trans kept

end DataStages

/-- What a constructor of a datatype has to construct: its type has binders for the parameters and
for the arguments, and ends in a target. -/
structure HasShape (certified : CertifiedDatatype) (arity : Nat) (binders arguments : Telescope)
    (target : Term) : Prop where
  bound : binders.length = certified.datatype.parameters
  implicit : ∀ binder ∈ binders, binder.info.plicity = .implicit
  taken : arguments.length = arity
  head : target.head = .const certified.path
  length : target.arguments.length =
    certified.datatype.parameters + certified.datatype.indices
  /-- The arguments for parameters that count are the parameters, as terms or as levels. -/
  parameters : ∀ position < certified.datatype.parameters, ∃ info argument,
    target.arguments[position]? = some (info, argument) ∧
      (info.isIrrelevant ∨
        argument = .var (arity + certified.datatype.parameters - 1 - position) ∨
        argument = .level (Level.ofParts 0
          [⟨.var (arity + certified.datatype.parameters - 1 - position), 0⟩]))

/-- A target has the shape that is wanted once the datatype is certified. -/
theorem IsTarget.hasShape {answers : List (Path × Constructor × List Nat)} {closed : Checker}
    {arity : Nat} {binders arguments : Telescope} {target : Term}
    (isTarget : IsTarget head arity target)
    (completes : Completes head answers certified closed after)
    (bound : binders.length = head.parameters.length)
    (implicit : ∀ binder ∈ binders, binder.info.plicity = .implicit)
    (taken : arguments.length = arity) : HasShape certified arity binders arguments target := by
  constructor
  case bound => rw [bound, completes.parameters]
  case implicit => exact implicit
  case taken => exact taken
  case head => rw [isTarget.head, completes.path]
  case length => rw [isTarget.length, completes.parameters, completes.indices]
  case parameters =>
    intro position bounded
    rw [completes.parameters] at bounded ⊢
    obtain ⟨info, argument, found, agrees⟩ := isTarget.parameters position bounded
    refine ⟨info, argument, found, ?_⟩
    cases relevant : info.isIrrelevant with
    | true => exact .inl rfl
    | false => exact .inr (agrees relevant).var_cases

theorem yields_checkData_of_accepted
    (accepted : ((checkDeclaration (.data definition)).run before).result = .ok (some certified)) :
    Yields (checkData definition) before certified
      ((checkDeclaration (.data definition)).run before).state := by
  have yields := Yields.of_result accepted
  simp only [checkDeclaration, yields_bind_iff, yields_pure_iff] at yields
  obtain ⟨_, _, yields, isCertified, isLast⟩ := yields
  obtain rfl := Option.some.inj isCertified
  exact isLast ▸ yields

/-- A constructor whose check postponed nothing constructs its datatype.  In the end its type has
the parameters of the datatype as its first binders, and ends in the datatype applied to them. -/
theorem constructor_constructs_datatype
    {checker : Checker}
    {definition : DataDefinition}
    {certified : CertifiedDatatype}
    {position : Nat}
    {path : Path}
    {constructor : Constructor}
    (reachable : Reachable checker)
    (topLevel : checker.context = [])
    (accepted : ((checkDeclaration (.data definition)).run checker).result = .ok (some certified))
    (present : certified.constructors[position]? = some (path, constructor))
    (settled : ((checkDataUpTo definition (position + 1)).run checker).state.state.constraints =
      ((checkDataUpTo definition position).run checker).state.state.constraints) :
    let final := ((checkDeclaration (.data definition)).run checker).state.state
    ∃ signature ty,
      final.signature.get? certified.path = some (certified.entry signature) ∧
      final.signature.get? path = some ⟨⟨path, ty, .constructor constructor⟩, .complete⟩ ∧
      ∀ fuel normal, Families.normalise final fuel ty = .ok normal →
        ∃ binders arguments target,
          FunctionChain normal (binders ++ arguments) target ∧
          HasShape certified constructor.arity binders arguments target.term ∧
          ∃ parameters tail, Opens final signature parameters tail ∧
            List.Forall₂ (fun parameter binder =>
              binder.info.relevance = parameter.info.relevance ∧
                HasNormalForm final parameter.ty binder.ty) parameters binders := by
  intro final
  obtain ⟨head, signature, indices, opened, answers, closed, stages⟩ :=
    dataStages_of_checkData reachable.wellScoped topLevel (yields_checkData_of_accepted accepted)
  obtain ⟨_, _, first, second, shape, found, fitted, _, _, rfl, rfl, constructs, _, _, _, entry⟩ :=
    stages.constructor present
  have fitting := (built_checkFits _ _ _ _).consults constructs.fits
  have settledTarget := State.Remembers.constraints_eq (.refl _)
    constructs.consults.learns.state.grows.remembers
    (fitting.learns.state.grows.remembers.trans constructs.advances.remembers) settled
  obtain ⟨telescope, target, chain, isTarget, arity⟩ := constructs.target settledTarget
  refine ⟨signature, _, stages.entry, entry, fun fuel normal normalised => ?_⟩
  have wellScoped := (reachable.ends (.declare (.data definition)) topLevel).wellScoped
  obtain ⟨binders, middle, chainParameters, normalParameters, hasShape⟩ :=
    (OpensUpTo.toPi _ shape).chain (wellScoped.state.hasNormalForm entry normalised)
  obtain ⟨arguments, last, chainArguments, normalArguments, hasTarget⟩ :=
    chain.exposes.chain hasShape
  rw [Telescope.withPlicity, List.forall₂_map_left_iff] at normalParameters
  refine ⟨binders, arguments, last, chainParameters.append chainArguments, ?_, ?_⟩
  · rw [arity]
    refine (isTarget.normal stages.rigid hasTarget.term).hasShape stages.completes
      normalParameters.length_eq.symm ?_ normalArguments.length_eq.symm
    intro binder member
    obtain ⟨position, isBinder⟩ := List.mem_iff_getElem?.1 member
    obtain ⟨parameter, _, normal⟩ := getElem?_of_forall₂ normalParameters.flip isBinder
    rw [normal.info]
  · obtain ⟨tail, opens⟩ := stages.opens.opened.opens
    refine ⟨head.parameters, tail, opens.of_advances stages.advances, ?_⟩
    exact normalParameters.imp fun _ _ normal => ⟨by rw [normal.info], normal.ty⟩

/-- Lists.  The target of the second constructor is left to be found. -/
def lists : DataDefinition :=
  let list : Expr := .app (.const "List") [(.explicit, .var "A")]
  { name := "List"
    ty := some (.pi "A" {} (.set 0) (.set 0))
    parameters := [⟨"A", .explicit, none⟩]
    constructors :=
      [ { name := "nil", ty := list },
        { name := "cons", ty := .pi "first" {} (.var "A") (.arrow list .hole) } ] }

/-- Lists as they are certified. -/
def certifiedLists : CertifiedDatatype :=
  { path := ⟨2⟩
    datatype := ⟨1, 0, Universe.ofNat 0, .ind, [⟨3⟩, ⟨4⟩], .empty, .empty, true⟩
    constructors := [(⟨3⟩, ⟨⟨2⟩, 1, 0, .ind, []⟩), (⟨4⟩, ⟨⟨2⟩, 1, 2, .ind, [false, false]⟩)] }

theorem constructor_constructs_datatype_hole :
    let outcome := (checkDeclaration (.data lists)).run (Checker.initial {} .patterns 40)
    outcome.result = .ok (some certifiedLists) ∧
      ∃ entry normal, outcome.state.state.signature.get? ⟨4⟩ = some entry ∧
        Families.normalise outcome.state.state 40 entry.definition.ty = .ok normal ∧
        ∃ binders arguments target, FunctionChain normal (binders ++ arguments) target ∧
          HasShape certifiedLists 2 binders arguments target.term := by
  intro outcome
  have accepted : outcome.result = .ok (some certifiedLists) := by decide +kernel
  have present : certifiedLists.constructors[1]? = some (⟨4⟩, ⟨⟨2⟩, 1, 2, .ind, [false, false]⟩) :=
    rfl
  obtain ⟨signature, ty, _, entry, shape⟩ := constructor_constructs_datatype
    (.initial {} .patterns 40) rfl accepted present (by decide +kernel)
  have normalises : ((outcome.state.state.signature.get? ⟨4⟩).map fun entry =>
      (Families.normalise outcome.state.state 40 entry.definition.ty).isOk) = some true := by
    decide +kernel
  rw [entry] at normalises
  obtain ⟨normal, normalised, shaped⟩ := exists_ok_of_isOk (Option.some.inj normalises) (shape 40)
  obtain ⟨binders, arguments, target, chain, hasShape, _⟩ := shaped
  exact ⟨accepted, _, normal, entry, normalised, binders, arguments, target, chain, hasShape⟩

/-- A parameter whose type is found when it is used. -/
def solvedParameter : List Declaration :=
  [ .postulate "P" (.pi "A" {} (.set 5) (.var "A")),
    .postulate "Q" (.arrow (.app (.const "P") [(.explicit, .set 4)]) (.set 0)),
    .data
      { name := "D"
        ty := some (.pi "x" {} (.app (.const "P") [(.explicit, .hole)])
          (.arrow (.app (.const "Q") [(.explicit, .var "x")]) (.set 0)))
        parameters := [{ name := "x" }, { name := "y" }]
        constructors := [
          { name := "c"
            ty := .app (.const "D") [(.explicit, .var "x"), (.explicit, .var "y")] }] } ]

/-- A constructor whose type is a datatype that is used as a proposition. -/
def coercedTarget : List Declaration :=
  let family : Expr := .pi "A" { relevance := .irrelevant } (.set 1) (.set 1)
  [ .postulate "T" (.set 0),
    .dataSignature "D" (.set 0),
    .function "identity" family ["A"] (some (.var "A")),
    .function "constant" (.arrow (.set 0) (.set 0)) ["X"] (some (.const "D")),
    .function "coerce"
      (.pi "F" {} family (.arrow (.app (.var "F") [(.irrelevant, .arrow (.set 0) (.set 0))])
        (.app (.var "F") [(.irrelevant, .arrow (.set 0) .prop)])))
      ["F", "x"] (some (.var "x")),
    .data
      { name := "D"
        constructors := [
          { name := "c"
            ty := .app (.const "coerce") [(.explicit, .const "identity"),
              (.explicit, .const "constant"), (.explicit, .const "T")] }] } ]

/-- A type whose arguments are known only when the function of that type has been checked. -/
def postponedArgument : List Declaration :=
  let family (level : Expr) : Expr :=
    .pi "X" {} (.set 0) (.app (.const "F") [(.explicit, level)])
  let member (index : String) : ArgMode × Expr :=
    (.explicit, .app (.const "h") [(.explicit, .const index)])
  [ .postulate "S" (.set 0),
    .postulate "T" (.set 0),
    .postulate "rate" (.arrow (.set 0) (.const "Level")),
    .postulate "F" (.arrow (.const "Level") (.set 0)),
    .postulate "h" (family .hole),
    .postulate "same" (.pi "Z" {} (.set 0) (.arrow (.var "Z") (.arrow (.var "Z") (.set 0)))),
    .postulate "any" (.arrow (family (.app (.const "rate") [(.explicit, .var "X")]))
      (.pi "Z" {} (.set 0) (.var "Z"))),
    .function "p" (.app (.const "same") [(.explicit, .hole), member "S", member "T"]) []
      (some (.app (.const "any") [(.explicit, .const "h"), (.explicit, .hole)])) ]

/-- The sort that is stored with a type need not be the sort of the type: it is read off sorts whose
placeholders are solved already, it is that of a type before its normalisation, or the type has no
sort any more when all placeholders are solved. -/
theorem stored_sorts_not_inferred :
    let judged (declarations : List Declaration) (path : Path) :=
      let checker :=
        ((Call.check declarations).computation.run (Checker.initial {} .patterns 40)).state
      (checker.state.signature.definition? path).map fun definition =>
        (Families.normalise checker.state 40 definition.ty.sort,
          ((inferSort definition.ty.term).run checker).result)
    judged solvedParameter ⟨5⟩ = some (.ok .omega, .ok (Universe.ofNat 4)) ∧
      judged coercedTarget ⟨7⟩ = some (.ok .prop, .ok (Universe.ofNat 0)) ∧
      judged postponedArgument ⟨9⟩ = some (.ok (Universe.ofNat 0), .error (.error
        (.conversion (.unequalTerms (.const ⟨3⟩) (.const ⟨2⟩))))) := by
  decide +kernel

end CheckM
end Families
