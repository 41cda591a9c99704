import Families.Proofs.FunctionTypes
import Families.Proofs.SortOrder
import Families.Proofs.Transactions

/-!
# Stages of the check of a datatype

A datatype is opened first: its parameters come into scope, its sort is found, and it is entered as
pending.  Its constructors are checked one after the other in the scope of the parameters, and in
the end it is completed.  Between the stages the same things are known of the checker.
-/

namespace Families

variable {state : State} {head : DataHead} {signature : Definition} {path : Path}
variable {parameters : Telescope} {ty : Ty} {answer : Unit} {sort : Universe}
variable {α : Type} {value : α} {comparison : ConvM α} {checker closed : Checker} {datatype : Path}
variable {indices : Telescope} {index : Domain}
variable {left right : Term} {tail : Ty} {position : Nat} {bindings : List ParameterBinding}
variable {telescope : Telescope} {rest : Ty} {offset : Nat}

/-! ## Computations that answer -/

/-- What a computation respects holds of the state that it leaves with an answer. -/
theorem Respects.of_yields {ε σ : Type} {discipline : Discipline σ} {computation : Attempt ε σ α}
    {before after : σ} {answers : α → σ → Prop}
    (respects : Respects discipline computation before answers)
    (yields : Yields computation before value after) :
    discipline.Good after ∧ discipline.Follows before after ∧ answers value after := by
  obtain ⟨answered, rfl⟩ := yields
  exact ⟨respects.good, respects.follows, respects.answer value answered⟩

namespace CheckM

variable {α : Type} {before after : Checker}

@[simp]
theorem yields_push_iff {domain : Domain} :
    Yields (push domain) before answer after ↔
      { before with context := domain :: before.context } = after := by
  simp [Yields, push, modify, modifyGet, MonadState.modifyGet, MonadStateOf.modifyGet]

theorem yields_attempt_ok_iff :
    Yields (attempt comparison) before (.ok value) after ↔
      ∃ state, Yields comparison before.state value state ∧ { before with state } = after := by
  unfold Yields attempt
  cases answered : (comparison.run before.state).result with
  | ok answer => simp [answered]
  | error failure => cases failure <;> simp [answered]

theorem yields_convert_iff :
    Yields (convert comparison) before value after ↔
      ∃ state, Yields comparison before.state value state ∧ { before with state } = after := by
  rw [← yields_attempt_ok_iff]
  simp only [convert, yields_bind_iff]
  constructor
  · rintro ⟨answer, middle, attempted, yields⟩
    cases answer with
    | ok answer =>
      obtain ⟨rfl, rfl⟩ := yields_pure_iff.1 yields
      exact attempted
    | error error => exact absurd yields not_yields_fail
  · intro attempted
    exact ⟨.ok value, after, attempted, yields_pure_iff.2 ⟨rfl, rfl⟩⟩

theorem yields_equalTerm_iff :
    Yields (equalTerm left right) before answer after ↔
      ∃ state, Yields (ConvM.equalTerm before.fuel before.context.length left right) before.state
        answer state ∧ { before with state } = after := by
  simp [equalTerm, yields_convert_iff]

theorem yields_tryEqualTerm_ok_iff :
    Yields (tryEqualTerm left right) before (.ok answer) after ↔
      ∃ state, Yields (ConvM.equalTerm before.fuel before.context.length left right) before.state
        answer state ∧ { before with state } = after := by
  simp [tryEqualTerm, yields_attempt_ok_iff]

theorem yields_tryLeqSort_ok_iff {left right : Universe} :
    Yields (tryLeqSort left right) before (.ok answer) after ↔
      ∃ state, Yields (ConvM.leqSort before.fuel before.context.length left right) before.state
        answer state ∧ { before with state } = after := by
  simp [tryLeqSort, yields_attempt_ok_iff]

/-- Sorts that were compared without being postponed have ordered normal forms from then on. -/
theorem atMost_of_tryLeqSort {later : State} {left right left' right' : Universe}
    (wellScoped : before.WellScoped) (leftInScope : before.InScope left)
    (rightInScope : before.InScope right)
    (yields : Yields (tryLeqSort left right) before (.ok answer) after)
    (settled : after.state.constraints = before.state.constraints)
    (advances : after.state.Advances later) (hasLeft : HasNormalForm later left left')
    (hasRight : HasNormalForm later right right') : Universe.AtMost left' right' := by
  obtain ⟨state, compared, rfl⟩ := yields_tryLeqSort_ok_iff.1 yields
  exact ConvM.atMost_of_leqSort wellScoped.state leftInScope rightInScope compared settled advances
    hasLeft hasRight

theorem atMost_of_leqLifted {later : State} {bound bound' sort' : Universe} {base binders : Nat}
    {wrap : ConversionError → CheckError} (wellScoped : before.WellScoped)
    (length : before.context.length = base + binders)
    (boundInScope : bound.Scoped before.state.Fits base) (sortInScope : before.InScope sort)
    (yields : Yields (leqLifted sort bound binders wrap) before answer after)
    (settled : after.state.constraints = before.state.constraints)
    (advances : after.state.Advances later) (hasSort : HasNormalForm later sort sort')
    (hasBound : HasNormalForm later bound bound') : sort'.AtMost (bound'.rename (· + binders)) := by
  obtain ⟨lifted, isLifted, compared⟩ := yields_leqLifted_iff.1 yields
  have liftedInScope : before.InScope lifted := by
    unfold Checker.InScope Checker.InScopeUnder
    rw [length]
    exact boundInScope.lift? isLifted
  obtain rfl := Phrase.eq_rename_of_lift?_zero isLifted
  exact atMost_of_tryLeqSort wellScoped sortInScope liftedInScope compared settled advances hasSort
    (hasBound.rename fun _ _ smaller => Nat.add_lt_add_right smaller binders)

/-- The check that a proposition has one constructor changes nothing. -/
theorem eq_of_checkSingleton {constructors : Nat}
    (yields : Yields (checkSingleton path sort constructors) before answer after) :
    before = after := by
  simp only [checkSingleton, yields_bind_iff, yields_get_iff] at yields
  obtain ⟨_, _, ⟨rfl, rfl⟩, yields⟩ := yields
  split at yields
  · simp only [yields_bind_iff, yields_reduce_iff] at yields
    obtain ⟨_, _, ⟨_, rfl⟩, yields⟩ := yields
    split at yields
    · exact absurd yields not_yields_fail
    · exact (yields_pure_iff.1 yields).2
  · exact (yields_pure_iff.1 yields).2

end CheckM

/-! ## States that advance -/

namespace State

/-- An entry that does not unfold takes the place of another that does not. -/
theorem advances_withEntry {entry : Entry} (rigid : state.signature.body? path = none)
    (noFunction : ∀ arity body, entry.definition.kind ≠ .function arity (some body)) :
    state.Advances (state.withEntry path entry) := by
  refine ⟨⟨(Remembers.refl state).placeholders, List.prefix_refl _⟩, fun other => ?_⟩
  by_cases same : other = path
  · subst same
    rw [rigid]
    simp only [Signature.body?, Signature.definition?, get?_withEntry_self, Option.map_some]
    split
    · rename_i isFunction
      exact absurd (congrArg Definition.kind (Option.some.inj isFunction)) (noFunction _ _)
    · rfl
  · simp only [Signature.body?, Signature.definition?, get?_withEntry, if_neg same]

theorem body?_of_free (free : state.signature.get? path = none) :
    state.signature.body? path = none := by
  simp [Signature.body?, Signature.definition?, free]

theorem advances_addInstance (state : State) (datatype constructor : Path) :
    state.Advances (state.addInstance datatype constructor) :=
  ⟨⟨(Remembers.refl state).placeholders, List.prefix_refl _⟩, fun _ => rfl⟩

theorem advances_withConstructor {isInstance : Bool} {constructor : Constructor}
    (free : state.signature.get? path = none) :
    state.Advances (state.withConstructor head isInstance path ty constructor) := by
  have entered : state.Advances (state.withEntry path
      ⟨⟨path, (head.parameters.withPlicity .implicit).toPi ty, .constructor constructor⟩,
        .complete⟩) :=
    advances_withEntry (body?_of_free free) (by simp)
  unfold withConstructor
  split
  · exact entered.trans (advances_addInstance _ _ _)
  · exact entered

end State

/-! ## Opening a datatype -/

namespace CheckM

/-- Enters a datatype whose sort is known as pending. -/
def openInSort (definition : DataDefinition) (signature : Definition) (parameters : Telescope)
    (indices : Nat) (sort : Universe) : CheckM DataHead := do
  let small ← smallParameters parameters sort
  let datatype : Datatype :=
    { parameters := parameters.length
      indices := indices
      sort := sort
      induction := definition.induction
      constructors := []
      smallParameters := small
      nonLinearParameters := .empty
      universeCheck := definition.universeCheck }
  updateSignature (Signature.registerPending · ⟨signature.path, signature.ty, .datatype datatype⟩)
  pure
    { path := signature.path
      parameters := parameters
      indices := indices
      sort := sort
      universeCheck := definition.universeCheck }

/-- Finds the sort of a datatype whose parameters are in scope, and enters it as pending. -/
def openUnderParameters (definition : DataDefinition) (signature : Definition)
    (parameters : Telescope) (tail : Ty) : CheckM DataHead := do
  let checker ← get
  let view ← telescopeView tail
  let sort ← resolveSort signature.path view.1 view.2
  if checker.options.withoutK ∧ definition.universeCheck then
    checkIndexSorts signature.path view.1 sort
  else
    pure ()
  openInSort definition signature parameters view.1.length sort

theorem openUnderParameters_eq (definition : DataDefinition) (signature : Definition)
    (parameters : Telescope) (tail : Ty) :
    openUnderParameters definition signature parameters tail = (do
      let checker ← get
      let view ← telescopeView tail
      let sort ← resolveSort signature.path view.1 view.2
      checkIf (checker.options.withoutK ∧ definition.universeCheck)
        (checkIndexSorts signature.path view.1 sort)
      openInSort definition signature parameters view.1.length sort) := by
  unfold openUnderParameters checkIf
  refine bind_congr fun checker => bind_congr fun view => bind_congr fun sort => ?_
  split
  · rfl
  · rw [pure_bind]

/-- Checks a datatype as far as its constructors.  Its parameters stay in scope. -/
def openData (definition : DataDefinition) : CheckM DataHead := do
  let path ← enterPath definition.name
  match definition.ty with
  | none => pure ()
  | some ty => do
    let ty ← elaborateType ty
    register ⟨path, ty, .dataSignature⟩
  let signature ← dataSignature path
  let checker ← get
  let bound ← bindParameters checker.fuel definition.parameters signature.ty
  openUnderParameters definition signature bound.1 bound.2

/-- Checks a datatype whose type is declared as far as its constructors. -/
def openDeclared (definition : DataDefinition) (path : Path) : CheckM DataHead := do
  let signature ← dataSignature path
  let checker ← get
  let bound ← bindParameters checker.fuel definition.parameters signature.ty
  openUnderParameters definition signature bound.1 bound.2

theorem openData_eq (definition : DataDefinition) :
    openData definition = enterPath definition.name >>= fun path =>
      declareType definition path >>= fun _ => openDeclared definition path := by
  unfold openData declareType
  cases definition.ty <;> simp only [bind_assoc, pure_bind, openDeclared]

/-- Checks a datatype as far as the first `count` of its constructors. -/
def checkDataUpTo (definition : DataDefinition) (count : Nat) :
    CheckM (List (Path × Constructor × List Nat)) := do
  let head ← openData definition
  checkConstructors head (definition.constructors.take count)

/-- The datatype is completed after its constructors were checked. -/
structure Completes (head : DataHead) (answers : List (Path × Constructor × List Nat))
    (certified : CertifiedDatatype) (closed after : Checker) : Prop where
  path : certified.path = head.path
  parameters : certified.datatype.parameters = head.parameters.length
  indices : certified.datatype.indices = head.indices
  constructors : certified.constructors = answers.map fun answer => (answer.1, answer.2.1)
  /-- The parameters that recur are those that were found with the constructors. -/
  nonLinear : certified.datatype.nonLinearParameters =
    .ofList (answers.flatMap fun answer => answer.2.2)
  sort : Families.normalise closed.state closed.fuel head.sort = .ok certified.datatype.sort
  entered : ∃ pending : Definition,
    closed.state.signature.get? head.path = some ⟨pending, .pending⟩ ∧
      after.state = closed.state.withEntry head.path
        ⟨{ pending with kind := .datatype certified.datatype }, .complete⟩

variable {before after : Checker} {definition : DataDefinition} {certified : CertifiedDatatype}

theorem stages_of_checkInSort {indices : Nat}
    (yields : Yields (checkInSort definition signature parameters indices sort) before certified
      after) :
    ∃ head opened answers closed,
      Yields (openInSort definition signature parameters indices sort) before head opened ∧
      Yields (checkConstructors head definition.constructors) opened answers closed ∧
      Completes head answers certified closed after := by
  simp only [checkInSort, yields_bind_iff, yields_pure_iff] at yields
  obtain ⟨small, first, isSmall, _, opened, isPending, answers, closed, isChecked, _, _,
    isSingleton, normal, _, isNormal, _, last, isComplete, rfl, rfl⟩ := yields
  obtain rfl := eq_of_checkSingleton isSingleton
  obtain ⟨normalised, rfl⟩ := yields_normalise_iff.1 isNormal
  obtain ⟨pending, isFound, rfl⟩ := yields_complete_iff.1 isComplete
  refine ⟨_, opened, answers, closed, ?_, isChecked, rfl, rfl, rfl, rfl, rfl, normalised, pending,
    isFound, rfl⟩
  simp only [openInSort, yields_bind_iff, yields_pure_iff]
  exact ⟨small, first, isSmall, (), opened, isPending, trivial, rfl⟩

theorem stages_of_checkUnderParameters
    (yields : Yields (checkUnderParameters definition signature parameters tail) before certified
      after) :
    ∃ head opened answers closed,
      Yields (openUnderParameters definition signature parameters tail) before head opened ∧
      Yields (checkConstructors head definition.constructors) opened answers closed ∧
      Completes head answers certified closed after := by
  simp only [checkUnderParameters_eq, yields_bind_iff] at yields
  obtain ⟨checker, _, read, view, viewed, isViewed, sort, resolved, isResolved, _, compared,
    isCompared, yields⟩ := yields
  obtain ⟨head, opened, answers, closed, isOpened, rest⟩ := stages_of_checkInSort yields
  refine ⟨head, opened, answers, closed, ?_, rest⟩
  simp only [openUnderParameters_eq, yields_bind_iff]
  exact ⟨checker, _, read, view, viewed, isViewed, sort, resolved, isResolved, (), compared,
    isCompared, isOpened⟩

theorem stages_of_checkData (yields : Yields (checkData definition) before certified after) :
    ∃ head opened answers closed,
      Yields (openData definition) before head opened ∧
      Yields (checkConstructors head definition.constructors) opened answers closed ∧
      Completes head answers certified closed after := by
  simp only [checkData_eq, checkDeclared, yields_bind_iff, yields_speculate_iff] at yields
  obtain ⟨path, first, isEntered, _, second, isDeclared, signature, third, isFound, checker, fourth,
    read, yields⟩ := yields
  obtain ⟨inner, isChecked, rfl⟩ := yields_restoreScope_iff.1 yields
  obtain ⟨bound, fifth, isBound, isChecked⟩ := yields_bind_iff.1 isChecked
  obtain ⟨head, opened, answers, closed, isOpened, isChecked, completes⟩ :=
    stages_of_checkUnderParameters isChecked
  refine ⟨head, opened, answers, closed, ?_, isChecked, { completes with }⟩
  simp only [openData_eq, openDeclared, yields_bind_iff]
  exact ⟨path, first, isEntered, (), second, isDeclared, signature, third, isFound, checker, fourth,
    read, bound, fifth, isBound, isOpened⟩

theorem yields_checkConstructors_take {declarations : List ConstructorDeclaration}
    {answers : List (Path × Constructor × List Nat)} {answer : Path × Constructor × List Nat}
    (yields : Yields (checkConstructors head declarations) before answers after)
    (found : answers[position]? = some answer) :
    ∃ declaration earlier first second later, declarations[position]? = some declaration ∧
      Yields (checkConstructors head (declarations.take position)) before earlier first ∧
      Yields (checkConstructor head declaration) first answer second ∧
      Yields (checkConstructors head (declarations.take (position + 1))) before
        (earlier ++ [answer]) second ∧
      Yields (checkConstructors head (declarations.drop (position + 1))) second later after := by
  induction declarations generalizing before answers position with
  | nil =>
    obtain ⟨rfl, _⟩ := yields_pure_iff.1 yields
    simp at found
  | cons declaration declarations ih =>
    simp only [checkConstructors, yields_bind_iff, yields_pure_iff] at yields
    obtain ⟨first, middle, isFirst, rest, _, isRest, rfl, rfl⟩ := yields
    cases position with
    | zero =>
      obtain rfl : first = answer := by simpa using found
      refine ⟨declaration, [], before, middle, rest, rfl, yields_pure_iff.2 ⟨rfl, rfl⟩, isFirst,
        ?_, isRest⟩
      simp only [List.take_succ_cons, List.take_zero, checkConstructors, yields_bind_iff,
        yields_pure_iff]
      exact ⟨first, middle, isFirst, [], middle, ⟨rfl, rfl⟩, rfl, rfl⟩
    | succ position =>
      rw [List.getElem?_cons_succ] at found
      obtain ⟨declaration', earlier, start, stop, later, isDeclared, isEarlier, isChecked, isTaken,
        isLater⟩ := ih isRest found
      refine ⟨declaration', first :: earlier, start, stop, later, isDeclared, ?_, isChecked, ?_,
        isLater⟩
      · simp only [List.take_succ_cons, checkConstructors, yields_bind_iff, yields_pure_iff]
        exact ⟨first, middle, isFirst, earlier, start, isEarlier, rfl, rfl⟩
      · simp only [List.take_succ_cons, checkConstructors, yields_bind_iff, yields_pure_iff]
        exact ⟨first, middle, isFirst, earlier ++ [answer], stop, isTaken, rfl, rfl⟩

/-! ## The scope of the parameters -/

open Checker

/-- The parameters fill the binders: each stands for one that is given in the same way, and takes
its place under its own name.  Binders that are not explicit may come in between, before an explicit
parameter, and keep their names. -/
inductive Fills (names : NameTable) : List ParameterBinding → Telescope → Telescope → Prop where
  | nil : Fills names [] [] []
  | bound {binding : ParameterBinding} {bindings : List ParameterBinding} {binder : Domain}
      {binders telescope : Telescope} {name : Name} :
      binding.plicity = binder.info.plicity →
      names.texts.idxOf? binding.name = some name.id →
      Fills names bindings binders telescope →
      Fills names (binding :: bindings) (binder :: binders) ({ binder with name } :: telescope)
  | inserted {binding : ParameterBinding} {bindings : List ParameterBinding} {binder : Domain}
      {binders telescope : Telescope} :
      binding.plicity = .explicit →
      binder.info.plicity ≠ .explicit →
      Fills names (binding :: bindings) binders telescope →
      Fills names (binding :: bindings) (binder :: binders) (binder :: telescope)

/-- The binders that are filled are only renamed. -/
theorem Fills.opens {names : NameTable}
    {binders : Telescope} (fills : Fills names bindings binders telescope)
    (exposes : Exposes state ty binders rest) : Opens state ty telescope rest := by
  induction fills generalizing ty with
  | nil =>
    cases exposes
    exact .nil _
  | bound _ _ _ ih | inserted _ _ _ ih =>
    cases exposes with
    | cons _ steps exposes => exact .cons trivial steps (ih exposes)

/-- The parameters that are bound fill the binders at the front of the type. -/
theorem fills_of_bindParameters {fuel : Nat} (wellScoped : before.WellScoped)
    (inScope : before.InScope ty)
    (yields : Yields (bindParameters fuel bindings ty) before (telescope, rest) after) :
    (∃ binders, Exposes after.state ty binders rest ∧
      Fills after.names bindings binders telescope) ∧
      after.context = telescope.reverse ++ before.context := by
  induction fuel generalizing before bindings ty telescope with
  | zero =>
    cases bindings with
    | nil =>
      obtain ⟨isEmpty, rfl⟩ := yields_pure_iff.1 yields
      obtain ⟨rfl, rfl⟩ := Prod.mk.inj isEmpty
      exact ⟨⟨[], .nil ty, .nil⟩, rfl⟩
    | cons => exact absurd yields not_yields_halt
  | succ fuel ih =>
    cases bindings with
    | nil =>
      obtain ⟨isEmpty, rfl⟩ := yields_pure_iff.1 yields
      obtain ⟨rfl, rfl⟩ := Prod.mk.inj isEmpty
      exact ⟨⟨[], .nil ty, .nil⟩, rfl⟩
    | cons binding bindings =>
      simp only [bindParameters, yields_bind_iff, yields_reduce_iff] at yields
      obtain ⟨reduced, _, ⟨isReduced, rfl⟩, yields⟩ := yields
      have reducedInScope := (reduces_of_reduce wellScoped.state isReduced inScope.term).2
      split at yields
      · rename_i name info domain codomain
        have steps := steps_of_reduce_pi wellScoped.state inScope.term isReduced
        have codomainInScope : before.InScopeUnder 1 codomain := reducedInScope.2
        -- Both branches end in the same way, under the name of the parameter or of the binder.
        have continued : ∀ {others : List ParameterBinding} {name' : Name} {middle : Checker},
            middle.WellScoped → before.Consults middle →
            Yields
              (do
                push ⟨name', info, domain⟩
                let bound ← bindParameters fuel others codomain
                pure (⟨name', info, domain⟩ :: bound.1, bound.2))
              middle (telescope, rest) after →
            ∃ inner binders, telescope = ⟨name', info, domain⟩ :: inner ∧
              Exposes after.state ty (⟨name, info, domain⟩ :: binders) rest ∧
              Fills after.names others binders inner ∧ middle.names.Grows after.names ∧
              after.context = telescope.reverse ++ before.context := by
          intro others name' middle middleWellScoped consults yields
          simp only [yields_bind_iff, yields_push_iff, yields_pure_iff] at yields
          obtain ⟨_, pushed, rfl, ⟨inner, last⟩, _, isBound, isAnswer, rfl⟩ := yields
          obtain ⟨rfl, rfl⟩ := Prod.mk.inj isAnswer
          have grows := consults.learns.state.grows
          have domainInScope : middle.InScope domain := by
            unfold InScope InScopeUnder
            rw [consults.context]
            exact grows.scoped reducedInScope.1
          have codomainLater : InScope
              { middle with context := ⟨name', info, domain⟩ :: middle.context } codomain := by
            unfold InScope InScopeUnder
            rw [List.length_cons, consults.context]
            exact grows.scoped codomainInScope
          have pushedWellScoped : WellScoped
              { middle with context := ⟨name', info, domain⟩ :: middle.context } :=
            ⟨middleWellScoped.state, domainInScope, middleWellScoped.context⟩
          obtain ⟨⟨binders, exposes, fills⟩, isContext⟩ := ih pushedWellScoped codomainLater isBound
          have later := (built_bindParameters fuel others codomain).learns isBound
          refine ⟨inner, binders, rfl,
            .cons rfl (steps.mono (grows.trans later.state.grows).resolves.retains) exposes, fills,
            later.names, ?_⟩
          rw [isContext, List.reverse_cons, List.append_assoc, consults.context]
          rfl
        split at yields
        · rename_i samePlicity
          obtain ⟨_, second, isAscribed, yields⟩ := yields_bind_iff.1 yields
          obtain ⟨name', third, isNamed, yields⟩ := yields_bind_iff.1 yields
          have consults := ((built_checkAscription binding domain).consults isAscribed).trans
            ((Built.enterName binding.name).consults isNamed)
          obtain ⟨secondWellScoped, _⟩ := (steady_checkAscription binding wellScoped
            reducedInScope.1).of_yields isAscribed
          obtain ⟨thirdWellScoped, _⟩ := (steady_enterName binding.name
            secondWellScoped).of_yields isNamed
          obtain ⟨inner, binders, rfl, exposes, fills, grows, isContext⟩ :=
            continued thirdWellScoped consults yields
          have known : third.names.texts.idxOf? binding.name = some name'.id := by
            obtain ⟨isName, rfl⟩ := isNamed
            obtain rfl := Except.ok.inj isName
            exact NameTable.idxOf?_enterName _ _
          exact ⟨⟨_, exposes, .bound samePlicity
            (NameTable.idxOf?_append_of_found grows.texts known) fills⟩, isContext⟩
        · rename_i otherPlicity
          split at yields
          · rename_i isExplicit
            obtain ⟨inner, binders, rfl, exposes, fills, _, isContext⟩ :=
              continued wellScoped (.refl before) yields
            exact ⟨⟨_, exposes, .inserted isExplicit (isExplicit ▸ Ne.symm otherPlicity) fills⟩,
              isContext⟩
          · exact absurd yields not_yields_halt
      · exact absurd yields not_yields_halt

/-- What is known of the checker while the constructors of a datatype of the given type are
checked. -/
structure Opened (head : DataHead) (ty : Ty) (checker : Checker) : Prop where
  wellScoped : checker.WellScoped
  binders : Telescope.Scoped checker.state.Fits 0 head.parameters
  context : checker.context = head.parameters.reverse
  sort : checker.InScope head.sort
  pending : ∃ datatype, checker.state.signature.get? head.path =
    some ⟨⟨head.path, ty, .datatype datatype⟩, .pending⟩
  /-- The parameters are the first binders of the type. -/
  opens : ∃ tail, Opens checker.state ty head.parameters tail

theorem Opened.underParameters (opened : Opened head ty checker) :
    UnderParameters checker head.parameters :=
  ⟨opened.binders, by rw [opened.context, List.length_reverse]⟩

/-- The datatype does not unfold. -/
theorem Opened.rigid (opened : Opened head ty checker) :
    checker.state.signature.body? head.path = none := by
  obtain ⟨datatype, pending⟩ := opened.pending
  exact Signature.body?_of_datatype pending rfl

/-! ## The constructors -/

section Constructors

variable {head : DataHead} {ty : Ty} {answer : Path × Constructor × List Nat}
variable {declaration : ConstructorDeclaration} {declarations : List ConstructorDeclaration}
variable {answers : List (Path × Constructor × List Nat)}

theorem advances_checkConstructor
    (yields : Yields (checkConstructor head declaration) before answer after) :
    before.state.Advances after.state := by
  obtain ⟨path, constructor, nonLinear⟩ := answer
  obtain ⟨found, fitted, _, earlier, later, _, _, _, _, _, _, free, rfl⟩ :=
    exists_of_checkConstructor yields
  have grows := earlier.learns.state.grows.trans later.learns.state.grows
  exact grows.advances.trans (State.advances_withConstructor free)

theorem advances_checkConstructors
    (yields : Yields (checkConstructors head declarations) before answers after) :
    before.state.Advances after.state := by
  induction declarations generalizing before answers with
  | nil =>
    obtain ⟨_, rfl⟩ := yields_pure_iff.1 yields
    exact .refl _
  | cons declaration declarations ih =>
    simp only [checkConstructors, yields_bind_iff, yields_pure_iff] at yields
    obtain ⟨first, middle, isFirst, rest, _, isRest, rfl, rfl⟩ := yields
    exact (advances_checkConstructor isFirst).trans (ih isRest)

theorem options_checkConstructors
    (yields : Yields (checkConstructors head declarations) before answers after) :
    after.options = before.options := by
  induction declarations generalizing before answers with
  | nil =>
    obtain ⟨_, rfl⟩ := yields_pure_iff.1 yields
    rfl
  | cons declaration declarations ih =>
    simp only [checkConstructors, yields_bind_iff, yields_pure_iff] at yields
    obtain ⟨⟨path, constructor, nonLinear⟩, middle, isFirst, rest, _, isRest, rfl, rfl⟩ := yields
    obtain ⟨found, fitted, _, earlier, later, _, _, _, _, _, _, _, rfl⟩ :=
      exists_of_checkConstructor isFirst
    exact (ih isRest).trans
      (later.learns.options.trans earlier.learns.options)

/-- The same is known after a constructor was checked. -/
theorem Opened.checkConstructor (opened : Opened head ty before)
    (yields : Yields (checkConstructor head declaration) before answer after) :
    Opened head ty after := by
  obtain ⟨wellScoped, keeps, _⟩ := (steady_checkConstructor declaration opened.wellScoped
    opened.underParameters opened.sort).of_yields yields
  have advances := advances_checkConstructor yields
  obtain ⟨path, constructor, nonLinear⟩ := answer
  obtain ⟨adds, _⟩ := adds_checkConstructor yields
  obtain ⟨datatype, pending⟩ := opened.pending
  obtain ⟨tail, opens⟩ := opened.opens
  constructor
  case wellScoped => exact wellScoped
  case binders => exact opened.binders.mono keeps.fits
  case context => exact keeps.context.trans opened.context
  case sort => exact keeps.inScope opened.sort
  case pending => exact ⟨datatype, (adds.others _ (adds.not_mem_of_taken pending)).trans pending⟩
  case opens => exact ⟨tail, opens.of_advances advances⟩

theorem Opened.checkConstructors (opened : Opened head ty before)
    (yields : Yields (checkConstructors head declarations) before answers after) :
    Opened head ty after := by
  induction declarations generalizing before answers with
  | nil =>
    obtain ⟨_, rfl⟩ := yields_pure_iff.1 yields
    exact opened
  | cons declaration declarations ih =>
    simp only [CheckM.checkConstructors, yields_bind_iff, yields_pure_iff] at yields
    obtain ⟨first, middle, isFirst, rest, _, isRest, rfl, rfl⟩ := yields
    exact ih (opened.checkConstructor isFirst) isRest

/-- Completing a datatype changes no reduction. -/
theorem Completes.advances (completes : Completes head answers certified closed after)
    (opened : Opened head ty closed) : closed.state.Advances after.state := by
  obtain ⟨pending, _, same⟩ := completes.entered
  rw [same]
  exact State.advances_withEntry opened.rigid (by simp)

/-- A datatype is completed with its type. -/
theorem Completes.entry (completes : Completes head answers certified closed after)
    (opened : Opened head ty closed) :
    after.state.signature.get? certified.path = some (certified.entry ty) := by
  obtain ⟨pending, found, same⟩ := completes.entered
  obtain ⟨datatype, isPending⟩ := opened.pending
  obtain rfl := (Entry.mk.inj (Option.some.inj (found.symm.trans isPending))).1
  rw [same, completes.path, State.get?_withEntry_self, CertifiedDatatype.entry, completes.path]

end Constructors

/-! ## The sort and the indices -/

section Indices

variable {later : State}

/-- Indices that were compared with a bound without being postponed lie below it from then on. -/
theorem atMost_of_checkIndicesBelow {bound bound' : Universe} {base : Nat}
    (wellScoped : before.WellScoped) (length : before.context.length = base + position)
    (boundInScope : bound.Scoped before.state.Fits base)
    (indicesInScope : Telescope.Scoped before.state.Fits before.context.length indices)
    (yields : Yields (checkIndicesBelow datatype bound position indices) before answer after)
    (settled : after.state.constraints = before.state.constraints)
    (advances : after.state.Advances later) (hasBound : HasNormalForm later bound bound')
    (found : indices[offset]? = some index) (hasSort : HasNormalForm later index.ty.sort sort) :
    sort.AtMost (bound'.rename (· + (position + offset))) := by
  induction indices generalizing before position offset with
  | nil => simp at found
  | cons first indices ih =>
    simp only [checkIndicesBelow_cons, yields_bind_iff, yields_push_iff] at yields
    obtain ⟨_, compared, isCompared, _, _, rfl, yields⟩ := yields
    have firstInScope : before.InScope first.ty.sort := indicesInScope.1.sort
    have earlier := ((built_leqLifted _ _ _ _).consults isCompared).learns.state.grows.remembers
    have learns := (built_checkIndicesBelow _ _ _ _).learns yields
    have rest := learns.state.grows.remembers
    cases offset with
    | zero =>
      obtain rfl : first = index := by simpa using found
      exact atMost_of_leqLifted wellScoped length boundInScope firstInScope isCompared
        (State.Remembers.constraints_eq (.refl _) earlier rest settled)
        (learns.state.grows.advances.trans advances) hasSort hasBound
    | succ offset =>
      obtain ⟨comparedWellScoped, keeps, _⟩ :=
        (steady_leqLifted wellScoped length boundInScope firstInScope).of_yields isCompared
      have pushedWellScoped : WellScoped
          { compared with context := first :: compared.context } := by
        refine ⟨comparedWellScoped.state, ?_, comparedWellScoped.context⟩
        rw [keeps.context]
        exact indicesInScope.1.mono keeps.fits (Nat.le_refl _)
      have bounded := ih pushedWellScoped
        (by rw [List.length_cons, keeps.context, length]; rfl)
        (boundInScope.mono keeps.fits (Nat.le_refl base))
        (by rw [List.length_cons, keeps.context]; exact indicesInScope.2.mono keeps.fits)
        yields (State.Remembers.constraints_eq earlier rest (.refl _) settled) found
      rwa [Nat.add_right_comm, Nat.add_assoc] at bounded

theorem hasNormalForm_ofNat (state : State) (number : Nat) :
    HasNormalForm state (Universe.ofNat number) (Universe.ofNat number) := by
  refine .set (.lub (.atomic trivial trivial) ⟨.nil, .inr ?_⟩ ?_ fun _ => rfl)
  · exact List.forall_mem_nil _
  · exact List.forall_mem_nil _

/-- The indices of a datatype that were compared with its sort without being postponed fit into it
from then on. -/
theorem atMost_of_checkIndexSorts {dataSort dataSort' : Universe} (wellScoped : before.WellScoped)
    (indicesInScope : Telescope.Scoped before.state.Fits before.context.length indices)
    (sortInScope : before.InScope dataSort)
    (yields : Yields (checkIndexSorts datatype indices dataSort) before answer after)
    (settled : after.state.constraints = before.state.constraints)
    (advances : after.state.Advances later) (hasDataSort : HasNormalForm later dataSort dataSort')
    (found : indices[offset]? = some index) (hasSort : HasNormalForm later index.ty.sort sort) :
    sort.AtMost (dataSort'.forIndices.rename (· + offset)) := by
  simp only [checkIndexSorts, yields_bind_iff, yields_reduce_iff] at yields
  obtain ⟨reduced, _, ⟨isReduced, rfl⟩, yields⟩ := yields
  obtain ⟨inner, walked, rfl⟩ := yields_restoreScope_iff.1 yields
  have learns := (built_checkIndicesBelow _ _ _ _).learns walked
  obtain ⟨reduces, reducedInScope⟩ := reduces_of_reduce wellScoped.state isReduced sortInScope
  have hasReduced := hasDataSort.of_rewrites_of_advances
    (learns.state.grows.advances.trans advances) (.of_parallel reduces.parallel)
  rw [← Nat.zero_add offset]
  split at walked
  · obtain rfl : dataSort' = .prop := by cases hasReduced; rfl
    exact atMost_of_checkIndicesBelow wellScoped rfl (Universe.scoped_ofNat 0 _) indicesInScope
      walked settled advances (hasNormalForm_ofNat later 0) found hasSort
  · have bounded := atMost_of_checkIndicesBelow wellScoped rfl reducedInScope indicesInScope
      walked settled advances hasReduced found hasSort
    cases dataSort' with
    | prop => exact bounded.forIndices
    | _ => exact bounded

/-- From a state on, the normal sort of each index lies below the normal sort of the datatype. -/
def IndicesFit (state : State) (dataSort : Universe) (indices : Telescope) : Prop :=
  ∀ ⦃later : State⦄, state.Advances later →
    ∀ ⦃dataSort' sort : Universe⦄ ⦃offset : Nat⦄ ⦃index : Domain⦄,
      HasNormalForm later dataSort dataSort' → indices[offset]? = some index →
      HasNormalForm later index.ty.sort sort →
      sort.AtMost (dataSort'.forIndices.rename (· + offset))

end Indices

/-! ## What is known of an open datatype -/

/-- The datatype was opened from a checker, and these are its indices. -/
structure OpensData (definition : DataDefinition) (before : Checker) (head : DataHead) (ty : Ty)
    (indices : Telescope) (after : Checker) : Prop where
  opened : Opened head ty after
  advances : before.state.Advances after.state
  options : after.options = before.options
  universeCheck : head.universeCheck = definition.universeCheck
  length : head.indices = indices.length
  /-- The indices are the binders of the type after the parameters. -/
  opens : ∃ core, Opens after.state ty (head.parameters ++ indices) core
  /-- Under the stricter rule the indices fit into the sort. -/
  fit : before.options.withoutK → definition.universeCheck →
    after.state.constraints = before.state.constraints →
    IndicesFit after.state head.sort indices

theorem opensData_of_openInSort {indices : Nat} (wellScoped : before.WellScoped)
    (closed : signature.ty.Scoped before.state.Fits 0)
    (underParameters : UnderParameters before parameters) (sortInScope : before.InScope sort)
    (yields : Yields (openInSort definition signature parameters indices sort) before head after) :
    head = ⟨signature.path, parameters, indices, sort, definition.universeCheck⟩ ∧
      after.WellScoped ∧ before.Keeps after ∧ before.state.Advances after.state ∧
      after.options = before.options ∧
      ∃ datatype, after.state.signature.get? signature.path =
        some ⟨⟨signature.path, signature.ty, .datatype datatype⟩, .pending⟩ := by
  simp only [openInSort, yields_bind_iff, yields_pure_iff] at yields
  obtain ⟨small, first, isSmall, _, _, isPending, rfl, rfl⟩ := yields
  obtain ⟨firstWellScoped, keeps, _⟩ :=
    (steady_smallParameters wellScoped underParameters sortInScope).of_yields isSmall
  have consults := (built_smallParameters parameters sort).consults isSmall
  have underFirst := underParameters.keeps keeps
  have sortFirst : sort.Scoped first.state.Fits parameters.length := by
    rw [← underFirst.length]
    exact keeps.inScope sortInScope
  obtain ⟨pendingWellScoped, keeps', _⟩ := (steady_registerPending firstWellScoped
    (by exact ⟨closed.mono keeps.fits (Nat.le_refl 0), sortFirst⟩)).of_yields isPending
  obtain ⟨declared, rfl⟩ := yields_registerPending_iff.1 isPending
  -- At most the type of the datatype was declared, and it does not unfold.
  have rigid : first.state.signature.body? signature.path = none := by
    cases found : first.state.signature.get? signature.path with
    | none => exact State.body?_of_free found
    | some entry =>
      obtain ⟨⟨path, ty, kind⟩, phase⟩ := entry
      obtain ⟨rfl, _⟩ := declared _ found
      simp [Signature.body?, Signature.definition?, found]
  refine ⟨rfl, pendingWellScoped, keeps.trans keeps', ?_, consults.learns.options, _,
    State.get?_withEntry_self _ _ _⟩
  exact consults.learns.state.grows.advances.trans (State.advances_withEntry rigid (by simp))

theorem opensData_of_openUnderParameters (wellScoped : before.WellScoped)
    (closed : signature.ty.Scoped before.state.Fits 0)
    (binders : Telescope.Scoped before.state.Fits 0 parameters)
    (context : before.context = parameters.reverse) (tailInScope : before.InScope tail)
    (opens : Opens before.state signature.ty parameters tail)
    (yields : Yields (openUnderParameters definition signature parameters tail) before head after) :
    ∃ indices, OpensData definition before head signature.ty indices after := by
  have underParameters : UnderParameters before parameters :=
    ⟨binders, by rw [context, List.length_reverse]⟩
  simp only [openUnderParameters_eq, yields_bind_iff, yields_get_iff,
    yields_telescopeView_iff] at yields
  obtain ⟨_, _, ⟨rfl, rfl⟩, ⟨indices, core⟩, _, ⟨isViewed, rfl⟩, sort, resolved, isResolved, _,
    compared, isCompared, yields⟩ := yields
  obtain ⟨indicesInScope, coreInScope⟩ :=
    scoped_telescopeView wellScoped.state tailInScope isViewed
  obtain ⟨last, opensIndices⟩ := OpensUpTo.of_telescopeView wellScoped.state tailInScope isViewed
  obtain ⟨resolvedWellScoped, keeps, sortInScope⟩ :=
    (steady_resolveSort wellScoped indicesInScope coreInScope).of_yields isResolved
  have indicesResolved : Telescope.Scoped resolved.state.Fits resolved.context.length indices :=
    keeps.context ▸ indicesInScope.mono keeps.fits
  obtain ⟨comparedWellScoped, keeps', _⟩ := (steady_checkIf resolvedWellScoped
    (steady_checkIndexSorts resolvedWellScoped indicesResolved sortInScope)).of_yields isCompared
  have keepsCompared := keeps.trans keeps'
  obtain ⟨rfl, afterWellScoped, keeps'', advances'', options, pending⟩ :=
    opensData_of_openInSort comparedWellScoped (closed.mono keepsCompared.fits (Nat.le_refl 0))
      (underParameters.keeps keepsCompared) (keeps'.inScope sortInScope) yields
  have keepsAfter := keepsCompared.trans keeps''
  have learns := ((built_resolveSort _ indices core).consults isResolved).learns
  have learns' := ((built_checkIf _ (built_checkIndexSorts _ _ _)).consults isCompared).learns
  have advances := learns.state.grows.advances
  have advances' := learns'.state.grows.advances
  have advancesAfter := (advances.trans advances').trans advances''
  refine ⟨indices, ?_⟩
  constructor
  case opened =>
    exact ⟨afterWellScoped, binders.mono keepsAfter.fits, keepsAfter.context.trans context,
      (keeps'.trans keeps'').inScope sortInScope, pending, tail, opens.of_advances advancesAfter⟩
  case advances => exact advancesAfter
  case options => rw [options, learns'.options, learns.options]
  case universeCheck => rfl
  case length => rfl
  case opens => exact ⟨last, (opens.append opensIndices).of_advances advancesAfter⟩
  case fit =>
    intro withoutK universeCheck settled later advancesLater _ _ _ _ hasDataSort found hasSort
    rcases yields_checkIf_iff.1 isCompared with ⟨_, isCompared⟩ | ⟨lenient, _⟩
    · exact atMost_of_checkIndexSorts resolvedWellScoped indicesResolved sortInScope isCompared
        (State.Remembers.constraints_eq advances.remembers advances'.remembers advances''.remembers
          settled)
        (advances''.trans advancesLater) hasDataSort found hasSort
    · exact absurd ⟨withoutK, universeCheck⟩ lenient

theorem advances_declareType {path : Path} {answer : Unit}
    (yields : Yields (declareType definition path) before answer after) :
    before.state.Advances after.state ∧ after.options = before.options := by
  unfold declareType at yields
  split at yields
  · obtain ⟨_, rfl⟩ := yields_pure_iff.1 yields
    exact ⟨.refl _, rfl⟩
  · obtain ⟨ty, first, isElaborated, isRegistered⟩ := yields_bind_iff.1 yields
    have learns := ((built_elaborateType _).consults isElaborated).learns
    obtain ⟨free, rfl⟩ := yields_register_iff.1 isRegistered
    exact ⟨learns.state.grows.advances.trans
      (State.advances_withEntry (State.body?_of_free free) (by simp)), learns.options⟩

/-- A datatype is opened where nothing is in scope. -/
theorem opensData_of_openData (wellScoped : before.WellScoped) (topLevel : before.context = [])
    (yields : Yields (openData definition) before head after) :
    ∃ ty indices, OpensData definition before head ty indices after := by
  simp only [openData_eq, openDeclared, yields_bind_iff, yields_get_iff] at yields
  obtain ⟨path, first, isEntered, _, second, isDeclared, signature, third, isFound, _, _,
    ⟨rfl, rfl⟩, ⟨parameters, tail⟩, bound, isBound, yields⟩ := yields
  obtain ⟨firstWellScoped, keeps, _⟩ :=
    (steady_enterPath definition.name wellScoped).of_yields isEntered
  have firstNothing : first.context = [] := keeps.context.trans topLevel
  obtain ⟨secondWellScoped, keeps', _⟩ :=
    (steady_declareType definition firstWellScoped firstNothing).of_yields isDeclared
  have nothing : second.context = [] := keeps'.context.trans firstNothing
  obtain ⟨_, _, closed, _⟩ := (steady_dataSignature secondWellScoped).of_yields isFound
  obtain ⟨rfl, _⟩ := yields_dataSignature isFound
  obtain ⟨boundWellScoped, extends_, binders, _, tailInScope⟩ :=
    (extending_bindParameters secondWellScoped (inScope_of_closed closed)).of_yields isBound
  obtain ⟨⟨_, exposes, fills⟩, isContext⟩ :=
    fills_of_bindParameters secondWellScoped (inScope_of_closed closed) isBound
  have opens := fills.opens exposes
  have entering := ((Built.enterPath definition.name).consults isEntered).learns
  obtain ⟨advances, options⟩ := advances_declareType isDeclared
  have learns := (built_bindParameters _ _ signature.ty).learns isBound
  rw [nothing, List.append_nil] at isContext
  rw [nothing, List.length_nil] at binders
  obtain ⟨indices, opensData⟩ := opensData_of_openUnderParameters boundWellScoped
    (closed.mono extends_.fits (Nat.le_refl 0)) binders isContext tailInScope opens yields
  have advancesBound : before.state.Advances bound.state :=
    (entering.state.grows.advances.trans advances).trans learns.state.grows.advances
  have optionsBound : bound.options = before.options := by
    rw [learns.options, options, entering.options]
  refine ⟨signature.ty, indices, { opensData with
    advances := advancesBound.trans opensData.advances
    options := opensData.options.trans optionsBound
    fit := ?_ }⟩
  intro withoutK universeCheck settled
  exact opensData.fit (optionsBound ▸ withoutK) universeCheck
    (State.Remembers.constraints_eq advancesBound.remembers opensData.advances.remembers (.refl _)
      settled)

end CheckM
end Families
