import Families.Proofs.Construction

/-!
# Arguments fit into the sort of their datatype

The sort of each argument of a constructor lies below the sort of the datatype, unless the argument
is forced and that is enough.  The check compares the sorts as they stand under the parameters and
the earlier arguments; what it compared without postponing holds of the normal forms in the end.
-/

namespace Families

variable {forced : List Bool} {later state : State} {bound : Universe} {path constructor : Path}
variable {arity fuel : Nat} {target : Ty} {telescope : Telescope} {position : Nat} {shape : Ty}
variable {arguments : Telescope}

theorem HasNormalForm.sort {ty ty' : Ty} (hasNormalForm : HasNormalForm state ty ty') :
    HasNormalForm state ty.sort ty'.sort := by
  cases hasNormalForm with
  | @atomic _ ty isAtomic _ =>
    cases ty
    exact isAtomic.elim
  | classified hasSort _ => exact hasSort

theorem HasNormalForm.sizeUniv_eq {result : Universe}
    (hasNormalForm : HasNormalForm state .sizeUniv result) : result = .sizeUniv := by
  cases hasNormalForm with
  | atomic => rfl

namespace CheckM

open Checker

variable {before after : Checker} {head : DataHead} {ty : Ty}

/-! ## The walk along the arguments -/

/-- The walk past one argument. -/
theorem stages_of_checkArguments {name : Name} {info : ArgInfo} {domain codomain : Ty}
    (yields : Yields (checkArguments head constructor forced fuel position
      (.pi name info domain codomain)) before arity after) :
    ∃ fuel' sort middle, Families.reduce before.state before.fuel domain.sort = .ok sort ∧
      Yields (checkIf (head.universeCheck ∧
          (before.options.withoutK ∨ ¬forced[position]? = some true) ∧ sort ≠ .sizeUniv)
        (leqLifted sort head.sort position (.sortContainment constructor
          (some position) head.sort)))
        before () middle ∧
      Yields (checkArguments head constructor forced fuel' (position + 1) codomain.term)
        { middle with context := ⟨name, info, domain⟩ :: middle.context } arity after := by
  cases fuel with
  | zero => exact absurd yields not_yields_halt
  | succ fuel =>
    simp only [checkArguments_succ, yields_bind_iff, yields_reduce_iff] at yields
    obtain ⟨_, _, ⟨isReduced, rfl⟩, yields⟩ := yields
    obtain rfl := eq_of_reduce_pi isReduced
    simp only [yields_bind_iff, yields_get_iff, yields_reduce_iff, yields_push_iff] at yields
    obtain ⟨_, _, ⟨rfl, rfl⟩, sort, _, ⟨reduced, rfl⟩, _, middle, compared, _, _, rfl, yields⟩ :=
      yields
    exact ⟨fuel, sort, middle, reduced, compared, yields⟩

/-- An argument that has to fit into the sort of the datatype fits from then on, if nothing was
postponed. -/
theorem atMost_of_checkArguments {base offset : Nat} {current : Ty} {argument : Domain}
    {sort : Universe}
    (chain : FunctionChain current telescope target) (wellScoped : before.WellScoped)
    (length : before.context.length = base + position)
    (sortInScope : head.sort.Scoped before.state.Fits base) (inScope : before.InScope current)
    (yields : Yields (checkArguments head constructor forced fuel position current.term) before
      arity after)
    (settled : after.state.constraints = before.state.constraints)
    (advances : after.state.Advances later) (universeCheck : head.universeCheck)
    (found : telescope[offset]? = some argument)
    (counts : before.options.withoutK ∨ ¬forced[position + offset]? = some true)
    (hasBound : HasNormalForm later head.sort bound)
    (hasSort : HasNormalForm later argument.ty.sort sort) :
    sort = .sizeUniv ∨ sort.AtMost (bound.rename (· + (position + offset))) := by
  induction chain generalizing before position offset fuel with
  | nil => simp at found
  | @cons sort' name info domain codomain target telescope _ ih =>
    obtain ⟨fuel', reduced, middle, isReduced, compared, yields⟩ := stages_of_checkArguments yields
    obtain ⟨_, domainInScope, codomainInScope⟩ := inScope
    obtain ⟨reduces, reducedInScope⟩ :=
      reduces_of_reduce wellScoped.state isReduced domainInScope.sort
    have rest := ((built_checkArguments _ _ _ _ _ _).learns yields).state.grows
    obtain ⟨middleWellScoped, keeps, _⟩ := (steady_checkIf wellScoped
      (steady_leqLifted wellScoped length sortInScope reducedInScope)).of_yields compared
    have consults := (built_checkIf _ (built_leqLifted _ _ _ _)).consults compared
    have earlier := consults.learns.state.grows
    cases offset with
    | zero =>
      obtain rfl := Option.some.inj found
      have hasReduced := hasSort.of_rewrites_of_advances
        (earlier.advances.trans (rest.advances.trans advances)) (.of_parallel reduces.parallel)
      rcases yields_checkIf_iff.1 compared with ⟨_, compared⟩ | ⟨unchecked, _⟩
      · exact .inr (atMost_of_leqLifted wellScoped length sortInScope reducedInScope compared
          (State.Remembers.constraints_eq (.refl _) earlier.remembers rest.remembers settled)
          (rest.advances.trans advances) hasReduced hasBound)
      · have isSize : reduced = .sizeUniv := by
          by_contra different
          exact unchecked ⟨universeCheck, counts, different⟩
        subst isSize
        exact .inl hasReduced.sizeUniv_eq
    | succ offset =>
      have pushedWellScoped : WellScoped
          { middle with context := ⟨name, info, domain⟩ :: middle.context } :=
        ⟨middleWellScoped.state, keeps.inScope domainInScope, middleWellScoped.context⟩
      have pushedLength : (⟨name, info, domain⟩ :: middle.context : Context).length =
          base + (position + 1) := by
        rw [List.length_cons, keeps.context, length]
        rfl
      have codomainUnder : before.InScopeUnder 1 codomain := codomainInScope
      have codomainPushed : InScope
          { middle with context := ⟨name, info, domain⟩ :: middle.context } codomain :=
        keeps.inScope codomainUnder
      have bounded := ih pushedWellScoped pushedLength
        (sortInScope.mono keeps.fits (Nat.le_refl base)) codomainPushed yields
        (State.Remembers.constraints_eq earlier.remembers rest.remembers (.refl _) settled)
        found (by rw [consults.learns.options, Nat.add_right_comm, Nat.add_assoc]; exact counts)
      rwa [Nat.add_right_comm, Nat.add_assoc] at bounded

/-- Arguments of a constructor in normal form fit into a sort: each that is not forced does, and
under the stricter rule each does. -/
def ArgumentsFit (withoutK : Bool) (forced : List Bool) (bound : Universe) (arguments : Telescope) :
    Prop :=
  ∀ ⦃position : Nat⦄ ⦃argument : Domain⦄, arguments[position]? = some argument →
    withoutK ∨ forced[position]? = some false →
    argument.ty.sort = .sizeUniv ∨
      Universe.AtMost argument.ty.sort (bound.rename (· + position))

theorem argumentsFit_of_checkArguments (chain : FunctionChain shape telescope target)
    (wellScoped : before.WellScoped) (sortInScope : before.InScope head.sort)
    (inScope : before.InScope shape)
    (yields : Yields (restoreScope (checkArguments head path forced fuel 0 shape.term)) before arity
      after)
    (settled : after.state.constraints = before.state.constraints)
    (advances : after.state.Advances later) (universeCheck : head.universeCheck)
    (hasBound : HasNormalForm later head.sort bound)
    (normals : List.Forall₂ (Domain.Normal later) telescope arguments) :
    ArgumentsFit before.options.withoutK forced bound arguments := by
  intro position argument isArgument counts
  obtain ⟨inner, isWalked, rfl⟩ := yields_restoreScope_iff.1 yields
  obtain ⟨domain, found, normal⟩ := getElem?_of_forall₂ normals.flip isArgument
  have counts' : before.options.withoutK ∨ ¬forced[0 + position]? = some true := by
    refine counts.imp_right fun unforced => ?_
    rw [Nat.zero_add, unforced]
    simp
  have bounded := atMost_of_checkArguments chain wellScoped rfl sortInScope inScope isWalked settled
    advances universeCheck found counts' hasBound normal.ty.sort
  rwa [Nat.zero_add] at bounded

/-- A constructor that was checked to fit into the sort of its datatype fits from then on.  Under
the stricter rule its own type does too. -/
theorem fits_of_checkFits {own : Ty}
    (chain : FunctionChain shape telescope target) (wellScoped : before.WellScoped)
    (sortInScope : before.InScope head.sort) (inScope : before.InScope shape)
    (yields : Yields (checkFits head path forced shape) before arity after)
    (settled : after.state.constraints = before.state.constraints)
    (advances : after.state.Advances later) (universeCheck : head.universeCheck)
    (hasBound : HasNormalForm later head.sort bound) (hasOwn : HasNormalForm later shape own)
    (normals : List.Forall₂ (Domain.Normal later) telescope arguments) :
    ArgumentsFit before.options.withoutK forced bound arguments ∧
      (before.options.withoutK → Universe.AtMost own.sort bound) := by
  simp only [checkFits_eq, yields_bind_iff, yields_get_iff] at yields
  obtain ⟨_, _, ⟨rfl, rfl⟩, _, middle, compared, yields⟩ := yields
  have earlier := ((built_checkIf _ (built_leqSortOr _ _ _)).consults compared).learns
  have rest := ((built_checkArguments _ _ _ _ _ _).restoreScope.consults yields).learns.state.grows
  obtain ⟨middleWellScoped, keeps, _⟩ := (steady_checkIf wellScoped
    (steady_leqSortOr wellScoped inScope.sort sortInScope)).of_yields compared
  constructor
  · rw [← earlier.options]
    exact argumentsFit_of_checkArguments chain middleWellScoped (keeps.inScope sortInScope)
      (keeps.inScope inScope) yields
      (State.Remembers.constraints_eq earlier.state.grows.remembers rest.remembers
        (.refl _) settled)
      advances universeCheck hasBound normals
  · intro withoutK
    rw [yields_checkIf_iff, yields_leqSortOr_iff] at compared
    rcases compared with ⟨_, compared⟩ | ⟨unchecked, _⟩
    · exact atMost_of_tryLeqSort wellScoped inScope.sort sortInScope compared
        (State.Remembers.constraints_eq (.refl _) earlier.state.grows.remembers rest.remembers
          settled)
        (rest.advances.trans advances) hasOwn.sort hasBound
    · exact absurd ⟨universeCheck, withoutK⟩ unchecked

/-! ## Certified datatypes -/

section Certified

variable {definition : DataDefinition} {indices : Telescope} {opened closed : Checker}
variable {answers : List (Path × Constructor × List Nat)} {certified : CertifiedDatatype}

section

variable
  (stages : DataStages definition before head ty indices opened answers closed certified after)

include stages

/-- The certified sort of a datatype is the normal form of its sort in the end. -/
theorem DataStages.hasSort : HasNormalForm after.state head.sort certified.datatype.sort := by
  have hasSort := (normalises_of_normalise stages.closedOpened.wellScoped.state
    stages.completes.sort stages.closedOpened.sort).1.hasNormalForm
  obtain ⟨pending, _, same⟩ := stages.completes.entered
  have advances := stages.completes.advances stages.closedOpened
  refine hasSort.of_resolves advances.resolves ⟨fun id solution solved => ?_, fun path => ?_⟩
  · rw [same] at solved
    exact solved
  · exact (advances.body path).symm

theorem DataStages.constructorFits {constructor : Constructor}
    (wellScoped : after.state.WellScoped) (universeCheck : definition.universeCheck)
    (settled : after.state.constraints = before.state.constraints)
    (present : (path, constructor) ∈ certified.constructors) :
    ∃ ty, after.state.signature.get? path =
        some ⟨⟨path, ty, .constructor constructor⟩, .complete⟩ ∧
      ∀ fuel normal, Families.normalise after.state fuel ty = .ok normal →
        ∃ parameters own arguments target,
          FunctionChain normal parameters own ∧
          parameters.length = certified.datatype.parameters ∧
          FunctionChain own arguments target ∧ arguments.length = constructor.arity ∧
          ArgumentsFit before.options.withoutK constructor.forced certified.datatype.sort
            arguments ∧
          (before.options.withoutK → Universe.AtMost own.sort certified.datatype.sort) := by
  obtain ⟨position, isPresent⟩ := List.mem_iff_getElem?.1 present
  obtain ⟨_, _, first, second, shape, found, fitted, _, _, _, _, constructs, options, fromOpened,
    toFinal, entry⟩ := stages.constructor isPresent
  refine ⟨_, entry, fun fuel normal normalised => ?_⟩
  have toFirst := (stages.opens.advances.trans fromOpened).remembers
  have toFound := constructs.consults.learns.state.grows.remembers
  have toFitted :=
    ((built_checkFits _ _ _ _).consults constructs.fits).learns.state.grows.remembers
  have fittedToFinal := constructs.advances.trans toFinal
  obtain ⟨telescope, target, chain, isTarget, arity⟩ := constructs.target
    (toFirst.constraints_eq toFound (toFitted.trans fittedToFinal.remembers) settled)
  obtain ⟨parameters, own, chainParameters, normalParameters, hasOwn⟩ :=
    (OpensUpTo.toPi _ shape).chain (wellScoped.hasNormalForm entry normalised)
  obtain ⟨arguments, last, chainArguments, normalArguments, _⟩ := chain.exposes.chain hasOwn
  obtain ⟨argumentsFit, ownFits⟩ := fits_of_checkFits chain constructs.opened.wellScoped
    constructs.opened.sort constructs.inScope constructs.fits
    ((toFirst.trans toFound).constraints_eq toFitted fittedToFinal.remembers settled) fittedToFinal
    (stages.opens.universeCheck ▸ universeCheck) stages.hasSort hasOwn normalArguments
  rw [constructs.consults.learns.options, options] at argumentsFit ownFits
  refine ⟨parameters, own, arguments, last, chainParameters, ?_, chainArguments, ?_, argumentsFit,
    ownFits⟩
  · rw [← normalParameters.length_eq, stages.completes.parameters, Telescope.withPlicity,
      List.length_map]
  · rw [← normalArguments.length_eq, arity]

theorem DataStages.indicesFit {normal : Ty} (universeCheck : definition.universeCheck)
    (settled : after.state.constraints = before.state.constraints)
    (withoutK : before.options.withoutK) (hasNormal : HasNormalForm after.state ty normal) :
    ∃ parameters tail binders core,
      FunctionChain normal parameters tail ∧
      parameters.length = certified.datatype.parameters ∧
      FunctionChain tail binders core ∧ binders.length = certified.datatype.indices ∧
      ∀ position index, binders[position]? = some index →
        Universe.AtMost index.ty.sort
          (certified.datatype.sort.forIndices.rename (· + position)) := by
  obtain ⟨core, opens⟩ := stages.opens.opens
  obtain ⟨middle, opensParameters, opensIndices⟩ :=
    (opens.of_advances stages.advances).append_cases
  obtain ⟨parameters, tail, chainParameters, normalParameters, hasTail⟩ :=
    opensParameters.chain hasNormal
  obtain ⟨binders, last, chainIndices, normalIndices, _⟩ := opensIndices.chain hasTail
  have fit := stages.opens.fit withoutK universeCheck
    (State.Remembers.constraints_eq (.refl _) stages.opens.advances.remembers
      stages.advances.remembers settled)
  refine ⟨parameters, tail, binders, last, chainParameters, ?_, chainIndices, ?_, ?_⟩
  · rw [← normalParameters.length_eq, stages.completes.parameters]
  · rw [← normalIndices.length_eq, stages.completes.indices, stages.opens.length]
  · intro position index isIndex
    obtain ⟨domain, found, normal⟩ := getElem?_of_forall₂ normalIndices.flip isIndex
    exact fit stages.advances stages.hasSort found normal.ty.sort

end

end Certified

/-- The arguments of the constructors of a certified datatype fit into its sort, if nothing was
postponed.  Under the stricter rule so do the types of the constructors and the indices. -/
theorem arguments_fit_into_sort
    {checker : Checker}
    {definition : DataDefinition}
    {certified : CertifiedDatatype}
    (reachable : Reachable checker)
    (topLevel : checker.context = [])
    (universeCheck : definition.universeCheck)
    (accepted : ((checkDeclaration (.data definition)).run checker).result = .ok (some certified))
    (settled : ((checkDeclaration (.data definition)).run checker).state.state.constraints =
      checker.state.constraints) :
    let final := ((checkDeclaration (.data definition)).run checker).state.state
    (∀ path constructor, (path, constructor) ∈ certified.constructors →
      ∃ ty, final.signature.get? path = some ⟨⟨path, ty, .constructor constructor⟩, .complete⟩ ∧
        ∀ fuel normal, Families.normalise final fuel ty = .ok normal →
          ∃ parameters own arguments target,
            FunctionChain normal parameters own ∧
            parameters.length = certified.datatype.parameters ∧
            FunctionChain own arguments target ∧ arguments.length = constructor.arity ∧
            ArgumentsFit checker.options.withoutK constructor.forced certified.datatype.sort
              arguments ∧
            (checker.options.withoutK → Universe.AtMost own.sort certified.datatype.sort)) ∧
    ∃ signature, final.signature.get? certified.path = some (certified.entry signature) ∧
      (checker.options.withoutK →
        ∀ fuel normal, Families.normalise final fuel signature = .ok normal →
          ∃ parameters tail indices core,
            FunctionChain normal parameters tail ∧
            parameters.length = certified.datatype.parameters ∧
            FunctionChain tail indices core ∧ indices.length = certified.datatype.indices ∧
            ∀ position index, indices[position]? = some index →
              Universe.AtMost index.ty.sort
                (certified.datatype.sort.forIndices.rename (· + position))) := by
  intro final
  obtain ⟨head, signature, indices, opened, answers, closed, stages⟩ :=
    dataStages_of_checkData reachable.wellScoped topLevel (yields_checkData_of_accepted accepted)
  have wellScoped := (reachable.ends (.declare (.data definition)) topLevel).wellScoped
  constructor
  · exact fun _ _ present => stages.constructorFits wellScoped.state universeCheck settled present
  · refine ⟨signature, stages.entry, fun withoutK fuel normal normalised => ?_⟩
    exact stages.indicesFit universeCheck settled withoutK
      (wellScoped.state.hasNormalForm stages.entry normalised)

/-- A set that is an index of the datatype, with a point of it. -/
def pointed : DataDefinition :=
  { name := "Pointed"
    ty := some (.pi "A" {} (.set 0) (.set 1))
    constructors :=
      [ { name := "point"
          ty := .pi "A" {} (.set 0)
            (.arrow (.var "A") (.app (.const "Pointed") [(.explicit, .var "A")])) } ] }

/-- The set is forced by the index. -/
def certifiedPointed : CertifiedDatatype :=
  { path := ⟨2⟩
    datatype := ⟨0, 1, Universe.ofNat 1, .ind, [⟨3⟩], .empty, .empty, true⟩
    constructors := [(⟨3⟩, ⟨⟨2⟩, 0, 2, .ind, [true, false]⟩)] }

/-- Under the stricter rule the set fits although it is forced. -/
theorem arguments_fit_into_sort_forced :
    let outcome :=
      (checkDeclaration (.data pointed)).run (Checker.initial { withoutK := true } .patterns 40)
    outcome.result = .ok (some certifiedPointed) ∧
      (∃ entry normal, outcome.state.state.signature.get? ⟨3⟩ = some entry ∧
        Families.normalise outcome.state.state 40 entry.definition.ty = .ok normal ∧
        ∃ parameters own arguments target,
          FunctionChain normal parameters own ∧ FunctionChain own arguments target ∧
          arguments.length = 2 ∧ ArgumentsFit true [true, false] (Universe.ofNat 1) arguments ∧
          Universe.AtMost own.sort (Universe.ofNat 1)) ∧
      ∃ entry normal, outcome.state.state.signature.get? ⟨2⟩ = some entry ∧
        Families.normalise outcome.state.state 40 entry.definition.ty = .ok normal ∧
        ∃ parameters tail indices core,
          FunctionChain normal parameters tail ∧ FunctionChain tail indices core ∧
          indices.length = 1 ∧
          ∀ position index, indices[position]? = some index →
            Universe.AtMost index.ty.sort ((Universe.ofNat 1).forIndices.rename
              (· + position)) := by
  intro outcome
  have accepted : outcome.result = .ok (some certifiedPointed) := by decide +kernel
  obtain ⟨constructors, signature, isEntered, indices⟩ := arguments_fit_into_sort
    (.initial { withoutK := true } .patterns 40) rfl rfl accepted (by decide +kernel)
  obtain ⟨ty, entry, fits⟩ := constructors ⟨3⟩ _ (.head _)
  have normalises : ∀ path ∈ [(⟨3⟩ : Path), ⟨2⟩],
      ((outcome.state.state.signature.get? path).map fun entry =>
        (Families.normalise outcome.state.state 40 entry.definition.ty).isOk) = some true := by
    decide +kernel
  rw [List.forall_mem_cons, List.forall_mem_singleton, entry] at normalises
  have isEntered' : outcome.state.state.signature.get? ⟨2⟩ = _ := isEntered
  rw [isEntered'] at normalises
  obtain ⟨normal, normalised, _, _, _, _, chain, _, chain', length, argumentsFit, ownFits⟩ :=
    exists_ok_of_isOk (Option.some.inj normalises.1) (fits 40)
  obtain ⟨normal', normalised', _, _, _, _, chain₂, _, chain₂', length', indicesFit⟩ :=
    exists_ok_of_isOk (Option.some.inj normalises.2) (indices rfl 40)
  exact ⟨accepted,
    ⟨_, normal, entry, normalised, _, _, _, _, chain, chain', length, argumentsFit, ownFits rfl⟩,
    _, normal', isEntered', normalised', _, _, _, _, chain₂, chain₂', length', indicesFit⟩

end CheckM
end Families
