import Families.Proofs.ElaborationScope
import Families.Proofs.Operations

/-!
# Datatypes in well-scoped states

The parameters of a datatype are brought into scope one by one, so that its sort and the types of
its constructors stand under exactly these.  What the check of a datatype enters into the signature
is closed, and the only faults that it can stop at concern the parameters.
-/

namespace Families

variable {fuel position : Nat} {head : DataHead} {constructor datatype path : Path}
variable {indices parameters : Telescope} {ty : Ty} {sort : Universe}
variable {fits : Category → Nat → Nat → Prop} {category : Category} {phrase : Phrase category}
variable {counted : Occurrence} {later : Checker} {current : Term} {forced : List Bool}
variable {definition : DataDefinition} {signature : Definition}

/-! ## Free variables -/

/-- The free variables of a scoped phrase are in scope. -/
theorem Phrase.Scoped.lt_of_mem_freeFrom {depth binders index : Nat}
    (inScope : phrase.Scoped fits (depth + binders))
    (occurs : index ∈ phrase.freeFrom counted binders) : index < depth := by
  induction phrase generalizing binders with
  | var variableIndex =>
    simp only [freeFrom] at occurs
    simp only [Scoped] at inScope
    split at occurs
    · obtain rfl := List.mem_singleton.1 occurs
      omega
    · simp at occurs
  | pi name info domain codomain ihDomain ihCodomain =>
    rcases List.mem_append.1 occurs with inDomain | inCodomain
    · exact ihDomain inScope.1 inDomain
    · exact ihCodomain inScope.2 inCodomain
  | _ => grind [freeFrom, Scoped]

theorem Phrase.Scoped.lt_of_mem_freeVariables {depth index : Nat}
    (inScope : phrase.Scoped fits depth) (occurs : index ∈ (phrase.freeVariables counted).toList) :
    index < depth :=
  inScope.lt_of_mem_freeFrom (Positions.mem_ofList.1 occurs)

/-- The sort of a datatype that was checked stands under its parameters. -/
def CertifiedDatatype.Scoped (fits : Category → Nat → Nat → Prop) (certified : CertifiedDatatype) :
    Prop :=
  certified.datatype.sort.Scoped fits certified.datatype.parameters

namespace CheckM

open Checker

variable {checker : Checker}

/-! ## Parameters -/

theorem steady_checkAscription {domain : Ty} (binding : ParameterBinding)
    (wellScoped : checker.WellScoped) (inScope : checker.InScope domain) :
    Steady (checkAscription binding domain) checker fun _ _ => True := by
  unfold checkAscription
  split
  · exact .pure wellScoped trivial
  · refine .bind (steady_elaborateType _ wellScoped) ?_
    intro ascribed later laterWellScoped keeps ascribedInScope
    exact (steady_equalType laterWellScoped ascribedInScope (keeps.inScope inScope)).forget

/-- The binders are scoped one under the other, exactly they were brought into scope, and the rest
of the type stands under them. -/
structure BoundUnder (checker : Checker) (telescope : Telescope) (rest : Ty) (later : Checker) :
    Prop where
  binders : Telescope.Scoped later.state.Fits checker.context.length telescope
  length : later.context.length = checker.context.length + telescope.length
  remaining : later.InScope rest

theorem BoundUnder.of_context_eq {before : Checker} {telescope : Telescope} {rest : Ty}
    (bound : BoundUnder before telescope rest later) (same : before.context = checker.context) :
    BoundUnder checker telescope rest later :=
  ⟨same ▸ bound.binders, same ▸ bound.length, bound.remaining⟩

section

variable (wellScoped : checker.WellScoped)

include wellScoped

/-- One binder, and then the binders of what stands under it. -/
theorem extending_bindNext {domain : Domain} {next : CheckM (Telescope × Ty)}
    (domainInScope : checker.InScope domain.ty)
    (respects : ∀ {later : Checker}, later.WellScoped → later.state = checker.state →
      later.context = domain :: checker.context →
      Extending next later fun bound last => BoundUnder later bound.1 bound.2 last) :
    Extending
      (do
        push domain
        let (telescope, rest) ← next
        pure (domain :: telescope, rest))
      checker fun bound later => BoundUnder checker bound.1 bound.2 later := by
  refine .bind (extending_push wellScoped domainInScope) ?_
  rintro _ second secondWellScoped _ ⟨sameState, pushed⟩
  refine .bind (respects secondWellScoped sameState pushed) ?_
  rintro ⟨telescope, rest⟩ last lastWellScoped extends_ ⟨binders, length, remaining⟩
  rw [pushed, List.length_cons] at binders length
  have domainLater : domain.ty.Scoped last.state.Fits checker.context.length :=
    domainInScope.mono (fun fits => extends_.fits (sameState ▸ fits)) (Nat.le_refl _)
  refine .pure lastWellScoped ⟨⟨domainLater, binders⟩, ?_, remaining⟩
  simp only [length, List.length_cons]
  omega

theorem extending_bindParameters {bindings : List ParameterBinding} (inScope : checker.InScope ty) :
    Extending (bindParameters fuel bindings ty) checker fun bound later =>
      BoundUnder checker bound.1 bound.2 later := by
  induction fuel generalizing checker bindings ty with
  | zero =>
    cases bindings with
    | nil => exact .pure wellScoped ⟨trivial, rfl, inScope⟩
    | cons binding bindings => exact .exhausted wellScoped
  | succ fuel ih =>
    cases bindings with
    | nil => exact .pure wellScoped ⟨trivial, rfl, inScope⟩
    | cons binding bindings =>
      rw [bindParameters]
      refine .bind (steady_reduce wellScoped inScope.term).extending ?_
      rintro reduced _ _ _ ⟨_, rfl, reducedInScope⟩
      split
      · rename_i name info domain codomain
        have domainInScope : checker.InScope domain := reducedInScope.1
        have codomainInScope : checker.InScopeUnder 1 codomain := reducedInScope.2
        -- Both branches end in the same way, under the name of the parameter or of the binder.
        have continued : ∀ {bindings : List ParameterBinding} {name : Name} {later : Checker},
            later.WellScoped → checker.Keeps later →
            Extending
              (do
                push ⟨name, info, domain⟩
                let (telescope, rest) ← bindParameters fuel bindings codomain
                pure (⟨name, info, domain⟩ :: telescope, rest))
              later fun bound last => BoundUnder checker bound.1 bound.2 last := by
          intro bindings name later laterWellScoped keeps
          have domainLater : later.InScope domain := keeps.inScope domainInScope
          refine (extending_bindNext laterWellScoped domainLater ?_).mono
            fun _ _ _ _ bound => bound.of_context_eq keeps.context
          intro inner innerWellScoped sameState pushed
          exact ih innerWellScoped (inScope_of_bound sameState
            (congrArg List.length pushed) (keeps.inScope codomainInScope))
        split
        · refine .bind (steady_checkAscription binding wellScoped domainInScope).extending ?_
          rintro _ second secondWellScoped _ ⟨keeps, _⟩
          refine .bind (steady_enterName binding.name secondWellScoped).extending ?_
          rintro name third thirdWellScoped _ ⟨keeps', _⟩
          exact continued thirdWellScoped (keeps.trans keeps')
        · split
          · exact continued wellScoped (.refl checker)
          · exact .faulty wellScoped trivial
      · exact .faulty wellScoped trivial

/-! ## The sort of a datatype -/

theorem steady_resolveSort {core : Ty}
    (indicesInScope : Telescope.Scoped checker.state.Fits checker.context.length indices)
    (coreInScope : checker.InScopeUnder indices.length core) :
    Steady (resolveSort datatype indices core) checker fun sort later => later.InScope sort := by
  refine .bind (steady_freshSort true wellScoped) ?_
  intro sort second secondWellScoped keeps sortInScope
  refine .lift_bind secondWellScoped (faultless_checked _) fun expected isType => ?_
  refine .lift_bind secondWellScoped (faultless_checked _) fun lifted isLifted => ?_
  rw [checked_eq_ok_iff] at isType isLifted
  have expectedInScope : second.InScope expected := by
    simp only [Ty.ofSort?, Option.bind_eq_bind, Option.bind_eq_some_iff, Option.pure_def,
      Option.some.injEq] at isType
    obtain ⟨above, succeeded, rfl⟩ := isType
    exact ⟨Universe.scoped_succ? sortInScope succeeded, sortInScope⟩
  have liftedInScope : second.InScopeUnder indices.length lifted := expectedInScope.lift? isLifted
  have compared : Steady (under indices (tryEqualTerm core.term lifted.term)) second
      fun _ _ => True := by
    have indicesLater : Telescope.Scoped second.state.Fits second.context.length indices :=
      keeps.context ▸ indicesInScope.mono keeps.fits
    have inner : ∀ {later : Checker}, later.WellScoped → later.state = second.state →
        later.context.length = second.context.length + indices.length →
        Steady (tryEqualTerm core.term lifted.term) later fun _ last =>
          Develops later.state last.state := by
      intro later laterWellScoped sameState length
      exact steady_tryEqualTerm laterWellScoped
        (inScope_of_bound sameState length (keeps.inScope coreInScope)).term
        (inScope_of_bound sameState length liftedInScope).term
    exact steady_under secondWellScoped indicesLater
      (fun good sameState length => (inner good sameState length).forget)
      fun _ _ _ _ (done : True) => done
  refine .bind compared ?_
  intro outcome third thirdWellScoped keeps' _
  split
  · refine (steady_normalise thirdWellScoped (keeps'.inScope sortInScope)).mono ?_
    rintro _ _ _ _ ⟨rfl, normalisedInScope⟩
    exact normalisedInScope
  · split
    · exact .fail thirdWellScoped
    · exact .fail thirdWellScoped

theorem steady_checkIf {condition : Prop} [Decidable condition] {check : CheckM Unit}
    (respects : Steady check checker fun _ _ => True) :
    Steady (checkIf condition check) checker fun _ _ => True := by
  unfold checkIf
  split
  · exact respects
  · exact .pure wellScoped trivial

theorem steady_leqSortOr {left right : Universe} {wrap : ConversionError → CheckError}
    (leftInScope : checker.InScope left) (rightInScope : checker.InScope right) :
    Steady (leqSortOr left right wrap) checker fun _ _ => True := by
  refine .bind (steady_tryLeqSort wellScoped leftInScope rightInScope) ?_
  intro outcome later laterWellScoped _ _
  split
  · exact .pure laterWellScoped trivial
  · exact .fail laterWellScoped

theorem steady_leqLifted {bound : Universe} {base : Nat} {wrap : ConversionError → CheckError}
    (length : checker.context.length = base + position)
    (boundInScope : bound.Scoped checker.state.Fits base) (sortInScope : checker.InScope sort) :
    Steady (leqLifted sort bound position wrap) checker fun _ _ => True := by
  refine .lift_bind wellScoped (faultless_checked _) fun lifted isLifted => ?_
  refine steady_leqSortOr wellScoped sortInScope ?_
  unfold InScope InScopeUnder
  rw [length]
  exact boundInScope.lift? (checked_eq_ok_iff.1 isLifted)

theorem extending_checkIndicesBelow {bound : Universe} {base : Nat}
    (length : checker.context.length = base + position)
    (boundInScope : bound.Scoped checker.state.Fits base)
    (indicesInScope : Telescope.Scoped checker.state.Fits checker.context.length indices) :
    Extending (checkIndicesBelow datatype bound position indices) checker fun _ _ => True := by
  induction indices generalizing checker position with
  | nil => exact .pure wellScoped trivial
  | cons index indices ih =>
    rw [checkIndicesBelow_cons]
    refine .bind (steady_leqLifted wellScoped length boundInScope
      indicesInScope.1.sort).extending ?_
    rintro _ second secondWellScoped _ ⟨keeps, _⟩
    have indexInScope : checker.InScope index.ty := indicesInScope.1
    refine .bind (extending_push secondWellScoped (keeps.inScope indexInScope)) ?_
    rintro _ third thirdWellScoped _ ⟨sameState, pushed⟩
    have fits : ∀ {category id count}, checker.state.Fits category id count →
        third.state.Fits category id count := fun fits => sameState ▸ keeps.fits fits
    have nextLength : third.context.length = base + (position + 1) := by
      rw [pushed, List.length_cons, keeps.context, length]
      rfl
    refine ih thirdWellScoped nextLength
      (boundInScope.mono fits (Nat.le_refl base)) ?_
    rw [pushed, List.length_cons, keeps.context]
    exact indicesInScope.2.mono fits

theorem steady_checkIndexSorts
    (indicesInScope : Telescope.Scoped checker.state.Fits checker.context.length indices)
    (sortInScope : checker.InScope sort) :
    Steady (checkIndexSorts datatype indices sort) checker fun _ _ => True := by
  refine .bind (steady_reduce wellScoped sortInScope) ?_
  rintro reduced _ _ _ ⟨rfl, reducedInScope⟩
  refine steady_restoreScope wellScoped
    (extending_checkIndicesBelow wellScoped rfl ?_ indicesInScope) fun _ _ _ _ _ => trivial
  split
  · exact Universe.scoped_ofNat 0 _
  · exact reducedInScope

theorem steady_proves {comparison : CheckM (Except ConversionError Unit)}
    {answers : Except ConversionError Unit → Checker → Prop}
    (respects : Steady comparison checker answers) :
    Steady (proves comparison) checker fun _ _ => True := by
  have undone : ∀ {body : CheckM Bool}, Steady body checker (fun _ _ => True) →
      Steady (localState body) checker fun _ _ => True :=
    fun respects => (steady_localState wellScoped respects).forget
  refine undone (.get_bind (.bind respects fun outcome later laterWellScoped _ _ => ?_))
  split
  · exact .pure laterWellScoped trivial
  · exact .get_bind (.pure laterWellScoped trivial)

theorem steady_isSmall (typeInScope : checker.InScope ty)
    (sortInScope : checker.InScope sort) : Steady (isSmall ty sort) checker fun _ _ => True := by
  have isLevel : Steady
      (do
        let reduced ← reduce ty.term
        tryEqualTerm reduced (.const Path.level))
      checker fun _ later => Develops checker.state later.state := by
    refine .bind (steady_reduce wellScoped typeInScope.term) ?_
    rintro reduced _ _ _ ⟨rfl, reducedInScope⟩
    exact steady_tryEqualTerm wellScoped reducedInScope trivial
  refine .bind (steady_proves wellScoped isLevel) ?_
  intro level later laterWellScoped keeps _
  split
  · exact .pure laterWellScoped trivial
  · exact steady_proves laterWellScoped (steady_tryLeqSort laterWellScoped
      (keeps.inScope typeInScope).sort (keeps.inScope sortInScope))

end

/-- The parameters, which are all that is in scope. -/
structure UnderParameters (checker : Checker) (parameters : Telescope) : Prop where
  binders : Telescope.Scoped checker.state.Fits 0 parameters
  length : checker.context.length = parameters.length

theorem UnderParameters.keeps (underParameters : UnderParameters checker parameters)
    (keeps : checker.Keeps later) : UnderParameters later parameters :=
  ⟨underParameters.binders.mono keeps.fits, keeps.context ▸ underParameters.length⟩

section

variable (wellScoped : checker.WellScoped)

include wellScoped

theorem steady_smallAmong {positions : List Nat}
    (underParameters : UnderParameters checker parameters) (sortInScope : checker.InScope sort) :
    Steady (smallAmong parameters sort positions) checker fun _ _ => True := by
  induction positions generalizing checker with
  | nil => exact .pure wellScoped trivial
  | cons position positions ih =>
    rw [smallAmong]
    refine .lift_bind wellScoped (faultless_checked _) fun found isFound => ?_
    rw [checked_eq_ok_iff] at isFound
    cases found with
    | none => exact ih wellScoped underParameters sortInScope
    | some ty =>
      have typeInScope : checker.InScope ty := by
        have raised := underParameters.binders.liftedType? isFound
        rw [Nat.zero_add, ← underParameters.length] at raised
        exact raised
      refine .bind (steady_isSmall wellScoped typeInScope sortInScope) ?_
      intro small second secondWellScoped keeps _
      refine .bind (ih secondWellScoped (underParameters.keeps keeps)
        (keeps.inScope sortInScope)) ?_
      intro rest last lastWellScoped _ _
      exact .pure lastWellScoped trivial

theorem steady_smallParameters
    (underParameters : UnderParameters checker parameters) (sortInScope : checker.InScope sort) :
    Steady (smallParameters parameters sort) checker fun _ _ => True := by
  refine .bind (steady_smallAmong wellScoped underParameters sortInScope) ?_
  intro small later laterWellScoped _ _
  exact .pure laterWellScoped trivial

/-! ## Targets of constructors -/

theorem steady_applyToFresh {count : Nat} {term : Term} (inScope : checker.InScope term) :
    Steady (applyToFresh count term) checker fun applied later => later.InScope applied := by
  induction count generalizing checker term with
  | zero => exact .pure wellScoped inScope
  | succ count ih =>
    rw [applyToFresh]
    refine .bind (steady_infer wellScoped inScope) ?_
    intro ty second secondWellScoped keeps typeInScope
    refine .bind (steady_reduce secondWellScoped typeInScope) ?_
    rintro reduced _ _ _ ⟨rfl, reducedInScope⟩
    split
    · refine .bind (steady_freshTerm secondWellScoped reducedInScope.1.term) ?_
      intro argument third thirdWellScoped keeps' argumentInScope
      exact ih thirdWellScoped
        ⟨(keeps.trans keeps').inScope inScope, argumentInScope⟩
    · exact .fail secondWellScoped

theorem steady_genericTarget {walked : Nat}
    (length : checker.context.length = head.parameters.length + walked) :
    Steady (genericTarget head walked) checker fun target later => later.InScope target := by
  refine steady_applyToFresh wellScoped (Phrase.Scoped.applyTo trivial ?_)
  intro argument present
  obtain ⟨position, bounded, rfl⟩ := List.mem_mapIdx.1 present
  show walked + head.parameters.length - 1 - position < checker.context.length
  omega

/-- The arguments of a constructor were brought into scope, and the target stands under them. -/
theorem extending_walkToTarget {walked : Nat}
    (length : checker.context.length = head.parameters.length + walked)
    (inScope : checker.InScope current) :
    Extending (walkToTarget head constructor fuel walked current) checker fun reached later =>
      later.context.length = head.parameters.length + reached.1 ∧ later.InScope reached.2 := by
  induction fuel generalizing checker walked current with
  | zero => exact .exhausted wellScoped
  | succ fuel ih =>
    rw [walkToTarget]
    refine .bind (steady_reduce wellScoped inScope).extending ?_
    rintro reduced _ _ _ ⟨_, rfl, reducedInScope⟩
    split
    · rename_i name info domain codomain
      have domainInScope : checker.InScope domain := reducedInScope.1
      have codomainInScope : checker.InScopeUnder 1 codomain.term := reducedInScope.2.term
      refine .bind (extending_push wellScoped domainInScope) ?_
      rintro _ later laterWellScoped _ ⟨sameState, pushed⟩
      have laterLength : later.context.length = checker.context.length + 1 :=
        congrArg List.length pushed
      exact ih laterWellScoped (by omega)
        (inScope_of_bound sameState laterLength codomainInScope)
    · refine .bind (steady_genericTarget wellScoped length).extending ?_
      rintro generic second secondWellScoped _ ⟨keeps, genericInScope⟩
      refine .get_bind (.bind (steady_tryEqualTerm secondWellScoped
        (keeps.inScope reducedInScope) genericInScope).extending ?_)
      rintro outcome third thirdWellScoped _ ⟨keeps', develops⟩
      split
      · refine ih thirdWellScoped ?_ (keeps'.inScope genericInScope)
        rw [keeps'.context, keeps.context, length]
      · -- The comparison added no placeholders, so all that fits fits without it too.
        refine .bind (steady_modifyState thirdWellScoped secondWellScoped.state
          develops.fits).extending ?_
        rintro _ last lastWellScoped _ _
        exact .fail lastWellScoped
    · exact .pure wellScoped ⟨length, reducedInScope⟩

theorem steady_checkParameters {outermost : Nat} {arguments : List (ArgInfo × Term)}
    (bounded : arguments ≠ [] → outermost < checker.context.length)
    (inScope : ∀ argument ∈ arguments, checker.InScope argument.2) :
    Steady (checkParameters outermost position arguments) checker fun _ _ => True := by
  induction arguments generalizing checker position with
  | nil => exact .pure wellScoped trivial
  | cons first rest ih =>
    obtain ⟨info, argument⟩ := first
    rw [List.forall_mem_cons] at inScope
    have outermostInScope := bounded (List.cons_ne_nil _ _)
    rw [checkParameters]
    split
    · exact ih wellScoped (fun _ => outermostInScope) inScope.2
    · have variableInScope : checker.InScope (.var (outermost - position)) :=
        Nat.lt_of_le_of_lt (Nat.sub_le _ _) outermostInScope
      refine .bind (steady_equalTerm wellScoped inScope.1 variableInScope) ?_
      intro _ later laterWellScoped keeps _
      exact ih laterWellScoped (fun _ => keeps.context ▸ outermostInScope)
        fun argument present => keeps.inScope (inScope.2 argument present)

end

theorem faultless_parametersAmong {bound parameters : Nat} {indices : List Nat}
    (bounded : ∀ index ∈ indices, index < bound) :
    Faultless (parametersAmong constructor bound parameters indices) := by
  induction indices with
  | nil => exact faultless_pure _
  | cons index indices ih =>
    rw [List.forall_mem_cons] at bounded
    rw [parametersAmong, if_pos bounded.1]
    exact (ih bounded.2).bind fun _ _ => faultless_pure _

theorem extending_checkTarget (wellScoped : checker.WellScoped)
    (length : checker.context.length = head.parameters.length) (inScope : checker.InScope ty) :
    Extending (checkTarget head constructor ty) checker fun _ _ => True := by
  refine .get_bind (.bind (extending_walkToTarget wellScoped length inScope.term) ?_)
  rintro ⟨walked, target⟩ second secondWellScoped _ ⟨walkedLength, targetInScope⟩
  refine .bind (steady_normalise secondWellScoped targetInScope).extending ?_
  rintro normalised _ _ _ ⟨_, rfl, normalisedInScope⟩
  have argumentsInScope : ∀ argument ∈ normalised.arguments, second.InScope argument.2 :=
    ((Phrase.scoped_iff_arguments normalised).1 normalisedInScope).2
  simp only at walkedLength ⊢
  split
  · rename_i shape
    refine .bind (Steady.extending (steady_checkParameters secondWellScoped ?_ ?_)) ?_
    · intro present
      have positive : 0 < head.parameters.length := by
        by_contra none
        exact present (by simp [Nat.eq_zero_of_not_pos none])
      omega
    · exact fun argument present => argumentsInScope argument (List.mem_of_mem_take present)
    · rintro _ third thirdWellScoped _ ⟨keeps, _⟩
      have bounded : ∀ argument ∈ normalised.arguments.drop head.parameters.length, ∀ index ∈
          (argument.2.freeVariables .outsideAnnotations).toList,
          index < walked + head.parameters.length := by
        intro argument present index occurs
        have inScope := argumentsInScope argument (List.mem_of_mem_drop present)
        have := inScope.lt_of_mem_freeVariables occurs
        omega
      refine .bind (.mapM thirdWellScoped ?_ fun _ (known : True) => known) ?_
      · intro argument present later laterWellScoped _
        exact .lift laterWellScoped (faultless_parametersAmong (bounded argument present))
          fun _ _ => trivial
      · intro occurring last lastWellScoped _ _
        exact .pure lastWellScoped trivial
  · exact .fail secondWellScoped

/-! ## Arguments of constructors -/

theorem extending_checkArguments {base : Nat} (wellScoped : checker.WellScoped)
    (length : checker.context.length = base + position)
    (sortInScope : head.sort.Scoped checker.state.Fits base) (inScope : checker.InScope current) :
    Extending (checkArguments head constructor forced fuel position current) checker
      fun _ _ => True := by
  induction fuel generalizing checker position current with
  | zero => exact .exhausted wellScoped
  | succ fuel ih =>
    rw [checkArguments_succ]
    refine .bind (steady_reduce wellScoped inScope).extending ?_
    rintro reduced _ _ _ ⟨_, rfl, reducedInScope⟩
    split
    · rename_i name info domain codomain
      have domainInScope : checker.InScope domain := reducedInScope.1
      have codomainInScope : checker.InScopeUnder 1 codomain.term := reducedInScope.2.term
      refine .get_bind (.bind (steady_reduce wellScoped domainInScope.sort).extending ?_)
      rintro sort _ _ _ ⟨_, rfl, reducedSortInScope⟩
      refine .bind (steady_checkIf wellScoped
        (steady_leqLifted wellScoped length sortInScope reducedSortInScope)).extending ?_
      rintro _ later laterWellScoped _ ⟨keeps, _⟩
      have domainLater : later.InScope domain := keeps.inScope domainInScope
      refine .bind (extending_push laterWellScoped domainLater) ?_
      rintro _ inner innerWellScoped _ ⟨sameState, pushed⟩
      have innerLength : inner.context.length = later.context.length + 1 :=
        congrArg List.length pushed
      refine ih innerWellScoped ?_ ?_
        (inScope_of_bound sameState innerLength (keeps.inScope codomainInScope))
      · rw [innerLength, keeps.context, length]
        rfl
      · exact sortInScope.mono (fun fits => sameState ▸ keeps.fits fits) (Nat.le_refl base)
    · exact .pure wellScoped trivial

theorem steady_checkFits (wellScoped : checker.WellScoped) (sortInScope : checker.InScope head.sort)
    (inScope : checker.InScope ty) :
    Steady (checkFits head constructor forced ty) checker fun _ _ => True := by
  rw [checkFits_eq]
  refine .get_bind (.bind (steady_checkIf wellScoped
    (steady_leqSortOr wellScoped inScope.sort sortInScope)) ?_)
  intro _ later laterWellScoped keeps _
  exact steady_restoreScope laterWellScoped (extending_checkArguments laterWellScoped rfl
    (keeps.inScope sortInScope) (keeps.inScope inScope.term)) fun _ _ _ _ _ => trivial

/-! ## Forced arguments -/

theorem faultless_determinedVariables (state : State) (fuel : Nat) (term : Term) :
    Faultless (determinedVariables state fuel term) := by
  induction fuel generalizing term with
  | zero => exact faultless_exhausted
  | succ fuel ih =>
    rw [determinedVariables]
    refine (faultless_reduce state fuel term).bind fun reduced _ => ?_
    split
    · exact faultless_pure _
    · split
      · split
        · exact faultless_pure _
        · refine (faultless_mapM fun argument _ => ?_).bind fun _ _ => faultless_pure _
          exact ih _
      · exact faultless_pure _

theorem faultless_forcedArguments (state : State) (fuel : Nat) (forcing : Forcing) (ty : Ty)
    (parameters : Nat) : Faultless (forcedArguments state fuel forcing ty parameters) := by
  refine (faultless_telescopeView state fuel ty).bind fun view _ => ?_
  cases forcing with
  | everything => exact faultless_pure _
  | patterns =>
    refine (faultless_mapM fun argument _ => ?_).bind fun _ _ => faultless_pure _
    exact faultless_determinedVariables state fuel argument.2

theorem steady_findForced (wellScoped : checker.WellScoped) (inScope : checker.InScope ty) :
    Steady (findForced head ty) checker fun _ _ => True := by
  refine .get_bind ?_
  split
  · exact .lift wellScoped (faultless_forcedArguments _ _ _ _ _) fun _ _ => trivial
  · refine .bind (steady_telescopeView wellScoped inScope) ?_
    rintro ⟨telescope, core⟩ _ _ _ ⟨rfl, _⟩
    exact .pure wellScoped trivial

/-! ## Constructors -/

theorem steady_addInstance (wellScoped : checker.WellScoped) :
    Steady (modifyState (·.addInstance datatype constructor)) checker fun _ _ => True := by
  have fits : ∀ {category id count}, checker.state.Fits category id count →
      (checker.state.addInstance datatype constructor).Fits category id count := by
    intro category id count fits
    cases fits with
    | term found => exact .term found
    | sort found => exact .sort found
  refine (steady_modifyState wellScoped ?_ fits).forget
  exact wellScoped.state.of_stored fits (fun _ => .inl) (fun _ => .inl) fun _ => .inl

/-- What stands under the parameters is closed under binders for them. -/
theorem UnderParameters.closed_toPi (underParameters : UnderParameters checker parameters)
    (inScope : checker.InScope ty) :
    ((parameters.withPlicity .implicit).toPi ty).Scoped checker.state.Fits 0 := by
  refine Telescope.scoped_toPi (underParameters.binders.withPlicity .implicit) ?_
  have sameLength : (parameters.withPlicity .implicit).length = checker.context.length := by
    rw [underParameters.length, Telescope.withPlicity, List.length_map]
  rw [sameLength, Nat.zero_add]
  exact inScope

theorem steady_checkConstructor (declaration : ConstructorDeclaration)
    (wellScoped : checker.WellScoped) (underParameters : UnderParameters checker head.parameters)
    (sortInScope : checker.InScope head.sort) :
    Steady (checkConstructor head declaration) checker fun _ _ => True := by
  refine .bind (steady_enterPath declaration.name wellScoped) ?_
  intro path first firstWellScoped keeps₁ _
  split
  · refine .bind (steady_elaborateType declaration.ty firstWellScoped) ?_
    intro written second secondWellScoped keeps₂ writtenInScope
    have underSecond := underParameters.keeps (keeps₁.trans keeps₂)
    have target : Steady (restoreScope (checkTarget head path written)) second fun _ _ => True :=
      steady_restoreScope secondWellScoped
        (extending_checkTarget secondWellScoped underSecond.length writtenInScope)
        fun _ _ _ _ _ => trivial
    refine .bind target ?_
    intro nonLinear third thirdWellScoped keeps₃ _
    refine .bind (steady_normalise thirdWellScoped (keeps₃.inScope writtenInScope)) ?_
    rintro ty _ _ _ ⟨rfl, typeInScope⟩
    refine .bind (steady_findForced thirdWellScoped typeInScope) ?_
    intro forced fourth fourthWellScoped keeps₄ _
    have keepsFourth := (keeps₁.trans keeps₂).trans (keeps₃.trans keeps₄)
    have typeFourth := keeps₄.inScope typeInScope
    refine .bind (steady_checkFits fourthWellScoped (keepsFourth.inScope sortInScope)
      typeFourth) ?_
    intro arity fifth fifthWellScoped keeps₅ _
    have closed := (underParameters.keeps (keepsFourth.trans keeps₅)).closed_toPi
      (keeps₅.inScope typeFourth)
    refine .bind (steady_register fifthWellScoped ⟨closed, trivial⟩) ?_
    intro _ sixth sixthWellScoped _ _
    split
    · refine .bind (steady_addInstance sixthWellScoped) ?_
      intro _ last lastWellScoped _ _
      exact .pure lastWellScoped trivial
    · exact .pure sixthWellScoped trivial
  · exact .fail firstWellScoped

section

variable (wellScoped : checker.WellScoped)

include wellScoped

theorem steady_checkConstructors {declarations : List ConstructorDeclaration}
    (underParameters : UnderParameters checker head.parameters)
    (sortInScope : checker.InScope head.sort) :
    Steady (checkConstructors head declarations) checker fun _ _ => True := by
  induction declarations generalizing checker with
  | nil => exact .pure wellScoped trivial
  | cons declaration declarations ih =>
    refine .bind (steady_checkConstructor declaration wellScoped underParameters sortInScope) ?_
    intro first second secondWellScoped keeps _
    refine .bind (ih secondWellScoped (underParameters.keeps keeps)
      (keeps.inScope sortInScope)) ?_
    intro rest last lastWellScoped _ _
    exact .pure lastWellScoped trivial

theorem steady_checkSingleton {constructors : Nat} (sortInScope : checker.InScope sort) :
    Steady (checkSingleton path sort constructors) checker fun _ _ => True := by
  refine .get_bind ?_
  split
  · refine .bind (steady_reduce wellScoped sortInScope) ?_
    rintro reduced _ _ _ ⟨rfl, _⟩
    split
    · exact .fail wellScoped
    · exact .pure wellScoped trivial
  · exact .pure wellScoped trivial

/-! ## The check of a datatype -/

/-- Entering a declaration whose check is going on. -/
theorem steady_registerPending {definition : Definition}
    (inScope : definition.Scoped checker.state.Fits) :
    Steady (updateSignature (Signature.registerPending · definition)) checker
      fun _ later => later.context = checker.context := by
  refine steady_updateSignature wellScoped ?_
  intro signature registered
  simp only [Signature.registerPending] at registered
  split at registered
  · exact ⟨_, _, (Except.ok.inj registered).symm, inScope⟩
  · exact ⟨_, _, (Except.ok.inj registered).symm, inScope⟩
  · simp at registered

/-- Completing a declaration with what it stands for. -/
theorem steady_complete {kind : Kind} (inScope : kind.Scoped checker.state.Fits) :
    Steady (updateSignature (Signature.complete · path kind)) checker
      fun _ later => later.context = checker.context := by
  refine steady_updateSignature wellScoped ?_
  intro signature completed
  simp only [Signature.complete] at completed
  split at completed
  · simp at completed
  · simp at completed
  · rename_i definition found
    have declared := wellScoped.state.signature _ (PathMap.mem_values_of_get? found)
    exact ⟨_, _, (Except.ok.inj completed).symm, declared.1, inScope⟩

theorem steady_checkInSort {indices : Nat} (closed : signature.ty.Scoped checker.state.Fits 0)
    (underParameters : UnderParameters checker parameters) (sortInScope : checker.InScope sort) :
    Steady (checkInSort definition signature parameters indices sort) checker
      fun certified later => certified.Scoped later.state.Fits := by
  -- What is in scope stands under the parameters alone.
  have under : ∀ {later : Checker} {sort : Universe}, checker.Keeps later → later.InScope sort →
      sort.Scoped later.state.Fits parameters.length := by
    intro later sort keeps inScope
    rw [← (underParameters.keeps keeps).length]
    exact inScope
  refine .bind (steady_smallParameters wellScoped underParameters sortInScope) ?_
  intro small first firstWellScoped keeps₁ _
  have pending := under keeps₁ (keeps₁.inScope sortInScope)
  refine .bind (steady_registerPending firstWellScoped
    ⟨closed.mono keeps₁.fits (Nat.le_refl 0), pending⟩) ?_
  intro _ second secondWellScoped keeps₂ _
  have keepsSecond := keeps₁.trans keeps₂
  refine .bind (steady_checkConstructors secondWellScoped (underParameters.keeps keepsSecond)
    (keepsSecond.inScope sortInScope)) ?_
  intro constructors third thirdWellScoped keeps₃ _
  have keepsThird := keepsSecond.trans keeps₃
  refine .bind (steady_checkSingleton thirdWellScoped (keepsThird.inScope sortInScope)) ?_
  intro _ fourth fourthWellScoped keeps₄ _
  have keepsFourth := keepsThird.trans keeps₄
  refine .bind (steady_normalise fourthWellScoped (keepsFourth.inScope sortInScope)) ?_
  rintro normalised _ _ _ ⟨rfl, normalisedInScope⟩
  have complete := under keepsFourth normalisedInScope
  refine .bind (steady_complete fourthWellScoped complete) ?_
  intro _ last lastWellScoped keeps₅ _
  exact .pure lastWellScoped (complete.mono keeps₅.fits (Nat.le_refl _))

theorem steady_checkUnderParameters {tail : Ty} (closed : signature.ty.Scoped checker.state.Fits 0)
    (underParameters : UnderParameters checker parameters) (tailInScope : checker.InScope tail) :
    Steady (checkUnderParameters definition signature parameters tail) checker
      fun certified later => certified.Scoped later.state.Fits := by
  rw [checkUnderParameters_eq]
  refine .get_bind (.bind (steady_telescopeView wellScoped tailInScope) ?_)
  rintro ⟨indices, core⟩ _ _ _ ⟨rfl, indicesInScope, coreInScope⟩
  refine .bind (steady_resolveSort wellScoped indicesInScope coreInScope) ?_
  intro sort first firstWellScoped keeps sortInScope
  refine .bind (steady_checkIf firstWellScoped (steady_checkIndexSorts firstWellScoped
    (keeps.context ▸ indicesInScope.mono keeps.fits) sortInScope)) ?_
  intro _ second secondWellScoped keeps' _
  exact steady_checkInSort secondWellScoped
    (closed.mono (keeps.trans keeps').fits (Nat.le_refl 0))
    (underParameters.keeps (keeps.trans keeps')) (keeps'.inScope sortInScope)

theorem steady_dataSignature :
    Steady (dataSignature path) checker fun definition later =>
      definition.Scoped later.state.Fits := by
  refine .get_bind ?_
  split
  · rename_i found
    exact .pure wellScoped (wellScoped.state.definition found)
  · exact .fail wellScoped
  · exact .fail wellScoped

end

section

variable (definition : DataDefinition) {path : Path}
variable (wellScoped : checker.WellScoped) (topLevel : checker.context = [])
include wellScoped topLevel

theorem steady_declareType : Steady (declareType definition path) checker fun _ _ => True := by
  unfold declareType
  split
  · exact .pure wellScoped trivial
  · refine .bind (steady_elaborateType _ wellScoped) ?_
    intro ty later laterWellScoped keeps typeInScope
    exact steady_register laterWellScoped ⟨keeps.closed topLevel typeInScope, trivial⟩

theorem steady_checkDeclared : Steady (checkDeclared definition path) checker
    fun certified later => certified.Scoped later.state.Fits := by
  refine .bind (steady_dataSignature wellScoped) ?_
  intro signature first firstWellScoped keeps ⟨closed, _⟩
  have nothing : first.context = [] := keeps.context.trans topLevel
  refine .get_bind (steady_restoreScope firstWellScoped
    (.bind (extending_bindParameters firstWellScoped (inScope_of_closed closed)) ?_)
    fun _ _ _ _ inScope => inScope)
  rintro ⟨parameters, tail⟩ second secondWellScoped extends_ ⟨binders, length, tailInScope⟩
  rw [nothing, List.length_nil] at binders length
  rw [Nat.zero_add] at length
  refine (steady_checkUnderParameters secondWellScoped
    (closed.mono extends_.fits (Nat.le_refl 0)) ⟨binders, length⟩ tailInScope).extending.mono ?_
  rintro _ _ _ _ ⟨_, inScope⟩
  exact inScope

/-- A datatype is checked where nothing is in scope. -/
theorem steady_checkData : Steady (checkData definition) checker
    fun certified later => certified.Scoped later.state.Fits := by
  rw [checkData_eq]
  refine .bind (steady_enterPath definition.name wellScoped) ?_
  intro path first firstWellScoped keeps₁ _
  have nothing : first.context = [] := keeps₁.context.trans topLevel
  refine steady_speculate firstWellScoped
    (.bind (steady_declareType definition firstWellScoped nothing) ?_)
  intro _ second secondWellScoped keeps₂ _
  exact steady_checkDeclared definition secondWellScoped (keeps₂.context.trans nothing)

end

end CheckM
end Families
