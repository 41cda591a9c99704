import Families.Proofs.History
import Families.Proofs.Stillness

/-!
# Forced arguments

An argument that is marked as forced stands among the indices of the target, as an index or as an
argument of constructors, and these are compared one by one.  So targets that are equal have equal
forced arguments, provided that the argument does not stand in an index that is irrelevant: such an
index determines the arguments in it as others do, but it is never compared.
-/

namespace Families

variable {index position : Nat} {path : Path} {target term : Term} {ty : Ty}

/-! ## Determined variables -/

/-- The term becomes a variable, or a constructor whose relevant arguments determine one. -/
inductive Determines (state : State) : Term → Nat → Prop where
  | var {term : Term} {index : Nat} :
      Steps state term (.var index) → Determines state term index
  | constructor {term result : Term} {path : Path} {constructor : Constructor}
      {argument : ArgInfo × Term} {index : Nat} :
      Steps state term result →
      result.head = .const path →
      state.signature.constructor? path = some constructor →
      argument ∈ result.arguments →
      argument.1.isIrrelevant = false →
      Determines state argument.2 index →
      Determines state term index

variable {state : State}

/-- The variables that were found in an earlier state are determined. -/
theorem determines_of_determinedVariables {before : State} {fuel depth : Nat} {indices : List Nat}
    (preserves : before.Preserves state) (wellScoped : state.WellScoped)
    (inScope : term.Scoped state.Fits depth)
    (found : determinedVariables before fuel term = .ok indices) (present : index ∈ indices) :
    Determines state term index := by
  induction fuel generalizing term indices with
  | zero => cases found
  | succ fuel ih =>
    simp only [determinedVariables, bind_eq_ok_iff] at found
    obtain ⟨result, reduced, found⟩ := found
    have steps := steps_of_reduce preserves.toRetains wellScoped inScope reduced
    split at found
    · obtain rfl := Except.ok.inj found
      rw [List.mem_singleton] at present
      subst present
      exact .var (by simpa using steps.imp_left And.left)
    · split at found
      · rename_i path isConst
        split at found
        · obtain rfl := Except.ok.inj found
          cases present
        · rename_i constructor isConstructor
          simp only [bind_eq_ok_iff, pure_eq_ok_iff] at found
          obtain ⟨determined, mapped, rfl⟩ := found
          obtain ⟨part, partPresent, present⟩ := List.mem_flatten.1 present
          obtain ⟨argument, relevant, isPart⟩ := CheckM.exists_of_mapM_eq_ok mapped partPresent
          rw [List.mem_filter] at relevant
          obtain ⟨taken, resultInScope⟩ : _ ∧ _ := steps.resolve_right <| by
            rintro (⟨_, rfl⟩ | ⟨_, rfl⟩) <;> cases isConst
          have argumentPresent := List.mem_of_mem_drop relevant.1
          have argumentInScope :=
            ((Phrase.scoped_iff_arguments result).1 resultInScope).2 argument argumentPresent
          exact .constructor taken isConst (preserves.constructor _ _ isConstructor)
            argumentPresent (by simpa using relevant.2)
            (ih argumentInScope isPart present)
      · obtain rfl := Except.ok.inj found
        cases present

/-- Substitutions with the same result agree on the variables that the term determines. -/
theorem Determines.eq_of_replace_eq {left right : Nat → Term}
    (determines : Determines state term index) (same : term.replace left = term.replace right) :
    left index = right index := by
  induction determines with
  | var steps => exact steps.replace_eq same
  | constructor steps isConst _ present _ _ ih =>
    have arguments := congrArg Phrase.arguments (steps.replace_eq same)
    rw [(Phrase.replace_of_const isConst left).2, (Phrase.replace_of_const isConst right).2,
      List.map_inj_left] at arguments
    exact ih (Prod.mk.inj (arguments _ present)).2

/-- A determined variable occurs in the term. -/
theorem Determines.mem_freeVariables (determines : Determines state term index) :
    index ∈ (term.freeVariables .anywhere).toList := by
  by_contra absent
  -- Two substitutions that differ at this variable alone.
  let other : Nat → Term := fun variableIndex =>
    if variableIndex = index then .const ⟨0⟩ else .var variableIndex
  have same : term.replace .var = term.replace other := by
    refine Phrase.replace_congr_of_free fun variableIndex occurs => ?_
    have different : variableIndex ≠ index := fun same => absent (same ▸ occurs)
    simp [other, different]
  simpa [other] using determines.eq_of_replace_eq same

/-! ## Comparisons -/

namespace ConvM

variable {fuel depth : Nat} {before after : State} {left right : Term}

/-- The terms are found equal, and no part of their comparison is postponed. -/
structure Unifies (fuel depth : Nat) (before : State) (left right : Term) (after : State) :
    Prop where
  equal : Yields (equalTerm fuel depth left right) before () after
  constraints : after.constraints = before.constraints

/-- Terms are compared as what they become. -/
theorem Unifies.of_steps {left' right' : Term}
    (unifies : Unifies fuel depth before left right after) (leftSteps : Steps before left left')
    (rightSteps : Steps before right right') : Unifies fuel depth before left' right' after := by
  refine ⟨?_, unifies.constraints⟩
  have equal := unifies.equal
  cases fuel with
  | zero => exact absurd equal not_yields_halt
  | succ fuel =>
    simp only [equalTerm, yields_bind_iff, yields_get_iff, yields_lift_iff] at equal ⊢
    obtain ⟨_, _, ⟨rfl, rfl⟩, leftResult, _, ⟨leftReduced, rfl⟩, rightResult, _,
      ⟨rightReduced, rfl⟩, equal⟩ := equal
    exact ⟨_, _, ⟨rfl, rfl⟩, leftResult, _, ⟨reduce_of_steps leftSteps leftReduced, rfl⟩,
      rightResult, _, ⟨reduce_of_steps rightSteps rightReduced, rfl⟩, equal⟩

/-- Comparing a declaration with itself changes nothing. -/
theorem eq_of_equalTerm_const {answer : Unit}
    (yields : Yields (equalTerm fuel depth (.const path) (.const path)) before answer after) :
    before = after := by
  cases fuel with
  | zero => exact absurd yields not_yields_halt
  | succ fuel =>
    simp only [equalTerm, yields_bind_iff, yields_get_iff, yields_lift_iff] at yields
    obtain ⟨_, _, ⟨rfl, rfl⟩, result, _, ⟨reduced, rfl⟩, result', _, ⟨reduced', rfl⟩, yields⟩ :=
      yields
    obtain rfl := Except.ok.inj (reduced.symm.trans reduced')
    simpa using yields

/-- Applications of a declaration that does not unfold are the same, or have equal arguments. -/
theorem arguments_of_equalTerm (yields : Yields (equalTerm fuel depth left right) before () after)
    (rigid : before.signature.body? path = none) (leftIsConst : left.head = .const path)
    (rightIsConst : right.head = .const path) :
    left = right ∨ ∃ smaller < fuel,
      Yields (equalArguments (equalTerm smaller depth) left.arguments right.arguments)
        before () after := by
  cases fuel with
  | zero => exact absurd yields not_yields_halt
  | succ fuel =>
    simp only [equalTerm, yields_bind_iff, yields_get_iff, yields_lift_iff] at yields
    obtain ⟨_, _, ⟨rfl, rfl⟩, result, _, ⟨reduced, rfl⟩, result', _, ⟨reduced', rfl⟩, yields⟩ :=
      yields
    obtain rfl := eq_of_reduce_const leftIsConst rigid reduced
    obtain rfl := eq_of_reduce_const rightIsConst rigid reduced'
    split at yields
    · exact .inl (by assumption)
    · rename_i different
      cases result with
      | const leftPath =>
        cases result' with
        | const rightPath => exact absurd (leftIsConst.trans rightIsConst.symm) different
        | app => exact absurd yields not_yields_fail
        | _ => cases rightIsConst
      | app leftFunction leftArgument leftInfo =>
        cases result' with
        | const => exact absurd yields not_yields_fail
        | app rightFunction rightArgument rightInfo =>
          simp only [leftIsConst, rightIsConst, isPlaceholder, Bool.or_self,
            Bool.false_eq_true, if_false] at yields
          split at yields
          · obtain ⟨_, _, heads, arguments⟩ := yields_bind_iff.1 yields
            obtain rfl := eq_of_equalTerm_const heads
            exact .inr ⟨fuel, Nat.lt_succ_self fuel, arguments⟩
          · exact absurd yields not_yields_fail
        | _ => cases rightIsConst
      | _ => cases leftIsConst

/-- When arguments are compared, each relevant pair is, in a state on the way. -/
theorem exists_of_equalArguments {equal : Term → Term → ConvM Unit} {left right : Term → Term}
    {arguments : List (ArgInfo × Term)} {argument : ArgInfo × Term}
    (learns : ∀ left right, Along comparing (equal left right))
    (yields : Yields
      (equalArguments equal (arguments.map fun argument => (argument.1, left argument.2))
        (arguments.map fun argument => (argument.1, right argument.2))) before () after)
    (present : argument ∈ arguments) (relevant : argument.1.isIrrelevant = false) :
    ∃ middle last, before.Learns middle ∧
      Yields (equal (left argument.2) (right argument.2)) middle () last ∧ last.Learns after := by
  induction arguments generalizing before with
  | nil => cases present
  | cons first rest ih =>
    simp only [List.map_cons, equalArguments] at yields
    split at yields
    · rename_i irrelevant
      have different : argument ≠ first := by
        rintro rfl
        cases relevant.symm.trans irrelevant
      exact ih yields ((List.mem_cons.1 present).resolve_left different)
    · obtain ⟨_, next, firstYields, restYields⟩ := yields_bind_iff.1 yields
      have firstLearns : before.Learns next := (learns _ _).follows firstYields
      rcases List.mem_cons.1 present with rfl | later
      · have restLearns : next.Learns after :=
          (comparing_equalArguments learns _ _).follows restYields
        exact ⟨before, next, .refl before, firstYields, restLearns⟩
      · obtain ⟨middle, last, earlier, found, later⟩ := ih restYields later
        exact ⟨middle, last, firstLearns.trans earlier, found, later⟩

/-- The terms are the same, or they were found equal on the way. -/
def EqualWithin (fuel depth : Nat) (before : State) (left right : Term) (after : State) : Prop :=
  left = right ∨ ∃ smaller ≤ fuel, ∃ middle last,
    before.Learns middle ∧ Unifies smaller depth middle left right last ∧ last.Learns after

theorem EqualWithin.mono {fuel' : Nat} {before' after' : State}
    (equal : EqualWithin fuel depth before left right after) (enough : fuel ≤ fuel')
    (earlier : before'.Learns before) (later : after.Learns after') :
    EqualWithin fuel' depth before' left right after' := by
  rcases equal with same | ⟨smaller, bounded, middle, last, learns, unifies, learns'⟩
  · exact .inl same
  · exact .inr ⟨smaller, bounded.trans enough, middle, last, earlier.trans learns, unifies,
      learns'.trans later⟩

/-- Where nothing is solved on the way, the terms are equal as things stand. -/
theorem EqualWithin.of_unchanged (equal : EqualWithin fuel depth before left right before) :
    left = right ∨ ∃ smaller ≤ fuel, Unifies smaller depth before left right before := by
  rcases equal with same | ⟨smaller, bounded, middle, last, earlier, unifies, later⟩
  · exact .inl same
  · have learns : middle.Learns last := (comparing_equalTerm _ _).follows unifies.equal
    obtain rfl := earlier.antisymm (learns.trans later)
    obtain rfl := learns.antisymm later
    exact .inr ⟨smaller, bounded, unifies⟩

section

variable {term : Term} {left right : Nat → Term}

/-- Two instances of an applied declaration that does not unfold are equal in each relevant
argument. -/
theorem Unifies.argument {argument : ArgInfo × Term}
    (unifies : Unifies fuel depth before (term.replace left) (term.replace right) after)
    (rigid : before.signature.body? path = none) (isConst : term.head = .const path)
    (present : argument ∈ term.arguments) (relevant : argument.1.isIrrelevant = false) :
    EqualWithin fuel depth before (argument.2.replace left) (argument.2.replace right) after := by
  obtain ⟨leftIsConst, leftArguments⟩ := Phrase.replace_of_const isConst left
  obtain ⟨rightIsConst, rightArguments⟩ := Phrase.replace_of_const isConst right
  rcases arguments_of_equalTerm unifies.equal rigid leftIsConst rightIsConst with
    same | ⟨smaller, bounded, compared⟩
  · have arguments := congrArg Phrase.arguments same
    rw [leftArguments, rightArguments, List.map_inj_left] at arguments
    exact .inl (Prod.mk.inj (arguments argument present)).2
  · rw [leftArguments, rightArguments] at compared
    obtain ⟨middle, last, earlier, found, later⟩ :=
      exists_of_equalArguments (fun _ _ => comparing_equalTerm _ _) compared present relevant
    have learns : middle.Learns last := (comparing_equalTerm _ _).follows found
    -- Nothing is postponed in the end, so nothing is on the way.
    have shorter : last.constraints.length ≤ middle.constraints.length :=
      later.grows.constraints.length_le.trans
        (unifies.constraints ▸ earlier.grows.constraints.length_le)
    have constraints := (learns.grows.constraints.eq_of_length_le shorter).symm
    exact .inr ⟨smaller, bounded.le, middle, last, earlier, ⟨found, constraints⟩, later⟩

/-- Two instances of a term that are equal agree on the variables that the term determines. -/
theorem EqualWithin.of_determines (determines : Determines state term index)
    (preserves : state.Preserves before)
    (equal : EqualWithin fuel depth before (term.replace left) (term.replace right) after) :
    EqualWithin fuel depth before (left index) (right index) after := by
  rcases equal with same | ⟨smaller, bounded, middle, last, earlier, unifies, later⟩
  · exact .inl (determines.eq_of_replace_eq same)
  refine EqualWithin.mono ?_ bounded earlier later
  replace preserves := preserves.trans earlier.grows.preserves
  clear bounded earlier later
  induction determines generalizing smaller middle last with
  | var steps =>
    have taken := steps.mono preserves.toRetains
    exact .inr ⟨smaller, Nat.le_refl smaller, middle, last, .refl middle,
      unifies.of_steps (taken.replace left) (taken.replace right), .refl last⟩
  | constructor steps isConst isConstructor present relevant determines ih =>
    have taken := steps.mono preserves.toRetains
    have rigid := Signature.body?_of_constructor? (preserves.constructor _ _ isConstructor)
    have reached := unifies.of_steps (taken.replace left) (taken.replace right)
    rcases reached.argument rigid isConst present relevant with
      same | ⟨smaller, bounded, first, second, earlier, compared, later⟩
    · exact .inl (determines.eq_of_replace_eq same)
    · have preservesFirst := preserves.trans earlier.grows.preserves
      have within := ih smaller first second compared preservesFirst
      exact within.mono bounded earlier later

end

end ConvM

/-! ## Targets -/

/-- The variables of arguments after parameters stand for them, the last one being variable zero. -/
theorem Phrase.assigned_reverse_append (parameters : List Term) {arguments : List Term}
    {argument : Term} (found : arguments[position]? = some argument) :
    assigned (parameters ++ arguments).reverse (arguments.length - 1 - position) = argument := by
  obtain ⟨bounded, _⟩ := List.getElem?_eq_some_iff.1 found
  have isLast : (parameters ++ arguments).reverse[arguments.length - 1 - position]? =
      some argument := by
    rw [List.reverse_append, List.getElem?_append_left (by simp; omega),
      List.getElem?_reverse (by omega), ← found]
    congr 1
    omega
  rw [assigned, isLast]

/-- What stands under so many function types at the front of a term. -/
def Phrase.codomain? : (count : Nat) → Term → Option Term
  | 0, term => some term
  | count + 1, .pi _ _ _ codomain => codomain? count codomain.term
  | _ + 1, _ => none

theorem Phrase.Scoped.codomain? {fits : Category → Nat → Nat → Prop} {count depth : Nat}
    (inScope : term.Scoped fits depth) (ends : term.codomain? count = some target) :
    target.Scoped fits (depth + count) := by
  induction count generalizing term depth with
  | zero =>
    obtain rfl := Option.some.inj ends
    exact inScope
  | succ count ih =>
    cases term with
    | pi name info domain codomain =>
      have inCodomain := ih inScope.2.term ends
      rwa [Nat.add_assoc, Nat.add_comm 1] at inCodomain
    | _ => cases ends

theorem Telescope.codomain?_toPi (telescope : Telescope) (core : Ty) (count : Nat) :
    (telescope.toPi core).term.codomain? (telescope.length + count) =
      core.term.codomain? count := by
  induction telescope with
  | nil => simp [toPi]
  | cons domain telescope ih =>
    rw [List.length_cons, Nat.add_right_comm]
    exact ih

/-- A type that ends in a declaration which does not unfold is viewed as it is written. -/
theorem view_of_codomain? {fuel count : Nat} {view : Ty} {telescope : Telescope}
    (viewed : telescopeView state fuel ty = .ok (telescope, view))
    (ends : ty.term.codomain? count = some target) (isConst : target.head = .const path)
    (rigid : state.signature.body? path = none) :
    telescope.length = count ∧ view.term = target := by
  induction count generalizing fuel ty telescope with
  | zero =>
    cases fuel with
    | zero => cases viewed
    | succ fuel =>
      obtain rfl := Option.some.inj ends
      simp only [telescopeView, bind_eq_ok_iff] at viewed
      obtain ⟨reduced, isReduced, viewed⟩ := viewed
      obtain rfl := eq_of_reduce_const isConst rigid isReduced
      split at viewed
      · rename_i isPi
        rw [isPi] at isConst
        cases isConst
      · obtain ⟨rfl, rfl⟩ := Prod.mk.inj (Except.ok.inj viewed)
        exact ⟨rfl, rfl⟩
  | succ count ih =>
    cases fuel with
    | zero => cases viewed
    | succ fuel =>
      cases ty with
      | classified sort term =>
        cases term with
        | pi name info domain codomain =>
          simp only [telescopeView, bind_eq_ok_iff] at viewed
          obtain ⟨reduced, isReduced, viewed⟩ := viewed
          obtain rfl : reduced = .pi name info domain codomain := by
            cases fuel with
            | zero => cases isReduced
            | succ fuel => exact (Except.ok.inj isReduced).symm
          obtain ⟨⟨rest, last⟩, restViewed, isView⟩ := bind_eq_ok_iff.1 viewed
          obtain ⟨rfl, rfl⟩ := Prod.mk.inj (Except.ok.inj isView)
          obtain ⟨length, isTarget⟩ := ih restViewed ends
          exact ⟨congrArg (· + 1) length, isTarget⟩
        | _ => cases ends

namespace CheckM

/-- An index of the target determines each argument that is marked as forced. -/
theorem exists_of_findForced {head : DataHead} {forced : List Bool} {before after : Checker}
    (yields : Yields (findForced head ty) before forced after)
    (patterns : before.forcing = .patterns) (isForced : forced[position]? = some true)
    (ends : ty.term.codomain? forced.length = some target) (isConst : target.head = .const path)
    (rigid : before.state.signature.body? path = none) :
    ∃ argument ∈ target.arguments.drop head.parameters.length, ∃ indices,
      determinedVariables before.state before.fuel argument.2 = .ok indices ∧
        forced.length - 1 - position ∈ indices := by
  unfold findForced at yields
  simp only [yields_bind_iff, yields_get_iff] at yields
  obtain ⟨_, _, ⟨rfl, rfl⟩, yields⟩ := yields
  split at yields
  · obtain ⟨found, rfl⟩ := yields_lift_iff.1 yields
    simp only [forcedArguments, bind_eq_ok_iff, patterns] at found
    obtain ⟨⟨telescope, view⟩, viewed, determined, mapped, isFound⟩ := found
    obtain rfl := Except.ok.inj isFound
    obtain ⟨_, rfl⟩ := view_of_codomain? viewed ends isConst rigid
    simp only [List.getElem?_mapIdx, Option.map_eq_some_iff, Bool.and_eq_true,
      List.contains_iff_mem] at isForced
    obtain ⟨domain, _, _, listed⟩ := isForced
    obtain ⟨indices, indicesPresent, present⟩ := List.mem_flatten.1 listed
    obtain ⟨argument, argumentPresent, isDetermined⟩ :=
      exists_of_mapM_eq_ok mapped indicesPresent
    rw [List.length_mapIdx]
    exact ⟨argument, argumentPresent, indices, isDetermined, present⟩
  · simp only [yields_bind_iff, yields_telescopeView_iff, yields_pure_iff] at yields
    obtain ⟨⟨telescope, view⟩, _, _, rfl, _⟩ := yields
    have listed := List.mem_of_getElem? isForced
    simp at listed

/-- An index of the target determines each forced argument of a datatype that was accepted. -/
theorem determines_of_forced {definition : DataDefinition} {certified : CertifiedDatatype}
    {before after : Checker} {constructor : Constructor} {declared : Definition}
    (adds : AddsDatatype definition ty before after certified)
    (patterns : before.forcing = .patterns) (wellScoped : after.state.WellScoped)
    (present : (path, constructor) ∈ certified.constructors)
    (forced : constructor.forced[position]? = some true)
    (registered : after.state.signature.definition? path = some declared)
    (ends : declared.ty.term.codomain? (constructor.parameters + constructor.arity) = some target)
    (isTarget : target.head = .const certified.path) :
    ∃ argument ∈ target.arguments.drop constructor.parameters,
      Determines after.state argument.2 (constructor.arity - 1 - position) := by
  obtain ⟨found, head, core, preserves, forcing, parameters, isForced, entered⟩ :=
    adds.constructors.enters _ present
  have arity : constructor.forced.length = constructor.arity :=
    (adds.constructors.belongs present).forced
  have rigid := preserves.body?_eq_none (Signature.body?_of_datatype adds.entry rfl)
  have targetInScope := (wellScoped.definition registered).1.term.codomain? ends
  -- The target ends the type in which the forced arguments were found.
  have isDeclared : declared.ty = (head.parameters.withPlicity .implicit).toPi core := by
    rw [Signature.definition?, entered, Option.map_some] at registered
    exact congrArg Definition.ty (Option.some.inj registered).symm
  have length : constructor.parameters = (head.parameters.withPlicity .implicit).length := by
    rw [parameters, Telescope.withPlicity, List.length_map]
  rw [isDeclared, length, Telescope.codomain?_toPi, ← arity] at ends
  obtain ⟨argument, listed, indices, determined, isIndex⟩ :=
    exists_of_findForced isForced (by rw [forcing, adds.constructors.forcing, patterns]) forced ends
      isTarget rigid
  rw [arity] at isIndex
  have argumentInScope := ((Phrase.scoped_iff_arguments target).1 targetInScope).2 argument
    (List.mem_of_mem_drop listed)
  rw [← parameters] at listed
  exact ⟨argument, listed,
    determines_of_determinedVariables preserves wellScoped argumentInScope determined isIndex⟩

/-- Targets of a constructor that are equal have equal forced arguments, except for arguments in
irrelevant indices.  The arguments are the same term, or the comparison of the targets has compared
them.  Without placeholders it leaves the state as it was, and they are equal in this very state. -/
theorem forced_arguments_agree
    {checker : Checker}
    {definition : DataDefinition}
    {certified : CertifiedDatatype}
    (reachable : Reachable checker)
    (topLevel : checker.context = [])
    (patterns : checker.forcing = .patterns)
    (accepted : ((checkDeclaration (.data definition)).run checker).result = .ok (some certified))
    {path : Path}
    {constructor : Constructor}
    (present : (path, constructor) ∈ certified.constructors)
    {position : Nat}
    (forced : constructor.forced[position]? = some true)
    {declared : Definition}
    {target : Term}
    (registered : ((checkDeclaration (.data definition)).run
      checker).state.state.signature.definition? path = some declared)
    (ends : declared.ty.term.codomain? (constructor.parameters + constructor.arity) = some target)
    (isTarget : target.head = .const certified.path)
    (relevant : ∀ argument ∈ target.arguments.drop constructor.parameters,
      argument.1.isIrrelevant →
        constructor.arity - 1 - position ∉ (argument.2.freeVariables .anywhere).toList)
    {before after : State}
    (continues : ((checkDeclaration (.data definition)).run checker).state.state.Continues before)
    {parameters left right : List Term}
    (leftArity : left.length = constructor.arity)
    (rightArity : right.length = constructor.arity)
    {leftArgument rightArgument : Term}
    (isLeft : left[position]? = some leftArgument)
    (isRight : right[position]? = some rightArgument)
    {leftTarget rightTarget : Term}
    (leftIsTarget : target.substitute? (parameters ++ left).reverse = some leftTarget)
    (rightIsTarget : target.substitute? (parameters ++ right).reverse = some rightTarget)
    {fuel depth : Nat}
    (equal : ConvM.Unifies fuel depth before leftTarget rightTarget after) :
    ConvM.EqualWithin fuel depth before leftArgument rightArgument after ∧
      (before.Ground → leftTarget.hasPlaceholder = false → rightTarget.hasPlaceholder = false →
        after = before ∧ (leftArgument = rightArgument ∨ ∃ smaller ≤ fuel,
          ConvM.Unifies smaller depth before leftArgument rightArgument before)) := by
  have wellScoped :=
    (Reachable.ends reachable (.declare (.data definition)) topLevel).wellScoped.state
  cases enters_checkDeclaration (.of_result accepted) with
  | datatype adds _ _ =>
    obtain ⟨argument, listed, determines⟩ := determines_of_forced adds patterns wellScoped present
      forced registered ends isTarget
    have isRelevant : argument.1.isIrrelevant = false := by
      by_contra isIrrelevant
      exact relevant argument listed (by simpa using isIrrelevant) determines.mem_freeVariables
    have rigid : before.signature.body? certified.path = none :=
      Signature.body?_of_datatype
        (continues.get?_eq_of_isFinal adds.entry ⟨rfl, by simp [CertifiedDatatype.entry]⟩) rfl
    have compared := equal.equal
    rw [Phrase.eq_replace_of_substitute? leftIsTarget,
      Phrase.eq_replace_of_substitute? rightIsTarget] at equal
    have within := ConvM.EqualWithin.of_determines determines continues.preserves
      (equal.argument rigid isTarget (List.mem_of_mem_drop listed) isRelevant)
    rw [← leftArity, Phrase.assigned_reverse_append parameters isLeft, leftArity, ← rightArity,
      Phrase.assigned_reverse_append parameters isRight] at within
    refine ⟨within, fun ground leftGround rightGround => ?_⟩
    obtain rfl := ConvM.eq_of_equalTerm ground (Phrase.ground_iff.2 leftGround)
      (Phrase.ground_iff.2 rightGround) compared
    exact ⟨rfl, within.of_unchanged⟩

/-- The predecessor of an index is forced, here zero on one side and a function with this body on
the other. -/
theorem forced_arguments_agree_successor :
    let number : Expr := .const "Nat"
    let naturals : Declaration := .data
      { name := "Nat", ty := some (.set 0), constructors :=
        [{ name := "zero", ty := number }, { name := "suc", ty := .arrow number number }] }
    let origin : Declaration := .function "origin" number [] (some (.const "zero"))
    let family : DataDefinition :=
      { name := "F", ty := some (.arrow number (.set 0)), constructors :=
        [{ name := "c", ty := .pi "n" {} number (.app (.const "F")
          [(.explicit, .app (.const "suc") [(.explicit, .var "n")])]) }] }
    let known := (Call.check [naturals, origin]).computation.run (Checker.initial {} .patterns 30)
    let declared := (checkDeclaration (.data family)).run known.state
    let certified : CertifiedDatatype :=
      { path := ⟨6⟩
        datatype := ⟨0, 1, Universe.ofNat 0, .ind, [⟨7⟩], .empty, .empty, true⟩
        constructors := [(⟨7⟩, ⟨⟨6⟩, 0, 1, .ind, [true]⟩)] }
    let target (argument : Term) : Term :=
      .app (.const ⟨6⟩) (.app (.const ⟨4⟩) argument {}) {}
    let compared := (ConvM.equalTerm 30 0 (target (.const ⟨3⟩)) (target (.const ⟨5⟩))).run
      declared.state.state
    declared.result = .ok (some certified) ∧ compared.result = .ok () ∧
      compared.state = declared.state.state ∧
      ∃ smaller ≤ 30, ConvM.Unifies smaller 0 declared.state.state (.const ⟨3⟩) (.const ⟨5⟩)
        declared.state.state := by
  dsimp only
  refine ⟨by decide +kernel, by decide +kernel, ?_⟩
  refine And.imp_right (fun agree => agree.resolve_left (by decide)) ((@forced_arguments_agree _ _
    ⟨⟨6⟩, ⟨0, 1, Universe.ofNat 0, .ind, [⟨7⟩], .empty, .empty, true⟩,
      [(⟨7⟩, ⟨⟨6⟩, 0, 1, .ind, [true]⟩)]⟩
    (.ends (.initial {} .patterns 30) (.check _) (by rfl)) (by decide +kernel) (by decide +kernel)
    (by decide +kernel)
    ⟨7⟩ ⟨⟨6⟩, 0, 1, .ind, [true]⟩ (List.mem_singleton.2 rfl) 0 rfl
    -- The type of the constructor and its target.
    ⟨⟨7⟩, .classified (Universe.ofNat 0) (.pi ⟨9⟩ {} (.classified (Universe.ofNat 0) (.const ⟨2⟩))
      (.classified (Universe.ofNat 0) (.app (.const ⟨6⟩) (.app (.const ⟨4⟩) (.var 0) {}) {}))),
      .constructor ⟨⟨6⟩, 0, 1, .ind, [true]⟩⟩
    (.app (.const ⟨6⟩) (.app (.const ⟨4⟩) (.var 0) {}) {})
    (by decide +kernel) rfl rfl (by decide +kernel)
    -- The two instances of the target.
    _ _ (.refl _) [] [.const ⟨3⟩] [.const ⟨5⟩] rfl rfl _ _ rfl rfl
    (.app (.const ⟨6⟩) (.app (.const ⟨4⟩) (.const ⟨3⟩) {}) {})
    (.app (.const ⟨6⟩) (.app (.const ⟨4⟩) (.const ⟨5⟩) {}) {})
    (by decide +kernel) (by decide +kernel) _ _ ⟨⟨by decide +kernel, rfl⟩, by decide +kernel⟩).2
    (by decide +kernel) (by decide +kernel) (by decide +kernel))

/-- An irrelevant index counts as determining its argument, but it is not compared: two targets are
equal although the forced arguments are zero and one. -/
theorem irrelevant_index_forces :
    let number : Expr := .const "Nat"
    let naturals : Declaration := .data
      { name := "Nat", ty := some (.set 0), constructors :=
        [{ name := "zero", ty := number }, { name := "suc", ty := .arrow number number }] }
    let box : Declaration := .data
      { name := "Box", ty := some (.pi "n" { relevance := .irrelevant } number (.set 0)),
        constructors :=
          [{ name := "box",
             ty := .pi "n" {} number (.app (.const "Box") [(.irrelevant, .var "n")]) }] }
    let known := (checkDeclaration naturals).run (Checker.initial {} .patterns 30)
    let declared := (checkDeclaration box).run known.state
    let zero : Term := .const ⟨3⟩
    let one : Term := .app (.const ⟨4⟩) zero {}
    let target (argument : Term) : Term :=
      .app (.const ⟨5⟩) argument { relevance := .irrelevant }
    let compare (left right : Term) := (ConvM.equalTerm 30 0 left right).run declared.state.state
    declared.result = .ok (some
      { path := ⟨5⟩
        datatype := ⟨0, 1, Universe.ofNat 0, .ind, [⟨6⟩], .empty, .empty, true⟩
        constructors := [(⟨6⟩, ⟨⟨5⟩, 0, 1, .ind, [true]⟩)] }) ∧
      (declared.state.state.signature.definition? ⟨6⟩).bind (·.ty.term.codomain? 1) =
        some (target (.var 0)) ∧
      (compare (target zero) (target one)).result = .ok () ∧
      (compare (target zero) (target one)).state.constraints = [] ∧
      (compare zero one).result = .error (.error (.unequalTerms zero one)) := by
  decide +kernel

end CheckM
end Families
