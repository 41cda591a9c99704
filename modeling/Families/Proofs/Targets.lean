import Families.Proofs.Acyclicity
import Families.Proofs.DatatypeStages
import Families.Proofs.ForcedArguments

/-!
# Targets of constructors

The walk along the type of a constructor ends at the datatype applied to its own parameters and to
indices, also when the target was a placeholder.  The application that such a placeholder is made
equal to needs no comparison to be checked: its arguments have the types that are expected word for
word, so that the placeholder is still unsolved when it is solved by that application.
-/

namespace Families

variable {later : State} {depth fuel id position : Nat} {domain : Domain} {constructor : Path}
variable {term ty : Term} {answer : Unit}
variable {category : Category} {arguments : Phrase .terms}
variable {before after : State} {path : Path} {count : Nat} {generic normal : Term}

/-! ## Renamed steps -/

theorem Steps.rename {state : State} {next : Term} (steps : Steps state term next)
    (targets : Nat → Nat) : Steps state (term.rename targets) (next.rename targets) :=
  steps.lift (Phrase.rename targets) fun _ _ unfolds => unfolds.rename targets

namespace Phrase

theorem term_rename (targets : Nat → Nat) :
    ∀ ty : Ty, (ty.rename targets).term = ty.term.rename targets
  | classified _ _ => rfl

/-- A codomain renamed under its binder and instantiated with a variable is renamed. -/
theorem replace_underBinder_rename (shift : Nat) (phrase : Phrase category) :
    (phrase.rename (underBinder (· + (shift + 1)))).replace (assigned [.var shift]) =
      phrase.rename (· + shift) := by
  rw [replace_rename, rename_eq_replace]
  congr 1
  funext index
  cases index with
  | zero => simp [underBinder, assigned]
  | succ index =>
    simp only [underBinder, assigned, List.length_singleton]
    rw [List.getElem?_eq_none (by simp)]
    exact congrArg var (by omega)

/-- Substituting the variables of a scope by themselves changes nothing in it. -/
theorem Below.replace_identity {phrase : Phrase category} (below : phrase.Below depth) :
    phrase.replace (assigned ((List.range depth).map .var)) = phrase := by
  have same : ∀ index < depth, assigned ((List.range depth).map .var) index = .var index := by
    intro index bounded
    simp [assigned, bounded]
  rw [below.replace_congr same]
  exact replace_eq_self phrase fun _ => rfl

end Phrase

/-- An element of a list is related to the one at the same place. -/
theorem getElem?_of_forall₂ {α β : Type} {related : α → β → Prop} {left : List α} {right : List β}
    {element : α} (pairwise : List.Forall₂ related left right)
    (found : left[position]? = some element) :
    ∃ other, right[position]? = some other ∧ related element other := by
  induction pairwise generalizing position with
  | nil => simp at found
  | cons first _ ih =>
    cases position with
    | zero =>
      obtain rfl := Option.some.inj found
      exact ⟨_, rfl, first⟩
    | succ position => exact ih found

/-! ## Types that are inferred without a change -/

/-- A comparison of a term with itself changes nothing. -/
theorem ConvM.eq_of_equalTerm_self
    (yields : Yields (equalTerm fuel depth term term) before answer after) : before = after := by
  cases fuel with
  | zero => exact absurd yields not_yields_halt
  | succ fuel =>
    simp only [equalTerm, yields_bind_iff, yields_get_iff, yields_lift_iff] at yields
    obtain ⟨_, _, ⟨rfl, rfl⟩, left, _, ⟨isLeft, rfl⟩, right, _, ⟨isRight, rfl⟩, yields⟩ := yields
    obtain rfl := Except.ok.inj (isLeft.symm.trans isRight)
    rw [if_pos rfl] at yields
    exact (yields_pure_iff.1 yields).2

/-- An unsolved placeholder is made equal to an application of a declaration without a body by
solving it, unless the comparison is postponed. -/
theorem ConvM.solution_of_equalTerm {value : Term} (wellScoped : before.WellScoped)
    (inScope : (Phrase.placeholder id arguments).Scoped before.Fits depth)
    (unsolved : before.solution? id = none) (valueInScope : value.Scoped before.Fits depth)
    (isConst : value.head = .const path) (rigid : before.signature.body? path = none)
    (yields : Yields (equalTerm fuel depth (.placeholder id arguments) value) before answer after)
    (settled : after.constraints = before.constraints) :
    ∃ solution : Term, after.solution? id = some (.term solution) ∧
      solution.Below arguments.toList.length ∧
      Rewrites before value (solution.replace (Phrase.assigned arguments.toList)) := by
  cases fuel with
  | zero => exact absurd yields not_yields_halt
  | succ fuel =>
    simp only [equalTerm, yields_bind_iff, yields_get_iff, yields_lift_iff] at yields
    obtain ⟨_, _, ⟨rfl, rfl⟩, left, _, ⟨isLeft, rfl⟩, right, _, ⟨isRight, rfl⟩, yields⟩ := yields
    obtain rfl := eq_of_reduce_const isConst rigid isRight
    obtain rfl : left = .placeholder id arguments := by
      cases fuel with
      | zero => simp [reduce] at isLeft
      | succ fuel =>
        simp only [reduce, unfoldHead?, Phrase.head, unsolved] at isLeft
        exact (Except.ok.inj isLeft).symm
    rw [if_neg (by rintro rfl; cases isConst)] at yields
    change Yields (assignTerm fuel depth id arguments right) before answer after at yields
    rcases assignTerm_cases fuel depth id arguments right with
      postponed | ⟨pattern, isPattern, assigned⟩
    · rw [postponed] at yields
      exact absurd settled (constraints_ne_of_postpone yields)
    · rw [assigned] at yields
      obtain ⟨isArguments, _⟩ := map_var_of_patternVariables? isPattern
      have fits : before.Fits .term id pattern.length := by
        rw [← length_of_patternVariables? isPattern]
        exact inScope.1
      obtain ⟨_, _, solution, solved, below, rewrites⟩ :=
        (respects_solve wellScoped valueInScope fits unsolved (by
          intro solution scope kind solutionInScope found
          exact scoped_term_of_fits fits solutionInScope found)).of_yields yields
      rw [isArguments, List.length_map]
      exact ⟨solution, solved, below, rewrites⟩

namespace CheckM

open Checker

variable {checker before after : Checker}

/-- Whatever else is learned, inference answers with the type and changes nothing. -/
def Quiet (checker : Checker) (term ty : Term) : Prop :=
  ∀ ⦃later after : Checker⦄ ⦃answer : Term⦄, checker.state.Grows later.state →
    later.context = checker.context → Yields (infer term) later answer after →
    later = after ∧ answer = ty

namespace Quiet

theorem mono {later : Checker} (quiet : Quiet checker term ty)
    (grows : checker.state.Grows later.state) (context : later.context = checker.context) :
    Quiet later term ty :=
  fun _ _ _ grows' context' yields => quiet (grows.trans grows') (context'.trans context) yields

theorem const {definition : Definition}
    (declared : checker.state.signature.definition? path = some definition) :
    Quiet checker (.const path) definition.ty.term := by
  intro later after answer grows _ yields
  simp only [infer, inferPhrase, inferConstant, yields_bind_iff, yields_get_iff] at yields
  obtain ⟨_, _, ⟨rfl, rfl⟩, yields⟩ := yields
  rw [grows.signature, declared] at yields
  obtain ⟨rfl, rfl⟩ := yields_pure_iff.1 yields
  exact ⟨rfl, rfl⟩

theorem var {index : Nat} (found : checker.context[index]? = some domain) :
    Quiet checker (.var index) (domain.ty.term.rename (· + (index + 1))) := by
  intro later after answer _ context yields
  simp only [infer, inferPhrase, inferVariable, yields_bind_iff, yields_get_iff, yields_lift_iff,
    checked_eq_ok_iff] at yields
  obtain ⟨_, _, ⟨rfl, rfl⟩, ty?, _, ⟨isType, rfl⟩, yields⟩ := yields
  rw [context, Context.typeOf?, found] at isType
  simp only [Option.bind_eq_bind, Option.bind_eq_some_iff, Option.pure_def,
    Option.some.injEq] at isType
  obtain ⟨ty, isLifted, rfl⟩ := isType
  obtain ⟨rfl, rfl⟩ := yields_pure_iff.1 yields
  rw [Phrase.eq_rename_of_lift?_zero isLifted, Phrase.term_rename]
  exact ⟨rfl, rfl⟩

/-- A placeholder applied to the variables in scope has the type that it was made with. -/
theorem placeholder {scope : Nat} {solution : Option Solution}
    (found : checker.state.placeholders[id]? = some ⟨scope, .term ty, solution⟩)
    (below : ty.Below checker.context.length) :
    Quiet checker (.placeholder id checker.context.identity) ty := by
  intro later after answer grows _ yields
  obtain ⟨solution', found', _⟩ := grows.placeholders id _ found
  simp only [infer, inferPhrase, inferPlaceholder, yields_bind_iff, yields_get_iff] at yields
  obtain ⟨_, _, ⟨rfl, rfl⟩, yields⟩ := yields
  rw [found'] at yields
  obtain ⟨substituted, rfl⟩ := yields_lift_iff.1 yields
  rw [checked_eq_ok_iff] at substituted
  refine ⟨rfl, ?_⟩
  rw [Phrase.eq_replace_of_substitute? substituted, Context.toList_identity, below.replace_identity]

/-- An argument that has the type of the binder word for word. -/
theorem app {function argument : Term} {name : Name} {info info' : ArgInfo} {domain codomain : Ty}
    (quiet : Quiet checker function ty)
    (steps : Steps checker.state ty (.pi name info domain codomain))
    (quietArgument : Quiet checker argument domain.term) :
    Quiet checker (.app function argument info')
      (codomain.term.replace (Phrase.assigned [argument])) := by
  intro later after answer grows context yields
  simp only [infer, inferPhrase, yields_bind_iff, yields_reduce_iff] at yields
  obtain ⟨functionType, _, isFunction, reduced, _, ⟨isReduced, rfl⟩, yields⟩ := yields
  obtain ⟨rfl, rfl⟩ := quiet grows context isFunction
  have stepped := reduce_of_steps (steps.mono grows.resolves.retains) isReduced
  obtain rfl := eq_of_reduce_pi stepped
  simp only at yields
  split at yields
  · simp only [yields_bind_iff] at yields
    obtain ⟨argumentType, _, isArgument, _, compared, isCompared, yields⟩ := yields
    obtain ⟨rfl, rfl⟩ := quietArgument grows context isArgument
    obtain ⟨state, compared, rfl⟩ := yields_equalTerm_iff.1 isCompared
    obtain rfl := ConvM.eq_of_equalTerm_self compared
    obtain ⟨instantiated, rfl⟩ := yields_lift_iff.1 yields
    exact ⟨rfl, Phrase.eq_replace_of_instantiate? (checked_eq_ok_iff.1 instantiated)⟩
  · exact absurd yields not_yields_fail

/-- A function applied to the variables that its binders are in scope as. -/
theorem applyTo {ty rest : Ty} {telescope : Telescope} {function : Term} {shift : Nat}
    (opens : Opens checker.state ty telescope rest)
    (quiet : Quiet checker function (ty.term.rename (· + shift)))
    (enough : telescope.length ≤ shift)
    (inScope : ∀ position domain, telescope[position]? = some domain →
      checker.context[shift - 1 - position]? = some domain) :
    ∃ ty, Quiet checker
      (function.applyTo (telescope.mapIdx fun position domain =>
        (domain.info, .var (shift - 1 - position)))) ty := by
  induction opens generalizing function shift with
  | nil => exact ⟨_, quiet⟩
  | @cons ty domain codomain rest name name' info telescope _ steps _ ih =>
    obtain ⟨shift, rfl⟩ : ∃ smaller, shift = smaller + 1 :=
      ⟨shift - 1, by rw [List.length_cons] at enough; omega⟩
    have quietVariable : Quiet checker (.var shift) (domain.rename (· + (shift + 1))).term := by
      rw [Phrase.term_rename]
      exact .var (inScope 0 _ rfl)
    have applied : Quiet checker (.app function (.var shift) info)
        (codomain.term.rename (· + shift)) := by
      rw [← Phrase.replace_underBinder_rename, ← Phrase.term_rename]
      exact .app quiet (steps.rename _) quietVariable
    have next : ∀ position domain, telescope[position]? = some domain →
        checker.context[shift - 1 - position]? = some domain := by
      intro position domain found
      rw [Nat.sub_sub, Nat.add_comm]
      exact inScope (position + 1) domain found
    obtain ⟨ty, quiet⟩ := ih applied (Nat.le_of_succ_le_succ enough) next
    refine ⟨ty, ?_⟩
    rw [List.mapIdx_cons]
    simp only [Nat.add_sub_cancel, Nat.sub_zero, Nat.sub_sub, Nat.add_comm 1] at quiet ⊢
    exact quiet

end Quiet

/-! ## The application that a placeholder is made equal to -/

theorem yields_freshTerm_iff :
    Yields (freshTerm ty) before term after ↔
      .placeholder before.state.placeholders.length before.context.identity = term ∧
        { before with
          state := before.state.addPlaceholder before.context.length (.term ty) } = after := by
  simp only [freshTerm, addPlaceholder, yields_bind_iff, yields_get_iff, yields_pure_iff,
    yields_modifyState_iff]
  constructor
  · rintro ⟨_, _, ⟨rfl, rfl⟩, _, _, ⟨_, _, ⟨rfl, rfl⟩, _, _, rfl, rfl, rfl⟩, rfl, rfl⟩
    exact ⟨rfl, rfl⟩
  · rintro ⟨rfl, rfl⟩
    exact ⟨_, _, ⟨rfl, rfl⟩, _, _, ⟨_, _, ⟨rfl, rfl⟩, (), _, rfl, rfl, rfl⟩, rfl, rfl⟩

/-- Further arguments are new placeholders, and nothing is solved to find their types. -/
theorem exists_of_applyToFresh {applied : Term} (wellScoped : before.WellScoped)
    (inScope : before.InScope term) (quiet : Quiet before term ty)
    (yields : Yields (applyToFresh count term) before applied after) :
    ∃ arguments, applied = term.applyTo arguments ∧ arguments.length = count ∧
      ∀ id, after.state.solution? id = before.state.solution? id := by
  induction count generalizing before term ty with
  | zero =>
    obtain ⟨rfl, rfl⟩ := yields_pure_iff.1 yields
    exact ⟨[], rfl, rfl, fun _ => rfl⟩
  | succ count ih =>
    simp only [applyToFresh, yields_bind_iff, yields_reduce_iff] at yields
    obtain ⟨inferred, _, isInferred, reduced, _, ⟨isReduced, rfl⟩, yields⟩ := yields
    obtain ⟨_, _, typeInScope⟩ := (steady_infer wellScoped inScope).of_yields isInferred
    obtain ⟨rfl, rfl⟩ := quiet (.refl _) rfl isInferred
    have reducedInScope := (reduces_of_reduce wellScoped.state isReduced typeInScope).2
    split at yields
    · rename_i name info domain codomain
      obtain ⟨argument, third, isFresh, yields⟩ := yields_bind_iff.1 yields
      have steps := steps_of_reduce_pi wellScoped.state typeInScope isReduced
      obtain ⟨thirdWellScoped, keeps, argumentInScope⟩ :=
        (steady_freshTerm wellScoped reducedInScope.1.term).of_yields isFresh
      obtain ⟨isArgument, isThird⟩ := yields_freshTerm_iff.1 isFresh
      have sameState : third.state =
          before.state.addPlaceholder before.context.length (.term domain.term) := by
        rw [← isThird]
      have grows : before.state.Grows third.state :=
        sameState ▸ State.grows_addPlaceholder _ _ _
      have created : third.state.placeholders[before.state.placeholders.length]? =
          some ⟨before.context.length, .term domain.term, none⟩ :=
        sameState ▸ State.getElem?_addPlaceholder _ _ _
      have quietArgument : Quiet third argument domain.term := by
        rw [← isArgument, ← keeps.context]
        exact .placeholder created (keeps.context ▸ reducedInScope.1.term.below)
      have appliedInScope : third.InScope (.app term argument info) :=
        ⟨keeps.inScope inScope, argumentInScope⟩
      have applies : Quiet third (.app term argument info) _ :=
        (quiet.mono grows keeps.context).app (steps.mono grows.resolves.retains) quietArgument
      obtain ⟨arguments, rfl, length, unsolved⟩ :=
        ih thirdWellScoped appliedInScope applies yields
      refine ⟨(info, _) :: arguments, rfl, by rw [List.length_cons, length], fun id => ?_⟩
      rw [unsolved id, sameState, State.solution?_addPlaceholder]
    · exact absurd yields not_yields_fail

/-! ## The walk to the target -/

/-- What is known of the checker while it walks along the type of a constructor of a datatype of the
given type, after so many arguments. -/
structure Walks (head : DataHead) (ty : Ty) (walked : Nat) (checker : Checker) : Prop where
  wellScoped : checker.WellScoped
  /-- The arguments are in scope, and around them the parameters. -/
  context : ∃ arguments : Context, arguments.length = walked ∧
    checker.context = arguments ++ head.parameters.reverse
  declared : ∃ definition, checker.state.signature.definition? head.path = some definition ∧
    definition.ty = ty
  rigid : checker.state.signature.body? head.path = none
  opens : ∃ tail, Opens checker.state ty head.parameters tail

section Walk

variable {head : DataHead} {ty : Ty} {walked : Nat}

theorem Walks.length (walks : Walks head ty walked checker) :
    checker.context.length = head.parameters.length + walked := by
  obtain ⟨arguments, length, isContext⟩ := walks.context
  rw [isContext, List.length_append, List.length_reverse, length, Nat.add_comm]

theorem Opened.walks (opened : Opened head ty checker) : Walks head ty 0 checker := by
  obtain ⟨datatype, pending⟩ := opened.pending
  constructor
  case wellScoped => exact opened.wellScoped
  case context => exact ⟨[], rfl, opened.context⟩
  case declared =>
    refine ⟨⟨head.path, ty, .datatype datatype⟩, ?_, rfl⟩
    rw [Signature.definition?, pending, Option.map_some]
  case rigid => exact opened.rigid
  case opens => exact opened.opens

/-- The same is known after something was learned. -/
theorem Walks.consults (walks : Walks head ty walked before) (wellScoped : after.WellScoped)
    (consults : before.Consults after) : Walks head ty walked after := by
  have grows := consults.learns.state.grows
  obtain ⟨tail, opens⟩ := walks.opens
  constructor
  case wellScoped => exact wellScoped
  case context => exact consults.context ▸ walks.context
  case declared => exact grows.signature ▸ walks.declared
  case rigid => exact grows.signature ▸ walks.rigid
  case opens => exact ⟨tail, opens.of_advances grows.advances⟩

/-- One more argument is in scope. -/
theorem Walks.push (walks : Walks head ty walked checker) (inScope : checker.InScope domain.ty) :
    Walks head ty (walked + 1) { checker with context := domain :: checker.context } := by
  obtain ⟨arguments, length, isContext⟩ := walks.context
  constructor
  case wellScoped => exact ⟨walks.wellScoped.state, inScope, walks.wellScoped.context⟩
  case context => exact ⟨domain :: arguments, congrArg (· + 1) length,
    congrArg (domain :: ·) isContext⟩
  case declared => exact walks.declared
  case rigid => exact walks.rigid
  case opens => exact walks.opens

/-- The parameters of a datatype, after so many arguments, are in scope from the outermost on. -/
theorem Walks.parameter (walks : Walks head ty walked checker)
    (found : head.parameters[position]? = some domain) :
    checker.context[walked + head.parameters.length - 1 - position]? = some domain := by
  obtain ⟨arguments, length, isContext⟩ := walks.context
  have bounded := (List.getElem?_eq_some_iff.1 found).1
  rw [isContext, List.getElem?_append_right (by omega), List.getElem?_reverse (by omega), ← found]
  congr 1
  omega

/-- A placeholder for a target is made equal to the datatype applied to its parameters, and no
placeholder is solved to find that application. -/
theorem exists_of_genericTarget (walks : Walks head ty walked before)
    (yields : Yields (genericTarget head walked) before generic after) :
    generic.head = .const head.path ∧
      generic.arguments.length = head.parameters.length + head.indices ∧
      (∀ position < head.parameters.length, ∃ info, generic.arguments[position]? =
        some (info, .var (walked + head.parameters.length - 1 - position))) ∧
      ∀ id, after.state.solution? id = before.state.solution? id := by
  obtain ⟨definition, declared, rfl⟩ := walks.declared
  obtain ⟨tail, opens⟩ := walks.opens
  have closed : definition.ty.term.Below 0 :=
    (walks.wellScoped.state.definition declared).1.term.below
  have unchanged : definition.ty.term.rename (· + (walked + head.parameters.length)) =
      definition.ty.term := by
    rw [Phrase.rename_eq_replace, closed.replace_congr fun _ bounded =>
      absurd bounded (Nat.not_lt_zero _)]
    exact Phrase.replace_eq_self _ fun _ => rfl
  have quiet : Quiet before (.const head.path)
      (definition.ty.term.rename (· + (walked + head.parameters.length))) := by
    rw [unchanged]
    exact .const declared
  obtain ⟨applied, quiet⟩ := quiet.applyTo opens (Nat.le_add_left _ _)
    fun position domain found => walks.parameter found
  have inScope : before.InScope ((Phrase.const head.path).applyTo
      (head.parameters.mapIdx fun position domain =>
        (domain.info, .var (walked + head.parameters.length - 1 - position)))) := by
    refine Phrase.Scoped.applyTo trivial fun argument present => ?_
    obtain ⟨position, bounded, rfl⟩ := List.mem_mapIdx.1 present
    have := walks.length
    show walked + head.parameters.length - 1 - position < before.context.length
    omega
  obtain ⟨fresh, rfl, length, unsolved⟩ :=
    exists_of_applyToFresh walks.wellScoped inScope quiet yields
  rw [Phrase.head_applyTo, Phrase.head_applyTo, Phrase.arguments_applyTo, Phrase.arguments_applyTo]
  refine ⟨rfl, ?_, fun position bounded => ?_, unsolved⟩
  · simp [Phrase.arguments, Phrase.argumentsFrom, length]
  · refine ⟨head.parameters[position].info, ?_⟩
    rw [List.getElem?_append_left (by simpa [Phrase.arguments, Phrase.argumentsFrom] using bounded)]
    simp [Phrase.arguments, Phrase.argumentsFrom, bounded]

/-- The term applies the datatype to its own parameters, after so many arguments, and to indices. -/
structure IsTarget (datatype : DataHead) (walked : Nat) (target : Term) : Prop where
  head : target.head = .const datatype.path
  length : target.arguments.length = datatype.parameters.length + datatype.indices
  /-- The arguments that count are its parameters. -/
  parameters : ∀ position < datatype.parameters.length, ∃ info argument,
    target.arguments[position]? = some (info, argument) ∧
      (info.isIrrelevant = false →
        Agrees argument (.var (walked + datatype.parameters.length - 1 - position)))

/-- A placeholder that was made equal to an application of a datatype to its parameters is a target
from then on. -/
theorem isTarget_of_tryEqualTerm (walks : Walks head ty walked before)
    (inScope : before.InScope (.placeholder id arguments))
    (unsolved : before.state.solution? id = none) (genericInScope : before.InScope generic)
    (isConst : generic.head = .const head.path)
    (length : generic.arguments.length = head.parameters.length + head.indices)
    (parameters : ∀ position < head.parameters.length, ∃ info, generic.arguments[position]? =
      some (info, .var (walked + head.parameters.length - 1 - position)))
    (yields : Yields (tryEqualTerm (.placeholder id arguments) generic) before (.ok answer) after)
    (settled : after.state.constraints = before.state.constraints)
    (advances : after.state.Advances later)
    (hasNormalForm : HasNormalForm later (.placeholder id arguments) normal) :
    IsTarget head walked normal := by
  have advances' : before.state.Advances later :=
    ((built_tryEqualTerm _ _).consults yields).learns.state.grows.advances.trans advances
  obtain ⟨state, compared, rfl⟩ := yields_tryEqualTerm_ok_iff.1 yields
  obtain ⟨solution, solved, below, rewrites⟩ := ConvM.solution_of_equalTerm walks.wellScoped.state
    inScope unsolved genericInScope isConst walks.rigid compared settled
  obtain ⟨isConst', rewritten⟩ := rewrites.spine walks.rigid isConst
  have rigidLater : later.signature.body? head.path = none := (advances'.body _).trans walks.rigid
  obtain ⟨isNormal, normals⟩ := HasNormalForm.spine rigidLater isConst'
    (hasNormalForm.of_unfolds (.placeholder (advances.remembers.solution? solved) below))
  have rewrittenLength := rewritten.length_eq
  rw [List.length_map, List.length_map] at rewrittenLength
  constructor
  case head => exact isNormal
  case length => rw [← normals.length_eq, ← rewrittenLength, length]
  case parameters =>
    intro position bounded
    obtain ⟨info, found⟩ := parameters position bounded
    obtain ⟨argument, isArgument, rewritesTo⟩ := getElem?_of_forall₂ rewritten
      (by rw [List.getElem?_map, found, Option.map_some])
    obtain rfl := rewritesTo.var_eq
    rw [List.getElem?_map] at isArgument
    obtain ⟨⟨info', _⟩, found', rfl⟩ := Option.map_eq_some_iff.1 isArgument
    obtain ⟨⟨info'', normal⟩, isNormal, _, hasNormal⟩ := getElem?_of_forall₂ normals found'
    obtain rfl := hasNormal.var_eq
    exact ⟨info'', _, isNormal, fun _ => .refl _⟩

/-- The walk ends at an application of the datatype. -/
theorem eq_of_walkToTarget {reached : Nat × Term} (isConst : term.head = .const head.path)
    (rigid : before.state.signature.body? head.path = none)
    (yields : Yields (walkToTarget head constructor fuel walked term) before reached after) :
    reached = (walked, term) ∧ before = after := by
  cases fuel with
  | zero => exact absurd yields not_yields_halt
  | succ fuel =>
    simp only [walkToTarget, yields_bind_iff, yields_reduce_iff] at yields
    obtain ⟨reduced, _, ⟨isReduced, rfl⟩, yields⟩ := yields
    obtain rfl := eq_of_reduce_const isConst rigid isReduced
    split at yields
    · cases isConst
    · cases isConst
    · obtain ⟨rfl, rfl⟩ := yields_pure_iff.1 yields
      exact ⟨rfl, rfl⟩

/-- The normal form of a type that was walked along is a chain of function types.  It ends in the
normal form of what the walk ended at, or in a target that takes the place of a placeholder. -/
theorem chain_of_walkToTarget {current normal : Ty} {target : Term}
    (walks : Walks head ty walked before) (inScope : before.InScope current)
    (yields : Yields (walkToTarget head constructor fuel walked current.term) before (count, target)
      after)
    (settled : after.state.constraints = before.state.constraints)
    (advances : after.state.Advances later) (hasNormalForm : HasNormalForm later current normal) :
    ∃ telescope last, FunctionChain normal telescope last ∧ count = walked + telescope.length ∧
      (HasNormalForm later target last.term ∨ IsTarget head count last.term) := by
  induction fuel generalizing before walked current normal with
  | zero => exact absurd yields not_yields_halt
  | succ fuel ih =>
    have advancesWalk := ((built_walkToTarget _ _ _ _ _).learns yields).state.grows.advances
    replace advancesWalk := advancesWalk.trans advances
    simp only [walkToTarget, yields_bind_iff, yields_reduce_iff] at yields
    obtain ⟨reduced, _, ⟨isReduced, rfl⟩, yields⟩ := yields
    obtain ⟨reduces, reducedInScope⟩ :=
      reduces_of_reduce walks.wellScoped.state isReduced inScope.term
    have hasReduced := hasNormalForm.term.of_rewrites_of_advances advancesWalk
      (.of_parallel reduces.parallel)
    split at yields
    · rename_i name info domain codomain
      simp only [yields_bind_iff, yields_push_iff] at yields
      obtain ⟨_, _, rfl, yields⟩ := yields
      obtain ⟨domain', codomain', isPi, _, hasCodomain⟩ := hasReduced.pi_cases
      have pushed : Walks head ty (walked + 1)
          { before with context := ⟨name, info, domain⟩ :: before.context } :=
        walks.push reducedInScope.1
      obtain ⟨telescope, last, chain, isCount, isTarget⟩ :=
        ih pushed reducedInScope.2 yields settled hasCodomain
      cases normal with
      | classified sort function =>
        obtain rfl : function = .pi name info domain' codomain' := isPi
        refine ⟨_, last, .cons chain, ?_, isTarget⟩
        rw [isCount, List.length_cons]
        omega
    · rename_i id arguments
      simp only [yields_bind_iff, yields_get_iff] at yields
      obtain ⟨generic, second, isGeneric, _, _, ⟨rfl, rfl⟩, outcome, third, isCompared, yields⟩ :=
        yields
      have unsolved := reduces.inert.unsolved walks.wellScoped.state reducedInScope
      obtain ⟨isConst, length, parameters, sameSolutions⟩ :=
        exists_of_genericTarget walks isGeneric
      obtain ⟨secondWellScoped, keeps, genericInScope⟩ :=
        (steady_genericTarget walks.wellScoped walks.length).of_yields isGeneric
      have consults := (built_applyToFresh head.indices _).consults isGeneric
      have walksSecond := walks.consults secondWellScoped consults
      cases outcome with
      | error error =>
        obtain ⟨_, _, _, failed⟩ := yields_bind_iff.1 yields
        exact absurd failed not_yields_fail
      | ok answer =>
        have consults' := (built_tryEqualTerm _ _).consults isCompared
        have rigidThird : third.state.signature.body? head.path = none := by
          rw [consults'.learns.state.grows.signature]
          exact walksSecond.rigid
        obtain ⟨isReached, rfl⟩ := eq_of_walkToTarget isConst rigidThird yields
        obtain ⟨rfl, rfl⟩ := Prod.mk.inj isReached
        have isTarget := isTarget_of_tryEqualTerm walksSecond (keeps.inScope reducedInScope)
          ((sameSolutions id).trans unsolved) genericInScope isConst length parameters isCompared
          (State.Remembers.constraints_eq consults.learns.state.grows.remembers
            consults'.learns.state.grows.remembers (.refl _) settled)
          advances hasReduced
        exact ⟨[], normal, .nil normal, rfl, .inr isTarget⟩
    · obtain ⟨isReached, rfl⟩ := yields_pure_iff.1 yields
      obtain ⟨rfl, rfl⟩ := Prod.mk.inj isReached
      exact ⟨[], normal, .nil normal, rfl, .inl hasReduced⟩

/-! ## The parameters of a target -/

/-- The arguments of a target that count are parameters, each at its place. -/
theorem agrees_of_checkParameters {outermost offset : Nat} {arguments : List (ArgInfo × Term)}
    {info : ArgInfo} {argument : Term} (wellScoped : before.WellScoped)
    (bounded : outermost < before.context.length)
    (inScope : ∀ argument ∈ arguments, before.InScope argument.2)
    (yields : Yields (checkParameters outermost position arguments) before answer after)
    (settled : after.state.constraints = before.state.constraints)
    (advances : after.state.Advances later) (found : arguments[offset]? = some (info, argument))
    (relevant : info.isIrrelevant = false) (hasNormalForm : HasNormalForm later argument normal) :
    Agrees normal (.var (outermost - (position + offset))) := by
  induction arguments generalizing before position offset with
  | nil => simp at found
  | cons first arguments ih =>
    obtain ⟨info', argument'⟩ := first
    rw [List.forall_mem_cons] at inScope
    rw [checkParameters] at yields
    split at yields
    · rename_i isIrrelevant
      cases offset with
      | zero =>
        obtain ⟨rfl, rfl⟩ := Prod.mk.inj (Option.some.inj found)
        rw [relevant] at isIrrelevant
        cases isIrrelevant
      | succ offset =>
        have agrees := ih wellScoped bounded inScope.2 yields settled found
        rwa [Nat.add_right_comm, Nat.add_assoc] at agrees
    · obtain ⟨_, middle, isCompared, yields⟩ := yields_bind_iff.1 yields
      have variableInScope : before.InScope (.var (outermost - position)) :=
        Nat.lt_of_le_of_lt (Nat.sub_le outermost position) bounded
      obtain ⟨middleWellScoped, keeps, decides⟩ :=
        (steady_equalTerm wellScoped inScope.1 variableInScope).of_yields isCompared
      have earlier := ((built_equalTerm _ _).consults isCompared).learns.state.grows
      have rest := ((built_checkParameters _ _ _).consults yields).learns.state.grows
      cases offset with
      | zero =>
        obtain ⟨rfl, rfl⟩ := Prod.mk.inj (Option.some.inj found)
        have equates := decides
          (State.Remembers.constraints_eq (.refl _) earlier.remembers rest.remembers settled)
        exact equates (rest.advances.trans advances).resolves hasNormalForm (.var _)
      | succ offset =>
        have agrees := ih middleWellScoped (keeps.context ▸ bounded)
          (fun argument present => keeps.inScope (inScope.2 argument present)) yields
          (State.Remembers.constraints_eq earlier.remembers rest.remembers (.refl _) settled)
          found
        rwa [Nat.add_right_comm, Nat.add_assoc] at agrees

/-- The normal form of the type of a constructor is a chain of function types that ends in a
target. -/
theorem chain_of_checkTarget {written normal : Ty} {nonLinear : List Nat}
    (opened : Opened head ty before) (inScope : before.InScope written)
    (yields : Yields (checkTarget head constructor written) before nonLinear after)
    (settled : after.state.constraints = before.state.constraints)
    (advances : after.state.Advances later) (hasNormalForm : HasNormalForm later written normal) :
    ∃ telescope target, FunctionChain normal telescope target ∧
      IsTarget head telescope.length target.term := by
  have walks := opened.walks
  simp only [checkTarget, yields_bind_iff, yields_get_iff, yields_normalise_iff] at yields
  obtain ⟨_, _, ⟨rfl, rfl⟩, ⟨walked, target⟩, second, isWalked, nearly, _, ⟨isNormalised, rfl⟩,
    yields⟩ := yields
  obtain ⟨secondWellScoped, _, secondLength, targetInScope⟩ :=
    (extending_walkToTarget walks.wellScoped walks.length inScope.term).of_yields isWalked
  obtain ⟨normalises, nearlyInScope⟩ :=
    normalises_of_normalise secondWellScoped.state isNormalised targetInScope
  obtain ⟨_, argumentsInScope⟩ := (Phrase.scoped_iff_arguments nearly).1 nearlyInScope
  have walkGrows := ((built_walkToTarget _ _ _ _ _).learns isWalked).state.grows
  split at yields
  · rename_i shape
    obtain ⟨isConst, length⟩ := shape
    obtain ⟨_, third, isChecked, yields⟩ := yields_bind_iff.1 yields
    obtain ⟨occurring, _, isMapped, yields⟩ := yields_bind_iff.1 yields
    obtain ⟨_, rfl⟩ := yields_mapM_lift_iff.1 isMapped
    obtain ⟨_, rfl⟩ := yields_pure_iff.1 yields
    have checkGrows := ((built_checkParameters _ _ _).consults isChecked).learns.state.grows
    have secondAdvances := checkGrows.advances.trans advances
    obtain ⟨telescope, last, chain, isWalkedLength, ending⟩ := chain_of_walkToTarget walks inScope
      isWalked (State.Remembers.constraints_eq (.refl _) walkGrows.remembers checkGrows.remembers
        settled) secondAdvances hasNormalForm
    obtain rfl := isWalkedLength.trans (Nat.zero_add _)
    refine ⟨telescope, last, chain, ?_⟩
    rcases ending with hasTarget | isTarget
    · have nearlyNormal := hasTarget.of_rewrites_of_advances secondAdvances normalises.rewrites
      have rigid : later.signature.body? head.path = none :=
        (secondAdvances.body _).trans ((walkGrows.advances.body _).trans walks.rigid)
      obtain ⟨isNormal, normals⟩ := HasNormalForm.spine rigid isConst nearlyNormal
      constructor
      case head => exact isNormal
      case length => rw [← normals.length_eq, length]
      case parameters =>
        intro position bounded
        obtain ⟨⟨info, argument⟩, found⟩ : ∃ argument,
            nearly.arguments[position]? = some argument := ⟨_, List.getElem?_eq_getElem (by omega)⟩
        obtain ⟨⟨_, normal⟩, isArgument, rfl, hasArgument⟩ := getElem?_of_forall₂ normals found
        refine ⟨info, normal, isArgument, fun relevant => ?_⟩
        have agrees := agrees_of_checkParameters secondWellScoped (by omega)
          (fun argument present => argumentsInScope argument (List.mem_of_mem_take present))
          isChecked
          (State.Remembers.constraints_eq walkGrows.remembers checkGrows.remembers
            (.refl _) settled)
          advances (by rw [List.getElem?_take_of_lt bounded, found]) relevant
          hasArgument
        rwa [Nat.zero_add] at agrees
    · exact isTarget
  · exact absurd yields not_yields_fail

end Walk

end CheckM
end Families
