import Families.Proofs.Persistence

/-!
# Function types at the front of a type

A type opens to binders when it reduces to a function type, whose codomain opens to the other
binders.  The normal form of such a type is a chain of function types as it stands, and the types of
its binders are the normal forms of the types that the walk met.
-/

namespace Families

variable {fuel index : Nat} {info : ArgInfo} {name : Name} {path : Path} {telescope' : Telescope}
variable {result term : Term} {codomain domain : Ty}

/-! ## Normal forms of terms with a fixed head -/

section NormalForms

variable {state : State}

theorem HasNormalForm.of_steps {next : Term} (hasNormalForm : HasNormalForm state term result)
    (steps : Steps state term next) : HasNormalForm state next result := by
  induction steps with
  | refl => exact hasNormalForm
  | tail _ unfolds ih => exact ih.of_unfolds unfolds

theorem not_unfolds_var {next : Term} : ¬Unfolds state (.var index) next := by
  intro unfolds
  rcases unfolds.head_eq with ⟨_, _, impossible⟩ | ⟨_, impossible⟩ <;> cases impossible

theorem HasNormalForm.var_eq (hasNormalForm : HasNormalForm state (.var index) result) :
    result = .var index := by
  cases hasNormalForm with
  | step unfolds _ => exact absurd unfolds not_unfolds_var
  | atomic => rfl

theorem HasNormalForm.var (index : Nat) : HasNormalForm state (.var index) (.var index) :=
  .atomic trivial fun _ => not_unfolds_var

/-- A declaration without a body takes no step, whatever it is applied to. -/
theorem not_unfolds_of_rigid {next : Term} (isConst : term.head = .const path)
    (rigid : state.signature.body? path = none) : ¬Unfolds state term next := by
  intro unfolds
  rcases unfolds.head_cases with ⟨_, _, _, isPlaceholder, _⟩ | ⟨other, _, _, isOther, found, _⟩
  · cases isConst.symm.trans isPlaceholder
  · obtain rfl := Phrase.const.inj (isConst.symm.trans isOther)
    cases rigid.symm.trans found

/-- The normal form of an application of a declaration without a body applies it to normal forms. -/
theorem HasNormalForm.spine (rigid : state.signature.body? path = none) :
    ∀ {term result : Term}, term.head = .const path → HasNormalForm state term result →
      result.head = .const path ∧
        List.Forall₂ (fun argument normal => argument.1 = normal.1 ∧
          HasNormalForm state argument.2 normal.2) term.arguments result.arguments
  | term, result, isConst, hasNormalForm => by
    cases term with
    | const other =>
      cases hasNormalForm with
      | step unfolds _ => exact absurd unfolds (not_unfolds_of_rigid isConst rigid)
      | atomic => exact ⟨isConst, .nil⟩
    | app function argument info =>
      cases hasNormalForm with
      | step unfolds _ => exact absurd unfolds (not_unfolds_of_rigid isConst rigid)
      | atomic isAtomic _ => exact isAtomic.elim
      | app _ hasFunction hasArgument =>
        have isFunction : function.head = .const path := isConst
        obtain ⟨isConst', arguments⟩ := HasNormalForm.spine rigid isFunction hasFunction
        rw [Phrase.arguments_app, Phrase.arguments_app]
        exact ⟨isConst', List.rel_append arguments (.cons ⟨rfl, hasArgument⟩ .nil)⟩
    | _ => cases isConst

theorem Rewrites.forall₂_tail {first second third : List Term}
    (rewrites : List.Forall₂ (Rewrites state) first second)
    (parallel : List.Forall₂ (Parallel state) second third) :
    List.Forall₂ (Rewrites state) first third := by
  induction rewrites generalizing third with
  | nil =>
    cases parallel
    exact .nil
  | cons first _ ih =>
    cases parallel with
    | cons last lasts => exact .cons (first.tail last) (ih lasts)

/-- Rewriting keeps the application of a declaration without a body. -/
theorem Rewrites.spine (rigid : state.signature.body? path = none)
    (isConst : term.head = .const path) (rewrites : Rewrites state term result) :
    result.head = .const path ∧
      List.Forall₂ (Rewrites state) (term.arguments.map (·.2)) (result.arguments.map (·.2)) := by
  induction rewrites with
  | refl => exact ⟨isConst, List.forall₂_same.2 fun _ _ => .refl⟩
  | tail _ parallel ih =>
    obtain ⟨isConst', arguments⟩ := ih
    have keepsSpine := Parallel.keepsSpine
      (fun next => not_unfolds_of_rigid isConst' rigid) parallel
    exact ⟨(keepsSpine.head path).1 isConst', forall₂_tail arguments keepsSpine.arguments⟩

theorem Rewrites.var_eq (rewrites : Rewrites state (.var index) result) : result = .var index := by
  induction rewrites with
  | refl => rfl
  | tail _ parallel ih =>
    subst ih
    cases parallel with
    | atomic => rfl
    | step unfolds _ => exact absurd unfolds not_unfolds_var

theorem eq_of_reduce_pi (reduced : reduce state fuel (.pi name info domain codomain) = .ok result) :
    result = .pi name info domain codomain := by
  cases fuel with
  | zero => simp [reduce] at reduced
  | succ fuel => exact (Except.ok.inj reduced).symm

/-- A reduction to a function type is a sequence of steps. -/
theorem steps_of_reduce_pi {depth : Nat} (wellScoped : state.WellScoped)
    (inScope : term.Scoped state.Fits depth)
    (reduced : reduce state fuel term = .ok (.pi name info domain codomain)) :
    Steps state term (.pi name info domain codomain) := by
  rcases steps_of_reduce (State.Grows.refl state).resolves.retains wellScoped inScope reduced with
    ⟨steps, _⟩ | ⟨_, impossible⟩ | ⟨_, impossible⟩
  · exact steps
  · cases impossible
  · cases impossible

end NormalForms

/-! ## Chains of function types -/

/-- The type is a chain of function types with the given binders, and the last type stands under
them. -/
inductive FunctionChain : Ty → Telescope → Ty → Prop where
  | nil (ty : Ty) : FunctionChain ty [] ty
  | cons {sort : Universe} {name : Name} {info : ArgInfo} {domain codomain target : Ty}
      {telescope : Telescope} :
      FunctionChain codomain telescope target →
      FunctionChain (.classified sort (.pi name info domain codomain))
        (⟨name, info, domain⟩ :: telescope) target

namespace FunctionChain

variable {ty middle target : Ty} {telescope : Telescope}

theorem append {later : Telescope} (first : FunctionChain ty telescope middle)
    (last : FunctionChain middle later target) : FunctionChain ty (telescope ++ later) target := by
  induction first with
  | nil => exact last
  | cons _ ih => exact .cons (ih last)

end FunctionChain

/-! ## Types that open to binders -/

/-- The type reduces to a function type, whose codomain opens to the other binders.  The names of
the binders are related. -/
inductive OpensUpTo (names : Name → Name → Prop) (state : State) : Ty → Telescope → Ty → Prop where
  | nil (ty : Ty) : OpensUpTo names state ty [] ty
  | cons {ty domain codomain rest : Ty} {name name' : Name} {info : ArgInfo}
      {telescope : Telescope} :
      names name name' →
      Steps state ty.term (.pi name info domain codomain) →
      OpensUpTo names state codomain telescope rest →
      OpensUpTo names state ty (⟨name', info, domain⟩ :: telescope) rest

/-- The type opens to the binders, whatever their names. -/
abbrev Opens : State → Ty → Telescope → Ty → Prop :=
  OpensUpTo fun _ _ => True

/-- The type opens to the binders under their own names. -/
abbrev Exposes : State → Ty → Telescope → Ty → Prop :=
  OpensUpTo Eq

/-- The binder has the other one for its normal form. -/
structure Domain.Normal (state : State) (domain normal : Domain) : Prop where
  info : normal.info = domain.info
  ty : HasNormalForm state domain.ty normal.ty

namespace OpensUpTo

variable {names : Name → Name → Prop} {state later : State} {ty middle rest : Ty}
variable {telescope : Telescope}

theorem append (first : OpensUpTo names state ty telescope middle)
    (last : OpensUpTo names state middle telescope' rest) :
    OpensUpTo names state ty (telescope ++ telescope') rest := by
  induction first with
  | nil => exact last
  | cons related steps _ ih => exact .cons related steps (ih last)

/-- Binders are opened one part after the other. -/
theorem append_cases (opens : OpensUpTo names state ty (telescope ++ telescope') rest) :
    ∃ middle, OpensUpTo names state ty telescope middle ∧
      OpensUpTo names state middle telescope' rest := by
  induction telescope generalizing ty with
  | nil => exact ⟨ty, .nil ty, opens⟩
  | cons first telescope ih =>
    cases opens with
    | cons related steps opens =>
      obtain ⟨middle, opensFirst, opensLast⟩ := ih opens
      exact ⟨middle, .cons related steps opensFirst, opensLast⟩

theorem of_advances (opens : OpensUpTo names state ty telescope rest)
    (advances : state.Advances later) : OpensUpTo names later ty telescope rest := by
  induction opens with
  | nil ty => exact .nil ty
  | cons related steps _ ih => exact .cons related (steps.mono advances.resolves.retains) ih

/-- Binders put in front of a type are met again. -/
theorem toPi (telescope : Telescope) (core : Ty) :
    Exposes state (telescope.toPi core) telescope core := by
  induction telescope with
  | nil => exact .nil core
  | cons domain telescope ih => exact .cons rfl .refl ih

/-- The normal form of a type that opens to binders is a chain of function types. -/
theorem chain {normal : Ty} (opens : OpensUpTo names state ty telescope rest)
    (hasNormalForm : HasNormalForm state ty normal) :
    ∃ binders target, FunctionChain normal binders target ∧
      List.Forall₂ (Domain.Normal state) telescope binders ∧
      HasNormalForm state rest target := by
  induction opens generalizing normal with
  | nil => exact ⟨[], normal, .nil normal, .nil, hasNormalForm⟩
  | @cons ty _ _ _ _ _ _ _ _ steps _ ih =>
    obtain ⟨sort, term⟩ := ty
    obtain ⟨_, _, rfl, _, hasTerm⟩ := hasNormalForm.classified_cases
    obtain ⟨domain', codomain', rfl, hasDomain, hasCodomain⟩ :=
      (hasTerm.of_steps steps).pi_cases
    obtain ⟨binders, target, chain, normals, hasRest⟩ := ih hasCodomain
    exact ⟨_, target, .cons chain, .cons ⟨rfl, hasDomain⟩ normals, hasRest⟩

/-- What is seen at the front of a type are binders that it opens to. -/
theorem of_telescopeView {depth : Nat} (wellScoped : state.WellScoped)
    (inScope : ty.Scoped state.Fits depth)
    (viewed : telescopeView state fuel ty = .ok (telescope, rest)) :
    ∃ core, Opens state ty telescope core := by
  induction fuel generalizing ty telescope depth with
  | zero => simp [telescopeView] at viewed
  | succ fuel ih =>
    simp only [telescopeView, bind_eq_ok_iff] at viewed
    obtain ⟨reduced, isReduced, viewed⟩ := viewed
    split at viewed
    · rename_i name info domain codomain
      simp only [bind_eq_ok_iff, pure_eq_ok_iff, Prod.mk.injEq] at viewed
      obtain ⟨⟨telescope, rest⟩, isViewed, rfl, rfl⟩ := viewed
      have codomainInScope := (reduces_of_reduce wellScoped isReduced inScope.term).2.2
      obtain ⟨core, opens⟩ := ih codomainInScope isViewed
      exact ⟨core, .cons trivial (steps_of_reduce_pi wellScoped inScope.term isReduced) opens⟩
    · obtain ⟨rfl, _⟩ := Prod.mk.inj (Except.ok.inj viewed)
      exact ⟨ty, .nil ty⟩

end OpensUpTo
end Families
