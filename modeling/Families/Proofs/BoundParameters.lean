import Families.Proofs.Containment
import Families.Proofs.DataSorts

/-!
# Function types that are taken apart and put together again

The view of a type undoes what puts binders in front of it.  The parameters of a datatype fill the
binders at the front of its type.  Put in front of the rest again, the binders of a view and the
parameters give a type with the same normal form, up to the sorts of types and, for parameters, up
to the names of binders.
-/

namespace Families

variable {state : State}

/-! ## Normal forms of function types -/

/-- A level that is joined from others has a normal form if they have one. -/
theorem exists_hasNormalForm_join {left right left' right' : Level}
    (hasLeft : HasNormalForm state left left') (hasRight : HasNormalForm state right right') :
    ∃ joined, HasNormalForm state (Level.join left right) joined := by
  refine HasNormalForm.exists_of_leaves (.inr (.inl rfl)) fun leaf present => ?_
  obtain ⟨term, joined, isLeaf⟩ := Level.mem_leaves.1 present
  rcases Level.mem_terms_join.1 joined with onLeft | onRight
  · exact hasLeft.exists_of_mem_leaves (Level.mem_leaves.2 ⟨term, onLeft, isLeaf⟩)
  · exact hasRight.exists_of_mem_leaves (Level.mem_leaves.2 ⟨term, onRight, isLeaf⟩)

/-- A sort has a normal form if it has one under another variable. -/
theorem HasNormalForm.exists_outside {outside normal : Universe}
    (hasRenamed : HasNormalForm state (outside.rename (· + 1)) normal) :
    ∃ normal, HasNormalForm state outside normal := by
  obtain ⟨normal, hasBack, _⟩ := hasRenamed.exists_rename (· - 1)
  rw [Phrase.rename_rename, Phrase.rename_eq_self outside (by simp)] at hasBack
  exact ⟨normal, hasBack⟩

/-- The sort of a function type has a normal form if the sorts of its parts have one. -/
theorem exists_hasNormalForm_pi? {domain domain' codomain codomain' sort : Universe}
    (hasDomain : HasNormalForm state domain domain')
    (hasCodomain : HasNormalForm state codomain codomain')
    (isSort : Universe.pi? domain (codomain.strengthen? 1) = some sort) :
    ∃ sort', HasNormalForm state sort sort' := by
  have outsideHas : ∀ outside, codomain.strengthen? 1 = some outside →
      ∃ normal, HasNormalForm state outside normal := by
    intro outside strengthened
    obtain rfl := Phrase.strengthen?_eq_some_iff.1 strengthened
    exact hasCodomain.exists_outside
  refine Universe.pi?_induction isSort ⟨_, .atomic trivial trivial⟩ ⟨_, .atomic trivial trivial⟩
    ⟨_, .atomic trivial trivial⟩ outsideHas ?_
  rintro left right rfl isOutside
  obtain ⟨_, hasOutside⟩ := outsideHas _ isOutside
  obtain ⟨_, rfl, hasLeft⟩ := hasDomain.set_cases
  obtain ⟨_, rfl, hasRight⟩ := hasOutside.set_cases
  obtain ⟨joined, hasJoined⟩ := exists_hasNormalForm_join hasLeft hasRight
  exact ⟨_, .set hasJoined⟩

/-- A function type that is put together has a normal form if its parts have one. -/
theorem exists_hasNormalForm_bindPi (domain : Domain) {domain' codomain codomain' : Ty}
    (hasDomain : HasNormalForm state domain.ty domain')
    (hasCodomain : HasNormalForm state codomain codomain') :
    ∃ sort, HasNormalForm state (Telescope.bindPi domain codomain)
      (.classified sort (.pi domain.name domain.info domain' codomain')) := by
  obtain ⟨sort, hasSort⟩ : ∃ sort, HasNormalForm state
      ((Universe.pi? domain.ty.sort (codomain.sort.strengthen? 1)).getD .omega) sort := by
    cases isSort : Universe.pi? domain.ty.sort (codomain.sort.strengthen? 1) with
    | none => exact ⟨_, .atomic trivial trivial⟩
    | some sort => exact exists_hasNormalForm_pi? hasDomain.sort hasCodomain.sort isSort
  exact ⟨sort, .classified hasSort (.pi hasDomain hasCodomain)⟩

/-! ## Views -/

/-- The types are the same up to the sorts of types: both are function types with the same domains
under related names, and end in related types. -/
inductive Rebinds (names : Name → Name → Prop) (ends : Ty → Ty → Prop) : Ty → Ty → Prop where
  | target {ty ty' : Ty} : ends ty ty' → Rebinds names ends ty ty'
  | pi {sort sort' : Universe} {name name' : Name} {info : ArgInfo}
      {domain codomain codomain' : Ty} :
      names name name' → Rebinds names ends codomain codomain' →
      Rebinds names ends (.classified sort (.pi name info domain codomain))
        (.classified sort' (.pi name' info domain codomain'))

/-- The terms are the same up to sorts: both are function types with the same binders, which end in
the same term, while the sorts of the codomains may differ. -/
def Resorted (term term' : Term) : Prop :=
  ∀ sort sort', Rebinds Eq (fun ty ty' => ty.term = ty'.term) (.classified sort term)
    (.classified sort' term')

/-- The types are the same up to the names of binders and the sorts of types: both are function
types with the same domains, which end in the same type. -/
def Renamed : Ty → Ty → Prop :=
  Rebinds (fun _ _ => True) Eq

/-- What a view takes apart, put together again, has the same normal form up to sorts, and a sort
with a normal form if the type has one. -/
theorem exists_resorted_of_telescopeView {fuel depth : Nat} {ty : Ty} {normal : Term}
    {view : Telescope × Ty} (wellScoped : state.WellScoped) (inScope : ty.Scoped state.Fits depth)
    (viewed : telescopeView state fuel ty = .ok view)
    (hasNormalForm : HasNormalForm state ty.term normal) :
    (∃ normal', HasNormalForm state (view.1.toPi view.2).term normal' ∧ Resorted normal normal') ∧
      ∀ sort, HasNormalForm state ty.sort sort →
        ∃ sort', HasNormalForm state (view.1.toPi view.2).sort sort' := by
  induction fuel generalizing ty normal view depth with
  | zero => cases viewed
  | succ fuel ih =>
    simp only [telescopeView, bind_eq_ok_iff] at viewed
    obtain ⟨reduced, isReduced, viewed⟩ := viewed
    obtain ⟨reduces, reducedInScope⟩ := reduces_of_reduce wellScoped isReduced inScope.term
    have hasReduced := hasNormalForm.of_rewrites (.of_parallel reduces.parallel)
    split at viewed
    · rename_i name info domain codomain
      obtain ⟨⟨telescope, tail⟩, isViewed, isView⟩ := bind_eq_ok_iff.1 viewed
      obtain rfl := Except.ok.inj isView
      obtain ⟨domain', codomain', rfl, hasDomain, hasCodomain⟩ := hasReduced.pi_cases
      cases codomain' with | classified sort term =>
      obtain ⟨⟨term', hasTerm, resorted⟩, hasSorts⟩ :=
        ih reducedInScope.2 isViewed hasCodomain.term
      obtain ⟨sort', hasSort⟩ := hasSorts sort hasCodomain.sort
      have hasRest : HasNormalForm state (telescope.toPi tail) (.classified sort' term') := by
        generalize telescope.toPi tail = whole at hasTerm hasSort
        obtain ⟨_, _⟩ := whole
        exact .classified hasSort hasTerm
      obtain ⟨above, hasFunction⟩ :=
        exists_hasNormalForm_bindPi ⟨name, info, domain⟩ hasDomain hasRest
      exact ⟨⟨_, hasFunction.term, fun _ _ => .pi rfl (resorted _ _)⟩,
        fun _ _ => ⟨above, hasFunction.sort⟩⟩
    · obtain rfl := Except.ok.inj viewed
      exact ⟨⟨normal, hasReduced, fun _ _ => .target rfl⟩, fun sort hasSort => ⟨sort, hasSort⟩⟩

/-- Binders that are put in front of a type are the first ones of its view, unchanged, and the rest
of the view is that of the type.  What a view takes apart, put together again, has the normal form
of the term up to sorts. -/
theorem telescopeView_toPi_round_trip (state : State) (fuel : Nat) :
    (∀ (telescope : Telescope) (core : Ty),
      telescopeView state (fuel + telescope.length) (telescope.toPi core) =
        (telescopeView state fuel core).map fun view => (telescope ++ view.1, view.2)) ∧
    ∀ {depth : Nat} {ty : Ty} {telescope : Telescope} {tail : Ty}, state.WellScoped →
      ty.Scoped state.Fits depth → telescopeView state fuel ty = .ok (telescope, tail) →
      ∀ normal, HasNormalForm state ty.term normal → ∃ normal',
        HasNormalForm state (telescope.toPi tail).term normal' ∧ Resorted normal normal' := by
  constructor
  · intro telescope core
    induction telescope with
    | nil =>
      change telescopeView state fuel core = _
      cases telescopeView state fuel core <;> rfl
    | cons domain telescope ih =>
      rw [List.length_cons, ← Nat.add_assoc, telescopeView]
      generalize isMore : fuel + telescope.length = more at ih ⊢
      cases more with
      | zero =>
        obtain rfl : fuel = 0 := by omega
        rfl
      | succ more =>
        change (telescopeView state (more + 1) (Telescope.toPi telescope core) >>= fun view =>
          pure (domain :: view.1, view.2)) = _
        rw [ih]
        cases telescopeView state fuel core <;> rfl
  · intro depth ty telescope tail wellScoped inScope viewed normal hasNormalForm
    exact (exists_resorted_of_telescopeView wellScoped inScope viewed hasNormalForm).1

/-- The sort that is written with a function type need not be the one that is put together. -/
theorem telescopeView_toPi_round_trip_sorts :
    let sets : Ty := .classified (Universe.ofNat 1) (.univ (Universe.ofNat 0))
    let element : Ty := .classified (Universe.ofNat 0) (.var 0)
    let codomain : Ty := .classified (Universe.ofNat 5) (.pi ⟨1⟩ {} element sets)
    let ty : Ty := .classified (Universe.ofNat 5) (.pi ⟨0⟩ {} sets codomain)
    let telescope : Telescope := [⟨⟨0⟩, {}, sets⟩, ⟨⟨1⟩, {}, element⟩]
    telescopeView State.initial 9 ty = .ok (telescope, sets) ∧
      telescopeView State.initial 11 (telescope.toPi sets) = .ok (telescope, sets) ∧
      telescope.toPi sets ≠ ty ∧
      ∃ normal normal', HasNormalForm State.initial ty.term normal ∧
        HasNormalForm State.initial (telescope.toPi sets).term normal' ∧
          Resorted normal normal' := by
  intro sets element codomain ty telescope
  have wellScoped := State.wellScoped_initial
  have sortInScope (number depth : Nat) :
      (Universe.ofNat number).Scoped State.initial.Fits depth := Universe.scoped_ofNat number depth
  have setsInScope (depth : Nat) : sets.Scoped State.initial.Fits depth :=
    ⟨sortInScope 1 depth, sortInScope 0 depth⟩
  have inScope : ty.Scoped State.initial.Fits 0 :=
    ⟨sortInScope 5 0, setsInScope 0, sortInScope 5 1, ⟨sortInScope 0 1, Nat.one_pos⟩, setsInScope 2⟩
  have viewed : telescopeView State.initial 9 ty = .ok (telescope, sets) := by decide +kernel
  obtain ⟨opens, closes⟩ := telescopeView_toPi_round_trip State.initial 9
  have normalised : normalise State.initial 20 ty.term = .ok ty.term := by decide +kernel
  have hasNormalForm := (normalises_of_normalise wellScoped normalised inScope.term).1.hasNormalForm
  obtain ⟨normal', hasNormalForm', resorted⟩ := closes wellScoped inScope viewed _ hasNormalForm
  refine ⟨viewed, (opens telescope sets).trans ?_, by decide +kernel, _, normal', hasNormalForm,
    hasNormalForm', resorted⟩
  decide +kernel

/-- Binders that a type opens to, put in front of the rest, give back its normal form. -/
theorem OpensUpTo.exists_renamed {ty rest normal : Ty} {telescope : Telescope}
    (opens : Opens state ty telescope rest) (hasNormalForm : HasNormalForm state ty normal) :
    ∃ normal', HasNormalForm state (telescope.toPi rest) normal' ∧ Renamed normal normal' := by
  induction opens generalizing normal with
  | nil => exact ⟨normal, hasNormalForm, .target rfl⟩
  | @cons ty domain codomain rest name name' info telescope _ steps _ ih =>
    obtain ⟨sort, term⟩ := ty
    obtain ⟨_, _, rfl, _, hasTerm⟩ := hasNormalForm.classified_cases
    obtain ⟨domain', codomain', rfl, hasDomain, hasCodomain⟩ := (hasTerm.of_steps steps).pi_cases
    obtain ⟨renamed, hasRenamed, isRenamed⟩ := ih hasCodomain
    obtain ⟨sort', hasFunction⟩ :=
      exists_hasNormalForm_bindPi ⟨name', info, domain⟩ hasDomain hasRenamed
    exact ⟨_, hasFunction, .pi trivial isRenamed⟩

namespace CheckM

open Checker

variable {names : NameTable} {bindings : List ParameterBinding} {binders telescope : Telescope}

theorem Fills.eq_nil_iff (fills : Fills names bindings binders telescope) :
    bindings = [] ↔ telescope = [] := by
  cases fills <;> simp

/-- No binder is inserted after the last parameter. -/
theorem Fills.exists_last {last : ParameterBinding} (fills : Fills names bindings binders telescope)
    (isLast : bindings.getLast? = some last) :
    ∃ binder, telescope.getLast? = some binder ∧
      names.texts.idxOf? last.name = some binder.name.id ∧ binder.info.plicity = last.plicity := by
  induction fills with
  | nil => cases isLast
  | @bound binding bindings binder binders telescope name samePlicity known rest ih =>
    cases bindings with
    | nil =>
      obtain rfl := Option.some.inj isLast
      obtain rfl := rest.eq_nil_iff.1 rfl
      exact ⟨_, rfl, known, samePlicity.symm⟩
    | cons next bindings =>
      obtain ⟨found, isFound, facts⟩ := ih (by simpa using isLast)
      exact ⟨found, by simp [List.getLast?_cons, isFound], facts⟩
  | inserted _ _ _ ih =>
    obtain ⟨found, isFound, facts⟩ := ih isLast
    exact ⟨found, by simp [List.getLast?_cons, isFound], facts⟩

/-- What follows the parameters runs in the scope that they extend.  They fill the binders at the
front of the type, each in its order, and the last of them is bound last.  Put in front of the rest,
they give a type with the same normal form as the type, up to the names of binders and the sorts of
types.  In the end the scope is again the one from before. -/
theorem bindParameters_round_trip {checker : Checker} {ty : Ty} (fuel : Nat)
    (bindings : List ParameterBinding) (reachable : Reachable checker)
    (inScope : checker.InScope ty) :
    (∀ {telescope rest later},
      Yields (bindParameters fuel bindings ty) checker (telescope, rest) later →
      later.context = telescope.reverse ++ checker.context ∧
      (∃ binders, Exposes later.state ty binders rest ∧
        Fills later.names bindings binders telescope) ∧
      (bindings = [] ↔ telescope = []) ∧
      (∀ last, bindings.getLast? = some last → ∃ binder, telescope.getLast? = some binder ∧
        later.names.texts.idxOf? last.name = some binder.name.id ∧
        binder.info.plicity = last.plicity) ∧
      ∀ normal, HasNormalForm later.state ty normal → ∃ normal',
        HasNormalForm later.state (telescope.toPi rest) normal' ∧ Renamed normal normal') ∧
    ∀ {α : Type} (next : Telescope × Ty → CheckM α), (∀ bound, Registering (next bound)) →
      ((restoreScope (bindParameters fuel bindings ty >>= next)).run checker).state.context =
        checker.context := by
  constructor
  · intro telescope rest later yields
    obtain ⟨⟨binders, exposes, fills⟩, isContext⟩ :=
      fills_of_bindParameters reachable.wellScoped inScope yields
    exact ⟨isContext, ⟨binders, exposes, fills⟩, fills.eq_nil_iff, fun last => fills.exists_last,
      fun normal => (fills.opens exposes).exists_renamed⟩
  · intro α next registering
    have registers : Registering (bindParameters fuel bindings ty >>= next) :=
      ((built_bindParameters fuel bindings ty).along routes_registering).bind registering
    exact (declaring_restoreScope registers checker).follows.context

/-- An explicit parameter passes over an implicit binder, which is bound under its own name. -/
theorem bindParameters_round_trip_implicit :
    let sets : Ty := .classified (Universe.ofNat 1) (.univ (Universe.ofNat 0))
    let element : Ty := .classified (Universe.ofNat 0) (.var 0)
    let codomain : Ty := .classified (Universe.ofNat 1) (.pi ⟨1⟩ {} element sets)
    let ty : Ty := .classified (Universe.ofNat 1) (.pi ⟨0⟩ { plicity := .implicit } sets codomain)
    let checker := Checker.initial {} .patterns 20
    let bound := (bindParameters 20 [{ name := "y" }] ty).run checker
    let telescope : Telescope := [⟨⟨0⟩, { plicity := .implicit }, sets⟩, ⟨⟨2⟩, {}, element⟩]
    Reachable checker ∧ bound.result = .ok (telescope, sets) ∧
      bound.state.context = telescope.reverse ∧
      (∃ binders, Exposes bound.state.state ty binders sets ∧
        Fills bound.state.names [{ name := "y" }] binders telescope) ∧
      ∀ normal, HasNormalForm bound.state.state ty normal → ∃ normal',
        HasNormalForm bound.state.state (telescope.toPi sets) normal' ∧ Renamed normal normal' := by
  intro sets element codomain ty checker bound telescope
  have reachable : Reachable checker := .initial {} .patterns 20
  have sortInScope (number depth : Nat) :
      (Universe.ofNat number).Scoped checker.state.Fits depth := Universe.scoped_ofNat number depth
  have setsInScope (depth : Nat) : sets.Scoped checker.state.Fits depth :=
    ⟨sortInScope 1 depth, sortInScope 0 depth⟩
  have inScope : checker.InScope ty :=
    ⟨sortInScope 1 0, setsInScope 0, sortInScope 1 1, ⟨sortInScope 0 1, Nat.one_pos⟩, setsInScope 2⟩
  have isBound : bound.result = .ok (telescope, sets) := by decide +kernel
  obtain ⟨isContext, fills, _, _, sameForm⟩ :=
    (bindParameters_round_trip 20 [{ name := "y" }] reachable inScope).1 ⟨isBound, rfl⟩
  exact ⟨reachable, isBound, isContext, fills, sameForm⟩

end CheckM
end Families
