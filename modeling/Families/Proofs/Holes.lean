import Families.Proofs.Ceilings
import Families.Proofs.Stillness
import Families.Proofs.Regimes

/-!
# Declarations without holes

Placeholders come from holes.  Where no hole is written, none occurs in what is inferred or
elaborated: inference and elaboration never create one, and comparisons have nothing to solve.
-/

namespace Families

variable {ty : Ty} {category : Category} {phrase result : Phrase category} {fuel : Nat}
variable {info : ArgInfo} {bound : Level} {telescope : Telescope} {domain : Domain}

/-! ## Operations on ground phrases -/

namespace Phrase

variable {category : Category} {phrase result : Phrase category}

@[simp]
theorem ground_app_iff {function argument : Term} :
    (Phrase.app function argument info).Ground ↔ function.Ground ∧ argument.Ground := by
  simp [ground_iff, hasPlaceholder, anyPlaceholder]

@[simp]
theorem ground_pi_iff {name : Name} {domain codomain : Ty} :
    (Phrase.pi name info domain codomain).Ground ↔ domain.Ground ∧ codomain.Ground := by
  simp [ground_iff, hasPlaceholder, anyPlaceholder]

@[simp]
theorem ground_classified_iff {sort : Universe} {term : Term} :
    (Phrase.classified sort term).Ground ↔ sort.Ground ∧ term.Ground := by
  simp [ground_iff, hasPlaceholder, anyPlaceholder]

@[simp]
theorem ground_univ_iff {sort : Universe} : (Phrase.univ sort).Ground ↔ sort.Ground := by
  simp [ground_iff, hasPlaceholder, anyPlaceholder]

@[simp]
theorem ground_level_iff : (Phrase.level bound).Ground ↔ bound.Ground := by
  simp [ground_iff, hasPlaceholder, anyPlaceholder]

@[simp]
theorem ground_set_iff : (Phrase.set bound).Ground ↔ bound.Ground := by
  simp [ground_iff, hasPlaceholder, anyPlaceholder]

@[simp]
theorem ground_var (index : Nat) : (Phrase.var index).Ground :=
  ground_iff.2 rfl

@[simp]
theorem ground_const (path : Path) : (Phrase.const path).Ground :=
  ground_iff.2 rfl

theorem Ground.sort (ground : ty.Ground) : ty.sort.Ground := by
  obtain ⟨depth, inScope⟩ := ground
  exact ⟨depth, inScope.sort⟩

theorem Ground.term (ground : ty.Ground) : ty.term.Ground := by
  obtain ⟨depth, inScope⟩ := ground
  exact ⟨depth, inScope.term⟩

theorem Ground.lift? {shift cutoff : Nat} (ground : phrase.Ground)
    (lifted : phrase.lift? shift cutoff = some result) : result.Ground := by
  obtain ⟨depth, inScope⟩ := ground
  exact ⟨depth + shift, inScope.lift? lifted⟩

theorem Ground.instantiate? {argument : Term} (ground : phrase.Ground)
    (argumentGround : argument.Ground) (instantiated : phrase.instantiate? argument = some result) :
    result.Ground := by
  obtain ⟨depth, inScope, argumentInScope⟩ := ground.both argumentGround
  exact ⟨depth, (inScope.mono id (Nat.le_succ depth)).instantiate? argumentInScope instantiated⟩

theorem Ground.strengthen? {count : Nat} (ground : phrase.Ground)
    (strengthened : phrase.strengthen? count = some result) : result.Ground := by
  obtain ⟨depth, inScope⟩ := ground
  exact ⟨depth, (inScope.mono id (Nat.le_add_right depth count)).strengthen? strengthened⟩

theorem Ground.invert {id : Nat} {pattern : List Nat} (ground : phrase.Ground)
    (inverted : Families.invert id pattern phrase = .ok result) : result.Ground := by
  obtain ⟨depth, inScope⟩ := ground
  exact ⟨pattern.length, inScope.invert inverted⟩

theorem Ground.argument {term : Term} {argument : ArgInfo × Term} (ground : term.Ground)
    (present : argument ∈ term.arguments) : argument.2.Ground := by
  obtain ⟨depth, inScope⟩ := ground
  exact ⟨depth, ((scoped_iff_arguments term).1 inScope).2 argument present⟩

end Phrase

namespace Universe

theorem ground_succ? {sort above : Universe} (ground : sort.Ground)
    (succeeded : succ? sort = some above) : above.Ground := by
  obtain ⟨depth, inScope⟩ := ground
  exact ⟨depth, scoped_succ? inScope succeeded⟩

/-- The sort of a function type without placeholders can be computed. -/
theorem exists_pi? {domain : Universe} {codomain : Option Universe} (domainGround : domain.Ground)
    (codomainGround : ∀ sort, codomain = some sort → sort.Ground) :
    ∃ sort, pi? domain codomain = some sort ∧ sort.Ground := by
  have inScope : ∃ depth, domain.Scoped (fun _ _ _ => False) depth ∧
      ∀ sort, codomain = some sort → sort.Scoped (fun _ _ _ => False) depth := by
    cases codomain with
    | none =>
      obtain ⟨depth, domainInScope⟩ := domainGround
      exact ⟨depth, domainInScope, by simp⟩
    | some codomain =>
      obtain ⟨depth, domainInScope, codomainInScope⟩ :=
        domainGround.both (codomainGround codomain rfl)
      refine ⟨depth, domainInScope, ?_⟩
      rintro _ ⟨rfl⟩
      exact codomainInScope
  have computed : ∃ sort, pi? domain codomain = some sort := by
    cases codomain with
    | none => exact ⟨.omega, rfl⟩
    | some codomain =>
      have noPlaceholder := codomainGround codomain rfl
      cases domain with
      | sortPlaceholder => exact absurd domainGround Phrase.not_ground_sortPlaceholder
      | _ =>
        cases codomain with
        | sortPlaceholder => exact absurd noPlaceholder Phrase.not_ground_sortPlaceholder
        | _ => exact ⟨_, rfl⟩
  obtain ⟨depth, domainInScope, codomainInScope⟩ := inScope
  obtain ⟨sort, isSort⟩ := computed
  exact ⟨sort, isSort, depth, scoped_pi? domainInScope codomainInScope isSort⟩

end Universe

namespace Telescope

/-- No placeholder occurs in the types of the binders. -/
abbrev Ground (telescope : Telescope) : Prop :=
  ∀ domain ∈ telescope, domain.ty.Ground

theorem Ground.toPi {core : Ty} (ground : telescope.Ground) (coreGround : core.Ground) :
    (telescope.toPi core).Ground := by
  induction telescope with
  | nil => exact coreGround
  | cons domain telescope ih =>
    rw [Ground, List.forall_mem_cons] at ground
    have codomainGround : (Telescope.toPi telescope core).Ground := ih ground.2
    have outsideGround : ∀ sort, (Telescope.toPi telescope core).sort.strengthen? 1 = some sort →
        sort.Ground := fun sort strengthened => codomainGround.sort.strengthen? strengthened
    obtain ⟨sort, isSort, sortGround⟩ :=
      Universe.exists_pi? (Phrase.Ground.sort ground.1) outsideGround
    change (bindPi domain (Telescope.toPi telescope core)).Ground
    simp only [bindPi, isSort, Option.getD_some, Phrase.ground_classified_iff,
      Phrase.ground_pi_iff]
    exact ⟨sortGround, ground.1, codomainGround⟩

theorem Ground.withPlicity (ground : telescope.Ground) (plicity : Plicity) :
    (telescope.withPlicity plicity).Ground := by
  intro domain present
  obtain ⟨source, isSource, rfl⟩ := List.mem_map.1 present
  exact ground source isSource

end Telescope

theorem Context.ground_typeOf? {context : Context} {index : Nat} (ground : Telescope.Ground context)
    (found : context.typeOf? index = some (some ty)) : ty.Ground := by
  obtain ⟨domain, present, isLifted⟩ := exists_of_typeOf? found
  exact (ground domain (List.mem_of_getElem? present)).lift? isLifted

/-! ## Checkers without placeholders -/

namespace State

/-- No placeholder occurs in what is declared, and nothing is postponed. -/
structure Solid (state : State) : Prop where
  bodies : state.Ground
  types : ∀ entry ∈ state.signature.values, entry.definition.ty.Ground
  constraints : state.constraints = []

variable {state : State}

theorem Solid.definition {path : Path} {definition : Definition} (solid : state.Solid)
    (found : state.signature.definition? path = some definition) : definition.ty.Ground := by
  obtain ⟨entry, declared, rfl⟩ := Option.map_eq_some_iff.1 found
  exact solid.types entry (PathMap.mem_values_of_get? declared)

theorem Solid.withEntry {path : Path} {entry : Entry} (solid : state.Solid)
    (tyGround : entry.definition.ty.Ground) (kindGround : entry.definition.kind.isGround = true) :
    (state.withEntry path entry).Solid where
  bodies other present := by
    rcases PathMap.mem_values_insert present with rfl | earlier
    · exact kindGround
    · exact solid.bodies other earlier
  types other present := by
    rcases PathMap.mem_values_insert present with rfl | earlier
    · exact tyGround
    · exact solid.types other earlier
  constraints := solid.constraints

theorem Solid.reduce (solid : state.Solid) (ground : phrase.Ground)
    (reduced : Families.reduce state fuel phrase = .ok result) : result.Ground :=
  solid.bodies.supplies.reduce reduced ground

theorem Solid.normalise (solid : state.Solid) (ground : phrase.Ground)
    (normalised : Families.normalise state fuel phrase = .ok result) : result.Ground :=
  (solid.bodies.supplies.normalise normalised ground).mono And.left

theorem Solid.telescopeView {view : Telescope × Ty} (solid : state.Solid) (ground : ty.Ground)
    (viewed : Families.telescopeView state fuel ty = .ok view) : view.1.Ground ∧ view.2.Ground := by
  induction fuel generalizing ty view with
  | zero => cases viewed
  | succ fuel ih =>
    simp only [Families.telescopeView, bind_eq_ok_iff] at viewed
    obtain ⟨reduced, isReduced, viewed⟩ := viewed
    have reducedGround := solid.reduce ground.term isReduced
    split at viewed
    · obtain ⟨rest, restViewed, isView⟩ := bind_eq_ok_iff.1 viewed
      obtain rfl := Except.ok.inj isView
      obtain ⟨domainGround, codomainGround⟩ := Phrase.ground_pi_iff.1 reducedGround
      obtain ⟨restGround, tailGround⟩ := ih codomainGround restViewed
      exact ⟨List.forall_mem_cons.2 ⟨domainGround, restGround⟩, tailGround⟩
    · obtain rfl := Except.ok.inj viewed
      exact ⟨by simp [Telescope.Ground],
        Phrase.ground_classified_iff.2 ⟨ground.sort, reducedGround⟩⟩

end State

namespace Checker

/-- No placeholder occurs in what is declared or in scope, and nothing is postponed. -/
structure Solid (checker : Checker) : Prop where
  state : checker.state.Solid
  context : Telescope.Ground checker.context

theorem Solid.truncate {checker : Checker} (solid : checker.Solid) (length : Nat) :
    Solid { checker with context := checker.context.truncate length } :=
  ⟨solid.state, fun domain present => solid.context domain (List.mem_of_mem_drop present)⟩

end Checker

namespace CheckM

variable {α β : Type} {answers : α → Prop} {answers' : β → Prop}
variable {body : CheckM α} {next : α → CheckM β} {halting : Except Halt α}

/-- Started without placeholders, the computation leaves none when it answers, and its answer is as
stated. -/
def Solidly (computation : CheckM α) (answers : α → Prop) : Prop :=
  ∀ ⦃before value after⦄, before.Solid → Yields computation before value after →
    after.Solid ∧ answers value

namespace Solidly

theorem pure {value : α} (answer : answers value) : Solidly (Pure.pure value) answers := by
  intro before _ after solid yields
  obtain ⟨rfl, rfl⟩ := yields_pure_iff.1 yields
  exact ⟨solid, answer⟩

theorem fail (error : CheckError) : Solidly (Attempt.fail error : CheckM α) answers :=
  fun _ _ _ _ yields => absurd yields not_yields_fail

theorem halt (reason : Halt) : Solidly (Attempt.halt reason : CheckM α) answers :=
  fun _ _ _ _ yields => absurd yields not_yields_halt

theorem bind {first : CheckM α} (firstSolidly : Solidly first answers)
    (nextSolidly : ∀ value, answers value → Solidly (next value) answers') :
    Solidly (first >>= next) answers' := by
  intro before _ after solid yields
  obtain ⟨value, middle, firstYields, nextYields⟩ := yields_bind_iff.1 yields
  obtain ⟨middleSolid, answer⟩ := firstSolidly solid firstYields
  exact nextSolidly value answer middleSolid nextYields

/-- What is read is the checker that the rest starts from. -/
theorem get_bind {next : Checker → CheckM β}
    (nextSolidly : ∀ checker, checker.Solid → Solidly (next checker) answers') :
    Solidly (get >>= next) answers' := by
  intro before _ after solid yields
  obtain ⟨_, _, ⟨rfl, rfl⟩, nextYields⟩ := by
    simpa only [yields_bind_iff, yields_get_iff] using yields
  exact nextSolidly before solid solid nextYields

theorem lift (answer : ∀ value, halting = .ok value → answers value) :
    Solidly (monadLift halting : CheckM α) answers := by
  intro before value after solid yields
  obtain ⟨succeeded, rfl⟩ := yields_lift_iff.1 yields
  exact ⟨solid, answer value succeeded⟩

theorem lift_bind (nextSolidly : ∀ value, halting = .ok value → Solidly (next value) answers') :
    Solidly (monadLift halting >>= next) answers' :=
  bind (lift fun _ succeeded => succeeded) nextSolidly

theorem register {definition : Definition} (tyGround : definition.ty.Ground)
    (kindGround : definition.kind.isGround = true) :
    Solidly (CheckM.register definition) fun _ => True := by
  intro before _ after solid yields
  obtain ⟨_, rfl⟩ := yields_register_iff.1 yields
  exact ⟨⟨solid.state.withEntry tyGround kindGround, solid.context⟩, trivial⟩

end Solidly

theorem solidly_enterName (text : String) : Solidly (enterName text) fun _ => True := by
  rintro before _ after solid ⟨_, rfl⟩
  exact ⟨⟨solid.state, solid.context⟩, trivial⟩

theorem solidly_enterPath (text : String) : Solidly (enterPath text) fun _ => True := by
  rintro before _ after solid ⟨_, rfl⟩
  exact ⟨⟨solid.state, solid.context⟩, trivial⟩

theorem solidly_telescopeView (ground : ty.Ground) :
    Solidly (telescopeView ty) fun view => view.1.Ground ∧ view.2.Ground := by
  intro before _ after solid yields
  obtain ⟨viewed, rfl⟩ := yields_telescopeView_iff.1 yields
  exact ⟨solid, solid.state.telescopeView ground viewed⟩

/-- A comparison that is still leaves the checker as it was, also when it fails. -/
theorem solidly_attempt {comparison : Checker → ConvM α}
    (still : ∀ checker : Checker, checker.Solid → Still (comparison checker) checker.state) :
    Solidly (do let checker ← get; attempt (comparison checker)) fun _ => True := by
  intro before value after solid yields
  obtain ⟨_, _, ⟨rfl, rfl⟩, attempted⟩ := by
    simpa only [yields_bind_iff, yields_get_iff] using yields
  obtain ⟨_, rfl⟩ := attempted
  have same : ((comparison before).run before.state).state = before.state :=
    (still before solid).state_eq
  refine ⟨⟨?_, solid.context⟩, trivial⟩
  change (((comparison before).run before.state).state).Solid
  rw [same]
  exact solid.state

/-- No placeholder occurs, and none is created. -/
@[reducible]
def grounded : Regime where
  Fits := Phrase.Ground
  Creates := False
  Holds := Solidly

theorem lawful_grounded : grounded.Lawful where
  var := Phrase.ground_var
  levels := Phrase.ground_const _
  prop := Phrase.ground_iff.2 rfl
  omega := Phrase.ground_iff.2 rfl
  sizeUniv := Phrase.ground_iff.2 rfl
  number _ := Phrase.ground_iff.2 rfl
  app := Phrase.ground_app_iff
  function := Phrase.ground_pi_iff
  univ := Phrase.ground_univ_iff
  level := Phrase.ground_level_iff
  set := Phrase.ground_set_iff
  classified := Phrase.ground_classified_iff
  ofTerm ground := ground.ofTerm
  join leftGround rightGround := by
    obtain ⟨depth, leftInScope, rightInScope⟩ := leftGround.both rightGround
    exact ⟨depth, Level.scoped_join leftInScope rightInScope⟩
  raise? ground raised := by
    obtain ⟨depth, inScope⟩ := ground
    exact ⟨depth, Level.scoped_raise? inScope raised⟩
  succ? := Universe.ground_succ?
  pi? domainGround codomainGround isSort := by
    obtain ⟨_, isSort', ground⟩ := Universe.exists_pi? domainGround codomainGround
    exact Option.some.inj (isSort'.symm.trans isSort) ▸ ground
  lift? ground lifted := ground.lift? lifted
  strengthen? ground strengthened := ground.strengthen? strengthened
  instantiate? ground argumentGround instantiated := ground.instantiate? argumentGround instantiated
  arguments ground _ present := ground.argument present
  creates := Phrase.not_ground_placeholder
  createsSort := Phrase.not_ground_sortPlaceholder
  pure := .pure
  fail _ yields := absurd yields not_yields_fail
  halt _ yields := absurd yields not_yields_halt
  bind := .bind
  get_bind _ holds := .get_bind fun checker _ => holds checker
  lift := .lift
  restoreScope solidly := by
    intro before value after solid yields
    obtain ⟨inner, bodyYields, rfl⟩ := yields_restoreScope_iff.1 yields
    obtain ⟨innerSolid, answer⟩ := solidly solid bodyYields
    exact ⟨innerSolid.truncate _, answer⟩
  localState solidly := by
    rintro before value after solid ⟨answered, rfl⟩
    obtain ⟨innerSolid, answer⟩ := solidly solid (.of_result answered)
    exact ⟨⟨solid.state, innerSolid.context⟩, answer⟩
  push ground := by
    intro before _ after solid yields
    obtain rfl := yields_push_iff.1 yields
    exact ⟨⟨solid.state, List.forall_mem_cons.2 ⟨ground, solid.context⟩⟩, trivial⟩
  enterName := solidly_enterName
  reduce ground := by
    intro before _ after solid yields
    obtain ⟨reduced, rfl⟩ := yields_reduce_iff.1 yields
    exact ⟨solid, solid.state.reduce ground reduced⟩
  normalise ground := by
    intro before _ after solid yields
    obtain ⟨normalised, rfl⟩ := yields_normalise_iff.1 yields
    exact ⟨solid, solid.state.normalise ground normalised⟩
  tryEqualTerm leftGround rightGround := solidly_attempt fun _ solid =>
    ConvM.still_equalTerm solid.state.bodies leftGround rightGround
  tryLeqSort leftGround rightGround := solidly_attempt fun _ solid =>
    ConvM.still_leqSort solid.state.bodies leftGround rightGround
  inferVariable index := by
    refine .get_bind fun checker solid => .lift_bind fun found isFound => ?_
    cases found with
    | none => exact .halt _
    | some ty =>
      exact .pure (Context.ground_typeOf? solid.context (checked_eq_ok_iff.1 isFound)).term
  inferConstant _ := by
    refine .get_bind fun checker solid => ?_
    split
    · rename_i definition found
      exact .pure (solid.state.definition found).term
    · exact .fail _
  inferPlaceholder ground := absurd ground Phrase.not_ground_placeholder
  resolveVariable text := by
    refine .bind (solidly_enterName text) fun name _ => .get_bind fun checker _ => ?_
    split
    · exact .pure (Phrase.ground_var _)
    · exact .fail _
  resolveConstant text := by
    refine .bind (solidly_enterPath text) fun path _ => .get_bind fun checker _ => ?_
    split
    · exact .pure (Phrase.ground_const _)
    · exact .fail _
  freshSort _ creates := creates.elim
  freshTerm creates := creates.elim

end CheckM
end Families
