import Families.Proofs.Citations
import Families.Proofs.Leniency
import Families.Proofs.Regimes

/-!
# Runs from a wider checker

A wider checker declares more, under paths that nothing cites.  Comparisons of phrases that cite
known declarations only end alike from both checkers.  Where inference or elaboration answers from
the narrow checker, it gives the same answer from the wide one, and cites known declarations only.
So do the stages of a declaration.
-/

namespace Families

variable {known : Path → Prop} {extra : Path → Option Entry}
variable {category : Category} {term : Term} {solution : Solution} {phrase : Phrase category}
variable {kind : PlaceholderKind} {telescope : Telescope}

/-! ## States -/

namespace State

variable {narrow wide state : State}

theorem CitesOnly.solve {id : Nat} {after : State} (cites : state.CitesOnly known)
    (solutionCites : solution.CitesOnly known) (solved : state.solve id solution = .ok after) :
    after.CitesOnly known := by
  obtain ⟨scope, kind, unsolved, rfl⟩ := solve_eq_ok_iff.1 solved
  -- The placeholder that is solved keeps its type, and only its solution is new.
  refine { cites with placeholders := fun {other _ ty _} found => ?_, solutions := ?_ }
  · rw [List.getElem?_set] at found
    split at found
    · split at found
      · obtain rfl : kind = .term ty := by simp_all
        exact cites.placeholders unsolved
      · cases found
    · exact cites.placeholders found
  · intro other solution' found
    by_cases same : other = id
    · rw [same, solution?_of_solve solved] at found
      exact Option.some.inj found ▸ solutionCites
    · rw [solution?_of_solve_of_ne solved same] at found
      exact cites.solutions found

theorem CitesOnly.addPlaceholder (cites : state.CitesOnly known) (scope : Nat)
    (kindCites : ∀ ty, kind = .term ty → ty.CitesOnly known) :
    (state.addPlaceholder scope kind).CitesOnly known := by
  refine { cites with placeholders := fun {id _ ty _} found => ?_, solutions := ?_ }
  · rw [State.addPlaceholder, List.getElem?_append] at found
    split at found
    · exact cites.placeholders found
    · refine kindCites ty ?_
      rw [List.getElem?_singleton] at found
      split at found
      · simp_all
      · cases found
  · intro id solution found
    have same : state.solution? id = some solution := by
      simp only [State.solution?, State.addPlaceholder, List.getElem?_append] at found ⊢
      grind
    exact cites.solutions same

end State

/-! ## Comparisons -/

namespace ConvM

/-- Phrases that cite known declarations only. -/
def Scene.citing (known : Path → Prop) : Scene :=
  ⟨State.CitesOnly known, fun phrase => phrase.CitesOnly known, True⟩

theorem Scene.lawful_citing : (citing known).Lawful where
  reduce := State.CitesOnly.reduce
  normalise := State.CitesOnly.normalise
  pi cites := ⟨cites.1.term, cites.2.term⟩
  spine := Phrase.citesOnly_iff_arguments.1
  univ cites := cites
  set cites := cites
  ofTerm := Level.citesOnly_ofTerm
  level cites := cites
  placeholder cites isPlaceholder :=
    Level.citesOnly_iff.1 cites _ (Level.mem_terms_of_asPlaceholder? isPlaceholder)

/-- A narrow and a wide state side by side. -/
def widening (known : Path → Prop) (extra : Path → Option Entry) : Pace State where
  Related := State.Widens known extra
  Together _ _ := State.Widens known extra
  refl widens := widens
  trans _ later := later
  related together := together

theorem paces_widening : (Scene.citing known).Paces (widening known extra) where
  good := State.Widens.cites
  placeholders := State.Widens.placeholders
  reduce := State.Widens.reduce
  normalise := State.Widens.normalise
  invert := Phrase.CitesOnly.invert
  postpone _ _ widens :=
    { widens with
      cites := { widens.cites with }
      constraints := by simp only [State.postpone, widens.constraints] }
  solve {_ _ _ _ solution} widens cites solved := by
    have solutionCites : solution.CitesOnly known := by cases solution <;> exact cites
    have afterCites := widens.cites.solve solutionCites solved
    obtain ⟨_, _, _, rfl⟩ := State.solve_eq_ok_iff.1 solved
    exact { widens with cites := afterCites, placeholders := rfl }

end ConvM

/-! ## The checker -/

/-- Whatever is looked up in the checker cites known declarations only. -/
structure Checker.CitesOnly (known : Path → Prop) (checker : Checker) : Prop where
  context : Telescope.CitesOnly known checker.context
  state : checker.state.CitesOnly known

/-- The checkers are the same, except that the state of one is wider. -/
structure Checker.Widens (known : Path → Prop) (extra : Path → Option Entry)
    (narrow wide : Checker) : Prop where
  names : wide.names = narrow.names
  options : wide.options = narrow.options
  forcing : wide.forcing = narrow.forcing
  fuel : wide.fuel = narrow.fuel
  context : wide.context = narrow.context
  scope : Telescope.CitesOnly known narrow.context
  state : narrow.state.Widens known extra wide.state

theorem Checker.Widens.cites {narrow wide : Checker} (widens : narrow.Widens known extra wide) :
    narrow.CitesOnly known :=
  ⟨widens.scope, widens.state.cites⟩

theorem Telescope.CitesOnly.truncate {context : Context} (cites : Telescope.CitesOnly known context)
    (length : Nat) : Telescope.CitesOnly known (context.truncate length) :=
  fun domain present => cites domain (List.mem_of_mem_drop present)

namespace CheckM

open Checker

variable {narrow wide : Checker} {α β : Type}

/-- However the first computation ends from the narrow checker, it leaves one that cites known
declarations only.  Where it answers, the second one gives the same answer from the wide checker. -/
def Mirrors (known : Path → Prop) (extra : Path → Option Entry) (answers : α → Prop)
    (computation computation' : CheckM α) (narrow wide : Checker) : Prop :=
  (computation.run narrow).state.CitesOnly known ∧
    ∀ ⦃value : α⦄, (computation.run narrow).result = .ok value →
      answers value ∧ (computation'.run wide).result = .ok value ∧
        (computation.run narrow).state.Widens known extra (computation'.run wide).state

namespace Mirrors

variable {answers : α → Prop} {computation computation' : CheckM α}

theorem pure {value : α} (widens : narrow.Widens known extra wide) (answer : answers value) :
    Mirrors known extra answers (Pure.pure value) (Pure.pure value) narrow wide := by
  refine ⟨widens.cites, fun _ answered => ?_⟩
  obtain rfl : value = _ := Except.ok.inj answered
  exact ⟨answer, rfl, widens⟩

theorem fail {error : CheckError} (cites : narrow.CitesOnly known) :
    Mirrors known extra answers (Attempt.fail error) computation' narrow wide :=
  ⟨cites, fun _ answered => absurd answered (by simp [Attempt.fail, Attempt.refuse])⟩

theorem halt {reason : Halt} (cites : narrow.CitesOnly known) :
    Mirrors known extra answers (Attempt.halt reason) computation' narrow wide :=
  ⟨cites, fun _ answered => absurd answered (by simp [Attempt.halt, Attempt.refuse])⟩

theorem bind {answers' : β → Prop} {next next' : α → CheckM β}
    (mirrors : Mirrors known extra answers computation computation' narrow wide)
    (continues : ∀ {value narrow' wide'}, answers value → Widens known extra narrow' wide' →
      Mirrors known extra answers' (next value) (next' value) narrow' wide') :
    Mirrors known extra answers' (computation >>= next) (computation' >>= next') narrow wide := by
  cases answered : (computation.run narrow).result with
  | error failure =>
    rw [Mirrors, Attempt.run_bind_of_error answered]
    refine ⟨mirrors.1, fun _ answered' => ?_⟩
    cases answered'
  | ok value =>
    obtain ⟨answer, answered', widens⟩ := mirrors.2 answered
    rw [Mirrors, Attempt.run_bind_of_ok answered, Attempt.run_bind_of_ok answered']
    exact continues answer widens

theorem get_bind {next next' : Checker → CheckM α}
    (mirrors : Mirrors known extra answers (next narrow) (next' wide) narrow wide) :
    Mirrors known extra answers (get >>= next) (get >>= next') narrow wide :=
  mirrors

theorem lift {halting halting' : Except Halt α} (widens : narrow.Widens known extra wide)
    (alike : ∀ value, halting = .ok value → answers value ∧ halting' = .ok value) :
    Mirrors known extra answers (monadLift halting) (monadLift halting') narrow wide := by
  cases halting with
  | error reason => exact halt widens.cites
  | ok value =>
    obtain ⟨answer, same⟩ := alike value rfl
    rw [same]
    exact pure widens answer

/-- A change that keeps one checker the wider. -/
theorem modifyGet {change : Checker → α × Checker}
    (sameAnswer : (change wide).1 = (change narrow).1) (answer : answers (change narrow).1)
    (widens : Widens known extra (change narrow).2 (change wide).2) :
    Mirrors known extra answers (MonadStateOf.modifyGet change : CheckM α)
      (MonadStateOf.modifyGet change) narrow wide := by
  refine ⟨widens.cites, fun value answered => ?_⟩
  obtain rfl : (change narrow).1 = value := Except.ok.inj answered
  exact ⟨answer, congrArg Except.ok sameAnswer, widens⟩

section

variable
  (widens : narrow.Widens known extra wide)
  (mirrors : Mirrors known extra answers computation computation' narrow wide)

include widens mirrors

theorem restoreScope :
    Mirrors known extra answers (CheckM.restoreScope computation)
      (CheckM.restoreScope computation') narrow wide := by
  refine ⟨⟨mirrors.1.context.truncate _, mirrors.1.state⟩, fun value answered => ?_⟩
  obtain ⟨answer, answered', widens'⟩ := mirrors.2 answered
  refine ⟨answer, answered', { widens' with context := ?_, scope := widens'.scope.truncate _ }⟩
  exact congrArg₂ Context.truncate widens'.context (congrArg List.length widens.context)

theorem speculate :
    Mirrors known extra answers (CheckM.speculate computation) (CheckM.speculate computation')
      narrow wide := by
  rw [Mirrors]
  simp only [CheckM.speculate, Attempt.settle]
  cases answered : (computation.run narrow).result with
  | error failure =>
    refine ⟨⟨mirrors.1.context.truncate _, widens.state.cites⟩, fun _ answered' => ?_⟩
    cases answered'
  | ok value =>
    obtain ⟨answer, answered', widens'⟩ := mirrors.2 answered
    refine ⟨mirrors.1, fun other same => ?_⟩
    obtain rfl : value = other := Except.ok.inj same
    rw [answered']
    exact ⟨answer, rfl, widens'⟩

/-- All changes of the states are undone. -/
theorem localState :
    Mirrors known extra answers (CheckM.localState computation) (CheckM.localState computation')
      narrow wide := by
  refine ⟨⟨mirrors.1.context, widens.state.cites⟩, fun value answered => ?_⟩
  obtain ⟨answer, answered', widens'⟩ := mirrors.2 answered
  exact ⟨answer, answered', { widens' with state := widens.state }⟩

end

end Mirrors

/-! ## Reading and comparing -/

theorem mirrors_enterName (text : String) (widens : narrow.Widens known extra wide) :
    Mirrors known extra (fun _ => True) (enterName text) (enterName text) narrow wide := by
  refine .modifyGet ?_ trivial { widens with names := ?_ } <;> rw [widens.names]

theorem mirrors_enterPath (text : String) (widens : narrow.Widens known extra wide) :
    Mirrors known extra (· = (narrow.names.enterPath text).1) (enterPath text) (enterPath text)
      narrow wide := by
  refine .modifyGet ?_ rfl { widens with names := ?_ }
  · rw [widens.names]
  · rw [widens.names]

theorem mirrors_telescopeView {ty : Ty} (widens : narrow.Widens known extra wide)
    (cites : ty.CitesOnly known) :
    Mirrors known extra (fun view => view.1.CitesOnly known ∧ view.2.CitesOnly known)
      (telescopeView ty) (telescopeView ty) narrow wide := by
  refine .get_bind (.lift widens fun view viewed =>
    ⟨widens.state.cites.telescopeView viewed cites, ?_⟩)
  rw [widens.fuel, widens.state.telescopeView cites, viewed]

theorem mirrors_attempt {comparison : ConvM Unit} (widens : narrow.Widens known extra wide)
    (compares : ConvM.Compares (.citing known) comparison narrow.state) :
    Mirrors known extra (fun _ => True) (attempt comparison) (attempt comparison) narrow wide := by
  obtain ⟨sameResult, widens'⟩ :=
    compares.alike ConvM.Scene.lawful_citing ConvM.paces_widening widens.state
  refine ⟨⟨widens.scope, widens'.cites⟩, fun value answered => ⟨trivial, ?_, ?_⟩⟩
  · simpa only [attempt, sameResult] using answered
  · exact { widens with state := widens' }

theorem mirrors_convert {comparison : ConvM Unit} (widens : narrow.Widens known extra wide)
    (compares : ConvM.Compares (.citing known) comparison narrow.state) :
    Mirrors known extra (fun _ => True) (convert comparison) (convert comparison) narrow wide := by
  refine (mirrors_attempt widens compares).bind fun {outcome _ _} _ widens => ?_
  cases outcome with
  | ok value => exact .pure widens trivial
  | error error => exact .fail widens.cites

theorem mirrors_equalSort {left right : Universe} (widens : narrow.Widens known extra wide)
    (leftCites : left.CitesOnly known) (rightCites : right.CitesOnly known) :
    Mirrors known extra (fun _ => True) (equalSort left right) (equalSort left right)
      narrow wide := by
  refine .get_bind ?_
  rw [widens.fuel, widens.context]
  exact mirrors_convert widens (ConvM.compares_equalSort ConvM.Scene.lawful_citing trivial
    widens.state.cites leftCites rightCites)

theorem mirrors_addPlaceholder (scope : Nat) (widens : narrow.Widens known extra wide)
    (cites : ∀ ty, kind = .term ty → ty.CitesOnly known) :
    Mirrors known extra (fun _ => True) (addPlaceholder scope kind) (addPlaceholder scope kind)
      narrow wide := by
  refine .get_bind ?_
  have added : Mirrors known extra (fun _ => True) (modifyState (·.addPlaceholder scope kind))
      (modifyState (·.addPlaceholder scope kind)) narrow wide := by
    refine .modifyGet rfl trivial { widens with
      state := { widens.state with
        cites := widens.state.cites.addPlaceholder scope cites
        placeholders := ?_ } }
    simp only [State.addPlaceholder, widens.state.placeholders]
  rw [widens.state.placeholders]
  exact added.bind fun _ widens => .pure widens trivial

/-- Phrases cite known declarations only, and computations answer alike from a wider checker. -/
@[reducible]
def mirroring (known : Path → Prop) (extra : Path → Option Entry) : Regime where
  Fits phrase := phrase.CitesOnly known
  Creates := True
  Holds computation answers := ∀ ⦃narrow wide : Checker⦄, narrow.Widens known extra wide →
    Mirrors known extra answers computation computation narrow wide

theorem lawful_mirroring (isKnown : known Path.level) : (mirroring known extra).Lawful where
  var _ := trivial
  levels := isKnown
  prop := trivial
  omega := trivial
  sizeUniv := trivial
  number _ := trivial
  app := Iff.rfl
  function := Iff.rfl
  univ := Iff.rfl
  level := Iff.rfl
  set := Iff.rfl
  classified := Iff.rfl
  ofTerm := Level.citesOnly_ofTerm
  join := Level.citesOnly_join
  raise? := Level.citesOnly_raise?
  succ? := Universe.citesOnly_succ?
  pi? := Universe.citesOnly_pi?
  lift? cites lifted := cites.lift? lifted
  strengthen? cites strengthened := cites.strengthen? strengthened
  instantiate? cites argumentCites instantiated := cites.instantiate? argumentCites instantiated
  arguments cites := (Phrase.citesOnly_iff_arguments.1 cites).2
  creates _ := trivial
  createsSort _ := trivial
  pure answer _ _ widens := .pure widens answer
  fail widens := .fail widens.cites
  halt widens := .halt widens.cites
  bind first next _ _ widens := (first widens).bind fun answer widens => next _ answer widens
  get_bind shares holds narrow _ widens := by
    refine .get_bind ?_
    rw [shares ⟨widens.options, widens.fuel, widens.state.constraints⟩]
    exact holds narrow widens
  lift answers _ _ widens := .lift widens fun value succeeded =>
    ⟨answers value succeeded, succeeded⟩
  restoreScope holds _ _ widens := .restoreScope widens (holds widens)
  localState holds _ _ widens := .localState widens (holds widens)
  push {domain} cites _ _ widens := .modifyGet rfl trivial
    { widens with
      context := congrArg (domain :: ·) widens.context
      scope := List.forall_mem_cons.2 ⟨cites, widens.scope⟩ }
  enterName text _ _ widens := mirrors_enterName text widens
  reduce cites _ _ widens := by
    refine .get_bind (.lift widens fun _ reduced => ⟨widens.state.cites.reduce reduced cites, ?_⟩)
    rw [widens.fuel, widens.state.reduce cites, reduced]
  normalise cites _ _ widens := by
    refine .get_bind (.lift widens fun _ normalised =>
      ⟨widens.state.cites.normalise normalised cites, ?_⟩)
    rw [widens.fuel, widens.state.normalise cites, normalised]
  tryEqualTerm leftCites rightCites _ _ widens := by
    refine .get_bind ?_
    rw [widens.fuel, widens.context]
    exact mirrors_attempt widens (ConvM.compares_equalTerm ConvM.Scene.lawful_citing trivial
      widens.state.cites leftCites rightCites)
  tryLeqSort leftCites rightCites _ _ widens := by
    refine .get_bind ?_
    rw [widens.fuel, widens.context]
    exact mirrors_attempt widens (ConvM.compares_leqSort ConvM.Scene.lawful_citing
      widens.state.cites leftCites rightCites)
  inferVariable index narrow wide widens := by
    refine .get_bind ?_
    rw [widens.context]
    have looked : Mirrors known extra (fun ty => ∀ found, ty = some found → found.CitesOnly known)
        (monadLift (checked (narrow.context.typeOf? index)))
        (monadLift (checked (narrow.context.typeOf? index))) narrow wide := by
      refine .lift widens fun value found => ⟨?_, found⟩
      rintro ty rfl
      exact Context.citesOnly_typeOf? widens.scope (checked_eq_ok_iff.1 found)
    refine looked.bind fun {ty _ _} cites widens => ?_
    cases ty with
    | none => exact .halt widens.cites
    | some ty => exact .pure widens (cites ty rfl).term
  inferConstant {path} isKnown narrow _ widens := by
    refine .get_bind ?_
    rw [widens.state.definition? isKnown]
    cases found : narrow.state.signature.definition? path with
    | none => exact .fail widens.cites
    | some definition => exact .pure widens (widens.state.cites.definition? found).2.1.term
  inferPlaceholder cites _ _ widens := by
    refine .get_bind ?_
    rw [widens.state.placeholders]
    split
    · rename_i found
      refine .lift widens fun value substituted => ⟨?_, substituted⟩
      exact (widens.state.cites.placeholders found).substitute?
        (Phrase.citesOnly_iff_toList.1 cites)
        (checked_eq_ok_iff.1 substituted)
    · exact .halt widens.cites
  resolveVariable text _ _ widens := by
    refine (mirrors_enterName text widens).bind fun {name narrow _} _ widens => .get_bind ?_
    rw [widens.context]
    cases narrow.context.lookup? name with
    | none => exact .fail widens.cites
    | some index => exact .pure widens trivial
  resolveConstant text _ _ widens := by
    refine (mirrors_enterPath text widens).bind fun {path narrow _} _ widens => .get_bind ?_
    -- A name that is declared for the narrow checker is known.
    cases found : narrow.state.signature.definition? path with
    | none => exact .fail widens.cites
    | some definition =>
      rw [widens.state.definition?_of_found found]
      exact .pure widens (widens.state.cites.definition? found).1
  freshSort belowOmega _ narrow _ widens := by
    refine .get_bind ?_
    rw [widens.context]
    refine (mirrors_addPlaceholder _ widens fun _ isTerm => ?_).bind fun _ widens => ?_
    · cases isTerm
    · exact .pure widens (Context.citesOnly_identity narrow.context)
  freshTerm _ cites narrow _ widens := by
    refine .get_bind ?_
    rw [widens.context]
    refine (mirrors_addPlaceholder _ widens fun ty' isTerm => ?_).bind fun _ widens => ?_
    · exact PlaceholderKind.term.inj isTerm ▸ cites
    · exact .pure widens (Context.citesOnly_identity narrow.context)

end CheckM

theorem Checker.Widens.lawful {narrow wide : Checker} (widens : narrow.Widens known extra wide) :
    (CheckM.mirroring known extra).Lawful :=
  CheckM.lawful_mirroring widens.state.cites.level

/-! ## Stages of a declaration -/

/-- What the check of constructors knows of their datatype cites known declarations only. -/
structure DataHead.CitesOnly (known : Path → Prop) (head : DataHead) : Prop where
  path : known head.path
  parameters : head.parameters.CitesOnly known
  sort : head.sort.CitesOnly known

namespace CheckM

open Checker

variable {narrow wide : Checker} {head : DataHead} {indices : Telescope} {ty : Ty}

theorem mirrors_resolveSort {core : Ty} (datatype : Path) (widens : narrow.Widens known extra wide)
    (indicesCite : indices.CitesOnly known) (coreCites : core.CitesOnly known) :
    Mirrors known extra (Phrase.CitesOnly known) (resolveSort datatype indices core)
      (resolveSort datatype indices core) narrow wide := by
  have lawful : (mirroring known extra).Lawful := widens.lawful
  refine lawful.bind (lawful.freshSort true trivial) (fun sort sortCites => ?_) widens
  refine lawful.lift_bind fun expected isExpected => ?_
  obtain ⟨above, isAbove, rfl⟩ : ∃ above, Universe.succ? sort = some above ∧
      Phrase.classified above (.univ sort) = expected := by
    simpa [Ty.ofSort?, Option.bind_eq_some_iff] using checked_eq_ok_iff.1 isExpected
  have expectedCites : (Phrase.classified above (.univ sort)).CitesOnly known :=
    ⟨Universe.citesOnly_succ? sortCites isAbove, sortCites⟩
  refine lawful.lift_bind fun lifted isLifted => ?_
  have liftedCites := expectedCites.lift? (checked_eq_ok_iff.1 isLifted)
  refine lawful.bind (lawful.under indicesCite
    (lawful.tryEqualTerm coreCites.term liftedCites.term)) fun outcome _ => ?_
  cases outcome with
  | ok _ => exact lawful.normalise sortCites
  | error error =>
    dsimp only
    split <;> exact lawful.fail

theorem mirrors_applyToFresh {term : Term} (lawful : (mirroring known extra).Lawful) (count : Nat)
    (cites : term.CitesOnly known) :
    (mirroring known extra).Holds (applyToFresh count term) (Phrase.CitesOnly known) := by
  induction count generalizing term with
  | zero => exact lawful.pure cites
  | succ count ih =>
    refine lawful.bind (lawful.infer cites) fun ty typeCites => ?_
    refine lawful.bind (lawful.reduce typeCites) fun reduced reducedCites => ?_
    split
    · refine lawful.bind (lawful.freshTerm trivial reducedCites.1.term) fun _ argumentCites => ?_
      exact ih ⟨cites, argumentCites⟩
    · exact lawful.fail

theorem mirrors_genericTarget (lawful : (mirroring known extra).Lawful) (walked : Nat)
    (headCites : head.CitesOnly known) :
    (mirroring known extra).Holds (genericTarget head walked) (Phrase.CitesOnly known) := by
  refine mirrors_applyToFresh lawful head.indices (Phrase.CitesOnly.applyTo headCites.path ?_)
  intro argument present
  obtain ⟨_, _, rfl⟩ := List.mem_mapIdx.1 present
  trivial

theorem mirrors_walkToTarget {current : Term} (lawful : (mirroring known extra).Lawful)
    (constructor : Path) (fuel walked : Nat) (headCites : head.CitesOnly known)
    (cites : current.CitesOnly known) :
    (mirroring known extra).Holds (walkToTarget head constructor fuel walked current) fun target =>
      target.2.CitesOnly known := by
  induction fuel generalizing walked current with
  | zero => exact lawful.halt
  | succ fuel ih =>
    refine lawful.bind (lawful.reduce cites) fun reduced reducedCites => ?_
    cases reduced with
    | pi name info domain codomain =>
      refine lawful.bind (lawful.push reducedCites.1) fun _ _ => ?_
      exact ih (walked + 1) reducedCites.2.term
    | placeholder id arguments =>
      refine lawful.bind (mirrors_genericTarget lawful walked headCites)
        fun generic genericCites => ?_
      intro narrow wide widens
      refine .get_bind ((lawful.tryEqualTerm reducedCites genericCites widens).bind
        fun {outcome _ _} _ widens' => ?_)
      cases outcome with
      | ok _ => exact ih walked genericCites widens'
      | error error =>
        refine ⟨⟨widens'.scope, widens.state.cites⟩, fun _ answered => ?_⟩
        cases answered
    | _ => exact lawful.pure reducedCites

theorem mirrors_findForced (head : DataHead) (widens : narrow.Widens known extra wide)
    (cites : ty.CitesOnly known) :
    Mirrors known extra (fun _ => True) (findForced head ty) (findForced head ty) narrow wide := by
  refine .get_bind ?_
  rw [widens.options, widens.fuel, widens.forcing, widens.state.forcedArguments cites]
  split
  · exact .lift widens fun _ found => ⟨trivial, found⟩
  · exact (mirrors_telescopeView widens cites).bind fun _ widens => .pure widens trivial

end CheckM

end Families
