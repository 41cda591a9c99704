import Families.Proofs.Operations
import Families.Proofs.Workings

/-!
# Runs from a stricter and a more lenient checker

Two checkers store the same declarations, apart from what was recorded of forced arguments and of
the check of universes, and the more lenient one has postponed no more comparisons.  A computation
that does not read the options runs in step from both: it answers alike, makes the same changes and
postpones the same comparisons.
-/

namespace Families

variable {category : Category}
variable {comparison : ConvM Unit} {first second first' second' : State}

/-! ## Runs in step -/

/-- How two runs may go on side by side. -/
structure Pace (σ : Type) where
  /-- The states that two runs may have reached. -/
  Related : σ → σ → Prop
  /-- The states that they may go on to together. -/
  Together : (first second first' second' : σ) → Prop
  refl : ∀ {first second}, Related first second → Together first second first second
  trans : ∀ {first second first' second' first'' second''}, Together first second first' second' →
    Together first' second' first'' second'' → Together first second first'' second''
  /-- They are still side by side. -/
  related : ∀ {first second first' second'}, Together first second first' second' →
    Related first' second'

/-- From related states the computation ends alike, and the states go on together. -/
def InStep {ε σ α : Type} (pace : Pace σ) (computation : Attempt ε σ α) : Prop :=
  ∀ ⦃first second : σ⦄, pace.Related first second →
    (computation.run second).result = (computation.run first).result ∧
      pace.Together first second (computation.run first).state (computation.run second).state

/-- From these two states the computation ends alike, and the states go on together. -/
def EndsAlike {ε σ α : Type} (pace : Pace σ) (computation : Attempt ε σ α) (first second : σ) :
    Prop :=
  (computation.run second).result = (computation.run first).result ∧
    pace.Together first second (computation.run first).state (computation.run second).state

section Alike

variable {ε σ α β : Type} {pace : Pace σ} {first second : σ}
variable {computation : Attempt ε σ α} {next : α → Attempt ε σ β}

namespace EndsAlike

theorem bind (alike : EndsAlike pace computation first second)
    (continues : ∀ value {first' second'}, pace.Related first' second' →
      EndsAlike pace (next value) first' second') :
    EndsAlike pace (computation >>= next) first second := by
  obtain ⟨sameResult, together⟩ := alike
  cases answered : (computation.run first).result with
  | error failure =>
    rw [EndsAlike, Attempt.run_bind_of_error answered,
      Attempt.run_bind_of_error (sameResult.trans answered)]
    exact ⟨rfl, together⟩
  | ok value =>
    rw [EndsAlike, Attempt.run_bind_of_ok answered,
      Attempt.run_bind_of_ok (sameResult.trans answered)]
    obtain ⟨sameAnswer, further⟩ := continues value (pace.related together)
    exact ⟨sameAnswer, pace.trans together further⟩

/-- Reading what is the same on both sides, and going on. -/
theorem get_bind {next : σ → Attempt ε σ α} (alike : EndsAlike pace (next first) first second)
    (same : next second = next first) : EndsAlike pace (MonadState.get >>= next) first second := by
  rw [EndsAlike, Attempt.run_get_bind, Attempt.run_get_bind, same]
  exact alike

theorem lift_bind {halting : Except Halt α} (related : pace.Related first second)
    (continues : ∀ value, halting = .ok value → EndsAlike pace (next value) first second) :
    EndsAlike pace (monadLift halting >>= next) first second := by
  cases halting with
  | ok value => exact continues value rfl
  | error reason => exact ⟨rfl, pace.refl related⟩

end EndsAlike

namespace InStep

theorem pure (value : α) : InStep pace (Pure.pure value : Attempt ε σ α) :=
  fun _ _ related => ⟨rfl, pace.refl related⟩

theorem fail (error : ε) : InStep pace (Attempt.fail error : Attempt ε σ α) :=
  fun _ _ related => ⟨rfl, pace.refl related⟩

theorem halt (reason : Halt) : InStep pace (Attempt.halt reason : Attempt ε σ α) :=
  fun _ _ related => ⟨rfl, pace.refl related⟩

theorem bind (inStep : InStep pace computation) (nextInStep : ∀ value, InStep pace (next value)) :
    InStep pace (computation >>= next) :=
  fun _ _ related => EndsAlike.bind (inStep related) fun value {_ _} related =>
    nextInStep value related

theorem get_bind {next : σ → Attempt ε σ α} (nextInStep : ∀ state, InStep pace (next state))
    (same : ∀ {first second}, pace.Related first second → next second = next first) :
    InStep pace (MonadState.get >>= next) :=
  fun first _ related => EndsAlike.get_bind (nextInStep first related) (same related)

/-- A change that keeps the states side by side. -/
theorem modifyGet {change : σ → α × σ}
    (sameAnswer : ∀ {first second}, pace.Related first second →
      (change second).1 = (change first).1)
    (together : ∀ {first second}, pace.Related first second →
      pace.Together first second (change first).2 (change second).2) :
    InStep pace (MonadStateOf.modifyGet change : Attempt ε σ α) :=
  fun _ _ related => ⟨congrArg Except.ok (sameAnswer related), together related⟩

end InStep

end Alike

/-! ## Comparisons side by side -/

namespace ConvM

variable {scene : Scene} {pace : Pace State} {first second : State} {fuel depth id : Nat}

/-- Stores a solution. -/
def commit (id : Nat) (solution : Solution) : ConvM Unit := do
  let state ← get
  let solved ← state.solve id solution
  set solved

/-- Solving a placeholder is normalising a value, moving it into scope and storing it. -/
theorem solve_eq (pattern : List Nat) (value : Phrase category)
    (solution : Phrase category → Solution) :
    solve fuel id pattern value solution = (do
      let state ← get
      let value ← normalise state fuel value
      if value.mentions id then
        Attempt.fail (.occursCheck id)
      else
        match invert id pattern value with
        | .error error => Attempt.fail error
        | .ok inverted => commit id (solution inverted)) := by
  apply Attempt.ext
  intro state
  simp only [solve, commit, Attempt.run_get_bind]
  cases normalise state fuel value with
  | error reason => rfl
  | ok normalised =>
    show Attempt.run (if normalised.mentions id then _ else _) state =
      Attempt.run (if normalised.mentions id then _ else _) state
    split
    · rfl
    · cases invert id pattern normalised <;> rfl

/-- Related states reduce fitting phrases alike, and solving and postponing keep them related. -/
structure Scene.Paces (scene : Scene) (pace : Pace State) : Prop where
  good : ∀ {first second}, pace.Related first second → scene.Good first
  placeholders : ∀ {first second}, pace.Related first second →
    second.placeholders = first.placeholders
  reduce : ∀ {first second category fuel} {phrase : Phrase category}, pace.Related first second →
    scene.Fits phrase → reduce second fuel phrase = reduce first fuel phrase
  normalise : ∀ {first second category fuel} {phrase : Phrase category}, pace.Related first second →
    scene.Fits phrase → normalise second fuel phrase = normalise first fuel phrase
  invert : ∀ {category id pattern} {phrase result : Phrase category}, scene.Fits phrase →
    invert id pattern phrase = .ok result → scene.Fits result
  postpone : ∀ {first second} depth comparison, pace.Related first second →
    pace.Together first second (first.postpone depth comparison) (second.postpone depth comparison)
  solve : ∀ {first second after id solution}, pace.Related first second →
    scene.Fits (Solution.phrase solution) → first.solve id solution = .ok after →
    pace.Together first second after { second with placeholders := after.placeholders }

section Paces

variable (lawful : scene.Lawful) (paces : scene.Paces pace) (related : pace.Related first second)
include paces related

theorem alike_commit {solution : Solution} (fits : scene.Fits solution.phrase) :
    EndsAlike pace (commit id solution) first second := by
  have same : second.solve id solution =
      (first.solve id solution).map fun solved =>
        { second with placeholders := solved.placeholders } := by
    simp only [State.solve, paces.placeholders related]
    split <;> rfl
  simp only [EndsAlike, commit, Attempt.run_get_bind, same]
  cases solved : first.solve id solution with
  | error reason => exact InStep.halt reason related
  | ok after => exact ⟨rfl, paces.solve related fits solved⟩

include lawful

theorem alike_solve {value : Phrase category} (solution : Phrase category → Solution)
    (solutionFits : ∀ {value}, scene.Fits value → scene.Fits (solution value).phrase)
    (fits : scene.Fits value) (pattern : List Nat) :
    EndsAlike pace (solve fuel id pattern value solution) first second := by
  rw [solve_eq]
  refine .get_bind (.lift_bind related fun normal reached => ?_)
    (by rw [paces.normalise related fits])
  have normalFits := lawful.normalise (paces.good related) reached fits
  split
  · exact InStep.fail _ related
  · cases inverted : invert id pattern normal with
    | error error => exact InStep.fail error related
    | ok value' =>
      exact alike_commit paces related (solutionFits (paces.invert normalFits inverted))

/-- Comparisons of fitting phrases end alike. -/
theorem Compares.alike (compares : Compares scene comparison first) :
    EndsAlike pace comparison first second := by
  induction compares generalizing second with
  | pure => exact InStep.pure () related
  | fail error => exact InStep.fail error related
  | exhausted => exact InStep.halt .exhausted related
  | postpone => exact ⟨rfl, paces.postpone _ _ related⟩
  | @assignTerm _ fuel depth id arguments value _ _ valueFits =>
    rcases assignTerm_cases fuel depth id arguments value with postponed | ⟨pattern, _, solved⟩
    · rw [postponed]
      exact ⟨rfl, paces.postpone _ _ related⟩
    · rw [solved]
      exact alike_solve lawful paces related .term (fun fits => fits) valueFits pattern
  | @assignSort first fuel depth id arguments value _ _ valueFits _ =>
    have sameBound : isBelowOmega second id = isBelowOmega first id := by
      rw [isBelowOmega, isBelowOmega, paces.placeholders related]
    obtain ⟨chosen, runs, isChosen⟩ := assignSort_cases fuel depth id arguments value first
    rw [EndsAlike, runs rfl, runs sameBound]
    obtain rfl | ⟨_, rfl⟩ | ⟨pattern, _, _, rfl⟩ := isChosen
    · exact ⟨rfl, paces.postpone _ _ related⟩
    · exact InStep.fail _ related
    · exact alike_solve lawful paces related .sort (fun fits => fits) valueFits pattern
  | reduce leftFits rightFits _ ih =>
    refine .get_bind (.lift_bind related fun left' leftReached => ?_) ?_
    · exact .lift_bind related fun right' rightReached =>
        ih left' right' leftReached rightReached related
    · rw [paces.reduce related leftFits, paces.reduce related rightFits]
  | normalise leftFits rightFits _ ih =>
    refine .get_bind (.lift_bind related fun left' leftReached => ?_) ?_
    · exact .lift_bind related fun right' rightReached =>
        ih left' right' leftReached rightReached related
    · rw [paces.normalise related leftFits, paces.normalise related rightFits]
  | bind _ _ ihFirst ihNext =>
    exact (ihFirst related).bind fun _ {_ _} related =>
      ihNext (paces.good related) related

end Paces

end ConvM

/-! ## Stricter and more lenient -/

/-- The options ask for no more. -/
structure Options.Relaxes (strict lenient : Options) : Prop where
  /-- No more has to fit. -/
  withoutK : lenient.withoutK = true → strict.withoutK = true
  /-- No more propositions have to be singletons. -/
  propSingleton : lenient.propSingleton = true → strict.propSingleton = true
  /-- No fewer arguments count as forced. -/
  forcing : strict.forcing = true → lenient.forcing = true

/-- The datatypes are the same, except that the arguments of one need not have been checked. -/
structure Datatype.Relaxes (strict lenient : Datatype) : Prop where
  same : lenient = { strict with universeCheck := lenient.universeCheck }
  universeCheck : lenient.universeCheck = true → strict.universeCheck = true

/-- The constructors are the same, except for their forced arguments, which are the same under
`sameForcing`. -/
structure Constructor.Relaxes (sameForcing : Prop) (strict lenient : Constructor) : Prop where
  same : lenient = { strict with forced := lenient.forced }
  forced : sameForcing → lenient.forced = strict.forced

/-- The declarations stand for the same, up to forced arguments and the check of universes. -/
inductive Kind.Relaxes (sameForcing : Prop) : Kind → Kind → Prop where
  | refl (kind : Kind) : Kind.Relaxes sameForcing kind kind
  | datatype {strict lenient : Datatype} :
      strict.Relaxes lenient → Kind.Relaxes sameForcing (.datatype strict) (.datatype lenient)
  | constructor {strict lenient : Constructor} :
      strict.Relaxes sameForcing lenient →
      Kind.Relaxes sameForcing (.constructor strict) (.constructor lenient)

/-- The entries are the same, up to forced arguments and the check of universes. -/
structure Entry.Relaxes (sameForcing : Prop) (strict lenient : Entry) : Prop where
  path : lenient.definition.path = strict.definition.path
  ty : lenient.definition.ty = strict.definition.ty
  kind : strict.definition.kind.Relaxes sameForcing lenient.definition.kind
  phase : lenient.phase = strict.phase

/-- The states store the same, up to forced arguments and the check of universes, and no more
comparisons are postponed. -/
structure State.Relaxes (sameForcing : Prop) (strict lenient : State) : Prop where
  placeholders : lenient.placeholders = strict.placeholders
  instances : lenient.instances = strict.instances
  entries : ∀ path, Option.Rel (Entry.Relaxes sameForcing) (strict.signature.get? path)
    (lenient.signature.get? path)
  /-- No comparison is postponed that the other has not postponed. -/
  constraints : List.Sublist lenient.constraints strict.constraints

variable {sameForcing : Prop}

theorem Kind.Relaxes.bare {strict lenient : Kind} (relaxes : strict.Relaxes sameForcing lenient) :
    lenient.bare = strict.bare := by
  cases relaxes with
  | refl => rfl
  | datatype relaxes =>
    rw [relaxes.same]
    rfl
  | constructor relaxes =>
    rw [relaxes.same]
    rfl

theorem Entry.Relaxes.refl (entry : Entry) : entry.Relaxes sameForcing entry :=
  ⟨rfl, rfl, .refl _, rfl⟩

theorem Entry.Relaxes.bare {strict lenient : Entry} (relaxes : strict.Relaxes sameForcing lenient) :
    lenient.bare = strict.bare := by
  simp only [Entry.bare, relaxes.path, relaxes.ty, relaxes.kind.bare, relaxes.phase]

namespace State

variable {strict lenient : State}

theorem Relaxes.refl (state : State) : state.Relaxes sameForcing state where
  placeholders := rfl
  instances := rfl
  entries path := by
    cases state.signature.get? path with
    | none => exact .none
    | some entry => exact .some (.refl entry)
  constraints := List.Sublist.refl _

theorem Relaxes.entry_cases (relaxes : strict.Relaxes sameForcing lenient) (path : Path) :
    (strict.signature.get? path = none ∧ lenient.signature.get? path = none) ∨
      ∃ entry entry', strict.signature.get? path = some entry ∧
        lenient.signature.get? path = some entry' ∧ entry.Relaxes sameForcing entry' := by
  have related := relaxes.entries path
  generalize strict.signature.get? path = found at related
  generalize lenient.signature.get? path = found' at related
  cases related with
  | none => exact .inl ⟨rfl, rfl⟩
  | some entries => exact .inr ⟨_, _, rfl, rfl, entries⟩

theorem Relaxes.twin (relaxes : strict.Relaxes sameForcing lenient) :
    strict.Twin lenient where
  placeholders := relaxes.placeholders
  instances := relaxes.instances
  entries path := by
    rcases relaxes.entry_cases path with ⟨isStrict, isLenient⟩ |
      ⟨entry, entry', isStrict, isLenient, entries⟩
    · rw [isStrict, isLenient]
    · rw [isStrict, isLenient, Option.map_some, Option.map_some, entries.bare]

/-- Both states get an entry. -/
theorem Relaxes.withEntry {entry entry' : Entry} (relaxes : strict.Relaxes sameForcing lenient)
    (path : Path) (entries : entry.Relaxes sameForcing entry') :
    Relaxes sameForcing { strict with signature := strict.signature.insert path entry }
      { lenient with signature := lenient.signature.insert path entry' } :=
  { relaxes with
    entries := fun other => by
      simp only [PathMap.get?_insert]
      split
      · exact .some entries
      · exact relaxes.entries other }

/-- The states have gone on together: they are as far apart as before, and the same comparisons were
postponed. -/
structure Together (sameForcing : Prop) (first second first' second' : State) : Prop where
  relaxes : first'.Relaxes sameForcing second'
  /-- The same comparisons were postponed. -/
  constraints : ∃ postponed, first'.constraints = first.constraints ++ postponed ∧
    second'.constraints = second.constraints ++ postponed

/-- A change that postpones nothing. -/
theorem Together.of_constraints_eq (relaxes : first'.Relaxes sameForcing second')
    (isFirst : first'.constraints = first.constraints)
    (isSecond : second'.constraints = second.constraints) :
    Together sameForcing first second first' second' :=
  ⟨relaxes, [], by simp [isFirst], by simp [isSecond]⟩

theorem Together.trans {first'' second'' : State}
    (earlier : Together sameForcing first second first' second')
    (later : Together sameForcing first' second' first'' second'') :
    Together sameForcing first second first'' second'' := by
  obtain ⟨_, postponed, isFirst, isSecond⟩ := earlier
  obtain ⟨relaxes, more, isFirst', isSecond'⟩ := later
  refine ⟨relaxes, postponed ++ more, ?_, ?_⟩
  · rw [isFirst', isFirst, List.append_assoc]
  · rw [isSecond', isSecond, List.append_assoc]

end State

/-! ## Comparisons -/

namespace ConvM

/-- A stricter and a more lenient state side by side. -/
def pace (sameForcing : Prop) : Pace State where
  Related := State.Relaxes sameForcing
  Together := State.Together sameForcing
  refl relaxes := .of_constraints_eq relaxes rfl rfl
  trans := State.Together.trans
  related together := together.relaxes

theorem paces_relaxes {solves : Prop} : (Scene.anything solves).Paces (pace sameForcing) where
  good _ := trivial
  placeholders relaxes := relaxes.placeholders
  reduce relaxes _ := by rw [relaxes.twin.reduce]
  normalise relaxes _ := by rw [relaxes.twin.normalise]
  invert _ _ := trivial
  postpone depth comparison relaxes :=
    ⟨{ relaxes with constraints := relaxes.constraints.append (List.Sublist.refl _) },
      [⟨depth, comparison⟩], rfl, rfl⟩
  solve relaxes _ solved := by
    obtain ⟨_, _, _, rfl⟩ := State.solve_eq_ok_iff.1 solved
    exact .of_constraints_eq { relaxes with placeholders := rfl } rfl rfl

/-- Comparisons run in step. -/
theorem inStep_of_compares (compares : ∀ state, Compares (.anything True) comparison state) :
    InStep (pace sameForcing) comparison :=
  fun first _ relaxes =>
    (compares first).alike (Scene.lawful_anything True) paces_relaxes relaxes

end ConvM

/-! ## The checker -/

namespace Checker

variable {strict lenient : Options}

/-- Under stricter and more lenient options the checkers are the same, up to forced arguments and
the check of universes, and the second has postponed no more. -/
structure Relaxes (strict lenient : Options) (first second : Checker) : Prop where
  names : second.names = first.names
  isStrict : first.options = strict
  isLenient : second.options = lenient
  forcing : second.forcing = first.forcing
  fuel : second.fuel = first.fuel
  context : second.context = first.context
  /-- The states store the same.  Where both look for forced arguments or none does, they have found
  the same. -/
  state : first.state.Relaxes (lenient.forcing = strict.forcing) second.state

/-- The checkers have gone on together. -/
structure Together (strict lenient : Options) (first second first' second' : Checker) : Prop where
  relaxes : Relaxes strict lenient first' second'
  constraints : ∃ postponed, first'.state.constraints = first.state.constraints ++ postponed ∧
    second'.state.constraints = second.state.constraints ++ postponed

variable {first second first' second' first'' second'' : Checker}

theorem Relaxes.twin (relaxes : Relaxes strict lenient first second) : first.Twin second :=
  { relaxes with state := relaxes.state.twin }

theorem Together.trans (earlier : Together strict lenient first second first' second')
    (later : Together strict lenient first' second' first'' second'') :
    Together strict lenient first second first'' second'' where
  relaxes := later.relaxes
  constraints := by
    obtain ⟨postponed, isFirst, isSecond⟩ := earlier.constraints
    obtain ⟨more, isFirst', isSecond'⟩ := later.constraints
    refine ⟨postponed ++ more, ?_, ?_⟩
    · rw [isFirst', isFirst, List.append_assoc]
    · rw [isSecond', isSecond, List.append_assoc]

/-- A change that postpones nothing. -/
theorem Together.of_eq (relaxes : Relaxes strict lenient first' second')
    (isFirst : first'.state.constraints = first.state.constraints)
    (isSecond : second'.state.constraints = second.state.constraints) :
    Together strict lenient first second first' second' :=
  ⟨relaxes, [], by simp [isFirst], by simp [isSecond]⟩

/-- Going back to the states from which both have come. -/
theorem Together.restore (together : Together strict lenient first second first' second')
    (relaxes : Relaxes strict lenient first second) :
    Together strict lenient first second { first' with state := first.state }
      { second' with state := second.state } :=
  .of_eq { together.relaxes with state := relaxes.state } rfl rfl

/-- A change of the states alone. -/
theorem Relaxes.of_state {state state' : State} (relaxes : Relaxes strict lenient first second)
    (states : state.Relaxes (lenient.forcing = strict.forcing) state') :
    Relaxes strict lenient { first with state } { second with state := state' } :=
  { relaxes with state := states }

end Checker

namespace CheckM

open Checker

variable {strict lenient : Options} {α : Type}
variable {body : CheckM α}

/-- A stricter and a more lenient checker side by side. -/
def pace (strict lenient : Options) : Pace Checker where
  Related := Relaxes strict lenient
  Together := Together strict lenient
  refl relaxes := .of_eq relaxes rfl rfl
  trans := Together.trans
  related together := together.relaxes

/-- A change that is the same on both sides and postpones nothing. -/
theorem inStep_modifyGet {change : Checker → α × Checker}
    (sameAnswer : ∀ {first second : Checker}, Relaxes strict lenient first second →
      (change second).1 = (change first).1)
    (relaxes : ∀ {first second : Checker}, Relaxes strict lenient first second →
      Relaxes strict lenient (change first).2 (change second).2)
    (postpones : ∀ checker, (change checker).2.state.constraints = checker.state.constraints) :
    InStep (pace strict lenient) (modifyGet change : CheckM α) :=
  .modifyGet sameAnswer fun related =>
    Together.of_eq (relaxes related) (postpones _) (postpones _)

theorem inStep_enterName (text : String) : InStep (pace strict lenient) (enterName text) := by
  refine inStep_modifyGet (fun relaxes => ?_) (fun relaxes => ?_) fun _ => rfl
  · rw [relaxes.names]
  · exact { relaxes with names := by rw [relaxes.names] }

theorem inStep_enterPath (text : String) : InStep (pace strict lenient) (enterPath text) := by
  refine inStep_modifyGet (fun relaxes => ?_) (fun relaxes => ?_) fun _ => rfl
  · rw [relaxes.names]
  · exact { relaxes with names := by rw [relaxes.names] }

theorem inStep_push (domain : Domain) : InStep (pace strict lenient) (push domain) := by
  refine inStep_modifyGet (fun _ => rfl) (fun relaxes => ?_) fun _ => rfl
  exact { relaxes with context := congrArg (domain :: ·) relaxes.context }

theorem inStep_attempt {comparison : ConvM α}
    (inStep : ∀ sameForcing, InStep (ConvM.pace sameForcing) comparison) :
    InStep (pace strict lenient) (attempt comparison) := by
  intro first second relaxes
  obtain ⟨sameResult, together⟩ := inStep _ relaxes.state
  refine ⟨?_, relaxes.of_state together.relaxes, together.constraints⟩
  simp only [attempt, sameResult]

theorem inStep_comparison (isComparison : IsComparison comparison) :
    InStep (pace strict lenient) (attempt comparison) := by
  refine inStep_attempt fun sameForcing => ?_
  cases isComparison with
  | equalTerm =>
    exact ConvM.inStep_of_compares fun _ =>
      ConvM.compares_equalTerm (ConvM.Scene.lawful_anything _) trivial trivial trivial trivial
  | equalSort =>
    exact ConvM.inStep_of_compares fun _ =>
      ConvM.compares_equalSort (ConvM.Scene.lawful_anything _) trivial trivial trivial trivial
  | leqSort =>
    exact ConvM.inStep_of_compares fun _ =>
      ConvM.compares_leqSort (ConvM.Scene.lawful_anything _) trivial trivial trivial

theorem inStep_tryEqualTerm (left right : Term) :
    InStep (pace strict lenient) (tryEqualTerm left right) :=
  .get_bind (fun _ => inStep_comparison (.equalTerm _ _ left right)) fun relaxes => by
    rw [relaxes.fuel, relaxes.context]

theorem inStep_modifyState {change : State → State}
    (relaxes : ∀ {sameForcing : Prop} {first second : State}, first.Relaxes sameForcing second →
      (change first).Relaxes sameForcing (change second))
    (postpones : ∀ state, (change state).constraints = state.constraints) :
    InStep (pace strict lenient) (modifyState change) :=
  inStep_modifyGet (fun _ => rfl) (fun related => related.of_state (relaxes related.state))
    fun checker => postpones checker.state

theorem inStep_addPlaceholder (scope : Nat) (kind : PlaceholderKind) :
    InStep (pace strict lenient) (modifyState (·.addPlaceholder scope kind)) := by
  refine inStep_modifyState (fun relaxes => ?_) fun _ => rfl
  exact { relaxes with placeholders := by simp only [State.addPlaceholder, relaxes.placeholders] }

theorem inStep_addInstance (datatype constructor : Path) :
    InStep (pace strict lenient) (modifyState (·.addInstance datatype constructor)) := by
  refine inStep_modifyState (fun relaxes => ?_) fun _ => rfl
  exact { relaxes with instances := by simp only [State.addInstance, relaxes.instances] }

/-- A comparison that is taken back when it fails. -/
theorem inStep_compareOr {left right : Term} {error : CheckError} {next : CheckM α}
    (nextInStep : InStep (pace strict lenient) next) :
    InStep (pace strict lenient) (do
      let before ← get
      match ← tryEqualTerm left right with
      | .ok () => next
      | .error _ => do
        modifyState fun _ => before.state
        Attempt.fail error) := by
  intro first second relaxes
  obtain ⟨sameResult, together⟩ := inStep_tryEqualTerm left right relaxes
  rw [Attempt.run_get_bind, Attempt.run_get_bind]
  cases answered : ((tryEqualTerm left right).run first).result with
  | error failure =>
    rw [Attempt.run_bind_of_error answered, Attempt.run_bind_of_error (sameResult.trans answered)]
    exact ⟨rfl, together⟩
  | ok outcome =>
    rw [Attempt.run_bind_of_ok answered, Attempt.run_bind_of_ok (sameResult.trans answered)]
    cases outcome with
    | ok _ =>
      obtain ⟨sameAnswer, further⟩ := nextInStep together.relaxes
      exact ⟨sameAnswer, together.trans further⟩
    | error difference => exact ⟨rfl, together.restore relaxes⟩

theorem inStep_localState (inStep : InStep (pace strict lenient) body) :
    InStep (pace strict lenient) (localState body) := by
  intro first second relaxes
  obtain ⟨sameResult, together⟩ := inStep relaxes
  exact ⟨sameResult, together.restore relaxes⟩

/-- The same comparisons are postponed on both sides, so both see whether there are any. -/
theorem inStep_proves {comparison : CheckM (Except ConversionError Unit)}
    (inStep : InStep (pace strict lenient) comparison) :
    InStep (pace strict lenient) (proves comparison) := by
  refine inStep_localState fun first second relaxes => ?_
  obtain ⟨sameResult, together⟩ := inStep relaxes
  rw [Attempt.run_get_bind, Attempt.run_get_bind]
  cases answered : (comparison.run first).result with
  | error failure =>
    rw [Attempt.run_bind_of_error answered, Attempt.run_bind_of_error (sameResult.trans answered)]
    exact ⟨rfl, together⟩
  | ok outcome =>
    rw [Attempt.run_bind_of_ok answered, Attempt.run_bind_of_ok (sameResult.trans answered)]
    cases outcome with
    | error difference => exact ⟨rfl, together⟩
    | ok _ =>
      obtain ⟨postponed, isFirst, isSecond⟩ := together.constraints
      refine ⟨congrArg Except.ok ?_, together⟩
      simp only [isFirst, isSecond, List.length_append]
      grind

theorem inStep_restoreScope (inStep : InStep (pace strict lenient) body) :
    InStep (pace strict lenient) (restoreScope body) := by
  intro first second relaxes
  obtain ⟨sameResult, together⟩ := inStep relaxes
  refine ⟨sameResult, { together with relaxes := { together.relaxes with context := ?_ } }⟩
  exact congrArg₂ Context.truncate together.relaxes.context (congrArg List.length relaxes.context)

theorem inStep_speculate (inStep : InStep (pace strict lenient) body) :
    InStep (pace strict lenient) (speculate body) := by
  intro first second relaxes
  obtain ⟨sameResult, together⟩ := inStep relaxes
  refine ⟨sameResult, ?_⟩
  have restored := together.restore relaxes
  simp only [speculate, Attempt.settle, sameResult]
  split
  · exact together
  · refine { restored with relaxes := { restored.relaxes with context := ?_ } }
    exact congrArg₂ Context.truncate together.relaxes.context (congrArg List.length relaxes.context)

/-- A change of the signature that both accept or both refuse. -/
theorem inStep_updateSignature {change : Signature → Except SignatureError Signature}
    (alike : ∀ {sameForcing : Prop} {first second : State}, first.Relaxes sameForcing second →
      (∃ error, change first.signature = .error error ∧ change second.signature = .error error) ∨
        ∃ signature signature', change first.signature = .ok signature ∧
          change second.signature = .ok signature' ∧
          State.Relaxes sameForcing { first with signature }
            { second with signature := signature' }) :
    InStep (pace strict lenient) (updateSignature change) := by
  intro first second relaxes
  simp only [updateSignature, Attempt.run_get_bind]
  rcases alike relaxes.state with ⟨error, isFirst, isSecond⟩ |
    ⟨signature, signature', isFirst, isSecond, states⟩
  · rw [isFirst, isSecond]
    exact InStep.fail _ relaxes
  · rw [isFirst, isSecond]
    exact ⟨rfl, .of_eq (relaxes.of_state states) rfl rfl⟩

theorem inStep_register (definition : Definition) :
    InStep (pace strict lenient) (register definition) := by
  refine inStep_updateSignature fun {sameForcing first second} relaxes => ?_
  simp only [Signature.register]
  rcases relaxes.entry_cases definition.path with ⟨isFirst, isSecond⟩ |
    ⟨_, _, isFirst, isSecond, _⟩
  · rw [isFirst, isSecond]
    exact .inr ⟨_, _, rfl, rfl, relaxes.withEntry _ (.refl _)⟩
  · rw [isFirst, isSecond]
    exact .inl ⟨_, rfl, rfl⟩

theorem inStep_registerPending (definition : Definition) :
    InStep (pace strict lenient) (updateSignature (Signature.registerPending · definition)) := by
  refine inStep_updateSignature fun {sameForcing first second} relaxes => ?_
  simp only [Signature.registerPending]
  have registered := relaxes.withEntry definition.path (.refl ⟨definition, .pending⟩)
  rcases relaxes.entry_cases definition.path with ⟨isFirst, isSecond⟩ |
    ⟨⟨⟨_, _, kind⟩, phase⟩, ⟨⟨_, _, kind'⟩, phase'⟩, isFirst, isSecond, _, _, kinds, samePhase⟩
  · rw [isFirst, isSecond]
    exact .inr ⟨_, _, rfl, rfl, registered⟩
  · obtain rfl : phase' = phase := samePhase
    rw [isFirst, isSecond]
    cases kinds with
    | refl =>
      cases kind <;> cases phase' <;>
        first
        | exact .inl ⟨_, rfl, rfl⟩
        | exact .inr ⟨_, _, rfl, rfl, registered⟩
    | datatype | constructor => exact .inl ⟨_, rfl, rfl⟩

theorem inStep_complete (path : Path) (kind : Kind) :
    InStep (pace strict lenient) (updateSignature (Signature.complete · path kind)) := by
  refine inStep_updateSignature fun {sameForcing first second} relaxes => ?_
  simp only [Signature.complete]
  rcases relaxes.entry_cases path with ⟨isFirst, isSecond⟩ |
    ⟨⟨definition, phase⟩, ⟨definition', phase'⟩, isFirst, isSecond, samePath, sameTy, _, samePhase⟩
  · rw [isFirst, isSecond]
    exact .inl ⟨_, rfl, rfl⟩
  · obtain rfl : phase' = phase := samePhase
    rw [isFirst, isSecond]
    cases phase' with
    | complete => exact .inl ⟨_, rfl, rfl⟩
    | pending =>
      exact .inr ⟨_, _, rfl, rfl, relaxes.withEntry path ⟨samePath, sameTy, .refl kind, rfl⟩⟩

/-- Computations that are built from operations and do not depend on the options run in step. -/
theorem Built.inStep {computation : CheckM α} (built : Built ⟨False, True⟩ true computation) :
    InStep (pace strict lenient) computation := by
  generalize true = scope at built
  induction built with
  | pure value => exact .pure value
  | fail error => exact .fail error
  | halt reason => exact .halt reason
  | bind _ _ ihFirst ihNext => exact ihFirst.bind ihNext
  | read _ same ih =>
    exact .get_bind ih fun relaxes => same relaxes.twin False.elim
  | enterName text => exact inStep_enterName text
  | enterPath text => exact inStep_enterPath text
  | push domain => exact inStep_push domain
  | attempt isComparison => exact inStep_comparison isComparison
  | compareOr _ ih => exact inStep_compareOr ih
  | proves _ ih => exact inStep_proves ih
  | addPlaceholder scope kind => exact inStep_addPlaceholder scope kind
  | addInstance datatype constructor => exact inStep_addInstance datatype constructor
  | register definition => exact inStep_register definition
  | registerPending definition => exact inStep_registerPending definition
  | complete path kind => exact inStep_complete path kind
  | restoreScope _ ih => exact inStep_restoreScope ih
  | speculate _ _ ih => exact inStep_speculate ih

end CheckM
end Families
