import Families.Proofs.Completeness
import Families.Proofs.DatatypeStages
import Families.Proofs.Leniency
import Families.Proofs.ModuleScope

/-!
# Stricter options accept less

A module that is accepted under strict options is accepted under more lenient ones, with the same
declarations, placeholders and instances, up to forced arguments and the check of universes.  The
extra checks of the strict run solve nothing: at most they postpone comparisons.  And where only the
lenient run looks for forced arguments it finds them, because the types of constructors are in
normal form there.
-/

namespace Families

variable {term result : Term} {ty : Ty} {path datatype : Path} {definition : DataDefinition}
variable {α : Type} {list : List α} {telescope indices : Telescope} {sameForcing : Prop}
variable {unsolved : List Path} {report : Report}
variable {β : Type} {kind kind' : Kind} {source target : Ty} {forced forced' : List Bool}
variable {state : State}

/-! ## Forced arguments of a normal form -/

section NormalForms

variable {state : State} {fuel : Nat} {category : Category}

/-- The terms of normalised atoms are the normalised terms of the atoms. -/
theorem exists_of_normalise_atoms :
    ∀ {atoms atoms' : Phrase .atoms} {fuel : Nat}, normalise state fuel atoms = .ok atoms' →
      ∀ atom' ∈ atoms'.atomList, ∃ atom ∈ atoms.atomList,
        normalise state fuel atom.term = .ok atom'.term
  | atoms, atoms', 0, normalised => by cases normalised
  | .noAtoms, atoms', fuel + 1, normalised => by
    obtain ⟨reduced, isReduced, rebuilt⟩ := normalise_eq_ok_iff.1 normalised
    obtain rfl := (Inert.stops (by trivial)).reduce_eq isReduced
    cases rebuilt
    simp
  | .atom term offset rest, atoms', fuel + 1, normalised => by
    obtain ⟨reduced, isReduced, rebuilt⟩ := normalise_eq_ok_iff.1 normalised
    obtain rfl := (Inert.stops (by trivial)).reduce_eq isReduced
    cases rebuilt with | atom termNormal restNormal =>
    rw [Phrase.atomList_atom, Phrase.atomList_atom, List.forall_mem_cons]
    refine ⟨⟨_, List.mem_cons_self, normalise_of_le termNormal (Nat.le_succ fuel)⟩, ?_⟩
    intro atom' present
    obtain ⟨atom, atomPresent, done⟩ := exists_of_normalise_atoms restNormal atom' present
    exact ⟨atom, List.mem_cons_of_mem _ atomPresent, normalise_of_le done (Nat.le_succ fuel)⟩

theorem stops_head : ∀ {term : Term}, unfoldHead? state term = .ok none →
    unfoldHead? state term.head = .ok none
  | .app function _ _, stops => @stops_head function (stops_function stops)
  | .var _, stops | .const _, stops | .pi _ _ _ _, stops | .univ _, stops | .level _, stops
  | .placeholder _ _, stops => stops

/-- Whether a term takes a step depends on its head and the number of its arguments. -/
theorem unfoldHead?_of_spine {term' : Term} (stops : unfoldHead? state term = .ok none)
    (heads : normalise state fuel term.head = .ok term'.head)
    (sameLength : term'.arguments.length = term.arguments.length) :
    unfoldHead? state term' = .ok none := by
  obtain ⟨unsolved, fewer⟩ := unfoldHead?_eq_none_iff.1 stops
  obtain ⟨fuel, reduced, isReduced, rebuilt⟩ := exists_of_normalise heads
  have shapes := eq_or_of_stops (stops_head stops) isReduced
  rw [unfoldHead?_eq_none_iff, sameLength]
  constructor
  · intro id arguments isHead
    rw [isHead] at rebuilt
    cases rebuilt
    exact unsolved id _ (by simpa [eq_comm] using shapes)
  · intro path arity body isHead found
    rw [isHead] at rebuilt
    obtain rfl := rebuilt.eq_of_isAtomic (by trivial)
    exact fewer path arity body (by simpa [eq_comm] using shapes) found

/-- Reduction leaves a normal form as it is, and takes no more fuel for it than normalisation. -/
theorem reduce_of_normalise {phrase result : Phrase category}
    (normalised : normalise state (fuel + 1) phrase = .ok result) :
    reduce state fuel result = .ok result := by
  induction fuel generalizing category phrase result with
  | zero =>
    obtain ⟨reduced, isReduced, _⟩ := normalise_eq_ok_iff.1 normalised
    cases isReduced
  | succ fuel ih =>
    obtain ⟨reduced, isReduced, rebuilt⟩ := normalise_eq_ok_iff.1 normalised
    have inert := inert_of_reduce isReduced
    cases rebuilt with
    | univ partNormal | level partNormal | set partNormal =>
      simp only [reduce, ih partNormal]
      rfl
    | @lub constant atoms atoms' atomsNormal =>
      have canonical : Level.Canonical (Level.canonical constant atoms'.atomList) :=
        Level.canonical_canonical _ _
      have terms : ∀ atom ∈ (Level.canonical constant atoms'.atomList).atoms,
          ¬atom.term.IsLevel ∧ reduce state fuel atom.term = .ok atom.term := by
        intro atom present
        have present := Level.mem_terms_canonical.1 (List.mem_map_of_mem present)
        obtain ⟨atom', present', sameTerm⟩ := List.mem_map.1 present
        obtain ⟨source, sourcePresent, normal⟩ :=
          exists_of_normalise_atoms atomsNormal atom' present'
        rw [← sameTerm]
        refine ⟨?_, ih normal⟩
        obtain ⟨reduced, isReduced, rebuilt⟩ := normalise_eq_ok_iff.1 normal
        cases inert with
        | stops stops => exact stops.elim
        | lub _ noLevels inertTerms =>
          obtain rfl := (inertTerms source sourcePresent).reduce_eq isReduced
          exact rebuilt.isLevel_iff.not.2 (noLevels source sourcePresent)
      generalize Level.canonical constant atoms'.atomList = bound at canonical terms
      cases bound with
      | lub constant' atoms'' =>
        exact reduce_lub canonical (fun atom present => (terms atom present).1)
          fun atom present => (terms atom present).2
    | @app _ function' _ argument' info functionNormal argumentNormal =>
      have stops := inert.unfoldHead?_app
      obtain ⟨headNormal, argumentsNormal⟩ :=
        (Rebuilds.app functionNormal argumentNormal).spine stops
      have stops : Stops state (.app function' argument' info) :=
        unfoldHead?_of_spine stops headNormal argumentsNormal.length_eq.symm
      exact reduce_of_stops stops fuel
    | @placeholder id _ arguments' =>
      have stops : Stops state (.placeholder id arguments') := by
        cases inert with
        | stops stops =>
          refine unfoldHead?_eq_none_iff.2 ⟨?_, by simp [Phrase.head]⟩
          simpa [Phrase.head] using (unfoldHead?_eq_none_iff.1 stops).1
      exact reduce_of_stops stops fuel
    | @sortPlaceholder id _ arguments' =>
      have stops : Stops state (.sortPlaceholder id arguments') := by
        cases inert with
        | stops stops => exact stops
      exact reduce_of_stops stops fuel
    | const =>
      cases inert with
      | stops stops => exact reduce_of_stops stops fuel
    | _ => rfl

/-- The arguments of a normal form are normal forms of less depth. -/
theorem exists_of_mem_arguments {argument : ArgInfo × Term}
    (normalised : normalise state (fuel + 1) term = .ok result)
    (present : argument ∈ result.arguments) :
    ∃ source, normalise state fuel source = .ok argument.2 := by
  obtain ⟨reduced, isReduced, rebuilt⟩ := normalise_eq_ok_iff.1 normalised
  cases rebuilt with
  | app functionNormal argumentNormal =>
    have arguments := ((Rebuilds.app functionNormal argumentNormal).spine
      (inert_of_reduce isReduced).unfoldHead?_app).2
    obtain ⟨position, rfl⟩ := List.mem_iff_get.1 present
    exact ⟨_, arguments.get (position.isLt.trans_eq arguments.length_eq.symm) position.isLt⟩
  | _ => cases present

theorem exists_bind_eq_ok {first : Except Halt α} {next : α → Except Halt β}
    (firstSucceeds : ∃ value, first = .ok value)
    (nextSucceeds : ∀ value, first = .ok value → ∃ result, next value = .ok result) :
    ∃ result, first >>= next = .ok result := by
  obtain ⟨value, found⟩ := firstSucceeds
  obtain ⟨result, done⟩ := nextSucceeds value found
  exact ⟨result, bind_eq_ok_iff.2 ⟨value, found, done⟩⟩

/-- The computation succeeds for a list if it does for each element. -/
theorem exists_mapM_eq_ok {action : α → Except Halt β}
    (each : ∀ element ∈ list, ∃ value, action element = .ok value) :
    ∃ values, list.mapM action = .ok values := by
  induction list with
  | nil => exact ⟨[], rfl⟩
  | cons first rest ih =>
    rw [List.forall_mem_cons] at each
    obtain ⟨value, found⟩ := each.1
    obtain ⟨values, restFound⟩ := ih each.2
    exact ⟨value :: values, by rw [List.mapM_cons, found, restFound]; rfl⟩

/-- The variables that a normal form determines are found. -/
theorem exists_determinedVariables (normalised : normalise state fuel term = .ok result) :
    ∃ determined, determinedVariables state fuel result = .ok determined := by
  induction fuel generalizing term result with
  | zero => cases normalised
  | succ fuel ih =>
    have reduced := reduce_of_normalise normalised
    have parts : ∀ argument ∈ result.arguments,
        ∃ determined, determinedVariables state fuel argument.2 = .ok determined := by
      intro argument present
      obtain ⟨source, normal⟩ := exists_of_mem_arguments normalised present
      exact ih normal
    refine exists_bind_eq_ok ⟨result, reduced⟩ fun found isFound => ?_
    obtain rfl := Except.ok.inj (reduced.symm.trans isFound)
    split
    · exact ⟨_, rfl⟩
    · split
      · split
        · exact ⟨_, rfl⟩
        · refine exists_bind_eq_ok (exists_mapM_eq_ok ?_) fun _ _ => ⟨_, rfl⟩
          intro argument present
          exact parts argument (List.mem_of_mem_drop (List.mem_of_mem_filter present))
      · exact ⟨_, rfl⟩

/-- What stands at the end of a type in normal form is a normal form. -/
theorem exists_of_telescopeView {depth : Nat} (normalised : normalise state fuel source = .ok ty)
    (viewed : telescopeView state depth ty = .ok (telescope, target)) :
    ∃ term, normalise state fuel term = .ok target.term := by
  induction depth generalizing source ty telescope with
  | zero => cases viewed
  | succ depth ih =>
    have termNormal := normalise_term normalised
    obtain ⟨fuel, rfl⟩ : ∃ less, fuel = less + 1 := by
      cases fuel with
      | zero => cases normalised
      | succ fuel => exact ⟨fuel, rfl⟩
    have inert := inert_of_reduce (reduce_of_normalise termNormal)
    simp only [telescopeView, bind_eq_ok_iff] at viewed
    obtain ⟨reduced, isReduced, viewed⟩ := viewed
    obtain rfl := inert.reduce_eq isReduced
    split at viewed
    · rename_i name info domain codomain isPi
      obtain ⟨⟨rest, tail⟩, restViewed, isView⟩ := bind_eq_ok_iff.1 viewed
      obtain ⟨rfl, rfl⟩ := Prod.mk.inj (Except.ok.inj isView)
      obtain ⟨_, _, rebuilt⟩ := normalise_eq_ok_iff.1 (isPi ▸ termNormal)
      cases rebuilt with | pi _ codomainNormal =>
      exact ih (normalise_of_le codomainNormal (Nat.le_succ fuel)) restViewed
    · obtain ⟨rfl, rfl⟩ := Prod.mk.inj (Except.ok.inj viewed)
      exact ⟨_, termNormal⟩

/-- Forced arguments are found in a type in normal form whose telescope is. -/
theorem exists_forcedArguments (normalised : normalise state fuel source = .ok ty)
    (viewed : telescopeView state fuel ty = .ok (telescope, target)) (forcing : Forcing)
    (parameters : Nat) :
    ∃ forced, forcedArguments state fuel forcing ty parameters = .ok forced := by
  refine exists_bind_eq_ok ⟨_, viewed⟩ fun view isView => ?_
  obtain rfl := Except.ok.inj (viewed.symm.trans isView)
  cases forcing with
  | everything => exact ⟨_, rfl⟩
  | patterns =>
    obtain ⟨term, targetNormal⟩ := exists_of_telescopeView normalised viewed
    obtain ⟨fuel, rfl⟩ : ∃ less, fuel = less + 1 := by
      cases fuel with
      | zero => cases normalised
      | succ fuel => exact ⟨fuel, rfl⟩
    refine exists_bind_eq_ok (exists_mapM_eq_ok ?_) fun _ _ => ⟨_, rfl⟩
    intro index present
    obtain ⟨source, normal⟩ :=
      exists_of_mem_arguments targetNormal (List.mem_of_mem_drop present)
    exact exists_determinedVariables (normalise_of_le normal (Nat.le_succ fuel))

end NormalForms

/-! ## Checks of a stricter run alone -/

namespace Checker

variable {strict lenient : Options} {first second : Checker} {state : State}

/-- A comparison that only the stricter run postpones. -/
theorem Relaxes.of_waits (relaxes : Relaxes strict lenient first second)
    (waits : first.state.Waits state) : Relaxes strict lenient { first with state } second := by
  obtain ⟨postponed, rfl⟩ := waits
  refine { relaxes with state := { relaxes.state with constraints := ?_ } }
  exact relaxes.state.constraints.trans (List.sublist_append_left _ _)

end Checker

namespace CheckM

open Checker

section Extra

variable {before after : Checker} {answer : Unit}

theorem waits_of_leqLifted {bound : Universe} {binders : Nat} {wrap : ConversionError → CheckError}
    (yields : Yields (leqLifted sort bound binders wrap) before answer after) :
    ∃ state, before.state.Waits state ∧ { before with state } = after := by
  obtain ⟨_, _, compared⟩ := yields_leqLifted_iff.1 yields
  exact waits_of_tryLeqSort compared

theorem waits_of_checkIndicesBelow {bound : Universe} {position : Nat}
    (yields : Yields (checkIndicesBelow datatype bound position indices) before answer after) :
    ∃ state bound, before.state.Waits state ∧
      { before with state, context := bound ++ before.context } = after := by
  induction indices generalizing before position with
  | nil =>
    obtain ⟨_, rfl⟩ := yields_pure_iff.1 yields
    exact ⟨before.state, [], .refl _, rfl⟩
  | cons index indices ih =>
    simp only [checkIndicesBelow_cons, yields_bind_iff, yields_push_iff] at yields
    obtain ⟨_, middle, compared, _, _, rfl, yields⟩ := yields
    obtain ⟨state, waits, rfl⟩ := waits_of_leqLifted compared
    obtain ⟨state', bound, waits', rfl⟩ := ih yields
    exact ⟨state', bound ++ [index], waits.trans waits', by simp⟩

/-- The check of the indices solves nothing. -/
theorem waits_of_checkIndexSorts {sort : Universe}
    (yields : Yields (checkIndexSorts datatype indices sort) before answer after) :
    ∃ state, before.state.Waits state ∧ { before with state } = after := by
  simp only [checkIndexSorts, yields_bind_iff, yields_reduce_iff] at yields
  obtain ⟨_, _, ⟨_, rfl⟩, yields⟩ := yields
  obtain ⟨_, checked, rfl⟩ := yields_restoreScope_iff.1 yields
  obtain ⟨state, bound, waits, rfl⟩ := waits_of_checkIndicesBelow checked
  exact ⟨state, waits, by simp only [Context.truncate_append]⟩

end Extra

/-! ## Computations that a more lenient checker follows -/

variable {strict lenient : Options} {first second : Checker} {α β γ δ : Type}

/-- Where the first computation answers from a stricter checker, the second answers accordingly from
a more lenient one. -/
def Admits (strict lenient : Options) (answers : α → β → Prop) (computation : CheckM α)
    (computation' : CheckM β) (first second : Checker) : Prop :=
  ∀ ⦃value : α⦄ ⦃first' : Checker⦄, Yields computation first value first' →
    ∃ value' second', Yields computation' second value' second' ∧ answers value value' ∧
      Relaxes strict lenient first' second'

namespace Admits

variable {answers : α → β → Prop} {computation : CheckM α} {computation' : CheckM β}

theorem pure {value : α} {value' : β} (answer : answers value value')
    (relaxes : Relaxes strict lenient first second) :
    Admits strict lenient answers (Pure.pure value) (Pure.pure value') first second := by
  intro _ _ yields
  obtain ⟨rfl, rfl⟩ := yields_pure_iff.1 yields
  exact ⟨value', second, yields_pure_iff.2 ⟨rfl, rfl⟩, answer, relaxes⟩

/-- A computation that does not depend on the options. -/
theorem of_inStep (inStep : InStep (pace strict lenient) computation)
    (relaxes : Relaxes strict lenient first second) :
    Admits strict lenient Eq computation computation first second := by
  rintro value _ ⟨answered, rfl⟩
  obtain ⟨sameResult, together⟩ := inStep relaxes
  exact ⟨value, _, ⟨sameResult.trans answered, rfl⟩, rfl, together.relaxes⟩

theorem bind {answers' : γ → δ → Prop} {next : α → CheckM γ} {next' : β → CheckM δ}
    (admits : Admits strict lenient answers computation computation' first second)
    (continues : ∀ {value value' first' second'}, Yields computation first value first' →
      answers value value' → Relaxes strict lenient first' second' →
      Admits strict lenient answers' (next value) (next' value') first' second') :
    Admits strict lenient answers' (computation >>= next)
      (computation' >>= next') first second := by
  intro result last yields
  obtain ⟨value, first', yields, further⟩ := yields_bind_iff.1 yields
  obtain ⟨value', second', yields', answer, relaxes⟩ := admits yields
  obtain ⟨result', last', further', answer', relaxes'⟩ := continues yields answer relaxes further
  exact ⟨result', last', yields_bind_iff.2 ⟨value', second', yields', further'⟩, answer', relaxes'⟩

/-- Both start with the same computation, which does not depend on the options. -/
theorem built_bind {answers : γ → δ → Prop} {next : α → CheckM γ} {next' : α → CheckM δ}
    (built : Built ⟨False, True⟩ true computation) (relaxes : Relaxes strict lenient first second)
    (continues : ∀ {value first' second'}, Yields computation first value first' →
      Relaxes strict lenient first' second' →
      Admits strict lenient answers (next value) (next' value) first' second') :
    Admits strict lenient answers (computation >>= next) (computation >>= next') first second :=
  (of_inStep built.inStep relaxes).bind fun yields same relaxes => same ▸ continues yields relaxes

theorem get_bind {next : Checker → CheckM α} {next' : Checker → CheckM β}
    (admits : Admits strict lenient answers (next first) (next' second) first second) :
    Admits strict lenient answers (get >>= next) (get >>= next') first second := by
  intro value last yields
  simp only [yields_bind_iff, yields_get_iff] at yields ⊢
  obtain ⟨_, _, ⟨rfl, rfl⟩, yields⟩ := yields
  obtain ⟨value', last', yields', rest⟩ := admits yields
  exact ⟨value', last', ⟨second, second, ⟨rfl, rfl⟩, yields'⟩, rest⟩

/-- The stricter run does something more. -/
theorem extra_bind {extra : CheckM γ} {next : γ → CheckM α}
    (continues : ∀ {value first'}, Yields extra first value first' →
      Admits strict lenient answers (next value) computation' first' second) :
    Admits strict lenient answers (extra >>= next) computation' first second := by
  intro result last yields
  obtain ⟨value, first', yields, further⟩ := yields_bind_iff.1 yields
  exact continues yields further

/-- The stricter run fails. -/
theorem fail {error : CheckError} :
    Admits strict lenient answers (Attempt.fail error) computation' first second :=
  fun _ _ yields => absurd yields not_yields_fail

theorem halt {reason : Halt} :
    Admits strict lenient answers (Attempt.halt reason) computation' first second :=
  fun _ _ yields => absurd yields not_yields_halt

theorem restoreScope (admits : Admits strict lenient answers computation computation' first second)
    (relaxes : Relaxes strict lenient first second) :
    Admits strict lenient answers (CheckM.restoreScope computation)
      (CheckM.restoreScope computation')
      first second := by
  intro value last yields
  obtain ⟨first', inner, rfl⟩ := yields_restoreScope_iff.1 yields
  obtain ⟨value', second', yields', answer, relaxes'⟩ := admits inner
  refine ⟨value', _, yields_restoreScope_iff.2 ⟨second', yields', rfl⟩, answer,
    { relaxes' with context := ?_ }⟩
  exact congrArg₂ Context.truncate relaxes'.context (congrArg List.length relaxes.context)

theorem speculate (admits : Admits strict lenient answers computation computation' first second) :
    Admits strict lenient answers (CheckM.speculate computation) (CheckM.speculate computation')
      first second := by
  intro value last yields
  obtain ⟨value', last', yields', rest⟩ := admits (yields_speculate_iff.1 yields)
  exact ⟨value', last', yields_speculate_iff.2 yields', rest⟩

/-- The more lenient run makes a check only if the stricter one does. -/
theorem checkIf {more less : Prop} [Decidable more] [Decidable less] {check : CheckM Unit}
    (implied : less → more) (built : Built ⟨False, True⟩ true check)
    (waits : ∀ {answer first'}, Yields check first answer first' →
      ∃ state, first.state.Waits state ∧ { first with state } = first')
    (relaxes : Relaxes strict lenient first second) :
    Admits strict lenient Eq (checkIf more check) (checkIf less check) first second := by
  by_cases checks : less
  · rw [CheckM.checkIf, if_pos (implied checks), CheckM.checkIf, if_pos checks]
    exact of_inStep built.inStep relaxes
  · rintro value _ yields
    refine ⟨value, second, yields_checkIf_iff.2 (.inr ⟨checks, rfl⟩), rfl, ?_⟩
    rcases yields_checkIf_iff.1 yields with ⟨_, yields⟩ | ⟨_, rfl⟩
    · obtain ⟨state, waits, rfl⟩ := waits yields
      exact relaxes.of_waits waits
    · exact relaxes

end Admits

/-! ## Constructors -/

variable {head : DataHead} {universeCheck : Bool}

theorem checkTarget_universeCheck (head : DataHead) (universeCheck : Bool) (constructor : Path)
    (ty : Ty) :
    checkTarget { head with universeCheck } constructor ty = checkTarget head constructor ty := by
  have walk : ∀ (fuel walked : Nat) (current : Term),
      walkToTarget { head with universeCheck } constructor fuel walked current =
        walkToTarget head constructor fuel walked current := by
    intro fuel
    induction fuel with
    | zero => exact fun _ _ => rfl
    | succ fuel ih =>
      intro walked current
      simp only [walkToTarget, ih]
      rfl
  simp only [checkTarget, walk]

/-- More arguments count as forced. -/
def MoreForced (forced forced' : List Bool) : Prop :=
  ∀ position : Nat, forced[position]? = some true → forced'[position]? = some true

/-- The arguments that the more lenient run checks are among those that the stricter one checks. -/
theorem admits_checkArguments (relaxed : strict.Relaxes lenient)
    (asks : universeCheck = true → head.universeCheck = true) (more : MoreForced forced forced')
    (constructor : Path) (fuel position : Nat) (current : Term)
    (relaxes : Relaxes strict lenient first second) :
    Admits strict lenient Eq (checkArguments head constructor forced fuel position current)
      (checkArguments { head with universeCheck } constructor forced' fuel position current)
      first second := by
  induction fuel generalizing position current first second with
  | zero => exact .halt
  | succ fuel ih =>
    rw [checkArguments_succ, checkArguments_succ]
    refine .built_bind (built_reduce current) relaxes fun {reduced first second} _ relaxes => ?_
    cases reduced with
    | pi name info domain codomain =>
      refine .get_bind (.built_bind (built_reduce domain.sort) relaxes ?_)
      intro sort first' second' _ relaxes'
      rw [relaxes.isStrict, relaxes.isLenient]
      have implied : universeCheck = true ∧
          (lenient.withoutK = true ∨ ¬forced'[position]? = some true) ∧ sort ≠ .sizeUniv →
          head.universeCheck = true ∧
          (strict.withoutK = true ∨ ¬forced[position]? = some true) ∧ sort ≠ .sizeUniv :=
        fun less => ⟨asks less.1, less.2.1.imp relaxed.withoutK (mt (more position)), less.2.2⟩
      refine (Admits.checkIf implied (built_leqLifted _ _ _ _) waits_of_leqLifted relaxes').bind ?_
      intro _ _ _ _ _ _ relaxes
      exact .built_bind (.push _) relaxes fun _ relaxes => ih (position + 1) codomain.term relaxes
    | _ => exact .pure rfl relaxes

/-- The constructor fits for the more lenient run if it does for the stricter one. -/
theorem admits_checkFits (relaxed : strict.Relaxes lenient)
    (asks : universeCheck = true → head.universeCheck = true) (more : MoreForced forced forced')
    (constructor : Path) (ty : Ty) (relaxes : Relaxes strict lenient first second) :
    Admits strict lenient Eq (checkFits head constructor forced ty)
      (checkFits { head with universeCheck } constructor forced' ty) first second := by
  rw [checkFits_eq, checkFits_eq]
  refine .get_bind ?_
  rw [relaxes.isStrict, relaxes.isLenient, relaxes.fuel]
  have implied : universeCheck = true ∧ lenient.withoutK = true →
      head.universeCheck = true ∧ strict.withoutK = true := And.imp asks relaxed.withoutK
  refine (Admits.checkIf implied (built_leqSortOr _ _ _)
    (fun compared => waits_of_tryLeqSort (yields_leqSortOr_iff.1 compared)) relaxes).bind ?_
  intro _ _ _ _ _ _ relaxes
  exact .restoreScope (admits_checkArguments relaxed asks more constructor _ 0 _ relaxes) relaxes

/-- The more lenient run finds the forced arguments that the stricter one finds, and it finds some
where only it looks for them. -/
theorem admits_findForced {written : Ty} (relaxed : strict.Relaxes lenient)
    (relaxes : Relaxes strict lenient first second)
    (normalised : Families.normalise first.state first.fuel written = .ok ty) :
    Admits strict lenient
      (fun forced forced' => MoreForced forced forced' ∧
        (lenient.forcing = strict.forcing → forced' = forced))
      (findForced head ty) (findForced { head with universeCheck } ty) first second := by
  have twin := relaxes.twin
  refine .get_bind ?_
  simp only [relaxes.isStrict, relaxes.isLenient]
  by_cases looks : strict.forcing = true
  · rw [if_pos looks, if_pos (relaxed.forcing looks), relaxes.fuel, relaxes.forcing,
      twin.state.forcedArguments]
    intro forced after yields
    obtain ⟨found, rfl⟩ := yields_lift_iff.1 yields
    exact ⟨forced, second, yields_lift_iff.2 ⟨found, rfl⟩, ⟨fun _ => id, fun _ => rfl⟩, relaxes⟩
  · rw [if_neg looks]
    intro forced after yields
    simp only [yields_bind_iff, yields_telescopeView_iff, yields_pure_iff] at yields
    obtain ⟨⟨telescope, target⟩, _, ⟨viewed, rfl⟩, rfl, rfl⟩ := yields
    have noneForced : ∀ forced', MoreForced (telescope.map fun _ => false) forced' := by
      intro forced' position isForced
      have present := List.mem_of_getElem? isForced
      simp at present
    by_cases looks' : lenient.forcing = true
    · obtain ⟨forced', found⟩ := exists_forcedArguments normalised viewed first.forcing
        head.parameters.length
      refine ⟨forced', second, ?_, ⟨noneForced forced', fun same => ?_⟩, relaxes⟩
      · rw [if_pos looks', relaxes.fuel, relaxes.forcing, twin.state.forcedArguments]
        exact yields_lift_iff.2 ⟨found, rfl⟩
      · exact absurd (same.symm.trans looks') looks
    · refine ⟨_, second, ?_, ⟨noneForced _, fun _ => rfl⟩, relaxes⟩
      rw [if_neg looks']
      simp only [yields_bind_iff, yields_telescopeView_iff, yields_pure_iff, relaxes.fuel,
        twin.state.telescopeView]
      exact ⟨_, _, ⟨viewed, rfl⟩, rfl, rfl⟩

section

variable
  (kinds : kind.Relaxes (lenient.forcing = strict.forcing) kind')
  (relaxes : Relaxes strict lenient first second)

include kinds relaxes

/-- Both runs enter a declaration, up to forced arguments and the check of universes. -/
theorem admits_register :
    Admits strict lenient Eq (register ⟨path, ty, kind⟩) (register ⟨path, ty, kind'⟩)
      first second := by
  intro _ after yields
  obtain ⟨free, rfl⟩ := yields_register_iff.1 yields
  rcases relaxes.state.entry_cases path with ⟨_, isFree⟩ | ⟨_, _, found, _⟩
  · refine ⟨(), _, yields_register_iff.2 ⟨isFree, rfl⟩, rfl, ?_⟩
    exact relaxes.of_state (relaxes.state.withEntry path ⟨rfl, rfl, kinds, rfl⟩)
  · cases free.symm.trans found

theorem admits_registerPending :
    Admits strict lenient Eq (updateSignature (Signature.registerPending · ⟨path, ty, kind⟩))
      (updateSignature (Signature.registerPending · ⟨path, ty, kind'⟩)) first second := by
  intro _ after yields
  obtain ⟨declared, rfl⟩ := yields_registerPending_iff.1 yields
  refine ⟨(), _, yields_registerPending_iff.2 ⟨fun entry' found' => ?_, rfl⟩, rfl, ?_⟩
  · rcases relaxes.state.entry_cases path with ⟨_, isFree⟩ |
      ⟨entry, ⟨⟨_, _, kind''⟩, phase⟩, found, found'', related⟩
    · cases isFree.symm.trans found'
    · obtain rfl := Option.some.inj (found''.symm.trans found')
      obtain ⟨isSignature, isComplete⟩ := declared entry found
      have kinds : entry.definition.kind.Relaxes _ kind'' := related.kind
      rw [isSignature] at kinds
      cases kinds with
      | refl => exact ⟨rfl, related.phase.trans isComplete⟩
  · exact relaxes.of_state (relaxes.state.withEntry path ⟨rfl, rfl, kinds, rfl⟩)

theorem admits_complete :
    Admits strict lenient Eq (updateSignature (Signature.complete · path kind))
      (updateSignature (Signature.complete · path kind')) first second := by
  intro _ after yields
  obtain ⟨definition, found, rfl⟩ := yields_complete_iff.1 yields
  rcases relaxes.state.entry_cases path with
    ⟨missing, _⟩ | ⟨entry, entry', found', isSecond, related⟩
  · cases missing.symm.trans found
  · obtain rfl := Option.some.inj (found'.symm.trans found)
    obtain ⟨definition', phase'⟩ := entry'
    obtain rfl : phase' = .pending := related.phase
    refine ⟨(), _, yields_complete_iff.2 ⟨definition', isSecond, rfl⟩, rfl, ?_⟩
    exact relaxes.of_state (relaxes.state.withEntry path ⟨related.path, related.ty, kinds, rfl⟩)

end

/-- What is found out of a constructor is the same, up to its forced arguments. -/
structure ConstructorRelaxes (sameForcing : Prop)
    (strict lenient : Path × Constructor × List Nat) : Prop where
  path : lenient.1 = strict.1
  constructor : strict.2.1.Relaxes sameForcing lenient.2.1
  nonLinear : lenient.2.2 = strict.2.2

theorem admits_checkConstructor (relaxed : strict.Relaxes lenient)
    (asks : universeCheck = true → head.universeCheck = true) (declaration : ConstructorDeclaration)
    (relaxes : Relaxes strict lenient first second) :
    Admits strict lenient (ConstructorRelaxes (lenient.forcing = strict.forcing))
      (checkConstructor head declaration)
      (checkConstructor { head with universeCheck } declaration) first second := by
  refine .built_bind (.enterPath _) relaxes fun {path _ _} _ relaxes => ?_
  split
  · refine .built_bind (built_elaborateType _) relaxes fun {written _ _} _ relaxes => ?_
    rw [checkTarget_universeCheck head universeCheck]
    refine .built_bind (.restoreScope (built_checkTarget _ _ _)) relaxes
      fun {nonLinear _ _} _ relaxes => ?_
    refine .built_bind (built_normalise _) relaxes fun {ty _ _} yields relaxes => ?_
    obtain ⟨normalised, rfl⟩ := yields_normalise_iff.1 yields
    refine (admits_findForced relaxed relaxes normalised).bind ?_
    rintro forced forced' _ _ _ ⟨more, sameForced⟩ relaxes
    refine (admits_checkFits relaxed asks more path ty relaxes).bind ?_
    rintro arity _ _ _ _ rfl relaxes
    have constructors : Constructor.Relaxes (lenient.forcing = strict.forcing)
        ⟨head.path, head.parameters.length, arity, .ind, forced⟩
        ⟨head.path, head.parameters.length, arity, .ind, forced'⟩ := ⟨rfl, sameForced⟩
    refine (admits_register (.constructor constructors) relaxes).bind ?_
    rintro _ _ _ _ _ _ relaxes
    have answered : ∀ {first second}, Relaxes strict lenient first second →
        Admits strict lenient (ConstructorRelaxes (lenient.forcing = strict.forcing))
          (pure (path, ⟨head.path, head.parameters.length, arity, .ind, forced⟩, nonLinear))
          (pure (path, ⟨head.path, head.parameters.length, arity, .ind, forced'⟩, nonLinear))
          first second :=
      fun relaxes => .pure ⟨rfl, constructors, rfl⟩ relaxes
    split
    · exact .built_bind (.addInstance _ _ trivial) relaxes fun _ relaxes => answered relaxes
    · exact answered relaxes
  · exact .fail

theorem admits_checkConstructors (relaxed : strict.Relaxes lenient)
    (asks : universeCheck = true → head.universeCheck = true)
    (declarations : List ConstructorDeclaration) (relaxes : Relaxes strict lenient first second) :
    Admits strict lenient
      (List.Forall₂ (ConstructorRelaxes (lenient.forcing = strict.forcing)))
      (checkConstructors head declarations)
      (checkConstructors { head with universeCheck } declarations) first second := by
  induction declarations generalizing first second with
  | nil => exact .pure .nil relaxes
  | cons declaration declarations ih =>
    refine (admits_checkConstructor relaxed asks declaration relaxes).bind ?_
    intro answer answer' _ _ _ related relaxes
    refine (ih relaxes).bind ?_
    intro answers answers' _ _ _ relateds relaxes
    exact .pure (.cons related relateds) relaxes

/-! ## Datatypes -/

/-- Fewer propositions have to be singletons. -/
theorem admits_checkSingleton (relaxed : strict.Relaxes lenient) (path : Path) (sort : Universe)
    (constructors : Nat) (relaxes : Relaxes strict lenient first second) :
    Admits strict lenient Eq (checkSingleton path sort constructors)
      (checkSingleton path sort constructors) first second := by
  refine .get_bind ?_
  simp only [relaxes.isStrict, relaxes.isLenient]
  by_cases less : lenient.propSingleton = true
  · rw [if_pos less, if_pos (relaxed.propSingleton less)]
    refine .built_bind (built_reduce sort) relaxes fun _ relaxes => ?_
    split
    · exact .fail
    · exact .pure rfl relaxes
  · rw [if_neg less]
    split
    · refine .extra_bind fun reduces => ?_
      obtain ⟨_, rfl⟩ := yields_reduce_iff.1 reduces
      split
      · exact .fail
      · exact .pure rfl relaxes
    · exact .pure rfl relaxes

end CheckM

/-- The datatypes that were certified are the same, up to forced arguments and the check of
universes. -/
structure CertifiedDatatype.Relaxes (sameForcing : Prop) (strict lenient : CertifiedDatatype) :
    Prop where
  path : lenient.path = strict.path
  datatype : strict.datatype.Relaxes lenient.datatype
  constructors : List.Forall₂ (fun constructor constructor' => constructor'.1 = constructor.1 ∧
    Constructor.Relaxes sameForcing constructor.2 constructor'.2) strict.constructors
    lenient.constructors

namespace CheckM

open Checker

theorem eq_of_constructorRelaxes {answers answers' : List (Path × Constructor × List Nat)}
    (related : List.Forall₂ (ConstructorRelaxes sameForcing) answers answers') :
    (answers'.map fun (path, _, _) => path) = (answers.map fun (path, _, _) => path) ∧
      (answers'.flatMap fun (_, _, positions) => positions) =
        answers.flatMap fun (_, _, positions) => positions := by
  induction related with
  | nil => exact ⟨rfl, rfl⟩
  | cons first _ ih =>
    simp only [List.map_cons, List.flatMap_cons, first.path, first.nonLinear,
      ih.1, ih.2, and_self]

theorem admits_checkInSort (relaxed : strict.Relaxes lenient)
    (asks : universeCheck = true → definition.universeCheck = true) (signature : Definition)
    (parameters : Telescope) (indices : Nat) (sort : Universe)
    (relaxes : Relaxes strict lenient first second) :
    Admits strict lenient (CertifiedDatatype.Relaxes (lenient.forcing = strict.forcing))
      (checkInSort definition signature parameters indices sort)
      (checkInSort { definition with universeCheck } signature parameters indices sort)
      first second := by
  refine .built_bind (built_smallParameters _ _) relaxes fun _ relaxes => ?_
  refine (admits_registerPending (.datatype ⟨rfl, asks⟩) relaxes).bind ?_
  rintro _ _ _ _ _ _ relaxes
  refine (admits_checkConstructors relaxed asks _ relaxes).bind ?_
  rintro constructors constructors' _ _ _ related relaxes
  refine (admits_checkSingleton relaxed _ _ _ relaxes).bind ?_
  rintro _ _ _ _ _ _ relaxes
  refine .built_bind (built_normalise _) relaxes fun {sort _ _} _ relaxes => ?_
  obtain ⟨samePaths, sameNonLinear⟩ := eq_of_constructorRelaxes related
  simp only [samePaths, sameNonLinear]
  refine (admits_complete (.datatype ⟨rfl, asks⟩) relaxes).bind ?_
  rintro _ _ _ _ _ _ relaxes
  refine .pure ⟨rfl, ⟨rfl, asks⟩, ?_⟩ relaxes
  rw [List.forall₂_map_left_iff, List.forall₂_map_right_iff]
  exact related.imp fun _ _ answers => ⟨answers.path, answers.constructor⟩

theorem admits_checkUnderParameters (relaxed : strict.Relaxes lenient)
    (asks : universeCheck = true → definition.universeCheck = true) (signature : Definition)
    (parameters : Telescope) (tail : Ty) (relaxes : Relaxes strict lenient first second) :
    Admits strict lenient (CertifiedDatatype.Relaxes (lenient.forcing = strict.forcing))
      (checkUnderParameters definition signature parameters tail)
      (checkUnderParameters { definition with universeCheck } signature parameters tail)
      first second := by
  rw [checkUnderParameters_eq, checkUnderParameters_eq]
  refine .get_bind (.built_bind (built_telescopeView tail) relaxes ?_)
  intro view first' second' _ relaxes'
  refine .built_bind (built_resolveSort _ _ _) relaxes' fun {sort _ _} _ relaxes' => ?_
  rw [relaxes.isStrict, relaxes.isLenient]
  have implied : lenient.withoutK = true ∧ universeCheck = true →
      strict.withoutK = true ∧ definition.universeCheck = true := And.imp relaxed.withoutK asks
  refine (Admits.checkIf implied (built_checkIndexSorts _ _ _) waits_of_checkIndexSorts
    relaxes').bind ?_
  intro _ _ _ _ _ _ relaxes
  exact admits_checkInSort relaxed asks _ _ _ _ relaxes

theorem admits_checkData (relaxed : strict.Relaxes lenient)
    (asks : universeCheck = true → definition.universeCheck = true)
    (relaxes : Relaxes strict lenient first second) :
    Admits strict lenient (CertifiedDatatype.Relaxes (lenient.forcing = strict.forcing))
      (checkData definition) (checkData { definition with universeCheck }) first second := by
  rw [checkData_eq, checkData_eq]
  refine .built_bind (.enterPath _) relaxes fun {path _ _} _ relaxes => .speculate ?_
  refine .built_bind (built_declareType definition path) relaxes fun _ relaxes => ?_
  refine .built_bind (built_dataSignature path) relaxes fun _ relaxes => .get_bind ?_
  refine .restoreScope ?_ relaxes
  rw [relaxes.fuel]
  exact .built_bind (built_bindParameters _ _ _) relaxes fun _ relaxes =>
    admits_checkUnderParameters relaxed asks _ _ _ relaxes

end CheckM

/-! ## Modules -/

/-- The declarations are the same, except that the arguments of a datatype's constructors need no
longer fit into its sort. -/
inductive Declaration.Relaxes : Declaration → Declaration → Prop where
  | refl (declaration : Declaration) : Declaration.Relaxes declaration declaration
  | data {definition : DataDefinition} {universeCheck : Bool} :
      (universeCheck = true → definition.universeCheck = true) →
      Declaration.Relaxes (.data definition) (.data { definition with universeCheck })

namespace CheckM

open Checker

variable {before after : Checker} {declaration : Declaration}

theorem admits_checkDeclaration {declaration' : Declaration} (relaxed : strict.Relaxes lenient)
    (declarations : declaration.Relaxes declaration')
    (relaxes : Relaxes strict lenient first second) :
    Admits strict lenient
      (Option.Rel (CertifiedDatatype.Relaxes (lenient.forcing = strict.forcing)))
      (checkDeclaration declaration) (checkDeclaration declaration') first second := by
  have datatype : ∀ {definition : DataDefinition} {universeCheck : Bool},
      (universeCheck = true → definition.universeCheck = true) → Admits strict lenient
        (Option.Rel (CertifiedDatatype.Relaxes (lenient.forcing = strict.forcing)))
        (checkDeclaration (.data definition))
        (checkDeclaration (.data { definition with universeCheck })) first second :=
    fun asks => (admits_checkData relaxed asks relaxes).bind fun _ certified relaxes =>
      .pure (.some certified) relaxes
  cases declarations with
  | data asks => exact datatype asks
  | refl =>
    cases declaration with
    | data definition => exact datatype id
    | postulate name ty | dataSignature name ty | record name ty =>
      exact .built_bind (built_declare _ _ _) relaxes fun _ relaxes => .pure .none relaxes
    | function name ty parameters body =>
      exact .built_bind (built_checkFunction _ _ _ _) relaxes fun _ relaxes =>
        .pure .none relaxes

theorem yields_diagnoseDeclaration_ok_iff {answer : Option CertifiedDatatype} :
    Yields (diagnoseDeclaration declaration) before (.ok answer) after ↔
      Yields (checkDeclaration declaration) before answer after := by
  simp only [Yields, diagnoseDeclaration, Diagnosed.fail, CheckError.report, if_true]
  refine and_congr_left fun _ => ?_
  split
  · rename_i certified succeeded
    simp [succeeded, Diagnosed.ok]
  · rename_i reason halted
    simp [halted]
  · rename_i error failed
    simp [failed, Diagnosed.ok]

/-- Without an error the declaration was accepted. -/
theorem exists_of_diagnoseDeclaration {diagnosed : Diagnosed (Option CertifiedDatatype)}
    (yields : Yields (diagnoseDeclaration declaration) before diagnosed after)
    (accepted : diagnosed.hasErrors = false) :
    ∃ answer, diagnosed = .ok answer ∧
      Yields (checkDeclaration declaration) before answer after := by
  obtain ⟨answered, rfl⟩ := yields
  simp only [diagnoseDeclaration, Diagnosed.fail, CheckError.report, if_true] at answered ⊢
  split at answered
  · rename_i answer succeeded
    exact ⟨answer, (Except.ok.inj answered).symm, succeeded, rfl⟩
  · cases answered
  · obtain rfl := Except.ok.inj answered
    simp [Diagnosed.hasErrors] at accepted

/-- Accepted declarations are accepted by the more lenient run. -/
theorem admits_diagnoseDeclarations {declarations declarations' : List Declaration}
    {results : List (Diagnosed (Option CertifiedDatatype))} (relaxed : strict.Relaxes lenient)
    (relateds : List.Forall₂ Declaration.Relaxes declarations declarations')
    (relaxes : Relaxes strict lenient first second)
    (yields : Yields (declarations.mapM diagnoseDeclaration) first results after)
    (accepted : ∀ diagnosed ∈ results, diagnosed.hasErrors = false) :
    ∃ answers answers' after', results = answers.map .ok ∧
      Yields (declarations'.mapM diagnoseDeclaration) second (answers'.map .ok) after' ∧
      List.Forall₂
        (Option.Rel (CertifiedDatatype.Relaxes (lenient.forcing = strict.forcing))) answers
          answers' ∧
      Relaxes strict lenient after after' := by
  induction relateds generalizing first second results with
  | nil =>
    rw [List.mapM_nil, yields_pure_iff] at yields
    obtain ⟨rfl, rfl⟩ := yields
    exact ⟨[], [], second, rfl, by simp, .nil, relaxes⟩
  | cons related _ ih =>
    simp only [List.mapM_cons, yields_bind_iff, yields_pure_iff] at yields
    obtain ⟨diagnosed, middle, diagnosedYields, rest, _, restYields, rfl, rfl⟩ := yields
    rw [List.forall_mem_cons] at accepted
    obtain ⟨answer, rfl, checked⟩ := exists_of_diagnoseDeclaration diagnosedYields accepted.1
    obtain ⟨answer', middle', checked', answered, relaxes'⟩ :=
      admits_checkDeclaration relaxed related relaxes checked
    obtain ⟨answers, answers', after', rfl, yields', answereds, relaxes''⟩ :=
      ih relaxes' restYields accepted.2
    refine ⟨answer :: answers, answer' :: answers', after', rfl, ?_, .cons answered answereds,
      relaxes''⟩
    simp only [List.mapM_cons, yields_bind_iff, yields_pure_iff, List.map_cons]
    exact ⟨_, middle', yields_diagnoseDeclaration_ok_iff.2 checked', _, after', yields', rfl, rfl⟩

end CheckM

/-! ## Warnings -/

/-- A listed value is the value of a path. -/
theorem PathMap.exists_of_mem_values {map : PathMap α} {value : α} (present : value ∈ map.values) :
    ∃ path, map.get? path = some value := by
  obtain ⟨entries, increasing⟩ := map
  simp only [values, get?] at present ⊢
  induction increasing with
  | nil => cases present
  | @cons first rest smaller _ ih =>
    rw [List.map_cons, List.mem_cons] at present
    rcases present with rfl | later
    · exact ⟨first.1, by simp [find?]⟩
    · obtain ⟨path, found⟩ := ih later
      refine ⟨path, ?_⟩
      have different : path ≠ first.1 := by
        rintro rfl
        rw [find?_eq_none smaller] at found
        cases found
      simpa only [find?, if_neg different] using found

theorem Signature.mem_definitions_iff {signature : Signature} {definition : Definition} :
    definition ∈ signature.definitions ↔
      ∃ path, signature.get? path = some ⟨definition, .complete⟩ := by
  simp only [definitions, List.mem_map, List.mem_filter, beq_iff_eq]
  constructor
  · rintro ⟨⟨_, _⟩, ⟨present, rfl⟩, rfl⟩
    exact PathMap.exists_of_mem_values present
  · rintro ⟨path, found⟩
    exact ⟨_, ⟨PathMap.mem_values_of_get? found, rfl⟩, rfl⟩

/-- A filter succeeds if its test does for each element. -/
theorem exists_filterM_iff {test : α → Except Halt Bool} :
    (∃ kept, list.filterM test = .ok kept) ↔
      ∀ element ∈ list, ∃ answer, test element = .ok answer := by
  have collected : ∀ found : List α, (∃ kept, list.filterAuxM test found = .ok kept) ↔
      ∀ element ∈ list, ∃ answer, test element = .ok answer := by
    induction list with
    | nil => exact fun found => iff_of_true ⟨found, rfl⟩ (by simp)
    | cons first rest ih =>
      intro found
      simp only [List.filterAuxM, bind_eq_ok_iff, List.forall_mem_cons]
      constructor
      · rintro ⟨kept, answer, tested, done⟩
        exact ⟨⟨answer, tested⟩, (ih _).1 ⟨kept, done⟩⟩
      · rintro ⟨⟨answer, tested⟩, others⟩
        obtain ⟨kept, done⟩ := (ih _).2 others
        exact ⟨kept, answer, tested, done⟩
  rw [← collected []]
  simp only [List.filterM, bind_eq_ok_iff]
  constructor
  · rintro ⟨_, kept, done, _⟩
    exact ⟨kept, done⟩
  · rintro ⟨kept, done⟩
    exact ⟨_, kept, done, rfl⟩

namespace CheckM

open Checker

/-- The types that are looked at for placeholders are the same. -/
theorem exists_unsolvedDefinitions {state' : State} {fuel : Nat}
    (relaxes : state.Relaxes sameForcing state')
    (found : unsolvedDefinitions state fuel = .ok unsolved) :
    ∃ unsolved', unsolvedDefinitions state' fuel = .ok unsolved' := by
  obtain ⟨kept, filtered, _⟩ := bind_eq_ok_iff.1 found
  have each := exists_filterM_iff.1 ⟨kept, filtered⟩
  refine exists_bind_eq_ok (exists_filterM_iff.2 fun definition' present => ?_) fun _ _ => ⟨_, rfl⟩
  obtain ⟨path, found'⟩ := Signature.mem_definitions_iff.1 present
  rcases relaxes.entry_cases path with ⟨_, missing⟩ |
    ⟨⟨definition, phase⟩, entry', isStrict, isLenient, entries⟩
  · cases missing.symm.trans found'
  · obtain rfl := Option.some.inj (isLenient.symm.trans found')
    obtain rfl : phase = .complete := entries.phase.symm
    have sameTy : definition'.ty = definition.ty := entries.ty
    rw [sameTy, relaxes.twin.normalise]
    exact each definition (Signature.mem_definitions_iff.2 ⟨path, isStrict⟩)

theorem severity_of_constraintWarning
    (present : report ∈ (constraintWarning state).toList) : report.severity = .warning := by
  simp only [constraintWarning] at present
  split at present
  · cases present
  · obtain rfl := List.mem_singleton.1 present
    rfl

theorem severity_of_placeholderWarning {names : NameTable}
    (present : report ∈ (placeholderWarning names unsolved).toList) :
    report.severity = .warning := by
  simp only [placeholderWarning] at present
  split at present
  · cases present
  · obtain rfl := List.mem_singleton.1 present
    rfl

theorem forall₂_filterMap {related : α → β → Prop} {answers : List (Option α)}
    {answers' : List (Option β)} (relateds : List.Forall₂ (Option.Rel related) answers answers') :
    List.Forall₂ related (answers.filterMap id) (answers'.filterMap id) := by
  induction relateds with
  | nil => exact .nil
  | cons first _ ih =>
    cases first with
    | none => exact ih
    | some first => exact .cons first ih

/-- A module that is accepted under strict options is accepted under more lenient ones, and without
the check of universes for some of its datatypes.  The same names are entered, and the same
datatypes, declarations, placeholders and instances are stored, except for forced arguments, if
these are looked for by the second run only, and for the record of the check of universes.  No
comparison is postponed that the stricter run does not postpone. -/
theorem lenient_accepts_of_strict_accepts
    {checker after : Checker}
    {options : Options}
    {declarations declarations' : List Declaration}
    {diagnosed : Diagnosed (List CertifiedDatatype)}
    (relaxed : checker.options.Relaxes options)
    (relateds : List.Forall₂ Declaration.Relaxes declarations declarations')
    (yields : Yields (checkDeclarations declarations) checker diagnosed after)
    (accepted : diagnosed.hasErrors = false) :
    ∃ diagnosed' after',
      Yields (checkDeclarations declarations') { checker with options } diagnosed' after' ∧
      diagnosed'.hasErrors = false ∧
      Option.Rel
        (List.Forall₂ (CertifiedDatatype.Relaxes (options.forcing = checker.options.forcing)))
        diagnosed.value diagnosed'.value ∧
      Relaxes checker.options options after after' := by
  have start : Relaxes checker.options options checker { checker with options } :=
    ⟨rfl, rfl, rfl, rfl, rfl, rfl, .refl _⟩
  simp only [checkDeclarations, yields_bind_iff, yields_get_iff, yields_lift_iff,
    yields_pure_iff] at yields ⊢
  obtain ⟨results, _, diagnosed, _, _, ⟨rfl, rfl⟩, unsolved, _, ⟨found, rfl⟩, rfl, rfl⟩ := yields
  have acceptedEach : ∀ diagnosed ∈ results, diagnosed.hasErrors = false := by
    intro diagnosed present
    simp only [Diagnosed.hasErrors, List.any_eq_false] at accepted ⊢
    intro report reported
    refine accepted report ?_
    simp only [Diagnosed.reports_foldl_report, Diagnosed.map, Diagnosed.reports_collect,
      List.mem_append, List.mem_flatMap]
    exact .inl ⟨diagnosed, present, reported⟩
  obtain ⟨answers, answers', after', rfl, diagnosed', answereds, relaxes⟩ :=
    admits_diagnoseDeclarations relaxed relateds start diagnosed acceptedEach
  obtain ⟨unsolved', found'⟩ := exists_unsolvedDefinitions relaxes.state found
  rw [← relaxes.fuel] at found'
  refine ⟨_, after', ⟨_, _, diagnosed', _, _, ⟨rfl, rfl⟩, unsolved', _, ⟨found', rfl⟩, rfl, rfl⟩,
    ?_, ?_, relaxes⟩
  · simp only [Diagnosed.hasErrors, List.any_eq_false, Diagnosed.reports_foldl_report,
      Diagnosed.map, Diagnosed.reports_collect, List.mem_append, List.mem_flatMap, List.mem_map]
    rintro report (⟨_, ⟨_, _, rfl⟩, reported⟩ | constraint | placeholder)
    · cases reported
    · simp [severity_of_constraintWarning constraint]
    · simp [severity_of_placeholderWarning placeholder]
  · simp only [Diagnosed.value_foldl_report, Diagnosed.map, Diagnosed.value_collect,
      List.filterMap_map]
    simp only [Option.map_some]
    refine .some ?_
    convert forall₂_filterMap answereds <;> simp [Diagnosed.ok, Function.comp_def]

theorem exists_ok_of_passes {ε : Type} {result : Except ε α} {holds : α → Prop} (test : α → Bool)
    (passes : result.toOption.any test = true)
    (follows : ∀ value, result = .ok value → test value = true → holds value) :
    ∃ value, result = .ok value ∧ holds value := by
  cases result with
  | error error => cases passes
  | ok value => exact ⟨value, rfl, follows value rfl passes⟩

/-- A family over numbers, under all restrictions and then under none and without the check of
universes.  Only the second run finds that the index forces the argument of the constructor. -/
theorem lenient_accepts_of_strict_accepts_family :
    let number : Expr := .const "Nat"
    let naturals : Declaration := .data
      { name := "Nat", ty := some (.set 0), constructors :=
        [{ name := "zero", ty := number }, { name := "suc", ty := .arrow number number }] }
    let family : DataDefinition :=
      { name := "F", ty := some (.arrow number (.set 0)), constructors :=
        [{ name := "c", ty := .pi "n" {} number (.app (.const "F")
          [(.explicit, .app (.const "suc") [(.explicit, .var "n")])]) }] }
    let strict := (checkDeclarations [naturals, .data family]).run
      (Checker.initial ⟨true, true, false⟩ .patterns 30)
    let lenient := (checkDeclarations [naturals, .data { family with universeCheck := false }]).run
      (Checker.initial ⟨false, false, true⟩ .patterns 30)
    strict.state.state.signature.constructor? ⟨6⟩ = some ⟨⟨5⟩, 0, 1, .ind, [false]⟩ ∧
      lenient.state.state.signature.constructor? ⟨6⟩ = some ⟨⟨5⟩, 0, 1, .ind, [true]⟩ ∧
      ∃ diagnosed, strict.result = .ok diagnosed ∧ diagnosed.hasErrors = false ∧
        ∃ diagnosed', lenient.result = .ok diagnosed' ∧ diagnosed'.hasErrors = false ∧
          Relaxes ⟨true, true, false⟩ ⟨false, false, true⟩ strict.state lenient.state := by
  refine ⟨by decide +kernel, by decide +kernel, ?_⟩
  refine exists_ok_of_passes (!·.hasErrors) (by decide +kernel) fun diagnosed checked accepted => ?_
  rw [Bool.not_eq_true'] at accepted
  obtain ⟨diagnosed', _, ⟨answered, rfl⟩, accepted', _, relaxes⟩ :=
    @lenient_accepts_of_strict_accepts _ _ ⟨false, false, true⟩ _ _ _
      ⟨by decide, by decide, by decide⟩
      (.cons (.refl _) (.cons (@Declaration.Relaxes.data _ false (by decide)) .nil))
      ⟨checked, rfl⟩ accepted
  exact ⟨accepted, diagnosed', answered, accepted', relaxes⟩

end CheckM
end Families
