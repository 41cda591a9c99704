import Families.Proofs.DatatypeHoles

/-!
# Silence

A module is checked in silence exactly when every declaration is accepted, nothing remains postponed
and no placeholder remains in the normalised terms of the declared types.  The sorts of these types
are not looked at.  Only holes can leave a placeholder there: without holes, silence means that no
placeholder occurs in any declared type at all.
-/

namespace Families

variable {parameters : List String} {answers : List (Option CertifiedDatatype)}
variable {results : List (Diagnosed (Option CertifiedDatatype))} {state : State}
variable {unsolved : List Path}

/-- No hole is written in the declaration. -/
def Declaration.isHoleFree : Declaration → Bool
  | .postulate _ ty => ty.isHoleFree
  | .function _ ty _ body => ty.isHoleFree && body.all Expr.isHoleFree
  | .record _ ty _ => ty.isHoleFree
  | .dataSignature _ ty => ty.isHoleFree
  | .data definition => definition.isHoleFree

namespace CheckM

variable {before after : Checker}

/-! ## Declarations -/

theorem Solidly.speculate {α : Type} {answers : α → Prop} {body : CheckM α}
    (solidly : Solidly body answers) : Solidly (CheckM.speculate body) answers :=
  fun _ _ _ solid yields => solidly solid (yields_speculate_iff.1 yields)

theorem solidly_declare {name : String} {ty : Expr} {kind : Kind} (holeFree : ty.isHoleFree = true)
    (kindGround : kind.isGround = true) : Solidly (declare name ty kind) fun _ => True := by
  refine .bind (solidly_enterPath name) fun path _ => .speculate ?_
  exact .bind (lawful_grounded.elaborateType (.inr holeFree)) fun ty tyGround =>
    .register tyGround kindGround

theorem solidly_checkFunction {name : String} {ty : Expr} {body : Option Expr}
    (tyHoleFree : ty.isHoleFree = true) (bodyHoleFree : body.all Expr.isHoleFree = true) :
    Solidly (checkFunction name ty parameters body) fun _ => True := by
  refine .bind (solidly_enterPath name) fun path _ => .speculate ?_
  refine .bind (lawful_grounded.elaborateType (.inr tyHoleFree)) fun ty tyGround => ?_
  cases body with
  | none => exact .register tyGround rfl
  | some body =>
    have checked : Solidly (restoreScope (checkBody ty parameters body)) Phrase.Ground :=
      lawful_grounded.restoreScope (lawful_grounded.checkBody tyGround (.inr bodyHoleFree))
    refine .bind checked fun term termGround => ?_
    exact .register tyGround (by simpa [Kind.isGround, Phrase.ground_iff] using termGround)

/-- A declaration without holes leaves no placeholder in what is declared, unless it postpones a
comparison. -/
theorem solid_of_checkDeclaration {declaration : Declaration} {answer : Option CertifiedDatatype}
    (solid : before.Solid) (holeFree : declaration.isHoleFree = true)
    (yields : Yields (checkDeclaration declaration) before answer after)
    (settled : after.state.constraints = []) : after.Solid := by
  have sameContext := ((built_checkDeclaration declaration).declaring.follows yields).context
  suffices stateSolid : after.state.Solid by
    refine ⟨stateSolid, ?_⟩
    rw [sameContext]
    exact solid.context
  have declared : ∀ {computation : CheckM Unit}, Solidly computation (fun _ => True) →
      Yields (do computation; pure none) before answer after → after.state.Solid := by
    intro computation solidly yields
    obtain ⟨_, middle, isDeclared, rest⟩ := yields_bind_iff.1 yields
    obtain ⟨_, rfl⟩ := yields_pure_iff.1 rest
    exact (solidly solid isDeclared).1.state
  cases declaration with
  | postulate name ty | dataSignature name ty | record name ty =>
    exact declared (solidly_declare holeFree rfl) yields
  | function name ty parameters body =>
    simp only [Declaration.isHoleFree, Bool.and_eq_true] at holeFree
    exact declared (solidly_checkFunction holeFree.1 holeFree.2) yields
  | data definition =>
    obtain ⟨certified, middle, isChecked, rest⟩ := yields_bind_iff.1 yields
    obtain ⟨_, rfl⟩ := yields_pure_iff.1 rest
    exact solid_of_checkData solid holeFree isChecked settled

/-- Accepted declarations without holes leave no placeholder in what is declared, unless they
postpone a comparison. -/
theorem solid_of_mapM {declarations : List Declaration} (keyed : before.state.signature.Keyed)
    (solid : before.Solid) (holeFree : ∀ declaration ∈ declarations, declaration.isHoleFree = true)
    (yields : Yields (declarations.mapM checkDeclaration) before answers after)
    (settled : after.state.constraints = []) : after.Solid := by
  induction declarations generalizing before answers with
  | nil =>
    obtain ⟨_, rfl⟩ := yields_pure_iff.1 yields
    exact solid
  | cons declaration declarations ih =>
    simp only [List.mapM_cons, yields_bind_iff, yields_pure_iff] at yields
    obtain ⟨answer, middle, isChecked, rest, _, isRest, rfl, rfl⟩ := yields
    rw [List.forall_mem_cons] at holeFree
    have keyed' := ((continuing_checkDeclaration declaration).follows isChecked keyed).1
    have continues :=
      ((Along.mapM continuing_checkDeclaration declarations).follows isRest keyed').2
    have middleSettled := constraints_eq_nil continues.remembers settled
    have middleSolid := solid_of_checkDeclaration solid holeFree.1 isChecked middleSettled
    exact ih keyed' middleSolid holeFree.2 isRest

end CheckM

/-! ## Reports -/

/-- A filter keeps nothing exactly when its test fails for each element. -/
theorem filterM_eq_nil_iff {α : Type} {test : α → Except Halt Bool} {list kept : List α}
    (filtered : list.filterM test = .ok kept) :
    kept = [] ↔ ∀ element ∈ list, test element = .ok false := by
  have collected : ∀ {list found kept : List α}, list.filterAuxM test found = .ok kept →
      (kept = [] ↔ found = [] ∧ ∀ element ∈ list, test element = .ok false) := by
    intro list
    induction list with
    | nil =>
      intro found kept filtered
      obtain rfl := Except.ok.inj filtered
      simp
    | cons first rest ih =>
      intro found kept filtered
      obtain ⟨answer, tested, filtered⟩ := bind_eq_ok_iff.1 filtered
      rw [ih filtered, List.forall_mem_cons, tested]
      cases answer <;> simp
  obtain ⟨found, isFound, isKept⟩ := bind_eq_ok_iff.1 filtered
  obtain rfl := Except.ok.inj isKept
  simpa using collected isFound

theorem State.solid_initial : State.initial.Solid where
  bodies := by decide
  types := by
    simp only [Phrase.ground_iff]
    decide
  constraints := rfl

theorem Checker.solid_initial (options : Options) (forcing : Forcing) (fuel : Nat) :
    (Checker.initial options forcing fuel).Solid where
  state := State.solid_initial
  context := by simp [Telescope.Ground, initial]

namespace CheckM

variable {before after : Checker} {declarations : List Declaration}

/-- Nothing is reported of accepted declarations. -/
theorem yields_mapM_diagnoseDeclaration
    (yields : Yields (declarations.mapM checkDeclaration) before answers after) :
    Yields (declarations.mapM diagnoseDeclaration) before (answers.map .ok) after := by
  induction declarations generalizing before answers with
  | nil => simpa using yields
  | cons declaration declarations ih =>
    simp only [List.mapM_cons, yields_bind_iff, yields_pure_iff] at yields ⊢
    obtain ⟨answer, middle, isChecked, rest, _, isRest, rfl, rfl⟩ := yields
    exact ⟨_, middle, yields_diagnoseDeclaration_ok_iff.2 isChecked, _, _,
      ih isRest, rfl, rfl⟩

/-- Declarations of which nothing is reported are accepted. -/
theorem exists_of_mapM_diagnoseDeclaration
    (yields : Yields (declarations.mapM diagnoseDeclaration) before results after)
    (silent : ∀ diagnosed ∈ results, diagnosed.reports = []) :
    ∃ answers, Yields (declarations.mapM checkDeclaration) before answers after := by
  induction declarations generalizing before results with
  | nil => exact ⟨[], by simpa using (yields_pure_iff.1 yields).2⟩
  | cons declaration declarations ih =>
    simp only [List.mapM_cons, yields_bind_iff, yields_pure_iff] at yields ⊢
    obtain ⟨diagnosed, middle, isDiagnosed, rest, _, isRest, rfl, rfl⟩ := yields
    rw [List.forall_mem_cons] at silent
    have accepted : diagnosed.hasErrors = false := by simp [Diagnosed.hasErrors, silent.1]
    obtain ⟨answer, _, isChecked⟩ := exists_of_diagnoseDeclaration isDiagnosed accepted
    obtain ⟨answers, isAccepted⟩ := ih isRest silent.2
    exact ⟨_, answer, middle, isChecked, answers, _, isAccepted, rfl, rfl⟩

/-- Nothing is reported of declarations exactly when all of them are accepted. -/
theorem reports_eq_nil_iff
    (yields : Yields (declarations.mapM diagnoseDeclaration) before results after) :
    results.flatMap (·.reports) = [] ↔
      ∃ answers, Yields (declarations.mapM checkDeclaration) before answers after := by
  rw [List.flatMap_eq_nil_iff]
  constructor
  · exact exists_of_mapM_diagnoseDeclaration yields
  · rintro ⟨answers, accepted⟩
    obtain ⟨rfl, _⟩ := yields.unique (yields_mapM_diagnoseDeclaration accepted)
    simp [Diagnosed.ok]

theorem constraintWarning_eq_none_iff :
    constraintWarning state = none ↔ state.constraints = [] := by
  simp [constraintWarning]

theorem placeholderWarning_eq_none_iff {names : NameTable} :
    placeholderWarning names unsolved = none ↔ unsolved = [] := by
  simp [placeholderWarning]

/-- The search for placeholders finds none exactly when there is none in the normalised terms of the
declared types. -/
theorem unsolvedDefinitions_eq_nil_iff {fuel : Nat}
    (found : unsolvedDefinitions state fuel = .ok unsolved) :
    unsolved = [] ↔ ∀ definition ∈ state.signature.definitions, ∃ term,
      Families.normalise state fuel definition.ty.term = .ok term ∧
        term.hasPlaceholder = false := by
  obtain ⟨kept, filtered, isUnsolved⟩ := bind_eq_ok_iff.1 found
  obtain rfl := Except.ok.inj isUnsolved
  rw [List.map_eq_nil_iff, filterM_eq_nil_iff filtered]
  simp only [bind_eq_ok_iff, pure_eq_ok_iff]

/-- A module is checked in silence exactly when all declarations are accepted, nothing is postponed
and no placeholder remains in the normalised terms of the declared types.  Where no hole is written,
no placeholder then occurs in a declared type, neither in its term nor in its sort. -/
theorem checkDeclarations_silent_iff
    {options : Options}
    {forcing : Forcing}
    {fuel : Nat}
    {diagnosed : Diagnosed (List CertifiedDatatype)}
    {last : Checker}
    (yields : Yields (checkDeclarations declarations) (Checker.initial options forcing fuel)
      diagnosed last) :
    (diagnosed.reports = [] ↔
      (∃ answers, Yields (declarations.mapM checkDeclaration)
        (Checker.initial options forcing fuel) answers last) ∧
      last.state.constraints = [] ∧
      ∀ definition ∈ last.state.signature.definitions, ∃ term,
        Families.normalise last.state last.fuel definition.ty.term = .ok term ∧
          term.hasPlaceholder = false) ∧
    (diagnosed.reports = [] → (∀ declaration ∈ declarations, declaration.isHoleFree = true) →
      ∀ definition ∈ last.state.signature.definitions,
        definition.ty.hasPlaceholder = false ∧
        ∀ fuel ty, Families.normalise last.state fuel definition.ty = .ok ty →
          ty.hasPlaceholder = false) := by
  simp only [checkDeclarations, yields_bind_iff, yields_get_iff, yields_lift_iff, yields_pure_iff]
    at yields
  obtain ⟨results, _, isDiagnosed, _, _, ⟨rfl, rfl⟩, unsolved, _, ⟨isUnsolved, rfl⟩, rfl, rfl⟩ :=
    yields
  rw [Diagnosed.reports_foldl_report]
  have reported : ((Diagnosed.collect results).map fun values => values.filterMap id).reports =
      results.flatMap (·.reports) := Diagnosed.reports_collect results
  rw [reported, List.append_eq_nil_iff, List.append_eq_nil_iff, reports_eq_nil_iff isDiagnosed,
    Option.toList_eq_nil_iff, Option.toList_eq_nil_iff, constraintWarning_eq_none_iff,
    placeholderWarning_eq_none_iff, unsolvedDefinitions_eq_nil_iff isUnsolved]
  refine ⟨.rfl, ?_⟩
  rintro ⟨⟨answers, accepted⟩, settled, _⟩ holeFree definition declared
  have solid := solid_of_mapM State.keyed_initial (Checker.solid_initial options forcing fuel)
    holeFree accepted settled
  obtain ⟨path, found⟩ := Signature.mem_definitions_iff.1 declared
  have ground : definition.ty.Ground := solid.state.types _ (PathMap.mem_values_of_get? found)
  refine ⟨Phrase.ground_iff.1 ground, fun fuel ty normalised => ?_⟩
  exact Phrase.ground_iff.1 (solid.state.normalise ground normalised)

theorem checkDeclarations_silent_vectors :
    let numbers : DataDefinition :=
      { name := "Nat"
        ty := some (.set 0)
        constructors := [{ name := "zero", ty := .const "Nat" }] }
    let vectors : DataDefinition :=
      { name := "Vec"
        ty := some (.arrow (.set 0) (.arrow (.const "Nat") (.set 0)))
        parameters := [{ name := "A" }]
        constructors := [{
          name := "nil"
          ty := .app (.const "Vec") [(.explicit, .var "A"), (.explicit, .const "zero")] }] }
    let declarations : List Declaration := [.data numbers, .data vectors]
    let outcome := (checkDeclarations declarations).run (Checker.initial {} .patterns 30)
    outcome.result.toOption.map (·.reports) = some [] ∧
      (∀ declaration ∈ declarations, declaration.isHoleFree = true) ∧
      outcome.state.state.constraints = [] ∧
      ∀ definition ∈ outcome.state.state.signature.definitions,
        definition.ty.hasPlaceholder = false := by
  intro numbers vectors declarations outcome
  have silent : outcome.result.toOption.map (·.reports) = some [] := by decide +kernel
  have holeFree : ∀ declaration ∈ declarations, declaration.isHoleFree = true := by decide +kernel
  have settled : ∀ {diagnosed last},
      Yields (checkDeclarations declarations) (Checker.initial {} .patterns 30) diagnosed last →
      diagnosed.reports = [] → last.state.constraints = [] ∧
        ∀ definition ∈ last.state.signature.definitions, definition.ty.hasPlaceholder = false := by
    intro diagnosed last yields silent
    obtain ⟨silent_iff, noPlaceholder⟩ := checkDeclarations_silent_iff yields
    exact ⟨(silent_iff.1 silent).2.1, fun definition declared =>
      (noPlaceholder silent holeFree definition declared).1⟩
  refine ⟨silent, holeFree, ?_⟩
  obtain ⟨diagnosed, isDiagnosed, noReports⟩ := Option.map_eq_some_iff.1 silent
  refine settled ⟨?_, rfl⟩ noReports
  change outcome.result = .ok diagnosed
  cases answered : outcome.result with
  | error failure => simp [answered, Except.toOption] at isDiagnosed
  | ok value => simpa [answered, Except.toOption] using isDiagnosed

/-- A hole may become a level while its sort stays unknown, and nothing is reported. -/
theorem silent_with_unknown_sort :
    let declarations : List Declaration := [.postulate "K" .hole,
      .postulate "F" (.arrow (.const "Level") (.set 0)),
      .postulate "x" (.app (.const "F") [(.explicit, .const "K")])]
    let outcome := (checkDeclarations declarations).run (Checker.initial {} .patterns 30)
    outcome.result = .ok ⟨some [], []⟩ ∧
      ∃ definition ∈ outcome.state.state.signature.definitions,
        Families.normalise outcome.state.state 30 definition.ty =
          .ok (.classified (.sortPlaceholder 3 .noTerms) (.const Path.level)) ∧
        outcome.state.state.solution? 3 = none := by
  decide +kernel

end CheckM
end Families
