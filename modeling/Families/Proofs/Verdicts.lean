import Families.Proofs.Certification
import Families.Proofs.Strictness

/-!
# Verdicts on declarations

The check of a module is a fold over its declarations.  Each gets its verdict from the checker that
the ones before it have left, whether these were accepted or rejected.  Nothing else goes into the
result: its value lists what was certified, and its reports are those of the rejected declarations,
followed by the warnings about the last state.  So a module can be checked in two parts.
-/

namespace Families

/-! ## Verdicts -/

/-- How the check of a declaration ends: with an answer, or with an error and the names in which it
is reported. -/
inductive Verdict where
  | accepted (answer : Option CertifiedDatatype)
  | rejected (error : CheckError) (names : NameTable)

namespace Verdict

/-- The datatype that was certified. -/
def certified? : Verdict → Option CertifiedDatatype
  | accepted answer => answer
  | rejected _ _ => none

/-- The report of a rejected declaration. -/
def report? : Verdict → Option Report
  | accepted _ => none
  | rejected error names => some (error.report names)

/-- The declaration is rejected. -/
def isRejected : Verdict → Bool
  | accepted _ => false
  | rejected _ _ => true

/-- The result that carries the verdict. -/
def diagnosed : Verdict → Diagnosed (Option CertifiedDatatype)
  | accepted answer => .ok answer
  | rejected error names => ⟨none, [error.report names]⟩

theorem value_diagnosed (verdict : Verdict) :
    verdict.diagnosed.value.join = verdict.certified? := by
  cases verdict <;> rfl

theorem reports_diagnosed (verdict : Verdict) :
    verdict.diagnosed.reports = verdict.report?.toList := by
  cases verdict <;> rfl

theorem isRejected_eq_isSome (verdict : Verdict) : verdict.isRejected = verdict.report?.isSome := by
  cases verdict <;> rfl

/-- Only errors are reported of declarations. -/
theorem severity_of_report? {verdict : Verdict} {report : Report}
    (reported : verdict.report? = some report) : report.severity = .error := by
  cases verdict with
  | accepted => cases reported
  | rejected =>
    obtain rfl := Option.some.inj reported
    rfl

end Verdict

namespace Diagnosed

variable {α : Type}

/-- The errors among the reports. -/
def errors (result : Diagnosed α) : List Report :=
  result.reports.filter (·.severity == .error)

theorem hasErrors_iff {result : Diagnosed α} : result.hasErrors = true ↔ result.errors ≠ [] := by
  simp [hasErrors, errors, List.filter_eq_nil_iff]

theorem eq_of_parts {left right : Diagnosed α} (value : left.value = right.value)
    (reports : left.reports = right.reports) : left = right := by
  cases left
  cases right
  congr

/-- Both results in a row.  Only the errors of the first are kept beside the reports of the
second. -/
def followedBy (first second : Diagnosed (List α)) : Diagnosed (List α) :=
  ⟨some (first.value.getD [] ++ second.value.getD []), first.errors ++ second.reports⟩

end Diagnosed

namespace CheckM

variable {declaration : Declaration} {declarations first second : List Declaration}
variable {before middle after : Checker}

/-- The check of the declaration ends with the verdict and leaves the checker. -/
inductive Judges (declaration : Declaration) (before : Checker) : Verdict → Checker → Prop where
  | accepts {answer : Option CertifiedDatatype} {after : Checker} :
      Yields (checkDeclaration declaration) before answer after →
      Judges declaration before (.accepted answer) after
  | rejects {error : CheckError} :
      ((checkDeclaration declaration).run before).result = .error (.error error) →
      Judges declaration before
        (.rejected error ((checkDeclaration declaration).run before).state.names)
        ((checkDeclaration declaration).run before).state

/-- The declarations are checked in order, each from the checker that the one before it left. -/
inductive JudgesAll : List Declaration → Checker → List Verdict → Checker → Prop where
  | nil {checker : Checker} : JudgesAll [] checker [] checker
  | cons {declaration : Declaration} {declarations : List Declaration} {verdict : Verdict}
      {verdicts : List Verdict} {before middle after : Checker} :
      Judges declaration before verdict middle →
      JudgesAll declarations middle verdicts after →
      JudgesAll (declaration :: declarations) before (verdict :: verdicts) after

/-- A datatype is certified exactly for an accepted definition of one. -/
theorem Judges.certified?_isSome {verdict : Verdict}
    (judges : Judges declaration before verdict after) :
    verdict.certified?.isSome = (!verdict.isRejected && declaration.data?.isSome) := by
  cases judges with
  | rejects => rfl
  | accepts yields =>
    cases declaration with
    | _ =>
      simp only [checkDeclaration, yields_bind_iff, yields_pure_iff] at yields
      obtain ⟨_, _, _, rfl, _⟩ := yields
      rfl

/-- There is at most one verdict. -/
theorem Judges.unique {verdict verdict' : Verdict} {after' : Checker}
    (judges : Judges declaration before verdict after)
    (judges' : Judges declaration before verdict' after') :
    verdict = verdict' ∧ after = after' := by
  cases judges with
  | accepts yields =>
    cases judges' with
    | accepts yields' =>
      obtain rfl := Except.ok.inj (yields.1.symm.trans yields'.1)
      exact ⟨rfl, yields.2.symm.trans yields'.2⟩
    | rejects failed => cases yields.1.symm.trans failed
  | rejects failed =>
    cases judges' with
    | accepts yields => cases failed.symm.trans yields.1
    | rejects failed' =>
      obtain ⟨⟩ := Except.error.inj (failed.symm.trans failed')
      exact ⟨rfl, rfl⟩

/-- The result for a declaration carries its verdict. -/
theorem yields_diagnoseDeclaration_iff {diagnosed : Diagnosed (Option CertifiedDatatype)} :
    Yields (diagnoseDeclaration declaration) before diagnosed after ↔
      ∃ verdict, Judges declaration before verdict after ∧ verdict.diagnosed = diagnosed := by
  constructor
  · rintro ⟨answered, rfl⟩
    simp only [diagnoseDeclaration, Diagnosed.fail, CheckError.report, if_true] at answered ⊢
    split at answered
    · rename_i answer succeeded
      exact ⟨.accepted answer, .accepts ⟨succeeded, rfl⟩, Except.ok.inj answered⟩
    · cases answered
    · rename_i error failed
      exact ⟨.rejected error _, .rejects failed, Except.ok.inj answered⟩
  · rintro ⟨verdict, judges, rfl⟩
    cases judges with
    | accepts yields => exact yields_diagnoseDeclaration_ok_iff.2 yields
    | rejects failed =>
      refine ⟨?_, rfl⟩
      simp only [diagnoseDeclaration, failed]
      rfl

/-- The results for declarations carry their verdicts. -/
theorem yields_mapM_diagnoseDeclaration_iff
    {results : List (Diagnosed (Option CertifiedDatatype))} :
    Yields (declarations.mapM diagnoseDeclaration) before results after ↔
      ∃ verdicts, JudgesAll declarations before verdicts after ∧
        verdicts.map Verdict.diagnosed = results := by
  induction declarations generalizing before results after with
  | nil =>
    rw [List.mapM_nil, yields_pure_iff]
    constructor
    · rintro ⟨rfl, rfl⟩
      exact ⟨[], .nil, rfl⟩
    · rintro ⟨_, judges, rfl⟩
      cases judges
      exact ⟨rfl, rfl⟩
  | cons declaration declarations ih =>
    simp only [List.mapM_cons, yields_bind_iff, yields_pure_iff, yields_diagnoseDeclaration_iff,
      ih]
    constructor
    · rintro ⟨_, middle, ⟨verdict, judges, rfl⟩, _, _, ⟨verdicts, judgesRest, rfl⟩, rfl, rfl⟩
      exact ⟨verdict :: verdicts, .cons judges judgesRest, rfl⟩
    · rintro ⟨_, judges, rfl⟩
      cases judges with
      | @cons _ _ verdict verdicts _ middle _ judges judgesRest =>
        exact ⟨_, middle, ⟨verdict, judges, rfl⟩, _, after, ⟨verdicts, judgesRest, rfl⟩, rfl, rfl⟩

/-- Checking declarations in a row is checking the first of them and then the others. -/
theorem judgesAll_append_iff {verdicts : List Verdict} :
    JudgesAll (first ++ second) before verdicts after ↔
      ∃ firsts middle seconds, JudgesAll first before firsts middle ∧
        JudgesAll second middle seconds after ∧ verdicts = firsts ++ seconds := by
  induction first generalizing before verdicts with
  | nil =>
    constructor
    · intro judges
      exact ⟨[], before, verdicts, .nil, judges, rfl⟩
    · rintro ⟨_, _, _, judges, judgesRest, rfl⟩
      cases judges
      exact judgesRest
  | cons declaration declarations ih =>
    constructor
    · intro judges
      cases judges with
      | cons judges judgesRest =>
        obtain ⟨firsts, middle, seconds, judgesFirst, judgesSecond, rfl⟩ :=
          ih.1 judgesRest
        exact ⟨_, middle, seconds, .cons judges judgesFirst, judgesSecond, rfl⟩
    · rintro ⟨_, middle, seconds, judgesFirst, judgesSecond, rfl⟩
      cases judgesFirst with
      | cons judges judgesFirst =>
        exact .cons judges (ih.2 ⟨_, middle, seconds, judgesFirst,
          judgesSecond, rfl⟩)

/-- There is at most one row of verdicts. -/
theorem JudgesAll.unique {verdicts verdicts' : List Verdict} {after' : Checker}
    (judges : JudgesAll declarations before verdicts after)
    (judges' : JudgesAll declarations before verdicts' after') :
    verdicts = verdicts' ∧ after = after' := by
  induction judges generalizing verdicts' with
  | nil =>
    cases judges'
    exact ⟨rfl, rfl⟩
  | cons first _ ih =>
    cases judges' with
    | cons first' rest' =>
      obtain ⟨rfl, rfl⟩ := first.unique first'
      obtain ⟨rfl, rfl⟩ := ih rest'
      exact ⟨rfl, rfl⟩

/-! ## Warnings -/

/-- The warnings about the state that is left. -/
def lastWarnings (checker : Checker) (unsolved : List Path) : List Report :=
  (constraintWarning checker.state).toList ++ (placeholderWarning checker.names unsolved).toList

/-- At most the two warnings, in this order. -/
theorem codes_lastWarnings (checker : Checker) (unsolved : List Path) :
    ((lastWarnings checker unsolved).map (·.code)).Sublist
      [some "unsolved-constraints", some "unsolved-placeholders"] := by
  unfold lastWarnings constraintWarning placeholderWarning
  split <;> split <;> simp

theorem severity_of_mem_lastWarnings {checker : Checker} {unsolved : List Path} {report : Report}
    (warned : report ∈ lastWarnings checker unsolved) : report.severity = .warning := by
  rcases List.mem_append.1 warned with constraint | placeholder
  · exact severity_of_constraintWarning constraint
  · exact severity_of_placeholderWarning placeholder

/-! ## Modules -/

/-- The result for a module whose declarations get the verdicts. -/
def summarise (verdicts : List Verdict) (warnings : List Report) :
    Diagnosed (List CertifiedDatatype) :=
  ⟨some (verdicts.filterMap Verdict.certified?), verdicts.filterMap Verdict.report? ++ warnings⟩

variable {verdicts : List Verdict} {warnings : List Report}

/-- No value, no report and no warning is lost, added or moved. -/
theorem foldl_report_collect (verdicts : List Verdict) (warnings : List Report) :
    warnings.foldl Diagnosed.report
        ((Diagnosed.collect (verdicts.map Verdict.diagnosed)).map fun values =>
          values.filterMap id) =
      summarise verdicts warnings := by
  have values : ((verdicts.map Verdict.diagnosed).filterMap (·.value)).filterMap id =
      verdicts.filterMap Verdict.certified? := by
    rw [List.filterMap_map, List.filterMap_filterMap]
    exact List.filterMap_congr fun verdict _ => verdict.value_diagnosed
  have reports : (verdicts.map Verdict.diagnosed).flatMap (·.reports) =
      verdicts.filterMap Verdict.report? := by
    rw [List.flatMap_map, List.filterMap_eq_flatMap_toList]
    exact List.flatMap_congr fun verdict _ => verdict.reports_diagnosed
  refine Diagnosed.eq_of_parts ?_ ?_
  · rw [Diagnosed.value_foldl_report]
    exact congrArg (Option.map _) (Diagnosed.value_collect _) |>.trans (congrArg some values)
  · rw [Diagnosed.reports_foldl_report]
    exact congrArg (· ++ warnings) ((Diagnosed.reports_collect _).trans reports)

/-- The check of a module returns exactly when every declaration gets its verdict and the search for
placeholders ends. -/
theorem yields_checkDeclarations_iff {diagnosed : Diagnosed (List CertifiedDatatype)} :
    Yields (checkDeclarations declarations) before diagnosed after ↔
      ∃ verdicts unsolved, JudgesAll declarations before verdicts after ∧
        unsolvedDefinitions after.state after.fuel = .ok unsolved ∧
        diagnosed = summarise verdicts (lastWarnings after unsolved) := by
  simp only [checkDeclarations, yields_bind_iff, yields_get_iff, yields_lift_iff, yields_pure_iff,
    yields_mapM_diagnoseDeclaration_iff]
  constructor
  · rintro ⟨_, _, ⟨verdicts, judges, rfl⟩, _, _, ⟨rfl, rfl⟩, unsolved, _, ⟨found, rfl⟩, rfl, rfl⟩
    exact ⟨verdicts, unsolved, judges, found, foldl_report_collect _ _⟩
  · rintro ⟨verdicts, unsolved, judges, found, rfl⟩
    exact ⟨_, after, ⟨verdicts, judges, rfl⟩, after, after, ⟨rfl, rfl⟩, unsolved, after,
      ⟨found, rfl⟩, foldl_report_collect _ _, rfl⟩

/-- Errors are reported of declarations only. -/
theorem errors_summarise (areWarnings : ∀ warning ∈ warnings, warning.severity = .warning) :
    (summarise verdicts warnings).errors = verdicts.filterMap Verdict.report? := by
  have kept : (verdicts.filterMap Verdict.report?).filter (·.severity == .error) =
      verdicts.filterMap Verdict.report? := by
    refine List.filter_eq_self.2 fun report present => ?_
    obtain ⟨verdict, _, reported⟩ := List.mem_filterMap.1 present
    simp [Verdict.severity_of_report? reported]
  have dropped : warnings.filter (·.severity == .error) = [] := by
    refine List.filter_eq_nil_iff.2 fun warning present => ?_
    simp [areWarnings warning present]
  rw [Diagnosed.errors, summarise, List.filter_append, kept, dropped, List.append_nil]

/-- There is an error exactly when a declaration was rejected. -/
theorem hasErrors_summarise_iff (areWarnings : ∀ warning ∈ warnings, warning.severity = .warning) :
    (summarise verdicts warnings).hasErrors = true ↔
      ∃ verdict ∈ verdicts, verdict.isRejected = true := by
  rw [Diagnosed.hasErrors_iff, errors_summarise areWarnings, ne_eq, List.filterMap_eq_nil_iff]
  push Not
  simp only [Verdict.isRejected_eq_isSome, Option.isSome_iff_ne_none]

/-- The verdicts on declarations in a row are summed up one after the other. -/
theorem summarise_append {firsts seconds : List Verdict} {earlier : List Report}
    (areWarnings : ∀ warning ∈ earlier, warning.severity = .warning) :
    summarise (firsts ++ seconds) warnings =
      (summarise firsts earlier).followedBy (summarise seconds warnings) := by
  rw [Diagnosed.followedBy, errors_summarise areWarnings]
  simp [summarise]

/-- After the first declarations the check of all of them is the check of the others. -/
theorem yields_checkDeclarations_append_iff {diagnosed result : Diagnosed (List CertifiedDatatype)}
    (yields : Yields (checkDeclarations first) before diagnosed middle) :
    Yields (checkDeclarations (first ++ second)) before result after ↔
      ∃ later, Yields (checkDeclarations second) middle later after ∧
        result = diagnosed.followedBy later := by
  obtain ⟨firsts, earlier, judgesFirst, _, rfl⟩ := yields_checkDeclarations_iff.1 yields
  simp only [yields_checkDeclarations_iff, judgesAll_append_iff]
  have areWarnings := fun warning =>
    @severity_of_mem_lastWarnings middle earlier warning
  constructor
  · rintro ⟨_, unsolved, ⟨firsts', middle', seconds, judgesFirst', judgesSecond, rfl⟩, found, rfl⟩
    obtain ⟨rfl, rfl⟩ := judgesFirst.unique judgesFirst'
    exact ⟨_, ⟨seconds, unsolved, judgesSecond, found, rfl⟩, summarise_append areWarnings⟩
  · rintro ⟨_, ⟨seconds, unsolved, judgesSecond, found, rfl⟩, rfl⟩
    exact ⟨_, unsolved, ⟨firsts, middle, seconds, judgesFirst, judgesSecond, rfl⟩, found,
      (summarise_append areWarnings).symm⟩

/-- The row of verdicts has one for each declaration, and a datatype is certified exactly for an
accepted definition of one. -/
theorem JudgesAll.forall₂_certified? (judges : JudgesAll declarations before verdicts after) :
    List.Forall₂
      (fun declaration verdict => verdict.certified?.isSome =
        (!verdict.isRejected && declaration.data?.isSome))
      declarations verdicts := by
  induction judges with
  | nil => exact .nil
  | cons judges _ ih => exact .cons judges.certified?_isSome ih

/-- The computation finds no error that it does not handle. -/
def Unfailing {α : Type} (computation : CheckM α) : Prop :=
  ∀ before error, (computation.run before).result ≠ .error (.error error)

theorem Unfailing.bind {α β : Type} {computation : CheckM α} {next : α → CheckM β}
    (unfailing : Unfailing computation) (nextUnfailing : ∀ value, Unfailing (next value)) :
    Unfailing (computation >>= next) := by
  intro before error failed
  cases answered : (computation.run before).result with
  | ok value =>
    rw [Attempt.run_bind_of_ok answered] at failed
    exact nextUnfailing value _ error failed
  | error failure =>
    rw [Attempt.run_bind_of_error answered] at failed
    exact unfailing before error
      (answered.trans (congrArg Except.error (Except.error.inj failed)))

theorem unfailing_pure {α : Type} (value : α) : Unfailing (pure value : CheckM α) := by
  intro before error failed
  cases failed

theorem unfailing_lift {α : Type} (halting : Except Halt α) :
    Unfailing (liftM halting : CheckM α) := by
  intro before error failed
  cases halting <;> cases failed

theorem unfailing_diagnoseDeclaration (declaration : Declaration) :
    Unfailing (diagnoseDeclaration declaration) := by
  intro before error failed
  simp only [diagnoseDeclaration, Diagnosed.fail, CheckError.report, if_true] at failed
  split at failed <;> cases failed

theorem unfailing_mapM_diagnoseDeclaration (declarations : List Declaration) :
    Unfailing (declarations.mapM diagnoseDeclaration) := by
  induction declarations with
  | nil => exact unfailing_pure []
  | cons declaration declarations ih =>
    rw [List.mapM_cons]
    exact (unfailing_diagnoseDeclaration declaration).bind fun _ =>
      ih.bind fun _ => unfailing_pure _

/-- The check of a module returns a result or halts. -/
theorem unfailing_checkDeclarations (declarations : List Declaration) :
    Unfailing (checkDeclarations declarations) := by
  refine (unfailing_mapM_diagnoseDeclaration declarations).bind fun _ => ?_
  refine Unfailing.bind (fun before error failed => by cases failed) fun checker => ?_
  exact (unfailing_lift _).bind fun _ => unfailing_pure _

/-- The check of a module is a fold over its declarations.  It returns exactly when each declaration
gets its verdict in turn and the search for placeholders ends.  Then there is a value, which lists
the datatypes of the accepted definitions in order; the reports are the errors of the rejected
declarations in order, followed by at most the two warnings; and after the first declarations have
been checked, checking all of them is checking the others. -/
theorem checkDeclarations_folds (first second : List Declaration) (before : Checker) :
    (∀ error, ((checkDeclarations (first ++ second)).run before).result ≠ .error (.error error)) ∧
    ((∃ diagnosed after, Yields (checkDeclarations (first ++ second)) before diagnosed after) ↔
      ∃ verdicts after unsolved, JudgesAll (first ++ second) before verdicts after ∧
        unsolvedDefinitions after.state after.fuel = .ok unsolved) ∧
    (∀ diagnosed after, Yields (checkDeclarations (first ++ second)) before diagnosed after →
      ∃ verdicts warnings, JudgesAll (first ++ second) before verdicts after ∧
        List.Forall₂
          (fun declaration verdict => verdict.certified?.isSome =
            (!verdict.isRejected && declaration.data?.isSome)) (first ++ second) verdicts ∧
        diagnosed.value = some (verdicts.filterMap Verdict.certified?) ∧
        diagnosed.reports = verdicts.filterMap Verdict.report? ++ warnings ∧
        diagnosed.errors = verdicts.filterMap Verdict.report? ∧
        (warnings.map (·.code)).Sublist
          [some "unsolved-constraints", some "unsolved-placeholders"] ∧
        (∀ warning ∈ warnings, warning.severity = .warning) ∧
        (diagnosed.hasErrors = true ↔ ∃ verdict ∈ verdicts, verdict.isRejected = true)) ∧
    (∀ verdicts after, JudgesAll (first ++ second) before verdicts after ↔
      ∃ firsts middle seconds, JudgesAll first before firsts middle ∧
        JudgesAll second middle seconds after ∧ verdicts = firsts ++ seconds) ∧
    ∀ diagnosed middle, Yields (checkDeclarations first) before diagnosed middle →
      ∀ result after, Yields (checkDeclarations (first ++ second)) before result after ↔
        ∃ later, Yields (checkDeclarations second) middle later after ∧
          result = diagnosed.followedBy later := by
  refine ⟨unfailing_checkDeclarations _ before, ?_, ?_, fun _ _ => judgesAll_append_iff,
    fun _ _ yields _ _ => yields_checkDeclarations_append_iff yields⟩
  · constructor
    · rintro ⟨_, after, yields⟩
      obtain ⟨verdicts, unsolved, judges, found, _⟩ := yields_checkDeclarations_iff.1 yields
      exact ⟨verdicts, after, unsolved, judges, found⟩
    · rintro ⟨verdicts, after, unsolved, judges, found⟩
      exact ⟨_, after, yields_checkDeclarations_iff.2 ⟨verdicts, unsolved, judges, found, rfl⟩⟩
  · intro diagnosed after yields
    obtain ⟨verdicts, unsolved, judges, _, rfl⟩ := yields_checkDeclarations_iff.1 yields
    have areWarnings := fun warning => @severity_of_mem_lastWarnings after unsolved warning
    exact ⟨verdicts, lastWarnings after unsolved, judges, judges.forall₂_certified?, rfl, rfl,
      errors_summarise areWarnings, codes_lastWarnings after unsolved, areWarnings,
      hasErrors_summarise_iff areWarnings⟩

/-- A module in two parts: a datatype and an unknown name, then a hole and the datatype once
more. -/
theorem checkDeclarations_folds_mixed :
    let naturals : Declaration := .data
      { name := "Nat", ty := some (.set 0),
        constructors := [{ name := "zero", ty := .const "Nat" }] }
    let first : List Declaration := [naturals, .postulate "x" (.const "Missing")]
    let second : List Declaration := [.postulate "K" .hole, naturals]
    let start := Checker.initial {} .patterns 30
    let opened := (checkDeclarations first).run start
    let closed := (checkDeclarations second).run opened.state
    ∃ diagnosed, opened.result = .ok diagnosed ∧ ∃ later, closed.result = .ok later ∧
      Yields (checkDeclarations (first ++ second)) start (diagnosed.followedBy later) closed.state ∧
      (diagnosed.followedBy later).reports.map (·.code) =
        [some "elaboration", some "signature", some "unsolved-placeholders"] := by
  dsimp only
  refine exists_ok_of_passes (fun diagnosed =>
    diagnosed.errors.map (·.code) == [some "elaboration"])
    (by decide +kernel) fun diagnosed isFirst firstCodes => ?_
  refine exists_ok_of_passes (fun later => later.reports.map (·.code) ==
    [some "signature", some "unsolved-placeholders"])
    (by decide +kernel) fun later isSecond secondCodes => ?_
  refine ⟨?_, ?_⟩
  · exact ((checkDeclarations_folds _ _ _).2.2.2.2 diagnosed _ ⟨isFirst, rfl⟩ _ _).2
      ⟨later, ⟨isSecond, rfl⟩, rfl⟩
  · rw [Diagnosed.followedBy, List.map_append, eq_of_beq firstCodes, eq_of_beq secondCodes]
    rfl

end CheckM
end Families
