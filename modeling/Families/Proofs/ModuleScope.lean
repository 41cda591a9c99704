import Families.Proofs.DatatypeScope

/-!
# Modules in well-scoped states

Declarations are checked where nothing is in scope, so that whatever they enter into the signature
is closed.  The checker is well scoped before the first declaration, and so it is after each of
them.
-/

namespace Families

variable {parameters : List String} {name : String} {ty : Expr}

/-! ## The checker before the first declaration -/

namespace State

theorem wellScoped_initial : initial.WellScoped where
  signature := by
    intro entry present
    have builtin : entry.definition ∈ builtins := by
      rcases PathMap.mem_values_insert present with rfl | earlier
      · exact List.mem_cons_of_mem _ List.mem_cons_self
      · rcases PathMap.mem_values_insert earlier with rfl | none
        · exact List.mem_cons_self
        · exact nomatch none
    simp only [builtins, List.mem_cons, List.not_mem_nil, or_false] at builtin
    rcases builtin with same | same
    · rw [same]
      have levels : (Universe.ofNat 0).Scoped initial.Fits 0 := Universe.scoped_ofNat 0 0
      exact ⟨⟨Universe.scoped_ofNat 1 0, levels⟩, trivial⟩
    · rw [same]
      exact ⟨⟨trivial, trivial⟩, trivial⟩
  placeholders := fun _ present => nomatch present
  constraints := fun _ present => nomatch present

end State

theorem Checker.wellScoped_initial (options : Options) (forcing : Forcing) (fuel : Nat) :
    (initial options forcing fuel).WellScoped :=
  ⟨State.wellScoped_initial, trivial⟩

/-! ## Results with reports -/

namespace Diagnosed

variable {α : Type}

/-- Collecting keeps exactly the values there are. -/
theorem value_collect (results : List (Diagnosed α)) :
    (collect results).value = some (results.filterMap (·.value)) := by
  have continued : ∀ (collected : Diagnosed (List α)) (values : List α),
      collected.value = some values →
      (results.foldl
        (fun collected result => collected.bind fun values =>
          result.recover.bind fun value => ok (values ++ value.toList))
        collected).value = some (values ++ results.filterMap (·.value)) := by
    induction results with
    | nil => simp
    | cons result results ih =>
      intro collected values known
      rw [List.foldl_cons, ih _ (values ++ result.value.toList)]
      · cases isValue : result.value <;> simp [isValue]
      · simp [bind, known, recover, ok]
  exact continued (ok []) [] rfl

@[simp]
theorem value_foldl_report (reports : List Report) (result : Diagnosed α) :
    (reports.foldl report result).value = result.value := by
  induction reports generalizing result with
  | nil => rfl
  | cons first reports ih => exact ih (result.report first)

/-- Collecting keeps all reports. -/
theorem reports_collect (results : List (Diagnosed α)) :
    (collect results).reports = results.flatMap (·.reports) := by
  have continued : ∀ (collected : Diagnosed (List α)) (values : List α),
      collected.value = some values →
      (results.foldl
        (fun collected result => collected.bind fun values =>
          result.recover.bind fun value => ok (values ++ value.toList))
        collected).reports = collected.reports ++ results.flatMap (·.reports) := by
    induction results with
    | nil => simp
    | cons result results ih =>
      intro collected values known
      rw [List.foldl_cons, ih _ (values ++ result.value.toList)]
      · simp [bind, known, recover, ok]
      · simp [bind, known, recover, ok]
  exact continued (ok []) [] rfl

@[simp]
theorem reports_foldl_report (reports : List Report) (result : Diagnosed α) :
    (reports.foldl report result).reports = result.reports ++ reports := by
  induction reports generalizing result with
  | nil => simp
  | cons first reports ih =>
    rw [List.foldl_cons, ih (result.report first)]
    simp [report]

end Diagnosed

namespace CheckM

open Checker

variable {checker : Checker}

/-! ## Declarations and functions -/

theorem steady_declare {kind : Kind} (wellScoped : checker.WellScoped)
    (topLevel : checker.context = []) (kindInScope : ∀ {fits}, kind.Scoped fits) :
    Steady (declare name ty kind) checker fun _ _ => True := by
  refine .bind (steady_enterPath name wellScoped) ?_
  intro path first firstWellScoped keeps₁ _
  refine steady_speculate firstWellScoped (.bind (steady_elaborateType ty firstWellScoped) ?_)
  intro elaborated second secondWellScoped keeps₂ inScope
  exact steady_register secondWellScoped
    ⟨(keeps₁.trans keeps₂).closed topLevel inScope, kindInScope⟩

theorem extending_bindArguments {ty : Term}
    (wellScoped : checker.WellScoped) (inScope : checker.InScope ty) :
    Extending (bindArguments parameters ty) checker fun rest later =>
      later.context.length = checker.context.length + parameters.length ∧ later.InScope rest := by
  induction parameters generalizing checker ty with
  | nil => exact .pure wellScoped ⟨rfl, inScope⟩
  | cons parameter parameters ih =>
    rw [bindArguments]
    refine .bind (steady_reduce wellScoped inScope).extending ?_
    rintro reduced _ _ _ ⟨_, rfl, reducedInScope⟩
    split
    · rename_i name info domain codomain
      have domainInScope : checker.InScope domain := reducedInScope.1
      have codomainInScope : checker.InScopeUnder 1 codomain.term := reducedInScope.2.term
      refine .bind (steady_enterName parameter wellScoped).extending ?_
      rintro entered second secondWellScoped _ ⟨keeps, _⟩
      have domainLater : second.InScope domain := keeps.inScope domainInScope
      refine .bind (extending_push secondWellScoped domainLater) ?_
      rintro _ third thirdWellScoped _ ⟨sameState, pushed⟩
      have thirdLength : third.context.length = second.context.length + 1 :=
        congrArg List.length pushed
      refine (ih thirdWellScoped (inScope_of_bound sameState thirdLength
        (keeps.inScope codomainInScope))).mono ?_
      rintro rest last _ _ ⟨lastLength, restInScope⟩
      refine ⟨?_, restInScope⟩
      rw [lastLength, thirdLength, keeps.context, List.length_cons]
      omega
    · exact .fail wellScoped

theorem extending_checkBody {ty : Ty} {body : Expr}
    (wellScoped : checker.WellScoped) (inScope : checker.InScope ty) :
    Extending (checkBody ty parameters body) checker fun term later =>
      term.Scoped later.state.Fits (checker.context.length + parameters.length) := by
  refine .bind (extending_bindArguments wellScoped inScope.term) ?_
  rintro expected first firstWellScoped _ ⟨length, expectedInScope⟩
  refine .bind (steady_elaborate body firstWellScoped).extending ?_
  rintro term second secondWellScoped _ ⟨keeps₂, termInScope⟩
  refine .bind (steady_infer secondWellScoped termInScope).extending ?_
  rintro inferred third thirdWellScoped _ ⟨keeps₃, inferredInScope⟩
  refine .bind (steady_equalTerm thirdWellScoped inferredInScope
    ((keeps₂.trans keeps₃).inScope expectedInScope)).extending ?_
  rintro _ fourth fourthWellScoped _ ⟨keeps₄, _⟩
  refine (steady_normalise fourthWellScoped
    ((keeps₃.trans keeps₄).inScope termInScope)).extending.mono ?_
  rintro normalised _ _ _ ⟨_, rfl, normalisedInScope⟩
  have fourthLength : fourth.context.length = checker.context.length + parameters.length := by
    rw [keeps₄.context, keeps₃.context, keeps₂.context, length]
  exact fourthLength ▸ normalisedInScope

theorem steady_checkFunction
    {body : Option Expr} (wellScoped : checker.WellScoped) (topLevel : checker.context = []) :
    Steady (checkFunction name ty parameters body) checker fun _ _ => True := by
  refine .bind (steady_enterPath name wellScoped) ?_
  intro path first firstWellScoped keeps₁ _
  refine steady_speculate firstWellScoped (.bind (steady_elaborateType ty firstWellScoped) ?_)
  intro elaborated second secondWellScoped keeps₂ inScope
  have closed := (keeps₁.trans keeps₂).closed topLevel inScope
  split
  · exact steady_register secondWellScoped ⟨closed, trivial⟩
  · rename_i body
    have nothing : second.context.length = 0 := by
      rw [keeps₂.context, keeps₁.context, topLevel, List.length_nil]
    have checked : Steady (restoreScope (checkBody elaborated parameters body)) second
        fun term later => term.Scoped later.state.Fits parameters.length := by
      refine steady_restoreScope secondWellScoped (extending_checkBody secondWellScoped inScope) ?_
      intro term later _ _ termInScope
      rwa [nothing, Nat.zero_add] at termInScope
    refine .bind checked ?_
    intro term third thirdWellScoped keeps₃ termInScope
    exact steady_register thirdWellScoped
      ⟨closed.mono keeps₃.fits (Nat.le_refl 0), termInScope⟩

/-! ## Modules -/

theorem steady_checkDeclaration (declaration : Declaration) (wellScoped : checker.WellScoped)
    (topLevel : checker.context = []) :
    Steady (checkDeclaration declaration) checker fun answer later =>
      ∀ certified ∈ answer, certified.Scoped later.state.Fits := by
  have uncertified : ∀ {later : Checker}, later.WellScoped →
      Steady (pure none) later fun (answer : Option CertifiedDatatype) last =>
        ∀ certified ∈ answer, certified.Scoped last.state.Fits :=
    fun laterWellScoped => .pure laterWellScoped fun _ present => nomatch present
  cases declaration with
  | postulate name ty =>
    refine .bind (steady_declare wellScoped topLevel trivial) ?_
    exact fun _ _ laterWellScoped _ _ => uncertified laterWellScoped
  | dataSignature name ty =>
    refine .bind (steady_declare wellScoped topLevel trivial) ?_
    exact fun _ _ laterWellScoped _ _ => uncertified laterWellScoped
  | record name ty induction =>
    refine .bind (steady_declare wellScoped topLevel trivial) ?_
    exact fun _ _ laterWellScoped _ _ => uncertified laterWellScoped
  | function name ty parameters body =>
    refine .bind (steady_checkFunction wellScoped topLevel) ?_
    exact fun _ _ laterWellScoped _ _ => uncertified laterWellScoped
  | data definition =>
    refine .bind (steady_checkData definition wellScoped topLevel) ?_
    intro certified later laterWellScoped _ inScope
    exact .pure laterWellScoped fun _ present => Option.mem_some.1 present ▸ inScope

/-- Turning an error into a report changes nothing else, and every error is reported as one. -/
theorem steady_diagnoseDeclaration (declaration : Declaration) (wellScoped : checker.WellScoped)
    (topLevel : checker.context = []) :
    Steady (diagnoseDeclaration declaration) checker fun diagnosed later =>
      ∀ certified, diagnosed.value = some (some certified) →
        certified.Scoped later.state.Fits := by
  have respects := steady_checkDeclaration declaration wellScoped topLevel
  refine ⟨respects.passed, respects.good, respects.follows, ?_, ?_⟩
  · intro diagnosed answered certified isValue
    refine respects.answer (some certified) ?_ certified rfl
    simp only [diagnoseDeclaration, Diagnosed.fail, CheckError.report, if_true] at answered
    split at answered
    · rename_i answer succeeded
      rw [← Except.ok.inj answered] at isValue
      rw [succeeded, Option.some.inj isValue]
    · simp at answered
    · rw [← Except.ok.inj answered] at isValue
      simp at isValue
  · intro fault failed
    refine respects.fault fault ?_
    simp only [diagnoseDeclaration, Diagnosed.fail, CheckError.report, if_true] at failed
    split at failed
    · simp at failed
    · rename_i reason stopped
      rw [stopped]
      simpa using failed
    · simp at failed

theorem faultless_unsolvedDefinitions (state : State) (fuel : Nat) :
    Faultless (unsolvedDefinitions state fuel) := by
  refine Faultless.bind (faultless_filterM fun definition => ?_) fun _ _ => faultless_pure _
  exact (faultless_normalise state fuel definition.ty.term).bind fun _ _ => faultless_pure _

theorem steady_checkDeclarations (declarations : List Declaration) (wellScoped : checker.WellScoped)
    (topLevel : checker.context = []) :
    Steady (checkDeclarations declarations) checker fun diagnosed later =>
      ∀ certified ∈ diagnosed.value.getD [], certified.Scoped later.state.Fits := by
  refine .bind (.mapM wellScoped (fun declaration _ later laterWellScoped keeps =>
    steady_diagnoseDeclaration declaration laterWellScoped (keeps.context.trans topLevel)) ?_) ?_
  · intro diagnosed first second keeps inScope certified isValue
    exact (inScope certified isValue).mono keeps.fits (Nat.le_refl _)
  · intro results later laterWellScoped _ inScope
    refine .get_bind (.lift_bind laterWellScoped (faultless_unsolvedDefinitions _ _) ?_)
    refine fun _ _ => .pure laterWellScoped ?_
    intro certified present
    simp only [Diagnosed.value_foldl_report, Diagnosed.map, Diagnosed.value_collect,
      Option.map_some, Option.getD_some, List.mem_filterMap, id] at present
    obtain ⟨_, ⟨diagnosed, diagnosedPresent, isValue⟩, rfl⟩ := present
    exact inScope diagnosed diagnosedPresent certified isValue

end CheckM
end Families
