import Families.Proofs.Certification
import Families.Proofs.Completeness
import Families.Proofs.DatatypeStages

/-!
# The ceiling of sorts

A placeholder for a sort may be created below the sort above all sets, and then it is never solved
by that sort itself.  But it may be solved by a placeholder without this bound, which may then be
solved by the sort above all sets.  This is the only way in which the bound is lost.
-/

namespace Families

variable {fuel : Nat} {certified : CertifiedDatatype} {definition : DataDefinition}
variable {head : DataHead} {arguments : Phrase .terms} {result sort : Universe}
variable {solution : Solution} {pattern : List Nat} {signature : Definition}
variable {parameters : Telescope} {diagnosed : Diagnosed (Option CertifiedDatatype)}

/-! ## Bounded placeholders are not solved by the sort above all sets -/

/-- No placeholder with the bound is solved by the sort above all sets. -/
def State.RespectsCeilings (state : State) : Prop :=
  ∀ id, ConvM.isBelowOmega state id = true → state.solution? id ≠ some (.sort .omega)

namespace ConvM

variable {state : State} {fuel depth id : Nat}

theorem keeping_of_waiting {α : Type} {computation : ConvM α} (along : Along waiting computation) :
    Along (.keeping State.RespectsCeilings) computation := by
  have waited : ∀ {before later : State}, before.Waits later →
      before.RespectsCeilings → later.RespectsCeilings := by
    rintro before _ ⟨_, rfl⟩ respects
    exact respects
  exact along.weaken waited waited

/-- A solution that is not the sort above all sets, or is one for a placeholder without the
bound. -/
theorem respectsCeilings_of_solve {solved : State} (respects : state.RespectsCeilings)
    (accepted : state.solve id solution = .ok solved)
    (allowed : solution = .sort .omega → isBelowOmega state id = false) :
    solved.RespectsCeilings := by
  obtain ⟨scope, kind, found, rfl⟩ := State.solve_eq_ok_iff.1 accepted
  intro other bounded solvedByOmega
  have respectsOther := respects other
  simp only [isBelowOmega, State.solution?] at bounded solvedByOmega respectsOther allowed
  by_cases same : other = id
  · subst same
    have bound : other < state.placeholders.length := (List.getElem?_eq_some_iff.1 found).1
    simp only [List.getElem?_set_self bound] at bounded solvedByOmega
    simp only [found] at allowed
    have unbounded := allowed (Option.some.inj solvedByOmega)
    cases kind with
    | term => cases bounded
    | sort => cases unbounded.symm.trans bounded
  · simp only [List.getElem?_set_ne (Ne.symm same)] at bounded solvedByOmega
    exact respectsOther bounded solvedByOmega

theorem keeping_solve_of_allowed {category : Category} {value : Phrase category}
    {solution : Phrase category → Solution}
    (allowed : ∀ normal inverted, normalise state fuel value = .ok normal →
      invert id pattern normal = .ok inverted → solution inverted = .sort .omega →
      isBelowOmega state id = false) :
    Respects (Course.keeping State.RespectsCeilings).discipline
      (solve fuel id pattern value solution)
      state fun _ _ => True := by
  refine onCourse_solve fun normal inverted solved normalised isInverse accepted => ?_
  have keeps : state.RespectsCeilings → solved.RespectsCeilings := fun respects =>
    respectsCeilings_of_solve respects accepted (allowed normal inverted normalised isInverse)
  exact ⟨keeps, keeps⟩

/-- The sort above all sets comes from no other reduced sort. -/
theorem eq_omega_of_solution {value normal : Universe} (inert : Inert state value)
    (normalised : normalise state fuel value = .ok normal)
    (inverted : invert id pattern normal = .ok .omega) : value = .omega := by
  have isOmega : normal = .omega := by
    cases normal with
    | omega => rfl
    | prop | sizeUniv => cases inverted
    | set | sortPlaceholder =>
      simp only [invert, Phrase.traverse, bind_eq_ok_iff] at inverted
      obtain ⟨_, _, isInverse⟩ := inverted
      cases isInverse
  obtain ⟨_, reduced, isReduced, rebuilt⟩ := exists_of_normalise (isOmega ▸ normalised)
  obtain rfl := inert.reduce_eq isReduced
  exact rebuilt.eq_of_isAtomic (by trivial)

theorem obeys_keeping :
    (Scene.anything True).Obeys (Course.keeping State.RespectsCeilings).discipline where
  good _ := trivial
  postpone comparison _ _ := keeping_of_waiting (waiting_postpone comparison) _
  solveTerm _ _ _ _ := keeping_solve_of_allowed (by simp)
  solveSort := by
    intro _ _ _ _ _ _ _ _ _ _ inert allowed
    refine keeping_solve_of_allowed fun normal inverted normalised isInverse isOmega => ?_
    obtain rfl := Solution.sort.inj isOmega
    exact allowed (eq_omega_of_solution inert normalised isInverse)

theorem keeping_equalSort (left right : Universe) :
    Along (.keeping State.RespectsCeilings) (equalSort fuel depth left right) :=
  fun _ =>
    (compares_equalSort (Scene.lawful_anything True) trivial trivial trivial trivial).respects
    obeys_keeping trivial

theorem keeping_equalTerm (left right : Term) :
    Along (.keeping State.RespectsCeilings) (equalTerm fuel depth left right) :=
  fun _ =>
    (compares_equalTerm (Scene.lawful_anything True) trivial trivial trivial trivial).respects
    obeys_keeping trivial

end ConvM

namespace CheckM

/-- No placeholder with the bound comes to be solved by the sort above all sets. -/
def respecting : Course Checker :=
  .keeping fun checker => checker.state.RespectsCeilings

variable {α : Type}

theorem respecting_comparison {comparison : ConvM Unit} (isComparison : IsComparison comparison) :
    Along respecting (attempt comparison) := by
  have along : Along (.keeping State.RespectsCeilings) comparison := by
    cases isComparison with
    | equalTerm _ _ left right => exact ConvM.keeping_equalTerm left right
    | equalSort _ _ left right => exact ConvM.keeping_equalSort left right
    | leqSort _ _ left right => exact ConvM.keeping_of_waiting (ConvM.waiting_leqSort left right)
  exact along_attempt along id id

theorem respecting_modifyGet {change : Checker → α × Checker}
    (changed : ∀ checker : Checker, checker.state.RespectsCeilings →
      (change checker).2.state.RespectsCeilings) :
    Along respecting (modifyGet change : CheckM α) :=
  .modifyGet changed changed

/-- The signature has no part in it. -/
theorem respecting_updateSignature (change : Signature → Except SignatureError Signature) :
    Along respecting (updateSignature change) := by
  refine .get_bind fun checker => ?_
  split
  · exact .fail _
  · exact respecting_modifyGet fun _ => id

/-- A new placeholder is not solved. -/
theorem respectsCeilings_addPlaceholder {state : State} (respects : state.RespectsCeilings)
    (scope : Nat) (kind : PlaceholderKind) :
    (state.addPlaceholder scope kind).RespectsCeilings := by
  intro id bounded isOmega
  have respectsId := respects id
  simp only [ConvM.isBelowOmega, State.solution?,
    State.addPlaceholder] at bounded isOmega respectsId
  by_cases old : id < state.placeholders.length
  · simp only [List.getElem?_append_left old] at bounded isOmega
    exact respectsId bounded isOmega
  · rw [List.getElem?_append_right (by omega)] at isOmega
    cases index : id - state.placeholders.length with
    | zero => simp [index] at isOmega
    | succ => simp [index] at isOmega

/-- Whatever is built from operations of the checker respects the bounds. -/
theorem Built.respecting {computation : CheckM α} (built : Built ⟨True, True⟩ true computation) :
    Along respecting computation := by
  generalize true = scope at built
  induction built with
  | pure value => exact .pure value
  | fail error => exact .fail error
  | halt reason => exact .halt reason
  | bind _ _ ihFirst ihNext => exact ihFirst.bind ihNext
  | read _ _ ih => exact .get_bind ih
  | enterName | enterPath | push | addInstance => exact respecting_modifyGet fun _ => id
  | attempt isComparison => exact respecting_comparison isComparison
  | compareOr _ ih =>
    refine along_compareOr (.get_bind fun _ => respecting_comparison (.equalTerm _ _ _ _)) ?_ ih
    intro before after _ same
    have keeps : before.state.RespectsCeilings → after.state.RespectsCeilings := (same ▸ ·)
    exact ⟨keeps, keeps⟩
  | proves _ ih =>
    unfold CheckM.proves localState
    refine .settle (.get_bind fun _ => ih.bind fun result => ?_) id fun _ _ => ⟨id, id⟩
    cases result with
    | error _ => exact .pure false
    | ok _ => exact .get_bind fun _ => .pure _
  | addPlaceholder scope kind =>
    exact respecting_modifyGet fun _ respects => respectsCeilings_addPlaceholder respects scope kind
  | register | registerPending | complete => exact respecting_updateSignature _
  | restoreScope _ ih => exact ih.settle id fun _ keeps => ⟨keeps, keeps⟩
  | speculate _ _ ih =>
    refine ih.settle id fun succeeded keeps => ?_
    cases succeeded with
    | true => exact ⟨keeps, keeps⟩
    | false => exact ⟨id, id⟩

theorem respecting_diagnoseDeclaration (declaration : Declaration) :
    Along respecting (diagnoseDeclaration declaration) := by
  intro checker
  have respects := (built_checkDeclaration declaration).respecting checker
  exact ⟨respects.passed, trivial, respects.follows, fun _ _ => trivial, fun _ _ => trivial⟩

theorem respecting_checkDeclarations (declarations : List Declaration) :
    Along respecting (checkDeclarations declarations) := by
  refine (Along.mapM respecting_diagnoseDeclaration declarations).bind fun results => ?_
  exact .get_bind fun checker => .lift_bind fun _ => .pure _

end CheckM

theorem Call.respecting {α : Type} (call : Call α) :
    Along CheckM.respecting call.computation := by
  have queried := fun query => (call.built query).respecting
  cases call with
  | declare declaration => exact (CheckM.built_checkDeclaration declaration).respecting
  | check declarations => exact CheckM.respecting_checkDeclarations declarations
  | _ => exact queried trivial

/-- No placeholder of a reachable checker with the bound is solved by the sort above all sets. -/
theorem Reachable.respectsCeilings {checker : Checker} (reachable : Reachable checker) :
    checker.state.RespectsCeilings := by
  induction reachable with
  | initial options forcing fuel =>
    intro id bounded
    cases bounded
  | binds _ _ ih => exact ih
  | leaves _ _ ih => exact ih
  | passes _ call _ passed ih =>
    exact ((call.respecting _).passed _ passed).2 ih
  | ends _ call _ ih => exact (call.respecting _).follows ih

/-! ## Where the bound is lost -/

namespace State

variable {state : State} {id other : Nat}

/-- The placeholder was solved by another one. -/
def Aliases (state : State) (id other : Nat) : Prop :=
  ∃ arguments, state.solution? id = some (.sort (.sortPlaceholder other arguments))

/-- The placeholder was solved by others in a row, and the last of them is solved by the sort above
all sets. -/
def LeadsToOmega (state : State) (id : Nat) : Prop :=
  ∃ last, Relation.ReflTransGen state.Aliases id last ∧ state.solution? last = some (.sort .omega)

/-- In the row of placeholders that starts here, one with the bound was solved by one without it,
which leads to the sort above all sets. -/
def LosesCeiling (state : State) (id : Nat) : Prop :=
  ∃ bounded unbounded, Relation.ReflTransGen state.Aliases id bounded ∧
    ConvM.isBelowOmega state bounded = true ∧ state.Aliases bounded unbounded ∧
    ConvM.isBelowOmega state unbounded = false ∧ state.LeadsToOmega unbounded

/-- A row that starts with the bound and ends at the sort above all sets loses the bound. -/
theorem losesCeiling_of_leadsToOmega (respects : state.RespectsCeilings)
    (bounded : ConvM.isBelowOmega state id = true) (leads : state.LeadsToOmega id) :
    state.LosesCeiling id := by
  obtain ⟨last, row, isOmega⟩ := leads
  induction row using Relation.ReflTransGen.head_induction_on with
  | refl => exact absurd isOmega (respects last bounded)
  | @head first next aliases row ih =>
    by_cases still : ConvM.isBelowOmega state next = true
    · obtain ⟨bounded', unbounded, row', rest⟩ := ih still
      exact ⟨bounded', unbounded, .head aliases row', rest⟩
    · exact ⟨first, next, .refl, bounded, aliases, by simpa using still, last, row, isOmega⟩

theorem LosesCeiling.leadsToOmega (loses : state.LosesCeiling id) : state.LeadsToOmega id := by
  obtain ⟨bounded, unbounded, row, _, aliases, _, last, row', isOmega⟩ := loses
  exact ⟨last, (row.tail aliases).trans row', isOmega⟩

/-- Reduction goes on with the solution of a placeholder. -/
theorem exists_of_reduce_sortPlaceholder {solution : Universe}
    (solved : state.solution? id = some (.sort solution))
    (reduced : reduce state fuel (.sortPlaceholder id arguments) = .ok result) :
    ∃ less < fuel, reduce state less (solution.replace (Phrase.assigned arguments.toList)) =
      .ok result := by
  cases fuel with
  | zero => cases reduced
  | succ fuel =>
    simp only [reduce, solved, bind_eq_ok_iff, checked_eq_ok_iff] at reduced
    obtain ⟨value, substituted, continued⟩ := reduced
    exact ⟨fuel, Nat.lt_succ_self fuel, Phrase.eq_replace_of_substitute? substituted ▸ continued⟩

/-- An unsolved placeholder is reduced. -/
theorem eq_of_reduce_sortPlaceholder
    (unsolved : ¬∃ solution, state.solution? id = some (.sort solution))
    (reduced : reduce state fuel (.sortPlaceholder id arguments) = .ok result) :
    result = .sortPlaceholder id arguments := by
  have stops : Stops state (.sortPlaceholder id arguments) :=
    fun solution solved => unsolved ⟨solution, solved⟩
  exact (Inert.stops stops).reduce_eq reduced

/-- Reduction follows a row of placeholders to its end. -/
theorem row_of_reduce (reduced : reduce state fuel (.sortPlaceholder id arguments) = .ok result) :
    (∃ last arguments', Relation.ReflTransGen state.Aliases id last ∧
        result = .sortPlaceholder last arguments') ∨
      ∃ last solution, Relation.ReflTransGen state.Aliases id last ∧
        state.solution? last = some (.sort solution) ∧ (result = .omega ↔ solution = .omega) ∧
        ∀ other arguments', result ≠ .sortPlaceholder other arguments' := by
  induction fuel using Nat.strong_induction_on generalizing id arguments with
  | _ fuel ih =>
    by_cases solved : ∃ solution, state.solution? id = some (.sort solution)
    · obtain ⟨solution, solved⟩ := solved
      obtain ⟨less, isLess, continued⟩ := exists_of_reduce_sortPlaceholder solved reduced
      cases solution with
      | sortPlaceholder next arguments' =>
        rcases ih less isLess continued with
          ⟨last, arguments'', row, isResult⟩ | ⟨last, solution, row, rest⟩
        · exact .inl ⟨last, arguments'', .head ⟨arguments', solved⟩ row, isResult⟩
        · exact .inr ⟨last, solution, .head ⟨arguments', solved⟩ row, rest⟩
      | prop | sizeUniv | omega =>
        obtain rfl := (Inert.stops (by trivial)).reduce_eq continued
        exact .inr ⟨id, _, .refl, solved, by simp [Phrase.replace, Phrase.mapVariables]⟩
      | set bound =>
        refine .inr ⟨id, _, .refl, solved, ?_⟩
        cases less with
        | zero => cases continued
        | succ less =>
          simp only [Phrase.replace, Phrase.mapVariables, reduce, bind_eq_ok_iff,
            pure_eq_ok_iff] at continued
          obtain ⟨_, _, rfl⟩ := continued
          simp
    · exact .inl ⟨id, arguments, .refl, eq_of_reduce_sortPlaceholder solved reduced⟩

/-- A placeholder that leads to the sort above all sets reduces to nothing else. -/
theorem LeadsToOmega.eq_of_reduce (leads : state.LeadsToOmega id)
    (reduced : reduce state fuel (.sortPlaceholder id arguments) = .ok result) :
    result = .omega := by
  obtain ⟨last, row, isOmega⟩ := leads
  induction row using Relation.ReflTransGen.head_induction_on generalizing fuel arguments with
  | refl =>
    obtain ⟨less, _, continued⟩ := exists_of_reduce_sortPlaceholder isOmega reduced
    exact (Inert.stops (by trivial)).reduce_eq continued
  | head aliases _ ih =>
    obtain ⟨_, solved⟩ := aliases
    obtain ⟨less, _, continued⟩ := exists_of_reduce_sortPlaceholder solved reduced
    exact ih continued

/-- The normal form of a placeholder is the sort above all sets exactly if it leads there. -/
theorem normalise_eq_omega_iff
    (normalised : normalise state fuel (.sortPlaceholder id arguments) = .ok result) :
    result = .omega ↔ state.LeadsToOmega id := by
  obtain ⟨fuel, reduced, isReduced, rebuilt⟩ := exists_of_normalise normalised
  constructor
  · rintro rfl
    obtain rfl := rebuilt.eq_of_isAtomic (by trivial)
    obtain ⟨last, solution, row, solved, isOmega, _⟩ :=
      (row_of_reduce isReduced).resolve_left (by simp)
    exact ⟨last, row, isOmega.1 rfl ▸ solved⟩
  · intro leads
    obtain rfl := leads.eq_of_reduce isReduced
    cases rebuilt
    rfl

/-- A placeholder in normal form stands at the end of the row. -/
theorem row_of_normalise {arguments' : Phrase .terms}
    (normalised : normalise state fuel (.sortPlaceholder id arguments) =
      .ok (.sortPlaceholder other arguments')) :
    Relation.ReflTransGen state.Aliases id other := by
  obtain ⟨fuel, reduced, isReduced, rebuilt⟩ := exists_of_normalise normalised
  cases rebuilt
  rcases row_of_reduce isReduced with ⟨_, _, row, isLast⟩ | ⟨_, _, _, _, _, noPlaceholder⟩
  · obtain ⟨rfl, _⟩ := Phrase.sortPlaceholder.inj isLast
    exact row
  · exact absurd rfl (noPlaceholder _ _)

/-- Only a placeholder becomes the sort above all sets. -/
theorem cases_of_normalise_omega (normalised : normalise state fuel sort = .ok .omega) :
    sort = .omega ∨ ∃ id arguments, sort = .sortPlaceholder id arguments := by
  obtain ⟨fuel, reduced, isReduced, rebuilt⟩ := exists_of_normalise normalised
  obtain rfl := rebuilt.eq_of_isAtomic (by trivial)
  cases sort with
  | omega => exact .inl rfl
  | sortPlaceholder id arguments => exact .inr ⟨id, arguments, rfl⟩
  | prop | sizeUniv => cases (Inert.stops (by trivial)).reduce_eq isReduced
  | set bound =>
    cases fuel with
    | zero => cases isReduced
    | succ fuel =>
      simp only [reduce, bind_eq_ok_iff] at isReduced
      obtain ⟨_, _, isResult⟩ := isReduced
      cases isResult

end State

/-! ## Sorts of datatypes -/

namespace State

variable {before after : State} {id : Nat}

theorem Remembers.isBelowOmega (remembers : before.Remembers after)
    (bounded : ConvM.isBelowOmega before id = true) : ConvM.isBelowOmega after id = true := by
  simp only [ConvM.isBelowOmega] at bounded ⊢
  split at bounded
  · rename_i scope belowOmega solution found
    obtain ⟨solution', found', _⟩ := remembers.placeholders id _ found
    rw [found']
    exact bounded
  · cases bounded

theorem Remembers.row {other : Nat} (remembers : before.Remembers after)
    (row : Relation.ReflTransGen before.Aliases id other) :
    Relation.ReflTransGen after.Aliases id other := by
  have aliases : before.Aliases ≤ after.Aliases := by
    rintro first second ⟨arguments, solved⟩
    exact ⟨arguments, remembers.solution? solved⟩
  exact Relation.ReflTransGen.mono aliases id other row

theorem Remembers.leadsToOmega (remembers : before.Remembers after)
    (leads : before.LeadsToOmega id) : after.LeadsToOmega id := by
  obtain ⟨last, row, isOmega⟩ := leads
  exact ⟨last, remembers.row row, remembers.solution? isOmega⟩

theorem remembers_withEntry (state : State) (path : Path) (entry : Entry) :
    state.Remembers (state.withEntry path entry) :=
  ⟨(Remembers.refl state).placeholders, List.prefix_refl _⟩

end State

namespace CheckM

variable {before after : Checker}

/-- The sort of a datatype is the normal form of a placeholder with the bound. -/
theorem exists_of_resolveSort {datatype : Path} {indices : Telescope} {core : Ty}
    (yields : Yields (resolveSort datatype indices core) before sort after) :
    ∃ id arguments, ConvM.isBelowOmega after.state id = true ∧
      Families.normalise after.state after.fuel (.sortPlaceholder id arguments) = .ok sort := by
  simp only [resolveSort, yields_bind_iff, yields_lift_iff] at yields
  obtain ⟨fresh, created, isFresh, _, _, ⟨_, rfl⟩, _, _, ⟨_, rfl⟩, result, compared, isCompared,
    yields⟩ := yields
  simp only [freshSort, addPlaceholder, yields_bind_iff, yields_get_iff, yields_modifyState_iff,
    yields_pure_iff] at isFresh
  obtain ⟨_, _, ⟨rfl, rfl⟩, _, _, ⟨_, _, ⟨rfl, rfl⟩, _, _, rfl, rfl, rfl⟩, rfl, rfl⟩ := isFresh
  have bounded : ConvM.isBelowOmega
      (before.state.addPlaceholder before.context.length (.sort true))
      before.state.placeholders.length = true := by
    simp only [ConvM.isBelowOmega, State.getElem?_addPlaceholder]
  have learns := ((built_under _ (built_tryEqualTerm _ _)).consults isCompared).learns
  cases result with
  | ok _ =>
    obtain ⟨normalised, rfl⟩ := yields_normalise_iff.1 yields
    exact ⟨_, _, learns.state.grows.remembers.isBelowOmega bounded, normalised⟩
  | error error =>
    simp only at yields
    split at yields <;> exact absurd yields not_yields_fail

theorem remembers_of_openInSort {indices : Nat}
    (yields : Yields (openInSort definition signature parameters indices sort) before head after) :
    head.sort = sort ∧ before.state.Remembers after.state := by
  simp only [openInSort, yields_bind_iff, yields_pure_iff] at yields
  obtain ⟨small, first, isSmall, _, _, isPending, rfl, rfl⟩ := yields
  have learns := ((built_smallParameters _ _).consults isSmall).learns
  obtain ⟨_, rfl⟩ := yields_registerPending_iff.1 isPending
  exact ⟨rfl, learns.state.grows.remembers.trans (State.remembers_withEntry _ _ _)⟩

theorem exists_of_openUnderParameters {tail : Ty}
    (yields : Yields (openUnderParameters definition signature parameters tail) before head after) :
    ∃ id arguments resolved fuel, ConvM.isBelowOmega resolved id = true ∧
      Families.normalise resolved fuel (.sortPlaceholder id arguments) = .ok head.sort ∧
      resolved.Remembers after.state := by
  simp only [openUnderParameters_eq, yields_bind_iff] at yields
  obtain ⟨_, _, _, _, _, _, sort, resolved, isResolved, _, compared, isCompared, yields⟩ := yields
  obtain ⟨id, arguments, bounded, normalised⟩ := exists_of_resolveSort isResolved
  have learns := ((built_checkIf _ (built_checkIndexSorts _ _ _)).consults isCompared).learns
  obtain ⟨rfl, remembers⟩ := remembers_of_openInSort yields
  exact ⟨id, arguments, resolved.state, resolved.fuel, bounded, normalised,
    learns.state.grows.remembers.trans remembers⟩

theorem exists_of_openData (yields : Yields (openData definition) before head after) :
    ∃ id arguments resolved fuel, ConvM.isBelowOmega resolved id = true ∧
      Families.normalise resolved fuel (.sortPlaceholder id arguments) = .ok head.sort ∧
      resolved.Remembers after.state := by
  simp only [openData_eq, openDeclared, yields_bind_iff] at yields
  obtain ⟨_, _, _, _, _, _, _, _, _, _, _, _, _, _, _, opened⟩ := yields
  exact exists_of_openUnderParameters opened

/-- If the sort of a datatype is the sort above all sets, the placeholder for it leads there. -/
theorem exists_leadsToOmega_of_checkData
    (yields : Yields (checkData definition) before certified after)
    (isOmega : certified.datatype.sort = .omega) :
    ∃ id, ConvM.isBelowOmega after.state id = true ∧ after.state.LeadsToOmega id := by
  obtain ⟨head, opened, answers, closed, isOpened, isChecked, completes⟩ :=
    stages_of_checkData yields
  obtain ⟨id, arguments, resolved, fuel, bounded, normalised, remembers⟩ :=
    exists_of_openData isOpened
  have toClosed := remembers.trans (adds_checkConstructors isChecked).1.remembers
  have toAfter : closed.state.Remembers after.state := by
    obtain ⟨_, _, isAfter⟩ := completes.entered
    rw [isAfter]
    exact State.remembers_withEntry _ _ _
  refine ⟨id, (toClosed.trans toAfter).isBelowOmega bounded, ?_⟩
  have isLast := completes.sort
  rw [isOmega] at isLast
  rcases State.cases_of_normalise_omega isLast with isHead | ⟨other, arguments', isHead⟩
  · rw [isHead] at normalised
    exact (toClosed.trans toAfter).leadsToOmega ((State.normalise_eq_omega_iff normalised).1 rfl)
  · rw [isHead] at normalised isLast
    obtain ⟨last, row, lastIsOmega⟩ :=
      toAfter.leadsToOmega ((State.normalise_eq_omega_iff isLast).1 rfl)
    have earlier := (toClosed.trans toAfter).row (State.row_of_normalise normalised)
    exact ⟨last, earlier.trans row, lastIsOmega⟩

theorem exists_leadsToOmega_of_diagnoseDeclaration {declaration : Declaration}
    (yields : Yields (diagnoseDeclaration declaration) before diagnosed after)
    (isCertified : diagnosed.value = some (some certified))
    (isOmega : certified.datatype.sort = .omega) :
    ∃ id, ConvM.isBelowOmega after.state id = true ∧ after.state.LeadsToOmega id := by
  rcases yields_diagnoseDeclaration yields with ⟨answer, isValue, yields⟩ | ⟨isValue, _⟩
  · obtain rfl := Option.some.inj (isValue.symm.trans isCertified)
    cases declaration with
    | data definition =>
      simp only [checkDeclaration, yields_bind_iff, yields_pure_iff] at yields
      obtain ⟨_, _, checked, isAnswer, rfl⟩ := yields
      obtain rfl := Option.some.inj isAnswer
      exact exists_leadsToOmega_of_checkData checked isOmega
    | _ =>
      simp only [checkDeclaration, yields_bind_iff, yields_pure_iff] at yields
      obtain ⟨_, _, _, isAnswer, _⟩ := yields
      cases isAnswer
  · cases isValue.symm.trans isCertified

theorem exists_leadsToOmega_of_mapM {declarations : List Declaration}
    {results : List (Diagnosed (Option CertifiedDatatype))} (keyed : before.state.signature.Keyed)
    (yields : Yields (declarations.mapM diagnoseDeclaration) before results after)
    (present : diagnosed ∈ results) (isCertified : diagnosed.value = some (some certified))
    (isOmega : certified.datatype.sort = .omega) :
    ∃ id, ConvM.isBelowOmega after.state id = true ∧ after.state.LeadsToOmega id := by
  induction declarations generalizing before results with
  | nil =>
    rw [List.mapM_nil, yields_pure_iff] at yields
    obtain ⟨rfl, _⟩ := yields
    cases present
  | cons declaration declarations ih =>
    simp only [List.mapM_cons, yields_bind_iff, yields_pure_iff] at yields
    obtain ⟨first, middle, firstYields, rest, _, restYields, rfl, rfl⟩ := yields
    have middleKeyed := ((continuing_diagnoseDeclaration declaration).follows firstYields keyed).1
    rcases List.mem_cons.1 present with rfl | later
    · obtain ⟨id, bounded, leads⟩ :=
        exists_leadsToOmega_of_diagnoseDeclaration firstYields isCertified isOmega
      have remembers := ((continuing_mapM declarations).follows restYields middleKeyed).2.remembers
      exact ⟨id, remembers.isBelowOmega bounded, remembers.leadsToOmega leads⟩
    · exact ih middleKeyed restYields later

end CheckM

/-- In a reachable checker a placeholder below the sort above all sets has that sort as its normal
form only if the bound was lost: it was solved, through others or at once, by a placeholder without
the bound.  So it is for the sorts of datatypes that are certified. -/
theorem omega_iff_losesCeiling {checker : Checker} (reachable : Reachable checker) :
    (∀ id arguments fuel result, ConvM.isBelowOmega checker.state id = true →
      normalise checker.state fuel (.sortPlaceholder id arguments) = .ok result →
      (result = .omega ↔ checker.state.LosesCeiling id)) ∧
    ∀ declarations diagnosed after, checker.context = [] →
      Yields (CheckM.checkDeclarations declarations) checker diagnosed after →
      ∀ certified ∈ diagnosed.value.getD [], certified.datatype.sort = .omega →
        ∃ id, ConvM.isBelowOmega after.state id = true ∧ after.state.LosesCeiling id := by
  constructor
  · intro id arguments fuel result bounded normalised
    rw [State.normalise_eq_omega_iff normalised]
    exact ⟨State.losesCeiling_of_leadsToOmega reachable.respectsCeilings bounded,
      State.LosesCeiling.leadsToOmega⟩
  · intro declarations diagnosed after topLevel yields certified present isOmega
    have reachableAfter : Reachable after :=
      yields.2 ▸ .ends reachable (.check declarations) topLevel
    simp only [CheckM.checkDeclarations, yields_bind_iff, yields_get_iff, yields_lift_iff,
      yields_pure_iff] at yields
    obtain ⟨results, _, diagnosedEach, _, _, ⟨rfl, rfl⟩, unsolved, _, ⟨_, rfl⟩, rfl, rfl⟩ := yields
    simp only [Diagnosed.value_foldl_report, Diagnosed.map, Diagnosed.value_collect,
      Option.map_some, Option.getD_some, List.mem_filterMap, id] at present
    obtain ⟨_, ⟨result, resultPresent, isValue⟩, rfl⟩ := present
    obtain ⟨id, bounded, leads⟩ := CheckM.exists_leadsToOmega_of_mapM reachable.keyed diagnosedEach
      resultPresent isValue isOmega
    exact ⟨id, bounded,
      State.losesCeiling_of_leadsToOmega reachableAfter.respectsCeilings bounded leads⟩

/-- A placeholder below the sort above all sets, solved by another such placeholder that is then
solved by a sort of sets, keeps its bound. -/
theorem omega_iff_losesCeiling_bounded :
    let first := (Call.freshSort true).computation.run (Checker.initial {} .patterns 20)
    let second := (Call.freshSort true).computation.run first.state
    let aliased := (Call.equalSort (.sortPlaceholder 0 .noTerms)
      (.sortPlaceholder 1 .noTerms)).computation.run second.state
    let solved := (Call.equalSort (.sortPlaceholder 1 .noTerms)
      (Universe.ofNat 1)).computation.run aliased.state
    Reachable solved.state ∧ ConvM.isBelowOmega solved.state.state 0 = true ∧
      normalise solved.state.state 20 (.sortPlaceholder 0 .noTerms) = .ok (Universe.ofNat 1) ∧
      ¬solved.state.state.LosesCeiling 0 := by
  intro first second aliased solved
  have bounded : ConvM.isBelowOmega solved.state.state 0 = true := by decide +kernel
  have normalised : normalise solved.state.state 20 (.sortPlaceholder 0 .noTerms) =
      .ok (Universe.ofNat 1) := by decide +kernel
  have stored : aliased.state.state.placeholders =
      [⟨0, .sort true, some (.sort (.sortPlaceholder 1 .noTerms))⟩, ⟨0, .sort true, none⟩] := by
    decide +kernel
  have created : Reachable second.state :=
    .ends (.ends (.initial {} .patterns 20) (.freshSort true) trivial) (.freshSort true) trivial
  have isAliased : Reachable aliased.state :=
    .ends created (.equalSort (.sortPlaceholder 0 .noTerms) (.sortPlaceholder 1 .noTerms))
      ⟨⟨.sort rfl, trivial⟩, .sort rfl, trivial⟩
  -- The run so far is not evaluated again.
  clear_value second
  have reachable : Reachable solved.state :=
    .ends isAliased (.equalSort (.sortPlaceholder 1 .noTerms) (Universe.ofNat 1))
      ⟨⟨.sort (by rw [stored]; rfl), trivial⟩, Universe.scoped_ofNat 1 _⟩
  have isSet : Universe.ofNat 1 ≠ .omega := by decide +kernel
  exact ⟨reachable, bounded, normalised, fun losesCeiling => isSet
    (((omega_iff_losesCeiling reachable).1 0 .noTerms 20 _ bounded normalised).2 losesCeiling)⟩

/-- A placeholder with the bound is solved by one without it, which is then solved by the sort above
all sets.  And a datatype of that sort is certified: the placeholder for its sort is solved by the
one for the sort of a postulate. -/
theorem omega_below_ceiling :
    let first := (Call.freshSort true).computation.run (Checker.initial {} .patterns 20)
    let second := (Call.freshSort false).computation.run first.state
    let aliased := (Call.equalSort (.sortPlaceholder 0 .noTerms)
      (.sortPlaceholder 1 .noTerms)).computation.run second.state
    let solved := (Call.equalSort (.sortPlaceholder 1 .noTerms) .omega).computation.run
      aliased.state
    let constructor : Expr := .arrow (.app (.const "H") [(.explicit, .const "D")])
      (.arrow (.app (.const "W") [(.explicit, .const "K")]) (.const "D"))
    let declarations : List Declaration :=
      [ .postulate "K" .hole,
        .postulate "k" (.const "K"),
        .postulate "H" (.pi "A" {} .hole (.set 0)),
        .postulate "h" (.app (.const "H") [(.explicit, .const "K")]),
        .postulate "W" (.arrow .setOmega (.set 0)),
        .data
          { name := "D", ty := some .hole, constructors := [{ name := "c", ty := constructor }] } ]
    let checked := (CheckM.checkDeclarations declarations).run (Checker.initial {} .patterns 40)
    ConvM.isBelowOmega solved.state.state 0 = true ∧
      normalise solved.state.state 20 (.sortPlaceholder 0 .noTerms) = .ok .omega ∧
      checked.result.toOption.any (fun diagnosed => !diagnosed.hasErrors &&
        (diagnosed.value.getD []).any (·.datatype.sort == .omega)) = true := by
  decide +kernel

end Families
