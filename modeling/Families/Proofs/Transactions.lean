import Families.Proofs.Additions

/-!
# Declarations as transactions

A declaration is checked as a whole.  If it is refused, the state and the scope are what they were
before, whichever stage refused it.  If it is accepted, it has added complete entries and left the
scope as it was.
-/

namespace Families

variable {definition : DataDefinition} {certified : CertifiedDatatype} {declaration : Declaration}
variable {answer : Option CertifiedDatatype}

namespace CheckM

variable {α β : Type} {before after : Checker}

/-! ## Refused declarations -/

/-- A computation that fails leaves the state that it found. -/
def Restores (computation : CheckM α) : Prop :=
  ∀ checker failure, (computation.run checker).result = .error failure →
    (computation.run checker).state.state = checker.state

theorem restores_speculate (body : CheckM α) : Restores (speculate body) := by
  intro checker failure failed
  have failed : (body.run checker).result = .error failure := failed
  simp only [speculate, Attempt.settle, failed]
  rfl

/-- Names may be entered before. -/
theorem restores_enterPath_bind {text : String} {next : Path → CheckM α}
    (restores : ∀ path, Restores (next path)) : Restores (enterPath text >>= next) :=
  fun _ failure failed => restores _ _ failure failed

/-- An answer may be given afterwards. -/
theorem Restores.bind_pure {computation : CheckM α} (restores : Restores computation)
    (answer : α → β) : Restores (computation >>= fun value => pure (answer value)) := by
  intro checker failure failed
  cases result : (computation.run checker).result with
  | ok value =>
    rw [Attempt.run_bind_of_ok result] at failed
    cases failed
  | error failure =>
    rw [Attempt.run_bind_of_error result]
    exact restores checker failure result

theorem restores_checkDeclaration (declaration : Declaration) :
    Restores (checkDeclaration declaration) := by
  have declared : ∀ name ty kind, Restores (declare name ty kind) :=
    fun _ _ _ => restores_enterPath_bind fun _ => restores_speculate _
  cases declaration with
  | postulate name ty => exact (declared name ty _).bind_pure fun _ => none
  | dataSignature name ty => exact (declared name ty _).bind_pure fun _ => none
  | record name ty induction => exact (declared name ty _).bind_pure fun _ => none
  | function name ty parameters body =>
    have checked : Restores (checkFunction name ty parameters body) :=
      restores_enterPath_bind fun _ => restores_speculate _
    exact checked.bind_pure fun _ => none
  | data definition =>
    have checked : Restores (checkData definition) :=
      restores_enterPath_bind fun _ => restores_speculate _
    exact checked.bind_pure some

/-! ## Accepted declarations -/

/-- A declaration of the kind was entered under a free path. -/
def AddsDefinition (kind : Kind) (before after : Checker) : Prop :=
  ∃ (middle : Checker) (path : Path) (ty : Ty), before.Learns middle ∧
    middle.state.signature.get? path = none ∧
    after = { middle with state := middle.state.withEntry path ⟨⟨path, ty, kind⟩, .complete⟩ }

/-- What an accepted declaration adds, by what it certifies.  A datatype has the declared name and
type if declarations stand under their own paths. -/
inductive Enters (before after : Checker) : Declaration → Option CertifiedDatatype → Prop where
  | definition {declaration : Declaration} {kind : Kind}
      (isNoData : ∀ definition, declaration ≠ .data definition)
      (isNoDatatype : ∀ datatype, kind ≠ .datatype datatype)
      (isNoConstructor : ∀ constructor, kind ≠ .constructor constructor)
      (adds : AddsDefinition kind before after) :
      Enters before after declaration none
  | datatype {definition : DataDefinition} {ty : Ty} {certified : CertifiedDatatype}
      (adds : AddsDatatype definition ty before after certified)
      (named : before.state.signature.Keyed → after.names.Knows definition.name certified.path)
      (typed : before.state.signature.Keyed → ∀ entry,
        before.state.signature.get? certified.path = some entry → entry.definition.ty = ty) :
      Enters before after (.data definition) (some certified)

theorem adds_declare {name : String} {ty : Expr} {kind : Kind} {answer : Unit}
    (yields : Yields (declare name ty kind) before answer after) :
    AddsDefinition kind before after := by
  simp only [declare, yields_bind_iff, yields_speculate_iff] at yields
  obtain ⟨path, first, entered, elaborated, second, isElaborated, registered⟩ := yields
  have consults₁ := (Built.enterPath name).consults entered
  have consults₂ := (built_elaborateType ty).consults isElaborated
  obtain ⟨free, rfl⟩ := yields_register_iff.1 registered
  exact ⟨second, path, elaborated, (consults₁.trans consults₂).learns, free, rfl⟩

theorem adds_checkFunction {name : String} {ty : Expr} {parameters : List String}
    {body : Option Expr} {answer : Unit}
    (yields : Yields (checkFunction name ty parameters body) before answer after) :
    ∃ body, AddsDefinition (.function parameters.length body) before after := by
  simp only [checkFunction, yields_bind_iff, yields_speculate_iff] at yields
  obtain ⟨path, first, entered, elaborated, second, isElaborated, yields⟩ := yields
  have consults₁ := (Built.enterPath name).consults entered
  have consults₂ := (built_elaborateType ty).consults isElaborated
  cases body with
  | none =>
    obtain ⟨free, rfl⟩ := yields_register_iff.1 yields
    exact ⟨none, second, path, elaborated, (consults₁.trans consults₂).learns, free, rfl⟩
  | some body =>
    obtain ⟨term, third, checked, registered⟩ := yields_bind_iff.1 yields
    have consults₃ := (built_checkBody elaborated parameters
      body).restoreScope.consults checked
    obtain ⟨free, rfl⟩ := yields_register_iff.1 registered
    exact ⟨some term, third, path, elaborated,
      ((consults₁.trans consults₂).trans consults₃).learns, free, rfl⟩

/-- The part of the check of a datatype after its type is declared. -/
theorem adds_declaredData {signature : Definition}
    (yields : Yields (restoreScope do
      let (parameters, tail) ← bindParameters before.fuel definition.parameters signature.ty
      checkUnderParameters definition signature parameters tail) before certified after) :
    certified.path = signature.path ∧
      AddsDatatype definition signature.ty before after certified := by
  obtain ⟨inner, body, rfl⟩ := yields_restoreScope_iff.1 yields
  obtain ⟨⟨parameters, tail⟩, bound, isBound, checked⟩ := yields_bind_iff.1 body
  have learns : before.Learns bound :=
    (built_bindParameters before.fuel definition.parameters signature.ty).learns isBound
  obtain ⟨samePath, adds⟩ := adds_checkUnderParameters checked
  obtain ⟨declared, constructors, listed, small, nonLinear⟩ := adds.of_learns learns (.refl inner)
  exact ⟨samePath, declared, { constructors with }, listed, small, nonLinear⟩

theorem enters_checkData (yields : Yields (checkData definition) before certified after) :
    Enters before after (.data definition) (some certified) := by
  simp only [checkData, yields_bind_iff, yields_speculate_iff] at yields
  obtain ⟨path, entered, isEntered, yields⟩ := yields
  have learns := ((Built.enterPath definition.name).consults isEntered).learns
  have knows : entered.names.Knows definition.name path := by
    obtain ⟨rfl, rfl⟩ := yields_enterPath_iff.1 isEntered
    exact before.names.knows_enterPath definition.name
  split at yields
  · simp only [yields_bind_iff, yields_get_iff] at yields
    obtain ⟨signature, _, found, _, _, ⟨rfl, rfl⟩, yields⟩ := yields
    obtain ⟨rfl, phase, isFound⟩ := yields_dataSignature found
    obtain ⟨samePath, adds⟩ := adds_declaredData yields
    rw [learns.state.grows.signature] at isFound
    refine .datatype (adds.of_learns learns (.refl after)) ?_ ?_
    · intro keyed
      have own : signature.path = path := keyed path _ isFound
      rw [samePath, own]
      exact knows.mono adds.constructors.names
    · intro keyed entry declared
      have own : signature.path = path := keyed path _ isFound
      rw [samePath, own, isFound] at declared
      rw [← Option.some.inj declared]
  · simp only [yields_bind_iff, yields_get_iff] at yields
    obtain ⟨elaborated, second, isElaborated, _, third, registered, signature, _, found, _, _,
      ⟨rfl, rfl⟩, yields⟩ := yields
    replace learns := learns.trans
      ((built_elaborateType _).consults isElaborated).learns
    obtain ⟨free, rfl⟩ := yields_register_iff.1 registered
    obtain ⟨rfl, phase, isFound⟩ := yields_dataSignature found
    obtain ⟨rfl, rfl⟩ : _ = signature ∧ _ = phase := by
      simpa [State.get?_withEntry_self] using isFound
    obtain ⟨rfl, _, constructors, listed, small, nonLinear⟩ := adds_declaredData yields
    simp only [State.withEntry_withEntry] at constructors free
    have grows := constructors.names
    refine .datatype (AddsDatatype.of_learns ⟨?_, constructors, listed, small, nonLinear⟩ learns
      (.refl after)) ?_ ?_
    · intro entry taken
      cases free.symm.trans taken
    · exact fun _ => knows.mono
        (((built_elaborateType _).consults isElaborated).learns.names.trans grows)
    · intro _ entry taken
      rw [← learns.state.grows.signature, free] at taken
      cases taken

/-- Whatever a declaration certifies, it has entered. -/
theorem enters_checkDeclaration
    (yields : Yields (checkDeclaration declaration) before answer after) :
    Enters before after declaration answer := by
  cases declaration with
  | postulate name ty | dataSignature name ty | record name ty induction =>
    simp only [checkDeclaration, yields_bind_iff, yields_pure_iff] at yields
    obtain ⟨_, _, declared, rfl, rfl⟩ := yields
    exact .definition (by simp) (by simp) (by simp) (adds_declare declared)
  | function name ty parameters body =>
    simp only [checkDeclaration, yields_bind_iff, yields_pure_iff] at yields
    obtain ⟨_, _, checked, rfl, rfl⟩ := yields
    obtain ⟨_, adds⟩ := adds_checkFunction checked
    exact .definition (by simp) (by simp) (by simp) adds
  | data definition =>
    simp only [checkDeclaration, yields_bind_iff, yields_pure_iff] at yields
    obtain ⟨_, _, checked, rfl, rfl⟩ := yields
    exact enters_checkData checked

/-- What is entered is complete in the end. -/
theorem Enters.get?_of_pending {path : Path} {entry : Entry}
    (enters : Enters before after declaration answer)
    (found : after.state.signature.get? path = some entry) (pending : entry.phase = .pending) :
    before.state.signature.get? path = some entry := by
  cases enters with
  | definition _ _ _ adds =>
    obtain ⟨middle, added, ty, learns, free, rfl⟩ := adds
    simp only [State.get?_withEntry] at found
    split at found
    · rw [← Option.some.inj found] at pending
      cases pending
    · exact learns.state.grows.signature ▸ found
  | datatype adds _ _ =>
    rcases adds.get?_cases found with ⟨_, rfl⟩ | ⟨_, _, _, _, rfl⟩ | old
    · cases pending
    · cases pending
    · exact old

/-- A declaration that is refused leaves the state and the scope as they were.  One that is accepted
leaves the scope as it was, and an entry that it leaves pending was there before. -/
theorem checkDeclaration_all_or_nothing (declaration : Declaration) (checker : Checker) :
    let outcome := (checkDeclaration declaration).run checker
    (∀ error, outcome.result = .error (.error error) →
      outcome.state.state = checker.state ∧ outcome.state.context = checker.context) ∧
    ∀ answer, outcome.result = .ok answer →
      outcome.state.context = checker.context ∧
        ∀ path entry, outcome.state.state.signature.get? path = some entry →
          entry.phase = .pending → checker.state.signature.get? path = some entry := by
  have context := ((built_checkDeclaration declaration).declaring checker).follows.context
  refine ⟨fun error refused => ⟨?_, context⟩,
    fun answer accepted => ⟨context, fun path entry => ?_⟩⟩
  · exact restores_checkDeclaration declaration checker _ refused
  · exact (enters_checkDeclaration (.of_result accepted)).get?_of_pending

/-- Under a variable, the second constructor of a datatype is refused after its first one was
entered as an instance, and without the second one the datatype is accepted. -/
theorem checkDeclaration_all_or_nothing_constructors :
    let first : ConstructorDeclaration := { name := "c", ty := .const "D", isInstance := true }
    let second : ConstructorDeclaration := { name := "d", ty := .set 0 }
    let family (constructors : List ConstructorDeclaration) : Declaration :=
      .data { name := "D", ty := some (.set 0), constructors := constructors }
    let domain : Domain := ⟨⟨0⟩, {}, .classified (Universe.ofNat 1) (.univ (Universe.ofNat 0))⟩
    let checker : Checker := { Checker.initial {} .patterns 20 with context := [domain] }
    let refused := (checkDeclaration (family [first, second])).run checker
    let accepted := (checkDeclaration (family [first])).run checker
    let mismatch : CheckError := .targetMismatch ⟨4⟩ (.univ (Universe.ofNat 0))
    let certified : CertifiedDatatype :=
      { path := ⟨2⟩
        datatype := ⟨0, 0, Universe.ofNat 0, .ind, [⟨3⟩], .empty, .empty, true⟩
        constructors := [(⟨3⟩, ⟨⟨2⟩, 0, 0, .ind, []⟩)] }
    (refused.result = .error (.error mismatch) ∧
      refused.state.state = checker.state ∧ refused.state.context = [domain]) ∧
    accepted.result = .ok (some certified) ∧ accepted.state.context = [domain] ∧
      ∀ path entry, accepted.state.state.signature.get? path = some entry →
        entry.phase = .pending → checker.state.signature.get? path = some entry := by
  dsimp only
  refine ⟨⟨by decide +kernel, ?_⟩, by decide +kernel, ?_⟩
  · exact (checkDeclaration_all_or_nothing _ _).1
      (.targetMismatch ⟨4⟩ (.univ (Universe.ofNat 0))) (by decide +kernel)
  · exact (checkDeclaration_all_or_nothing _ _).2
      (some
        { path := ⟨2⟩
          datatype := ⟨0, 0, Universe.ofNat 0, .ind, [⟨3⟩], .empty, .empty, true⟩
          constructors := [(⟨3⟩, ⟨⟨2⟩, 0, 0, .ind, []⟩)] })
      (by decide +kernel)

end CheckM
end Families
