import Families.Proofs.History

/-!
# Certified datatypes

After a module is checked, its certified datatypes and constructors are exactly those of the
signature.  Each certified datatype belongs to a definition of the module: it has the declared
constructors in their order, and those declared as instances are its instances.
-/

namespace Families

open CheckM

variable {definition : DataDefinition} {declaration : Declaration}
variable {diagnosed : Diagnosed (Option CertifiedDatatype)}

/-- The certified datatype is what the checker has made of the definition. -/
structure Certifies (checker : Checker) (definition : DataDefinition)
    (certified : CertifiedDatatype) : Prop where
  named : checker.names.Knows definition.name certified.path
  constructors : List.Forall₂
    (fun declaration constructor => checker.names.Knows declaration.name constructor.1 ∧
      constructor.2.BelongsTo certified.path certified.datatype.parameters)
    definition.constructors certified.constructors
  listed : certified.datatype.constructors = certified.constructors.map (·.1)
  nodup : (certified.constructors.map (·.1)).Nodup
  small : ∀ position ∈ certified.datatype.smallParameters,
    position < certified.datatype.parameters
  nonLinear : ∀ position ∈ certified.datatype.nonLinearParameters,
    position < certified.datatype.parameters
  /-- Its instances are the constructors declared as such, in order. -/
  instances : checker.state.instancesOf certified.path =
    declaredInstances definition.constructors (certified.constructors.map (·.1))

theorem Certifies.mono {before after : Checker} {certified : CertifiedDatatype}
    (certifies : Certifies before definition certified) (names : before.names.Grows after.names)
    (instances : after.state.instancesOf certified.path =
      before.state.instancesOf certified.path) :
    Certifies after definition certified :=
  { certifies with
    named := certifies.named.mono names
    constructors := certifies.constructors.imp fun _ _ => And.imp_left fun knows => knows.mono names
    instances := instances.trans certifies.instances }

/-- The certified datatypes account for the signature. -/
structure Certification (checker : Checker) (definitions : List DataDefinition)
    (certified : List CertifiedDatatype) : Prop where
  certifies : List.Forall₂ (Certifies checker) definitions certified
  keyed : checker.state.signature.Keyed
  complete : ∀ path entry, checker.state.signature.get? path = some entry →
    entry.phase = .complete
  datatype : ∀ path entry datatype, checker.state.signature.get? path = some entry →
    entry.definition.kind = .datatype datatype →
    ∃ family ∈ certified, family.path = path ∧ family.datatype = datatype
  datatypeEntered : ∀ family ∈ certified, ∃ ty,
    checker.state.signature.get? family.path = some (family.entry ty)
  constructor : ∀ path entry constructor, checker.state.signature.get? path = some entry →
    entry.definition.kind = .constructor constructor →
    ∃ family ∈ certified, (path, constructor) ∈ family.constructors
  constructorEntered : ∀ family ∈ certified, ∀ constructor ∈ family.constructors, ∃ ty,
    checker.state.signature.get? constructor.1 =
      some ⟨⟨constructor.1, ty, .constructor constructor.2⟩, .complete⟩
  nodup : (certified.map (·.path)).Nodup
  instances : ∀ path, path ∉ certified.map (·.path) → checker.state.instancesOf path = []

namespace Certification

variable {before after : Checker} {definitions : List DataDefinition}
variable {certified : List CertifiedDatatype}

theorem initial (options : Options) (forcing : Forcing) (fuel : Nat) :
    Certification (Checker.initial options forcing fuel) [] [] := by
  have postulates : ∀ path entry, State.initial.signature.get? path = some entry →
      entry.phase = .complete ∧ entry.definition.kind = .postulate := by
    intro path entry found
    simp only [State.initial, State.builtins, List.foldl_cons, List.foldl_nil,
      PathMap.get?_insert, PathMap.get?_empty] at found
    split at found
    · obtain rfl := Option.some.inj found
      exact ⟨rfl, rfl⟩
    · split at found
      · obtain rfl := Option.some.inj found
        exact ⟨rfl, rfl⟩
      · cases found
  constructor
  case certifies => exact .nil
  case keyed => exact State.keyed_initial
  case complete => exact fun path entry found => (postulates path entry found).1
  case datatype =>
    intro path entry datatype found isDatatype
    cases (postulates path entry found).2.symm.trans isDatatype
  case datatypeEntered => simp
  case constructor =>
    intro path entry constructor found isConstructor
    cases (postulates path entry found).2.symm.trans isConstructor
  case constructorEntered => simp
  case nodup => exact .nil
  case instances => exact fun _ _ => rfl

section

variable
  (certification : Certification before definitions certified)
  (registers : before.Registers after)

include certification registers

/-- Entries that are neither datatypes nor constructors may be added. -/
theorem of_entries
    (kept : ∀ path entry, before.state.signature.get? path = some entry →
      after.state.signature.get? path = some entry)
    (added : ∀ path entry, after.state.signature.get? path = some entry →
      before.state.signature.get? path = some entry ∨ entry.phase = .complete ∧
        (∀ datatype, entry.definition.kind ≠ .datatype datatype) ∧
        ∀ constructor, entry.definition.kind ≠ .constructor constructor)
    (instances : ∀ path, after.state.instancesOf path = before.state.instancesOf path) :
    Certification after definitions certified := by
  constructor
  case certifies =>
    exact certification.certifies.imp fun _ family certifies =>
      certifies.mono registers.names (instances family.path)
  case keyed => exact registers.signature.keyed certification.keyed
  case complete =>
    intro path entry found
    rcases added path entry found with old | new
    · exact certification.complete path entry old
    · exact new.1
  case datatype =>
    intro path entry datatype found isDatatype
    rcases added path entry found with old | new
    · exact certification.datatype path entry datatype old isDatatype
    · exact absurd isDatatype (new.2.1 datatype)
  case datatypeEntered =>
    intro family present
    obtain ⟨ty, entered⟩ := certification.datatypeEntered family present
    exact ⟨ty, kept _ _ entered⟩
  case constructor =>
    intro path entry constructor found isConstructor
    rcases added path entry found with old | new
    · exact certification.constructor path entry constructor old isConstructor
    · exact absurd isConstructor (new.2.2 constructor)
  case constructorEntered =>
    intro family present constructor constructorPresent
    obtain ⟨ty, entered⟩ :=
      certification.constructorEntered family present constructor constructorPresent
    exact ⟨ty, kept _ _ entered⟩
  case nodup => exact certification.nodup
  case instances =>
    intro path absent
    rw [instances, certification.instances path absent]

/-- A refused declaration leaves at most names behind. -/
theorem of_refused (same : after.state = before.state) :
    Certification after definitions certified := by
  refine certification.of_entries registers ?_ ?_ ?_
  · exact fun path entry found => same ▸ found
  · exact fun path entry found => .inl (same ▸ found)
  · exact fun path => same ▸ rfl

theorem of_addsDefinition {kind : Kind} (adds : AddsDefinition kind before after)
    (isNoDatatype : ∀ datatype, kind ≠ .datatype datatype)
    (isNoConstructor : ∀ constructor, kind ≠ .constructor constructor) :
    Certification after definitions certified := by
  obtain ⟨middle, path, ty, learns, free, rfl⟩ := adds
  have same := learns.state.grows.signature
  refine certification.of_entries registers ?_ ?_ ?_
  · intro other entry found
    have different : other ≠ path := by
      rintro rfl
      rw [← same, free] at found
      cases found
    simp only [State.get?_withEntry, if_neg different, same, found]
  · intro other entry found
    simp only [State.get?_withEntry] at found
    split at found
    · obtain rfl := Option.some.inj found
      exact .inr ⟨rfl, isNoDatatype, isNoConstructor⟩
    · exact .inl (same ▸ found)
  · exact fun other => congrArg (fun instances => (instances.get? other).getD [])
      learns.state.instances

theorem of_addsDatatype {ty : Ty} {family : CertifiedDatatype}
    (adds : AddsDatatype definition ty before after family)
    (named : after.names.Knows definition.name family.path) :
    Certification after (definitions ++ [definition]) (certified ++ [family]) := by
  -- The path of the datatype belonged to no other datatype or constructor.
  have unlisted : family.path ∉ certified.map (·.path) := by
    intro listed
    obtain ⟨other, present, same⟩ := List.mem_map.1 listed
    obtain ⟨_, entered⟩ := certification.datatypeEntered other present
    exact Kind.noConfusion (adds.declared _ (same ▸ entered)).1
  have kept : ∀ path entry, before.state.signature.get? path = some entry →
      entry.definition.kind ≠ .dataSignature → after.state.signature.get? path = some entry := by
    intro path entry found isNoSignature
    refine adds.get?_of_ne found ?_
    rintro rfl
    exact isNoSignature (adds.declared entry found).1
  have noInstances := certification.instances family.path unlisted
  have certifies : Certifies after definition family :=
    { adds with
      named := named
      constructors := adds.constructors.declared
      nodup := adds.constructors.nodup
      instances := by
        rw [adds.constructors.instances]
        exact congrArg (· ++ _) noInstances }
  constructor
  case certifies =>
    have others : List.Forall₂
        (fun other earlier => other.path ≠ family.path ∧ Certifies before earlier other)
        certified definitions := by
      refine (List.forall₂_and_left _ _).2 ⟨fun other present same => ?_,
        certification.certifies.flip⟩
      exact unlisted (same ▸ List.mem_map_of_mem present)
    refine List.rel_append (others.imp fun other earlier => ?_).flip (.cons certifies .nil)
    rintro ⟨different, certifies⟩
    exact certifies.mono registers.names (adds.constructors.otherInstances _ different)
  case keyed => exact registers.signature.keyed certification.keyed
  case complete =>
    intro path entry found
    rcases adds.get?_cases found with ⟨_, rfl⟩ | ⟨_, _, _, _, rfl⟩ | old
    · rfl
    · rfl
    · exact certification.complete path entry old
  case datatype =>
    intro path entry datatype found isDatatype
    rcases adds.get?_cases found with ⟨rfl, rfl⟩ | ⟨_, _, _, _, rfl⟩ | old
    · exact ⟨family, by simp, rfl, Kind.datatype.inj isDatatype⟩
    · cases isDatatype
    · obtain ⟨other, present, same⟩ := certification.datatype path entry datatype old isDatatype
      exact ⟨other, List.mem_append_left _ present, same⟩
  case datatypeEntered =>
    intro other present
    rcases List.mem_append.1 present with old | new
    · obtain ⟨ty, entered⟩ := certification.datatypeEntered other old
      exact ⟨ty, kept _ _ entered Kind.noConfusion⟩
    · rw [List.mem_singleton.1 new]
      exact ⟨ty, adds.entry⟩
  case constructor =>
    intro path entry constructor found isConstructor
    rcases adds.get?_cases found with ⟨_, rfl⟩ | ⟨_, present, _, rfl, rfl⟩ | old
    · cases isConstructor
    · obtain rfl := Kind.constructor.inj isConstructor
      exact ⟨family, by simp, present⟩
    · obtain ⟨other, otherPresent, present⟩ :=
        certification.constructor path entry constructor old isConstructor
      exact ⟨other, List.mem_append_left _ otherPresent, present⟩
  case constructorEntered =>
    intro other present constructor constructorPresent
    rcases List.mem_append.1 present with old | new
    · obtain ⟨ty, entered⟩ :=
        certification.constructorEntered other old constructor constructorPresent
      exact ⟨ty, kept _ _ entered Kind.noConfusion⟩
    · rw [List.mem_singleton.1 new] at constructorPresent
      exact adds.constructors.entries constructorPresent
  case nodup =>
    rw [List.map_append]
    refine List.nodup_append.2 ⟨certification.nodup, List.nodup_singleton _, ?_⟩
    intro path present other otherPresent same
    obtain rfl : path = family.path := same.trans (List.mem_singleton.1 otherPresent)
    exact unlisted present
  case instances =>
    intro path absent
    simp only [List.map_append, List.map_cons, List.map_nil, List.mem_append,
      List.mem_singleton, not_or] at absent
    rw [adds.constructors.otherInstances path absent.2]
    exact certification.instances path absent.1

end

end Certification

/-! ## Modules -/

theorem filterMap_cons_eq_append {α β : Type} (f : α → Option β) (first : α) (rest : List α) :
    (first :: rest).filterMap f = (f first).toList ++ rest.filterMap f := by
  cases isValue : f first <;> simp [isValue]

/-- The definition of a datatype. -/
def Declaration.data? : Declaration → Option DataDefinition
  | .data definition => some definition
  | _ => none

namespace CheckM

variable {before after : Checker} {definitions : List DataDefinition}
variable {certified : List CertifiedDatatype}

theorem yields_diagnoseDeclaration
    (yields : Yields (diagnoseDeclaration declaration) before diagnosed after) :
    (∃ answer, diagnosed.value = some answer ∧
      Yields (checkDeclaration declaration) before answer after) ∨
    diagnosed.value = none ∧ after.state = before.state := by
  obtain ⟨answered, rfl⟩ := yields
  simp only [diagnoseDeclaration, Diagnosed.fail, CheckError.report, if_true] at answered ⊢
  split at answered
  · rename_i answer succeeded
    obtain rfl := Except.ok.inj answered
    exact .inl ⟨answer, rfl, succeeded, rfl⟩
  · cases answered
  · rename_i error failed
    obtain rfl := Except.ok.inj answered
    exact .inr ⟨rfl, restores_checkDeclaration declaration before _ failed⟩

/-- One declaration certifies at most the datatype that it defines. -/
theorem certification_diagnoseDeclaration
    (certification : Certification before definitions certified)
    (yields : Yields (diagnoseDeclaration declaration) before diagnosed after) :
    ∃ accepted, accepted.Sublist declaration.data?.toList ∧
      Certification after (definitions ++ accepted) (certified ++ diagnosed.value.join.toList) := by
  have registers := ((declaring_diagnoseDeclaration declaration).follows yields).registers
  rcases yields_diagnoseDeclaration yields with ⟨answer, isValue, yields⟩ | ⟨isValue, same⟩
  · rw [isValue]
    cases enters_checkDeclaration yields with
    | definition _ isNoDatatype isNoConstructor adds =>
      refine ⟨[], List.nil_sublist _, ?_⟩
      simpa using certification.of_addsDefinition registers adds isNoDatatype isNoConstructor
    | @datatype definition ty family adds named _ =>
      exact ⟨[definition], .refl _,
        certification.of_addsDatatype registers adds (named certification.keyed)⟩
  · rw [isValue]
    refine ⟨[], List.nil_sublist _, ?_⟩
    simpa using certification.of_refused registers same

theorem certification_mapM {declarations : List Declaration}
    {results : List (Diagnosed (Option CertifiedDatatype))}
    (certification : Certification before definitions certified)
    (yields : Yields (declarations.mapM diagnoseDeclaration) before results after) :
    ∃ accepted, accepted.Sublist (declarations.filterMap (·.data?)) ∧
      Certification after (definitions ++ accepted)
        (certified ++ results.filterMap (·.value.join)) := by
  induction declarations generalizing before definitions certified results with
  | nil =>
    obtain ⟨rfl, rfl⟩ := yields_pure_iff.1 yields
    exact ⟨[], .slnil, by simpa using certification⟩
  | cons declaration declarations ih =>
    simp only [List.mapM_cons, yields_bind_iff, yields_pure_iff] at yields
    obtain ⟨first, middle, firstYields, rest, _, restYields, rfl, rfl⟩ := yields
    obtain ⟨accepted, isAccepted, firstCertification⟩ :=
      certification_diagnoseDeclaration certification firstYields
    obtain ⟨more, areAccepted, lastCertification⟩ :=
      ih firstCertification restYields
    refine ⟨accepted ++ more, ?_, ?_⟩
    · rw [filterMap_cons_eq_append]
      exact isAccepted.append areAccepted
    · rw [filterMap_cons_eq_append, ← List.append_assoc, ← List.append_assoc]
      exact lastCertification

end CheckM

namespace Signature

variable {signature : Signature} {path : Path}

theorem datatype?_eq_some_iff {datatype : Datatype} :
    signature.datatype? path = some datatype ↔
      ∃ entry, signature.get? path = some entry ∧ entry.definition.kind = .datatype datatype := by
  unfold datatype? definition?
  cases signature.get? path with
  | none => simp
  | some entry =>
    obtain ⟨⟨own, ty, kind⟩, phase⟩ := entry
    cases kind <;> simp

theorem constructor?_eq_some_iff {constructor : Constructor} :
    signature.constructor? path = some constructor ↔
      ∃ entry, signature.get? path = some entry ∧
        entry.definition.kind = .constructor constructor := by
  unfold constructor? definition?
  cases signature.get? path with
  | none => simp
  | some entry =>
    obtain ⟨⟨own, ty, kind⟩, phase⟩ := entry
    cases kind <;> simp

end Signature

/-- What is certified of a module is exactly what it has entered into the signature. -/
theorem certified_iff_registered
    (declarations : List Declaration)
    (options : Options)
    (forcing : Forcing)
    (fuel : Nat)
    {diagnosed : Diagnosed (List CertifiedDatatype)}
    (checked : ((checkDeclarations declarations).run
      (Checker.initial options forcing fuel)).result = .ok diagnosed) :
    let checker := ((checkDeclarations declarations).run
      (Checker.initial options forcing fuel)).state
    ∃ certified definitions, diagnosed.value = some certified ∧
      definitions.Sublist (declarations.filterMap (·.data?)) ∧
      List.Forall₂ (Certifies checker) definitions certified ∧
      (certified.map (·.path)).Nodup ∧
      (∀ path datatype, checker.state.signature.datatype? path = some datatype ↔
        ∃ family ∈ certified, family.path = path ∧ family.datatype = datatype) ∧
      (∀ path constructor, checker.state.signature.constructor? path = some constructor ↔
        ∃ family ∈ certified, (path, constructor) ∈ family.constructors) ∧
      ∀ path, checker.state.signature.isPending path = false := by
  intro checker
  have yields := Yields.of_result checked
  simp only [checkDeclarations, yields_bind_iff, yields_pure_iff] at yields
  obtain ⟨results, last, mapped, _, _, read, unsolved, _, found, isDiagnosed, isLast⟩ := yields
  obtain ⟨rfl, rfl⟩ := yields_get_iff.1 read
  obtain ⟨_, rfl⟩ := yields_lift_iff.1 found
  obtain ⟨definitions, accepted, certification⟩ :=
    certification_mapM (.initial options forcing fuel) mapped
  rw [isLast, List.nil_append, List.nil_append] at certification
  refine ⟨_, definitions, ?_, accepted, certification.certifies, certification.nodup, ?_, ?_, ?_⟩
  · rw [← isDiagnosed, Diagnosed.value_foldl_report, Diagnosed.map, Diagnosed.value_collect,
      Option.map_some, List.filterMap_filterMap]
    rfl
  · intro path datatype
    rw [Signature.datatype?_eq_some_iff]
    constructor
    · rintro ⟨entry, found, isDatatype⟩
      exact certification.datatype path entry datatype found isDatatype
    · rintro ⟨family, present, rfl, rfl⟩
      obtain ⟨ty, entered⟩ := certification.datatypeEntered family present
      exact ⟨_, entered, rfl⟩
  · intro path constructor
    rw [Signature.constructor?_eq_some_iff]
    constructor
    · rintro ⟨entry, found, isConstructor⟩
      exact certification.constructor path entry constructor found isConstructor
    · rintro ⟨family, present, constructorPresent⟩
      obtain ⟨ty, entered⟩ := certification.constructorEntered family present _ constructorPresent
      exact ⟨_, entered, rfl⟩
  · intro path
    cases found : checker.state.signature.get? path with
    | none => rw [Signature.isPending, found, Option.any_none]
    | some entry =>
      rw [Signature.isPending, found, Option.any_some, certification.complete path entry found]
      rfl

theorem exists_ok_of_isOk {ε α : Type} {result : Except ε α} {holds : α → Prop}
    (isOk : result.isOk = true) (follows : ∀ value, result = .ok value → holds value) :
    ∃ value, result = .ok value ∧ holds value := by
  cases result with
  | error error => cases isOk
  | ok value => exact ⟨value, rfl, follows value rfl⟩

/-- A family over an index with an instance among its constructors, after a refused definition of
it, whose names stay entered. -/
theorem certified_iff_registered_family :
    let refused : Declaration := .data { name := "F", ty := some (.set 0), constructors :=
      [{ name := "c", ty := .const "F" }, { name := "d", ty := .set 0 }] }
    let family : Declaration := .data
      { name := "F", ty := some (.arrow (.set 0) (.set 1)), constructors :=
        [ { name := "c", ty := .pi "A" {} (.set 0) (.app (.const "F") [(.explicit, .var "A")]) },
          { name := "e", isInstance := true,
            ty := .pi "A" {} (.set 0) (.app (.const "F") [(.explicit, .var "A")]) } ] }
    let outcome := (checkDeclarations [refused, family]).run (Checker.initial {} .patterns 30)
    ∃ diagnosed, outcome.result = .ok diagnosed ∧ ∃ certified, diagnosed.value = some certified ∧
      (∃ datatype ∈ certified, (⟨5⟩, ⟨⟨2⟩, 0, 1, .ind, [true]⟩) ∈ datatype.constructors) ∧
      ∀ datatype ∈ certified,
        outcome.state.state.signature.datatype? datatype.path = some datatype.datatype := by
  dsimp only
  refine exists_ok_of_isOk (by decide +kernel) fun diagnosed checked => ?_
  obtain ⟨certified, _, isValue, _, _, _, datatypes, constructors, _⟩ :=
    certified_iff_registered _ _ _ _ checked
  refine ⟨certified, isValue, (constructors ⟨5⟩ ⟨⟨2⟩, 0, 1, .ind, [true]⟩).1
    (by decide +kernel), ?_⟩
  exact fun datatype present => (datatypes _ _).2 ⟨datatype, present, rfl, rfl⟩

end Families
