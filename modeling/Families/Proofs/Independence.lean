import Families.Proofs.Widening
import Families.Proofs.History

/-!
# Independence of declarations that are not cited

Whatever calls have led to, it cites declarations only.  So a declaration that is accepted is
accepted as well where more is declared under other names: its answer is the same, it learns and
adds the same, and the additional declarations stay on top.
-/

namespace Families

variable {known : Path → Prop} {extra : Path → Option Entry}
variable {path : Path} {α : Type} {value : α} {known' mentioned : Path → Prop} {checker : Checker}

/-! ## Entries -/

/-- The type and the body of an entry cite known declarations only. -/
structure Entry.CitesOnly (known : Path → Prop) (entry : Entry) : Prop where
  ty : entry.definition.ty.CitesOnly known
  body : ∀ {arity body}, entry.definition.kind = .function arity (some body) → body.CitesOnly known

namespace State

variable {narrow wide state : State} {path : Path} {entry : Entry}

theorem CitesOnly.withEntry (cites : state.CitesOnly known) (isKnown : known path)
    (entryCites : entry.CitesOnly known) : (state.withEntry path entry).CitesOnly known := by
  have found : ∀ {other found}, (state.withEntry path entry).signature.get? other = some found →
      known other ∧ found.CitesOnly known := by
    intro other found isFound
    rw [get?_withEntry] at isFound
    split at isFound
    · rename_i same
      exact ⟨same ▸ isKnown, Option.some.inj isFound ▸ entryCites⟩
    · exact ⟨cites.declared isFound, cites.types isFound, cites.bodies isFound⟩
  exact { cites with
    declared := fun isFound => (found isFound).1
    types := fun isFound => (found isFound).2.ty
    bodies := fun isFound isFunction => (found isFound).2.body isFunction }

/-- Both states get an entry under a known path. -/
theorem Widens.withEntry (widens : narrow.Widens known extra wide) (isKnown : known path)
    (entryCites : entry.CitesOnly known) :
    (narrow.withEntry path entry).Widens known extra (wide.withEntry path entry) := by
  refine { widens with cites := widens.cites.withEntry isKnown entryCites, shared := ?_, own := ?_ }
  · intro other otherKnown
    rw [get?_withEntry, get?_withEntry, widens.shared otherKnown]
  · intro other otherUnknown
    have different : other ≠ path := fun same => otherUnknown (same ▸ isKnown)
    rw [get?_withEntry, if_neg different, widens.own otherUnknown]

end State

namespace CheckM

open Checker

variable {narrow wide after : Checker} {α : Type}

theorem Mirrors.yields {answers : α → Prop} {computation computation' : CheckM α} {value : α}
    (mirrors : Mirrors known extra answers computation computation' narrow wide)
    (yields : Yields computation narrow value after) :
    answers value ∧ ∃ wide', Yields computation' wide value wide' ∧
      after.Widens known extra wide' := by
  obtain ⟨answered, rfl⟩ := yields
  obtain ⟨answer, answered', widens⟩ := mirrors.2 answered
  exact ⟨answer, _, ⟨answered', rfl⟩, widens⟩

/-- A change of the signature that the wide state accepts as well. -/
theorem mirrors_updateSignature {change : Signature → Except SignatureError Signature}
    (widens : narrow.Widens known extra wide)
    (alike : ∀ signature, change narrow.state.signature = .ok signature →
      ∃ signature', change wide.state.signature = .ok signature' ∧
        State.Widens known extra { narrow.state with signature }
          { wide.state with signature := signature' }) :
    Mirrors known extra (fun _ => True) (updateSignature change) (updateSignature change)
      narrow wide := by
  refine .get_bind ?_
  cases changed : change narrow.state.signature with
  | error error => exact .fail widens.cites
  | ok signature =>
    obtain ⟨signature', changed', states⟩ := alike signature changed
    rw [changed']
    exact ⟨⟨widens.scope, states.cites⟩, fun _ answered =>
      ⟨trivial, answered, { widens with state := states }⟩⟩

section Signature

variable {definition : Definition}

theorem mirrors_register (widens : narrow.Widens known extra wide) (isKnown : known definition.path)
    (cites : Entry.CitesOnly known ⟨definition, .complete⟩) :
    Mirrors known extra (fun _ => True) (register definition) (register definition)
      narrow wide := by
  refine mirrors_updateSignature widens fun signature registered => ?_
  obtain ⟨free, rfl⟩ := Signature.register_eq_ok_iff.1 registered
  have free' := (widens.state.shared isKnown).trans free
  exact ⟨_, Signature.register_eq_ok_iff.2 ⟨free', rfl⟩, widens.state.withEntry isKnown cites⟩

theorem mirrors_registerPending {ty : Ty} (datatype : Datatype)
    (widens : narrow.Widens known extra wide) (isKnown : known path) (cites : ty.CitesOnly known) :
    Mirrors known extra (fun _ => True)
      (updateSignature (Signature.registerPending · ⟨path, ty, .datatype datatype⟩))
      (updateSignature (Signature.registerPending · ⟨path, ty, .datatype datatype⟩))
      narrow wide := by
  refine mirrors_updateSignature widens fun signature registered => ?_
  obtain ⟨declared, rfl⟩ := Signature.registerPending_eq_ok_iff.1 registered
  rw [← widens.state.shared isKnown] at declared
  exact ⟨_, Signature.registerPending_eq_ok_iff.2 ⟨declared, rfl⟩,
    widens.state.withEntry isKnown ⟨cites, by simp⟩⟩

theorem mirrors_complete {kind : Kind} (widens : narrow.Widens known extra wide)
    (noFunction : ∀ arity body, kind ≠ .function arity (some body)) :
    Mirrors known extra (fun _ => True) (updateSignature (Signature.complete · path kind))
      (updateSignature (Signature.complete · path kind)) narrow wide := by
  refine mirrors_updateSignature widens fun signature completed => ?_
  obtain ⟨definition, pending, rfl⟩ := Signature.complete_eq_ok_iff.1 completed
  have isKnown := widens.state.cites.declared pending
  have pending' := (widens.state.shared isKnown).trans pending
  have typeCites := widens.state.cites.types pending
  refine ⟨_, Signature.complete_eq_ok_iff.2 ⟨definition, pending', rfl⟩, ?_⟩
  exact widens.state.withEntry isKnown
    ⟨typeCites, fun isFunction => absurd isFunction (noFunction _ _)⟩

theorem mirrors_addInstance (datatype constructor : Path)
    (widens : narrow.Widens known extra wide) :
    Mirrors known extra (fun _ => True) (modifyState (·.addInstance datatype constructor))
      (modifyState (·.addInstance datatype constructor)) narrow wide := by
  refine .modifyGet rfl trivial { widens with
    state := { widens.state with cites := { widens.state.cites with }, instances := ?_ } }
  simp only [State.addInstance, widens.state.instances]

end Signature

/-! ## Declarations -/

theorem mirrors_declare {name : String} {kind : Kind} (ty : Expr)
    (noFunction : ∀ arity body, kind ≠ .function arity (some body))
    (widens : narrow.Widens known extra wide) (isKnown : known (narrow.names.enterPath name).1) :
    Mirrors known extra (fun _ => True) (declare name ty kind) (declare name ty kind)
      narrow wide := by
  refine (mirrors_enterPath name widens).bind fun entered widens => ?_
  refine .speculate widens ((widens.lawful.elaborateType (.inl trivial) widens).bind
    fun cites widens => ?_)
  refine mirrors_register widens (entered ▸ isKnown) ⟨cites, ?_⟩
  exact fun isFunction => absurd isFunction (noFunction _ _)

theorem mirrors_checkFunction {name : String} (ty : Expr) (parameters : List String)
    (body : Option Expr) (widens : narrow.Widens known extra wide)
    (isKnown : known (narrow.names.enterPath name).1) :
    Mirrors known extra (fun _ => True) (checkFunction name ty parameters body)
      (checkFunction name ty parameters body) narrow wide := by
  refine (mirrors_enterPath name widens).bind fun entered widens => ?_
  refine .speculate widens ((widens.lawful.elaborateType (.inl trivial) widens).bind
    fun {ty _ _} cites widens => ?_)
  cases body with
  | none =>
    refine mirrors_register widens (entered ▸ isKnown) ⟨cites, fun isFunction => ?_⟩
    cases isFunction
  | some body =>
    refine (widens.lawful.restoreScope (widens.lawful.checkBody cites (.inl trivial)) widens).bind
      fun {term _ _} termCites widens => ?_
    refine mirrors_register widens (entered ▸ isKnown) ⟨cites, fun isFunction => ?_⟩
    cases isFunction
    exact termCites

theorem mirrors_checkConstructor {head : DataHead} {declaration : ConstructorDeclaration}
    (widens : narrow.Widens known extra wide) (headCites : head.CitesOnly known)
    (isKnown : known (narrow.names.enterPath declaration.name).1) :
    Mirrors known extra (fun _ => True) (checkConstructor head declaration)
      (checkConstructor head declaration) narrow wide := by
  refine (mirrors_enterPath declaration.name widens).bind fun {path _ _} entered widens => ?_
  split
  · refine (widens.lawful.elaborateType (.inl trivial) widens).bind
      fun {written _ _} writtenCites widens => ?_
    have targeted := widens.lawful.checkTarget fun fuel =>
      mirrors_walkToTarget widens.lawful path fuel 0 headCites writtenCites.term
    refine (widens.lawful.restoreScope targeted widens).bind fun _ widens => ?_
    refine (widens.lawful.normalise writtenCites widens).bind fun {ty _ _} cites widens => ?_
    refine (mirrors_findForced head widens cites).bind fun {forced _ _} _ widens => ?_
    refine (widens.lawful.checkFits headCites.sort cites widens).bind fun _ widens => ?_
    have closedCites := Telescope.citesOnly_toPi (headCites.parameters.withPlicity .implicit) cites
    refine (mirrors_register widens (entered ▸ isKnown) ⟨closedCites, fun isFunction => ?_⟩).bind
      fun _ widens => ?_
    · cases isFunction
    · split
      · refine (mirrors_addInstance head.path path widens).bind fun _ widens => ?_
        exact .pure widens trivial
      · exact .pure widens trivial
  · exact .fail widens.cites

/-- Constructors whose names are known are accepted alike. -/
theorem wider_checkConstructors {head : DataHead} {declarations : List ConstructorDeclaration}
    {answers : List (Path × Constructor × List Nat)} (widens : narrow.Widens known extra wide)
    (headCites : head.CitesOnly known)
    (named : ∀ declaration ∈ declarations, ∀ path, after.names.Knows declaration.name path →
      known path)
    (yields : Yields (checkConstructors head declarations) narrow answers after) :
    ∃ wide', Yields (checkConstructors head declarations) wide answers wide' ∧
      after.Widens known extra wide' := by
  induction declarations generalizing narrow wide answers with
  | nil =>
    obtain ⟨rfl, rfl⟩ := yields_pure_iff.1 yields
    exact ⟨wide, yields_pure_iff.2 ⟨rfl, rfl⟩, widens⟩
  | cons declaration declarations ih =>
    rw [List.forall_mem_cons] at named
    simp only [checkConstructors, yields_bind_iff, yields_pure_iff] at yields ⊢
    obtain ⟨⟨path, constructor, nonLinear⟩, middle, checked, rest, _, checkedRest, rfl, rfl⟩ :=
      yields
    have grows := (adds_checkConstructors checkedRest).1.names
    -- The path was entered first, and it keeps its number up to the end.
    have isKnown : known (narrow.names.enterPath declaration.name).1 := by
      obtain ⟨_, _, _, _, _, _, entered, _⟩ := stages_of_checkConstructor checked
      rw [(yields_enterPath_iff.1 entered).1]
      obtain ⟨knows, _⟩ := List.forall₂_cons.1 (adds_checkConstructor checked).1.declared
      exact named.1 path (knows.1.mono grows)
    obtain ⟨_, wide₁, checked', widens⟩ :=
      (mirrors_checkConstructor widens headCites isKnown).yields checked
    obtain ⟨wide₂, checkedRest', widens⟩ := ih widens named.2 checkedRest
    exact ⟨wide₂, ⟨_, wide₁, checked', rest, wide₂, checkedRest', rfl, rfl⟩, widens⟩

section Datatype

variable {definition : DataDefinition} {signature : Definition} {parameters : Telescope}
variable {certified : CertifiedDatatype}

section

variable (widens : narrow.Widens known extra wide)

include widens

theorem wider_checkInSort {indices : Nat} {sort : Universe} (isKnown : known signature.path)
    (typeCites : signature.ty.CitesOnly known) (parametersCite : parameters.CitesOnly known)
    (sortCites : sort.CitesOnly known)
    (named : ∀ declaration ∈ definition.constructors, ∀ path,
      after.names.Knows declaration.name path → known path)
    (yields : Yields (checkInSort definition signature parameters indices sort) narrow certified
      after) :
    ∃ wide', Yields (checkInSort definition signature parameters indices sort) wide certified
      wide' ∧ after.Widens known extra wide' := by
  simp only [checkInSort, yields_bind_iff, yields_pure_iff] at yields ⊢
  obtain ⟨small, narrow₁, isSmall, _, narrow₂, isPending, constructors, narrow₃, isAdded, _,
    narrow₄, isSingleton, normal, narrow₅, isNormal, _, narrow₆, isComplete, rfl, rfl⟩ := yields
  have grows : narrow₃.names.Grows narrow₆.names := by
    have consults := (built_checkSingleton signature.path sort _).consults isSingleton
    obtain ⟨_, rfl⟩ := yields_normalise_iff.1 isNormal
    obtain ⟨_, _, rfl⟩ := yields_complete_iff.1 isComplete
    exact consults.learns.names
  obtain ⟨_, wide₁, isSmall', widens⟩ :=
    (widens.lawful.smallParameters parametersCite sortCites widens).yields isSmall
  obtain ⟨_, wide₂, isPending', widens⟩ :=
    (mirrors_registerPending _ widens isKnown typeCites).yields isPending
  obtain ⟨wide₃, isAdded', widens⟩ := wider_checkConstructors widens
    ⟨isKnown, parametersCite, sortCites⟩
    (fun declaration present path knows => named declaration present path (knows.mono grows))
    isAdded
  obtain ⟨_, wide₄, isSingleton', widens⟩ :=
    (widens.lawful.checkSingleton sortCites widens).yields isSingleton
  obtain ⟨_, wide₅, isNormal', widens⟩ := (widens.lawful.normalise sortCites widens).yields isNormal
  obtain ⟨_, wide₆, isComplete', widens⟩ := (mirrors_complete widens (by simp)).yields isComplete
  exact ⟨wide₆, ⟨small, wide₁, isSmall', (), wide₂, isPending', constructors, wide₃, isAdded', (),
    wide₄, isSingleton', normal, wide₅, isNormal', (), wide₆, isComplete', rfl, rfl⟩, widens⟩

theorem wider_checkUnderParameters {tail : Ty}
    (isKnown : known signature.path) (typeCites : signature.ty.CitesOnly known)
    (parametersCite : parameters.CitesOnly known) (tailCites : tail.CitesOnly known)
    (named : ∀ declaration ∈ definition.constructors, ∀ path,
      after.names.Knows declaration.name path → known path)
    (yields : Yields (checkUnderParameters definition signature parameters tail) narrow certified
      after) :
    ∃ wide', Yields (checkUnderParameters definition signature parameters tail) wide certified
      wide' ∧ after.Widens known extra wide' := by
  simp only [checkUnderParameters_eq, yields_bind_iff, yields_get_iff] at yields ⊢
  obtain ⟨_, _, ⟨rfl, rfl⟩, ⟨indices, core⟩, narrow₁, viewed, sort, narrow₂, resolved, _, narrow₃,
    compared, yields⟩ := yields
  have options := widens.options
  obtain ⟨⟨indicesCite, coreCites⟩, wide₁, viewed', widens⟩ :=
    (mirrors_telescopeView widens tailCites).yields viewed
  obtain ⟨sortCites, wide₂, resolved', widens⟩ :=
    (mirrors_resolveSort signature.path widens indicesCite coreCites).yields resolved
  obtain ⟨_, wide₃, compared', widens⟩ := (widens.lawful.checkIf
    (widens.lawful.checkIndexSorts indicesCite sortCites) widens).yields compared
  obtain ⟨wide', checked, widens⟩ :=
    wider_checkInSort widens isKnown typeCites parametersCite sortCites named yields
  rw [← options] at compared'
  exact ⟨wide', ⟨wide, wide, ⟨rfl, rfl⟩, (indices, core), wide₁, viewed', sort, wide₂,
    resolved', (), wide₃, compared', checked⟩, widens⟩

theorem mirrors_dataSignature (keyed : narrow.state.signature.Keyed) (isKnown : known path) :
    Mirrors known extra (fun signature => known signature.path ∧ signature.ty.CitesOnly known)
      (dataSignature path) (dataSignature path) narrow wide := by
  refine .get_bind ?_
  rw [widens.state.definition? isKnown]
  split
  · rename_i own ty found
    refine .pure widens ⟨?_, (widens.state.cites.definition? found).2.1⟩
    obtain ⟨entry, isFound, isSignature⟩ := Option.map_eq_some_iff.1 found
    have samePath : own = path := by
      rw [← keyed path entry isFound, isSignature]
    exact samePath ▸ isKnown
  · exact .fail widens.cites
  · exact .fail widens.cites

theorem mirrors_declareType (isKnown : known path) :
    Mirrors known extra (fun _ => True) (declareType definition path) (declareType definition path)
      narrow wide := by
  unfold declareType
  split
  · exact .pure widens trivial
  · exact .bind (widens.lawful.elaborateType (.inl trivial) widens) fun cites widens =>
      mirrors_register widens isKnown ⟨cites, by simp⟩

theorem wider_checkDeclared (keyed : narrow.state.signature.Keyed) (isKnown : known path)
    (named : ∀ declaration ∈ definition.constructors, ∀ path,
      after.names.Knows declaration.name path → known path)
    (yields : Yields (checkDeclared definition path) narrow certified after) :
    ∃ wide', Yields (checkDeclared definition path) wide certified wide' ∧
      after.Widens known extra wide' := by
  obtain ⟨signature, narrow₁, found, yields⟩ := yields_bind_iff.1 yields
  obtain ⟨_, _, read, yields⟩ := yields_bind_iff.1 yields
  obtain ⟨rfl, rfl⟩ := yields_get_iff.1 read
  obtain ⟨inner, body, rfl⟩ := yields_restoreScope_iff.1 yields
  obtain ⟨bound, narrow₂, isBound, checked⟩ := yields_bind_iff.1 body
  obtain ⟨⟨ownKnown, typeCites⟩, wide₁, found', widens₁⟩ :=
    (mirrors_dataSignature widens keyed isKnown).yields found
  obtain ⟨⟨parametersCite, tailCites⟩, wide₂, isBound', widens₂⟩ :=
    (widens₁.lawful.bindParameters (fun _ _ => .inl trivial) typeCites widens₁).yields isBound
  have named' : ∀ declaration ∈ definition.constructors, ∀ path,
      inner.names.Knows declaration.name path → known path := named
  obtain ⟨wide₃, checked', widens₃⟩ := wider_checkUnderParameters widens₂ ownKnown typeCites
    parametersCite tailCites named' checked
  rw [← widens₁.fuel] at isBound'
  refine ⟨_, yields_bind_iff.2 ⟨signature, wide₁, found', yields_bind_iff.2 ⟨wide₁, wide₁,
    yields_get_iff.2 ⟨rfl, rfl⟩, yields_restoreScope_iff.2
      ⟨wide₃, yields_bind_iff.2 ⟨bound, wide₂, isBound', checked'⟩, rfl⟩⟩⟩, ?_⟩
  refine { widens₃ with context := ?_, scope := widens₃.scope.truncate _ }
  exact congrArg₂ Context.truncate widens₃.context (congrArg List.length widens₁.context)

/-- A datatype whose names are known is accepted alike. -/
theorem wider_checkData (keyed : narrow.state.signature.Keyed)
    (isKnown : known (narrow.names.enterPath definition.name).1)
    (named : ∀ declaration ∈ definition.constructors, ∀ path,
      after.names.Knows declaration.name path → known path)
    (yields : Yields (checkData definition) narrow certified after) :
    ∃ wide', Yields (checkData definition) wide certified wide' ∧
      after.Widens known extra wide' := by
  simp only [checkData_eq, yields_bind_iff, yields_speculate_iff] at yields ⊢
  obtain ⟨path, entered, isEntered, _, declared, isDeclared, checked⟩ := yields
  have entering := (Built.enterPath definition.name).declaring.follows isEntered
  have declaring := (built_declareType definition path).declaring.follows isDeclared
  have keyed' := (entering.registers.trans declaring.registers).signature.keyed keyed
  obtain ⟨isPath, wide₁, isEntered', widens₁⟩ :=
    (mirrors_enterPath definition.name widens).yields isEntered
  rw [← isPath] at isKnown
  obtain ⟨_, wide₂, isDeclared', widens₂⟩ := (mirrors_declareType widens₁ isKnown).yields isDeclared
  obtain ⟨wide', checked', widens'⟩ := wider_checkDeclared widens₂ keyed' isKnown named checked
  exact ⟨wide', ⟨path, wide₁, isEntered', (), wide₂, isDeclared', checked'⟩, widens'⟩

end

end Datatype

end CheckM

/-! ## The names of a declaration -/

/-- The names that a declaration declares: its own, and those of its constructors. -/
def Declaration.names : Declaration → List String
  | .postulate name _ => [name]
  | .function name _ _ _ => [name]
  | .record name _ _ => [name]
  | .dataSignature name _ => [name]
  | .data definition => definition.name :: definition.constructors.map (·.name)

/-- A text is known by one path. -/
theorem NameTable.Knows.unique {table : NameTable} {text : String} {path' : Path}
    (knows : table.Knows text path) (knows' : table.Knows text path') : path = path' :=
  congrArg Prod.fst (Eq.trans (Eq.symm knows) knows')

namespace CheckM

open Checker

variable {before after narrow wide : Checker} {α : Type}
variable {declaration : Declaration} {answer : Option CertifiedDatatype}

/-- A name that is entered first is known in the end. -/
theorem knows_of_enterPath_bind {text : String} {next : Path → CheckM α} {value : α}
    (declaring : Declaring (enterPath text >>= next))
    (yields : Yields (enterPath text >>= next) before value after) :
    after.names.Knows text (before.names.enterPath text).1 := by
  obtain ⟨path, entered, isEntered, rest⟩ := yields_bind_iff.1 yields
  obtain ⟨rfl, rfl⟩ := yields_enterPath_iff.1 isEntered
  have knows := before.names.knows_enterPath text
  -- Entered a second time, the name changes nothing, so the rest starts where it is known.
  have again : Yields (enterPath text >>= next)
      { before with names := (before.names.enterPath text).2 } value after := by
    refine yields_bind_iff.2 ⟨_, _, yields_enterPath_iff.2 ⟨congrArg Prod.fst knows, ?_⟩, rest⟩
    rw [congrArg Prod.snd knows]
  exact knows.mono (declaring.follows again).registers.names

/-- All names of an accepted declaration are declared. -/
theorem declares_names (keyed : before.state.signature.Keyed)
    (yields : Yields (checkDeclaration declaration) before answer after) {text : String}
    {path : Path} (present : text ∈ declaration.names) (knows : after.names.Knows text path) :
    ∃ entry, after.state.signature.get? path = some entry := by
  have declared : ∀ {name ty kind answer}, Yields (declare name ty kind) before answer after →
      text = name → ∃ entry, after.state.signature.get? path = some entry := by
    rintro name ty kind _ yields rfl
    obtain rfl :=
      knows.unique (knows_of_enterPath_bind (built_declare text ty kind).declaring yields)
    simp only [declare, yields_bind_iff, yields_speculate_iff] at yields
    obtain ⟨_, _, entered, _, _, _, registered⟩ := yields
    obtain ⟨rfl, rfl⟩ := yields_enterPath_iff.1 entered
    obtain ⟨_, rfl⟩ := yields_register_iff.1 registered
    exact ⟨_, State.get?_withEntry_self _ _ _⟩
  cases declaration with
  | postulate name ty | dataSignature name ty | record name ty induction =>
    obtain ⟨_, _, checked, rest⟩ := yields_bind_iff.1 yields
    obtain ⟨_, rfl⟩ := yields_pure_iff.1 rest
    exact declared checked (List.mem_singleton.1 present)
  | function name ty parameters body =>
    obtain ⟨_, _, checked, rest⟩ := yields_bind_iff.1 yields
    obtain ⟨_, rfl⟩ := yields_pure_iff.1 rest
    obtain rfl : text = name := List.mem_singleton.1 present
    obtain rfl := knows.unique
      (knows_of_enterPath_bind (built_checkFunction text ty parameters body).declaring checked)
    simp only [checkFunction, yields_bind_iff, yields_speculate_iff] at checked
    obtain ⟨_, _, entered, _, _, _, checked⟩ := checked
    obtain ⟨rfl, rfl⟩ := yields_enterPath_iff.1 entered
    cases body with
    | none =>
      obtain ⟨_, rfl⟩ := yields_register_iff.1 checked
      exact ⟨_, State.get?_withEntry_self _ _ _⟩
    | some body =>
      obtain ⟨_, _, _, registered⟩ := yields_bind_iff.1 checked
      obtain ⟨_, rfl⟩ := yields_register_iff.1 registered
      exact ⟨_, State.get?_withEntry_self _ _ _⟩
  | data definition =>
    obtain ⟨certified, _, checked, rest⟩ := yields_bind_iff.1 yields
    obtain ⟨_, rfl⟩ := yields_pure_iff.1 rest
    cases enters_checkData checked with
    | datatype adds named _ =>
      rcases List.mem_cons.1 present with rfl | present
      · exact ⟨_, (knows.unique (named keyed)) ▸ adds.entry⟩
      · obtain ⟨constructor, isDeclared, rfl⟩ := List.mem_map.1 present
        obtain ⟨⟨position, bounded⟩, rfl⟩ := List.mem_iff_get.1 isDeclared
        have sameLength := adds.constructors.declared.length_eq
        obtain ⟨knows', _⟩ := adds.constructors.declared.get bounded (sameLength ▸ bounded)
        obtain ⟨ty, found⟩ := adds.constructors.entries (List.get_mem _ _)
        exact ⟨_, (knows.unique knows') ▸ found⟩

/-- A declaration whose names are known is accepted alike. -/
theorem wider_checkDeclaration (widens : narrow.Widens known extra wide)
    (keyed : narrow.state.signature.Keyed)
    (named : ∀ text ∈ declaration.names, ∀ path, after.names.Knows text path → known path)
    (yields : Yields (checkDeclaration declaration) narrow answer after) :
    ∃ wide', Yields (checkDeclaration declaration) wide answer wide' ∧
      after.Widens known extra wide' := by
  cases declaration with
  | postulate name ty | dataSignature name ty | record name ty induction =>
    obtain ⟨_, _, checked, rest⟩ := yields_bind_iff.1 yields
    obtain ⟨rfl, rfl⟩ := yields_pure_iff.1 rest
    have isKnown := named name (by simp [Declaration.names]) _
      (knows_of_enterPath_bind (built_declare name ty _).declaring checked)
    obtain ⟨_, wide', checked', widens'⟩ :=
      (mirrors_declare ty (by simp) widens isKnown).yields checked
    exact ⟨wide', yields_bind_iff.2 ⟨_, wide', checked', yields_pure_iff.2 ⟨rfl, rfl⟩⟩, widens'⟩
  | function name ty parameters body =>
    obtain ⟨_, _, checked, rest⟩ := yields_bind_iff.1 yields
    obtain ⟨rfl, rfl⟩ := yields_pure_iff.1 rest
    have isKnown := named name (by simp [Declaration.names]) _
      (knows_of_enterPath_bind (built_checkFunction name ty parameters body).declaring checked)
    obtain ⟨_, wide', checked', widens'⟩ :=
      (mirrors_checkFunction ty parameters body widens isKnown).yields checked
    exact ⟨wide', yields_bind_iff.2 ⟨_, wide', checked', yields_pure_iff.2 ⟨rfl, rfl⟩⟩, widens'⟩
  | data definition =>
    obtain ⟨certified, _, checked, rest⟩ := yields_bind_iff.1 yields
    obtain ⟨rfl, rfl⟩ := yields_pure_iff.1 rest
    obtain ⟨ownNamed, named⟩ := List.forall_mem_cons.1 named
    have isKnown :=
      ownNamed _ (knows_of_enterPath_bind (built_checkData definition).declaring checked)
    obtain ⟨wide', checked', widens'⟩ := wider_checkData widens keyed isKnown
      (fun declaration present => named _ (List.mem_map_of_mem present)) checked
    exact ⟨wide', yields_bind_iff.2 ⟨_, wide', checked', yields_pure_iff.2 ⟨rfl, rfl⟩⟩, widens'⟩

end CheckM

/-! ## Checkers that cite declarations only -/

namespace State

/-- The path is declared, or it was mentioned otherwise. -/
def Mentions (mentioned : Path → Prop) (state : State) (path : Path) : Prop :=
  mentioned path ∨ ∃ entry, state.signature.get? path = some entry

theorem CitesOnly.mono {state : State} (cites : state.CitesOnly known)
    (more : ∀ path, known path → known' path) :
    state.CitesOnly known' where
  level := more _ cites.level
  declared found := more _ (cites.declared found)
  types found := (cites.types found).mono more
  bodies found isFunction := (cites.bodies found isFunction).mono more
  placeholders found := (cites.placeholders found).mono more
  solutions {id solution} found := by
    have solutionCites := cites.solutions found
    cases solution with
    | term value => exact Phrase.CitesOnly.mono solutionCites more
    | sort value => exact Phrase.CitesOnly.mono solutionCites more

theorem citesOnly_initial (level : known Path.level) (size : known Path.size) :
    State.initial.CitesOnly known := by
  have empty : State.CitesOnly known ⟨.empty, [], [], .empty⟩ := by
    refine ⟨level, ?_, ?_, ?_, ?_, ?_⟩ <;> simp [solution?]
  have levelCites : Entry.CitesOnly known
      ⟨⟨Path.level, .classified (Universe.ofNat 1) (.univ (Universe.ofNat 0)), .postulate⟩,
        .complete⟩ :=
    ⟨⟨trivial, trivial⟩, by simp⟩
  have sizeCites : Entry.CitesOnly known
      ⟨⟨Path.size, .classified .omega (.univ .sizeUniv), .postulate⟩, .complete⟩ :=
    ⟨⟨trivial, trivial⟩, by simp⟩
  exact (empty.withEntry level levelCites).withEntry size sizeCites

end State

namespace Checker

variable {checker : Checker} {mentioned : Path → Prop}

theorem CitesOnly.mono (cites : checker.CitesOnly known) (more : ∀ path, known path → known' path) :
    checker.CitesOnly known' :=
  ⟨fun domain present => (cites.context domain present).mono more, cites.state.mono more⟩

/-- A checker is at least as wide as itself. -/
theorem CitesOnly.widens_self (cites : checker.CitesOnly known) :
    checker.Widens known (fun _ => none) checker where
  names := rfl
  options := rfl
  forcing := rfl
  fuel := rfl
  context := rfl
  scope := cites.context
  state :=
    { cites := cites.state
      placeholders := rfl
      constraints := rfl
      instances := rfl
      shared := fun _ => rfl
      own := fun {path} isUnknown => by
        cases found : checker.state.signature.get? path with
        | none => rfl
        | some entry => exact absurd (cites.state.declared found) isUnknown }

/-- Whatever is looked up in the checker cites declarations, or what was mentioned otherwise, and
the declarations stand under their own paths. -/
structure Closed (mentioned : Path → Prop) (checker : Checker) : Prop where
  keyed : checker.state.signature.Keyed
  cites : checker.CitesOnly (checker.state.Mentions mentioned)

theorem closed_initial (options : Options) (forcing : Forcing) (fuel : Nat) :
    (Checker.initial options forcing fuel).Closed mentioned where
  keyed := State.keyed_initial
  cites :=
    { context := fun _ absent => absurd absent (by simp [Checker.initial])
      state := State.citesOnly_initial (.inr ⟨_, rfl⟩) (.inr ⟨_, rfl⟩) }

/-- What was learned without a change of the scope is closed if it cites what could be cited
before. -/
theorem Closed.of_consults {later : Checker} (closed : checker.Closed mentioned)
    (consults : checker.Consults later)
    (cites : later.CitesOnly (checker.state.Mentions mentioned)) :
    later.Closed mentioned where
  keyed := consults.declares.registers.signature.keyed closed.keyed
  cites := by
    have sameSignature := consults.learns.state.grows.signature
    refine cites.mono fun path => ?_
    rw [State.Mentions, State.Mentions, sameSignature]
    exact id

end Checker

namespace CheckM

open Checker

variable {mentioned : Path → Prop}

/-- What is closed stays closed. -/
def closing (mentioned : Path → Prop) : Course Checker where
  Passes _ _ := True
  Follows before after := before.Closed mentioned → after.Closed mentioned
  refl _ := id
  trans earlier later closed := later (earlier closed)
  passes _ _ := trivial

theorem closing_checkDeclaration (declaration : Declaration) :
    Along (closing mentioned) (checkDeclaration declaration) := by
  intro checker
  refine ⟨fun _ _ => ⟨trivial, trivial⟩, trivial, fun closed => ?_, fun _ _ => trivial,
    fun _ _ => trivial⟩
  have declares := ((built_checkDeclaration declaration).declaring checker).follows
  have keyed := declares.registers.signature.keyed closed.keyed
  cases result : ((checkDeclaration declaration).run checker).result with
  | error failure =>
    have sameState := restores_checkDeclaration declaration checker failure result
    refine ⟨keyed, ?_, ?_⟩
    · rw [declares.context, sameState]
      exact closed.cites.context
    · rw [sameState]
      exact closed.cites.state
  | ok answer =>
    have yields := Yields.of_result result
    have continues := ((continuing_checkDeclaration declaration checker).follows closed.keyed).2
    have stays : ∀ path, checker.state.Mentions mentioned path →
        ((checkDeclaration declaration).run checker).state.state.Mentions mentioned path := by
      rintro path (isMentioned | ⟨entry, found⟩)
      · exact .inl isMentioned
      · obtain ⟨later, found', _⟩ := continues.entries path entry found
        exact .inr ⟨later, found'⟩
    have widens := (closed.cites.mono stays).widens_self
    obtain ⟨_, _, widens⟩ := wider_checkDeclaration widens closed.keyed
      (fun text present path knows => .inr (declares_names closed.keyed yields present knows))
        yields
    exact ⟨keyed, widens.cites⟩

theorem closing_mapM (declarations : List Declaration) :
    Along (closing mentioned) (declarations.mapM diagnoseDeclaration) := by
  refine .mapM (fun declaration checker => ?_) declarations
  have along : Along (closing mentioned) (checkDeclaration declaration) :=
    closing_checkDeclaration declaration
  exact ⟨(along checker).passed, trivial, (along checker).follows, fun _ _ => trivial,
    fun _ _ => trivial⟩

end CheckM

/-- The phrases of a call cite known declarations only. -/
def Call.CitesOnly (known : Path → Prop) : {α : Type} → Call α → Prop
  | _, elaborate _ => True
  | _, elaborateType _ => True
  | _, infer term => term.CitesOnly known
  | _, inferSort term => term.CitesOnly known
  | _, equalTerm left right => left.CitesOnly known ∧ right.CitesOnly known
  | _, equalType left right => left.CitesOnly known ∧ right.CitesOnly known
  | _, equalSort left right => left.CitesOnly known ∧ right.CitesOnly known
  | _, leqSort left right => left.CitesOnly known ∧ right.CitesOnly known
  | _, piSort domain codomain => domain.CitesOnly known ∧ codomain.CitesOnly known
  | _, freshSort _ => True
  | _, freshTerm ty => ty.CitesOnly known
  | _, declare _ => True
  | _, check _ => True

/-- A call whose phrases cite declarations leaves a checker that cites declarations. -/
theorem Call.closed (call : Call α) (closed : checker.Closed mentioned)
    (cites : call.CitesOnly (checker.state.Mentions mentioned)) :
    (call.computation.run checker).state.Closed mentioned := by
  have widens := closed.cites.widens_self
  have learned := fun query => closed.of_consults ((call.built query).consulting checker).follows
  cases call with
  | elaborate expression =>
    exact learned trivial (widens.lawful.elaborate (.inl trivial) widens).1
  | elaborateType expression =>
    exact learned trivial (widens.lawful.elaborateType (.inl trivial) widens).1
  | infer term =>
    exact learned trivial (widens.lawful.infer cites widens).1
  | inferSort term =>
    exact learned trivial (widens.lawful.inferSort cites widens).1
  | equalTerm left right =>
    exact learned trivial (widens.lawful.equalTerm cites.1 cites.2 widens).1
  | equalType left right =>
    exact learned trivial (widens.lawful.equalTerm cites.1.term cites.2.term widens).1
  | equalSort left right =>
    exact learned trivial (CheckM.mirrors_equalSort widens cites.1 cites.2).1
  | leqSort left right =>
    exact learned trivial (widens.lawful.leqSort cites.1 cites.2 widens).1
  | piSort domain codomain =>
    exact learned trivial (widens.lawful.piSort cites.1 cites.2 widens).1
  | freshSort belowOmega =>
    exact learned trivial (widens.lawful.freshSort belowOmega trivial widens).1
  | freshTerm ty =>
    exact learned trivial (widens.lawful.freshTerm trivial cites widens).1
  | declare declaration =>
    exact (CheckM.closing_checkDeclaration declaration checker).follows closed
  | check declarations =>
    rw [Call.computation, CheckM.state_checkDeclarations]
    exact (CheckM.closing_mapM declarations checker).follows closed

/-- Calls lead to the checker.  Their phrases cite declarations, or what is mentioned otherwise. -/
inductive Established (mentioned : Path → Prop) : Checker → Prop where
  | initial (options : Options) (forcing : Forcing) (fuel : Nat) :
      Established mentioned (Checker.initial options forcing fuel)
  | binds {checker : Checker} {domain : Domain} (established : Established mentioned checker)
      (cites : domain.ty.CitesOnly (checker.state.Mentions mentioned)) :
      Established mentioned { checker with context := domain :: checker.context }
  | leaves {checker : Checker} (established : Established mentioned checker) (count : Nat) :
      Established mentioned { checker with context := checker.context.truncate count }
  | ends {α : Type} {checker : Checker} (established : Established mentioned checker)
      (call : Call α)
      (cites : call.CitesOnly (checker.state.Mentions mentioned)) :
      Established mentioned (call.computation.run checker).state

theorem Established.closed (established : Established mentioned checker) :
    checker.Closed mentioned := by
  induction established with
  | initial options forcing fuel => exact Checker.closed_initial options forcing fuel
  | binds _ cites ih =>
    obtain ⟨keyed, context, state⟩ := ih
    exact ⟨keyed, List.forall_mem_cons.2 ⟨cites, context⟩, state⟩
  | leaves _ count ih =>
    obtain ⟨keyed, context, state⟩ := ih
    exact ⟨keyed, context.truncate count, state⟩
  | ends _ call cites ih => exact call.closed ih cites

/-! ## Additional declarations -/

/-- The entries are what is found. -/
theorem PathMap.mem_entries_iff {map : PathMap α} {entry : Path × α} :
    entry ∈ map.entries ↔ map.get? entry.1 = some entry.2 := by
  obtain ⟨entries, increasing⟩ := map
  simp only [get?]
  induction increasing with
  | nil => simp [find?]
  | @cons first rest smaller _ ih =>
    rw [List.mem_cons, ih, find?]
    split
    · rename_i same
      have absent : find? entry.1 rest = none := find?_eq_none (same ▸ smaller)
      rw [absent]
      simp [Prod.ext_iff, same, eq_comm]
    · rename_i different
      simp [Prod.ext_iff, different]

/-- Maps that find the same are the same. -/
theorem PathMap.eq_of_get?_eq {first second : PathMap α}
    (same : ∀ path, first.get? path = second.get? path) : first = second := by
  have nodup : ∀ map : PathMap α, map.entries.Nodup := by
    intro map
    refine map.increasing.imp fun {entry other} smaller => ?_
    rintro rfl
    exact Nat.lt_irrefl _ smaller
  have permuted : first.entries.Perm second.entries := by
    rw [List.perm_ext_iff_of_nodup (nodup first) (nodup second)]
    intro entry
    rw [mem_entries_iff, mem_entries_iff, same]
  have sameEntries : first.entries = second.entries :=
    permuted.eq_of_pairwise (fun _ _ _ _ smaller larger => absurd larger (Nat.lt_asymm smaller))
      first.increasing second.increasing
  cases first
  cases second
  rwa [PathMap.mk.injEq]

namespace Signature

variable {signature later other : Signature} {added : List Definition}

/-- Additional declarations get free paths, under which they stand from then on, and nothing else
changes. -/
theorem get?_of_registered (registered : added.foldlM register signature = .ok later) :
    (∀ definition ∈ added, signature.get? definition.path = none ∧
      later.get? definition.path = some ⟨definition, .complete⟩) ∧
      ∀ path, (∀ definition ∈ added, definition.path ≠ path) →
        later.get? path = signature.get? path := by
  induction added generalizing signature with
  | nil =>
    obtain rfl : signature = later := Except.ok.inj registered
    exact ⟨by simp, fun _ _ => rfl⟩
  | cons first rest ih =>
    rw [List.foldlM_cons] at registered
    cases isFirst : signature.register first with
    | error error =>
      rw [isFirst] at registered
      cases registered
    | ok middle =>
      rw [isFirst] at registered
      obtain ⟨free, rfl⟩ := register_eq_ok_iff.1 isFirst
      obtain ⟨restEntered, others⟩ := ih registered
      have different : ∀ definition ∈ rest, definition.path ≠ first.path := by
        intro definition present same
        have isFree := (restEntered definition present).1
        rw [PathMap.get?_insert, if_pos same] at isFree
        cases isFree
      refine ⟨List.forall_mem_cons.2 ⟨⟨free, ?_⟩, fun definition present => ⟨?_, ?_⟩⟩, ?_⟩
      · rw [others _ different, PathMap.get?_insert, if_pos rfl]
      · have isFree := (restEntered definition present).1
        rwa [PathMap.get?_insert, if_neg (different definition present)] at isFree
      · exact (restEntered definition present).2
      · intro path absent
        rw [List.forall_mem_cons] at absent
        rw [others path absent.2, PathMap.get?_insert, if_neg (Ne.symm absent.1)]

/-- Where their paths are free, the declarations can be added as well. -/
theorem exists_registered (registered : added.foldlM register signature = .ok later)
    (free : ∀ definition ∈ added, other.get? definition.path = none) :
    ∃ later', added.foldlM register other = .ok later' := by
  induction added generalizing signature other with
  | nil => exact ⟨other, rfl⟩
  | cons first rest ih =>
    rw [List.foldlM_cons] at registered
    obtain ⟨isFree, restFree⟩ := List.forall_mem_cons.1 free
    cases isFirst : signature.register first with
    | error error =>
      rw [isFirst] at registered
      cases registered
    | ok middle =>
      rw [isFirst] at registered
      obtain ⟨_, rfl⟩ := register_eq_ok_iff.1 isFirst
      rw [List.foldlM_cons, register_eq_ok_iff.2 ⟨isFree, rfl⟩]
      refine ih registered fun definition present => ?_
      have different : definition.path ≠ first.path := by
        intro same
        have taken := ((get?_of_registered registered).1 definition present).1
        rw [PathMap.get?_insert, if_pos same] at taken
        cases taken
      rw [PathMap.get?_insert, if_neg different]
      exact restFree definition present

end Signature

/-- With additional declarations under other names, a declaration is accepted as without them, with
the same answer and the same changes, and the additional declarations stay on top. -/
theorem checkDeclaration_with_more
    {mentioned : Path → Prop}
    {checker after : Checker}
    {added : List Definition}
    {signature : Signature}
    {declaration : Declaration}
    {answer : Option CertifiedDatatype}
    (established : Established mentioned checker)
    (unmentioned : ∀ definition ∈ added, ¬mentioned definition.path)
    (registered : added.foldlM Signature.register checker.state.signature = .ok signature)
    (accepted : Yields (CheckM.checkDeclaration declaration) checker answer after)
    (apart : ∀ text ∈ declaration.names, ∀ definition ∈ added,
      ¬after.names.Knows text definition.path) :
    ∃ signature', added.foldlM Signature.register after.state.signature = .ok signature' ∧
      Yields (CheckM.checkDeclaration declaration)
        { checker with state := { checker.state with signature } } answer
        { after with state := { after.state with signature := signature' } } := by
  obtain ⟨entered, others⟩ := Signature.get?_of_registered registered
  have closed := established.closed
  -- Whatever is not added may be cited.
  let known (path : Path) : Prop := ∀ definition ∈ added, definition.path ≠ path
  have cites : checker.CitesOnly known := by
    refine closed.cites.mono ?_
    rintro path (isMentioned | ⟨entry, found⟩) definition present rfl
    · exact unmentioned definition present isMentioned
    · cases (entered definition present).1.symm.trans found
  have widens : checker.Widens known signature.get?
      { checker with state := { checker.state with signature } } :=
    { cites.widens_self with
      state := { cites.widens_self.state with
        shared := fun isKnown => others _ isKnown
        own := fun _ => rfl } }
  have named : ∀ text ∈ declaration.names, ∀ path, after.names.Knows text path → known path := by
    rintro text present _ knows definition isAdded rfl
    exact apart text present definition isAdded knows
  obtain ⟨wide, accepted', widens'⟩ :=
    CheckM.wider_checkDeclaration widens closed.keyed named accepted
  have free : ∀ definition ∈ added, after.state.signature.get? definition.path = none := by
    intro definition present
    cases found : after.state.signature.get? definition.path with
    | none => rfl
    | some entry => exact absurd rfl (widens'.state.cites.declared found definition present)
  obtain ⟨signature', registered'⟩ := Signature.exists_registered registered free
  obtain ⟨entered', others'⟩ := Signature.get?_of_registered registered'
  refine ⟨signature', registered', ?_⟩
  have sameSignature : wide.state.signature = signature' := by
    refine PathMap.eq_of_get?_eq fun path => ?_
    by_cases isKnown : known path
    · rw [widens'.state.shared isKnown, others' path isKnown]
    · obtain ⟨definition, present, rfl⟩ : ∃ definition ∈ added, definition.path = path := by
        simpa [known] using isKnown
      rw [widens'.state.own isKnown, (entered definition present).2,
        (entered' definition present).2]
  have same : wide = { after with state := { after.state with signature := signature' } } := by
    obtain ⟨names, options, forcing, fuel, ⟨signature, placeholders, constraints, instances⟩,
      context⟩ := wide
    obtain ⟨sameNames, sameOptions, sameForcing, sameFuel, sameContext, _, states⟩ := widens'
    have samePlaceholders := states.placeholders
    have sameConstraints := states.constraints
    have sameInstances := states.instances
    simp_all
  rwa [← same]

/-- A function is added under a name that was refused before, and then a datatype is accepted. -/
theorem checkDeclaration_with_more_function :
    let checker := ((Call.check
        [.postulate "A" (.set 0), .postulate "B" (.const "missing")]).computation.run
      (Checker.initial {} .patterns 20)).state
    let added : Definition :=
      ⟨⟨3⟩, .classified (Universe.ofNat 1) (.univ (Universe.ofNat 0)),
        .function 0 (some (.const ⟨2⟩))⟩
    let constructor : ConstructorDeclaration :=
      { name := "c", ty := .arrow (.const "A") (.const "D"), isInstance := true }
    let family : Declaration :=
      .data { name := "D", ty := some (.set 0), constructors := [constructor] }
    let certified : CertifiedDatatype :=
      { path := ⟨5⟩
        datatype := ⟨0, 0, Universe.ofNat 0, .ind, [⟨6⟩], .empty, .empty, true⟩
        constructors := [(⟨6⟩, ⟨⟨5⟩, 0, 1, .ind, [false]⟩)] }
    let after := ((CheckM.checkDeclaration family).run checker).state
    checker.names.Knows "B" added.path ∧
      ∃ signature signature',
        [added].foldlM Signature.register checker.state.signature = .ok signature ∧
        [added].foldlM Signature.register after.state.signature = .ok signature' ∧
        Yields (CheckM.checkDeclaration family)
          { checker with state := { checker.state with signature } } (some certified)
          { after with state := { after.state with signature := signature' } } := by
  intro checker added constructor family certified after
  have established : Established (fun _ => False) checker :=
    .ends (.initial {} .patterns 20) (.check _) trivial
  have registered : [added].foldlM Signature.register checker.state.signature =
      .ok (checker.state.signature.insert ⟨3⟩ ⟨added, .complete⟩) := rfl
  have accepted : Yields (CheckM.checkDeclaration family) checker (some certified) after :=
    .of_result (by decide +kernel)
  have knows : checker.names.Knows "B" added.path := by
    unfold NameTable.Knows
    decide +kernel
  have apart : ∀ text ∈ family.names, ∀ definition ∈ [added],
      ¬after.names.Knows text definition.path := by
    unfold NameTable.Knows
    decide +kernel
  obtain ⟨signature', registered', accepted'⟩ :=
    checkDeclaration_with_more established (by simp) registered accepted apart
  exact ⟨knows, _, signature', registered, registered', accepted'⟩

end Families
