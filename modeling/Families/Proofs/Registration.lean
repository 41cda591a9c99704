import Families.Proofs.Learning

/-!
# Changes of the signature

The signature grows by complete declarations under free paths, and by datatypes that are pending
while their constructors are checked.  Whatever happens, every declaration stands under its own
path, names keep their numbers, and the variables in scope stay in scope.
-/

namespace Families

variable {path : Path} {text : String} {definition : Definition} {α : Type}
variable {computation body : CheckM α} {texts : List String} {names : List Name} {kind : Kind}
variable {change : Signature → Except SignatureError Signature}

/-! ## Names that are known -/

namespace NameTable

variable {table later : NameTable}

/-- A text has been entered as a path. -/
def Knows (table : NameTable) (text : String) (path : Path) : Prop :=
  table.enterPath text = (path, table)

/-- What is found in a list is found at the same place in a longer one. -/
theorem idxOf?_append_of_found [BEq α] {short long : List α} {element : α} {position : Nat}
    (grows : short <+: long) (found : short.idxOf? element = some position) :
    long.idxOf? element = some position := by
  obtain ⟨rest, rfl⟩ := grows
  simp only [List.idxOf?, List.findIdx?_append] at found ⊢
  rw [found, Option.some_or]

/-- A new element is found at the end. -/
theorem idxOf?_append_self [BEq α] [LawfulBEq α] {list : List α} {element : α}
    (absent : list.idxOf? element = none) :
    (list ++ [element]).idxOf? element = some list.length := by
  simp only [List.idxOf?, List.findIdx?_append] at absent ⊢
  simp [absent]

theorem enterName_eq_iff {name : Name} :
    table.enterName text = (name, table) ↔ table.texts.idxOf? text = some name.id := by
  unfold enterName
  split
  · rename_i position found
    rw [found, Prod.mk.injEq, Name.ext_iff, Option.some.injEq]
    simp
  · rename_i absent
    rw [absent, Prod.mk.injEq]
    refine iff_of_false ?_ (by simp)
    rintro ⟨_, same⟩
    simpa using congrArg (·.texts.length) same

theorem idxOf?_enterName (table : NameTable) (text : String) :
    (table.enterName text).2.texts.idxOf? text = some (table.enterName text).1.id := by
  unfold enterName
  split
  · assumption
  · rename_i absent
    exact idxOf?_append_self absent

/-- The texts are known by the names. -/
def KnowsNames (table : NameTable) (texts : List String) (names : List Name) : Prop :=
  List.Forall₂ (fun text name => table.texts.idxOf? text = some name.id) texts names

theorem KnowsNames.mono (knows : table.KnowsNames texts names) (grows : table.Grows later) :
    later.KnowsNames texts names :=
  List.Forall₂.imp (fun _ _ => idxOf?_append_of_found grows.texts) knows

theorem knowsNames_enterNames (table : NameTable) (texts : List String) :
    (table.enterNames texts).2.KnowsNames texts (table.enterNames texts).1 := by
  induction texts generalizing table with
  | nil => exact .nil
  | cons text texts ih =>
    refine .cons ?_ (ih (table.enterName text).2)
    exact idxOf?_append_of_found (grows_enterNames _ texts).texts (table.idxOf?_enterName text)

theorem KnowsNames.enterNames (knows : table.KnowsNames texts names) :
    table.enterNames texts = (names, table) := by
  induction knows with
  | nil => rfl
  | cons first _ ih =>
    simp only [NameTable.enterNames, enterName_eq_iff.2 first, ih]

theorem enterSegments_eq_iff {segments : List Name} :
    table.enterSegments segments = (path, table) ↔
      table.paths.idxOf? segments = some path.id := by
  unfold enterSegments
  split
  · rename_i position found
    rw [found, Prod.mk.injEq, Path.ext_iff, Option.some.injEq]
    simp
  · rename_i absent
    rw [absent, Prod.mk.injEq]
    refine iff_of_false ?_ (by simp)
    rintro ⟨_, same⟩
    simpa using congrArg (·.paths.length) same

theorem idxOf?_enterSegments (table : NameTable) (segments : List Name) :
    (table.enterSegments segments).2.paths.idxOf? segments =
      some (table.enterSegments segments).1.id := by
  unfold enterSegments
  split
  · assumption
  · rename_i absent
    exact idxOf?_append_self absent

theorem Grows.antisymm (forth : table.Grows later) (back : later.Grows table) : table = later := by
  obtain ⟨texts, paths⟩ := table
  congr 1
  · exact forth.texts.eq_of_length (forth.texts.length_le.antisymm back.texts.length_le)
  · exact forth.paths.eq_of_length (forth.paths.length_le.antisymm back.paths.length_le)

/-- A path is known when its segments are known and stand among the paths. -/
theorem knows_iff :
    table.Knows text path ↔ ∃ segments,
      table.KnowsNames ((Path.split text.toList).map String.ofList) segments ∧
        table.paths.idxOf? segments = some path.id := by
  unfold Knows enterPath
  generalize (Path.split text.toList).map String.ofList = texts
  constructor
  · intro entered
    -- The table comes back, so that neither step added anything to it.
    have back : (table.enterNames texts).2.Grows table := by
      have grows := grows_enterSegments (table.enterNames texts).2 (table.enterNames texts).1
      simp only at entered
      rwa [entered] at grows
    have same := (table.grows_enterNames texts).antisymm back
    have known := table.knowsNames_enterNames texts
    simp only [← same] at known entered
    exact ⟨_, known, enterSegments_eq_iff.1 entered⟩
  · rintro ⟨segments, known, found⟩
    simp only [known.enterNames, enterSegments_eq_iff.2 found]

theorem Knows.mono (knows : table.Knows text path) (grows : table.Grows later) :
    later.Knows text path := by
  obtain ⟨segments, known, found⟩ := knows_iff.1 knows
  exact knows_iff.2 ⟨segments, known.mono grows, idxOf?_append_of_found grows.paths found⟩

/-- Entering a path makes it known. -/
theorem knows_enterPath (table : NameTable) (text : String) :
    (table.enterPath text).2.Knows text (table.enterPath text).1 :=
  knows_iff.2 ⟨_, (table.knowsNames_enterNames _).mono (grows_enterSegments _ _),
    idxOf?_enterSegments _ _⟩

end NameTable

/-! ## Changes -/

/-- The declaration is complete and more than a datatype's type. -/
def Entry.IsFinal (entry : Entry) : Prop :=
  entry.phase = .complete ∧ entry.definition.kind ≠ .dataSignature

namespace Signature

variable {signature later : Signature}

/-- Every declaration stands under its own path. -/
def Keyed (signature : Signature) : Prop :=
  ∀ path entry, signature.get? path = some entry → entry.definition.path = path

theorem Keyed.insert {entry : Entry} (keyed : signature.Keyed)
    (own : entry.definition.path = path) : Keyed (signature.insert path entry) := by
  intro other found isFound
  rw [PathMap.get?_insert] at isFound
  split at isFound
  · rename_i same
    rw [same, ← Option.some.inj isFound, own]
  · exact keyed other found isFound

/-- Final declarations stay as they are, and all declarations still stand under their own paths. -/
structure Keeps (before after : Signature) : Prop where
  keyed : before.Keyed → after.Keyed
  final : ∀ path entry, before.get? path = some entry → entry.IsFinal → after.get? path = some entry

theorem Keeps.refl (signature : Signature) : signature.Keeps signature :=
  ⟨id, fun _ _ found _ => found⟩

theorem Keeps.trans {first second third : Signature} (earlier : first.Keeps second)
    (later : second.Keeps third) : first.Keeps third :=
  ⟨later.keyed ∘ earlier.keyed, fun path entry found isFinal =>
    later.final path entry (earlier.final path entry found isFinal) isFinal⟩

theorem keeps_insert {entry : Entry} (own : signature.Keyed → entry.definition.path = path)
    (unfinished : ∀ old, signature.get? path = some old → ¬old.IsFinal) :
    signature.Keeps (signature.insert path entry) := by
  refine ⟨fun keyed => keyed.insert (own keyed), fun other old found isFinal => ?_⟩
  rw [PathMap.get?_insert, if_neg]
  · exact found
  · rintro rfl
    exact unfinished old found isFinal

theorem register_eq_ok_iff :
    signature.register definition = .ok later ↔
      signature.get? definition.path = none ∧
        later = signature.insert definition.path ⟨definition, .complete⟩ := by
  unfold register
  split
  · rename_i taken
    simp [taken]
  · rename_i free
    simp [free, eq_comm]

theorem registerPending_eq_ok_iff :
    signature.registerPending definition = .ok later ↔
      (∀ entry, signature.get? definition.path = some entry →
        entry.definition.kind = .dataSignature ∧ entry.phase = .complete) ∧
        later = signature.insert definition.path ⟨definition, .pending⟩ := by
  unfold registerPending
  split
  · rename_i free
    simp [free, eq_comm]
  · rename_i declared
    simp [declared, eq_comm]
  · rename_i entry other taken
    refine iff_of_false (by simp) ?_
    rintro ⟨allowed, _⟩
    obtain ⟨⟨path, ty, kind⟩, phase⟩ := entry
    obtain ⟨rfl, rfl⟩ := allowed _ taken
    exact other path ty rfl

theorem complete_eq_ok_iff :
    signature.complete path kind = .ok later ↔
      ∃ definition, signature.get? path = some ⟨definition, .pending⟩ ∧
        later = signature.insert path ⟨{ definition with kind }, .complete⟩ := by
  unfold complete
  split
  · rename_i free
    simp [free]
  · rename_i finished
    simp [finished]
  · rename_i definition pending
    simp [pending, eq_comm]

end Signature

/-- The state with another entry in its signature. -/
def State.withEntry (state : State) (path : Path) (entry : Entry) : State :=
  { state with signature := state.signature.insert path entry }

/-! ## Computations that answer -/

section Yields

variable {ε σ α β : Type} {before after : σ} {value : α}

/-- From a state, the computation answers with a value and leaves another state. -/
def Yields (computation : Attempt ε σ α) (before : σ) (value : α) (after : σ) : Prop :=
  (computation.run before).result = .ok value ∧ (computation.run before).state = after

theorem Yields.of_result {computation : Attempt ε σ α}
    (answered : (computation.run before).result = .ok value) :
    Yields computation before value (computation.run before).state :=
  ⟨answered, rfl⟩

theorem Yields.unique {computation : Attempt ε σ α} {after' : σ} {value' : α}
    (yields : Yields computation before value after)
    (yields' : Yields computation before value' after') : value = value' ∧ after = after' :=
  ⟨Except.ok.inj (yields.1.symm.trans yields'.1), yields.2.symm.trans yields'.2⟩

@[simp]
theorem yields_pure_iff {answer : α} :
    Yields (pure answer : Attempt ε σ α) before value after ↔ answer = value ∧ before = after := by
  simp [Yields]

@[simp]
theorem yields_bind_iff {first : Attempt ε σ β} {next : β → Attempt ε σ α} :
    Yields (first >>= next) before value after ↔
      ∃ answer middle,
        Yields first before answer middle ∧ Yields (next answer) middle value after := by
  unfold Yields
  cases answered : (first.run before).result with
  | error failure =>
    rw [Attempt.run_bind_of_error answered]
    simp
  | ok answer =>
    rw [Attempt.run_bind_of_ok answered]
    simp

@[simp]
theorem yields_get_iff {answer : σ} :
    Yields (MonadState.get : Attempt ε σ σ) before answer after ↔
      before = answer ∧ before = after := by
  simp [Yields, MonadState.get, getThe, MonadStateOf.get]

@[simp]
theorem yields_lift_iff {halting : Except Halt α} :
    Yields (monadLift halting : Attempt ε σ α) before value after ↔
      halting = .ok value ∧ before = after := by
  cases halting <;>
    simp [Yields, monadLift, MonadLift.monadLift, Attempt.ofHalting, Attempt.halt, Attempt.refuse]

@[simp]
theorem not_yields_fail {error : ε} :
    ¬ Yields (Attempt.fail error : Attempt ε σ α) before value after := by
  simp [Yields, Attempt.fail, Attempt.refuse]

@[simp]
theorem not_yields_halt {reason : Halt} :
    ¬ Yields (Attempt.halt reason : Attempt ε σ α) before value after := by
  simp [Yields, Attempt.halt, Attempt.refuse]

/-- A computation on a course leaves a state that may be left. -/
theorem Along.follows {course : Course σ} {computation : Attempt ε σ α}
    (along : Along course computation) (yields : Yields computation before value after) :
    course.Follows before after :=
  yields.2 ▸ (along before).follows

end Yields

namespace CheckM

variable {α : Type} {before after : Checker} {value : α}

theorem Built.consults {computation : CheckM α} (built : Built ⟨True, False⟩ false computation)
    (yields : Yields computation before value after) : before.Consults after :=
  built.consulting.follows yields

theorem Built.learns {computation : CheckM α} (built : Built ⟨True, False⟩ true computation)
    (yields : Yields computation before value after) : before.Learns after :=
  built.learning.follows yields

theorem yields_enterPath_iff :
    Yields (enterPath text) before path after ↔
      (before.names.enterPath text).1 = path ∧
        { before with names := (before.names.enterPath text).2 } = after := by
  simp [Yields, enterPath, modifyGet, MonadStateOf.modifyGet, MonadState.modifyGet]

theorem yields_modifyState_iff {change : State → State} {answer : Unit} :
    Yields (modifyState change) before answer after ↔
      { before with state := change before.state } = after := by
  simp [Yields, modifyState, modify, modifyGet, MonadStateOf.modifyGet, MonadState.modifyGet]

theorem yields_updateSignature_iff :
    Yields (updateSignature change) before () after ↔
      ∃ signature, change before.state.signature = .ok signature ∧
        { before with state := { before.state with signature } } = after := by
  unfold updateSignature
  simp only [yields_bind_iff, yields_get_iff]
  constructor
  · rintro ⟨_, _, ⟨rfl, rfl⟩, changed⟩
    split at changed
    · exact absurd changed not_yields_fail
    · rename_i signature accepted
      exact ⟨signature, accepted, yields_modifyState_iff.1 changed⟩
  · rintro ⟨signature, accepted, same⟩
    refine ⟨before, before, ⟨rfl, rfl⟩, ?_⟩
    rw [accepted]
    exact yields_modifyState_iff.2 same

theorem yields_register_iff :
    Yields (register definition) before () after ↔
      before.state.signature.get? definition.path = none ∧
        { before with state := before.state.withEntry definition.path ⟨definition, .complete⟩ } =
          after := by
  unfold register
  rw [yields_updateSignature_iff]
  constructor
  · rintro ⟨_, registered, rfl⟩
    obtain ⟨free, rfl⟩ := Signature.register_eq_ok_iff.1 registered
    exact ⟨free, rfl⟩
  · rintro ⟨free, rfl⟩
    exact ⟨_, Signature.register_eq_ok_iff.2 ⟨free, rfl⟩, rfl⟩

theorem yields_registerPending_iff :
    Yields (updateSignature (Signature.registerPending · definition)) before () after ↔
      (∀ entry, before.state.signature.get? definition.path = some entry →
        entry.definition.kind = .dataSignature ∧ entry.phase = .complete) ∧
        { before with state := before.state.withEntry definition.path ⟨definition, .pending⟩ } =
          after := by
  rw [yields_updateSignature_iff]
  constructor
  · rintro ⟨_, registered, rfl⟩
    obtain ⟨declared, rfl⟩ := Signature.registerPending_eq_ok_iff.1 registered
    exact ⟨declared, rfl⟩
  · rintro ⟨declared, rfl⟩
    exact ⟨_, Signature.registerPending_eq_ok_iff.2 ⟨declared, rfl⟩, rfl⟩

theorem yields_complete_iff :
    Yields (updateSignature (Signature.complete · path kind)) before () after ↔
      ∃ definition, before.state.signature.get? path = some ⟨definition, .pending⟩ ∧
        { before with
          state := before.state.withEntry path ⟨{ definition with kind }, .complete⟩ } = after := by
  rw [yields_updateSignature_iff]
  constructor
  · rintro ⟨_, completed, rfl⟩
    obtain ⟨definition, pending, rfl⟩ := Signature.complete_eq_ok_iff.1 completed
    exact ⟨definition, pending, rfl⟩
  · rintro ⟨definition, pending, rfl⟩
    exact ⟨_, Signature.complete_eq_ok_iff.2 ⟨definition, pending, rfl⟩, rfl⟩

theorem yields_restoreScope_iff {body : CheckM α} :
    Yields (restoreScope body) before value after ↔
      ∃ inner, Yields body before value inner ∧
        { inner with context := inner.context.truncate before.context.length } = after := by
  simp [Yields, restoreScope, Attempt.settle]

/-- A computation that succeeds is not undone. -/
theorem yields_speculate_iff {body : CheckM α} :
    Yields (speculate body) before value after ↔ Yields body before value after := by
  unfold Yields speculate Attempt.settle
  refine and_congr_right fun answered => ?_
  simp only at answered
  simp [answered, Except.isOk, Except.toBool]

end CheckM

/-! ## Computations that change the signature -/

namespace Checker

/-- The checker knows all names and final declarations that it knew, and it may have more variables
in scope. -/
structure Registers (before after : Checker) : Prop where
  names : before.names.Grows after.names
  options : after.options = before.options
  forcing : after.forcing = before.forcing
  fuel : after.fuel = before.fuel
  signature : before.state.signature.Keeps after.state.signature
  context : before.context <:+ after.context

/-- The same, with the same variables in scope. -/
structure Declares (before after : Checker) : Prop where
  registers : before.Registers after
  context : after.context = before.context

theorem Registers.refl (checker : Checker) : checker.Registers checker :=
  ⟨.refl _, rfl, rfl, rfl, .refl _, List.suffix_refl _⟩

theorem Registers.trans {first second third : Checker} (earlier : first.Registers second)
    (later : second.Registers third) :
    first.Registers third where
  names := earlier.names.trans later.names
  options := later.options.trans earlier.options
  forcing := later.forcing.trans earlier.forcing
  fuel := later.fuel.trans earlier.fuel
  signature := earlier.signature.trans later.signature
  context := earlier.context.trans later.context

theorem Declares.refl (checker : Checker) : checker.Declares checker :=
  ⟨.refl checker, rfl⟩

theorem Declares.trans {first second third : Checker} (earlier : first.Declares second)
    (later : second.Declares third) : first.Declares third :=
  ⟨earlier.registers.trans later.registers, later.context.trans earlier.context⟩

theorem Learns.registers {before after : Checker} (learns : before.Learns after) :
    before.Registers after :=
  { learns with signature := learns.state.grows.signature ▸ .refl _ }

theorem Consults.declares {before after : Checker} (consults : before.Consults after) :
    before.Declares after :=
  ⟨consults.learns.registers, consults.context⟩

/-- A change of the signature alone. -/
theorem declares_of_state {checker : Checker} {state : State}
    (keeps : checker.state.signature.Keeps state.signature) :
    checker.Declares { checker with state } :=
  ⟨⟨.refl _, rfl, rfl, rfl, keeps, List.suffix_refl _⟩, rfl⟩

/-- Going back to an earlier state keeps the names that were entered since. -/
theorem Declares.restore {before after : Checker} (declares : before.Declares after) :
    before.Declares { after with state := before.state } :=
  ⟨{ declares.registers with signature := .refl _ }, declares.context⟩

theorem Registers.truncate {before after : Checker} (registers : before.Registers after) :
    before.Declares { after with context := after.context.truncate before.context.length } := by
  obtain ⟨added, isContext⟩ := registers.context
  rw [← isContext, Context.truncate_append]
  exact ⟨{ registers with context := List.suffix_refl _ }, rfl⟩

end Checker

namespace CheckM

open Checker

variable {α : Type}

/-- Declarations may be added, and variables may come into scope. -/
def registering : Course Checker :=
  .ofRelation Registers Registers.refl Registers.trans

/-- Declarations may be added, and in the end the same variables are in scope. -/
def declaring : Course Checker where
  Passes := Registers
  Follows := Declares
  refl := Declares.refl
  trans := Declares.trans
  passes declares registers := declares.registers.trans registers

/-- The computation keeps names, scope and the paths of declarations. -/
abbrev Registering (computation : CheckM α) : Prop :=
  Along registering computation

/-- The computation keeps names, scope and the paths of declarations, and leaves the scope as it
was. -/
abbrev Declaring (computation : CheckM α) : Prop :=
  Along declaring computation

theorem Declaring.registering (declaring : Declaring computation) : Registering computation :=
  declaring.weaken id Declares.registers

theorem declaring_updateSignature
    (keeps : ∀ {signature later}, change signature = .ok later → signature.Keeps later) :
    Declaring (updateSignature change) := by
  intro checker
  apply Respects.get_bind
  split
  · exact .fail trivial
  · rename_i signature accepted
    have declares : checker.Declares
        { checker with state := { checker.state with signature } } :=
      declares_of_state (keeps accepted)
    exact .modify trivial declares.registers declares trivial

theorem declaring_register (definition : Definition) : Declaring (register definition) := by
  apply declaring_updateSignature
  intro signature later registered
  obtain ⟨isFree, rfl⟩ := Signature.register_eq_ok_iff.1 registered
  exact Signature.keeps_insert (fun _ => rfl) (by simp [isFree])

theorem declaring_registerPending (definition : Definition) :
    Declaring (updateSignature (Signature.registerPending · definition)) := by
  apply declaring_updateSignature
  intro signature later registered
  obtain ⟨declared, rfl⟩ := Signature.registerPending_eq_ok_iff.1 registered
  exact Signature.keeps_insert (fun _ => rfl) fun old found isFinal =>
    isFinal.2 (declared old found).1

theorem declaring_complete (path : Path) (kind : Kind) :
    Declaring (updateSignature (Signature.complete · path kind)) := by
  apply declaring_updateSignature
  intro signature later completed
  obtain ⟨definition, pending, rfl⟩ := Signature.complete_eq_ok_iff.1 completed
  have own : signature.Keyed → definition.path = path := fun keyed => keyed path _ pending
  refine Signature.keeps_insert own fun old found isFinal => ?_
  obtain rfl := Option.some.inj (pending.symm.trans found)
  cases isFinal.1

theorem declaring_restoreScope (registering : Registering body) : Declaring (restoreScope body) :=
  registering.settle id fun _ registers => ⟨registers.truncate.registers, registers.truncate⟩

theorem declaring_speculate (declaring : Declaring body) : Declaring (speculate body) := by
  refine declaring.settle id fun {before later} succeeded declares => ?_
  cases succeeded with
  | true => exact ⟨declares.registers, declares⟩
  | false =>
    have restored := declares.registers.truncate.restore
    exact ⟨restored.registers, restored⟩

/-! ## Declarations -/

/-- The courses of computations that declare. -/
def registeringOr : Bool → Course Checker
  | true => registering
  | false => declaring

theorem routes_registering : Routes ⟨True, True⟩ registeringOr where
  passes := by rintro (_ | _) _ _ learns <;> exact learns.registers
  follows := by
    rintro (_ | _) _ _ consults
    · exact consults.declares
    · exact consults.learns.registers
  opens := Declaring.registering
  push domain := (learning_push domain).weaken Learns.registers Learns.registers
  restoreScope := declaring_restoreScope
  localState along := along.settle id fun _ declares =>
    ⟨declares.restore.registers, declares.restore⟩
  addInstance _ datatype constructor checker := by
    have declares : checker.Declares
        { checker with state := checker.state.addInstance datatype constructor } :=
      declares_of_state (.refl _)
    exact .modify trivial declares.registers declares trivial
  register _ := declaring_register
  registerPending _ := declaring_registerPending
  complete _ := declaring_complete
  speculate _ := declaring_speculate

theorem Built.declaring (built : Built ⟨True, True⟩ false computation) : Declaring computation :=
  built.along routes_registering

theorem declaring_diagnoseDeclaration (declaration : Declaration) :
    Declaring (diagnoseDeclaration declaration) := by
  intro checker
  have respects := (built_checkDeclaration declaration).declaring checker
  exact ⟨respects.passed, trivial, respects.follows, fun _ _ => trivial, fun _ _ => trivial⟩

theorem declaring_checkDeclarations (declarations : List Declaration) :
    Declaring (checkDeclarations declarations) := by
  refine (Along.mapM declaring_diagnoseDeclaration declarations).bind fun results => ?_
  exact .get_bind fun checker => .lift_bind fun unsolved => .pure _

end CheckM
end Families
