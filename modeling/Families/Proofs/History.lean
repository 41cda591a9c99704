import Families.Proofs.Reachability
import Families.Proofs.Transactions

/-!
# The history of a checker

Whatever declarations are checked, accepted or refused, all that a reachable checker knew stays
known.  Only the declaration of a datatype's type may become the datatype, so that every path gets
its final definition at most once.
-/

namespace Families

variable {checker : Checker} {before after : State} {α : Type}

/-! ## What remains -/

/-- An entry stays as it is, or the declaration of a datatype's type becomes the datatype. -/
def Entry.Becomes (earlier later : Entry) : Prop :=
  later = earlier ∨ earlier.definition.kind = .dataSignature ∧
    ∃ datatype, later = ⟨{ earlier.definition with kind := .datatype datatype }, .complete⟩

theorem Entry.Becomes.trans {first second third : Entry} (earlier : first.Becomes second)
    (later : second.Becomes third) : first.Becomes third := by
  rcases later with rfl | ⟨isSignature, datatype, rfl⟩
  · exact earlier
  · rcases earlier with rfl | ⟨_, _, rfl⟩
    · exact .inr ⟨isSignature, datatype, rfl⟩
    · cases isSignature

/-- A final entry stays as it is. -/
theorem Entry.IsFinal.eq_of_becomes {earlier later : Entry} (isFinal : earlier.IsFinal)
    (becomes : earlier.Becomes later) : later = earlier :=
  becomes.resolve_right fun other => isFinal.2 other.1

/-- The path gets its final definition between the two signatures. -/
def Signature.Finalises (before after : Signature) (path : Path) : Prop :=
  ∃ entry, after.get? path = some entry ∧ entry.IsFinal ∧ before.get? path ≠ some entry

namespace State

/-- All that was known is known. -/
structure Continues (before after : State) : Prop where
  /-- Declarations stay, or become the datatypes whose types they declare. -/
  entries : ∀ path entry, before.signature.get? path = some entry →
    ∃ later, after.signature.get? path = some later ∧ entry.Becomes later
  /-- Placeholders, their solutions and postponed comparisons are still there. -/
  remembers : before.Remembers after
  instances : ∀ datatype, before.instancesOf datatype <+: after.instancesOf datatype

theorem Continues.refl (state : State) : state.Continues state :=
  ⟨fun _ entry found => ⟨entry, found, .inl rfl⟩, .refl state, fun _ => List.prefix_refl _⟩

theorem Continues.trans {first second third : State} (earlier : first.Continues second)
    (later : second.Continues third) :
    first.Continues third where
  entries := by
    intro path entry found
    obtain ⟨middle, foundMiddle, becomes⟩ := earlier.entries path entry found
    obtain ⟨last, foundLast, becomes'⟩ := later.entries path middle foundMiddle
    exact ⟨last, foundLast, becomes.trans becomes'⟩
  remembers := earlier.remembers.trans later.remembers
  instances datatype := (earlier.instances datatype).trans (later.instances datatype)

/-- A final entry is found again. -/
theorem Continues.get?_eq_of_isFinal {path : Path} {entry : Entry}
    (continues : before.Continues after) (found : before.signature.get? path = some entry)
    (isFinal : entry.IsFinal) : after.signature.get? path = some entry := by
  obtain ⟨later, foundLater, becomes⟩ := continues.entries path entry found
  rw [foundLater, isFinal.eq_of_becomes becomes]

/-- What is known of functions and constructors stays. -/
theorem Continues.preserves (continues : before.Continues after) : before.Preserves after := by
  refine continues.remembers.preserves fun path entry found => ?_
  obtain ⟨later, foundLater, rfl | ⟨isSignature, _⟩⟩ := continues.entries path entry found
  · exact .inl foundLater
  · obtain ⟨⟨own, ty, kind⟩, phase⟩ := entry
    obtain rfl : kind = _ := isSignature
    exact .inr (by simp [Signature.body?, Signature.constructor?, Signature.definition?, found])

end State

namespace CheckM

variable {before after : Checker}

theorem AddsDefinition.continues {kind : Kind} (adds : AddsDefinition kind before after) :
    before.state.Continues after.state := by
  obtain ⟨middle, path, ty, learns, free, rfl⟩ := adds
  have grows := learns.state.grows
  refine ⟨?_, ⟨grows.placeholders, grows.constraints⟩, ?_⟩
  · intro other entry found
    rw [← grows.signature] at found
    have different : other ≠ path := by
      rintro rfl
      cases free.symm.trans found
    refine ⟨entry, ?_, .inl rfl⟩
    simp only [State.get?_withEntry, if_neg different, found]
  · intro datatype
    have same : (middle.state.withEntry path ⟨⟨path, ty, kind⟩, .complete⟩).instancesOf datatype =
        before.state.instancesOf datatype :=
      congrArg (fun instances => (instances.get? datatype).getD []) learns.state.instances
    exact same ▸ List.prefix_refl _

theorem continues_of_addsDatatype {definition : DataDefinition} {ty : Ty}
    {certified : CertifiedDatatype} (adds : AddsDatatype definition ty before after certified)
    (keyed : before.state.signature.Keyed)
    (typed : ∀ entry, before.state.signature.get? certified.path = some entry →
      entry.definition.ty = ty) :
    before.state.Continues after.state := by
  have remembers := adds.constructors.remembers
  refine ⟨?_, ⟨remembers.placeholders, remembers.constraints⟩, ?_⟩
  · intro path entry found
    by_cases isDatatype : path = certified.path
    · subst isDatatype
      obtain ⟨isSignature, _⟩ := adds.declared entry found
      refine ⟨_, adds.entry, .inr ⟨isSignature, certified.datatype, ?_⟩⟩
      rw [CertifiedDatatype.entry, ← typed entry found, ← keyed _ entry found]
    · exact ⟨entry, adds.get?_of_ne found isDatatype, .inl rfl⟩
  · intro datatype
    by_cases isDatatype : datatype = certified.path
    · rw [isDatatype, adds.constructors.instances]
      exact List.prefix_append _ _
    · rw [adds.constructors.otherInstances datatype isDatatype]
      exact List.prefix_refl _

/-! ## Sequences of declarations -/

/-- Where declarations stand under their own paths, all that was known stays known. -/
def continuing : Course Checker where
  Passes _ _ := True
  Follows before after := before.state.signature.Keyed →
    after.state.signature.Keyed ∧ before.state.Continues after.state
  refl _ keyed := ⟨keyed, .refl _⟩
  trans earlier later keyed :=
    have first := earlier keyed
    have second := later first.1
    ⟨second.1, first.2.trans second.2⟩
  passes _ _ := trivial

theorem continuing_checkDeclaration (declaration : Declaration) :
    Along continuing (checkDeclaration declaration) := by
  intro checker
  refine ⟨fun _ _ => ⟨trivial, trivial⟩, trivial, fun keyed => ⟨?_, ?_⟩, fun _ _ => trivial,
    fun _ _ => trivial⟩
  · have registers := ((built_checkDeclaration declaration).declaring checker).follows.registers
    exact registers.signature.keyed keyed
  · cases result : ((checkDeclaration declaration).run checker).result with
    | error failure =>
      rw [restores_checkDeclaration declaration checker failure result]
      exact .refl checker.state
    | ok answer =>
      cases enters_checkDeclaration (.of_result result) with
      | definition _ _ _ adds => exact adds.continues
      | datatype adds _ typed => exact continues_of_addsDatatype adds keyed (typed keyed)

theorem continuing_diagnoseDeclaration (declaration : Declaration) :
    Along continuing (diagnoseDeclaration declaration) := by
  intro checker
  have respects := continuing_checkDeclaration declaration checker
  exact ⟨respects.passed, trivial, respects.follows, fun _ _ => trivial, fun _ _ => trivial⟩

theorem continuing_mapM (declarations : List Declaration) :
    Along continuing (declarations.mapM diagnoseDeclaration) :=
  .mapM continuing_diagnoseDeclaration declarations

/-- The warnings after the last declaration change nothing. -/
theorem state_checkDeclarations (declarations : List Declaration) (checker : Checker) :
    ((checkDeclarations declarations).run checker).state =
      ((declarations.mapM diagnoseDeclaration).run checker).state := by
  unfold checkDeclarations
  cases result : ((declarations.mapM diagnoseDeclaration).run checker).result with
  | error failure => rw [Attempt.run_bind_of_error result]
  | ok values =>
    rw [Attempt.run_bind_of_ok result, Attempt.run_get_bind]
    simp only
    generalize ((declarations.mapM diagnoseDeclaration).run checker).state = last
    cases unsolvedDefinitions last.state last.fuel <;> rfl

/-- More declarations continue what fewer of them left. -/
theorem continues_append (keyed : checker.state.signature.Keyed) (first last : List Declaration) :
    ((checkDeclarations first).run checker).state.state.Continues
      ((checkDeclarations (first ++ last)).run checker).state.state := by
  simp only [state_checkDeclarations, List.mapM_append]
  have firstKeyed := ((continuing_mapM first checker).follows keyed).1
  cases result : ((first.mapM diagnoseDeclaration).run checker).result with
  | error failure =>
    rw [Attempt.run_bind_of_error result]
    exact .refl _
  | ok values =>
    rw [Attempt.run_bind_of_ok result]
    have rest : Along continuing (last.mapM diagnoseDeclaration >>= fun more =>
        pure (values ++ more)) :=
      (continuing_mapM last).bind fun _ => .pure _
    exact ((rest _).follows firstKeyed).2

end CheckM

/-! ## Reachable checkers -/

theorem State.keyed_initial : State.initial.signature.Keyed := by
  have empty : Signature.Keyed .empty := by
    intro path entry found
    cases found
  simp only [State.initial, State.builtins, List.foldl_cons, List.foldl_nil]
  exact .insert (.insert empty rfl) rfl

/-- The call is about phrases and declares nothing. -/
def Call.IsQuery : {α : Type} → Call α → Prop
  | _, declare _ | _, check _ => False
  | _, _ => True

theorem Call.built {powers : CheckM.Powers} {scope : Bool} (call : Call α)
    (query : call.IsQuery) : CheckM.Built powers scope call.computation := by
  cases call with
  | elaborate expression => exact CheckM.built_elaborate expression
  | elaborateType expression => exact CheckM.built_elaborateType expression
  | infer term => exact CheckM.built_infer term
  | inferSort term => exact CheckM.built_inferSort term
  | equalTerm left right => exact CheckM.built_equalTerm left right
  | equalType left right => exact CheckM.built_equalType left right
  | equalSort left right => exact CheckM.built_equalSort left right
  | leqSort left right => exact CheckM.built_leqSort left right
  | piSort domain codomain => exact CheckM.built_piSort domain codomain
  | freshSort belowOmega => exact CheckM.built_freshSort belowOmega
  | freshTerm ty => exact CheckM.built_freshTerm ty
  | declare | check => exact query.elim

theorem Call.registering (call : Call α) : CheckM.Registering call.computation := by
  have queried := fun query => (call.built query).declaring.registering
  cases call with
  | declare declaration => exact (CheckM.built_checkDeclaration declaration).declaring.registering
  | check declarations => exact (CheckM.declaring_checkDeclarations declarations).registering
  | _ => exact queried trivial

/-- A reachable checker keeps the declarations that all checkers start from. -/
theorem Reachable.keeps (reachable : Reachable checker) :
    State.initial.signature.Keeps checker.state.signature := by
  induction reachable with
  | initial options forcing fuel => exact .refl _
  | binds _ _ ih => exact ih
  | leaves _ _ ih => exact ih
  | @passes _ checker later _ call _ passed ih =>
    have registers : checker.Registers later := ((call.registering checker).passed later passed).2
    exact ih.trans registers.signature
  | @ends _ checker _ call _ ih =>
    have registers : checker.Registers (call.computation.run checker).state :=
      (call.registering checker).follows
    exact ih.trans registers.signature

/-- The declarations of a reachable checker stand under their own paths. -/
theorem Reachable.keyed (reachable : Reachable checker) : checker.state.signature.Keyed :=
  reachable.keeps.keyed State.keyed_initial

/-- All that a reachable checker knew stays known whatever declarations are checked, and in their
course every path gets its final definition at most once. -/
theorem history_grows
    {checker : Checker}
    (reachable : Reachable checker)
    (declarations : List Declaration) :
    let stateAfter (count : Nat) : State :=
      ((CheckM.checkDeclarations (declarations.take count)).run checker).state.state
    checker.state.Continues
        ((CheckM.checkDeclarations declarations).run checker).state.state ∧
      ∀ path first second,
        (stateAfter first).signature.Finalises (stateAfter (first + 1)).signature path →
        (stateAfter second).signature.Finalises (stateAfter (second + 1)).signature path →
        first = second := by
  intro stateAfter
  have keyed := reachable.keyed
  have later : ∀ {early late}, early ≤ late → (stateAfter early).Continues (stateAfter late) := by
    intro early late ordered
    have split := List.take_append_drop early (declarations.take late)
    rw [List.take_take, Nat.min_eq_left ordered] at split
    have continues := CheckM.continues_append keyed (declarations.take early)
      ((declarations.take late).drop early)
    rwa [split] at continues
  -- What is final after one step is found again before the other.
  have once : ∀ path {early late}, early < late →
      (stateAfter early).signature.Finalises (stateAfter (early + 1)).signature path →
      ¬(stateAfter late).signature.Finalises (stateAfter (late + 1)).signature path := by
    rintro path early late ordered ⟨entry, found, isFinal, _⟩ ⟨other, foundOther, _, isNew⟩
    have before := (later ordered).get?_eq_of_isFinal found isFinal
    have after := (later (Nat.le_succ late)).get?_eq_of_isFinal before isFinal
    exact isNew (before.trans (after.symm.trans foundOther))
  constructor
  · have continues := CheckM.continues_append keyed [] declarations
    rwa [List.nil_append, CheckM.state_checkDeclarations []] at continues
  · intro path first second finalisesFirst finalisesSecond
    rcases Nat.lt_trichotomy first second with before | same | after
    · exact absurd finalisesSecond (once path before finalisesFirst)
    · exact same
    · exact absurd finalisesFirst (once path after finalisesSecond)

/-- A datatype whose type was declared before is defined, and a second definition is refused. -/
theorem history_grows_declared :
    let declared := (Call.check [.dataSignature "D" (.set 0)]).computation.run
      (Checker.initial {} .patterns 20)
    let constructor : ConstructorDeclaration :=
      { name := "c", ty := .const "D", isInstance := true }
    let declarations : List Declaration :=
      [.data { name := "D", constructors := [constructor] },
        .data { name := "D", ty := some (.set 0) }]
    let stateAfter (count : Nat) : State :=
      ((CheckM.checkDeclarations (declarations.take count)).run declared.state).state.state
    declared.state.state.Continues
        ((CheckM.checkDeclarations declarations).run declared.state).state.state ∧
      (stateAfter 0).signature.Finalises (stateAfter 1).signature ⟨2⟩ ∧
      ∀ count, (stateAfter count).signature.Finalises (stateAfter (count + 1)).signature ⟨2⟩ →
        count = 0 := by
  dsimp only
  have reachable : Reachable ((Call.check [.dataSignature "D" (.set 0)]).computation.run
      (Checker.initial {} .patterns 20)).state :=
    .ends (.initial {} .patterns 20) (.check [.dataSignature "D" (.set 0)]) rfl
  obtain ⟨continues, once⟩ := history_grows reachable
    [.data { name := "D", constructors := [{ name := "c", ty := .const "D", isInstance := true }] },
      .data { name := "D", ty := some (.set 0) }]
  refine (fun finalised => ⟨continues, finalised, fun count again =>
    once ⟨2⟩ count 0 again finalised⟩) ?_
  refine ⟨⟨⟨⟨2⟩, .classified (Universe.ofNat 1) (.univ (Universe.ofNat 0)),
    .datatype ⟨0, 0, Universe.ofNat 0, .ind, [⟨3⟩], .empty, .empty, true⟩⟩, .complete⟩, ?_⟩
  exact ⟨by decide +kernel, ⟨rfl, by simp⟩, by decide +kernel⟩

end Families
