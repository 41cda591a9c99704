import Families.Coinduction
import Families.Proofs.DataSorts
import Families.Proofs.Independence

/-!
# Coinduction is stable

Whether a type is coinductive is read off its head.  What a head tells definitely it tells after all
further calls too, and the normal form of a type tells the same.  A level, a constructor or an
unknown path at the head tells nothing.
-/

namespace Families

open Filter

variable {state before after : State} {term reduced : Term} {ty : Ty} {fuel : Nat} {path : Path}

/-! ## Answers -/

theorem isCoinductive_of_reduce (isReduced : reduce state fuel ty.term = .ok reduced) :
    isCoinductive state fuel ty = coinductionOfHead state reduced.head := by
  rw [isCoinductive, isReduced]
  rfl

/-- The head is of no use for a type. -/
inductive Misshapen (state : State) : Term → Fault → Prop where
  /-- It is a level. -/
  | level (bound : Level) : Misshapen state (.level bound) (.notAType (.level bound))
  /-- It is a constructor. -/
  | constructor {path own : Path} {ty : Ty} {constructor : Constructor} :
      state.signature.definition? path = some ⟨own, ty, .constructor constructor⟩ →
      Misshapen state (.const path) (.constructorAsType path)
  /-- It is not declared. -/
  | undeclared {path : Path} :
      state.signature.definition? path = none → Misshapen state (.const path) (.notInSignature path)

theorem misshapen_of_coinductionOfHead {fault : Fault} :
    ∀ {term : Term}, coinductionOfHead state term.head = .error (.fault fault) →
      Misshapen state term.head fault
  | .app function _ _, stopped => @misshapen_of_coinductionOfHead fault function stopped
  | .const path, stopped => by
    simp only [Phrase.head, coinductionOfHead] at stopped ⊢
    split at stopped
    · cases stopped
      exact .undeclared ‹_›
    · rename_i definition found
      obtain ⟨own, ty, kind⟩ := definition
      cases kind with
      | constructor known =>
        cases stopped
        exact .constructor found
      | _ => cases stopped
  | .level bound, stopped => by
    cases stopped
    exact .level bound
  | .var _, stopped | .pi _ _ _ _, stopped | .univ _, stopped | .placeholder _ _, stopped => by
    cases stopped

theorem coinductionOfHead_eq_fault_iff {fault : Fault} :
    coinductionOfHead state term.head = .error (.fault fault) ↔
      Misshapen state term.head fault := by
  refine ⟨misshapen_of_coinductionOfHead, fun misshapen => ?_⟩
  generalize term.head = head at misshapen
  cases misshapen with
  | level => rfl
  | constructor found | undeclared found => simp only [coinductionOfHead, found]

theorem isCoinductive_eq_fault_iff {fault : Fault} :
    isCoinductive state fuel ty = .error (.fault fault) ↔
      ∃ reduced, reduce state fuel ty.term = .ok reduced ∧ Misshapen state reduced.head fault := by
  cases isReduced : reduce state fuel ty.term with
  | error reason =>
    have noFault := faultless_reduce state fuel ty.term fault
    have stopped : isCoinductive state fuel ty = .error reason := by
      rw [isCoinductive, isReduced]
      rfl
    rw [stopped]
    simpa [isReduced] using noFault
  | ok reduced => simp [isCoinductive_of_reduce isReduced, coinductionOfHead_eq_fault_iff]

/-! ## Normal forms -/

/-- A term that cannot be unfolded and its normal form tell the same, or are of no use both. -/
theorem HasNormalForm.coinductionOfHead {normal : Term}
    (hasNormalForm : HasNormalForm state term normal) (stuck : ∀ next, ¬Unfolds state term next) :
    (Families.coinductionOfHead state normal.head).toOption =
      (Families.coinductionOfHead state term.head).toOption := by
  have isApplied := term.applyTo_arguments
  have hasHead := (hasNormalForm.spine_of_stuck stuck).1
  generalize term.head = head at hasHead isApplied
  generalize normal.head = normalHead at hasHead
  cases hasHead with
  | step unfolds _ => exact absurd (isApplied ▸ unfolds.applyTo term.arguments) (stuck _)
  | _ => rfl

/-- The normal form of a type in scope tells the same as the type. -/
theorem eventually_isCoinductive_normalise {normal : Ty} {depth : Nat}
    (wellScoped : state.WellScoped) (inScope : ty.Scoped state.Fits depth)
    (normalised : normalise state fuel ty = .ok normal) :
    ∀ᶠ fuel in atTop,
      (isCoinductive state fuel normal).toOption = (isCoinductive state fuel ty).toOption := by
  have termNormalised := normalise_term normalised
  have normalises := (normalises_of_normalise wellScoped termNormalised inScope.term).1
  obtain ⟨_, reduced, isReduced, _⟩ := exists_of_normalise termNormalised
  have reduces := (reduces_of_reduce wellScoped isReduced inScope.term).1
  have told := (normalises.hasNormalForm.of_parallel reduces.parallel).coinductionOfHead
    fun _ => reduces.inert.not_unfolds
  filter_upwards [eventually_reduce isReduced,
    normalises.isNormal.inert_and_atoms.1.eventually_reduce] with fuel first again
  rw [isCoinductive_of_reduce first, isCoinductive_of_reduce again, told]

/-! ## Later answers -/

namespace State.Continues

/-- What the head tells definitely it tells later, and no step at the head is possible then. -/
theorem coinductionOfHead {answer : Bool} (continues : before.Continues after)
    (told : Families.coinductionOfHead before reduced.head = .ok (some answer)) :
    unfoldHead? after reduced = .ok none ∧
      Families.coinductionOfHead after reduced.head = .ok (some answer) := by
  cases isHead : reduced.head with
  | const path =>
    rw [isHead] at told
    cases found : before.signature.definition? path with
    | none => simp [Families.coinductionOfHead, found] at told
    | some definition =>
      obtain ⟨entry, isEntry, rfl⟩ := Option.map_eq_some_iff.1 found
      -- Only a datatype that is still being checked could become something else.
      obtain ⟨later, isLater, rfl | ⟨isSignature, _⟩⟩ := continues.entries path entry isEntry
      · have foundLater : after.signature.definition? path = some later.definition :=
          Option.map_eq_some_iff.2 ⟨_, isLater, rfl⟩
        obtain ⟨⟨own, ty, kind⟩, phase⟩ := later
        cases kind with
        | postulate | datatype | record =>
          simp only [Families.coinductionOfHead, unfoldHead?, found, foundLater, isHead] at told ⊢
          exact ⟨rfl, told⟩
        | function | dataSignature | constructor =>
          simp [Families.coinductionOfHead, found, pure, Except.pure] at told
      · simp [Families.coinductionOfHead, found, isSignature, pure, Except.pure] at told
  | pi | univ =>
    rw [isHead] at told
    exact ⟨by simp [unfoldHead?, isHead, pure, Except.pure], told⟩
  | var | placeholder | app | level =>
    rw [isHead] at told
    simp [Families.coinductionOfHead, pure, Except.pure] at told

/-- A term that was reduced to a sort is reduced to one later. -/
theorem exists_univ {sort : Universe} {fuel' : Nat} (continues : before.Continues after)
    (isSort : reduce before fuel term = .ok (.univ sort))
    (isReduced : reduce after fuel' term = .ok reduced) : ∃ sort, reduced = .univ sort := by
  induction fuel generalizing term fuel' with
  | zero => cases isSort
  | succ fuel ih =>
    cases fuel' with
    | zero => cases isReduced
    | succ fuel' =>
      cases term with
      | const | app | placeholder =>
        simp only [reduce, bind_eq_ok_iff] at isSort
        obtain ⟨next?, unfolded, continued⟩ := isSort
        cases next? with
        | none => cases continued
        | some next =>
          have step := (unfoldHead?_eq_some_iff.1 unfolded).mono continues.preserves.toRetains
          rw [reduce_of_unfoldHead? (unfoldHead?_eq_some_iff.2 step)] at isReduced
          exact ih continued isReduced
      | univ =>
        simp only [reduce, bind_eq_ok_iff, pure_eq_ok_iff] at isReduced
        obtain ⟨sort, _, rfl⟩ := isReduced
        exact ⟨sort, rfl⟩
      | level =>
        obtain ⟨_, _, isLevel⟩ := bind_eq_ok_iff.1 isSort
        cases isLevel
      | var | pi => cases isSort

/-- A definite answer stays, wherever reduction ends. -/
theorem isCoinductive {answer : Bool} (continues : before.Continues after)
    (answered : Families.isCoinductive before fuel ty = .ok (some answer)) :
    (∀ fuel, Families.isCoinductive after fuel ty =
      (reduce after fuel ty.term).map fun _ => some answer) ∧
      ((∀ sort, reduce before fuel ty.term ≠ .ok (.univ sort)) →
        Families.isCoinductive after fuel ty = .ok (some answer)) := by
  obtain ⟨reduced, isReduced, told⟩ := bind_eq_ok_iff.1 answered
  obtain ⟨stops, toldLater⟩ := continues.coinductionOfHead told
  -- A sort is reduced further once its placeholders are solved, any other term is not.
  have reducedLater : (∃ sort, reduced = .univ sort) ∨ reduce after fuel ty.term = .ok reduced := by
    cases reduced with
    | univ sort => exact .inl ⟨sort, rfl⟩
    | level => cases told
    | _ => exact .inr (reduce_of_retains continues.preserves.toRetains stops isReduced)
  constructor
  · intro fuel'
    cases isLater : reduce after fuel' ty.term with
    | error reason =>
      rw [Families.isCoinductive, isLater]
      rfl
    | ok reduced' =>
      rw [isCoinductive_of_reduce isLater]
      rcases reducedLater with ⟨sort, rfl⟩ | alike
      · obtain ⟨sort', rfl⟩ := continues.exists_univ isReduced isLater
        exact toldLater
      · obtain rfl := reduce_unique (.refl after) alike isLater
        exact toldLater
  · intro noSort
    rcases reducedLater with ⟨sort, rfl⟩ | alike
    · exact absurd isReduced (noSort sort)
    · rw [isCoinductive_of_reduce alike, toldLater]

end State.Continues

/-- What calls that mention declarations only have led to is declared. -/
theorem declared_of_elaborateType {start checker later : Checker} {expression : Expr}
    (established : Established (fun _ => False) start)
    (elaborated : Yields (CheckM.elaborateType expression) start ty checker)
    (continues : start.state.Continues later.state)
    (laterEstablished : Established (fun _ => False) later)
    (isReduced : reduce later.state fuel ty.term = .ok reduced)
    (isHead : reduced.head = .const path) : later.state.signature.definition? path ≠ none := by
  have stays : ∀ path, start.state.Mentions (fun _ => False) path →
      later.state.Mentions (fun _ => False) path := by
    rintro path (mentioned | ⟨entry, found⟩)
    · exact mentioned.elim
    · obtain ⟨entry', found', _⟩ := continues.entries path entry found
      exact .inr ⟨entry', found'⟩
  have widens := established.closed.cites.widens_self
  have cites :=
    ((widens.lawful.elaborateType (.inl trivial) widens).2 elaborated.1).1.mono stays
  have reducedCites := laterEstablished.closed.cites.state.reduce isReduced cites.term
  have headCites := (Phrase.citesOnly_iff_arguments.1 reducedCites).1
  rw [isHead] at headCites
  obtain ⟨entry, found⟩ := headCites.resolve_left id
  simp [Signature.definition?, found]

/-- Whatever is called after the elaboration of a type: what its head tells definitely stays so, and
its normal form tells the same.  The question has no answer only where the type reduces to a level
or to a constructor, or where a path is not declared. -/
theorem isCoinductive_stable {start checker later : Checker} {expression : Expr}
    (reachable : Reachable start)
    (elaborated : Yields (CheckM.elaborateType expression) start ty checker)
    (reaches : Reaches checker later) :
    (∀ fuel fault, isCoinductive later.state fuel ty = .error (.fault fault) ↔
      ∃ reduced, reduce later.state fuel ty.term = .ok reduced ∧
        Misshapen later.state reduced.head fault) ∧
    (Established (fun _ => False) start → Established (fun _ => False) later → ∀ fuel path,
      isCoinductive later.state fuel ty ≠ .error (.fault (.notInSignature path))) ∧
    (∀ fuel normal, normalise later.state fuel ty = .ok normal → ∀ᶠ fuel in atTop,
      (isCoinductive later.state fuel normal).toOption =
        (isCoinductive later.state fuel ty).toOption) ∧
    ∀ fuel answer, isCoinductive checker.state fuel ty = .ok (some answer) →
      (∀ fuel, isCoinductive later.state fuel ty =
        (reduce later.state fuel ty.term).map fun _ => some answer) ∧
      ((∀ sort, reduce checker.state fuel ty.term ≠ .ok (.univ sort)) →
        isCoinductive later.state fuel ty = .ok (some answer)) := by
  have elaborates : Reaches start checker := by
    have ends : Reaches start _ := .ends .refl (.elaborateType expression) trivial
    rwa [Call.computation, elaborated.2] at ends
  have checkerReachable := elaborates.reachable reachable
  have continues := reaches.continues checkerReachable
  have inScope : checker.InScope ty :=
    ((CheckM.steady_elaborateType expression reachable.wellScoped).of_yields elaborated).2.2
  have laterInScope := continues.remembers.scoped inScope
  have laterWellScoped := (reaches.reachable checkerReachable).wellScoped.state
  refine ⟨fun _ _ => isCoinductive_eq_fault_iff, ?_, ?_, fun _ _ => continues.isCoinductive⟩
  · intro established laterEstablished fuel path stopped
    obtain ⟨reduced, isReduced, misshapen⟩ := isCoinductive_eq_fault_iff.1 stopped
    have startContinues := (elaborates.continues reachable).trans continues
    generalize isHead : reduced.head = head at misshapen
    cases misshapen with
    | undeclared missing =>
      exact declared_of_elaborateType established elaborated startContinues laterEstablished
        isReduced isHead missing
  · exact fun _ _ => eventually_isCoinductive_normalise laterWellScoped laterInScope

/-- A type that unfolds to a coinductive record, before and after a further declaration. -/
theorem isCoinductive_stable_streams :
    let stream : Expr := .app (.const "Stream") [(.explicit, .var "A")]
    let start := ((Call.check
        [.record "Stream" (.arrow (.set 0) (.set 0)) (some .coind), .postulate "T" (.set 0),
          .function "F" (.arrow (.set 0) (.set 0)) ["A"] (some stream)]).computation.run
      (Checker.initial {} .patterns 20)).state
    let expression : Expr := .app (.const "F") [(.explicit, .const "T")]
    let ty : Ty := .classified (Universe.ofNat 0) (.app (.const ⟨4⟩) (.const ⟨3⟩) {})
    let checker := ((CheckM.elaborateType expression).run start).state
    let later := ((Call.check [.postulate "x" expression]).computation.run checker).state
    Reachable start ∧ Yields (CheckM.elaborateType expression) start ty checker ∧
      Reaches checker later ∧ isCoinductive checker.state 20 ty = .ok (some true) ∧
      isCoinductive later.state 20 ty = .ok (some true) := by
  intro stream start expression ty checker later
  have reachable : Reachable start := .ends (.initial {} .patterns 20) (.check _) rfl
  have elaborated : Yields (CheckM.elaborateType expression) start ty checker :=
    .of_result (by decide +kernel)
  have noVariables : checker.context = [] := by decide +kernel
  have reaches : Reaches checker later := .ends .refl (.check _) noVariables
  have answered : isCoinductive checker.state 20 ty = .ok (some true) := by decide +kernel
  have noSort : ∀ sort, reduce checker.state 20 ty.term ≠ .ok (.univ sort) := by
    have isReduced : reduce checker.state 20 ty.term = .ok (.app (.const ⟨2⟩) (.const ⟨3⟩) {}) := by
      decide +kernel
    simp [isReduced]
  obtain ⟨_, _, _, stays⟩ := isCoinductive_stable reachable elaborated reaches
  exact ⟨reachable, elaborated, reaches, answered, (stays 20 true answered).2 noSort⟩

/-- A type reduces to a level, although nothing was postponed. -/
theorem level_at_head_of_type :
    let start := ((Call.check CheckM.coercedLevel).computation.run
      (Checker.initial {} .patterns 40)).state
    let expression : Expr := .app (.const "coerce")
      [(.explicit, .const "identity"), (.explicit, .const "level"), (.explicit, .const "T")]
    let ty : Ty := .classified (Universe.ofNat 0)
      (.app (.app (.app (.const ⟨5⟩) (.const ⟨3⟩) {}) (.const ⟨4⟩) {}) (.const ⟨2⟩) {})
    let checker := ((CheckM.elaborateType expression).run start).state
    ((CheckM.elaborateType expression).run start).result = .ok ty ∧
      checker.state.constraints = [] ∧
      isCoinductive checker.state 40 ty =
        .error (.fault (.notAType (.level (.lub 0 .noAtoms)))) := by
  decide +kernel

end Families
