import Families.ModuleCheck
import Families.Proofs.Outcome

/-!
# Computations built from operations

All that the checker does up to the check of one declaration is built from a few operations.  So
whatever holds of the operations and of their combinations holds of every check.  What a computation
reads is limited too: postponed comparisons are read only to see whether one succeeded outright, and
what is recorded of forced arguments and of the check of universes is never read.
-/

namespace Families

/-! ## Twins -/

/-- What a declaration stands for, apart from its forced arguments and from whether its arguments
were checked to fit. -/
def Kind.bare : Kind → Kind
  | .datatype known => .datatype { known with universeCheck := true }
  | .constructor known => .constructor { known with forced := [] }
  | kind => kind

/-- An entry apart from what is never read of it. -/
def Entry.bare (entry : Entry) : Entry :=
  { entry with definition := { entry.definition with kind := entry.definition.kind.bare } }

/-- The states store the same, apart from postponed comparisons and from what is never read of
declarations. -/
structure State.Twin (first second : State) : Prop where
  placeholders : second.placeholders = first.placeholders
  instances : second.instances = first.instances
  /-- The declarations are the same, apart from what is never read of them. -/
  entries : ∀ path, (second.signature.get? path).map Entry.bare =
    (first.signature.get? path).map Entry.bare

namespace State

variable {first second : State}

section

variable (twin : first.Twin second)

include twin

theorem Twin.entry_cases (path : Path) :
    (first.signature.get? path = none ∧ second.signature.get? path = none) ∨
      ∃ entry other, first.signature.get? path = some entry ∧
        second.signature.get? path = some other ∧ other.bare = entry.bare := by
  have same := twin.entries path
  cases isFirst : first.signature.get? path with
  | none => exact .inl ⟨rfl, by simpa [isFirst] using same⟩
  | some entry =>
    cases isSecond : second.signature.get? path with
    | none => simp [isFirst, isSecond] at same
    | some other => exact .inr ⟨entry, other, rfl, rfl, by simpa [isFirst, isSecond] using same⟩

theorem Twin.definition_cases (path : Path) :
    (first.signature.definition? path = none ∧ second.signature.definition? path = none) ∨
      ∃ owner ty kind kind', first.signature.definition? path = some ⟨owner, ty, kind⟩ ∧
        second.signature.definition? path = some ⟨owner, ty, kind'⟩ ∧ kind'.bare = kind.bare := by
  simp only [Signature.definition?]
  rcases twin.entry_cases path with ⟨isFirst, isSecond⟩ | ⟨entry, other, isFirst, isSecond, same⟩
  · simp [isFirst, isSecond]
  · obtain ⟨⟨owner, ty, kind⟩, phase⟩ := entry
    obtain ⟨⟨owner', ty', kind'⟩, phase'⟩ := other
    obtain ⟨⟨rfl, rfl, sameKind⟩, rfl⟩ : (owner' = owner ∧ ty' = ty ∧ kind'.bare = kind.bare) ∧
        phase' = phase := by simpa [Entry.bare] using same
    exact .inr ⟨owner', ty', kind, kind', by simp [isFirst], by simp [isSecond], sameKind⟩

theorem Twin.solution? (id : Nat) : second.solution? id = first.solution? id := by
  rw [State.solution?, State.solution?, twin.placeholders]

theorem Twin.unfoldHead? (term : Term) : unfoldHead? second term = unfoldHead? first term := by
  simp only [Families.unfoldHead?, twin.solution?]
  split
  · rfl
  · rename_i path _
    rcases twin.definition_cases path with ⟨isFirst, isSecond⟩ |
      ⟨owner, ty, kind, kind', isFirst, isSecond, same⟩
    · rw [isFirst, isSecond]
    · rw [isFirst, isSecond]
      cases kind <;> cases kind' <;> simp_all [Kind.bare]
  · rfl

theorem Twin.reduce (fuel : Nat) {category : Category}
    (phrase : Phrase category) : reduce second fuel phrase = reduce first fuel phrase := by
  induction fuel generalizing category with
  | zero => simp only [Families.reduce]
  | succ fuel ih =>
    cases phrase <;> simp only [Families.reduce, ih, twin.unfoldHead?,
      twin.solution?]

theorem Twin.normalise (fuel : Nat) {category : Category}
    (phrase : Phrase category) : normalise second fuel phrase = normalise first fuel phrase := by
  induction fuel generalizing category with
  | zero => simp only [Families.normalise]
  | succ fuel ih =>
    simp only [Families.normalise, twin.reduce, ih]

theorem Twin.telescopeView (fuel : Nat) (ty : Ty) :
    telescopeView second fuel ty = telescopeView first fuel ty := by
  induction fuel generalizing ty with
  | zero => rfl
  | succ fuel ih =>
    simp only [Families.telescopeView, twin.reduce, ih]

theorem Twin.parameters (path : Path) :
    (second.signature.constructor? path).map (·.parameters) =
      (first.signature.constructor? path).map (·.parameters) := by
  simp only [Signature.constructor?]
  rcases twin.definition_cases path with ⟨isFirst, isSecond⟩ |
    ⟨_, _, kind, kind', isFirst, isSecond, same⟩
  · rw [isFirst, isSecond]
  · rw [isFirst, isSecond]
    cases kind <;> cases kind' <;> simp_all [Kind.bare]

theorem Twin.determinedVariables (fuel : Nat) (term : Term) :
    determinedVariables second fuel term = determinedVariables first fuel term := by
  induction fuel generalizing term with
  | zero => rfl
  | succ fuel ih =>
    simp only [Families.determinedVariables, twin.reduce, ih]
    congr 1
    funext reduced
    split
    · rfl
    · split
      · rename_i path _
        have same := twin.parameters path
        cases isFirst : first.signature.constructor? path <;>
          cases isSecond : second.signature.constructor? path <;> simp_all
      · rfl

theorem Twin.forcedArguments (fuel : Nat) (forcing : Forcing) (ty : Ty) (parameters : Nat) :
    forcedArguments second fuel forcing ty parameters =
      forcedArguments first fuel forcing ty parameters := by
  simp only [Families.forcedArguments, twin.telescopeView, twin.determinedVariables]

end

end State

/-- The checkers are the same, apart from their options, from postponed comparisons and from what is
never read of declarations. -/
structure Checker.Twin (first second : Checker) : Prop where
  names : second.names = first.names
  forcing : second.forcing = first.forcing
  fuel : second.fuel = first.fuel
  context : second.context = first.context
  state : first.state.Twin second.state

namespace CheckM

/-! ## Operations -/

/-- The comparisons that the checker makes. -/
inductive IsComparison : ConvM Unit → Prop where
  | equalTerm (fuel depth : Nat) (left right : Term) :
      IsComparison (ConvM.equalTerm fuel depth left right)
  | equalSort (fuel depth : Nat) (left right : Universe) :
      IsComparison (ConvM.equalSort fuel depth left right)
  | leqSort (fuel depth : Nat) (left right : Universe) :
      IsComparison (ConvM.leqSort fuel depth left right)

/-- What a computation may do besides learning. -/
structure Powers where
  /-- It may depend on the options. -/
  options : Prop
  /-- It may declare. -/
  declares : Prop

/-- The computation is built from operations of the checker, and does nothing beyond its powers.  It
leaves the scope as it was unless `scope` allows that variables stay in scope. -/
inductive Built (powers : Powers) : (scope : Bool) → {α : Type} → CheckM α → Prop where
  | pure {scope : Bool} {α : Type} (value : α) : Built powers scope (pure value)
  | fail {scope : Bool} {α : Type} (error : CheckError) :
      Built powers scope (Attempt.fail error : CheckM α)
  | halt {scope : Bool} {α : Type} (reason : Halt) :
      Built powers scope (Attempt.halt reason : CheckM α)
  | bind {scope : Bool} {α β : Type} {first : CheckM α} {next : α → CheckM β} :
      Built powers scope first → (∀ value, Built powers scope (next value)) →
      Built powers scope (first >>= next)
  | read {scope : Bool} {α : Type} {next : Checker → CheckM α} :
      (∀ checker, Built powers scope (next checker)) →
      (∀ {first second : Checker}, first.Twin second →
        (powers.options → second.options = first.options) → next second = next first) →
      Built powers scope (get >>= next)
  | enterName {scope : Bool} (text : String) : Built powers scope (enterName text)
  | enterPath {scope : Bool} (text : String) : Built powers scope (enterPath text)
  | push (domain : Domain) : Built powers true (push domain)
  | attempt {scope : Bool} {comparison : ConvM Unit} :
      IsComparison comparison → Built powers scope (attempt comparison)
  | compareOr {scope : Bool} {α : Type} {left right : Term} {error : CheckError} {next : CheckM α} :
      Built powers scope next → Built powers scope (do
        let before ← get
        match ← tryEqualTerm left right with
        | .ok () => next
        | .error _ => do
          modifyState fun _ => before.state
          Attempt.fail error)
  | proves {scope : Bool} {comparison : CheckM (Except ConversionError Unit)} :
      Built powers false comparison → Built powers scope (proves comparison)
  | addPlaceholder {scope : Bool} (depth : Nat) (kind : PlaceholderKind) :
      Built powers scope (modifyState (·.addPlaceholder depth kind))
  | addInstance {scope : Bool} (datatype constructor : Path) :
      powers.declares → Built powers scope (modifyState (·.addInstance datatype constructor))
  | register {scope : Bool} (definition : Definition) :
      powers.declares → Built powers scope (register definition)
  | registerPending {scope : Bool} (definition : Definition) :
      powers.declares → Built powers scope
        (updateSignature (Signature.registerPending · definition))
  | complete {scope : Bool} (path : Path) (kind : Kind) :
      powers.declares → Built powers scope (updateSignature (Signature.complete · path kind))
  | restoreScope {scope : Bool} {α : Type} {body : CheckM α} :
      Built powers true body → Built powers scope (restoreScope body)
  | speculate {scope : Bool} {α : Type} {body : CheckM α} :
      powers.declares → Built powers false body → Built powers scope (speculate body)

namespace Built

variable {powers : Powers} {scope : Bool} {α β : Type}

theorem lift (halting : Except Halt α) : Built powers scope (monadLift halting : CheckM α) := by
  cases halting with
  | ok value => exact pure value
  | error reason => exact halt reason

theorem lift_bind {halting : Except Halt α} {next : α → CheckM β}
    (nextBuilt : ∀ value, Built powers scope (next value)) :
    Built powers scope (monadLift halting >>= next) :=
  (lift halting).bind nextBuilt

theorem mapM {action : β → CheckM α} (each : ∀ element, Built powers scope (action element)) :
    ∀ list : List β, Built powers scope (list.mapM action)
  | [] => pure []
  | first :: rest => by
    rw [List.mapM_cons]
    exact (each first).bind fun value => (mapM each rest).bind fun values => pure (value :: values)

end Built

variable {powers : Powers} {options declares : Prop} {scope : Bool} {α : Type}

/-! ## The checker -/

theorem built_reduce {category : Category} (phrase : Phrase category) :
    Built powers scope (reduce phrase) :=
  .read (fun _ => .lift _) fun twin _ => by rw [twin.fuel, twin.state.reduce]

theorem built_normalise {category : Category} (phrase : Phrase category) :
    Built powers scope (normalise phrase) :=
  .read (fun _ => .lift _) fun twin _ => by rw [twin.fuel, twin.state.normalise]

theorem built_telescopeView (ty : Ty) : Built powers scope (telescopeView ty) :=
  .read (fun _ => .lift _) fun twin _ => by rw [twin.fuel, twin.state.telescopeView]

theorem built_convert {comparison : ConvM Unit} (isComparison : IsComparison comparison) :
    Built powers scope (convert comparison) := by
  refine (Built.attempt isComparison).bind fun outcome => ?_
  cases outcome with
  | ok value => exact .pure value
  | error error => exact .fail _

theorem built_tryEqualTerm (left right : Term) : Built powers scope (tryEqualTerm left right) :=
  .read (fun _ => .attempt (.equalTerm _ _ left right)) fun twin _ => by
    rw [twin.fuel, twin.context]

theorem built_tryLeqSort (left right : Universe) : Built powers scope (tryLeqSort left right) :=
  .read (fun _ => .attempt (.leqSort _ _ left right)) fun twin _ => by rw [twin.fuel, twin.context]

theorem built_equalTerm (left right : Term) : Built powers scope (equalTerm left right) :=
  .read (fun _ => built_convert (.equalTerm _ _ left right)) fun twin _ => by
    rw [twin.fuel, twin.context]

theorem built_equalType (left right : Ty) : Built powers scope (equalType left right) :=
  built_equalTerm left.term right.term

theorem built_equalSort (left right : Universe) : Built powers scope (equalSort left right) :=
  .read (fun _ => built_convert (.equalSort _ _ left right)) fun twin _ => by
    rw [twin.fuel, twin.context]

theorem built_leqSort (left right : Universe) : Built powers scope (leqSort left right) :=
  .read (fun _ => built_convert (.leqSort _ _ left right)) fun twin _ => by
    rw [twin.fuel, twin.context]

theorem built_addPlaceholder (depth : Nat) (kind : PlaceholderKind) :
    Built powers scope (addPlaceholder depth kind) :=
  .read (fun _ => (Built.addPlaceholder depth kind).bind fun _ => .pure _) fun twin _ => by
    rw [twin.state.placeholders]

theorem built_freshSort (belowOmega : Bool) : Built powers scope (freshSort belowOmega) :=
  .read (fun _ => (built_addPlaceholder _ _).bind fun _ => .pure _) fun twin _ => by
    rw [twin.context]

theorem built_freshTerm (ty : Term) : Built powers scope (freshTerm ty) :=
  .read (fun _ => (built_addPlaceholder _ _).bind fun _ => .pure _) fun twin _ => by
    rw [twin.context]

theorem built_forM_push (telescope : Telescope) : Built powers true (telescope.forM push) := by
  induction telescope with
  | nil => exact .pure ()
  | cons domain rest ih =>
    exact (Built.push domain).bind fun _ => ih

theorem built_under {body : CheckM α} (telescope : Telescope) (built : Built powers true body) :
    Built powers scope (under telescope body) :=
  ((built_forM_push telescope).bind fun _ => built).restoreScope

theorem built_piSort (domain codomain : Universe) :
    Built powers scope (piSort domain codomain) := by
  unfold piSort
  refine (built_reduce domain).bind fun domain => (built_reduce codomain).bind fun codomain => ?_
  simp only
  split
  · exact .pure _
  · refine (built_freshSort false).bind fun sort => (built_leqSort domain sort).bind fun _ => ?_
    split
    · exact (built_leqSort _ sort).bind fun _ => .pure _
    · exact .pure _

/-! ## Steps of checks -/

/-- A check that is made under a condition. -/
def checkIf (condition : Prop) [Decidable condition] (check : CheckM Unit) : CheckM Unit :=
  if condition then check else pure ()

/-- Compares sorts by their order, with an error of its own. -/
def leqSortOr (left right : Universe) (wrap : ConversionError → CheckError) : CheckM Unit := do
  match ← tryLeqSort left right with
  | .ok () => pure ()
  | .error error => Attempt.fail (wrap error)

theorem built_checkIf {check : CheckM Unit} (condition : Prop) [Decidable condition]
    (built : Built powers scope check) : Built powers scope (checkIf condition check) := by
  unfold checkIf
  split
  · exact built
  · exact .pure ()

theorem built_leqSortOr (left right : Universe) (wrap : ConversionError → CheckError) :
    Built powers scope (leqSortOr left right wrap) := by
  refine (built_tryLeqSort left right).bind fun result => ?_
  cases result with
  | ok _ => exact .pure ()
  | error _ => exact .fail _

/-- Compares a sort with a bound from outside the last binders. -/
def leqLifted (sort bound : Universe) (binders : Nat) (wrap : ConversionError → CheckError) :
    CheckM Unit := do
  let lifted ← (checked (bound.lift? binders 0) : Except Halt _)
  leqSortOr sort lifted wrap

theorem built_leqLifted (sort bound : Universe) (binders : Nat)
    (wrap : ConversionError → CheckError) :
    Built powers scope (leqLifted sort bound binders wrap) :=
  .lift_bind fun lifted => built_leqSortOr sort lifted wrap

theorem checkIndicesBelow_cons (datatype : Path) (bound : Universe) (position : Nat)
    (index : Domain)
    (indices : Telescope) :
    checkIndicesBelow datatype bound position (index :: indices) = (do
      leqLifted index.ty.sort bound position (.indexSortTooLarge datatype position)
      push index
      checkIndicesBelow datatype bound (position + 1) indices) := by
  simp only [checkIndicesBelow, leqLifted, leqSortOr, bind_assoc]
  congr! with lifted result
  cases result <;> rfl

theorem checkArguments_succ (head : DataHead) (constructor : Path) (forced : List Bool)
    (fuel position : Nat) (current : Term) :
    checkArguments head constructor forced (fuel + 1) position current = (do
      match ← reduce current with
      | .pi name info domain codomain => do
        let checker ← get
        let sort ← reduce domain.sort
        checkIf (head.universeCheck ∧
            (checker.options.withoutK ∨ ¬forced[position]? = some true) ∧ sort ≠ .sizeUniv)
          (leqLifted sort head.sort position (.sortContainment constructor
            (some position) head.sort))
        push ⟨name, info, domain⟩
        checkArguments head constructor forced fuel (position + 1) codomain.term
      | _ => pure position) := by
  simp only [checkArguments, checkIf, leqLifted, leqSortOr]
  congr!
  split
  · simp only [bind_assoc]
    congr! with lifted result
    cases result <;> rfl
  · rfl

theorem checkFits_eq (head : DataHead) (constructor : Path) (forced : List Bool) (ty : Ty) :
    checkFits head constructor forced ty = (do
      let checker ← get
      checkIf (head.universeCheck ∧ checker.options.withoutK)
        (leqSortOr ty.sort head.sort (.sortContainment constructor none head.sort))
      restoreScope (checkArguments head constructor forced checker.fuel 0 ty.term)) := by
  simp only [checkFits, checkIf, leqSortOr]
  congr! with checker
  split
  · simp only [bind_assoc]
    congr! with result
    cases result <;> rfl
  · rfl

theorem checkUnderParameters_eq (definition : DataDefinition) (signature : Definition)
    (parameters : Telescope) (tail : Ty) :
    checkUnderParameters definition signature parameters tail = (do
      let checker ← get
      let view ← telescopeView tail
      let sort ← resolveSort signature.path view.1 view.2
      checkIf (checker.options.withoutK ∧ definition.universeCheck)
        (checkIndexSorts signature.path view.1 sort)
      checkInSort definition signature parameters view.1.length sort) := by
  unfold checkUnderParameters checkIf
  refine bind_congr fun checker => bind_congr ?_
  rintro ⟨indices, core⟩
  refine bind_congr fun sort => ?_
  split
  · rfl
  · rw [pure_bind]

/-! ## Inference -/

theorem built_inferVariable (index : Nat) : Built powers scope (inferVariable index) := by
  refine .read (fun checker => .lift_bind fun found => ?_) fun twin _ => by rw [twin.context]
  cases found with
  | none => exact .halt _
  | some ty => exact .pure _

theorem built_inferConstant (path : Path) : Built powers scope (inferConstant path) := by
  refine .read (fun checker => ?_) fun {first second} twin _ => ?_
  · split
    · exact .pure _
    · exact .fail _
  · rcases twin.state.definition_cases path with ⟨isFirst, isSecond⟩ |
      ⟨_, _, _, _, isFirst, isSecond, _⟩
    · rw [isFirst, isSecond]
    · rw [isFirst, isSecond]

theorem built_inferPlaceholder (id : Nat) (arguments : Phrase .terms) :
    Built powers scope (inferPlaceholder id arguments) := by
  refine .read (fun checker => ?_) fun twin _ => by rw [twin.state.placeholders]
  split
  · exact .lift _
  · exact .halt _

theorem built_inferPhrase {category : Category} (phrase : Phrase category)
    (isTerm : category = .term) : Built powers scope (inferPhrase phrase isTerm) := by
  induction phrase with
  | var index => exact built_inferVariable index
  | const path => exact built_inferConstant path
  | app function argument info ihFunction ihArgument =>
    rw [inferPhrase]
    refine (ihFunction rfl).bind fun functionType => ?_
    refine (built_reduce functionType).bind fun reduced => ?_
    split
    · split
      · refine (ihArgument rfl).bind fun argumentType => ?_
        exact (built_equalTerm _ _).bind fun _ => .lift _
      · exact .fail _
    · exact .fail _
  | pi name info domain codomain =>
    rw [inferPhrase]
    exact (built_piSort _ _).bind fun _ => .pure _
  | univ sort =>
    rw [inferPhrase]
    exact .lift_bind fun _ => .pure _
  | level bound => exact .pure _
  | placeholder id arguments => exact built_inferPlaceholder id arguments
  | _ => cases isTerm

theorem built_infer (term : Term) : Built powers scope (infer term) :=
  built_inferPhrase term rfl

theorem built_inferSort (term : Term) : Built powers scope (inferSort term) := by
  refine (built_infer term).bind fun ty => (built_reduce ty).bind fun reduced => ?_
  split
  · exact .pure _
  · refine (built_freshSort false).bind fun sort => ?_
    exact (built_equalTerm _ _).bind fun _ => .pure _
  · exact .fail _

/-! ## Elaboration -/

theorem built_resolveVariable (text : String) : Built powers scope (resolveVariable text) := by
  refine (Built.enterName text).bind fun name => ?_
  refine .read (fun checker => ?_) fun twin _ => by rw [twin.context]
  split
  · exact .pure _
  · exact .fail _

theorem built_resolveConstant (text : String) : Built powers scope (resolveConstant text) := by
  refine (Built.enterPath text).bind fun path => ?_
  refine .read (fun checker => ?_) fun {first second} twin _ => ?_
  · split
    · exact .pure _
    · exact .fail _
  · rcases twin.state.definition_cases path with ⟨isFirst, isSecond⟩ |
      ⟨_, _, _, _, isFirst, isSecond, _⟩
    · rw [isFirst, isSecond]
    · rw [isFirst, isSecond]

theorem built_asType (term : Term) : Built powers scope (asType term) :=
  (built_inferSort term).bind fun _ => .pure _

theorem built_asLevel (expression : Expr) (term : Term) :
    Built powers scope (asLevel expression term) := by
  unfold asLevel
  split
  · exact .pure _
  · exact .pure _
  · exact .pure _
  · refine (built_infer term).bind fun ty => ?_
    exact (built_equalTerm ty _).bind fun _ => .pure _

theorem built_freshHole : Built powers scope freshHole :=
  (built_freshSort false).bind fun _ => (built_freshTerm _).bind fun ty => built_freshTerm ty

mutual

theorem built_elaborate {scope : Bool} :
    ∀ expression : Expr, Built powers scope (elaborate expression)
  | .var name => by
    rw [elaborate]
    exact built_resolveVariable name
  | .const name => by
    rw [elaborate]
    exact built_resolveConstant name
  | .app function arguments => by
    rw [elaborate]
    refine (built_elaborate function).bind fun function => ?_
    refine (built_elaborateArguments arguments function).bind fun term => ?_
    exact (built_infer term).bind fun _ => .pure term
  | .pi name info domain codomain => by
    rw [elaborate]
    refine (Built.enterName name).bind fun name => ?_
    refine (built_elaborate domain).bind fun domain => (built_asType domain).bind fun domain => ?_
    exact (built_under _ ((built_elaborate codomain).bind built_asType)).bind fun _ => .pure _
  | .arrow domain codomain => by
    rw [elaborate]
    refine (Built.enterName "_").bind fun name => ?_
    refine (built_elaborate domain).bind fun domain => (built_asType domain).bind fun domain => ?_
    exact (built_under _ ((built_elaborate codomain).bind built_asType)).bind fun _ => .pure _
  | .setAt level => by
    rw [elaborate]
    refine (built_elaborate level).bind fun term => ?_
    exact (built_asLevel level term).bind fun _ => .pure _
  | .set _ | .prop | .setOmega | .sizeUniv | .levelLit _ => by
    rw [elaborate]
    exact .pure _
  | .levelSuc level => by
    rw [elaborate]
    refine (built_elaborate level).bind fun term => ?_
    exact (built_asLevel level term).bind fun bound => .lift_bind fun _ => .pure _
  | .levelMax left right => by
    rw [elaborate]
    refine (built_elaborate left).bind fun leftTerm => ?_
    refine (built_asLevel left leftTerm).bind fun leftLevel => ?_
    refine (built_elaborate right).bind fun rightTerm => ?_
    exact (built_asLevel right rightTerm).bind fun _ => .pure _
  | .hole => by
    rw [elaborate]
    exact built_freshHole

theorem built_elaborateArguments {scope : Bool} :
    ∀ (arguments : List (ArgMode × Expr)) (function : Term),
      Built powers scope (elaborateArguments function arguments)
  | [], function => by
    rw [elaborateArguments]
    exact .pure function
  | (mode, argument) :: arguments, function => by
    rw [elaborateArguments]
    exact (built_elaborate argument).bind fun _ => built_elaborateArguments arguments _

end

theorem built_elaborateType (expression : Expr) : Built powers scope (elaborateType expression) :=
  (built_elaborate expression).bind built_asType

/-! ## Parameters and sorts -/

theorem built_checkAscription (binding : ParameterBinding) (domain : Ty) :
    Built powers scope (checkAscription binding domain) := by
  unfold checkAscription
  split
  · exact .pure ()
  · exact (built_elaborateType _).bind fun _ => built_equalType _ _

theorem built_bindParameters (fuel : Nat) (bindings : List ParameterBinding) (ty : Ty) :
    Built powers true (bindParameters fuel bindings ty) := by
  induction fuel generalizing bindings ty with
  | zero =>
    cases bindings with
    | nil => exact .pure _
    | cons => exact .halt _
  | succ fuel ih =>
    cases bindings with
    | nil => exact .pure _
    | cons binding bindings =>
      rw [bindParameters]
      refine (built_reduce ty.term).bind fun reduced => ?_
      split
      · split
        · refine (built_checkAscription binding _).bind fun _ => ?_
          refine (Built.enterName binding.name).bind fun name => ?_
          refine (Built.push _).bind fun _ => ?_
          exact (ih bindings _).bind fun _ => .pure _
        · split
          · refine (Built.push _).bind fun _ => ?_
            exact (ih (binding :: bindings) _).bind fun _ => .pure _
          · exact .halt _
      · exact .halt _

theorem built_resolveSort (datatype : Path) (indices : Telescope) (core : Ty) :
    Built powers scope (resolveSort datatype indices core) := by
  refine (built_freshSort true).bind fun sort => .lift_bind fun expected => ?_
  refine .lift_bind fun lifted => ?_
  refine (built_under indices (built_tryEqualTerm _ _)).bind fun result => ?_
  cases result with
  | ok _ => exact built_normalise sort
  | error error =>
    show Built _ _ (if _ then _ else _)
    split
    · exact .fail _
    · exact .fail _

theorem built_checkIndicesBelow (datatype : Path) (bound : Universe) (position : Nat)
    (indices : Telescope) :
    Built powers true (checkIndicesBelow datatype bound position indices) := by
  induction indices generalizing position with
  | nil => exact .pure ()
  | cons index indices ih =>
    rw [checkIndicesBelow_cons]
    refine (built_leqLifted index.ty.sort bound position _).bind fun _ => ?_
    exact (Built.push index).bind fun _ => ih (position + 1)

theorem built_checkIndexSorts (datatype : Path) (indices : Telescope) (sort : Universe) :
    Built powers scope (checkIndexSorts datatype indices sort) :=
  (built_reduce sort).bind fun _ => (built_checkIndicesBelow datatype _ 0 indices).restoreScope

theorem built_isSmall (ty : Ty) (sort : Universe) : Built powers scope (isSmall ty sort) := by
  refine (Built.proves ((built_reduce ty.term).bind fun reduced =>
    built_tryEqualTerm reduced (.const Path.level))).bind fun isLevel => ?_
  split
  · exact .pure false
  · exact (built_tryLeqSort ty.sort sort).proves

theorem built_smallAmong (parameters : Telescope) (sort : Universe) (positions : List Nat) :
    Built powers scope (smallAmong parameters sort positions) := by
  induction positions with
  | nil => exact .pure []
  | cons position positions ih =>
    rw [smallAmong]
    refine .lift_bind fun found => ?_
    cases found with
    | none => exact ih
    | some ty =>
      refine (built_isSmall ty sort).bind fun small => ?_
      exact ih.bind fun _ => .pure _

theorem built_smallParameters (parameters : Telescope) (sort : Universe) :
    Built powers scope (smallParameters parameters sort) :=
  (built_smallAmong parameters sort _).bind fun _ => .pure _

/-! ## Constructors -/

theorem built_applyToFresh (count : Nat) (term : Term) :
    Built powers scope (applyToFresh count term) := by
  induction count generalizing term with
  | zero => exact .pure term
  | succ count ih =>
    refine (built_infer term).bind fun ty => (built_reduce ty).bind fun reduced => ?_
    split
    · exact (built_freshTerm _).bind fun _ => ih _
    · exact .fail _

theorem built_walkToTarget (head : DataHead) (constructor : Path) (fuel walked : Nat)
    (current : Term) : Built powers true (walkToTarget head constructor fuel walked current) := by
  induction fuel generalizing walked current with
  | zero => exact .halt .exhausted
  | succ fuel ih =>
    rw [walkToTarget]
    refine (built_reduce current).bind fun reduced => ?_
    split
    · exact (Built.push _).bind fun _ => ih _ _
    · refine (built_applyToFresh head.indices _).bind fun generic => ?_
      exact .compareOr (ih walked generic)
    · exact .pure _

theorem built_checkParameters (outermost position : Nat) (arguments : List (ArgInfo × Term)) :
    Built powers scope (checkParameters outermost position arguments) := by
  induction arguments generalizing position with
  | nil => exact .pure ()
  | cons first arguments ih =>
    obtain ⟨info, argument⟩ := first
    rw [checkParameters]
    split
    · exact ih (position + 1)
    · exact (built_equalTerm _ _).bind fun _ => ih (position + 1)

theorem built_checkTarget (head : DataHead) (constructor : Path) (ty : Ty) :
    Built powers true (checkTarget head constructor ty) := by
  refine .read (fun checker => ?_) fun twin _ => by rw [twin.fuel]
  refine (built_walkToTarget head constructor _ 0 ty.term).bind fun reached => ?_
  refine (built_normalise reached.2).bind fun target => ?_
  simp only
  split
  · refine (built_checkParameters _ 0 _).bind fun _ => ?_
    exact (Built.mapM (fun _ => .lift _) _).bind fun _ => .pure _
  · exact .fail _

/-- What the arguments of a constructor have to fit into depends on the options. -/
theorem built_checkArguments (head : DataHead) (constructor : Path) (forced : List Bool)
    (fuel position : Nat) (current : Term) :
    Built ⟨True, declares⟩ true (checkArguments head constructor forced fuel position current) := by
  induction fuel generalizing position current with
  | zero => exact .halt .exhausted
  | succ fuel ih =>
    rw [checkArguments_succ]
    refine (built_reduce current).bind fun reduced => ?_
    split
    · refine .read (fun checker => ?_) fun _ sameOptions => by simp only [sameOptions trivial]
      refine (built_reduce _).bind fun sort => ?_
      refine (built_checkIf _ (built_leqLifted sort head.sort position _)).bind fun _ => ?_
      exact (Built.push _).bind fun _ => ih (position + 1) _
    · exact .pure position

theorem built_checkFits (head : DataHead) (constructor : Path) (forced : List Bool) (ty : Ty) :
    Built ⟨True, declares⟩ scope (checkFits head constructor forced ty) := by
  rw [checkFits_eq]
  refine .read (fun checker => ?_) fun twin sameOptions => by
    simp only [sameOptions trivial, twin.fuel]
  refine (built_checkIf _ (built_leqSortOr ty.sort head.sort _)).bind fun _ => ?_
  exact (built_checkArguments head constructor forced checker.fuel 0 ty.term).restoreScope

theorem built_findForced (head : DataHead) (ty : Ty) :
    Built ⟨True, declares⟩ scope (findForced head ty) := by
  refine .read (fun checker => ?_) fun twin sameOptions => by
    rw [sameOptions trivial, twin.fuel, twin.forcing, twin.state.forcedArguments]
  split
  · exact .lift _
  · exact (built_telescopeView ty).bind fun _ => .pure _

theorem built_checkConstructor (head : DataHead) (declaration : ConstructorDeclaration) :
    Built ⟨True, True⟩ scope (checkConstructor head declaration) := by
  refine (Built.enterPath declaration.name).bind fun path => ?_
  split
  · refine (built_elaborateType declaration.ty).bind fun written => ?_
    refine (built_checkTarget head path written).restoreScope.bind fun nonLinear => ?_
    refine (built_normalise written).bind fun ty => ?_
    refine (built_findForced head ty).bind fun forced => ?_
    refine (built_checkFits head path forced ty).bind fun arity => ?_
    refine (Built.register _ trivial).bind fun _ => ?_
    split
    · exact (Built.addInstance head.path path trivial).bind fun _ => .pure _
    · exact .pure _
  · exact .fail _

theorem built_checkConstructors (head : DataHead) (declarations : List ConstructorDeclaration) :
    Built ⟨True, True⟩ scope (checkConstructors head declarations) := by
  induction declarations with
  | nil => exact .pure []
  | cons declaration declarations ih =>
    exact (built_checkConstructor head declaration).bind fun _ =>
      ih.bind fun _ => .pure _

/-! ## Declarations -/

theorem built_checkSingleton (path : Path) (sort : Universe) (constructors : Nat) :
    Built ⟨True, declares⟩ scope (checkSingleton path sort constructors) := by
  refine .read (fun checker => ?_) fun _ sameOptions => by rw [sameOptions trivial]
  split
  · refine (built_reduce sort).bind fun reduced => ?_
    split
    · exact .fail _
    · exact .pure ()
  · exact .pure ()

theorem built_checkInSort (definition : DataDefinition) (signature : Definition)
    (parameters : Telescope) (indices : Nat) (sort : Universe) :
    Built ⟨True, True⟩ scope (checkInSort definition signature parameters indices sort) := by
  refine (built_smallParameters parameters sort).bind fun small => ?_
  refine (Built.registerPending _ trivial).bind fun _ => ?_
  refine (built_checkConstructors _ definition.constructors).bind fun constructors => ?_
  refine (built_checkSingleton _ sort _).bind fun _ => (built_normalise sort).bind fun sort => ?_
  exact (Built.complete _ _ trivial).bind fun _ => .pure _

theorem built_checkUnderParameters (definition : DataDefinition) (signature : Definition)
    (parameters : Telescope) (tail : Ty) :
    Built ⟨True, True⟩ scope (checkUnderParameters definition signature parameters tail) := by
  rw [checkUnderParameters_eq]
  refine .read (fun checker => ?_) fun _ sameOptions => by simp only [sameOptions trivial]
  refine (built_telescopeView tail).bind fun viewed => ?_
  refine (built_resolveSort signature.path _ _).bind fun sort => ?_
  refine (built_checkIf _ (built_checkIndexSorts _ _ sort)).bind fun _ => ?_
  exact built_checkInSort definition signature parameters viewed.1.length sort

theorem built_dataSignature (path : Path) : Built powers scope (dataSignature path) := by
  refine .read (fun checker => ?_) fun {first second} twin _ => ?_
  · split
    · exact .pure _
    · exact .fail _
    · exact .fail _
  · rcases twin.state.definition_cases path with ⟨isFirst, isSecond⟩ |
      ⟨_, _, kind, kind', isFirst, isSecond, same⟩
    · rw [isFirst, isSecond]
    · rw [isFirst, isSecond]
      cases kind <;> cases kind' <;> simp_all [Kind.bare]

/-- Declares the type of a datatype, if it is given. -/
def declareType (definition : DataDefinition) (path : Path) : CheckM Unit :=
  match definition.ty with
  | none => pure ()
  | some ty => do
    let ty ← elaborateType ty
    register ⟨path, ty, .dataSignature⟩

/-- Checks a datatype whose type is declared. -/
def checkDeclared (definition : DataDefinition) (path : Path) : CheckM CertifiedDatatype := do
  let signature ← dataSignature path
  let checker ← get
  restoreScope do
    let bound ← bindParameters checker.fuel definition.parameters signature.ty
    checkUnderParameters definition signature bound.1 bound.2

theorem checkData_eq (definition : DataDefinition) :
    checkData definition = enterPath definition.name >>= fun path =>
      speculate (declareType definition path >>= fun _ => checkDeclared definition path) := by
  unfold checkData declareType
  cases definition.ty <;> simp only [bind_assoc, pure_bind, checkDeclared]

theorem built_declareType (definition : DataDefinition) (path : Path) :
    Built ⟨options, True⟩ scope (declareType definition path) := by
  unfold declareType
  split
  · exact .pure _
  · exact (built_elaborateType _).bind fun ty => .register _ trivial

theorem built_checkDeclared (definition : DataDefinition) (path : Path) :
    Built ⟨True, True⟩ scope (checkDeclared definition path) := by
  refine (built_dataSignature path).bind fun signature => ?_
  refine .read (fun checker => .restoreScope ?_) fun twin _ => by rw [twin.fuel]
  refine (built_bindParameters checker.fuel definition.parameters signature.ty).bind ?_
  exact fun bound => built_checkUnderParameters definition signature bound.1 bound.2

theorem built_checkData (definition : DataDefinition) :
    Built ⟨True, True⟩ scope (checkData definition) := by
  rw [checkData_eq]
  refine (Built.enterPath definition.name).bind fun path => .speculate trivial ?_
  exact (built_declareType definition path).bind fun _ => built_checkDeclared definition path

theorem built_declare (name : String) (ty : Expr) (kind : Kind) :
    Built ⟨options, True⟩ scope (declare name ty kind) := by
  refine (Built.enterPath name).bind fun path => .speculate trivial ?_
  exact (built_elaborateType ty).bind fun ty => .register _ trivial

theorem built_bindArguments (parameters : List String) (ty : Term) :
    Built powers true (bindArguments parameters ty) := by
  induction parameters generalizing ty with
  | nil => exact .pure ty
  | cons parameter parameters ih =>
    rw [bindArguments]
    refine (built_reduce ty).bind fun reduced => ?_
    split
    · refine (Built.enterName parameter).bind fun name => ?_
      exact (Built.push _).bind fun _ => ih _
    · exact .fail _

theorem built_checkBody (ty : Ty) (parameters : List String) (body : Expr) :
    Built powers true (checkBody ty parameters body) := by
  refine (built_bindArguments parameters ty.term).bind fun expected => ?_
  refine (built_elaborate body).bind fun term => (built_infer term).bind fun inferred => ?_
  exact (built_equalTerm inferred expected).bind fun _ => built_normalise term

theorem built_checkFunction (name : String) (ty : Expr) (parameters : List String)
    (body : Option Expr) : Built ⟨options, True⟩ scope (checkFunction name ty parameters body) := by
  refine (Built.enterPath name).bind fun path => .speculate trivial ?_
  refine (built_elaborateType ty).bind fun ty => ?_
  cases body with
  | none => exact .register _ trivial
  | some body =>
    exact (built_checkBody ty parameters body).restoreScope.bind fun _ => .register _ trivial

theorem built_checkDeclaration (declaration : Declaration) :
    Built ⟨True, True⟩ scope (checkDeclaration declaration) := by
  cases declaration with
  | postulate name ty | dataSignature name ty | record name ty =>
    exact (built_declare name ty _).bind fun _ => .pure none
  | function name ty parameters body =>
    exact (built_checkFunction name ty parameters body).bind fun _ => .pure none
  | data definition => exact (built_checkData definition).bind fun _ => .pure _

end CheckM
end Families
