import Families.Proofs.Operations
import Families.Proofs.ScopedState

/-!
# Computations that keep to phrases of one kind

A regime says which phrases may occur, whether placeholders may be created, and what it means that a
computation keeps to such phrases.  Its laws speak of elementary steps.  Inference, elaboration and
the stages of a declaration are made of these, so they keep to every lawful regime.
-/

namespace Families

variable {β : Type} {datatype : Path} {position : Nat} {constructor : Path}
variable {parameters : List String}

namespace Expr

mutual

/-- No hole is written in the expression. -/
def isHoleFree : Expr → Bool
  | .app function arguments => function.isHoleFree && areHoleFree arguments
  | .pi _ _ domain codomain => domain.isHoleFree && codomain.isHoleFree
  | .arrow domain codomain => domain.isHoleFree && codomain.isHoleFree
  | .setAt level => level.isHoleFree
  | .levelSuc level => level.isHoleFree
  | .levelMax left right => left.isHoleFree && right.isHoleFree
  | .hole => false
  | _ => true

/-- No hole is written in the arguments. -/
def areHoleFree : List (ArgMode × Expr) → Bool
  | [] => true
  | (_, argument) :: arguments => argument.isHoleFree && areHoleFree arguments

end

end Expr

/-- What is read of both checkers, apart from what is declared, is the same. -/
structure Checker.Shares (first second : Checker) : Prop where
  options : second.options = first.options
  fuel : second.fuel = first.fuel
  constraints : second.state.constraints = first.state.constraints

namespace CheckM

/-- Which phrases may occur, whether placeholders may be created, and what is said of a computation
and its answer. -/
structure Regime where
  /-- The phrases that may occur. -/
  Fits : {category : Category} → Phrase category → Prop
  /-- Placeholders may be created. -/
  Creates : Prop
  /-- The computation keeps to the phrases that may occur, and its answer is as stated. -/
  Holds : {α : Type} → CheckM α → (α → Prop) → Prop

/-- What is made of phrases that may occur may occur, and elementary computations keep to them. -/
structure Regime.Lawful (regime : Regime) : Prop where
  var : ∀ index, regime.Fits (.var index)
  levels : regime.Fits (.const Path.level)
  prop : regime.Fits .prop
  omega : regime.Fits .omega
  sizeUniv : regime.Fits .sizeUniv
  number : ∀ number, regime.Fits (Level.ofNat number)
  app : ∀ {function argument info}, regime.Fits (.app function argument info) ↔
    regime.Fits function ∧ regime.Fits argument
  function : ∀ {name info domain codomain}, regime.Fits (.pi name info domain codomain) ↔
    regime.Fits domain ∧ regime.Fits codomain
  univ : ∀ {sort}, regime.Fits (.univ sort) ↔ regime.Fits sort
  level : ∀ {bound}, regime.Fits (.level bound) ↔ regime.Fits bound
  set : ∀ {bound}, regime.Fits (.set bound) ↔ regime.Fits bound
  classified : ∀ {sort term}, regime.Fits (.classified sort term) ↔
    regime.Fits sort ∧ regime.Fits term
  ofTerm : ∀ {term : Term}, regime.Fits term → regime.Fits (Level.ofTerm term)
  join : ∀ {left right : Level}, regime.Fits left → regime.Fits right →
    regime.Fits (Level.join left right)
  raise? : ∀ {bound raised : Level} {offset}, regime.Fits bound →
    Level.raise? bound offset = some raised → regime.Fits raised
  succ? : ∀ {sort above}, regime.Fits sort → Universe.succ? sort = some above → regime.Fits above
  pi? : ∀ {domain codomain sort}, regime.Fits domain →
    (∀ outside, codomain = some outside → regime.Fits outside) →
    Universe.pi? domain codomain = some sort → regime.Fits sort
  lift? : ∀ {category shift cutoff} {phrase lifted : Phrase category}, regime.Fits phrase →
    phrase.lift? shift cutoff = some lifted → regime.Fits lifted
  strengthen? : ∀ {category count} {phrase outside : Phrase category}, regime.Fits phrase →
    phrase.strengthen? count = some outside → regime.Fits outside
  instantiate? : ∀ {category argument} {phrase result : Phrase category}, regime.Fits phrase →
    regime.Fits argument → phrase.instantiate? argument = some result → regime.Fits result
  arguments : ∀ {term : Term}, regime.Fits term →
    ∀ argument ∈ term.arguments, regime.Fits argument.2
  creates : ∀ {id arguments}, regime.Fits (.placeholder id arguments) → regime.Creates
  createsSort : ∀ {id arguments}, regime.Fits (.sortPlaceholder id arguments) → regime.Creates
  pure : ∀ {α : Type} {answers : α → Prop} {value}, answers value →
    regime.Holds (Pure.pure value) answers
  fail : ∀ {α : Type} {answers : α → Prop} {error}, regime.Holds (Attempt.fail error) answers
  halt : ∀ {α : Type} {answers : α → Prop} {reason}, regime.Holds (Attempt.halt reason) answers
  bind : ∀ {α β : Type} {answers : α → Prop} {answers' : β → Prop} {first : CheckM α}
    {next : α → CheckM β}, regime.Holds first answers →
    (∀ value, answers value → regime.Holds (next value) answers') →
    regime.Holds (first >>= next) answers'
  get_bind : ∀ {α : Type} {answers : α → Prop} {next : Checker → CheckM α},
    (∀ {first second}, Checker.Shares first second → next second = next first) →
    (∀ checker, regime.Holds (next checker) answers) → regime.Holds (get >>= next) answers
  lift : ∀ {α : Type} {answers : α → Prop} {halting : Except Halt α},
    (∀ value, halting = .ok value → answers value) → regime.Holds (monadLift halting) answers
  restoreScope : ∀ {α : Type} {answers : α → Prop} {body : CheckM α}, regime.Holds body answers →
    regime.Holds (restoreScope body) answers
  localState : ∀ {α : Type} {answers : α → Prop} {body : CheckM α}, regime.Holds body answers →
    regime.Holds (localState body) answers
  push : ∀ {domain}, regime.Fits domain.ty → regime.Holds (push domain) fun _ => True
  enterName : ∀ text, regime.Holds (enterName text) fun _ => True
  reduce : ∀ {category} {phrase : Phrase category}, regime.Fits phrase →
    regime.Holds (reduce phrase) regime.Fits
  normalise : ∀ {category} {phrase : Phrase category}, regime.Fits phrase →
    regime.Holds (normalise phrase) regime.Fits
  tryEqualTerm : ∀ {left right}, regime.Fits left → regime.Fits right →
    regime.Holds (tryEqualTerm left right) fun _ => True
  tryLeqSort : ∀ {left right}, regime.Fits left → regime.Fits right →
    regime.Holds (tryLeqSort left right) fun _ => True
  inferVariable : ∀ index, regime.Holds (inferVariable index) regime.Fits
  inferConstant : ∀ {path}, regime.Fits (.const path) →
    regime.Holds (inferConstant path) regime.Fits
  inferPlaceholder : ∀ {id arguments}, regime.Fits (.placeholder id arguments) →
    regime.Holds (inferPlaceholder id arguments) regime.Fits
  resolveVariable : ∀ text, regime.Holds (resolveVariable text) regime.Fits
  resolveConstant : ∀ text, regime.Holds (resolveConstant text) regime.Fits
  freshSort : ∀ belowOmega, regime.Creates → regime.Holds (freshSort belowOmega) regime.Fits
  freshTerm : ∀ {ty}, regime.Creates → regime.Fits ty → regime.Holds (freshTerm ty) regime.Fits

namespace Regime.Lawful

variable {regime : Regime} {term : Term} {ty : Ty} {sort : Universe} {telescope : Telescope}
variable {head : DataHead} {α : Type}

section

variable (lawful : regime.Lawful)
include lawful

theorem sortFits (fits : regime.Fits ty) : regime.Fits ty.sort := by
  cases ty
  exact (lawful.classified.1 fits).1

theorem termFits (fits : regime.Fits ty) : regime.Fits ty.term := by
  cases ty
  exact (lawful.classified.1 fits).2

theorem lift_bind {halting : Except Halt α} {next : α → CheckM β} {answers : β → Prop}
    (continues : ∀ value, halting = .ok value → regime.Holds (next value) answers) :
    regime.Holds (monadLift halting >>= next) answers :=
  lawful.bind (lawful.lift fun _ succeeded => succeeded) continues

theorem mapM_lift {action : β → Except Halt α} (list : List β) :
    regime.Holds (list.mapM fun element => (monadLift (action element) : CheckM α))
      fun _ => True := by
  induction list with
  | nil => exact lawful.pure trivial
  | cons first rest ih =>
    rw [List.mapM_cons]
    exact lawful.lift_bind fun _ _ => lawful.bind ih fun _ _ => lawful.pure trivial

theorem under {body : CheckM α} {answers : α → Prop}
    (fits : ∀ domain ∈ telescope, regime.Fits domain.ty) (holds : regime.Holds body answers) :
    regime.Holds (under telescope body) answers := by
  have pushed : regime.Holds (telescope.forM CheckM.push) fun _ => True := by
    induction telescope with
    | nil => exact lawful.pure trivial
    | cons domain telescope ih =>
      rw [List.forall_mem_cons] at fits
      exact lawful.bind (lawful.push fits.1) fun _ _ => ih fits.2
  exact lawful.restoreScope (lawful.bind pushed fun _ _ => holds)

theorem equalTerm {left right : Term} (leftFits : regime.Fits left)
    (rightFits : regime.Fits right) :
    regime.Holds (equalTerm left right) fun _ => True := by
  have same : CheckM.equalTerm left right = CheckM.tryEqualTerm left right >>= fun result =>
      match result with
      | .ok value => Pure.pure value
      | .error error => Attempt.fail (.conversion error) := by
    simp only [CheckM.equalTerm, CheckM.tryEqualTerm, convert, bind_assoc]
    congr! 4
    split <;> rfl
  rw [same]
  refine lawful.bind (lawful.tryEqualTerm leftFits rightFits) fun result _ => ?_
  cases result with
  | ok _ => exact lawful.pure trivial
  | error _ => exact lawful.fail

theorem leqSort {left right : Universe} (leftFits : regime.Fits left)
    (rightFits : regime.Fits right) : regime.Holds (leqSort left right) fun _ => True := by
  have same : CheckM.leqSort left right = CheckM.tryLeqSort left right >>= fun result =>
      match result with
      | .ok value => Pure.pure value
      | .error error => Attempt.fail (.conversion error) := by
    simp only [CheckM.leqSort, CheckM.tryLeqSort, convert, bind_assoc]
    congr! 4
    split <;> rfl
  rw [same]
  refine lawful.bind (lawful.tryLeqSort leftFits rightFits) fun result _ => ?_
  cases result with
  | ok _ => exact lawful.pure trivial
  | error _ => exact lawful.fail

/-! ## Inference -/

theorem piSort {domain codomain : Universe} (domainFits : regime.Fits domain)
    (codomainFits : regime.Fits codomain) : regime.Holds (piSort domain codomain) regime.Fits := by
  refine lawful.bind (lawful.reduce domainFits) fun domain domainFits => ?_
  refine lawful.bind (lawful.reduce codomainFits) fun codomain codomainFits => ?_
  have outsideFits : ∀ outside, codomain.strengthen? 1 = some outside → regime.Fits outside :=
    fun _ strengthened => lawful.strengthen? codomainFits strengthened
  dsimp only
  cases isSort : Universe.pi? domain (codomain.strengthen? 1) with
  | some sort => exact lawful.pure (lawful.pi? domainFits outsideFits isSort)
  | none =>
    cases isOutside : codomain.strengthen? 1 with
    | none => simp [isOutside, Universe.pi?] at isSort
    | some outside =>
      rw [isOutside] at isSort
      -- Only a placeholder keeps the sort from being known.
      have creates : regime.Creates := by
        cases domain with
        | sortPlaceholder => exact lawful.createsSort domainFits
        | _ =>
          cases outside with
          | sortPlaceholder => exact lawful.createsSort (outsideFits _ isOutside)
          | _ => cases isSort
      refine lawful.bind (lawful.freshSort false creates) fun sort sortFits => ?_
      refine lawful.bind (lawful.leqSort domainFits sortFits) fun _ _ => ?_
      refine lawful.bind (lawful.leqSort (outsideFits _ isOutside) sortFits) fun _ _ => ?_
      exact lawful.pure sortFits

theorem inferPhrase {category : Category} {phrase : Phrase category} (isTerm : category = .term)
    (fits : regime.Fits phrase) : regime.Holds (inferPhrase phrase isTerm) regime.Fits := by
  induction phrase with
  | var index => exact lawful.inferVariable index
  | const path => exact lawful.inferConstant fits
  | app function argument info ihFunction ihArgument =>
    obtain ⟨functionFits, argumentFits⟩ := lawful.app.1 fits
    refine lawful.bind (ihFunction rfl functionFits) fun functionType typeFits => ?_
    refine lawful.bind (lawful.reduce typeFits) fun reduced reducedFits => ?_
    split
    · obtain ⟨domainFits, codomainFits⟩ := lawful.function.1 reducedFits
      split
      · refine lawful.bind (ihArgument rfl argumentFits) fun argumentType typeFits => ?_
        refine lawful.bind (lawful.equalTerm typeFits (lawful.termFits domainFits)) fun _ _ => ?_
        exact lawful.lift fun _ instantiated => lawful.instantiate? (lawful.termFits codomainFits)
          argumentFits (checked_eq_ok_iff.1 instantiated)
      · exact lawful.fail
    · exact lawful.fail
  | pi name info domain codomain =>
    obtain ⟨domainFits, codomainFits⟩ := lawful.function.1 fits
    exact lawful.bind (lawful.piSort (lawful.sortFits domainFits) (lawful.sortFits codomainFits))
      fun _ sortFits => lawful.pure (lawful.univ.2 sortFits)
  | univ sort =>
    exact lawful.lift_bind fun _ succeeded => lawful.pure
      (lawful.univ.2 (lawful.succ? (lawful.univ.1 fits) (checked_eq_ok_iff.1 succeeded)))
  | level bound => exact lawful.pure lawful.levels
  | placeholder id arguments => exact lawful.inferPlaceholder fits
  | _ => cases isTerm

theorem infer (fits : regime.Fits term) : regime.Holds (infer term) regime.Fits :=
  lawful.inferPhrase rfl fits

theorem inferSort (fits : regime.Fits term) : regime.Holds (inferSort term) regime.Fits := by
  refine lawful.bind (lawful.infer fits) fun ty typeFits => ?_
  refine lawful.bind (lawful.reduce typeFits) fun reduced reducedFits => ?_
  split
  · exact lawful.pure (lawful.univ.1 reducedFits)
  · refine lawful.bind (lawful.freshSort false (lawful.creates reducedFits)) fun sort sortFits => ?_
    refine lawful.bind (lawful.equalTerm reducedFits (lawful.univ.2 sortFits)) fun _ _ => ?_
    exact lawful.pure sortFits
  · exact lawful.fail

/-! ## Elaboration -/

theorem asType (fits : regime.Fits term) : regime.Holds (asType term) regime.Fits :=
  lawful.bind (lawful.inferSort fits) fun _ sortFits =>
    lawful.pure (lawful.classified.2 ⟨sortFits, fits⟩)

theorem asLevel (expression : Expr) (fits : regime.Fits term) :
    regime.Holds (asLevel expression term) regime.Fits := by
  cases expression with
  | levelLit | levelSuc | levelMax => exact lawful.pure (lawful.ofTerm fits)
  | _ =>
    refine lawful.bind (lawful.infer fits) fun ty typeFits => ?_
    refine lawful.bind (lawful.equalTerm typeFits lawful.levels) fun _ _ => ?_
    exact lawful.pure (lawful.ofTerm fits)

theorem freshHole (creates : regime.Creates) : regime.Holds freshHole regime.Fits := by
  refine lawful.bind (lawful.freshSort false creates) fun sort sortFits => ?_
  refine lawful.bind (lawful.freshTerm creates (lawful.univ.2 sortFits)) fun ty typeFits => ?_
  exact lawful.freshTerm creates typeFits

/-- A function type whose domain and codomain are elaborated. -/
theorem functionType {domain codomain : CheckM Term} (text : String) (info : ArgInfo)
    (domainHolds : regime.Holds domain regime.Fits)
    (codomainHolds : regime.Holds codomain regime.Fits) :
    regime.Holds
      (do
        let name ← CheckM.enterName text
        let domain ← domain
        let domain ← CheckM.asType domain
        let codomain ← CheckM.under [⟨name, info, domain⟩] do
          let codomain ← codomain
          CheckM.asType codomain
        Pure.pure (.pi name info domain codomain))
      regime.Fits := by
  refine lawful.bind (lawful.enterName text) fun name _ => ?_
  refine lawful.bind domainHolds fun domain domainFits => ?_
  refine lawful.bind (lawful.asType domainFits) fun domain domainFits => ?_
  have codomainType := lawful.bind codomainHolds fun _ fits => lawful.asType fits
  refine lawful.bind (lawful.under (by simpa using domainFits) codomainType) fun _ fits => ?_
  exact lawful.pure (lawful.function.2 ⟨domainFits, fits⟩)

end

mutual

/-- An expression without holes needs no placeholder. -/
theorem elaborate (lawful : regime.Lawful) :
    ∀ {expression : Expr}, regime.Creates ∨ expression.isHoleFree = true →
      regime.Holds (elaborate expression) regime.Fits
  | .var name, _ => by
    rw [CheckM.elaborate]
    exact lawful.resolveVariable name
  | .const name, _ => by
    rw [CheckM.elaborate]
    exact lawful.resolveConstant name
  | .app function arguments, accepted => by
    simp only [Expr.isHoleFree, Bool.and_eq_true, or_and_left] at accepted
    rw [CheckM.elaborate]
    refine lawful.bind (lawful.elaborate accepted.1) fun function functionFits => ?_
    refine lawful.bind (lawful.elaborateArguments accepted.2 functionFits) fun term fits => ?_
    exact lawful.bind (lawful.infer fits) fun _ _ => lawful.pure fits
  | .pi name info domain codomain, accepted => by
    simp only [Expr.isHoleFree, Bool.and_eq_true, or_and_left] at accepted
    rw [CheckM.elaborate]
    exact lawful.functionType name info (lawful.elaborate accepted.1) (lawful.elaborate accepted.2)
  | .arrow domain codomain, accepted => by
    simp only [Expr.isHoleFree, Bool.and_eq_true, or_and_left] at accepted
    rw [CheckM.elaborate]
    exact lawful.functionType "_" {} (lawful.elaborate accepted.1) (lawful.elaborate accepted.2)
  | .set level, _ => by
    rw [CheckM.elaborate]
    exact lawful.pure (lawful.univ.2 (lawful.set.2 (lawful.number level)))
  | .setAt level, accepted => by
    rw [CheckM.elaborate]
    refine lawful.bind (lawful.elaborate accepted) fun term fits => ?_
    exact lawful.bind (lawful.asLevel level fits) fun _ fits =>
      lawful.pure (lawful.univ.2 (lawful.set.2 fits))
  | .prop, _ => by
    rw [CheckM.elaborate]
    exact lawful.pure (lawful.univ.2 lawful.prop)
  | .setOmega, _ => by
    rw [CheckM.elaborate]
    exact lawful.pure (lawful.univ.2 lawful.omega)
  | .sizeUniv, _ => by
    rw [CheckM.elaborate]
    exact lawful.pure (lawful.univ.2 lawful.sizeUniv)
  | .levelLit level, _ => by
    rw [CheckM.elaborate]
    exact lawful.pure (lawful.level.2 (lawful.number level))
  | .levelSuc level, accepted => by
    rw [CheckM.elaborate]
    refine lawful.bind (lawful.elaborate accepted) fun term fits => ?_
    refine lawful.bind (lawful.asLevel level fits) fun bound fits => ?_
    exact lawful.lift_bind fun _ succeeded =>
      lawful.pure (lawful.level.2 (lawful.raise? fits (checked_eq_ok_iff.1 succeeded)))
  | .levelMax left right, accepted => by
    simp only [Expr.isHoleFree, Bool.and_eq_true, or_and_left] at accepted
    rw [CheckM.elaborate]
    refine lawful.bind (lawful.elaborate accepted.1) fun leftTerm fits => ?_
    refine lawful.bind (lawful.asLevel left fits) fun leftLevel leftFits => ?_
    refine lawful.bind (lawful.elaborate accepted.2) fun rightTerm fits => ?_
    exact lawful.bind (lawful.asLevel right fits) fun _ rightFits =>
      lawful.pure (lawful.level.2 (lawful.join leftFits rightFits))
  | .hole, accepted => by
    rw [CheckM.elaborate]
    exact lawful.freshHole (accepted.resolve_right (by simp [Expr.isHoleFree]))

theorem elaborateArguments (lawful : regime.Lawful) :
    ∀ {arguments : List (ArgMode × Expr)} {function : Term},
      regime.Creates ∨ Expr.areHoleFree arguments = true → regime.Fits function →
      regime.Holds (elaborateArguments function arguments) regime.Fits
  | [], _, _, fits => by
    rw [CheckM.elaborateArguments]
    exact lawful.pure fits
  | (mode, argument) :: arguments, _, accepted, fits => by
    simp only [Expr.areHoleFree, Bool.and_eq_true, or_and_left] at accepted
    rw [CheckM.elaborateArguments]
    refine lawful.bind (lawful.elaborate accepted.1) fun argument argumentFits => ?_
    exact lawful.elaborateArguments accepted.2 (lawful.app.2 ⟨fits, argumentFits⟩)

end

variable (lawful : regime.Lawful)
include lawful

theorem elaborateType {expression : Expr}
    (accepted : regime.Creates ∨ expression.isHoleFree = true) :
    regime.Holds (elaborateType expression) regime.Fits :=
  lawful.bind (lawful.elaborate accepted) fun _ fits => lawful.asType fits

/-! ## Parameters and sorts -/

theorem checkAscription {binding : ParameterBinding} {domain : Ty}
    (accepted : regime.Creates ∨ binding.ty.all Expr.isHoleFree = true)
    (fits : regime.Fits domain) : regime.Holds (checkAscription binding domain) fun _ => True := by
  unfold CheckM.checkAscription
  split
  · exact lawful.pure trivial
  · rename_i isAscribed
    rw [isAscribed] at accepted
    refine lawful.bind (lawful.elaborateType accepted) fun ascribed ascribedFits => ?_
    exact lawful.equalTerm (lawful.termFits ascribedFits) (lawful.termFits fits)

theorem bindParameters {fuel : Nat} {bindings : List ParameterBinding}
    (accepted : ∀ binding ∈ bindings, regime.Creates ∨ binding.ty.all Expr.isHoleFree = true)
    (fits : regime.Fits ty) :
    regime.Holds (bindParameters fuel bindings ty) fun bound =>
      (∀ domain ∈ bound.1, regime.Fits domain.ty) ∧ regime.Fits bound.2 := by
  induction fuel generalizing bindings ty with
  | zero =>
    cases bindings with
    | nil => exact lawful.pure ⟨by simp, fits⟩
    | cons => exact lawful.halt
  | succ fuel ih =>
    cases bindings with
    | nil => exact lawful.pure ⟨by simp, fits⟩
    | cons binding bindings =>
      -- The binder comes into scope, under its own name or that of the parameter.
      have next : ∀ {bindings : List ParameterBinding} {domain : Domain} {codomain : Ty},
          (∀ binding ∈ bindings, regime.Creates ∨ binding.ty.all Expr.isHoleFree = true) →
          regime.Fits domain.ty → regime.Fits codomain → regime.Holds
            (do
              CheckM.push domain
              let bound ← CheckM.bindParameters fuel bindings codomain
              Pure.pure (domain :: bound.1, bound.2))
            fun bound => (∀ domain ∈ bound.1, regime.Fits domain.ty) ∧ regime.Fits bound.2 := by
        intro bindings domain codomain accepted domainFits codomainFits
        refine lawful.bind (lawful.push domainFits) fun _ _ => ?_
        refine lawful.bind (ih accepted codomainFits) fun bound boundFits => ?_
        exact lawful.pure ⟨List.forall_mem_cons.2 ⟨domainFits, boundFits.1⟩, boundFits.2⟩
      obtain ⟨firstAccepted, restAccepted⟩ := List.forall_mem_cons.1 accepted
      refine lawful.bind (lawful.reduce (lawful.termFits fits)) fun reduced reducedFits => ?_
      split
      · obtain ⟨domainFits, codomainFits⟩ := lawful.function.1 reducedFits
        split
        · refine lawful.bind (lawful.checkAscription firstAccepted domainFits) fun _ _ => ?_
          exact lawful.bind (lawful.enterName _) fun _ _ =>
            next restAccepted domainFits codomainFits
        · split
          · exact next accepted domainFits codomainFits
          · exact lawful.halt
      · exact lawful.halt

theorem checkIf {condition : Prop} [Decidable condition] {check : CheckM Unit}
    (holds : regime.Holds check fun _ => True) :
    regime.Holds (checkIf condition check) fun _ => True := by
  unfold CheckM.checkIf
  split
  · exact holds
  · exact lawful.pure trivial

theorem leqSortOr {left right : Universe} {wrap : ConversionError → CheckError}
    (leftFits : regime.Fits left) (rightFits : regime.Fits right) :
    regime.Holds (leqSortOr left right wrap) fun _ => True := by
  refine lawful.bind (lawful.tryLeqSort leftFits rightFits) fun result _ => ?_
  cases result with
  | ok _ => exact lawful.pure trivial
  | error _ => exact lawful.fail

theorem leqLifted {bound : Universe} {binders : Nat} {wrap : ConversionError → CheckError}
    (sortFits : regime.Fits sort) (boundFits : regime.Fits bound) :
    regime.Holds (leqLifted sort bound binders wrap) fun _ => True :=
  lawful.lift_bind fun _ isLifted =>
    lawful.leqSortOr sortFits (lawful.lift? boundFits (checked_eq_ok_iff.1 isLifted))

theorem checkIndicesBelow {bound : Universe}
    (boundFits : regime.Fits bound) (fits : ∀ index ∈ telescope, regime.Fits index.ty) :
    regime.Holds (checkIndicesBelow datatype bound position telescope) fun _ => True := by
  induction telescope generalizing position with
  | nil => exact lawful.pure trivial
  | cons index indices ih =>
    rw [List.forall_mem_cons] at fits
    rw [checkIndicesBelow_cons]
    refine lawful.bind (lawful.leqLifted (lawful.sortFits fits.1) boundFits) fun _ _ => ?_
    exact lawful.bind (lawful.push fits.1) fun _ _ => ih fits.2

theorem checkIndexSorts (fits : ∀ index ∈ telescope, regime.Fits index.ty)
    (sortFits : regime.Fits sort) :
    regime.Holds (checkIndexSorts datatype telescope sort) fun _ => True := by
  refine lawful.bind (lawful.reduce sortFits) fun reduced reducedFits => lawful.restoreScope ?_
  refine lawful.checkIndicesBelow ?_ fits
  split
  · exact lawful.set.2 (lawful.number 0)
  · exact reducedFits

theorem proves {comparison : CheckM (Except ConversionError Unit)}
    (holds : regime.Holds comparison fun _ => True) :
    regime.Holds (proves comparison) fun _ => True := by
  refine lawful.localState (lawful.get_bind (fun shares => ?_) fun before => ?_)
  · simp only [shares.constraints]
  · refine lawful.bind holds fun result _ => ?_
    cases result with
    | error _ => exact lawful.pure trivial
    | ok _ =>
      refine lawful.get_bind (fun shares => ?_) fun after => lawful.pure trivial
      simp only [shares.constraints]

theorem isSmall (fits : regime.Fits ty) (sortFits : regime.Fits sort) :
    regime.Holds (isSmall ty sort) fun _ => True := by
  have isLevel := lawful.bind (lawful.reduce (lawful.termFits fits)) fun _ reducedFits =>
    lawful.tryEqualTerm reducedFits lawful.levels
  refine lawful.bind (lawful.proves isLevel) fun isLevel _ => ?_
  split
  · exact lawful.pure trivial
  · exact lawful.proves (lawful.tryLeqSort (lawful.sortFits fits) sortFits)

theorem smallParameters (fits : ∀ domain ∈ telescope, regime.Fits domain.ty)
    (sortFits : regime.Fits sort) :
    regime.Holds (smallParameters telescope sort) fun _ => True := by
  have among : ∀ positions, regime.Holds (smallAmong telescope sort positions) fun _ => True := by
    intro positions
    induction positions with
    | nil => exact lawful.pure trivial
    | cons position positions ih =>
      refine lawful.lift_bind fun found isFound => ?_
      cases found with
      | none => exact ih
      | some ty =>
        have tyFits : regime.Fits ty := by
          obtain ⟨domain, isDomain, isLifted⟩ :=
            Telescope.exists_of_liftedType? (checked_eq_ok_iff.1 isFound)
          exact lawful.lift? (fits domain (List.mem_of_getElem? isDomain)) isLifted
        refine lawful.bind (lawful.isSmall tyFits sortFits) fun small _ => ?_
        exact lawful.bind ih fun _ _ => lawful.pure trivial
  exact lawful.bind (among _) fun _ _ => lawful.pure trivial

/-! ## Constructors -/

theorem checkParameters {outermost : Nat} {arguments : List (ArgInfo × Term)}
    (fits : ∀ argument ∈ arguments, regime.Fits argument.2) :
    regime.Holds (checkParameters outermost position arguments) fun _ => True := by
  induction arguments generalizing position with
  | nil => exact lawful.pure trivial
  | cons argument arguments ih =>
    rw [List.forall_mem_cons] at fits
    have rest : regime.Holds (CheckM.checkParameters outermost (position + 1) arguments)
        fun _ => True := ih fits.2
    unfold CheckM.checkParameters
    split
    · exact rest
    · exact lawful.bind (lawful.equalTerm fits.1 (lawful.var _)) fun _ _ => rest

theorem checkTarget
    (walked : ∀ fuel, regime.Holds (walkToTarget head constructor fuel 0 ty.term) fun reached =>
      regime.Fits reached.2) :
    regime.Holds (checkTarget head constructor ty) fun _ => True := by
  refine lawful.get_bind (fun shares => ?_) fun checker => ?_
  · simp only [shares.fuel]
  · refine lawful.bind (walked checker.fuel) fun reached reachedFits => ?_
    refine lawful.bind (lawful.normalise reachedFits) fun target targetFits => ?_
    dsimp only
    split
    · refine lawful.bind (lawful.checkParameters fun argument present =>
        lawful.arguments targetFits argument (List.mem_of_mem_take present)) fun _ _ => ?_
      exact lawful.bind (lawful.mapM_lift _) fun _ _ => lawful.pure trivial
    · exact lawful.fail

theorem checkArguments {constructor : Path} {forced : List Bool} {fuel position : Nat}
    (sortFits : regime.Fits head.sort) (fits : regime.Fits term) :
    regime.Holds (checkArguments head constructor forced fuel position term) fun _ => True := by
  induction fuel generalizing position term with
  | zero => exact lawful.halt
  | succ fuel ih =>
    rw [checkArguments_succ]
    refine lawful.bind (lawful.reduce fits) fun reduced reducedFits => ?_
    split
    · obtain ⟨domainFits, codomainFits⟩ := lawful.function.1 reducedFits
      refine lawful.get_bind (fun shares => ?_) fun checker => ?_
      · simp only [shares.options]
      · refine lawful.bind (lawful.reduce (lawful.sortFits domainFits)) fun sort argumentFits => ?_
        refine lawful.bind (lawful.checkIf (lawful.leqLifted argumentFits sortFits)) fun _ _ => ?_
        exact lawful.bind (lawful.push domainFits) fun _ _ => ih (lawful.termFits codomainFits)
    · exact lawful.pure trivial

theorem checkFits {forced : List Bool} (sortFits : regime.Fits head.sort) (fits : regime.Fits ty) :
    regime.Holds (checkFits head constructor forced ty) fun _ => True := by
  rw [checkFits_eq]
  refine lawful.get_bind (fun shares => ?_) fun checker => ?_
  · simp only [shares.options, shares.fuel]
  · refine lawful.bind (lawful.checkIf (lawful.leqSortOr (lawful.sortFits fits) sortFits))
      fun _ _ => ?_
    exact lawful.restoreScope (lawful.checkArguments sortFits (lawful.termFits fits))

theorem checkSingleton {path : Path} {constructors : Nat} (fits : regime.Fits sort) :
    regime.Holds (checkSingleton path sort constructors) fun _ => True := by
  refine lawful.get_bind (fun shares => ?_) fun checker => ?_
  · simp only [shares.options]
  · split
    · refine lawful.bind (lawful.reduce fits) fun _ _ => ?_
      split
      · exact lawful.fail
      · exact lawful.pure trivial
    · exact lawful.pure trivial

/-! ## Functions -/

theorem bindArguments (fits : regime.Fits term) :
    regime.Holds (bindArguments parameters term) regime.Fits := by
  induction parameters generalizing term with
  | nil => exact lawful.pure fits
  | cons parameter parameters ih =>
    refine lawful.bind (lawful.reduce fits) fun reduced reducedFits => ?_
    split
    · obtain ⟨domainFits, codomainFits⟩ := lawful.function.1 reducedFits
      refine lawful.bind (lawful.enterName _) fun _ _ => ?_
      exact lawful.bind (lawful.push domainFits) fun _ _ => ih (lawful.termFits codomainFits)
    · exact lawful.fail

theorem checkBody {body : Expr} (fits : regime.Fits ty)
    (accepted : regime.Creates ∨ body.isHoleFree = true) :
    regime.Holds (checkBody ty parameters body) regime.Fits := by
  refine lawful.bind (lawful.bindArguments (lawful.termFits fits)) fun expected expectedFits => ?_
  refine lawful.bind (lawful.elaborate accepted) fun term termFits => ?_
  refine lawful.bind (lawful.infer termFits) fun inferred inferredFits => ?_
  exact lawful.bind (lawful.equalTerm inferredFits expectedFits) fun _ _ =>
    lawful.normalise termFits

end Regime.Lawful

end CheckM
end Families
