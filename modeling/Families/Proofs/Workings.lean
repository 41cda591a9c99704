import Families.Proofs.Dependencies

/-!
# The workings of comparisons

A comparison reduces or normalises both sides, solves a placeholder, postpones itself, or goes on
with parts of the sides.  It is described once in these terms.  What holds of comparisons then
follows from what holds of solving and of postponing.
-/

namespace Families
namespace ConvM

/-- What comparisons are made of: states, phrases, and whether placeholders may be solved. -/
structure Scene where
  /-- The states in which comparisons are made. -/
  Good : State → Prop
  /-- The phrases that are compared. -/
  Fits : {category : Category} → Phrase category → Prop
  /-- Placeholders may be solved. -/
  Solves : Prop

namespace Scene

/-- Nothing is asked of states and phrases. -/
def anything (solves : Prop) : Scene :=
  ⟨fun _ => True, fun _ => True, solves⟩

/-- What comparisons make of fitting phrases fits. -/
structure Lawful (scene : Scene) : Prop where
  reduce : ∀ {category state fuel} {phrase result : Phrase category}, scene.Good state →
    reduce state fuel phrase = .ok result → scene.Fits phrase → scene.Fits result
  normalise : ∀ {category state fuel} {phrase result : Phrase category}, scene.Good state →
    normalise state fuel phrase = .ok result → scene.Fits phrase → scene.Fits result
  pi : ∀ {name info} {domain codomain : Ty}, scene.Fits (.pi name info domain codomain) →
    scene.Fits domain.term ∧ scene.Fits codomain.term
  spine : ∀ {term : Term}, scene.Fits term →
    scene.Fits term.head ∧ ∀ argument ∈ term.arguments, scene.Fits argument.2
  univ : ∀ {sort : Universe}, scene.Fits (.univ sort) → scene.Fits sort
  set : ∀ {bound : Level}, scene.Fits (.set bound) → scene.Fits bound
  ofTerm : ∀ {term : Term}, scene.Fits term → scene.Fits (Level.ofTerm term)
  level : ∀ {bound : Level}, scene.Fits bound → scene.Fits (.level bound)
  placeholder : ∀ {bound : Level} {id arguments}, scene.Fits bound →
    Level.asPlaceholder? bound = some (id, arguments) → scene.Fits (.placeholder id arguments)

theorem lawful_anything (solves : Prop) : (anything solves).Lawful := by
  constructor <;> intros <;> simp [anything]

/-- Phrases that use admitted placeholders only. -/
def usage (good : State → Prop) (admitted : Category → Nat → Prop) : Scene :=
  ⟨good, fun phrase => phrase.Uses admitted, True⟩

theorem lawful_usage {good : State → Prop} {admitted : Category → Nat → Prop}
    (supplies : ∀ {state}, good state → state.Supplies admitted) :
    (usage good admitted).Lawful where
  reduce isGood reached uses := (supplies isGood).reduce reached uses
  normalise isGood reached uses := ((supplies isGood).normalise reached uses).mono And.left
  pi := by
    rintro _ _ _ _ ⟨depth, domain, codomain⟩
    exact ⟨⟨_, domain.term⟩, ⟨_, codomain.term⟩⟩
  spine := by
    rintro _ ⟨depth, inScope⟩
    obtain ⟨head, arguments⟩ := (Phrase.scoped_iff_arguments _).1 inScope
    exact ⟨⟨_, head⟩, fun argument present => ⟨_, arguments argument present⟩⟩
  univ uses := uses
  set uses := uses
  ofTerm := by
    rintro _ ⟨depth, inScope⟩
    exact ⟨depth, Level.scoped_ofTerm inScope⟩
  level uses := uses
  placeholder := by
    rintro _ _ _ ⟨depth, inScope⟩ isPlaceholder
    exact ⟨depth, Level.scoped_iff.1 inScope _ (Level.mem_terms_of_asPlaceholder? isPlaceholder)⟩

/-- A phrase that is compared has a placeholder. -/
def Waits (scene : Scene) : Prop :=
  ∃ (category : Category) (phrase : Phrase category), scene.Fits phrase ∧
    phrase.hasPlaceholder = true

end Scene

variable {scene : Scene} {state : State} {fuel depth id : Nat} {comparison : ConvM Unit}

/-- From the state the comparison goes on in this way. -/
inductive Compares (scene : Scene) : ConvM Unit → State → Prop where
  | pure {state : State} : Compares scene (pure ()) state
  | fail {state : State} (error : ConversionError) : Compares scene (Attempt.fail error) state
  | exhausted {state : State} : Compares scene (Attempt.halt .exhausted) state
  | postpone {state : State} {depth : Nat} {comparison : Comparison} :
      scene.Waits → Compares scene (postpone depth comparison) state
  | assignTerm {state : State} {fuel depth id : Nat} {arguments : Phrase .terms} {value : Term} :
      scene.Solves → scene.Fits (.placeholder id arguments) → scene.Fits value →
      Compares scene (assignTerm fuel depth id arguments value) state
  | assignSort {state : State} {fuel depth id : Nat} {arguments : Phrase .terms}
      {value : Universe} :
      scene.Solves → scene.Fits (.sortPlaceholder id arguments) → scene.Fits value →
      Inert state value → Compares scene (assignSort fuel depth id arguments value) state
  | reduce {state : State} {fuel : Nat} {category : Category} {left right : Phrase category}
      {next : Phrase category → Phrase category → ConvM Unit} :
      scene.Fits left → scene.Fits right →
      (∀ left' right', reduce state fuel left = .ok left' → reduce state fuel right = .ok right' →
        Compares scene (next left' right') state) →
      Compares scene (get >>= fun state => monadLift (reduce state fuel left) >>= fun left' =>
        monadLift (reduce state fuel right) >>= fun right' => next left' right') state
  | normalise {state : State} {fuel : Nat} {category : Category} {left right : Phrase category}
      {next : Phrase category → Phrase category → ConvM Unit} :
      scene.Fits left → scene.Fits right →
      (∀ left' right', normalise state fuel left = .ok left' →
        normalise state fuel right = .ok right' → Compares scene (next left' right') state) →
      Compares scene (get >>= fun state => monadLift (normalise state fuel left) >>= fun left' =>
        monadLift (normalise state fuel right) >>= fun right' => next left' right') state
  | bind {state : State} {first next : ConvM Unit} :
      Compares scene first state → (∀ {later}, scene.Good later → Compares scene next later) →
      Compares scene (first >>= fun _ => next) state

section Lawful

variable (lawful : scene.Lawful)
include lawful

theorem compares_equalLevel {left right : Level} (solves : scene.Solves) (good : scene.Good state)
    (leftFits : scene.Fits left) (rightFits : scene.Fits right) :
    Compares scene (equalLevel fuel depth left right) state := by
  refine .normalise leftFits rightFits fun left' right' leftReached rightReached => ?_
  have leftFits' := lawful.normalise good leftReached leftFits
  have rightFits' := lawful.normalise good rightReached rightFits
  split
  · exact .pure
  · split
    · rename_i isPlaceholder
      exact .assignTerm solves (lawful.placeholder leftFits' isPlaceholder)
        (lawful.level rightFits')
    · rename_i isPlaceholder
      exact .assignTerm solves (lawful.placeholder rightFits' isPlaceholder)
        (lawful.level leftFits')
    · split
      · rename_i waits
        rcases Bool.or_eq_true_iff.1 waits with left | right
        · exact .postpone ⟨_, _, leftFits', left⟩
        · exact .postpone ⟨_, _, rightFits', right⟩
      · exact .fail _

theorem compares_leqLevel {left right : Level} (good : scene.Good state)
    (leftFits : scene.Fits left) (rightFits : scene.Fits right) :
    Compares scene (leqLevel fuel depth left right) state := by
  refine .normalise leftFits rightFits fun left' right' leftReached rightReached => ?_
  split
  · exact .pure
  · split
    · rename_i waits
      rcases Bool.or_eq_true_iff.1 waits with left | right
      · exact .postpone ⟨_, _, lawful.normalise good leftReached leftFits, left⟩
      · exact .postpone ⟨_, _, lawful.normalise good rightReached rightFits, right⟩
    · exact .fail _

theorem compares_equalSort {left right : Universe} (solves : scene.Solves) (good : scene.Good state)
    (leftFits : scene.Fits left) (rightFits : scene.Fits right) :
    Compares scene (equalSort fuel depth left right) state := by
  refine .reduce leftFits rightFits fun left' right' leftReached rightReached => ?_
  have leftFits' := lawful.reduce good leftReached leftFits
  have rightFits' := lawful.reduce good rightReached rightFits
  split
  · exact .pure
  · split
    · exact .assignSort solves leftFits' rightFits' (inert_of_reduce rightReached)
    · exact .assignSort solves rightFits' leftFits' (inert_of_reduce leftReached)
    · exact compares_equalLevel lawful solves good (lawful.set leftFits') (lawful.set rightFits')
    · exact .fail _

/-- The order of sorts is judged without solving anything. -/
theorem compares_leqSort {left right : Universe} (good : scene.Good state)
    (leftFits : scene.Fits left) (rightFits : scene.Fits right) :
    Compares scene (leqSort fuel depth left right) state := by
  refine .normalise leftFits rightFits fun left' right' leftReached rightReached => ?_
  have leftFits' := lawful.normalise good leftReached leftFits
  have rightFits' := lawful.normalise good rightReached rightFits
  split
  · exact .pure
  · split
    · exact .postpone ⟨_, _, leftFits', rfl⟩
    · exact .postpone ⟨_, _, rightFits', rfl⟩
    · exact .fail _
    · exact .fail _
    · exact .pure
    · exact .pure
    · exact compares_leqLevel lawful good (lawful.set leftFits') (lawful.set rightFits')
    · exact .fail _

omit lawful in
theorem compares_equalArguments {equal : Term → Term → ConvM Unit}
    (compares : ∀ {state left right}, scene.Good state → scene.Fits left → scene.Fits right →
      Compares scene (equal left right) state) :
    ∀ {left right : List (ArgInfo × Term)} {state : State}, scene.Good state →
      (∀ argument ∈ left, scene.Fits argument.2) → (∀ argument ∈ right, scene.Fits argument.2) →
      Compares scene (equalArguments equal left right) state
  | (info, left) :: lefts, (_, right) :: rights, state, good, leftFits, rightFits => by
    rw [List.forall_mem_cons] at leftFits rightFits
    rw [equalArguments]
    split
    · exact compares_equalArguments compares good leftFits.2 rightFits.2
    · refine .bind (compares good leftFits.1 rightFits.1) fun good => ?_
      exact compares_equalArguments compares good leftFits.2 rightFits.2
  | [], _, _, _, _, _ | _ :: _, [], _, _, _, _ => .pure

theorem compares_equalTerm {left right : Term} (solves : scene.Solves) (good : scene.Good state)
    (leftFits : scene.Fits left) (rightFits : scene.Fits right) :
    Compares scene (equalTerm fuel depth left right) state := by
  induction fuel generalizing depth left right state with
  | zero => exact .exhausted
  | succ fuel ih =>
    rw [equalTerm]
    refine .reduce leftFits rightFits fun left' right' leftReached rightReached => ?_
    have leftFits' := lawful.reduce good leftReached leftFits
    have rightFits' := lawful.reduce good rightReached rightFits
    split
    · exact .pure
    · split
      · exact .assignTerm solves leftFits' rightFits'
      · exact .assignTerm solves rightFits' leftFits'
      · exact compares_equalLevel lawful solves good (lawful.ofTerm leftFits')
          (lawful.ofTerm rightFits')
      · exact compares_equalLevel lawful solves good (lawful.ofTerm leftFits')
          (lawful.ofTerm rightFits')
      · exact compares_equalSort lawful solves good (lawful.univ leftFits') (lawful.univ rightFits')
      · obtain ⟨leftDomain, leftCodomain⟩ := lawful.pi leftFits'
        obtain ⟨rightDomain, rightCodomain⟩ := lawful.pi rightFits'
        split
        · exact .bind (ih good leftDomain rightDomain) fun good =>
            ih good leftCodomain rightCodomain
        · exact .fail _
      · obtain ⟨leftHead, leftArguments⟩ := lawful.spine leftFits'
        obtain ⟨rightHead, rightArguments⟩ := lawful.spine rightFits'
        split
        · rename_i waits
          have unknown : ∀ {term : Term}, isPlaceholder term = true →
              term.hasPlaceholder = true := by
            intro term isPlaceholder
            cases term <;> simp_all [ConvM.isPlaceholder, Phrase.hasPlaceholder,
              Phrase.anyPlaceholder]
          rcases Bool.or_eq_true_iff.1 waits with left | right
          · exact .postpone ⟨_, _, leftHead, unknown left⟩
          · exact .postpone ⟨_, _, rightHead, unknown right⟩
        · split
          · refine .bind (ih good leftHead rightHead) fun good => ?_
            exact compares_equalArguments ih good leftArguments rightArguments
          · exact .fail _
      · exact .fail _

end Lawful

/-! ## Disciplines -/

/-- Solving and postponing respect the discipline. -/
structure Scene.Obeys (scene : Scene) (discipline : Discipline State) : Prop where
  good : ∀ {state}, discipline.Good state → scene.Good state
  postpone : ∀ {state depth} comparison, scene.Waits → discipline.Good state →
    Respects discipline (postpone depth comparison) state fun _ _ => True
  solveTerm : ∀ {state fuel id pattern arguments} {value : Term}, scene.Solves →
    discipline.Good state → scene.Fits (.placeholder id arguments) → scene.Fits value →
    Respects discipline (solve fuel id pattern value .term) state fun _ _ => True
  solveSort : ∀ {state fuel id pattern arguments} {value : Universe}, scene.Solves →
    discipline.Good state → scene.Fits (.sortPlaceholder id arguments) → scene.Fits value →
    Inert state value → (value = .omega → isBelowOmega state id = false) →
    Respects discipline (solve fuel id pattern value .sort) state fun _ _ => True

/-- A comparison respects a discipline if solving and postponing do. -/
theorem Compares.respects {discipline : Discipline State}
    (compares : Compares scene comparison state) (obeys : scene.Obeys discipline)
    (good : discipline.Good state) : Respects discipline comparison state fun _ _ => True := by
  induction compares with
  | pure => exact .pure good trivial
  | fail error => exact .fail good
  | exhausted => exact .exhausted good
  | postpone waits => exact obeys.postpone _ waits good
  | @assignTerm _ fuel depth id arguments value solves fits valueFits =>
    rcases assignTerm_cases fuel depth id arguments value with postponed | ⟨pattern, _, solved⟩
    · rw [postponed]
      exact obeys.postpone _ ⟨_, _, fits, rfl⟩ good
    · rw [solved]
      exact obeys.solveTerm solves good fits valueFits
  | @assignSort state fuel depth id arguments value solves fits valueFits inert =>
    obtain ⟨_, runs, rfl | ⟨_, rfl⟩ | ⟨pattern, _, allowed, rfl⟩⟩ :=
      assignSort_cases fuel depth id arguments value state
    · exact (obeys.postpone _ ⟨_, _, fits, rfl⟩ good).of_run_eq (runs rfl)
    · exact Respects.of_run_eq (.fail good) (runs rfl)
    · exact (obeys.solveSort solves good fits valueFits inert allowed).of_run_eq (runs rfl)
  | reduce _ _ _ ih =>
    refine .get_bind (.lift_bind good (faultless_reduce _ _ _) fun left' leftReached => ?_)
    refine .lift_bind good (faultless_reduce _ _ _) fun right' rightReached => ?_
    exact ih left' right' leftReached rightReached good
  | normalise _ _ _ ih =>
    refine .get_bind (.lift_bind good (faultless_normalise _ _ _) fun left' leftReached => ?_)
    refine .lift_bind good (faultless_normalise _ _ _) fun right' rightReached => ?_
    exact ih left' right' leftReached rightReached good
  | bind _ _ ihFirst ihNext =>
    exact (ihFirst good).bind fun _ _ good _ _ => ihNext (obeys.good good) good

end ConvM
end Families
