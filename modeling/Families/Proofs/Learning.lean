import Families.Proofs.Operations
import Families.Proofs.Workings

/-!
# Computations that change no declaration

Whatever does not declare works in every state, well scoped or not.  It enters names, adds and
solves placeholders and postpones comparisons, and it takes nothing of that back.  The declarations,
the instances and the options stay as they are, and so do the variables that were in scope.
-/

namespace Families

variable {α : Type} {computation : CheckM α} {comparison : ConvM α} {checker : Checker}
variable {first second third : State} {before after : Checker}

/-! ## Courses -/

/-- Which states a computation may pass and leave after a state. -/
structure Course (σ : Type) where
  /-- The states that may be passed after a state. -/
  Passes : σ → σ → Prop
  /-- The states that may be left after a state. -/
  Follows : σ → σ → Prop
  refl : ∀ state, Follows state state
  trans : ∀ {first second third}, Follows first second → Follows second third → Follows first third
  passes : ∀ {first second third}, Follows first second → Passes second third → Passes first third

namespace Course

variable {σ : Type}

/-- The discipline that asks for nothing but the course. -/
def discipline (course : Course σ) : Discipline σ where
  Good _ := True
  Passes := course.Passes
  Follows := course.Follows
  Allows _ := True
  refl := course.refl
  trans := course.trans
  passes := course.passes

/-- The course of a relation that holds all the way. -/
def ofRelation
    (relation : σ → σ → Prop)
    (refl : ∀ state, relation state state)
    (trans : ∀ {first second third}, relation first second → relation second third →
      relation first third) :
    Course σ where
  Passes := relation
  Follows := relation
  refl := refl
  trans := trans
  passes := trans

/-- The course of a property of states that is not lost. -/
def keeping (good : σ → Prop) : Course σ :=
  .ofRelation (fun before later => good before → good later) (fun _ => id)
    fun first second => second ∘ first

end Course

/-- From every state the computation stays on the course, however it ends. -/
def Along {ε σ α : Type} (course : Course σ) (computation : Attempt ε σ α) : Prop :=
  ∀ state, Respects course.discipline computation state fun _ _ => True

/-- The answer is the one that was given. -/
theorem Respects.given {ε σ : Type} {discipline : Discipline σ} {computation : Attempt ε σ α}
    {state : σ} {answers : α → σ → Prop}
    (respects : Respects discipline computation state answers) :
    Respects discipline computation state fun value _ =>
      (computation.run state).result = .ok value :=
  { respects with answer := fun _ answered => answered }

namespace Along

variable {ε σ α β : Type} {course : Course σ}
variable {next : α → Attempt ε σ β}

theorem pure (value : α) : Along course (Pure.pure value : Attempt ε σ α) :=
  fun _ => .pure trivial trivial

theorem fail (error : ε) : Along course (Attempt.fail error : Attempt ε σ α) :=
  fun _ => .fail trivial

theorem halt (reason : Halt) : Along course (Attempt.halt reason : Attempt ε σ α) :=
  fun _ => .of_unchanged rfl trivial (by simp) fun _ _ => trivial

theorem get : Along course (MonadState.get : Attempt ε σ σ) :=
  fun _ => .of_unchanged rfl trivial (fun _ _ => trivial) fun _ _ => trivial

theorem lift (halting : Except Halt α) : Along course (monadLift halting : Attempt ε σ α) := by
  cases halting with
  | ok value => exact pure value
  | error reason => exact halt reason

theorem modifyGet {change : σ → α × σ} (passes : ∀ state, course.Passes state (change state).2)
    (follows : ∀ state, course.Follows state (change state).2) :
    Along course (MonadStateOf.modifyGet change : Attempt ε σ α) :=
  fun state => .modifyGet trivial (passes state) (follows state) trivial

theorem bind {first : Attempt ε σ α} (firstAlong : Along course first)
    (nextAlong : ∀ value, Along course (next value)) : Along course (first >>= next) :=
  fun state => .bind (firstAlong state) fun value later _ _ _ => nextAlong value later

/-- Reading the state and going on. -/
theorem get_bind {next : σ → Attempt ε σ α} (nextAlong : ∀ state, Along course (next state)) :
    Along course (MonadState.get >>= next) :=
  get.bind nextAlong

/-- A computation without a state, and going on. -/
theorem lift_bind {halting : Except Halt α} (nextAlong : ∀ value, Along course (next value)) :
    Along course (monadLift halting >>= next) :=
  (lift halting).bind nextAlong

theorem mapM {action : β → Attempt ε σ α} (each : ∀ element, Along course (action element)) :
    ∀ list : List β, Along course (list.mapM action)
  | [] => pure []
  | first :: rest => by
    rw [List.mapM_cons]
    exact (each first).bind fun value =>
      (mapM each rest).bind fun values => pure (value :: values)

/-- A last change to the state. -/
theorem settle {inner outer : Course σ} {body : Attempt ε σ α}
    {change : (before after : σ) → (succeeded : Bool) → σ} (bodyAlong : Along inner body)
    (passed : ∀ {before later}, inner.Passes before later → outer.Passes before later)
    (settled : ∀ {before later} succeeded, inner.Follows before later →
      outer.Passes before (change before later succeeded) ∧
        outer.Follows before (change before later succeeded)) :
    Along outer (body.settle change) := by
  intro before
  apply Respects.settle (bodyAlong before)
  · exact fun _ passes => ⟨trivial, passed passes⟩
  · exact fun succeeded _ follows => ⟨trivial, settled succeeded follows⟩
  · exact id
  · exact fun _ _ _ _ _ => trivial

/-- A computation on a course is also on a wider one. -/
theorem weaken {narrow wide : Course σ} {computation : Attempt ε σ α}
    (along : Along narrow computation)
    (passes : ∀ {before later}, narrow.Passes before later → wide.Passes before later)
    (follows : ∀ {before later}, narrow.Follows before later → wide.Follows before later) :
    Along wide computation := by
  intro state
  have widened : Respects wide.discipline computation state _ :=
    (along state).weaken id passes follows id
  exact widened.forget

/-- Going on with the value of a computation without a state. -/
theorem of_lift {halting : Except Halt α} {state : σ}
    (continues : ∀ value, halting = .ok value →
      Respects course.discipline (next value) state fun _ _ => True) :
    Respects course.discipline (monadLift halting >>= next) state fun _ _ => True := by
  cases halting with
  | ok value => exact continues value rfl
  | error reason => exact halt reason state

end Along

/-! ## Comparisons -/

namespace State

/-- What was there is still there, and no declaration or instance is new. -/
structure Learns (before after : State) : Prop where
  grows : before.Grows after
  instances : after.instances = before.instances

theorem Learns.refl (state : State) : state.Learns state :=
  ⟨.refl state, rfl⟩

theorem Learns.trans (earlier : first.Learns second)
    (later : second.Learns third) : first.Learns third :=
  ⟨earlier.grows.trans later.grows, later.instances.trans earlier.instances⟩

/-- What is learned both ways is nothing. -/
theorem Learns.antisymm (forth : first.Learns second)
    (back : second.Learns first) : first = second := by
  have placeholders : first.placeholders = second.placeholders := by
    refine List.ext_getElem? fun id => ?_
    cases isFirst : first.placeholders[id]? with
    | none =>
      cases isSecond : second.placeholders[id]? with
      | none => rfl
      | some placeholder =>
        obtain ⟨_, found, _⟩ := back.grows.placeholders id placeholder isSecond
        cases isFirst.symm.trans found
    | some placeholder =>
      obtain ⟨scope, kind, known⟩ := placeholder
      obtain ⟨solution, isSecond, kept⟩ := forth.grows.placeholders id _ isFirst
      obtain ⟨solution', found, kept'⟩ := back.grows.placeholders id _ isSecond
      obtain rfl : known = solution' := by simpa [isFirst] using found
      rw [isSecond]
      cases known with
      | some value => rw [kept rfl]
      | none =>
        cases solution with
        | none => rfl
        | some value => cases kept' rfl
  have constraints := forth.grows.constraints.eq_of_length_le back.grows.constraints.length_le
  have signature := forth.grows.signature
  have instances := forth.instances
  obtain ⟨_, _, _, _⟩ := first
  obtain ⟨_, _, _, _⟩ := second
  simp_all only

/-- Nothing but postponed comparisons is new. -/
def Waits (before after : State) : Prop :=
  ∃ postponed, after = { before with constraints := before.constraints ++ postponed }

theorem Waits.refl (state : State) : state.Waits state :=
  ⟨[], by simp⟩

theorem Waits.trans (earlier : first.Waits second)
    (later : second.Waits third) : first.Waits third := by
  obtain ⟨postponed, rfl⟩ := earlier
  obtain ⟨more, rfl⟩ := later
  exact ⟨postponed ++ more, by simp⟩

theorem Waits.learns {before after : State} (waits : before.Waits after) : before.Learns after := by
  obtain ⟨postponed, rfl⟩ := waits
  refine ⟨⟨rfl, ?_, List.prefix_append _ _⟩, rfl⟩
  exact fun _ placeholder found => ⟨placeholder.solution, found, fun _ => rfl⟩

end State

namespace ConvM

/-- Comparisons learn. -/
def comparing : Course State :=
  .ofRelation State.Learns State.Learns.refl State.Learns.trans

/-- Comparisons of sorts by their order only postpone. -/
def waiting : Course State :=
  .ofRelation State.Waits State.Waits.refl State.Waits.trans

variable {fuel depth id : Nat}

theorem waiting_postpone (comparison : Comparison) : Along waiting (postpone depth comparison) := by
  have waits : ∀ state : State, state.Waits (state.postpone depth comparison) :=
    fun state => ⟨[⟨depth, comparison⟩], rfl⟩
  exact Along.modifyGet waits waits

theorem comparing_of_waiting (along : Along waiting comparison) : Along comparing comparison :=
  along.weaken State.Waits.learns State.Waits.learns

theorem comparing_postpone (comparison : Comparison) :
    Along comparing (postpone depth comparison) :=
  comparing_of_waiting (waiting_postpone comparison)

/-- Only the solution that is found changes the state. -/
theorem onCourse_solve {category : Category} {course : Course State} {state : State}
    {pattern : List Nat} {value : Phrase category} {solution : Phrase category → Solution}
    (solves : ∀ normal inverted solved, normalise state fuel value = .ok normal →
      invert id pattern normal = .ok inverted → state.solve id (solution inverted) = .ok solved →
      course.Passes state solved ∧ course.Follows state solved) :
    Respects course.discipline (solve fuel id pattern value solution) state fun _ _ => True := by
  refine .get_bind (Along.of_lift fun normal normalised => ?_)
  split
  · exact .fail trivial
  · split
    · exact .fail trivial
    · rename_i inverted isInverse
      refine Along.of_lift fun solved accepted => ?_
      obtain ⟨passes, follows⟩ := solves normal inverted solved normalised isInverse accepted
      exact .set trivial passes follows trivial

theorem comparing_solve {category : Category} (pattern : List Nat) (value : Phrase category)
    (solution : Phrase category → Solution) :
    Along comparing (solve fuel id pattern value solution) := by
  intro state
  refine onCourse_solve fun _ inverted solved _ _ accepted => ?_
  have learns : state.Learns solved := by
    refine ⟨State.grows_solve accepted, ?_⟩
    obtain ⟨_, _, _, rfl⟩ := State.solve_eq_ok_iff.1 accepted
    rfl
  exact ⟨learns, learns⟩

/-- Comparisons that may solve placeholders learn. -/
theorem obeys_comparing : (Scene.anything True).Obeys comparing.discipline where
  good _ := trivial
  postpone comparison _ _ := comparing_postpone comparison _
  solveTerm _ _ _ _ := comparing_solve _ _ _ _
  solveSort _ _ _ _ _ _ := comparing_solve _ _ _ _

/-- Comparisons that solve nothing wait. -/
theorem obeys_waiting : (Scene.anything False).Obeys waiting.discipline where
  good _ := trivial
  postpone comparison _ _ := waiting_postpone comparison _
  solveTerm := False.elim
  solveSort := False.elim

theorem comparing_equalSort (left right : Universe) :
    Along comparing (equalSort fuel depth left right) :=
  fun _ =>
    (compares_equalSort (Scene.lawful_anything True) trivial trivial trivial trivial).respects
    obeys_comparing trivial

/-- The order of sorts is judged without solving anything. -/
theorem waiting_leqSort (left right : Universe) : Along waiting (leqSort fuel depth left right) :=
  fun _ => (compares_leqSort (Scene.lawful_anything False) trivial trivial trivial).respects
    obeys_waiting trivial

theorem comparing_equalTerm (left right : Term) :
    Along comparing (equalTerm fuel depth left right) :=
  fun _ =>
    (compares_equalTerm (Scene.lawful_anything True) trivial trivial trivial trivial).respects
    obeys_comparing trivial

theorem comparing_equalArguments {equal : Term → Term → ConvM Unit}
    (along : ∀ left right, Along comparing (equal left right)) :
    ∀ left right : List (ArgInfo × Term), Along comparing (equalArguments equal left right)
  | (info, left) :: lefts, (_, right) :: rights => by
    rw [equalArguments]
    split
    · exact comparing_equalArguments along lefts rights
    · exact (along left right).bind fun _ => comparing_equalArguments along lefts rights
  | [], _ => by
    unfold equalArguments
    exact .pure ()
  | _ :: _, [] => .pure ()

end ConvM

/-! ## The checker -/

namespace NameTable

/-- All texts and paths that were entered keep their numbers. -/
structure Grows (before after : NameTable) : Prop where
  texts : before.texts <+: after.texts
  paths : before.paths <+: after.paths

theorem Grows.refl (table : NameTable) : table.Grows table :=
  ⟨List.prefix_refl _, List.prefix_refl _⟩

theorem Grows.trans {first second third : NameTable} (earlier : first.Grows second)
    (later : second.Grows third) : first.Grows third :=
  ⟨earlier.texts.trans later.texts, earlier.paths.trans later.paths⟩

theorem grows_enterName (table : NameTable) (text : String) :
    table.Grows (table.enterName text).2 := by
  unfold enterName
  split
  · exact .refl table
  · exact ⟨List.prefix_append _ _, List.prefix_refl _⟩

theorem grows_enterNames (table : NameTable) (texts : List String) :
    table.Grows (table.enterNames texts).2 := by
  induction texts generalizing table with
  | nil => exact .refl table
  | cons text texts ih =>
    exact (table.grows_enterName text).trans (ih (table.enterName text).2)

theorem grows_enterSegments (table : NameTable) (segments : List Name) :
    table.Grows (table.enterSegments segments).2 := by
  unfold enterSegments
  split
  · exact .refl table
  · exact ⟨List.prefix_refl _, List.prefix_append _ _⟩

theorem grows_enterPath (table : NameTable) (text : String) :
    table.Grows (table.enterPath text).2 :=
  (table.grows_enterNames _).trans (grows_enterSegments _ _)

end NameTable

namespace Checker

/-- The checker knows all that it knew, declares the same, and may have more variables in scope. -/
structure Learns (before after : Checker) : Prop where
  names : before.names.Grows after.names
  options : after.options = before.options
  forcing : after.forcing = before.forcing
  fuel : after.fuel = before.fuel
  state : before.state.Learns after.state
  context : before.context <:+ after.context

/-- The checker has learned, and the same variables are in scope. -/
structure Consults (before after : Checker) : Prop where
  learns : before.Learns after
  context : after.context = before.context

theorem Learns.refl (checker : Checker) : checker.Learns checker :=
  ⟨.refl _, rfl, rfl, rfl, .refl _, List.suffix_refl _⟩

theorem Learns.trans {first second third : Checker} (earlier : first.Learns second)
    (later : second.Learns third) :
    first.Learns third where
  names := earlier.names.trans later.names
  options := later.options.trans earlier.options
  forcing := later.forcing.trans earlier.forcing
  fuel := later.fuel.trans earlier.fuel
  state := earlier.state.trans later.state
  context := earlier.context.trans later.context

theorem Consults.refl (checker : Checker) : checker.Consults checker :=
  ⟨.refl checker, rfl⟩

theorem Consults.trans {first second third : Checker} (earlier : first.Consults second)
    (later : second.Consults third) : first.Consults third :=
  ⟨earlier.learns.trans later.learns, later.context.trans earlier.context⟩

/-- New knowledge in the state alone. -/
theorem consults_of_state {state : State} (learns : checker.state.Learns state) :
    checker.Consults { checker with state } :=
  ⟨⟨.refl _, rfl, rfl, rfl, learns, List.suffix_refl _⟩, rfl⟩

/-- New names alone. -/
theorem consults_of_names {names : NameTable} (grows : checker.names.Grows names) :
    checker.Consults { checker with names } :=
  ⟨⟨grows, rfl, rfl, rfl, .refl _, List.suffix_refl _⟩, rfl⟩

/-- Leaving the variables that were brought into scope. -/
theorem Learns.truncate (learns : before.Learns after) :
    before.Consults { after with context := after.context.truncate before.context.length } := by
  obtain ⟨added, isContext⟩ := learns.context
  rw [← isContext, Context.truncate_append]
  exact ⟨{ learns with context := List.suffix_refl _ }, rfl⟩

/-- Going back to an earlier state keeps the names that were entered since. -/
theorem Consults.restore (consults : before.Consults after) :
    before.Consults { after with state := before.state } :=
  ⟨{ consults.learns with state := .refl before.state }, consults.context⟩

end Checker

namespace CheckM

open Checker

variable {α : Type}

/-- The checker learns, and variables may come into scope. -/
def learning : Course Checker :=
  .ofRelation Learns Learns.refl Learns.trans

/-- The checker learns, and in the end the same variables are in scope. -/
def consulting : Course Checker where
  Passes := Learns
  Follows := Consults
  refl := Consults.refl
  trans := Consults.trans
  passes consults learns := consults.learns.trans learns

/-- The computation changes no declaration. -/
abbrev Learning (computation : CheckM α) : Prop :=
  Along learning computation

/-- The computation changes no declaration and leaves the scope as it was. -/
abbrev Consulting (computation : CheckM α) : Prop :=
  Along consulting computation

theorem Consulting.learning (consulting : Consulting computation) : Learning computation :=
  consulting.weaken id Consults.learns

/-- A change that only adds to what is known. -/
theorem consulting_modifyGet {change : Checker → α × Checker}
    (consults : ∀ checker, Consults checker (change checker).2) : Consulting (modifyGet change) :=
  .modifyGet (fun checker => (consults checker).learns) consults

theorem consulting_enterName (text : String) : Consulting (enterName text) :=
  consulting_modifyGet fun checker => consults_of_names (checker.names.grows_enterName text)

theorem consulting_enterPath (text : String) : Consulting (enterPath text) :=
  consulting_modifyGet fun checker => consults_of_names (checker.names.grows_enterPath text)

theorem learning_push (domain : Domain) : Learning (push domain) := by
  have learns : ∀ checker : Checker,
      checker.Learns { checker with context := domain :: checker.context } :=
    fun _ => ⟨.refl _, rfl, rfl, rfl, .refl _, List.suffix_cons _ _⟩
  exact Along.modifyGet learns learns

theorem consulting_restoreScope {body : CheckM α} (learning : Learning body) :
    Consulting (restoreScope body) :=
  learning.settle id fun _ learns => ⟨learns.truncate.learns, learns.truncate⟩

theorem consulting_addPlaceholder (depth : Nat) (kind : PlaceholderKind) :
    Consulting (modifyState (·.addPlaceholder depth kind)) :=
  consulting_modifyGet fun checker =>
    consults_of_state ⟨checker.state.grows_addPlaceholder depth kind, rfl⟩

/-- A comparison changes the state of the checker only. -/
theorem along_attempt {inner : Course State} {outer : Course Checker}
    (along : Along inner comparison)
    (passes : ∀ {checker : Checker} {state}, inner.Passes checker.state state →
      outer.Passes checker { checker with state })
    (follows : ∀ {checker : Checker} {state}, inner.Follows checker.state state →
      outer.Follows checker { checker with state }) :
    Along outer (attempt comparison) := by
  intro checker
  have respects := along checker.state
  refine ⟨fun later present => ?_, trivial, follows respects.follows, fun _ _ => trivial,
    fun _ _ => trivial⟩
  obtain ⟨state, statePresent, rfl⟩ := List.mem_map.1 present
  exact ⟨trivial, passes (respects.passed state statePresent).2⟩

theorem consulting_attempt (along : Along ConvM.comparing comparison) :
    Consulting (attempt comparison) :=
  along_attempt along (fun learns => (consults_of_state learns).learns) consults_of_state

theorem consulting_comparison {comparison : ConvM Unit} (isComparison : IsComparison comparison) :
    Consulting (attempt comparison) := by
  apply consulting_attempt
  cases isComparison with
  | equalTerm => exact ConvM.comparing_equalTerm _ _
  | equalSort => exact ConvM.comparing_equalSort _ _
  | leqSort => exact ConvM.comparing_of_waiting (ConvM.waiting_leqSort _ _)

/-! ## Computations that are built from operations -/

/-- Operations stay on the courses, one for computations that leave the scope as it was and one for
those that may leave more variables in scope. -/
structure Routes (powers : Powers) (course : Bool → Course Checker) : Prop where
  passes : ∀ {scope before later}, before.Learns later → (course scope).Passes before later
  follows : ∀ {scope before after}, before.Consults after → (course scope).Follows before after
  opens : ∀ {α} {body : CheckM α}, Along (course false) body → Along (course true) body
  push : ∀ domain, Along (course true) (push domain)
  restoreScope : ∀ {α} {body : CheckM α},
    Along (course true) body → Along (course false) (restoreScope body)
  localState : ∀ {α} {body : CheckM α},
    Along (course false) body → Along (course false) (localState body)
  addInstance : powers.declares → ∀ datatype constructor,
    Along (course false) (modifyState (·.addInstance datatype constructor))
  register : powers.declares → ∀ definition, Along (course false) (register definition)
  registerPending : powers.declares → ∀ definition,
    Along (course false) (updateSignature (Signature.registerPending · definition))
  complete : powers.declares → ∀ path kind,
    Along (course false) (updateSignature (Signature.complete · path kind))
  speculate : powers.declares → ∀ {α} {body : CheckM α},
    Along (course false) body → Along (course false) (speculate body)

section Routes

variable {powers : Powers} {course : Bool → Course Checker} {scope : Bool}

theorem Routes.of_closed (routes : Routes powers course)
    (along : Along (course false) computation) : Along (course scope) computation := by
  cases scope with
  | false => exact along
  | true => exact routes.opens along

theorem Routes.of_consulting (routes : Routes powers course) (consulting : Consulting computation) :
    Along (course scope) computation :=
  consulting.weaken routes.passes routes.follows

/-- A comparison that is taken back when it fails. -/
theorem along_compareOr {left right : Term} {error : CheckError} {next : CheckM α}
    {course : Course Checker} (compares : Along course (tryEqualTerm left right))
    (restores : ∀ {before after : Checker}, before.Consults after → after.state = before.state →
      course.Passes before after ∧ course.Follows before after)
    (nextAlong : Along course next) :
    Along course (do
      let before ← get
      match ← tryEqualTerm left right with
      | .ok () => next
      | .error _ => do
        modifyState fun _ => before.state
        Attempt.fail error) := by
  intro checker
  apply Respects.get_bind
  have along := (compares checker).given
  have consulting : Consulting (tryEqualTerm left right) :=
    .get_bind fun _ => consulting_comparison (.equalTerm _ _ left right)
  obtain ⟨passes, follows⟩ := restores (consulting checker).follows.restore rfl
  by_cases unequal : ∃ difference, ((tryEqualTerm left right).run checker).result =
      .ok (.error difference)
  · -- The state goes back to the one that the comparison started from.
    obtain ⟨difference, result⟩ := unequal
    constructor <;> rw [Attempt.run_bind_of_ok result]
    · intro later present
      rcases List.mem_append.1 present with early | last
      · exact along.passed later early
      · rw [List.mem_singleton.1 last]
        exact ⟨trivial, passes⟩
    · exact trivial
    · exact follows
    · exact fun _ _ => trivial
    · exact fun _ _ => trivial
  · refine along.bind fun value later _ _ result => ?_
    cases value with
    | ok _ => exact nextAlong later
    | error difference => exact absurd ⟨difference, result⟩ unequal

/-- Whatever is built from operations stays on the course. -/
theorem Built.along (built : Built powers scope computation) (routes : Routes powers course) :
    Along (course scope) computation := by
  induction built with
  | pure value => exact .pure value
  | fail error => exact .fail error
  | halt reason => exact .halt reason
  | bind _ _ ihFirst ihNext => exact ihFirst.bind ihNext
  | read _ _ ih => exact .get_bind ih
  | enterName text => exact routes.of_consulting (consulting_enterName text)
  | enterPath text => exact routes.of_consulting (consulting_enterPath text)
  | push domain => exact routes.push domain
  | attempt isComparison => exact routes.of_consulting (consulting_comparison isComparison)
  | compareOr _ ih =>
    refine along_compareOr (routes.of_consulting ?_) (fun consults _ => ?_) ih
    · exact .get_bind fun _ => consulting_comparison (.equalTerm _ _ _ _)
    · exact ⟨routes.passes consults.learns, routes.follows consults⟩
  | proves _ ih =>
    refine routes.of_closed (routes.localState (.get_bind fun _ => ih.bind ?_))
    rintro (_ | _)
    · exact .pure false
    · exact .get_bind fun _ => .pure _
  | addPlaceholder depth kind => exact routes.of_consulting (consulting_addPlaceholder depth kind)
  | addInstance datatype constructor declares =>
    exact routes.of_closed (routes.addInstance declares datatype constructor)
  | register definition declares => exact routes.of_closed (routes.register declares definition)
  | registerPending definition declares =>
    exact routes.of_closed (routes.registerPending declares definition)
  | complete path kind declares => exact routes.of_closed (routes.complete declares path kind)
  | restoreScope _ ih =>
    exact routes.of_closed (routes.restoreScope ih)
  | speculate declares _ ih =>
    exact routes.of_closed (routes.speculate declares ih)

/-- The courses of computations that declare nothing. -/
def learningOr : Bool → Course Checker
  | true => learning
  | false => consulting

theorem routes_learning : Routes ⟨True, False⟩ learningOr where
  passes := by rintro (_ | _) _ _ learns <;> exact learns
  follows := by
    rintro (_ | _) _ _ consults
    · exact consults
    · exact consults.learns
  opens := Consulting.learning
  push := learning_push
  restoreScope := consulting_restoreScope
  localState along := along.settle id fun _ consults => ⟨consults.restore.learns, consults.restore⟩
  addInstance := False.elim
  register := False.elim
  registerPending := False.elim
  complete := False.elim
  speculate := False.elim

theorem Built.learning (built : Built ⟨True, False⟩ true computation) : Learning computation :=
  built.along routes_learning

theorem Built.consulting (built : Built ⟨True, False⟩ false computation) : Consulting computation :=
  built.along routes_learning

end Routes

end CheckM
end Families
