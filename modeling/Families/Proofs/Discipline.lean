import Families.Proofs.Outcome

/-!
# Disciplines of computations

A discipline says which states are good, which states may follow a state, and which faults may
happen.  A computation that respects it passes good states only, each of which may follow the one it
started from, and stops at an allowed fault if it stops at one.  The rules below prove this along
the structure of a computation.
-/

namespace Families

/-- Which states are good, which states may be passed and left after a state, and which faults may
happen. -/
structure Discipline (σ : Type) where
  /-- The states that may be passed. -/
  Good : σ → Prop
  /-- The states that may be passed after a state. -/
  Passes : σ → σ → Prop
  /-- The states that may be left after a state. -/
  Follows : σ → σ → Prop
  /-- The faults that may happen. -/
  Allows : Fault → Prop
  refl : ∀ state, Follows state state
  trans : ∀ {first second third}, Follows first second → Follows second third → Follows first third
  passes : ∀ {first second third}, Follows first second → Passes second third → Passes first third

/-- From the given state the computation respects the discipline, and its answer and the state that
it leaves are related. -/
structure Respects {ε σ α : Type} (discipline : Discipline σ) (computation : Attempt ε σ α)
    (state : σ) (answers : α → σ → Prop) : Prop where
  passed : ∀ later ∈ (computation.run state).passed,
    discipline.Good later ∧ discipline.Passes state later
  good : discipline.Good (computation.run state).state
  follows : discipline.Follows state (computation.run state).state
  answer : ∀ value, (computation.run state).result = .ok value →
    answers value (computation.run state).state
  fault : ∀ fault, (computation.run state).result = .error (.halt (.fault fault)) →
    discipline.Allows fault

namespace Respects

variable {ε σ α β : Type} {discipline : Discipline σ} {state : σ}
variable {answers : α → σ → Prop} {answers' : β → σ → Prop}
variable {computation : Attempt ε σ α} {weaker : α → σ → Prop} {halting : Except Halt α}
variable {next : α → Attempt ε σ β}

/-- A computation may be known to do less than is asked for. -/
theorem mono (respects : Respects discipline computation state answers)
    (implies : ∀ value later, discipline.Good later → discipline.Follows state later →
      answers value later → weaker value later) :
    Respects discipline computation state weaker where
  passed := respects.passed
  good := respects.good
  follows := respects.follows
  answer value answered :=
    implies value _ respects.good respects.follows (respects.answer value answered)
  fault := respects.fault

/-- The answer may be of no interest. -/
theorem forget (respects : Respects discipline computation state answers) :
    Respects discipline computation state fun _ _ => True :=
  respects.mono fun _ _ _ _ _ => trivial

/-- Only the outcome matters. -/
theorem of_run_eq {same : Attempt ε σ α} (respects : Respects discipline same state answers)
    (outcome : computation.run state = same.run state) :
    Respects discipline computation state answers := by
  constructor <;> rw [outcome]
  · exact respects.passed
  · exact respects.good
  · exact respects.follows
  · exact respects.answer
  · exact respects.fault

/-! ## Computations without changes -/

theorem of_unchanged {result : Except (Failure ε) α}
    (outcome : computation.run state = ⟨result, state, []⟩) (good : discipline.Good state)
    (answer : ∀ value, result = .ok value → answers value state)
    (fault : ∀ fault, result = .error (.halt (.fault fault)) → discipline.Allows fault) :
    Respects discipline computation state answers := by
  constructor <;> rw [outcome]
  · exact fun _ present => nomatch present
  · exact good
  · exact discipline.refl state
  · exact answer
  · exact fault

theorem pure {value : α} (good : discipline.Good state) (answer : answers value state) :
    Respects discipline (Pure.pure value : Attempt ε σ α) state answers :=
  of_unchanged rfl good (fun _ same => Except.ok.inj same ▸ answer) (by simp)

theorem fail {error : ε} (good : discipline.Good state) :
    Respects discipline (Attempt.fail error : Attempt ε σ α) state answers :=
  of_unchanged rfl good (by simp) (by simp)

theorem exhausted (good : discipline.Good state) :
    Respects discipline (Attempt.halt .exhausted : Attempt ε σ α) state answers :=
  of_unchanged rfl good (by simp) (by simp)

theorem faulty {fault : Fault} (good : discipline.Good state) (allowed : discipline.Allows fault) :
    Respects discipline (Attempt.fault fault : Attempt ε σ α) state answers :=
  of_unchanged rfl good (by simp) (by simpa using allowed)

/-- A computation without a state that does not stop at a fault. -/
theorem lift (good : discipline.Good state) (faultless : Faultless halting)
    (answer : ∀ value, halting = .ok value → answers value state) :
    Respects discipline (monadLift halting : Attempt ε σ α) state answers := by
  cases halting with
  | ok value => exact pure good (answer value rfl)
  | error reason =>
    refine of_unchanged rfl good (by simp) ?_
    intro fault failed
    have same : reason = .fault fault := by simpa using failed
    exact absurd (congrArg Except.error same) (faultless fault)

/-! ## Changes and sequences -/

theorem modifyGet {change : σ → α × σ} (good : discipline.Good (change state).2)
    (passes : discipline.Passes state (change state).2)
    (follows : discipline.Follows state (change state).2)
    (answer : answers (change state).1 (change state).2) :
    Respects discipline (MonadStateOf.modifyGet change : Attempt ε σ α) state answers where
  passed later present := by
    obtain rfl : later = (change state).2 := List.mem_singleton.1 present
    exact ⟨good, passes⟩
  good := good
  follows := follows
  answer _ same := Except.ok.inj same ▸ answer
  fault fault failed := nomatch failed

theorem modify {change : σ → σ} {answers : Unit → σ → Prop} (good : discipline.Good (change state))
    (passes : discipline.Passes state (change state))
    (follows : discipline.Follows state (change state)) (answer : answers () (change state)) :
    Respects discipline (modify change : Attempt ε σ Unit) state answers :=
  modifyGet good passes follows answer

theorem set {new : σ} {answers : Unit → σ → Prop} (good : discipline.Good new)
    (passes : discipline.Passes state new) (follows : discipline.Follows state new)
    (answer : answers () new) :
    Respects discipline (MonadStateOf.set new : Attempt ε σ Unit) state answers where
  passed later present := by
    obtain rfl : later = new := List.mem_singleton.1 present
    exact ⟨good, passes⟩
  good := good
  follows := follows
  answer _ _ := answer
  fault fault failed := nomatch failed

/-- Two computations in a row. -/
theorem bind {first : Attempt ε σ α} (firstRespects : Respects discipline first state answers)
    (nextRespects : ∀ value later, discipline.Good later → discipline.Follows state later →
      answers value later → Respects discipline (next value) later answers') :
    Respects discipline (first >>= next) state answers' := by
  cases result : (first.run state).result with
  | error failure =>
    have outcome : (first >>= next).run state = _ := Attempt.run_bind_of_error result
    constructor <;> rw [outcome]
    · exact firstRespects.passed
    · exact firstRespects.good
    · exact firstRespects.follows
    · exact fun _ answered => nomatch answered
    · intro fault failed
      obtain rfl := Except.error.inj failed
      exact firstRespects.fault fault result
  | ok value =>
    have outcome : (first >>= next).run state = _ := Attempt.run_bind_of_ok result
    have follows := firstRespects.follows
    have second := nextRespects value _ firstRespects.good follows
      (firstRespects.answer value result)
    constructor <;> rw [outcome]
    · intro later present
      rcases List.mem_append.1 present with early | late
      · exact firstRespects.passed later early
      · obtain ⟨good, passes⟩ := second.passed later late
        exact ⟨good, discipline.passes follows passes⟩
    · exact second.good
    · exact discipline.trans follows second.follows
    · exact second.answer
    · exact second.fault

/-- Reading the state and going on. -/
theorem get_bind {next : σ → Attempt ε σ β}
    (nextRespects : Respects discipline (next state) state answers') :
    Respects discipline (MonadState.get >>= next) state answers' :=
  nextRespects.of_run_eq rfl

/-- A computation without a state that does not stop at a fault, and going on. -/
theorem lift_bind (good : discipline.Good state) (faultless : Faultless halting)
    (nextRespects : ∀ value, halting = .ok value →
      Respects discipline (next value) state answers') :
    Respects discipline (monadLift halting >>= next) state answers' := by
  cases halting with
  | ok value => exact nextRespects value rfl
  | error reason =>
    refine of_unchanged rfl good (by simp) ?_
    intro fault failed
    have same : reason = .fault fault := by simpa using failed
    exact absurd (congrArg Except.error same) (faultless fault)

/-- A computation for each element of a list, whose answers stay related to the states left. -/
theorem mapM {action : β → Attempt ε σ α} {list : List β} (good : discipline.Good state)
    (each : ∀ element ∈ list, ∀ later, discipline.Good later → discipline.Follows state later →
      Respects discipline (action element) later answers)
    (stable : ∀ {value first second}, discipline.Follows first second → answers value first →
      answers value second) :
    Respects discipline (list.mapM action) state
      fun values last => ∀ value ∈ values, answers value last := by
  induction list generalizing state with
  | nil => exact pure good fun _ present => nomatch present
  | cons first rest ih =>
    rw [List.mapM_cons]
    refine bind (each first (by simp) state good (discipline.refl state)) ?_
    intro value second secondGood follows answer
    refine bind (ih secondGood fun element present later laterGood follows' =>
      each element (by simp [present]) later laterGood (discipline.trans follows follows')) ?_
    intro values last lastGood follows' rest
    exact pure lastGood (List.forall_mem_cons.2 ⟨stable follows' answer, rest⟩)

/-- A last change to the state. -/
theorem settle {body : Attempt ε σ α} {change : (before after : σ) → (succeeded : Bool) → σ}
    {inner outer : Discipline σ} (bodyRespects : Respects inner body state answers)
    (passed : ∀ {later}, inner.Good later → inner.Passes state later →
      outer.Good later ∧ outer.Passes state later)
    (settled : ∀ {later} succeeded, inner.Good later → inner.Follows state later →
      outer.Good (change state later succeeded) ∧
        outer.Passes state (change state later succeeded) ∧
        outer.Follows state (change state later succeeded))
    (allowed : ∀ {fault}, inner.Allows fault → outer.Allows fault)
    (answer : ∀ value later, inner.Good later → inner.Follows state later → answers value later →
      weaker value (change state later true)) :
    Respects outer (body.settle change) state weaker where
  passed later present := by
    rcases List.mem_append.1 present with early | last
    · obtain ⟨good, passes⟩ := bodyRespects.passed later early
      exact passed good passes
    · rw [List.mem_singleton.1 last]
      obtain ⟨good, passes, _⟩ := settled (body.run state).result.isOk bodyRespects.good
        bodyRespects.follows
      exact ⟨good, passes⟩
  good := (settled _ bodyRespects.good bodyRespects.follows).1
  follows := (settled _ bodyRespects.good bodyRespects.follows).2.2
  answer value answered := by
    have succeeded : (body.run state).result = .ok value := answered
    have changed := answer value _ bodyRespects.good bodyRespects.follows
      (bodyRespects.answer value succeeded)
    simpa [Attempt.settle, succeeded, Except.isOk, Except.toBool] using changed
  fault fault failed := allowed (bodyRespects.fault fault failed)

/-- A stricter discipline is respected too. -/
theorem weaken {strict loose : Discipline σ} (respects : Respects strict computation state answers)
    (good : ∀ {later}, strict.Good later → loose.Good later)
    (passes : ∀ {later}, strict.Passes state later → loose.Passes state later)
    (follows : ∀ {later}, strict.Follows state later → loose.Follows state later)
    (allowed : ∀ {fault}, strict.Allows fault → loose.Allows fault) :
    Respects loose computation state fun value later =>
      strict.Follows state later ∧ answers value later where
  passed later present := (respects.passed later present).imp good passes
  good := good respects.good
  follows := follows respects.follows
  answer value answered := ⟨respects.follows, respects.answer value answered⟩
  fault fault failed := allowed (respects.fault fault failed)

end Respects

end Families
