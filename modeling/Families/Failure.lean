import Families.Phrase.Text

/-!
# Failures

A computation may find an error in what it was given, and later work goes on from there.  Or it may
halt: an invariant of the checker is broken, a number leaves the range of words, or the recursion
goes deeper than was allowed.
-/

namespace Families

/-- An invariant of the checker that does not hold. -/
inductive Fault where
  /-- A variable outside the context. -/
  | variableEscapes (index length : Nat)
  /-- A placeholder for a term that is none. -/
  | notATermPlaceholder (id : Nat)
  /-- A solution for a placeholder that does not exist. -/
  | placeholderMissing (id : Nat)
  /-- A solution for a placeholder that has one. -/
  | placeholderSolved (id : Nat)
  /-- A parameter of a datatype beyond the binders of its type. -/
  | parameterUnbound (parameter : String) (rest : Term)
  /-- A parameter of a datatype that is given in another way than its type says. -/
  | parameterPlicity (parameter : String) (found expected : Plicity)
  /-- A variable in the target of a constructor that is no parameter and no argument. -/
  | variableBeyondParameters (variableIndex : Nat) (constructor : Path)
  /-- A declaration that is missing. -/
  | notInSignature (path : Path)
  /-- A constructor used as a type. -/
  | constructorAsType (path : Path)
  /-- A term used as a type that can be none. -/
  | notAType (term : Term)
  /-- A failure without an error to report. -/
  | failureWithoutError
  /-- Errors where none were expected. -/
  | unexpectedErrors
  /-- No value and no error. -/
  | missingValue
deriving DecidableEq

namespace Fault

/-- The wording of a fault. -/
def message (names : NameTable) : Fault → String
  | variableEscapes index length =>
    "variable #" ++ toString index ++ " escapes a context of length " ++ toString length
  | notATermPlaceholder id => "?" ++ toString id ++ " is not a term placeholder"
  | placeholderMissing id => "placeholder ?" ++ toString id ++ " does not exist"
  | placeholderSolved id => "placeholder ?" ++ toString id ++ " solved twice"
  | parameterUnbound parameter rest =>
    "parameter `" ++ parameter ++ "` has no binder in the data signature, which ends in `" ++
      rest.display names ++ "`"
  | parameterPlicity parameter found expected =>
    "parameter `" ++ parameter ++ "` is " ++ found.text ++
      ", but the data signature expects " ++ expected.text
  | variableBeyondParameters variableIndex constructor =>
    "variable " ++ toString variableIndex ++ " in the target of `" ++ names.display constructor ++
      "` is bound outside the datatype's parameters"
  | notInSignature path => "`" ++ names.display path ++ "` is not in the signature"
  | constructorAsType path => "constructor `" ++ names.display path ++ "` at the head of a type"
  | notAType term => "`" ++ term.display names ++ "` at the head of a type"
  | failureWithoutError => "assertion failed: report.kind == ReportKind::Error"
  | unexpectedErrors => "diagnostic result contained errors"
  | missingValue => "diagnostic result failed without an error report"

end Fault

/-- Why a computation stops for good. -/
inductive Halt where
  /-- An invariant is broken. -/
  | fault (fault : Fault)
  /-- A number left the range of words. -/
  | overflow
  /-- The recursion went deeper than allowed. -/
  | exhausted
deriving DecidableEq

/-- Why a computation has no result. -/
inductive Failure (ε : Type) where
  /-- It found an error. -/
  | error (error : ε)
  /-- It stopped for good. -/
  | halt (halt : Halt)
deriving DecidableEq

/-- A result that is absent only when a number left the range of words. -/
def checked {α : Type} : Option α → Except Halt α
  | some value => .ok value
  | none => .error .overflow

/-- How a computation on a state ends. -/
structure Outcome (ε σ α : Type) where
  /-- Its answer, or why it has none. -/
  result : Except (Failure ε) α
  /-- The state that it leaves, also when it fails. -/
  state : σ
  /-- Every state that it set, oldest first, also those that it undid later. -/
  passed : List σ

/-- A computation on a state, which keeps its changes also when it fails. -/
structure Attempt (ε σ α : Type) where
  /-- The outcome of the computation from a state. -/
  run : σ → Outcome ε σ α

namespace Attempt

variable {ε σ α β : Type}

/-- Answers without a change. -/
def answer (value : α) : Attempt ε σ α where
  run state := ⟨.ok value, state, []⟩

/-- Fails without a change. -/
def refuse (failure : Failure ε) : Attempt ε σ α where
  run state := ⟨.error failure, state, []⟩

/-- Goes on with the answer in the state that was left. -/
def andThen (first : Attempt ε σ α) (next : α → Attempt ε σ β) : Attempt ε σ β where
  run state :=
    let before := first.run state
    match before.result with
    | .ok value =>
      let after := (next value).run before.state
      { after with passed := before.passed ++ after.passed }
    | .error failure => ⟨.error failure, before.state, before.passed⟩

instance : Monad (Attempt ε σ) where
  pure := answer
  bind := andThen

instance : MonadStateOf σ (Attempt ε σ) where
  get := { run := fun state => ⟨.ok state, state, []⟩ }
  set state := { run := fun _ => ⟨.ok (), state, [state]⟩ }
  modifyGet change :=
    { run := fun state =>
        let (value, after) := change state
        ⟨.ok value, after, [after]⟩ }

/-- Fails with an error. -/
def fail (error : ε) : Attempt ε σ α :=
  refuse (.error error)

/-- Stops for good. -/
def halt (halt : Halt) : Attempt ε σ α :=
  refuse (.halt halt)

/-- Stops for good at a broken invariant. -/
def fault (fault : Fault) : Attempt ε σ α :=
  halt (.fault fault)

/-- A computation that needs no state and either answers or stops for good. -/
def ofHalting : Except Halt α → Attempt ε σ α
  | .ok value => pure value
  | .error reason => halt reason

instance : MonadLift (Except Halt) (Attempt ε σ) where
  monadLift := ofHalting

/-- Makes a last change to the state, which depends on how the computation ended. -/
def settle (body : Attempt ε σ α)
    (change : (before after : σ) → (succeeded : Bool) → σ) : Attempt ε σ α where
  run before :=
    let outcome := body.run before
    let settled := change before outcome.state outcome.result.isOk
    ⟨outcome.result, settled, outcome.passed ++ [settled]⟩

end Attempt

end Families
