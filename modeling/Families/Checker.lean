import Families.Builtin
import Families.CheckError
import Families.Context
import Families.Conversion.Equality
import Families.Forcing
import Families.Surface

/-!
# The checker

Checking works on a table of names, a state, and the variables in scope, under fixed options.
Names stay entered whatever happens; changes to the state and to the scope can be undone.
-/

namespace Families

/-- All that a check reads and changes. -/
structure Checker where
  /-- The names entered so far. -/
  names : NameTable
  /-- What is accepted. -/
  options : Options
  /-- How forced arguments are found. -/
  forcing : Forcing
  /-- How deep a reduction, a comparison or a walk along a type may recurse. -/
  fuel : Nat
  /-- Declarations, placeholders and constraints. -/
  state : State
  /-- The variables in scope. -/
  context : Context

/-- A computation of the checker. -/
abbrev CheckM := Attempt CheckError Checker

namespace Checker

/-- The recursion depth that checks are started with. -/
def defaultFuel : Nat := 0x40000000

/-- The checker before the first declaration. -/
def initial (options : Options) (forcing : Forcing) (fuel : Nat) : Checker where
  names := NameTable.initial
  options := options
  forcing := forcing
  fuel := fuel
  state := State.initial
  context := []

end Checker

namespace CheckM

variable {α : Type}

/-- Enters a name. -/
def enterName (text : String) : CheckM Name :=
  modifyGet fun checker =>
    let (name, names) := checker.names.enterName text
    (name, { checker with names })

/-- Enters a path. -/
def enterPath (text : String) : CheckM Path :=
  modifyGet fun checker =>
    let (path, names) := checker.names.enterPath text
    (path, { checker with names })

/-- Changes the state. -/
def modifyState (change : State → State) : CheckM Unit :=
  modify fun checker => { checker with state := change checker.state }

/-- Changes the signature, unless it refuses. -/
def updateSignature (change : Signature → Except SignatureError Signature) : CheckM Unit := do
  let checker ← get
  match change checker.state.signature with
  | .error error => Attempt.fail (.signature error)
  | .ok signature => modifyState fun state => { state with signature }

/-- Adds a complete declaration. -/
def register (definition : Definition) : CheckM Unit :=
  updateSignature (Signature.register · definition)

/-- Brings a variable into scope. -/
def push (domain : Domain) : CheckM Unit :=
  modify fun checker => { checker with context := domain :: checker.context }

/-- Leaves only as many variables in scope as there were before, whatever the outcome. -/
def restoreScope (body : CheckM α) : CheckM α :=
  body.settle fun before after _ =>
    { after with context := after.context.truncate before.context.length }

/-- Works under the binders of a telescope. -/
def under (telescope : Telescope) (body : CheckM α) : CheckM α :=
  restoreScope do
    telescope.forM push
    body

/-- Undoes all changes to the state and to the scope if the computation fails. -/
def speculate (body : CheckM α) : CheckM α :=
  body.settle fun before after succeeded =>
    if succeeded then
      after
    else
      { after with
        state := before.state
        context := after.context.truncate before.context.length }

/-- Undoes all changes to the state, whatever the outcome. -/
def localState (body : CheckM α) : CheckM α :=
  body.settle fun before after _ => { after with state := before.state }

/-- Compares phrases, keeping an error as a value. -/
def attempt (comparison : ConvM α) : CheckM (Except ConversionError α) where
  run checker :=
    let outcome := comparison.run checker.state
    { result :=
        match outcome.result with
        | .ok value => .ok (.ok value)
        | .error (.error error) => .ok (.error error)
        | .error (.halt reason) => .error (.halt reason)
      state := { checker with state := outcome.state }
      passed := outcome.passed.map fun state => { checker with state } }

/-- Compares phrases. -/
def convert (comparison : ConvM α) : CheckM α := do
  match ← attempt comparison with
  | .ok value => pure value
  | .error error => Attempt.fail (.conversion error)

/-- Reduces a phrase in the current state. -/
def reduce {category : Category} (phrase : Phrase category) : CheckM (Phrase category) := do
  let checker ← get
  Families.reduce checker.state checker.fuel phrase

/-- Normalises a phrase in the current state. -/
def normalise {category : Category} (phrase : Phrase category) : CheckM (Phrase category) := do
  let checker ← get
  Families.normalise checker.state checker.fuel phrase

/-- Takes the function types off the front of a type in the current state. -/
def telescopeView (ty : Ty) : CheckM (Telescope × Ty) := do
  let checker ← get
  Families.telescopeView checker.state checker.fuel ty

/-- Makes two terms of the current scope equal, keeping an error as a value. -/
def tryEqualTerm (left right : Term) : CheckM (Except ConversionError Unit) := do
  let checker ← get
  attempt (ConvM.equalTerm checker.fuel checker.context.length left right)

/-- Checks that a sort of the current scope is below another, keeping an error as a value. -/
def tryLeqSort (left right : Universe) : CheckM (Except ConversionError Unit) := do
  let checker ← get
  attempt (ConvM.leqSort checker.fuel checker.context.length left right)

/-- Makes two terms of the current scope equal. -/
def equalTerm (left right : Term) : CheckM Unit := do
  let checker ← get
  convert (ConvM.equalTerm checker.fuel checker.context.length left right)

/-- Makes two types of the current scope equal. -/
def equalType (left right : Ty) : CheckM Unit := do
  let checker ← get
  convert (ConvM.equalType checker.fuel checker.context.length left right)

/-- Makes two sorts of the current scope equal. -/
def equalSort (left right : Universe) : CheckM Unit := do
  let checker ← get
  convert (ConvM.equalSort checker.fuel checker.context.length left right)

/-- Checks that a sort of the current scope is below another. -/
def leqSort (left right : Universe) : CheckM Unit := do
  let checker ← get
  convert (ConvM.leqSort checker.fuel checker.context.length left right)

/-- Adds a placeholder and returns its number. -/
def addPlaceholder (scope : Nat) (kind : PlaceholderKind) : CheckM Nat := do
  let checker ← get
  modifyState (·.addPlaceholder scope kind)
  pure checker.state.placeholders.length

/-- A new placeholder for a sort of the current scope. -/
def freshSort (belowOmega : Bool) : CheckM Universe := do
  let checker ← get
  let id ← addPlaceholder checker.context.length (.sort belowOmega)
  pure (.sortPlaceholder id checker.context.identity)

/-- A new placeholder for a term of the current scope. -/
def freshTerm (ty : Term) : CheckM Term := do
  let checker ← get
  let id ← addPlaceholder checker.context.length (.term ty)
  pure (.placeholder id checker.context.identity)

/-- The sort of a function type whose codomain's sort stands under the argument.  While it cannot be
computed, it is a new placeholder above both sorts. -/
def piSort (domain codomain : Universe) : CheckM Universe := do
  let domain ← reduce domain
  let codomain ← reduce codomain
  let outside := codomain.strengthen? 1
  match Universe.pi? domain outside with
  | some sort => pure sort
  | none => do
    let sort ← freshSort false
    leqSort domain sort
    match outside with
    | some codomain => leqSort codomain sort
    | none => pure ()
    pure sort

end CheckM

end Families
