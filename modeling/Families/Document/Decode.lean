import Families.Bounds
import Families.Document.Reader
import Families.Surface

/-!
# Modules as documents

A document is read as a module, a declaration or an expression.  Nesting is bounded: a choice, a
group and each part of a group take a level, and so does the name of a choice without parts.
-/

namespace Families
namespace Document

variable {α : Type}

/-! ## Plain values -/

/-- The text that a document is. -/
def asText? : Document → Option String
  | text value => value
  | _ => none

/-- The truth value that a document is. -/
def asBool? : Document → Option Bool
  | bool value => value
  | _ => none

/-- The word that a document is. -/
def asWord? : Document → Option Nat
  | natural value => word? value
  | _ => none

/-- One of several names. -/
def asChoice? (choices : List (String × α)) : (levels : Nat) → Document → Option α
  | _ + 2, name label => label.text?.bind (choices.lookup ·)
  | _, _ => none

/-- The items of a list. -/
def asList? (item : Nat → Document → Option α) : (levels : Nat) → Document → Option (List α)
  | _ + 1, list [] => some []
  | levels + 2, list items => items.mapM (item levels)
  | _, _ => none

/-- Something optional.  A document that need not say that it is there may still do so by the word
`Some`, also right before its label. -/
def asOption? (extensions : Extensions) (content : Nat → Document → Option α) :
    (levels : Nat) → Document → Option (Option α)
  | _, absent => some none
  | levels + 1, present document => some <$> content levels document
  | levels + 1, document =>
    if extensions.implicitSome then
      some <$> content levels (document.afterSome?.getD document)
    else
      none
  | _, _ => none

/-! ## Records -/

/-- The fields of a group that is a record of the given name. -/
def asRecord? (expected : String) : Document → Option (List (String × Document))
  | unit => some []
  | tuple label [] => if label.all (·.isNamed expected) then some [] else none
  | record label fields => if label.all (·.isNamed expected) then some fields else none
  | _ => none

/-- Whether known fields are given at most once, and others fit into a number of levels. -/
def admits (known : List String) (levels : Nat) (fields : List (String × Document)) : Bool :=
  known.all (fun key => (fields.filter (·.1 == key)).length ≤ 1) &&
    fields.all fun (key, value) => known.contains key || value.fits levels

/-- The value of a field that has to be there. -/
def field? (fields : List (String × Document)) (key : String) (read : Document → Option α) :
    Option α :=
  (fields.lookup key).bind read

/-- The value of a field with a default. -/
def fieldOr? (fields : List (String × Document)) (key : String) (default : α)
    (read : Document → Option α) : Option α :=
  match fields.lookup key with
  | none => some default
  | some value => read value

/-! ## Binders -/

/-- How an argument is given. -/
def asPlicity? : (levels : Nat) → Document → Option Plicity :=
  asChoice? [("Explicit", .explicit), ("Implicit", .implicit), ("Instance", .inst)]

/-- A relevance. -/
def asRelevance? : (levels : Nat) → Document → Option Relevance :=
  asChoice? [("Relevant", .relevant), ("NonStrict", .nonStrict), ("Irrelevant", .irrelevant)]

/-- Whether something is inductive. -/
def asInduction? : (levels : Nat) → Document → Option Induction :=
  asChoice? [("Inductive", .ind), ("CoInductive", .coind)]

/-! ## Expressions -/

/-- The expressions that are names. -/
def constants : List (String × Expr) :=
  [("Prop", .prop), ("SetOmega", .setOmega), ("SizeUniv", .sizeUniv), ("Hole", .hole)]

/-- The ways to write an argument. -/
def argModes : List (String × ArgMode) :=
  [("Explicit", .explicit), ("Implicit", .implicit), ("Instance", .inst),
    ("Irrelevant", .irrelevant)]

/-- An argument, given how its expression is read. -/
def asArgument? (expression : Document → Option Expr) : Document → Option (ArgMode × Expr)
  | tuple (some label) [content] => do
    let mode ← label.text?.bind (argModes.lookup ·)
    let argument ← expression content
    pure (mode, argument)
  | _ => none

/-- An expression. -/
def asExpr? : (levels : Nat) → Document → Option Expr
  | levels + 2, name label => asChoice? constants (levels + 2) (.name label)
  | levels + 2, tuple (some label) [content] =>
    match label.text? with
    | some "Var" => Expr.var <$> content.asText?
    | some "Const" => Expr.const <$> content.asText?
    | some "Set" => Expr.set <$> content.asWord?
    | some "SetAt" => Expr.setAt <$> asExpr? levels content
    | some "LevelLit" => Expr.levelLit <$> content.asWord?
    | some "LevelSuc" => Expr.levelSuc <$> asExpr? levels content
    | _ => none
  | levels + 3, tuple (some label) [left, right] =>
    match label.text? with
    | some "App" => do
      let function ← asExpr? levels left
      match levels, right with
      | _ + 1, list [] => pure (.app function [])
      | levels + 4, list items => do
        let arguments ← items.mapM (asArgument? (asExpr? levels))
        pure (.app function arguments)
      | _, _ => none
    | some "Pi" => do
      let fields ← left.asRecord? "Binder"
      match levels with
      | inner + 2 => do
        guard (admits ["name", "ty", "annotation", "relevance"] inner fields)
        let name ← field? fields "name" asText?
        let domain ← field? fields "ty" (asExpr? inner)
        let plicity ← fieldOr? fields "annotation" .explicit (asPlicity? inner)
        let relevance ← fieldOr? fields "relevance" .relevant (asRelevance? inner)
        let codomain ← asExpr? (inner + 2) right
        pure (.pi name ⟨plicity, relevance⟩ domain codomain)
      | _ => none
    | some "Arrow" => Expr.arrow <$> asExpr? levels left <*> asExpr? levels right
    | some "LevelMax" => Expr.levelMax <$> asExpr? levels left <*> asExpr? levels right
    | _ => none
  | _, _ => none

/-! ## Declarations -/

/-- A parameter of a datatype. -/
def asParameter? (extensions : Extensions) :
    (levels : Nat) → Document → Option ParameterBinding
  | levels + 2, document => do
    let fields ← document.asRecord? "ParameterBinding"
    guard (admits ["name", "annotation", "ty"] levels fields)
    let name ← field? fields "name" asText?
    let plicity ← fieldOr? fields "annotation" .explicit (asPlicity? levels)
    let ty ← fieldOr? fields "ty" none (asOption? extensions asExpr? levels)
    pure { name, plicity, ty }
  | _, _ => none

/-- A constructor. -/
def asConstructor? : (levels : Nat) → Document → Option ConstructorDeclaration
  | levels + 2, document => do
    let fields ← document.asRecord? "ConstructorDeclaration"
    guard (admits ["name", "ty", "relevance", "instance"] levels fields)
    let name ← field? fields "name" asText?
    let ty ← field? fields "ty" (asExpr? levels)
    let relevance ← fieldOr? fields "relevance" .relevant (asRelevance? levels)
    let isInstance ← fieldOr? fields "instance" false asBool?
    pure { name, ty, relevance, isInstance }
  | _, _ => none

/-- A datatype, given its fields. -/
def dataOfFields? (extensions : Extensions) (levels : Nat) (fields : List (String × Document)) :
    Option DataDefinition := do
  guard (admits ["name", "ty", "induction", "parameters", "constructors", "universe_check"]
    levels fields)
  let name ← field? fields "name" asText?
  let ty ← fieldOr? fields "ty" none (asOption? extensions asExpr? levels)
  let induction ← fieldOr? fields "induction" .ind (asInduction? levels)
  let parameters ← fieldOr? fields "parameters" [] (asList? (asParameter? extensions) levels)
  let constructors ← fieldOr? fields "constructors" [] (asList? asConstructor? levels)
  let universeCheck ← fieldOr? fields "universe_check" true asBool?
  pure { name, ty, induction, parameters, constructors, universeCheck }

/-- The fields of a declaration other than a datatype. -/
def declarationFields : String → List String
  | "Function" => ["name", "ty", "parameters", "body"]
  | "Record" => ["name", "ty", "induction"]
  | _ => ["name", "ty"]

/-- A declaration other than a datatype, given what it is called and its fields. -/
def declarationOfFields? (extensions : Extensions) (kind : String) (levels : Nat)
    (fields : List (String × Document)) : Option Declaration := do
  guard (admits (declarationFields kind) levels fields)
  let name ← field? fields "name" asText?
  let ty ← field? fields "ty" (asExpr? levels)
  match kind with
  | "Postulate" => pure (.postulate name ty)
  | "Function" => do
    let parameters ← fieldOr? fields "parameters" [] (asList? (fun _ => asText?) levels)
    let body ← fieldOr? fields "body" none (asOption? extensions asExpr? levels)
    pure (.function name ty parameters body)
  | "Record" => do
    let induction ←
      fieldOr? fields "induction" none (asOption? extensions asInduction? levels)
    pure (.record name ty induction)
  | "DataSignature" => pure (.dataSignature name ty)
  | _ => none

/-- A declaration. -/
def asDeclaration? (extensions : Extensions) :
    (levels : Nat) → Document → Option Declaration
  | levels + 4, tuple (some label) [content] => do
    guard (label.isNamed "Data" && !extensions.unwrapRecords)
    let fields ← content.asRecord? "DataDefinition"
    Declaration.data <$> dataOfFields? extensions levels fields
  | levels + 3, record (some label) fields => do
    let kind ← label.text?
    match levels, kind with
    | levels + 1, "Data" => do
      guard extensions.unwrapRecords
      Declaration.data <$> dataOfFields? extensions levels fields
    | levels, kind => declarationOfFields? extensions kind levels fields
  | _, _ => none

/-! ## Modules -/

/-- Options. -/
def asOptions? : (levels : Nat) → Document → Option Options
  | levels + 2, document => do
    let fields ← document.asRecord? "CheckOptions"
    guard (admits ["without_k", "prop_singleton", "forcing"] levels fields)
    let withoutK ← fieldOr? fields "without_k" false asBool?
    let propSingleton ← fieldOr? fields "prop_singleton" false asBool?
    let forcing ← fieldOr? fields "forcing" true asBool?
    pure { withoutK, propSingleton, forcing }
  | _, _ => none

/-- A module. -/
def asModule? (extensions : Extensions) : (levels : Nat) → Document → Option Module
  | levels + 2, document => do
    let fields ← document.asRecord? "Module"
    guard (admits ["options", "declarations"] levels fields)
    let options ← fieldOr? fields "options" {} (asOptions? levels)
    let declarations ← field? fields "declarations" (asList? (asDeclaration? extensions) levels)
    pure { options, declarations }
  | _, _ => none

/-- How many levels a document may have. -/
def maxLevels : Nat := 128

end Document

/-- The module that a text holds. -/
def Module.ofText? (text : String) : Option Module := do
  let (extensions, document) ← Document.ofText? text
  document.asModule? extensions Document.maxLevels

/-- The expression that a text holds. -/
def Expr.ofText? (text : String) : Option Expr := do
  let (_, document) ← Document.ofText? text
  document.asExpr? Document.maxLevels

end Families
