import Families.PathMap
import Families.Universe

/-!
# The signature

Every declaration checked so far, by its path.  A declaration that is still being checked can be
entered ahead of its completion, so that it may refer to itself.
-/

namespace Families

/-- What is known of a datatype. -/
structure Datatype where
  /-- How many parameters it has. -/
  parameters : Nat
  /-- How many indices it has. -/
  indices : Nat
  /-- Its sort, under its parameters. -/
  sort : Universe
  /-- Whether it is inductive. -/
  induction : Induction
  /-- Its constructors, in the order of their declaration. -/
  constructors : List Path
  /-- The parameters whose type fits into its sort, counted from the outermost. -/
  smallParameters : Positions
  /-- The parameters that some constructor mentions in the indices of its target. -/
  nonLinearParameters : Positions
  /-- Whether the arguments of its constructors were checked to fit into its sort. -/
  universeCheck : Bool
deriving DecidableEq

/-- What is known of a constructor. -/
structure Constructor where
  /-- The datatype that it constructs. -/
  datatype : Path
  /-- How many parameters the datatype has. -/
  parameters : Nat
  /-- How many arguments it takes beyond the parameters. -/
  arity : Nat
  /-- Whether it is inductive. -/
  induction : Induction
  /-- For each argument, whether the indices of the target determine it. -/
  forced : List Bool
deriving DecidableEq

/-- What a declaration stands for. -/
inductive Kind where
  /-- A postulate. -/
  | postulate
  /-- A function of so many arguments.  Its body stands under them, the last being variable zero,
  and without a body it never unfolds. -/
  | function (arity : Nat) (body : Option Term)
  /-- A datatype whose constructors are not given yet. -/
  | dataSignature
  /-- A datatype. -/
  | datatype (datatype : Datatype)
  /-- A record type. -/
  | record (induction : Option Induction)
  /-- A constructor. -/
  | constructor (constructor : Constructor)
deriving DecidableEq

/-- A declaration with its type, which is closed. -/
structure Definition where
  /-- Its path. -/
  path : Path
  /-- Its type. -/
  ty : Ty
  /-- What it stands for. -/
  kind : Kind
deriving DecidableEq

/-- How far the check of a declaration has come. -/
inductive Phase where
  /-- It is still going on. -/
  | pending
  /-- It is complete. -/
  | complete
deriving DecidableEq

/-- A declaration in the signature. -/
structure Entry where
  /-- The declaration. -/
  definition : Definition
  /-- How far its check has come. -/
  phase : Phase
deriving DecidableEq

/-- Why the signature refuses a change. -/
inductive SignatureError where
  /-- The path is taken. -/
  | alreadyDefined (path : Path)
  /-- Nothing has the path. -/
  | notFound (path : Path)
  /-- The declaration is complete already. -/
  | notPending (path : Path)
deriving DecidableEq

namespace SignatureError

/-- The wording of a refusal. -/
def message (names : NameTable) : SignatureError → String
  | alreadyDefined path => "`" ++ names.display path ++ "` is already defined"
  | notFound path => "`" ++ names.display path ++ "` is not defined"
  | notPending path => "`" ++ names.display path ++ "` was already completed"

end SignatureError

/-- The declarations checked so far. -/
abbrev Signature := PathMap Entry

namespace Signature

/-- The declaration of a path, complete or not. -/
def definition? (signature : Signature) (path : Path) : Option Definition :=
  (signature.get? path).map (·.definition)

/-- Adds a complete declaration. -/
def register (signature : Signature) (definition : Definition) :
    Except SignatureError Signature :=
  match signature.get? definition.path with
  | some _ => .error (.alreadyDefined definition.path)
  | none => .ok (signature.insert definition.path ⟨definition, .complete⟩)

/-- Adds a declaration whose check is still going on.  It may take the place of a complete
declaration of a datatype's type. -/
def registerPending (signature : Signature) (definition : Definition) :
    Except SignatureError Signature :=
  match signature.get? definition.path with
  | none | some ⟨⟨_, _, .dataSignature⟩, .complete⟩ =>
    .ok (signature.insert definition.path ⟨definition, .pending⟩)
  | some _ => .error (.alreadyDefined definition.path)

/-- Completes a pending declaration with what it stands for. -/
def complete (signature : Signature) (path : Path) (kind : Kind) :
    Except SignatureError Signature :=
  match signature.get? path with
  | none => .error (.notFound path)
  | some ⟨_, .complete⟩ => .error (.notPending path)
  | some ⟨definition, .pending⟩ =>
    .ok (signature.insert path ⟨{ definition with kind }, .complete⟩)

/-- The complete declarations, in the order of their paths. -/
def definitions (signature : Signature) : List Definition :=
  (signature.values.filter (·.phase == .complete)).map (·.definition)

/-- The check of a declaration is still going on. -/
def isPending (signature : Signature) (path : Path) : Bool :=
  (signature.get? path).any (·.phase == .pending)

/-- The datatype of a path. -/
def datatype? (signature : Signature) (path : Path) : Option Datatype :=
  match signature.definition? path with
  | some ⟨_, _, .datatype datatype⟩ => some datatype
  | _ => none

/-- The constructor of a path. -/
def constructor? (signature : Signature) (path : Path) : Option Constructor :=
  match signature.definition? path with
  | some ⟨_, _, .constructor constructor⟩ => some constructor
  | _ => none

end Signature

end Families
