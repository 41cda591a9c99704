import Families.Binder

/-!
# Declarations as they are written

Expressions refer to variables by name.  They are read before anything is known of the declarations
around them.
-/

namespace Families

/-- How an argument is written. -/
inductive ArgMode where
  /-- Explicitly. -/
  | explicit
  /-- For an implicit binder. -/
  | implicit
  /-- For an instance binder. -/
  | inst
  /-- Explicitly, for an irrelevant binder. -/
  | irrelevant
deriving DecidableEq

namespace ArgMode

/-- What an application says about an argument written in this way. -/
def info : ArgMode → ArgInfo
  | explicit => {}
  | implicit => { plicity := .implicit }
  | inst => { plicity := .inst }
  | irrelevant => { relevance := .irrelevant }

end ArgMode

/-- An expression. -/
inductive Expr where
  /-- A variable. -/
  | var (name : String)
  /-- A declaration. -/
  | const (name : String)
  /-- An application to arguments. -/
  | app (function : Expr) (arguments : List (ArgMode × Expr))
  /-- A dependent function type. -/
  | pi (name : String) (info : ArgInfo) (domain codomain : Expr)
  /-- A function type whose codomain does not depend on the argument. -/
  | arrow (domain codomain : Expr)
  /-- The sort of sets of a numbered level. -/
  | set (level : Nat)
  /-- The sort of sets of a level. -/
  | setAt (level : Expr)
  /-- The sort of propositions. -/
  | prop
  /-- The sort above all sets. -/
  | setOmega
  /-- The sort of sizes. -/
  | sizeUniv
  /-- A numbered level. -/
  | levelLit (level : Nat)
  /-- The next level. -/
  | levelSuc (level : Expr)
  /-- The least upper bound of two levels. -/
  | levelMax (left right : Expr)
  /-- A term to be found. -/
  | hole

/-- A parameter where a datatype is defined. -/
structure ParameterBinding where
  /-- Its name. -/
  name : String
  /-- How it is given. -/
  plicity : Plicity := .explicit
  /-- Its type, which has to agree with the type of the datatype. -/
  ty : Option Expr := none

/-- A constructor as it is declared. -/
structure ConstructorDeclaration where
  /-- Its name. -/
  name : String
  /-- Its type, in the scope of the parameters. -/
  ty : Expr
  /-- Its relevance. -/
  relevance : Relevance := .relevant
  /-- Whether it is an instance of its datatype. -/
  isInstance : Bool := false

/-- A datatype as it is defined. -/
structure DataDefinition where
  /-- Its name. -/
  name : String
  /-- Its type, unless that was declared before. -/
  ty : Option Expr := none
  /-- Whether it is inductive. -/
  induction : Induction := .ind
  /-- Its parameters. -/
  parameters : List ParameterBinding := []
  /-- Its constructors. -/
  constructors : List ConstructorDeclaration := []
  /-- Whether the arguments of its constructors have to fit into its sort. -/
  universeCheck : Bool := true

/-- A declaration. -/
inductive Declaration where
  /-- A postulate. -/
  | postulate (name : String) (ty : Expr)
  /-- A function, with names for the arguments of its body. -/
  | function (name : String) (ty : Expr) (parameters : List String) (body : Option Expr)
  /-- A record type without fields. -/
  | record (name : String) (ty : Expr) (induction : Option Induction)
  /-- The type of a datatype that is defined later. -/
  | dataSignature (name : String) (ty : Expr)
  /-- A datatype. -/
  | data (definition : DataDefinition)

/-- What the check of datatypes accepts. -/
structure Options where
  /-- Constructors and forced arguments have to fit too, and indices have to fit. -/
  withoutK : Bool := false
  /-- A datatype of propositions has at most one constructor. -/
  propSingleton : Bool := false
  /-- Forced arguments are found. -/
  forcing : Bool := true
deriving DecidableEq

/-- A sequence of declarations with the options to check them under. -/
structure Module where
  /-- The options. -/
  options : Options := {}
  /-- The declarations. -/
  declarations : List Declaration

end Families
