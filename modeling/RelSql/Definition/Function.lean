import RelSql.Definition.Table

/-!
# Definitions of functions

The statements that create, drop and list functions that a library provides.
-/

namespace RelSql.Definition

open Render Text

/-- A function, given by its name and the types of its arguments. -/
structure Signature where
  target : Target
  inputs : List DataType
  deriving DecidableEq, Repr

/-- The text of a signature. -/
def Signature.text (s : Signature) : String :=
  let database := match s.target.database with
    | some d => d ++ "."
    | none => ""
  database ++ s.target.name ++ "(" ++ joinWith ", " (s.inputs.map DataType.sqlName) ++ ")"

/-- A function with its type and the library that provides it. -/
structure LibraryFunction where
  signature : Signature
  output : DataType
  library : String
  deriving DecidableEq, Repr

/-- The text of a function, after the verb of its statement. -/
def LibraryFunction.text (f : LibraryFunction) : String :=
  f.signature.text ++ " returns " ++ f.output.sqlName ++ " location " ++ stringLiteral f.library

/-- Creates a scalar function, given by its symbol. -/
def createFunction (f : LibraryFunction) (symbol : String) : String :=
  "CREATE FUNCTION " ++ f.text ++ " symbol=" ++ stringLiteral symbol

/-- The symbols of the steps of an aggregate function. -/
structure AggregateSteps where
  init : Option String
  update : Option String
  merge : Option String
  serialize : Option String
  finalize : Option String
  deriving DecidableEq, Repr

/-- The steps in order, with their names. -/
def AggregateSteps.toList (s : AggregateSteps) : List (String × Option String) :=
  [("init_fn", s.init), ("update_fn", s.update), ("merge_fn", s.merge),
    ("serialize_fn", s.serialize), ("finalize_fn", s.finalize)]

/-- The text of a step that has a symbol. -/
def stepText (step : String × Option String) : Option String :=
  step.2.map fun symbol => step.1 ++ "=" ++ stringLiteral symbol

/-- Creates an aggregate function, given by the symbols of its steps. -/
def createAggregateFunction (f : LibraryFunction) (steps : AggregateSteps) : String :=
  joinWith " " (("CREATE AGGREGATE FUNCTION " ++ f.text) :: steps.toList.filterMap stepText)

/-- The word that stands for aggregate functions. -/
def aggregateWord (aggregate : Bool) : String :=
  if aggregate then "AGGREGATE " else ""

/-- Drops a function. -/
def dropFunction (s : Signature) (aggregate ifExists : Bool) : String :=
  "DROP " ++ aggregateWord aggregate ++ "FUNCTION " ++ (if ifExists then "IF EXISTS " else "")
    ++ s.text

/-- Lists the functions of a database, those like a pattern if there is one. -/
def listFunctions (database : String) (like : Option String) (aggregate : Bool) : String :=
  let pattern := match like with
    | some p => " LIKE " ++ stringLiteral p
    | none => ""
  "SHOW " ++ aggregateWord aggregate ++ "FUNCTIONS IN " ++ database ++ pattern

end RelSql.Definition
