import RelSql.DataType
import RelSql.Graph.NodeId

/-!
# Faults of graphs and schemas

Each fault is a cause.  It belongs to a kind, and it has a description and a message, which
is the description on a line of its own under the name of the kind.
-/

namespace RelSql

/-- The causes for which a node or a schema cannot be built or typed. -/
inductive GraphError where
  | unknownName (name : String)
  | repeatedName (name : String)
  | notATable (id : NodeId)
  | notAValue (id : NodeId)
  | notAColumn (id : NodeId)
  | caseWithoutWhen
  | tableWithoutColumns
  | crossJoinWithPredicates
  | emptyAggregation
  | invalidExpression (expression : String)
  | ambiguousReference (name table : String)
  | other (description : String)
  deriving DecidableEq, Repr

namespace GraphError

/-- The kinds of faults. -/
inductive Kind where
  | invalidName
  | invalidExpression
  | ambiguousReference
  | other
  deriving DecidableEq, Repr

/-- The kind of a fault. -/
def kind : GraphError → Kind
  | .unknownName _ | .repeatedName _ => .invalidName
  | .ambiguousReference _ _ => .ambiguousReference
  | .other _ => .other
  | _ => .invalidExpression

/-- What is invalid about a name or an expression. -/
def subject : GraphError → String
  | .unknownName name => name
  | .repeatedName name => name ++ " (ambiguous column name)"
  | .notATable id => id.text ++ " is not a table"
  | .notAValue id => id.text ++ " is not a value"
  | .notAColumn id => id.text ++ " is not a column"
  | .caseWithoutWhen => "CASE without WHEN"
  | .tableWithoutColumns => "a table needs at least one column"
  | .crossJoinWithPredicates => "a cross join takes no predicate"
  | .emptyAggregation => "an aggregation needs keys or metrics"
  | .invalidExpression expression => expression
  | .ambiguousReference name _ => name
  | .other description => description

/-- The fault in words. -/
def description (e : GraphError) : String :=
  match e with
  | .ambiguousReference name table => name ++ " is provided by both sides of " ++ table
  | .other description => description
  | _ => e.subject ++ " is invalid"

/-- The fault in words under its kind, on a line of its own. -/
def message (e : GraphError) : String :=
  match e.kind with
  | .invalidName => "InvalidName: " ++ e.description ++ "\n"
  | .invalidExpression => "InvalidExpression: " ++ e.description ++ "\n"
  | .ambiguousReference => "AmbiguousReference: " ++ e.description ++ "\n"
  | .other => e.description ++ "\n"

/-- The fault of a type name, as a fault of the schema it stands in. -/
def ofType (e : TypeError) : GraphError :=
  .other e.message

end GraphError

end RelSql
