import RelSql.Graph.Error

/-!
# Faults of compilation

Each fault is a cause.  It belongs to a kind, and it has a description and a message, which
is the description on a line of its own under the name of the kind.
-/

namespace RelSql

/-- The causes for which an expression cannot be compiled or a result cannot be read. -/
inductive CompileError where
  /-- A table of the FROM clause has no name. -/
  | unnamedTable
  /-- The source of a block is not a table. -/
  | sourceNotATable (shown : String)
  /-- A join predicate reads a table that its join does not have. -/
  | foreignJoinPredicate (shown : String)
  /-- A ranking has no FROM clause to rank. -/
  | rankingWithoutSource
  /-- A table of the FROM clause has no alias. -/
  | withoutAlias (id : NodeId)
  /-- A common table expression has no name. -/
  | unnamedSharedTable (index : Nat)
  /-- A table of the FROM clause is neither physical nor derived. -/
  | notPhysical (id : NodeId)
  /-- A relational fault in words. -/
  | relation (description : String)
  /-- A storage format is not known. -/
  | unsupportedFormat (format : String)
  /-- A column belongs to no table in scope. -/
  | columnOutOfScope (name : String)
  /-- A name is ambiguous. -/
  | ambiguousReference (description : String)
  /-- A value has no meaning without a query around it. -/
  | notComputable (shown : String)
  /-- A value stands where a table is needed. -/
  | notATable (shown : String)
  /-- A ranking is over a value that is not a column. -/
  | rankingOverValue
  /-- A ranking is over a value that reads no table. -/
  | rankingWithoutTable
  /-- Membership is in a value that is not a column. -/
  | membershipInValue
  /-- A reduction reads no table. -/
  | reductionWithoutTable
  /-- An existence test reads no table of its own. -/
  | existsOverNothing
  /-- Membership in a column is written where no subquery stands for it. -/
  | membershipWithoutSubquery
  /-- A value has no text in SQL. -/
  | notRenderable (shown : String)
  /-- A table stands where a value is needed. -/
  | tableAsValue (shown : String)
  /-- An expression is invalid. -/
  | invalidExpression (description : String)
  /-- A fault of the graph. -/
  | graph (e : GraphError)
  /-- A fault of a type name. -/
  | type (e : TypeError)
  /-- The result has no column of the name. -/
  | missingColumn (name : String)
  /-- A row has fewer values than there are columns. -/
  | shortRow
  /-- The result has no first value. -/
  | emptyResult
  /-- Queries are nested more deeply than the graph allows. -/
  | nestingTooDeep
  /-- A fault in words. -/
  | other (description : String)
  deriving DecidableEq, Repr

namespace CompileError

/-- The kinds of faults. -/
inductive Kind where
  | relation
  | unsupportedFormat
  | ambiguousReference
  | invalidExpression
  | other
  deriving DecidableEq, Repr

/-- The kind that a fault of a graph belongs to when it stops a compilation. -/
def kindOfGraph (e : GraphError) : Kind :=
  match e.kind with
  | .invalidName | .invalidExpression => .invalidExpression
  | .ambiguousReference => .ambiguousReference
  | .other => .other

/-- The kind of a fault. -/
def kind : CompileError → Kind
  | .unnamedTable | .sourceNotATable _ | .foreignJoinPredicate _ | .rankingWithoutSource
  | .withoutAlias _ | .unnamedSharedTable _ | .notPhysical _ | .relation _ => .relation
  | .unsupportedFormat _ => .unsupportedFormat
  | .columnOutOfScope _ | .ambiguousReference _ => .ambiguousReference
  | .graph e => kindOfGraph e
  | .missingColumn _ | .shortRow | .emptyResult | .nestingTooDeep | .other _ => .other
  | _ => .invalidExpression

/-- The fault in words. -/
def description : CompileError → String
  | .unnamedTable => "a table without a name cannot be referenced in SQL"
  | .sourceNotATable shown | .notATable shown => shown ++ " is not a table"
  | .foreignJoinPredicate shown =>
    "the join predicate " ++ shown ++ " refers to a table outside of the join"
  | .rankingWithoutSource => "top-k filter without a table"
  | .withoutAlias id => id.text ++ " has no alias"
  | .unnamedSharedTable index =>
    "unnamed common table expression " ++ String.ofList (Number.digits index)
  | .notPhysical id => id.text ++ " is not a physical table"
  | .unsupportedFormat format => format ++ " is not a supported format"
  | .columnOutOfScope name => name ++ " does not refer to a table in scope"
  | .notComputable shown => shown ++ " cannot be computed on its own"
  | .rankingOverValue => "top-k is only supported on columns"
  | .rankingWithoutTable => "top-k over a value without table"
  | .membershipInValue => "IN over a value that is not a column"
  | .reductionWithoutTable => "reduction without a table"
  | .existsOverNothing => "EXISTS over no table"
  | .membershipWithoutSubquery => "IN over a column without subquery"
  | .notRenderable shown => shown ++ " cannot be rendered here"
  | .tableAsValue shown => shown ++ " is a table, not a value"
  | .graph e => e.description
  | .type e => e.message
  | .missingColumn name => "no column named " ++ name ++ " in the result"
  | .shortRow => "row shorter than the header"
  | .emptyResult => "empty result for a scalar expression"
  | .nestingTooDeep => "queries are nested too deeply"
  | .relation description | .ambiguousReference description
  | .invalidExpression description | .other description => description

/-- The fault in words under its kind, on a line of its own. -/
def message (e : CompileError) : String :=
  match e.kind with
  | .relation => "RelationError: " ++ e.description ++ "\n"
  | .unsupportedFormat => "UnsupportedFormatError: " ++ e.description ++ "\n"
  | .ambiguousReference => "AmbiguousReferenceError: " ++ e.description ++ "\n"
  | .invalidExpression => "InvalidExpression: " ++ e.description ++ "\n"
  | .other => e.description ++ "\n"

end CompileError

end RelSql
