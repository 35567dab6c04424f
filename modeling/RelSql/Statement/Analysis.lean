import RelSql.Block.Assembly
import RelSql.Block.Nesting
import RelSql.Statement.Binding

/-!
# Analysis

An expression becomes a statement: its blocks and set operations are built, the derived
tables that they share become common table expressions, and every block is bound to an
alias scope.  The graph of the expression is extended, and none of its nodes changes.
-/

namespace RelSql

/-- The query of a table, to a depth of `n` nested queries. -/
def queryWithin : Nat → List (List NodeId) → NodeId → Analysis Query
  | 0, _, _ => Analysis.fail .nestingTooDeep
  | n + 1, enclosing, node => do
    match (← get).node node with
    | .union l r distinct =>
      let left ← queryWithin n enclosing l
      let right ← queryWithin n enclosing r
      return .union left right distinct
    | _ => return (← Block.ofTable (queryWithin n) enclosing node).query

/-- A depth that the nesting of queries over a node does not exceed. -/
def Graph.nestingBound (g : Graph) (id : NodeId) : Nat :=
  (g.nesting id).depth

/-- The query of a table. -/
def queryOf (node : NodeId) : Analysis Query := do
  queryWithin ((← get).nestingBound node) [] node

/-- The query of values that read no table. -/
def constantQuery (values : List NodeId) : Analysis Query := do
  let node ← match values with
    | v :: _ => pure v
    | [] => Analysis.push (.literal .null)
  return .select { Clauses.ofNode node with select := values } []

/-- A value with a name. -/
def withName (value : NodeId) : Analysis NodeId := do
  match (← get).name? value with
  | some _ => return value
  | none => Analysis.push (.named value Graph.defaultName)

/-- The query of a single value, and how its result is read: a value of each row of a table
is a column, an aggregate of the rows or a constant is a scalar. -/
def valueQuery (root : NodeId) : Analysis (Query × Handler) := do
  let value ← withName root
  let g ← get
  match g.baseTable root with
  | none => return (← constantQuery [value], .scalar)
  | some t =>
    if g.hasReduction root then
      let table ← Analysis.push (.aggregation t [] [value] [])
      return (← queryOf table, .scalar)
    else
      let name := (g.name? value).getD Graph.defaultName
      let table ← Analysis.push (.projection t [value])
      return (← queryOf table, .column name)

/-- The query of a list of values. -/
def listQuery (root : NodeId) (exprs : List NodeId) : Analysis Query := do
  let values ← exprs.mapM withName
  match (← get).baseTable root with
  | some t => queryOf (← Analysis.push (.projection t values))
  | none => constantQuery values

/-- The query of an expression, and how its result is read. -/
def rootQuery (root : NodeId) : Analysis (Query × Handler) := do
  let g ← get
  match g.node root with
  | .column t name =>
    match g.node t with
    | .aggregation _ _ _ _ => return (← queryOf t, .column name)
    | _ => valueQuery root
  | .exprList exprs => return (← listQuery root exprs, .table)
  | .topK _ _ _ | .any _ | .interval _ _ => Analysis.fail (.notComputable (g.display root))
  | node =>
    if node.isRelation then return (← queryOf root, .table)
    else valueQuery root

/-- The statement of an expression. -/
def Graph.analyze (g : Graph) (root : NodeId) : Except CompileError Statement := do
  let ((query, handler), graph) ← ((rootQuery root).run g).mapError Analysis.Failure.error
  let (query, groups) := query.shareTables graph
  let (query, shared) := query.bind groups
  return ⟨graph, query, shared, handler⟩

end RelSql
