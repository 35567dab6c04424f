import RelSql.Graph.NodeId
import RelSql.Graph.Operator
import RelSql.Schema
import RelSql.Value

/-!
# Nodes

Relational operators and value expressions are the nodes of one graph, and refer to each
other by handles.  `children` lists the handles of a node, and `mapChildrenM` replaces
them, in the same order.
-/

namespace RelSql

/-- A physical table, or a literal one when it has no name. -/
structure Table where
  name : Option String
  database : Option String
  schema : Schema
  deriving DecidableEq, Repr

/-- A value that rows are sorted by. -/
structure SortKey where
  expr : NodeId
  ascending : Bool
  deriving DecidableEq, Repr

/-- The values that membership is tested in: a list of values, or the values of a column
of another table. -/
inductive Options where
  | list (values : List NodeId)
  | column (column : NodeId)
  deriving DecidableEq, Repr

/-- A node of an expression graph. -/
inductive Node where
  /-- A table. -/
  | table (t : Table)
  /-- A second, distinct use of a table. -/
  | view (table : NodeId)
  /-- The named values of each row; a table among them stands for all its columns. -/
  | projection (table : NodeId) (selections : List NodeId)
  /-- The rows for which all predicates hold. -/
  | selection (table : NodeId) (predicates : List NodeId)
  /-- The groups of rows with equal keys, and the metrics of those that `having` keeps. -/
  | aggregation (table : NodeId) (keys metrics having : List NodeId)
  /-- The pairs of rows for which all predicates hold. -/
  | join (kind : JoinKind) (left right : NodeId) (predicates : List NodeId)
  /-- The rows in order. -/
  | sort (table : NodeId) (keys : List SortKey)
  /-- The first `n` rows after the first `offset` ones. -/
  | limit (table : NodeId) (n offset : Nat)
  /-- The distinct rows. -/
  | distinct (table : NodeId)
  /-- The rows of two tables, each row once if `unique` holds. -/
  | union (left right : NodeId) (unique : Bool)
  /-- A constant. -/
  | literal (value : Value)
  /-- A duration, the right operand of an addition or a subtraction. -/
  | interval (unit : TimeUnit) (count : Int)
  /-- A field of a table. -/
  | column (table : NodeId) (name : String)
  /-- A named value. -/
  | named (arg : NodeId) (name : String)
  | unary (op : UnaryOp) (arg : NodeId)
  | binary (op : BinaryOp) (left right : NodeId)
  | call (function : Function) (arguments : List NodeId)
  | cast (arg : NodeId) (target : DataType)
  /-- A part of a date or a time. -/
  | extract (arg : NodeId) (unit : TimeUnit)
  /-- The first value whose condition holds, or equals the base. -/
  | case (base : Option NodeId) (whens : List (NodeId × NodeId)) (default : Option NodeId)
  | between (arg low high : NodeId)
  /-- Membership, or its negation. -/
  | contains (arg : NodeId) (options : Options) (negated : Bool)
  /-- An aggregate of the rows of a group. -/
  | reduction (aggregate : Aggregate) (arg : NodeId)
  /-- The number of rows of a table. -/
  | countStar (table : NodeId)
  /-- Membership in the `k` values of `arg` that rank first by a metric, by their count if
  there is none. -/
  | topK (arg : NodeId) (k : Nat) (metric : Option NodeId)
  /-- Whether the predicate holds for some row. -/
  | any (predicate : NodeId)
  | exprList (exprs : List NodeId)
  deriving DecidableEq, Repr

namespace Node

instance : Inhabited Node := ⟨.literal .null⟩

/-- Whether the node denotes a table. -/
def isRelation : Node → Bool
  | .table _ | .view _ | .projection _ _ | .selection _ _ | .aggregation _ _ _ _
  | .join _ _ _ _ | .sort _ _ | .limit _ _ _ | .distinct _ | .union _ _ _ => true
  | _ => false

/-- Whether the node makes one value of many rows. -/
def isReduction : Node → Bool
  | .reduction _ _ | .countStar _ => true
  | _ => false

/-- The handles of a node, in order. -/
def children : Node → List NodeId
  | .table _ | .literal _ | .interval _ _ => []
  | .view t => [t]
  | .projection t selections => t :: selections
  | .selection t predicates => t :: predicates
  | .aggregation t keys metrics having => t :: (keys ++ metrics ++ having)
  | .join _ l r predicates => l :: r :: predicates
  | .sort t keys => t :: keys.map SortKey.expr
  | .limit t _ _ => [t]
  | .distinct t => [t]
  | .union l r _ => [l, r]
  | .column t _ => [t]
  | .named a _ => [a]
  | .unary _ a => [a]
  | .binary _ l r => [l, r]
  | .call _ arguments => arguments
  | .cast a _ => [a]
  | .extract a _ => [a]
  | .case base whens default =>
    base.toList ++ whens.flatMap (fun w => [w.1, w.2]) ++ default.toList
  | .between a low high => [a, low, high]
  | .contains a (.list values) _ => a :: values
  | .contains a (.column c) _ => [a, c]
  | .reduction _ a => [a]
  | .countStar t => [t]
  | .topK a _ metric => a :: metric.toList
  | .any p => [p]
  | .exprList exprs => exprs

/-- Replaces an optional handle. -/
def mapOptionM {m : Type → Type} [Monad m] (f : NodeId → m NodeId) :
    Option NodeId → m (Option NodeId)
  | none => return none
  | some id => return some (← f id)

/-- Replaces the handles of a node, in order. -/
def mapChildrenM {m : Type → Type} [Monad m] (f : NodeId → m NodeId) : Node → m Node
  | .table t => return .table t
  | .literal v => return .literal v
  | .interval unit count => return .interval unit count
  | .view t => return .view (← f t)
  | .projection t selections => return .projection (← f t) (← selections.mapM f)
  | .selection t predicates => return .selection (← f t) (← predicates.mapM f)
  | .aggregation t keys metrics having =>
    return .aggregation (← f t) (← keys.mapM f) (← metrics.mapM f) (← having.mapM f)
  | .join kind l r predicates => return .join kind (← f l) (← f r) (← predicates.mapM f)
  | .sort t keys =>
    return .sort (← f t) (← keys.mapM fun k => do return { k with expr := ← f k.expr })
  | .limit t n offset => return .limit (← f t) n offset
  | .distinct t => return .distinct (← f t)
  | .union l r unique => return .union (← f l) (← f r) unique
  | .column t name => return .column (← f t) name
  | .named a name => return .named (← f a) name
  | .unary op a => return .unary op (← f a)
  | .binary op l r => return .binary op (← f l) (← f r)
  | .call function arguments => return .call function (← arguments.mapM f)
  | .cast a target => return .cast (← f a) target
  | .extract a unit => return .extract (← f a) unit
  | .case base whens default =>
    return .case (← mapOptionM f base)
      (← whens.mapM fun w => do return (← f w.1, ← f w.2)) (← mapOptionM f default)
  | .between a low high => return .between (← f a) (← f low) (← f high)
  | .contains a (.list values) negated =>
    return .contains (← f a) (.list (← values.mapM f)) negated
  | .contains a (.column c) negated => return .contains (← f a) (.column (← f c)) negated
  | .reduction aggregate a => return .reduction aggregate (← f a)
  | .countStar t => return .countStar (← f t)
  | .topK a k metric => return .topK (← f a) k (← mapOptionM f metric)
  | .any p => return .any (← f p)
  | .exprList exprs => return .exprList (← exprs.mapM f)

/-- Replaces the handles of a node by a function. -/
def mapChildren (f : NodeId → NodeId) (node : Node) : Node :=
  Id.run (node.mapChildrenM fun id => pure (f id))

/-- A node without its handles: its operator and its parameters. -/
def shape (node : Node) : Node :=
  node.mapChildren fun _ => ⟨0⟩

/-- Equality of nodes, constants being compared as values. -/
def equals : Node → Node → Bool
  | .literal v, .literal w => v.equals w
  | l, r => l = r

end Node

end RelSql
