import RelSql.AliasScope
import RelSql.Graph.Basic
import RelSql.ResultSet

/-!
# Statements

The analyzed form of an expression: a tree of blocks and set operations over a graph, the
common table expressions it shares, and the handler of its result.
-/

namespace RelSql

/-- One step of a chain of joins. -/
structure JoinClause where
  kind : JoinKind
  table : NodeId
  predicates : List NodeId
  deriving DecidableEq, Repr

/-- A FROM clause. -/
structure TableSet where
  /-- The join of all tables, or the only table. -/
  node : NodeId
  first : NodeId
  joins : List JoinClause
  deriving DecidableEq, Repr

/-- The FROM clause of one table. -/
def TableSet.leaf (id : NodeId) : TableSet := ⟨id, id, []⟩

/-- The tables of a FROM clause, in order. -/
def TableSet.leaves (t : TableSet) : List NodeId :=
  t.first :: t.joins.map JoinClause.table

/-- The first `n` rows after the first `offset` ones. -/
structure LimitClause where
  n : Nat
  offset : Nat
  deriving DecidableEq, Repr

/-- What a nested query stands for. -/
inductive SubqueryKind where
  /-- A table of the FROM clause. -/
  | table
  /-- A single value. -/
  | scalar
  /-- An existence test. -/
  | exists
  /-- The values that membership is tested in. -/
  | membership
  deriving DecidableEq, Repr

/-- A nested query and the node it stands for. -/
structure Nested (Q : Type) where
  node : NodeId
  kind : SubqueryKind
  /-- The common table expression that stands for this query. -/
  shared : Option Nat
  query : Q

/-- The clauses of a block, and the scope its columns are written in. -/
structure Clauses where
  /-- The node the block is built from. -/
  node : NodeId
  /-- The tables whose columns are written as the output names of the block. -/
  outputs : List NodeId
  select : List NodeId
  from? : Option TableSet
  predicates : List NodeId
  /-- Positions in the select list. -/
  groupBy : List Nat
  having : List NodeId
  orderBy : List SortKey
  limit : Option LimitClause
  distinct : Bool
  /-- Whether columns are qualified even if there is one table only. -/
  forceAliases : Bool
  scope : AliasScope
  deriving DecidableEq, Repr

/-- The clauses of a block in which nothing is selected. -/
def Clauses.ofNode (node : NodeId) : Clauses :=
  ⟨node, [], [], none, [], [], [], [], none, false, false, .root⟩

/-- The tables of the FROM clause. -/
def Clauses.leaves (c : Clauses) : List NodeId :=
  match c.from? with
  | some t => t.leaves
  | none => []

/-- A block with its nested queries, or a set operation. -/
inductive Query where
  | select (clauses : Clauses) (nested : List (Nested Query))
  | union (left right : Query) (distinct : Bool)

instance : Inhabited Query := ⟨.select (.ofNode ⟨0⟩) []⟩

/-- The nested query that stands for a node. -/
def nestedFor? {Q : Type} (nested : List (Nested Q)) (id : NodeId) : Option (Nested Q) :=
  nested.find? fun s => s.node = id

/-- The nested query that stands for a table of the FROM clause. -/
def derivedFor? {Q : Type} (nested : List (Nested Q)) (id : NodeId) : Option (Nested Q) :=
  nested.find? fun s => s.node = id ∧ s.kind = .table

/-- A block with its nested queries. -/
structure Select where
  clauses : Clauses
  nested : List (Nested Query)

/-- The first block of a query. -/
def Query.first : Query → Select
  | .select clauses nested => ⟨clauses, nested⟩
  | .union l _ _ => l.first

/-- The same nested query over another one. -/
def Nested.map {Q R : Type} (f : Q → R) (s : Nested Q) : Nested R :=
  ⟨s.node, s.kind, s.shared, f s.query⟩

mutual

/-- The recursion on queries, `select` and `union` combining the results for the parts. -/
def Query.fold {α : Type} (select : Clauses → List (Nested α) → α)
    (union : α → α → Bool → α) : Query → α
  | .select clauses nested => select clauses (foldNested select union nested)
  | .union l r distinct => union (l.fold select union) (r.fold select union) distinct

/-- The results for nested queries. -/
def foldNested {α : Type} (select : Clauses → List (Nested α) → α)
    (union : α → α → Bool → α) : List (Nested Query) → List (Nested α)
  | [] => []
  | ⟨node, kind, shared, query⟩ :: rest =>
    ⟨node, kind, shared, query.fold select union⟩ :: foldNested select union rest

end

mutual

/-- All nested queries of a query, each before those nested in it. -/
def Query.allNested : Query → List (Nested Query)
  | .select _ nested => allNestedOf nested
  | .union l r _ => l.allNested ++ r.allNested

/-- Nested queries, each before all those nested in it. -/
def allNestedOf : List (Nested Query) → List (Nested Query)
  | [] => []
  | ⟨node, kind, shared, query⟩ :: rest =>
    ⟨node, kind, shared, query⟩ :: (query.allNested ++ allNestedOf rest)

end

/-- All blocks of a query, each before those nested in it. -/
def Query.blocks : Query → List Clauses :=
  Query.fold (fun clauses nested => clauses :: nested.flatMap Nested.query)
    (fun l r _ => l ++ r)

/-- A common table expression. -/
structure SharedTable where
  name : String
  node : NodeId
  query : Query

/-- An analyzed expression. -/
structure Statement where
  /-- The graph of the expression, and of what the analysis has added to it. -/
  graph : Graph
  query : Query
  shared : List SharedTable
  handler : Handler

end RelSql
