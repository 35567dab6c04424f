import RelSql.Graph.Basic
import RelSql.Number.Digits

/-!
# How deep queries are nested

A block compiles tables of the expression, and tables that it creates: groups for a ranking
over the joins it has put together, the rows that an existence test asks for, and what a
scalar subquery or a membership test reads.  A bound on the depth of the queries nested in
each other is still known from the expression, by recursion on its handles.

Ranking is what the bound grows with.  A ranking becomes a join with groups of the FROM
clause that holds the rankings joined before it.  A join without predicates that is put
together again allows filters of its operands to be evaluated later, so the block of such
groups may have rankings of its own, which are known to be filters of the operands.
-/

namespace RelSql

/-- What bounds the nesting of queries over a handle. -/
structure Nesting where
  /-- The depth of the query of a table. -/
  depth : Nat
  /-- The depth of the queries in the FROM clause of a block over a table. -/
  source : Nat
  /-- The number of rankings that a block may take over with a table. -/
  rankings : Nat
  /-- The depth of the queries that stand for a value once it is lifted.  That of a table is
  one for all columns of the table, and for queries over it. -/
  reach : Nat
  /-- The number of rankings that a block may have that tests for rows with a value. -/
  width : Nat
  deriving DecidableEq, Repr

namespace Nesting

/-- The largest of some numbers. -/
def largest (numbers : List Nat) : Nat := numbers.foldr max 0

/-- The sum of some numbers. -/
def total (numbers : List Nat) : Nat := numbers.foldr Nat.add 0

/-- The depth of a block whose FROM clause and predicates nest queries to a depth of
`content`, with a number of rankings. -/
def block (content rankings : Nat) : Nat :=
  1 + content + 3 * Number.twoPow rankings

/-- The depth of a block over a table, without predicates of its own. -/
def blockOver (n : Nesting) : Nat := block n.source n.rankings

/-- The bounds for a value from those for its operands.  A block over a value has its reach at
most, as a block over a table has. -/
def ofValue (n : Node) (operands : List Nesting) : Nesting :=
  let reach := max (largest (operands.map Nesting.reach)) (block 0 1)
  let width := total (operands.map Nesting.width)
  match n with
  | .any _ => ⟨1, 0, 0, reach + 2 + 6 * Number.twoPow width, width⟩
  | .topK _ _ _ => ⟨1, 0, 1, reach, 1 + width⟩
  | _ => ⟨1, 0, 0, reach, width⟩

/-- The bounds for a table from those for what its columns may stand for. -/
def ofTable (depth source rankings : Nat) (given : List Nesting) : Nesting :=
  { depth, source, rankings
    reach := max (largest (given.map Nesting.reach)) (block source rankings)
    width := max (largest (given.map Nesting.width)) rankings }

/-- The bounds for a table that is compiled where it stands in a FROM clause. -/
def ofLeaf (depth rankings : Nat) (given : List Nesting) : Nesting :=
  ofTable depth depth rankings given

/-- The bounds for a selection. -/
def ofSelection (table : Nesting) (predicates : List Nesting) : Nesting :=
  let content := max table.source (largest (predicates.map Nesting.reach))
  let rankings := table.rankings + total (predicates.map Nesting.rankings)
  ofLeaf (block content rankings) rankings [table]

/-- The bounds for a join. -/
def ofJoin (left right : Nesting) : Nesting :=
  let source := max left.source right.depth
  let rankings := left.rankings + right.rankings
  ofTable (block source rankings) source rankings [left, right]

end Nesting

/-- The bounds for a node from those for its children. -/
def Node.nesting (below : NodeId → Nesting) (n : Node) : Nesting :=
  match n with
  | .table _ => .ofTable 1 0 0 []
  | .view t => .ofTable (1 + (below t).depth) (below t).depth 0 []
  | .projection t selections =>
    .ofLeaf (below t).blockOver (below t).rankings (selections.map below)
  | .aggregation t keys metrics _ => .ofLeaf (below t).blockOver 0 ((keys ++ metrics).map below)
  | .selection t predicates => .ofSelection (below t) (predicates.map below)
  | .join _ l r _ => .ofJoin (below l) (below r)
  | .sort t _ => .ofLeaf (1 + (below t).depth) (below t).rankings [below t]
  | .limit t _ _ | .distinct t => .ofLeaf (1 + (below t).depth) 0 [below t]
  | .union l r _ => .ofLeaf (1 + max (below l).depth (below r).depth) 0 []
  | value => .ofValue value (value.children.map below)

/-- What bounds the nesting of queries over a handle.  It depends on what the handle unfolds
to only. -/
def Graph.nesting (g : Graph) : NodeId → Nesting :=
  NodeId.recurse (fun _ => ⟨1, 0, 0, 0, 0⟩) fun below id => (g.node id).nesting below

end RelSql
