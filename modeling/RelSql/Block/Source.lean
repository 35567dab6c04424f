import RelSql.Block.Basic

/-!
# The FROM clause

A table below a block becomes the FROM clause of the block.  Left-deep joins are flattened.
Selections above the table, and above operands that a join allows to be filtered later,
are folded into the block, which takes over their predicates.  A table that is not physical
is compiled to a derived table.
-/

namespace RelSql.Block

/-- Puts a table into the FROM clause, compiling it when it is not physical. -/
def leaf (compile : NodeId → Analysis Query) (b : Block) (node : NodeId) : Analysis Block := do
  let g ← get
  let body := g.body node
  match g.node body with
  | .table t => if t.name.isNone then Analysis.fail .unnamedTable else return b
  | other =>
    if !other.isRelation then Analysis.fail (.sourceNotATable (g.display body))
    else if (derivedFor? b.nested node).isSome then return b
    else
      let query ← compile body
      return b.nest ⟨node, .table, none, query⟩

/-- An operand of a join without the selections that can be evaluated after the join, and
their predicates. -/
def operand (b : Block) (node : NodeId) (hoist left : Bool) :
    Analysis (Block × NodeId × List NodeId) := do
  let g ← get
  let peeled := g.peel node
  if !hoist || peeled.chain.isEmpty then return (b, node, [])
  else if ← (if g.isProjection peeled.table
      then Analysis.pushable (peeled.chain ++ [peeled.table]) peeled.predicates
      else return false) then
    return (b, node, [])
  else if !left && g.isJoin peeled.table then return (b, node, [])
  else return (b.foldAll peeled.chain, peeled.table, peeled.predicates)

/-- The tables of a left-deep join, to a depth of `n`, and the predicates taken over from
its operands.  Any other table is the only one. -/
def joinedTables (compile : NodeId → Analysis Query) :
    Nat → Block → NodeId → Analysis (Block × TableSet × List NodeId)
  | 0, _, _ => Analysis.fail .nestingTooDeep
  | n + 1, b, node => do
    match (← get).node node with
    | .join kind l r predicates =>
      let b := b.fold node
      let (b, l, hoisted) ← b.operand l (kind.preservesFilters true) true
      let (b, tables, inner) ← joinedTables compile n b l
      let (b, r, filters) ← b.operand r (kind.preservesFilters false) false
      let b ← b.leaf compile r
      let clause : JoinClause := ⟨if predicates = [] then .cross else kind, r, predicates⟩
      return (b, { tables with joins := tables.joins ++ [clause] }, inner ++ hoisted ++ filters)
    | _ =>
      let b ← b.leaf compile node
      return (b, .leaf node, [])

/-- Sets the FROM clause to the tables of a join, or to one table, and gives the predicates
taken over. -/
def fromTables (compile : NodeId → Analysis Query) (b : Block) (node : NodeId) :
    Analysis (Block × List NodeId) := do
  let (b, tables, hoisted) ← joinedTables compile (node.index + 1) b node
  return ({ b with clauses := { b.clauses with from? := some tables } }, hoisted)

/-- Sets the FROM clause to a table, and gives the predicates taken over.  Selections that
can be evaluated below a projection stay with it. -/
def fromSource (compile : NodeId → Analysis Query) (b : Block) (node : NodeId) :
    Analysis (Block × List NodeId) := do
  let g ← get
  let peeled := g.peel node
  if peeled.chain.isEmpty then b.fromTables compile node
  else if ← (if g.isProjection peeled.table
      then Analysis.pushable (peeled.chain ++ [peeled.table]) peeled.predicates
      else return false) then
    let b ← b.leaf compile node
    return ({ b with clauses := { b.clauses with from? := some (.leaf node) } }, [])
  else
    let (b, filters) ← (b.foldAll peeled.chain).fromTables compile peeled.table
    return (b, filters ++ peeled.predicates)

end RelSql.Block
