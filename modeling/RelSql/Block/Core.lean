import RelSql.Block.Fusion
import RelSql.Block.Source

/-!
# The core of a block

Limits, sorts and a distinct at the top of a table are folded into the block first.  Below
them stands a projection, an aggregation or any other table, with selections above it.
-/

namespace RelSql.Block

/-- Selects nodes and filters rows by predicates. -/
def selecting (b : Block) (select predicates : List NodeId) : Block :=
  { b with clauses := { b.clauses with select, predicates } }

/-- Folds limits, of which the outermost one counts. -/
def foldLimits (b : Block) (node : NodeId) : Analysis (Block × NodeId) := do
  let g ← get
  let (limits, table) := g.chain Graph.limitInput? node
  let limit := match limits.head?.map g.node with
    | some (.limit _ n offset) => some ⟨n, offset⟩
    | _ => none
  let b := b.foldAll limits
  return ({ b with clauses := { b.clauses with limit } }, table)

/-- Folds sorts, and orders the block by one of them if it is not ordered yet. -/
def foldSortsBy (choose : Graph → List NodeId → List SortKey) (b : Block) (node : NodeId) :
    Analysis (Block × NodeId) := do
  let g ← get
  let (sorts, table) := g.chain Graph.sortInput? node
  let orderBy := if b.clauses.orderBy = [] then choose g sorts else b.clauses.orderBy
  let b := b.foldAll sorts
  return ({ b with clauses := { b.clauses with orderBy } }, table)

/-- Folds the sorts at the top of a table, of which the outermost one counts. -/
def foldTopSorts : Block → NodeId → Analysis (Block × NodeId) :=
  foldSortsBy fun g sorts => (sorts.head?.map g.sortKeysOf).getD []

/-- Folds the sorts below a projection, of which the outermost one with keys counts. -/
def foldInnerSorts : Block → NodeId → Analysis (Block × NodeId) :=
  foldSortsBy fun g sorts => ((sorts.map g.sortKeysOf).find? (· ≠ [])).getD []

/-- Folds a distinct. -/
def foldDistinct (b : Block) (node : NodeId) : Analysis (Block × NodeId) := do
  match (← get).node node with
  | .distinct t =>
    let b := b.fold node
    return ({ b with clauses := { b.clauses with distinct := true } }, t)
  | _ => return (b, node)

/-- The block of a projection, with the predicates of the selections above it. -/
def projection (compile : NodeId → Analysis Query) (b : Block) (node : NodeId)
    (filters : List NodeId) : Analysis Block := do
  let (b, core) ← fuseAll (node.index + 1) (b.output node) node
  match (← get).node core with
  | .projection input selections =>
    let (b, source) ← b.foldInnerSorts input
    let (b, predicates) ← b.fromSource compile source
    return b.selecting selections (predicates ++ filters)
  | _ => return b

/-- The block of an aggregation, with the predicates of the selections above it. -/
def aggregation (compile : NodeId → Analysis Query) (b : Block) (node : NodeId)
    (filters : List NodeId) : Analysis Block := do
  match (← get).node node with
  | .aggregation input keys metrics having =>
    let b := b.output node
    let (b, predicates) ← b.fromSource compile input
    let b := b.selecting (keys ++ metrics) predicates
    return { b with
      aggregate := true
      clauses := { b.clauses with
        groupBy := List.range keys.length
        having := having ++ filters } }
  | _ => return b

/-- The block of a table, into which it is folded from its selections on. -/
def core (compile : NodeId → Analysis Query) (b : Block) (node : NodeId) :
    Analysis Block := do
  let g ← get
  if !g.isRelation node then Analysis.fail (.notATable (g.display node))
  else
    let peeled := g.peel node
    let table := peeled.table
    let b := b.foldAll peeled.chain
    match g.node table with
    | .aggregation _ _ _ _ => b.aggregation compile table peeled.predicates
    | _ =>
      if ← (if g.isProjection table
          then Analysis.pushable (peeled.chain ++ [table]) peeled.predicates
          else return false) then
        b.projection compile table peeled.predicates
      else
        let (b, filters) ← b.fromTables compile table
        return b.selecting [table] (filters ++ peeled.predicates)

end RelSql.Block
