import RelSql.Block.Core
import RelSql.Block.Ranking
import RelSql.Block.Subquery

/-!
# Assembled blocks

Once its operators are folded, a block is completed: its joins are put together, its
rankings are joined, its values are lifted to the tables of the FROM clause, and the
subqueries of its WHERE clause are extracted.
-/

namespace RelSql.Block

/-- Lifts the predicates of join clauses and joins their tables to `node`.  The predicates
read the tables of the FROM clause only. -/
def joinClauses (folding : Folding) (leaves : List NodeId) :
    List JoinClause → NodeId → LiftState →
      Except Analysis.Failure (List JoinClause × NodeId × LiftState)
  | [], node, s => .ok ([], node, s)
  | c :: rest, node, s => do
    let (predicates, s) := Id.run ((c.predicates.mapM (Lift.value folding .substitute)).run s)
    match predicates.find? fun p => (s.graph.tables p).any fun t => !leaves.contains t with
    | some p => .error ⟨.foreignJoinPredicate (s.graph.display p), s.graph⟩
    | none =>
      let (node, g) := s.graph.push (.join c.kind node c.table predicates)
      let (clauses, node, s) ← joinClauses folding leaves rest node { s with graph := g }
      return ({ c with predicates } :: clauses, node, s)

/-- Puts the joins of the FROM clause together. -/
def rebuildJoins (b : Block) : Analysis Block := fun g =>
  match b.clauses.from? with
  | none => .ok (b, g)
  | some t => do
    let (joins, node, s) ← joinClauses b.folding t.leaves t.joins t.first ⟨g, []⟩
    let join := if joins = [] then b.folding.join else some node
    .ok ({ b with
      folding := { b.folding with join }
      clauses := { b.clauses with from? := some { t with node, joins } } }, s.graph)

/-- Whether a predicate is a ranking. -/
def isRanking (g : Graph) (id : NodeId) : Bool :=
  match g.node id with
  | .topK _ _ _ => true
  | _ => false

/-- Replaces the rankings of the WHERE clause by joins. -/
def joinRankings (compile : NodeId → Analysis Query) (b : Block) : Analysis Block := do
  let g ← get
  let (rankings, predicates) := b.clauses.predicates.partition (isRanking g)
  rankings.foldlM (rank compile) { b with clauses := { b.clauses with predicates } }

/-- Lifts an item of the select list. -/
def liftItem (folding : Folding) (item : NodeId) : LiftM NodeId := do
  let g := (← get).graph
  if g.isRelation item then return folding.star g item
  else Lift.named folding .substitute item

/-- Lifts the values of the block, apart from those it is ordered by. -/
def liftValues (b : Block) : LiftM Block := do
  let select ← b.clauses.select.mapM (liftItem b.folding)
  let predicates ← b.clauses.predicates.mapM (Lift.value b.folding .substitute)
  let having ← b.clauses.having.mapM (Lift.value b.folding .substitute)
  return { b with clauses := { b.clauses with select, predicates, having } }

/-- Lifts the values the block is ordered by, down to its outputs. -/
def liftOrder (b : Block) : LiftM Block := do
  let orderBy ← b.clauses.orderBy.mapM fun k => do
    return { k with expr := ← Lift.value b.folding .output k.expr }
  return { b with clauses := { b.clauses with orderBy } }

/-- Qualifies the columns of an aggregation that filters a single derived table. -/
def qualifyFiltered (b : Block) : Block :=
  match b.clauses.from? with
  | some t =>
    if b.aggregate && b.clauses.predicates ≠ [] && t.joins = []
        && (derivedFor? b.nested t.first).isSome then
      { b with clauses := { b.clauses with forceAliases := true } }
    else b
  | none => b

/-- Completes a block, compiling tables inside the blocks of `enclosing`. -/
def complete (compile : List (List NodeId) → NodeId → Analysis Query)
    (enclosing : List (List NodeId)) (b : Block) : Analysis Block := do
  let b ← b.rebuildJoins
  let b ← b.joinRankings (compile enclosing)
  let b ← Analysis.lifted b.liftValues
  let b ← Analysis.lifted b.liftOrder
  let b ← b.extractSubqueries compile enclosing
  return b.qualifyFiltered

/-- The block of a table, compiling tables inside the blocks of `enclosing`. -/
def ofTable (compile : List (List NodeId) → NodeId → Analysis Query)
    (enclosing : List (List NodeId)) (node : NodeId) : Analysis Block := do
  let (b, table) ← (Block.ofNode node).foldLimits node
  let (b, table) ← b.foldTopSorts table
  let (b, table) ← b.foldDistinct table
  let b ← b.core (compile enclosing) table
  b.complete compile enclosing

/-- The query of a block. -/
def query (b : Block) : Query :=
  .select b.clauses b.nested

end RelSql.Block
