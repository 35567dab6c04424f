import RelSql.Block.Source

/-!
# Rankings

A filter by the values that rank first becomes a semi join with a derived table of these
values: the groups of the ranked column, sorted by the metric and limited.
-/

namespace RelSql.Block

/-- The name of the metric of a ranking. -/
def metricName : String := "__tmp__"

/-- Joins a table to the FROM clause. -/
def semiJoin (b : Block) (table predicate : NodeId) : Analysis Block := do
  match b.clauses.from? with
  | none => Analysis.fail .rankingWithoutSource
  | some t =>
    let node ← Analysis.push (.join .semi t.node table [predicate])
    let joins := t.joins ++ [⟨.semi, table, [predicate]⟩]
    return { b with
      folding := { b.folding with join := some node }
      clauses := { b.clauses with from? := some { t with node, joins } } }

/-- The lifted value that is ranked, and the groups of its values with their metric.  They
are groups of the table the value is read from, if the metric reads the same one, and
otherwise of the whole FROM clause. -/
def ranked (b : Block) (arg metric : NodeId) : Analysis (NodeId × NodeId) := do
  let both (mode : LiftMode) : LiftM (NodeId × NodeId) := do
    return (← Lift.value b.folding mode arg, ← Lift.value b.folding mode metric)
  let (argBelow, metricBelow) ← Analysis.lifted (both .projections)
  let (argLifted, metricLifted) ← Analysis.lifted (both .substitute)
  let g ← get
  match g.tables argBelow with
  | [] => Analysis.fail .rankingWithoutTable
  | table :: _ =>
    if (g.tables metricBelow).head?.getD table = table then
      let metric ← Analysis.push (.named metricBelow metricName)
      return (argLifted, ← Analysis.push (.aggregation table [argBelow] [metric] []))
    else
      match b.clauses.from? with
      | none => Analysis.fail .rankingWithoutSource
      | some t =>
        let metric ← Analysis.push (.named metricLifted metricName)
        return (argLifted, ← Analysis.push (.aggregation t.node [argLifted] [metric] []))

/-- Joins the values that rank first. -/
def rank (compile : NodeId → Analysis Query) (b : Block) (id : NodeId) : Analysis Block := do
  match (← get).node id with
  | .topK arg k metric? =>
    match (← get).node arg with
    | .column _ name =>
      let metric ← match metric? with
        | some m => pure m
        | none => Analysis.push (.reduction .count arg)
      let (argLifted, groups) ← b.ranked arg metric
      let key ← Analysis.build fun g => g.column groups metricName
      let sorted ← Analysis.push (.sort groups [⟨key, false⟩])
      let first ← Analysis.push (.limit sorted k 0)
      let value ← Analysis.build fun g => g.column first name
      let predicate ← Analysis.push (.binary .eq argLifted value)
      let b ← b.leaf compile first
      b.semiJoin first predicate
    | _ => Analysis.fail .rankingOverValue
  | _ => return b

end RelSql.Block
