import RelSql.Graph.Typing

/-!
# Building graphs

Most nodes are simply added to a graph.  The functions here check what they add, and add
nothing when the check fails.
-/

namespace RelSql.Graph

/-- Adds a column of a table, which has to have one field of the name. -/
def column (g : Graph) (table : NodeId) (name : String) :
    Except GraphError (NodeId × Graph) :=
  if !g.isRelation table then .error (.notATable table)
  else do
    let _ ← (← g.schema table).field name
    if g.isAmbiguous table name then .error (.ambiguousReference name table.text)
    else return g.push (.column table name)

/-- Adds a case of one branch at least; without a default, the constant `null` is added as
the default before it. -/
def case (g : Graph) (base : Option NodeId) (whens : List (NodeId × NodeId))
    (default : Option NodeId) : Except GraphError (NodeId × Graph) :=
  if whens = [] then .error .caseWithoutWhen
  else
    match default with
    | some d => .ok (g.push (.case base whens (some d)))
    | none =>
      let (d, g) := g.push (.literal .null)
      .ok (g.push (.case base whens (some d)))

/-- Adds the membership in the values of a column. -/
def isInColumn (g : Graph) (arg column : NodeId) : Except GraphError (NodeId × Graph) :=
  match g.node column with
  | .column _ _ => .ok (g.push (.contains arg (.column column) false))
  | _ => .error (.notAColumn column)

/-- Adds a table of one column at least. -/
def table (g : Graph) (t : Table) : Except GraphError (NodeId × Graph) :=
  if t.schema.fields = [] then .error .tableWithoutColumns
  else .ok (g.push (.table t))

/-- Adds a join; a cross join has no predicates. -/
def join (g : Graph) (kind : JoinKind) (left right : NodeId) (predicates : List NodeId) :
    Except GraphError (NodeId × Graph) :=
  if kind = .cross ∧ predicates ≠ [] then .error .crossJoinWithPredicates
  else .ok (g.push (.join kind left right predicates))

/-- Adds an aggregation with one key or metric at least. -/
def aggregation (g : Graph) (table : NodeId) (keys metrics having : List NodeId) :
    Except GraphError (NodeId × Graph) :=
  if keys = [] ∧ metrics = [] then .error .emptyAggregation
  else .ok (g.push (.aggregation table keys metrics having))

end RelSql.Graph
