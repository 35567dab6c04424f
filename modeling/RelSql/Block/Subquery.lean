import RelSql.Block.Basic

/-!
# Subqueries of a WHERE clause

* A value all of whose columns are under reductions becomes a scalar subquery.
* A test that some row satisfies a predicate becomes an existence test over the tables that
  the predicate reads and that no block around has.
* Membership in a column of another table becomes membership in a subquery.

A subquery that reads tables of a block around it is correlated; both blocks then qualify
their columns.
-/

namespace RelSql.Block

/-- Whether a value reads columns under reductions only. -/
def isScalar (g : Graph) (id : NodeId) : Bool :=
  g.hasReduction id && !g.readsOutsideReductions id

/-- The predicates of which a predicate is the conjunction. -/
def conjuncts (g : Graph) : NodeId → List NodeId :=
  NodeId.recurse (fun id => [id]) fun below id =>
    match g.node id with
    | .binary .and l r => below l ++ below r
    | _ => [id]

/-- The rows of the tables that a predicate reads, and none of `enclosing` has, for which
the predicate holds. -/
def witnesses (enclosing : List (List NodeId)) (predicate : NodeId) : Analysis NodeId := do
  let g ← get
  match (g.tables predicate).filter fun t => !enclosing.any (·.contains t) with
  | [] => Analysis.fail .existsOverNothing
  | first :: rest =>
    let table ← rest.foldlM (fun l r => Analysis.push (.join .cross l r [])) first
    let filtered ← Analysis.push (.selection table (conjuncts (← get) predicate))
    let one ← Analysis.push (.literal (.integer 1))
    Analysis.push (.projection filtered [one])

/-- Compiles a table to a nested query that stands for a value. -/
def nestQuery (compile : NodeId → Analysis Query) (nested : List (Nested Query))
    (node : NodeId) (kind : SubqueryKind) (table : NodeId) :
    Analysis (List (Nested Query)) := do
  let query ← compile table
  return nested ++ [⟨node, kind, none, query⟩]

/-- Extracts the subqueries of a value, to a depth of `n`. -/
def extract (compile : NodeId → Analysis Query) (enclosing : List (List NodeId)) :
    Nat → List (Nested Query) → NodeId → Analysis (List (Nested Query))
  | 0, nested, _ => return nested
  | n + 1, nested, id => do
    if (nestedFor? nested id).isSome then return nested
    else
      let g ← get
      match g.node id with
      | .any predicate =>
        let table ← witnesses enclosing predicate
        nestQuery compile nested id .exists table
      | .contains arg (.column c) _ =>
        match g.node c with
        | .column t _ =>
          let table ← Analysis.push (.projection t [c])
          let nested ← nestQuery compile nested id .membership table
          extract compile enclosing n nested arg
        | _ => Analysis.fail .membershipInValue
      | .contains arg (.list values) _ =>
        (arg :: values).foldlM (extract compile enclosing n) nested
      | .column _ _ | .countStar _ => return nested
      | node =>
        if node.isRelation then return nested
        else if isScalar g id then
          match g.baseTable id with
          | none => Analysis.fail .reductionWithoutTable
          | some t =>
            let value ← Analysis.push (.named id Graph.defaultName)
            let table ← Analysis.push (.aggregation t [] [value] [])
            nestQuery compile nested id .scalar table
        else node.children.foldlM (extract compile enclosing n) nested

/-- The tables a value reads outside of its own subqueries. -/
def outerTables (g : Graph) (nested : List (Nested Query)) : NodeId → List NodeId :=
  NodeId.recurse (fun _ => []) fun below id =>
    if (nestedFor? nested id).isSome then []
    else
      let n := g.node id
      match n with
      | .column t _ => [t]
      | _ => if n.isRelation then [] else n.children.flatMap below

/-- Whether a block reads tables that are not its own. -/
def isCorrelated (g : Graph) : Query → Bool
  | .union _ _ _ => false
  | .select c nested =>
    let values := (c.select ++ c.predicates ++ c.having).filter fun id => !g.isRelation id
    (values.flatMap (outerTables g nested)).any fun t =>
      !c.leaves.contains t && !c.outputs.contains t

/-- Has the columns of a block qualified. -/
def forceAliases : Query → Query
  | .select c nested => .select { c with forceAliases := true } nested
  | q => q

/-- Whether a nested query is a correlated subquery. -/
def isCorrelatedSubquery (g : Graph) (s : Nested Query) : Bool :=
  s.kind ≠ .table && isCorrelated g s.query

/-- Qualifies the columns of a block and of its correlated subqueries, if it has any. -/
def qualifyCorrelated (g : Graph) (b : Block) : Block :=
  if b.nested.any (isCorrelatedSubquery g) then
    { b with
      clauses := { b.clauses with forceAliases := true }
      nested := b.nested.map fun s =>
        if isCorrelatedSubquery g s then s.map forceAliases else s }
  else b

/-- Extracts the subqueries of the WHERE clause, for which `compile` compiles tables inside
the given blocks. -/
def extractSubqueries (compile : List (List NodeId) → NodeId → Analysis Query)
    (enclosing : List (List NodeId)) (b : Block) : Analysis Block := do
  if b.clauses.predicates = [] then return b
  else
    let inside := enclosing ++ [b.clauses.leaves]
    let visit (nested : List (Nested Query)) (p : NodeId) :=
      extract (compile inside) inside (p.index + 1) nested p
    let nested ← b.clauses.predicates.foldlM visit b.nested
    return qualifyCorrelated (← get) { b with nested }

end RelSql.Block
