import RelSql.Graph.Basic
import RelSql.Traversal

/-!
# What values read

The columns and tables that a value reads and the reductions it holds, found by traversals
that do not look below columns, row counts and tables.
-/

namespace RelSql.Graph

/-- The children of a value, none for what reads a table. -/
def valueChildren (g : Graph) (id : NodeId) : List NodeId :=
  let n := g.node id
  match n with
  | .column _ _ | .countStar _ => []
  | _ => if n.isRelation then [] else n.children

/-- The number of steps that a traversal of the graph takes at most. -/
def stepBound (g : Graph) : Nat := 1 + g.extent

/-- The output of a visitor at a node, or `default` when the node depends on itself. -/
def traverse {β : Type} (g : Graph) (v : Visitor NodeId β) (default : β) (id : NodeId) : β :=
  (v.accept? g.stepBound id).getD default

/-- The nodes that a node refers to, directly or not, each after its children. -/
def reachable (g : Graph) (id : NodeId) : List NodeId :=
  let v : Visitor NodeId Unit := ⟨fun n => (g.node n).children, fun _ _ => ()⟩
  (v.outputs g.stepBound id).map Prod.fst

/-- Finds the reductions. -/
def reductionVisitor (g : Graph) : Visitor NodeId Bool where
  dependencies := g.valueChildren
  visit n visited := (g.node n).isReduction || visited.any Prod.snd

/-- Whether a value holds a reduction. -/
def hasReduction (g : Graph) (id : NodeId) : Bool :=
  g.traverse g.reductionVisitor false id

/-- Finds the columns outside of reductions. -/
def plainReadVisitor (g : Graph) : Visitor NodeId Bool where
  dependencies n := if (g.node n).isReduction then [] else g.valueChildren n
  visit n visited :=
    match g.node n with
    | .column _ _ => true
    | _ => visited.any Prod.snd

/-- Whether a value reads a column outside of reductions. -/
def readsOutsideReductions (g : Graph) (id : NodeId) : Bool :=
  g.traverse g.plainReadVisitor false id

/-- Collects the columns. -/
def columnVisitor (g : Graph) : Visitor NodeId (List NodeId) where
  dependencies := g.valueChildren
  visit n visited :=
    match g.node n with
    | .column _ _ => [n]
    | _ => (visited.flatMap Prod.snd).eraseDups

/-- The columns a value reads, in the order in which it reads them first. -/
def columns (g : Graph) (id : NodeId) : List NodeId :=
  g.traverse g.columnVisitor [] id

/-- Finds the first table. -/
def tableVisitor (g : Graph) : Visitor NodeId (Option NodeId) where
  dependencies := g.valueChildren
  visit n visited :=
    match g.node n with
    | .column t _ => some t
    | .countStar t => some t
    | _ => visited.findSome? Prod.snd

/-- The table of the first column or row count that a value reads. -/
def baseTable (g : Graph) (id : NodeId) : Option NodeId :=
  g.traverse g.tableVisitor none id

/-- The table of a column. -/
def columnTable? (g : Graph) (id : NodeId) : Option NodeId :=
  match g.node id with
  | .column t _ => some t
  | _ => none

/-- The tables of the columns that a value reads, in the order in which it reads them
first. -/
def tables (g : Graph) (id : NodeId) : List NodeId :=
  ((g.columns id).filterMap g.columnTable?).eraseDups

end RelSql.Graph
