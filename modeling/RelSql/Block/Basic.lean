import RelSql.Graph.Build
import RelSql.Graph.Display
import RelSql.Lift
import RelSql.Statement.Basic

/-!
# Blocks

A block is a SELECT under construction: its clauses, its nested queries, and the operators
that are folded into it.  An analysis builds blocks over a graph to which it adds nodes.
-/

namespace RelSql

/-- The error of an analysis that fails, and the graph it has led to. -/
structure Analysis.Failure where
  error : CompileError
  graph : Graph

/-- A computation over a graph that grows, or that fails. -/
abbrev Analysis := StateT Graph (Except Analysis.Failure)

namespace Analysis

/-- Fails, and leaves the graph as it is. -/
def fail {α : Type} (e : CompileError) : Analysis α := fun g => .error ⟨e, g⟩

/-- Adds a node to the graph. -/
def push (n : Node) : Analysis NodeId :=
  modifyGet fun g => g.push n

/-- Adds what a constructor of the graph checks. -/
def build (f : Graph → Except GraphError (NodeId × Graph)) : Analysis NodeId := fun g =>
  match f g with
  | .ok result => .ok result
  | .error e => .error ⟨.graph e, g⟩

/-- Lifts values, each shared one once. -/
def lifted {α : Type} (m : LiftM α) : Analysis α :=
  modifyGet fun g => Lift.run m g

/-- Whether the predicates can be evaluated on the input of the folded operators. -/
def pushable (fused predicates : List NodeId) : Analysis Bool :=
  modifyGet fun g => Lift.pushable (.of fused) predicates g

end Analysis

/-- A block under construction. -/
structure Block where
  clauses : Clauses
  nested : List (Nested Query)
  folding : Folding
  aggregate : Bool

namespace Block

/-- The block over a node, into which nothing is folded. -/
def ofNode (node : NodeId) : Block :=
  ⟨.ofNode node, [], .empty, false⟩

/-- Folds an operator into the block. -/
def fold (b : Block) (node : NodeId) : Block :=
  { b with folding := { b.folding with fused := b.folding.fused ++ [node] } }

/-- Folds operators into the block. -/
def foldAll (b : Block) (nodes : List NodeId) : Block :=
  { b with folding := { b.folding with fused := b.folding.fused ++ nodes } }

/-- Folds an operator into the block that the block outputs. -/
def output (b : Block) (node : NodeId) : Block :=
  { b with
    folding := { b.folding with
      fused := b.folding.fused ++ [node]
      outputs := b.folding.outputs ++ [node] }
    clauses := { b.clauses with outputs := b.clauses.outputs ++ [node] } }

/-- Adds a nested query. -/
def nest (b : Block) (s : Nested Query) : Block :=
  { b with nested := b.nested ++ [s] }

end Block

namespace Graph

/-- The input of a selection. -/
def selectionInput? : Node → Option NodeId
  | .selection t _ => some t
  | _ => none

/-- The input of a sort. -/
def sortInput? : Node → Option NodeId
  | .sort t _ => some t
  | _ => none

/-- The input of a limit. -/
def limitInput? : Node → Option NodeId
  | .limit t _ _ => some t
  | _ => none

/-- The predicates of a selection. -/
def predicatesOf (g : Graph) (id : NodeId) : List NodeId :=
  match g.node id with
  | .selection _ predicates => predicates
  | _ => []

/-- The keys of a sort. -/
def sortKeysOf (g : Graph) (id : NodeId) : List SortKey :=
  match g.node id with
  | .sort _ keys => keys
  | _ => []

/-- Whether a node is a projection. -/
def isProjection (g : Graph) (id : NodeId) : Bool :=
  match g.node id with
  | .projection _ _ => true
  | _ => false

/-- Whether a node is a join. -/
def isJoin (g : Graph) (id : NodeId) : Bool :=
  match g.node id with
  | .join _ _ _ _ => true
  | _ => false

/-- The node that a view is a view of, and any other node itself. -/
def body (g : Graph) (id : NodeId) : NodeId :=
  match g.node id with
  | .view t => t
  | _ => id

end Graph

/-- A table, and the selections above it with their predicates, the innermost first. -/
structure Peeled where
  table : NodeId
  chain : List NodeId
  predicates : List NodeId

/-- Takes the selections off a table. -/
def Graph.peel (g : Graph) (id : NodeId) : Peeled :=
  let (chain, table) := g.chain Graph.selectionInput? id
  ⟨table, chain, chain.reverse.flatMap g.predicatesOf⟩

end RelSql
