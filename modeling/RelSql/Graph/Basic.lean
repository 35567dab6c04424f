import RelSql.Graph.Node

/-!
# Expression graphs

A graph is a sequence of nodes that only grows.  In a well-founded graph the children of
every node come before it, so what a node denotes may be defined by recursion on handles;
`NodeId.recurse_eq` unfolds such a definition.
-/

namespace RelSql

/-- The value of a handle among the values of the handles below `n`, which are listed from
the last one down. -/
def NodeId.valueIn {α : Type} (bottom : NodeId → α) (n : Nat) (known : List (Thunk α))
    (id : NodeId) : α :=
  if id.index < n then
    match known[n - (id.index + 1)]? with
    | some value => value.get
    | none => bottom id
  else bottom id

/-- The values that `step` defines on the handles below `n`, from the last one down.  A value
is computed when it is first asked for, and kept. -/
def NodeId.valuesBelow {α : Type} (bottom : NodeId → α)
    (step : (NodeId → α) → NodeId → α) : Nat → List (Thunk α)
  | 0 => []
  | n + 1 =>
    let known := valuesBelow bottom step n
    Thunk.mk (fun _ => step (valueIn bottom n known) ⟨n⟩) :: known

/-- The function that `step` defines on a handle from its values on smaller handles; it is
`bottom` on the others.  Handles share their children, so no value is computed twice. -/
def NodeId.recurse {α : Type} (bottom : NodeId → α) (step : (NodeId → α) → NodeId → α)
    (id : NodeId) : α :=
  step (valueIn bottom id.index (valuesBelow bottom step id.index)) id

/-- A step is local when it only consults smaller handles. -/
def NodeId.LocalStep {α : Type} (step : (NodeId → α) → NodeId → α) : Prop :=
  ∀ (f f' : NodeId → α) (id : NodeId),
    (∀ c : NodeId, c.index < id.index → f c = f' c) → step f id = step f' id

/-- The values on the handles below `n` are those of the recursion. -/
theorem NodeId.valueIn_valuesBelow {α : Type} (bottom : NodeId → α)
    (step : (NodeId → α) → NodeId → α) (n : Nat) (id : NodeId) (h : id.index < n) :
  valueIn bottom n (valuesBelow bottom step n) id = recurse bottom step id
  := by
  induction n with
  | zero => omega
  | succ n ih =>
    by_cases hn : id.index < n
    · have hi : n + 1 - (id.index + 1) = n - (id.index + 1) + 1 := by omega
      rw [← ih hn, valueIn, valueIn, if_pos h, if_pos hn, hi, valuesBelow,
        List.getElem?_cons_succ]
    · have hi : id.index = n := by omega
      subst hi
      rw [valueIn, if_pos h, Nat.sub_self, valuesBelow, List.getElem?_cons_zero]
      rfl

/-- The function that a local step defines satisfies the step's equation. -/
theorem NodeId.recurse_eq {α : Type} {bottom : NodeId → α}
    {step : (NodeId → α) → NodeId → α} (h : LocalStep step) (id : NodeId) :
  recurse bottom step id = step (recurse bottom step) id
  := by
  apply h
  intro c hc
  apply valueIn_valuesBelow
  exact hc

/-- A sequence of nodes. -/
structure Graph where
  nodes : Array Node
  deriving DecidableEq, Repr

namespace Graph

/-- The graph without nodes. -/
def empty : Graph := ⟨#[]⟩

/-- The number of nodes. -/
def size (g : Graph) : Nat := g.nodes.size

/-- The node of a handle. -/
def node? (g : Graph) (id : NodeId) : Option Node := g.nodes[id.index]?

/-- The node of a handle, the constant `null` when the graph has no such node. -/
def node (g : Graph) (id : NodeId) : Node := (g.node? id).getD (.literal .null)

/-- Adds a node, and gives its handle. -/
def push (g : Graph) (n : Node) : NodeId × Graph :=
  (⟨g.size⟩, ⟨g.nodes.push n⟩)

/-- Every child of a node comes before the node. -/
def WellFounded (g : Graph) : Prop :=
  ∀ (id : NodeId) (n : Node), g.node? id = some n →
    ∀ c ∈ n.children, c.index < id.index

/-- The number of nodes and of their references to children. -/
def extent (g : Graph) : Nat :=
  g.nodes.toList.foldr (fun n total => 1 + n.children.length + total) 0

/-- Whether a handle denotes a table. -/
def isRelation (g : Graph) (id : NodeId) : Bool :=
  (g.node id).isRelation

/-- The name a value is given, by an alias or as a column. -/
def name? (g : Graph) (id : NodeId) : Option String :=
  match g.node id with
  | .named _ name => some name
  | .column _ name => some name
  | _ => none

/-- A value without its aliases. -/
def unaliased (g : Graph) : NodeId → NodeId :=
  NodeId.recurse (fun id => id) fun below id =>
    match g.node id with
    | .named arg _ => below arg
    | _ => id

/-- The nodes from `id` on of which each has a next one, and the node where they end. -/
def chain (g : Graph) (next? : Node → Option NodeId) : NodeId → List NodeId × NodeId :=
  NodeId.recurse (fun id => ([], id)) fun below id =>
    match next? (g.node id) with
    | some t => let (rest, last) := below t; (id :: rest, last)
    | none => ([], id)

end Graph

end RelSql
