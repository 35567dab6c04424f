import RelSql.Graph.Reading
import RelSql.Graph.Typing

/-!
# Lifting

Once several operators are folded into one block, the values of the block still refer to
the tables in between.  Lifting replaces the columns of a value by columns of the tables
of the FROM clause: a column of a selection, a sort, a limit or a distinct becomes one of
its input, a column of a join one of the side that has the field, and a column of a
projection or an aggregation is replaced by its definition.

The graph only grows, and a value none of whose columns is replaced keeps its handle.
-/

namespace RelSql

/-- How far lifting goes. -/
inductive LiftMode where
  /-- Down to the tables that are not folded. -/
  | substitute
  /-- As before, but columns of outputs of the block stay. -/
  | output
  /-- Through projections only. -/
  | projections
  deriving DecidableEq, Repr

/-- The operators folded into a block. -/
structure Folding where
  fused : List NodeId
  /-- The tables that the block outputs. -/
  outputs : List NodeId
  /-- The join that stands for every folded join. -/
  join : Option NodeId
  deriving DecidableEq, Repr

namespace Folding

/-- Nothing is folded. -/
def empty : Folding := ⟨[], [], none⟩

/-- The folding of some operators. -/
def of (fused : List NodeId) : Folding := ⟨fused, [], none⟩

/-- Whether a table is folded. -/
def contains (s : Folding) (table : NodeId) : Bool :=
  s.fused.contains table

/-- The table whose columns are all the columns of a table. -/
def star (s : Folding) (g : Graph) : NodeId → NodeId :=
  NodeId.recurse (fun id => id) fun below id =>
    if !s.contains id then id
    else
      match g.node id with
      | .selection t _ | .sort t _ | .limit t _ _ | .distinct t => below t
      | .join _ _ _ _ => s.join.getD id
      | _ => id

end Folding

/-- A graph, and the values that have been lifted with what they have become. -/
structure LiftState where
  graph : Graph
  memo : List (NodeId × NodeId)

/-- A computation that lifts values, and lifts no value twice. -/
abbrev LiftM := StateM LiftState

namespace Lift

/-- Adds a node to the graph. -/
def push (n : Node) : LiftM NodeId :=
  modifyGet fun s => let (id, g) := s.graph.push n; (id, { s with graph := g })

/-- Keeps what a value has become. -/
def remember (id lifted : NodeId) : LiftM Unit :=
  modify fun s => { s with memo := (id, lifted) :: s.memo }

/-- The item of a projection that provides a name, first those before it being tried. -/
def provider? (g : Graph) (selections : List NodeId) (name : String) : Option NodeId :=
  selections.find? (g.provides name)

/-- The value that an aggregation gives a name. -/
def namedItem? (g : Graph) (items : List NodeId) (name : String) : Option NodeId :=
  items.find? fun item => g.name? item == some name

mutual

/-- Lifts a value, to a depth of `n`. -/
def valueWithin (s : Folding) (mode : LiftMode) : Nat → NodeId → LiftM NodeId
  | 0, id => return id
  | n + 1, id => do
    let state ← get
    match state.memo.lookup id with
    | some lifted => return lifted
    | none =>
      let node := state.graph.node id
      let lifted ← match node with
        | .column t name => columnWithin s mode n (some id) t name
        | .countStar _ => pure id
        | _ =>
          if node.isRelation then pure id
          else do
            let rebuilt ← node.mapChildrenM (valueWithin s mode n)
            if rebuilt.children = node.children then pure id else push rebuilt
      remember id lifted
      return lifted

/-- Lifts the column of a table, to a depth of `n`.  A column that stays is the node
`kept`, or a new one if there is none. -/
def columnWithin (s : Folding) (mode : LiftMode) :
    Nat → Option NodeId → NodeId → String → LiftM NodeId
  | 0, kept, table, name =>
    match kept with
    | some id => return id
    | none => push (.column table name)
  | n + 1, kept, table, name => do
    let keep : LiftM NodeId := match kept with
      | some id => return id
      | none => push (.column table name)
    let g := (← get).graph
    if !s.contains table || (mode = .output && s.outputs.contains table) then keep
    else
      match g.node table with
      | .projection _ selections =>
        match provider? g selections name with
        | some item =>
          if g.isRelation item then columnWithin s mode n none item name
          else valueWithin s mode n (g.unaliased item)
        | none => keep
      | node =>
        if mode = .projections then keep
        else
          match node with
          | .selection t _ | .sort t _ | .limit t _ _ | .distinct t =>
            columnWithin s mode n none t name
          | .join _ l r _ =>
            columnWithin s mode n none (if g.hasField l name then l else r) name
          | .aggregation _ keys metrics _ =>
            match namedItem? g (keys ++ metrics) name with
            | some item => valueWithin s mode n (g.unaliased item)
            | none => keep
          | _ => keep

end

/-- Lifts a value. -/
def value (s : Folding) (mode : LiftMode) (id : NodeId) : LiftM NodeId :=
  valueWithin s mode (id.index + 1) id

/-- Lifts a value, which keeps the name it is given. -/
def named (s : Folding) (mode : LiftMode) (item : NodeId) : LiftM NodeId := do
  let inner := (← get).graph.unaliased item
  let lifted ← value s mode inner
  if lifted = inner then return item
  else
    let g := (← get).graph
    match g.name? item with
    | none => return lifted
    | some name =>
      match g.node lifted with
      | .column _ n => if n = name then return lifted else push (.named lifted name)
      | _ => push (.named lifted name)

/-- Runs a computation before which nothing has been lifted. -/
def run {α : Type} (m : LiftM α) (g : Graph) : α × Graph :=
  let (a, s) := Id.run (StateT.run m ⟨g, []⟩)
  (a, s.graph)

/-- Whether a column is not folded, or lifts to a column of its name. -/
def isUnchanged (s : Folding) (column : NodeId) : LiftM Bool := do
  match (← get).graph.node column with
  | .column t name =>
    if !s.contains t then return true
    else
      let lifted ← value s .substitute column
      match (← get).graph.node lifted with
      | .column _ n => return n = name
      | _ => return false
  | _ => return true

/-- Whether all columns are unchanged, up to the first one that is not. -/
def allUnchanged (s : Folding) : List NodeId → LiftM Bool
  | [] => return true
  | c :: rest => do
    if ← isUnchanged s c then allUnchanged s rest else return false

/-- Whether the predicates read what is folded through unchanged columns only. -/
def pushableM (s : Folding) : List NodeId → LiftM Bool
  | [] => return true
  | p :: rest => do
    if ← allUnchanged s ((← get).graph.columns p) then pushableM s rest else return false

/-- Whether the predicates can be evaluated on the input of what is folded. -/
def pushable (s : Folding) (predicates : List NodeId) (g : Graph) : Bool × Graph :=
  run (pushableM s predicates) g

end Lift

end RelSql
