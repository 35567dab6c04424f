import Mathlib.Data.List.Sort
import RelSql.Graph.Typing
import RelSql.Proofs.Graph.Reading
import RelSql.Statement.Analysis

/-!
# Rows of tables and of queries

A table of the graph is evaluated operator by operator.  An interpretation says what literals,
operators and aggregates mean, and a database has the rows of the physical tables.

A block is evaluated clause by clause over the rows of the table of its FROM clause, which is a
physical table, a derived one or a common table expression.
-/

namespace RelSql

/-- A row: its values with the names of their columns. -/
abbrev Row (V : Type) := List (String × V)

/-- The rows of the physical tables, which have a value for every name. -/
abbrev Database (V : Type) := Table → List (String → V)

/-- The rows of a physical table. -/
def Database.rows {V : Type} (db : Database V) (t : Table) : List (Row V) :=
  (db t).map fun value => t.schema.fields.map fun f => (f.name, value f.name)

/-- What operators, aggregates and row counts mean among the values `V`, which values of a
predicate keep a row, and the order of values. -/
structure Interpretation (V : Type) where
  null : V
  operator : Node → List V → V
  aggregate : Aggregate → List V → V
  count : Nat → V
  holds : V → Bool
  le : V → V → Bool
  le_total : ∀ v w, le v w = true ∨ le w v = true
  le_trans : ∀ u v w, le u v = true → le v w = true → le u w = true

/-- What a value is evaluated in: the rows of a group, one of them, and the row that is made
of the group. -/
structure Context (V : Type) where
  group : List (Row V)
  row : Row V
  output : Row V

namespace Context

variable {V : Type}

/-- A row by itself. -/
def ofRow (r : Row V) : Context V := ⟨[r], r, []⟩

/-- The first row of a group stands for the group. -/
def ofGroup (rows : List (Row V)) : Context V := ⟨rows, rows.headD [], []⟩

/-- The same rows, of which a row is made. -/
def withOutput (x : Context V) (r : Row V) : Context V := { x with output := r }

end Context

namespace Interpretation

variable {V : Type} (I : Interpretation V)

/-- The first value of a name in a row. -/
def get (r : Row V) (name : String) : V := (r.lookup name).getD I.null

/-- The meaning of values when `column` says what columns mean. -/
def algebra (column : NodeId → String → Context V → V) : Algebra (Context V → V) where
  column := column
  count _ := fun c => I.count c.group.length
  table _ := fun _ => I.null
  operator n operands := match n with
    | .named _ _ => fun c => (operands.map fun f => f c).headD I.null
    | .reduction a _ => fun c =>
      I.aggregate a (c.group.map fun r =>
        (operands.map fun f => f { c with row := r }).headD I.null)
    | n => fun c => I.operator n (operands.map fun f => f c)

/-- The meaning of the values of an operator, which read the row of its input. -/
def values : Algebra (Context V → V) :=
  I.algebra fun _ name c => I.get c.row name

/-- Whether all predicates hold. -/
def keeps (A : Algebra (Context V → V)) (g : Graph) (predicates : List NodeId)
    (c : Context V) : Bool :=
  predicates.all fun p => I.holds (g.denote A p c)

/-- Whether something comes before something else or with it, by the values of sort keys. -/
def precedes {α : Type} (value : NodeId → α → V) : List SortKey → α → α → Bool
  | [], _, _ => true
  | k :: rest, a, b =>
    let x := value k.expr a
    let y := value k.expr b
    if k.ascending then I.le x y && (!I.le y x || precedes value rest a b)
    else I.le y x && (!I.le x y || precedes value rest a b)

/-- Sorts by the values of sort keys; what has equal values keeps its order. -/
def sorted {α : Type} (value : NodeId → α → V) (keys : List SortKey) (l : List α) : List α :=
  l.insertionSort fun a b => I.precedes value keys a b = true

end Interpretation

/-- The groups of rows with equal keys, in the order of their first rows; all rows are one group
if there are no keys. -/
def grouped {V : Type} [DecidableEq V] (keys : List NodeId) (key : Row V → Row V)
    (rows : List (Row V)) : List (List (Row V)) :=
  if keys = [] then [rows]
  else (rows.map key).eraseDups.map fun k => rows.filter fun r => key r = k

namespace Graph

variable {V : Type}

/-- What an item contributes to a row: the whole row of the input, or a named value. -/
def itemRow (g : Graph) (A : Algebra (Context V → V)) (c : Context V) (id : NodeId) : Row V :=
  if g.isRelation id then c.row
  else [((g.name? id).getD defaultName, g.denote A id c)]

/-- The row of several items. -/
def itemsRow (g : Graph) (A : Algebra (Context V → V)) (ids : List NodeId) (c : Context V) :
    Row V :=
  ids.flatMap (g.itemRow A c)

variable [DecidableEq V]

/-- The rows of a table from those of its input. -/
def rowsStep (I : Interpretation V) (db : Database V) (g : Graph)
    (below : NodeId → List (Row V)) (id : NodeId) : List (Row V) :=
  let value (v : NodeId) (r : Row V) := g.denote I.values v (.ofRow r)
  match g.node id with
  | .table t => db.rows t
  | .view t => below t
  | .selection t predicates => (below t).filter fun r => I.keeps I.values g predicates (.ofRow r)
  | .projection t selections => (below t).map fun r => g.itemsRow I.values selections (.ofRow r)
  | .aggregation t keys metrics having =>
    let groups := grouped keys (fun r => g.itemsRow I.values keys (.ofRow r)) (below t)
    ((groups.map Context.ofGroup).filter (I.keeps I.values g having)).map
      (g.itemsRow I.values (keys ++ metrics))
  | .sort t keys => I.sorted value keys (below t)
  | .limit t n offset => ((below t).drop offset).take n
  | .distinct t => (below t).eraseDups
  | _ => []

/-- The rows of a table made of physical tables by views, selections, projections, aggregations,
sorts, limits and distincts. -/
def rows (I : Interpretation V) (db : Database V) (g : Graph) : NodeId → List (Row V) :=
  NodeId.recurse (fun _ => []) (g.rowsStep I db)

end Graph

end RelSql

namespace RelSql

/-! ### Blocks and queries -/

variable {V : Type} [DecidableEq V]

namespace Clauses

/-- What a column means in a block over a single table: a value of the row that the block
outputs, or of the row of the table. -/
def column (I : Interpretation V) (c : Clauses) (t : NodeId) (name : String) (x : Context V) :
    V :=
  if c.outputs.contains t then I.get x.output name else I.get x.row name

/-- Whether the block makes one row of many. -/
def aggregates (c : Clauses) (g : Graph) : Bool :=
  c.groupBy ≠ [] || c.having ≠ [] || c.select.any g.hasReduction

/-- What the rows of a block over a table with the given rows are made of: rows of the table, or
groups of them. -/
def contexts (I : Interpretation V) (g : Graph) (c : Clauses) (source : List (Row V)) :
    List (Context V) :=
  let A := I.algebra (c.column I)
  let filtered := source.filter fun r => I.keeps A g c.predicates (.ofRow r)
  let keys := c.groupBy.filterMap fun i => c.select[i]?
  let contexts :=
    if c.aggregates g then
      (grouped keys (fun r => g.itemsRow A keys (.ofRow r)) filtered).map Context.ofGroup
    else filtered.map Context.ofRow
  contexts.filter (I.keeps A g c.having)

/-- The rows that a block selects, in order. -/
def selected (I : Interpretation V) (g : Graph) (c : Clauses) (source : List (Row V)) :
    List (Row V) :=
  let A := I.algebra (c.column I)
  let outputs := (c.contexts I g source).map fun x => x.withOutput (g.itemsRow A c.select x)
  (I.sorted (g.denote A) c.orderBy outputs).map Context.output

/-- What a block outputs of the rows that it selects. -/
def finish (c : Clauses) (selected : List (Row V)) : List (Row V) :=
  let outputs := if c.distinct then selected.eraseDups else selected
  match c.limit with
  | some l => (outputs.drop l.offset).take l.n
  | none => outputs

/-- The rows of a block over a table with the given rows. -/
def evaluate (I : Interpretation V) (g : Graph) (c : Clauses) (source : List (Row V)) :
    List (Row V) :=
  c.finish (c.selected I g source)

end Clauses

/-- The rows of the table of a FROM clause. -/
def sourceRows? (db : Database V) (g : Graph)
    (shared : List (Option (List (Row V)))) (nested : List (Nested (Option (List (Row V)))))
    (leaf : NodeId) : Option (List (Row V)) :=
  match derivedFor? nested leaf with
  | some s =>
    match s.shared with
    | some i => shared[i]?.join
    | none => s.query
  | none =>
    match g.node (g.body leaf) with
    | .table t => some (db.rows t)
    | _ => none

/-- The rows of a query over single tables and without subqueries, given those of the common
table expressions. -/
def Query.rows? (I : Interpretation V) (db : Database V) (g : Graph)
    (shared : List (Option (List (Row V)))) : Query → Option (List (Row V)) :=
  Query.fold
    (fun c nested =>
      match c.from? with
      | some ⟨_, leaf, []⟩ =>
        if nested.all fun s => s.kind = .table then
          (sourceRows? db g shared nested leaf).map (c.evaluate I g)
        else none
      | _ => none)
    (fun l r distinct => do
      let rows := (← l) ++ (← r)
      return if distinct then rows.eraseDups else rows)

/-- The rows of a statement; a common table expression is evaluated before those after it. -/
def Statement.rows? (I : Interpretation V) (db : Database V) (st : Statement) :
    Option (List (Row V)) :=
  let shared := st.shared.foldl
    (fun shared t => shared ++ [t.query.rows? I db st.graph shared]) []
  st.query.rows? I db st.graph shared

end RelSql
