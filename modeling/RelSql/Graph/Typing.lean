import RelSql.Graph.Basic

/-!
# Typing

The schema of a table and the type of a value are defined together: the fields of a
projection or an aggregation have the types of its values, and a column has the type of
its field.
-/

namespace RelSql

/-- The schema and the type of a node, of which it has one at most. -/
structure Typing where
  schema : Except GraphError Schema
  dataType : Except GraphError DataType

namespace Graph

/-- The name of a value that is given none. -/
def defaultName : String := "tmp"

/-- The field of a value in the schema of a table that has it. -/
def outputField (g : Graph) (typing : NodeId → Typing) (value : NodeId) :
    Except GraphError Field := do
  return ⟨(g.name? value).getD defaultName, ← (typing value).dataType⟩

/-- The fields of an item of a projection: those of a table, or the one of a value. -/
def itemFields (g : Graph) (typing : NodeId → Typing) (item : NodeId) :
    Except GraphError (List Field) := do
  if g.isRelation item then return (← (typing item).schema).fields
  else return [← g.outputField typing item]

/-- The schema of a node from the typing of its children. -/
def schemaStep (g : Graph) (typing : NodeId → Typing) (id : NodeId) :
    Except GraphError Schema :=
  match g.node id with
  | .table t => .ok t.schema
  | .view t | .selection t _ | .sort t _ | .limit t _ _ | .distinct t => (typing t).schema
  | .union l _ _ => (typing l).schema
  | .projection _ selections => do
    return Schema.ofFields (← selections.mapM (g.itemFields typing)).flatten
  | .aggregation _ keys metrics _ => do
    return Schema.ofFields (← (keys ++ metrics).mapM (g.outputField typing))
  | .join kind l r _ => do
    let left ← (typing l).schema
    if kind.leftOnly then return left
    else return left.merge (← (typing r).schema)
  | _ => .error (.notATable id)

/-- The type of a function's value from the typing of its arguments. -/
def callType (typing : NodeId → Typing) (function : Function) (arguments : List NodeId) :
    Except GraphError DataType :=
  match function with
  | .now => .ok .timestamp
  | .lower | .upper => .ok .string
  | .length => .ok .int32
  | .abs | .coalesce =>
    match arguments with
    | arg :: _ => (typing arg).dataType
    | [] => .ok .null
  | .ceil | .floor => .ok .int64
  | .ln | .log10 | .exp | .sqrt => .ok .double

/-- The type of an operation on two operands from their typing. -/
def binaryType (g : Graph) (typing : NodeId → Typing) (op : BinaryOp)
    (left right : NodeId) : Except GraphError DataType :=
  if op.isComparison || op.isLogical then .ok .boolean
  else
    match g.node right with
    | .interval _ _ => (typing left).dataType
    | _ =>
      if op = .div ∨ op = .pow then .ok .double
      else do return (← (typing left).dataType).promote (← (typing right).dataType)

/-- The type of an aggregate of values of a type. -/
def reductionType (aggregate : Aggregate) (arg : Except GraphError DataType) :
    Except GraphError DataType :=
  match aggregate with
  | .count | .countDistinct => .ok .int64
  | .mean => .ok .double
  | .sum => do
    let t ← arg
    return if t.isInteger || t = .boolean then .int64 else t
  | .min | .max => arg

/-- The type of a node from the typing of its children. -/
def dataTypeStep (g : Graph) (typing : NodeId → Typing) (id : NodeId) :
    Except GraphError DataType :=
  match g.node id with
  | .literal v => .ok v.dataType
  | .interval _ _ => .ok .int64
  | .column t name => do
    return (← (← (typing t).schema).field name).type
  | .named arg _ => (typing arg).dataType
  | .unary .negate arg => (typing arg).dataType
  | .unary _ _ => .ok .boolean
  | .binary op l r => g.binaryType typing op l r
  | .call function arguments => callType typing function arguments
  | .cast _ target => .ok target
  | .extract _ _ => .ok .int32
  | .case _ whens default => do
    let types ← (whens.map Prod.snd ++ default.toList).mapM fun r => (typing r).dataType
    return (types.find? (· ≠ .null)).getD .null
  | .between _ _ _ | .contains _ _ _ | .topK _ _ _ | .any _ => .ok .boolean
  | .reduction aggregate arg => reductionType aggregate (typing arg).dataType
  | .countStar _ => .ok .int64
  | _ => .error (.notAValue id)

/-- The typing of a node from that of its children. -/
def typingStep (g : Graph) (typing : NodeId → Typing) (id : NodeId) : Typing :=
  ⟨g.schemaStep typing id, g.dataTypeStep typing id⟩

/-- The typing of a node. -/
def typing (g : Graph) : NodeId → Typing :=
  NodeId.recurse (fun id => ⟨.error (.notATable id), .error (.notAValue id)⟩) g.typingStep

/-- The schema of a table. -/
def schema (g : Graph) (id : NodeId) : Except GraphError Schema :=
  (g.typing id).schema

/-- The type of a value. -/
def dataType (g : Graph) (id : NodeId) : Except GraphError DataType :=
  (g.typing id).dataType

/-- Whether a table has a field of the name. -/
def hasField (g : Graph) (table : NodeId) (name : String) : Bool :=
  match g.schema table with
  | .ok s => (s.field? name).isSome
  | .error _ => false

/-- Whether an item of a projection provides the name. -/
def provides (g : Graph) (name : String) (item : NodeId) : Bool :=
  (g.isRelation item && g.hasField item name) || g.name? item == some name

/-- Whether a name of a table stands for fields of both sides of a join below it. -/
def isAmbiguous (g : Graph) (table : NodeId) (name : String) : Bool :=
  NodeId.recurse (fun _ => false)
    (fun below id =>
      match g.node id with
      | .selection t _ | .sort t _ | .limit t _ _ | .distinct t => below t
      | .projection _ selections =>
        match selections.find? (g.provides name) with
        | some item => g.isRelation item && below item
        | none => false
      | .join kind l r _ =>
        if kind.leftOnly then below l
        else
          match g.hasField l name, g.hasField r name with
          | true, true => true
          | true, false => below l
          | false, true => below r
          | false, false => false
      | _ => false)
    table

end Graph

end RelSql
